import GrammarWorkbench.Proofs.LeftRecursion.Round
import Mathlib.Data.List.Basic

/-!
# The order of turns

Every rule has one turn in an elimination (`turn_unique`), and rules keep their places in
the order of turns (`place_round`): the rules that the grammar came with stand first, and a
helper is put behind all rules that there are when it comes in. Names are given out in
rounds that bring in a helper, and in no other (`names_round_of_tails_eq_nil`).
-/

namespace GrammarWorkbench

namespace Elimination

variable {s : Elimination} {left name inner : String} {rest : List String}

/-! ## Places in the order -/

/-- All rules, in the order of their turns. -/
def order (s : Elimination) : List String := s.processed ++ s.pending

/-- The place of a rule in the order. -/
def place (s : Elimination) (name : String) : Nat := s.order.idxOf name

theorem mem_processed_iff : name ∈ s.processed ↔ s.place name < s.processed.length := by
  unfold place order
  by_cases hname : name ∈ s.processed
  · rw [List.idxOf_append_of_mem hname]
    exact iff_of_true hname (List.idxOf_lt_length_iff.mpr hname)
  · rw [List.idxOf_append_of_notMem hname]
    exact iff_of_false hname (by omega)

/-- The rule whose turn it is stands behind the processed ones. -/
theorem place_of_turn (hs : s.Ordered) (hpending : s.pending = left :: rest) :
    s.place left = s.processed.length := by
  unfold place order
  rw [List.idxOf_append_of_notMem (hs.not_mem_processed hpending), hpending,
    List.idxOf_cons_self, Nat.add_zero]

/-- Cut the processed rules behind one of them: no other in front has a higher place. -/
theorem place_le_of_split (hs : s.Ordered) {before after : List String}
    (hsplit : s.processed = before ++ inner :: after) (hname : name ∈ before ++ [inner]) :
    s.place name ≤ s.place inner := by
  have horder : s.order = (before ++ [inner]) ++ (after ++ s.pending) := by
    unfold order
    rw [hsplit]
    simp
  have hnot : inner ∉ before := by
    have hnodup := (List.nodup_append.mp hs.nodup).1
    rw [hsplit, List.nodup_append] at hnodup
    exact fun hmem => hnodup.2.2 inner hmem inner List.mem_cons_self rfl
  unfold place
  rw [horder, List.idxOf_append_of_mem hname,
    List.idxOf_append_of_mem (List.mem_append_right _ List.mem_cons_self),
    List.idxOf_append_of_notMem hnot, List.idxOf_cons_self, Nat.add_zero]
  have := List.idxOf_lt_length_iff.mpr hname
  rw [List.length_append, List.length_singleton] at this
  omega

/-- What stands before some rule is a rule. -/
theorem mem_ruleNames_of_place_lt (hs : s.Ordered) (h : s.place inner < s.place name) :
    inner ∈ s.grammar.ruleNames := by
  have hlt : s.place inner < s.order.length := Nat.lt_of_lt_of_le h List.idxOf_le_length
  exact hs.mem_iff.mpr (List.mem_append.mp (List.idxOf_lt_length_iff.mp hlt))

/-- A round with recursion puts the helper last; any other leaves the order alone. -/
theorem order_round (hs : s.Ordered) (hpending : s.pending = left :: rest) :
    s.round.order = s.order ++ (if Production.recursiveTails left (s.expanded left) = [] then []
      else [s.helper]) := by
  unfold order
  rw [processed_round hpending, hpending, List.append_assoc, List.append_assoc]
  cases round_effect hs hpending with
  | dropped tails_eq pending_eq _ _ => rw [if_pos tails_eq, pending_eq]; simp
  | split tails_ne pending_eq _ _ => rw [if_neg tails_ne, pending_eq]; rfl

/-- **Rules keep their places.** -/
theorem place_round (hs : s.Ordered) (hname : name ∈ s.grammar.ruleNames) :
    s.round.place name = s.place name := by
  cases hpending : s.pending with
  | nil => rw [round_of_finished hpending]
  | cons left rest =>
    have hmem : name ∈ s.order := List.mem_append.mpr (hs.mem_iff.mp hname)
    unfold place
    rw [order_round hs hpending, List.idxOf_append_of_mem hmem]

/-- The helper that a round brings in stands behind all other rules. -/
theorem place_lt_place_helper (hs : s.Ordered) (hpending : s.pending = left :: rest)
    (htails : Production.recursiveTails left (s.expanded left) ≠ [])
    (hname : name ∈ s.grammar.ruleNames) : s.round.place name < s.round.place s.helper := by
  have hmem : name ∈ s.order := List.mem_append.mpr (hs.mem_iff.mp hname)
  have hnot : s.helper ∉ s.order := fun h =>
    s.helper_not_mem (hs.mem_iff.mpr (List.mem_append.mp h))
  unfold place
  rw [order_round hs hpending, if_neg htails, List.idxOf_append_of_mem hmem,
    List.idxOf_append_of_notMem hnot]
  exact Nat.lt_add_right _ (List.idxOf_lt_length_iff.mpr hmem)

/-! ## Turns -/

/-- A rule that was processed stays processed. -/
theorem mem_processed_rounds (hname : name ∈ s.processed) (n : Nat) :
    name ∈ (rounds n s).processed := by
  induction n generalizing s with
  | zero => exact hname
  | succ n ih =>
    refine ih ?_
    cases hpending : s.pending with
    | nil => rw [round_of_finished hpending]; exact hname
    | cons left rest =>
      rw [processed_round hpending]
      exact List.mem_append_left _ hname

/-- **Every rule has one turn.** -/
theorem turn_unique (hs : s.Ordered) {i j : Nat} {rest' : List String}
    (hi : (rounds i s).pending = left :: rest) (hj : (rounds j s).pending = left :: rest') :
    i = j := by
  have key : ∀ i j rest rest', i < j → (rounds i s).pending = left :: rest →
      (rounds j s).pending ≠ left :: rest' := by
    intro i j rest rest' hij hi hj
    obtain ⟨more, rfl⟩ := Nat.exists_eq_add_of_lt hij
    refine (ordered_rounds hs _).not_mem_processed hj ?_
    rw [Nat.add_right_comm, rounds_add, rounds_add]
    refine mem_processed_rounds ?_ more
    show left ∈ (rounds i s).round.processed
    rw [processed_round hi]
    exact List.mem_append_right _ List.mem_cons_self
  rcases Nat.lt_trichotomy i j with hij | hij | hij
  · exact absurd hj (key i j rest rest' hij hi)
  · exact hij
  · exact absurd hi (key j i rest' rest hij hj)

/-! ## Names given out -/

/-- A round without recursion gives out no name. -/
theorem names_round_of_tails_eq_nil (hpending : s.pending = left :: rest)
    (htails : Production.recursiveTails left (s.expanded left) = []) :
    s.round.names = s.names := by
  rw [round_eq hpending, eliminateDirect_of_tails_eq_nil htails]
  split <;> rfl

end Elimination

end GrammarWorkbench
