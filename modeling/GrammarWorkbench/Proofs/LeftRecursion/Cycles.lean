import GrammarWorkbench.Derivation
import GrammarWorkbench.Grammar.Reader
import GrammarWorkbench.Proofs.LeftRecursion.Round
import Mathlib.Data.List.Permutation
import Mathlib.Logic.Relation

/-!
# When elimination leaves left recursion

A grammar is left-recursive if following the first symbols of alternatives leads from
some non-terminal back to it (`LeftRecursive`). An elimination that ends is meant to
leave no such cycle, and mostly it does: leading references to processed rules are
replaced, so the references left over lead onwards, to rules processed later.

There is one way out of this order. Replacing a reference to a rule with an empty
alternative lets the next symbol come to the front, and that may be a rule whose turn
to be replaced is over. Such a reference leads backwards, and if the rule that it leads
to already leads, through processed rules, to the rule at hand, a cycle is closed
(`ClosesCycle`). A cycle in the result was closed by some round, the one that processed
its last rule, so the result is free of left recursion exactly if no round closes a
cycle (`not_leftRecursive_iff`). The smallest grammar with such a round has two rules.
-/

namespace GrammarWorkbench

/-! ## Cycles through new edges -/

section Edges

variable {α : Type} {r r' : α → α → Prop} {e : α → Prop} {a b c : α}

/-- A path to `c` does not need the edges that leave `c`. -/
theorem reflTransGen_of_new_edges (h : ∀ x y, r' x y → r x y ∨ x = c ∧ e y)
    (hpath : Relation.ReflTransGen r' b c) : Relation.ReflTransGen r b c := by
  induction hpath using Relation.ReflTransGen.head_induction_on with
  | refl => exact Relation.ReflTransGen.refl
  | @head x y hxy _ ih =>
    rcases h x y hxy with hold | ⟨rfl, -⟩
    · exact Relation.ReflTransGen.head hold ih
    · exact Relation.ReflTransGen.refl

/-- A path is a path without new edges, or it comes by `c` and goes on along a new
edge. -/
theorem transGen_of_new_edges (h : ∀ x y, r' x y → r x y ∨ x = c ∧ e y)
    (hold : ∀ x y, r x y → r' x y) (hpath : Relation.TransGen r' a b) :
    Relation.TransGen r a b
      ∨ Relation.ReflTransGen r' a c ∧ ∃ d, e d ∧ Relation.ReflTransGen r' d b := by
  induction hpath with
  | @single b hab =>
    rcases h a b hab with hab | ⟨rfl, hb⟩
    · exact Or.inl (Relation.TransGen.single hab)
    · exact Or.inr ⟨Relation.ReflTransGen.refl, b, hb, Relation.ReflTransGen.refl⟩
  | @tail b d _ hbd ih =>
    rcases ih with hpath | ⟨hac, x, hx, hxb⟩
    · rcases h b d hbd with hbd | ⟨rfl, hd⟩
      · exact Or.inl (hpath.tail hbd)
      · refine Or.inr ⟨?_, d, hd, Relation.ReflTransGen.refl⟩
        exact (Relation.TransGen.mono hold _ _ hpath).to_reflTransGen
    · exact Or.inr ⟨hac, x, hx, hxb.tail hbd⟩

/-- **A cycle is a cycle without new edges, or a new edge leads to a way back.** -/
theorem transGen_self_of_new_edges (h : ∀ x y, r' x y → r x y ∨ x = c ∧ e y)
    (hold : ∀ x y, r x y → r' x y) (hcycle : Relation.TransGen r' a a) :
    Relation.TransGen r a a ∨ ∃ d, e d ∧ Relation.ReflTransGen r d c := by
  rcases transGen_of_new_edges h hold hcycle with hcycle | ⟨hac, d, hd, hda⟩
  · exact Or.inl hcycle
  · exact Or.inr ⟨d, hd, reflTransGen_of_new_edges h (hda.trans hac)⟩

end Edges

/-- **Following first symbols leads from some non-terminal back to it.** -/
def Grammar.LeftRecursive (g : Grammar) : Prop :=
  ∃ name, Relation.TransGen g.LeadsTo name name

/-- A pushed helper is the first symbol only where there was none. -/
theorem Production.startsWith_push_iff {p : Production} {helper name : String} :
    (p.push (.nonTerminal helper)).startsWith name = true
      ↔ p.startsWith name = true ∨ p.body = [] ∧ helper = name := by
  simp only [startsWith_iff, body_push_nonTerminal]
  cases p.body with
  | nil => simp
  | cons s l => simp

namespace Elimination

variable {s : Elimination} {left : String} {rest : List String} {name : String}

/-- A processed rule has an alternative that begins with `inner`. -/
def ProcessedLeadsTo (s : Elimination) (left inner : String) : Prop :=
  left ∈ s.processed ∧ s.grammar.LeadsTo left inner

/-- **The next round closes a cycle**: the expansion brings a processed rule to the
front that already leads, through processed rules, to the rule at hand. -/
def ClosesCycle (s : Elimination) : Prop :=
  ∃ left rest, s.pending = left :: rest ∧ ∃ inner ∈ s.processed,
    (∃ p ∈ s.expanded left, p.startsWith inner = true)
      ∧ Relation.ReflTransGen s.ProcessedLeadsTo inner left

/-! ## What a round does to first symbols -/

/-- The rule of a round leads to a name that its expansion leads to, unless that is the
rule itself; and it may lead to the new helper. -/
theorem leadsTo_round_iff (hs : s.Ordered) (hpending : s.pending = left :: rest)
    (hname : name ∈ s.grammar.ruleNames) :
    s.round.grammar.LeadsTo left name
      ↔ name ≠ left ∧ ∃ p ∈ s.expanded left, p.startsWith name = true := by
  have hdirect : (∃ p ∈ Production.nonRecursive left (s.expanded left), p.startsWith name = true)
      ↔ name ≠ left ∧ ∃ p ∈ s.expanded left, p.startsWith name = true := by
    constructor
    · rintro ⟨p, hp, hlead⟩
      obtain ⟨hp, hnot⟩ := Production.mem_nonRecursive.mp hp
      refine ⟨fun hne => ?_, p, hp, hlead⟩
      rw [← hne, hlead] at hnot
      exact absurd hnot (by simp)
    · rintro ⟨hne, p, hp, hlead⟩
      refine ⟨p, Production.mem_nonRecursive.mpr ⟨hp, ?_⟩, hlead⟩
      rw [Production.startsWith_false_iff]
      intro tail htail
      rw [Production.body_eq_of_startsWith hlead] at htail
      exact hne (Symbol.nonTerminal.inj (List.cons.inj htail).1)
  unfold Grammar.LeadsTo
  cases round_effect hs hpending with
  | dropped _ _ _ productions_eq =>
    rw [productions_eq, if_pos rfl]
    exact hdirect
  | split _ _ _ productions_eq =>
    have hne : left ≠ s.helper := fun h => s.helper_not_mem (h ▸ hs.mem_ruleNames hpending)
    have hhelper : s.helper ≠ name := fun h => s.helper_not_mem (h ▸ hname)
    rw [productions_eq, if_neg hne, if_pos rfl, ← hdirect]
    constructor
    · rintro ⟨q, hq, hlead⟩
      obtain ⟨p, hp, rfl⟩ := List.mem_map.mp hq
      rcases Production.startsWith_push_iff.mp hlead with hlead | ⟨-, heq⟩
      · exact ⟨p, hp, hlead⟩
      · exact absurd heq hhelper
    · rintro ⟨p, hp, hlead⟩
      exact ⟨_, List.mem_map.mpr ⟨p, hp, rfl⟩, Production.startsWith_push_iff.mpr (Or.inl hlead)⟩

/-- The other processed rules lead where they led before. -/
theorem processedLeadsTo_round_iff (hs : s.Ordered) (hpending : s.pending = left :: rest)
    (a b : String) :
    s.round.ProcessedLeadsTo a b
      ↔ s.ProcessedLeadsTo a b ∨ a = left ∧ s.round.grammar.LeadsTo left b := by
  have hsame : a ∈ s.processed → (s.round.grammar.LeadsTo a b ↔ s.grammar.LeadsTo a b) := by
    intro ha
    have hne : a ≠ left := fun h => hs.not_mem_processed hpending (h ▸ ha)
    unfold Grammar.LeadsTo
    rw [productions_round_of_ne hs hpending (hs.processed_subset ha) hne]
  unfold ProcessedLeadsTo
  rw [processed_round hpending, List.mem_append, List.mem_singleton]
  constructor
  · rintro ⟨ha | rfl, hlead⟩
    · exact Or.inl ⟨ha, (hsame ha).mp hlead⟩
    · exact Or.inr ⟨rfl, hlead⟩
  · rintro (⟨ha, hlead⟩ | ⟨rfl, hlead⟩)
    · exact ⟨Or.inl ha, (hsame ha).mpr hlead⟩
    · exact ⟨Or.inr rfl, hlead⟩

/-- **A processed rule does not lead to itself.** -/
theorem not_processedLeadsTo_self_round (hs : s.Ordered)
    (h : ∀ name, ¬ s.ProcessedLeadsTo name name) (name : String) :
    ¬ s.round.ProcessedLeadsTo name name := by
  cases hpending : s.pending with
  | nil => rw [round_of_finished hpending]; exact h name
  | cons left rest =>
    rw [processedLeadsTo_round_iff hs hpending]
    rintro (hold | ⟨rfl, hlead⟩)
    · exact h name hold
    · exact ((leadsTo_round_iff hs hpending (hs.mem_ruleNames hpending)).mp hlead).1 rfl

/-- **Cycles among processed rules are kept, and those that a round closes come in.** -/
theorem cycle_round_iff (hs : s.Ordered) :
    (∃ a, Relation.TransGen s.round.ProcessedLeadsTo a a)
      ↔ (∃ a, Relation.TransGen s.ProcessedLeadsTo a a) ∨ s.ClosesCycle := by
  cases hpending : s.pending with
  | nil =>
    rw [round_of_finished hpending]
    refine (or_iff_left ?_).symm
    rintro ⟨left, rest, hcons, -⟩
    rw [hpending] at hcons
    exact absurd hcons (by simp)
  | cons left rest =>
    have hedges := processedLeadsTo_round_iff hs hpending
    have hkeep : ∀ a b, s.ProcessedLeadsTo a b → s.round.ProcessedLeadsTo a b :=
      fun a b h => (hedges a b).mpr (Or.inl h)
    constructor
    · rintro ⟨a, hcycle⟩
      rcases transGen_self_of_new_edges (fun x y h => (hedges x y).mp h) hkeep hcycle with
        hcycle | ⟨inner, hlead, hback⟩
      · exact Or.inl ⟨a, hcycle⟩
      · -- the way back leaves `inner`, which is therefore processed
        have hinner : inner = left ∨ inner ∈ s.processed := by
          rcases hback.cases_head with heq | ⟨_, hstep, -⟩
          · exact Or.inl heq
          · exact Or.inr hstep.1
        have hrule : inner ∈ s.grammar.ruleNames := by
          rcases hinner with rfl | hinner
          · exact hs.mem_ruleNames hpending
          · exact hs.processed_subset hinner
        obtain ⟨hne, hexpanded⟩ := (leadsTo_round_iff hs hpending hrule).mp hlead
        exact Or.inr ⟨left, rest, hpending, inner, hinner.resolve_left hne, hexpanded, hback⟩
    · rintro (⟨a, hcycle⟩ | ⟨left', rest', hcons, inner, hinner, hexpanded, hback⟩)
      · exact ⟨a, Relation.TransGen.mono hkeep _ _ hcycle⟩
      · obtain ⟨rfl, rfl⟩ := List.cons.inj (hpending.symm.trans hcons)
        have hne : inner ≠ left := fun h => hs.not_mem_processed hpending (h ▸ hinner)
        have hlead := (leadsTo_round_iff hs hpending (hs.processed_subset hinner)).mpr
          ⟨hne, hexpanded⟩
        have hfirst : s.round.ProcessedLeadsTo left inner :=
          (hedges left inner).mpr (Or.inr ⟨rfl, hlead⟩)
        exact ⟨left, Relation.TransGen.head' hfirst (Relation.ReflTransGen.mono hkeep _ _ hback)⟩

/-- **A cycle among processed rules was closed by some round.** -/
theorem cycle_rounds_iff (g : Grammar) (names : NameAllocator) (n : Nat) :
    (∃ a, Relation.TransGen (rounds n (start g names)).ProcessedLeadsTo a a)
      ↔ ∃ i < n, (rounds i (start g names)).ClosesCycle := by
  induction n with
  | zero =>
    constructor
    · rintro ⟨a, hcycle⟩
      obtain ⟨_, hstep, -⟩ := Relation.TransGen.head'_iff.mp hcycle
      exact absurd hstep.1 List.not_mem_nil
    · rintro ⟨i, hi, -⟩
      exact absurd hi (Nat.not_lt_zero i)
  | succ n ih =>
    rw [rounds_add n 1]
    show (∃ a, Relation.TransGen (rounds n (start g names)).round.ProcessedLeadsTo a a) ↔ _
    rw [cycle_round_iff (ordered_rounds (ordered_start g names) n), ih]
    constructor
    · rintro (⟨i, hi, hcloses⟩ | hcloses)
      · exact ⟨i, Nat.lt_succ_of_lt hi, hcloses⟩
      · exact ⟨n, Nat.lt_succ_self n, hcloses⟩
    · rintro ⟨i, hi, hcloses⟩
      rcases Nat.lt_succ_iff_lt_or_eq.mp hi with hi | rfl
      · exact Or.inl ⟨i, hi, hcloses⟩
      · exact Or.inr hcloses

/-- When nothing is pending, every rule that leads somewhere is processed. -/
theorem leftRecursive_iff_of_finished (hs : s.Ordered) (hpending : s.pending = []) :
    s.grammar.LeftRecursive ↔ ∃ a, Relation.TransGen s.ProcessedLeadsTo a a := by
  have hedge : ∀ a b, s.grammar.LeadsTo a b → s.ProcessedLeadsTo a b := by
    rintro a b ⟨p, hp, hlead⟩
    have hrule := hs.mem_iff.mp (Grammar.mem_ruleNames_of_mem hp)
    rw [hpending] at hrule
    exact ⟨hrule.resolve_right List.not_mem_nil, p, hp, hlead⟩
  constructor
  · rintro ⟨a, hcycle⟩
    exact ⟨a, Relation.TransGen.mono hedge _ _ hcycle⟩
  · rintro ⟨a, hcycle⟩
    exact ⟨a, Relation.TransGen.mono (fun _ _ h => h.2) _ _ hcycle⟩

/-- **An elimination that ends leaves no left recursion exactly if no round closes a
cycle.** -/
theorem not_leftRecursive_iff {g : Grammar} {names : NameAllocator} {n : Nat}
    (hpending : (rounds n (start g names)).pending = []) :
    ¬ (rounds n (start g names)).grammar.LeftRecursive
      ↔ ∀ i < n, ¬ (rounds i (start g names)).ClosesCycle := by
  rw [leftRecursive_iff_of_finished (ordered_rounds (ordered_start g names) n) hpending,
    cycle_rounds_iff]
  constructor
  · intro h i hi hcloses
    exact h ⟨i, hi, hcloses⟩
  · rintro h ⟨i, hi, hcloses⟩
    exact h i hi hcloses

/-- The smallest grammar in which a round closes a cycle. The empty alternative of `A`
brings the second `A` of the rule `B` to the front, when `A` is processed already. -/
def backward : Grammar :=
  ((∅ : Grammar).setProductions "A"
    [.ofSymbols [.nonTerminal "B", .terminal "y"], .epsilon]).setProductions "B"
    [.ofSymbols [.nonTerminal "A", .nonTerminal "A", .terminal "x"]]

theorem pending_rounds_backward :
    (rounds 3 (start backward NameAllocator.initial)).pending = [] := by
  cbv

/-- The equivalence at the grammar in which both sides fail. -/
theorem not_leftRecursive_iff_backward :
    (rounds 3 (start backward NameAllocator.initial)).pending = []
    ∧ (¬ (rounds 3 (start backward NameAllocator.initial)).grammar.LeftRecursive
      ↔ ∀ i < 3, ¬ (rounds i (start backward NameAllocator.initial)).ClosesCycle) :=
  ⟨pending_rounds_backward, not_leftRecursive_iff pending_rounds_backward⟩

/-- **An elimination that ends can leave left recursion**: `A` leads to `B`, and `B` was
left leading to `A`. -/
theorem leftRecursive_eliminated_backward :
    ∃ g done, Grammar.parse "A->By|ϵ
B->AAx" = .ok g ∧ g.eliminateLeftRecursion = .ok done
      ∧ done.pending = [] ∧ done.grammar.LeftRecursive := by
  refine ⟨backward, rounds 3 (start backward NameAllocator.initial), by decide +kernel, ?_,
    pending_rounds_backward, "A", ?_⟩
  · have hlimit : 3 ≤ backward.eliminationLimit := by decide
    exact Grammar.eliminated_of_finished hlimit pending_rounds_backward
  · have hA : (rounds 3 (start backward NameAllocator.initial)).grammar.productions "A"
        = [.ofSymbols [.nonTerminal "B", .terminal "y"], .epsilon] := by cbv
    have hB : (rounds 3 (start backward NameAllocator.initial)).grammar.productions "B"
        = [.ofSymbols [.nonTerminal "A", .terminal "x", .nonTerminal "X1"]] := by cbv
    have hAB : (rounds 3 (start backward NameAllocator.initial)).grammar.LeadsTo "A" "B" :=
      ⟨_, hA ▸ List.mem_cons_self, by decide⟩
    have hBA : (rounds 3 (start backward NameAllocator.initial)).grammar.LeadsTo "B" "A" :=
      ⟨_, hB ▸ List.mem_cons_self, by decide⟩
    exact (Relation.TransGen.single hAB).tail hBA

end Elimination

end GrammarWorkbench
