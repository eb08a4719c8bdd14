import GrammarWorkbench.Proofs.Succession
import Mathlib.Data.List.Nodup
import Mathlib.Data.List.Perm.Subperm
import Mathlib.Order.Bounds.Defs

/-!
# Names are given out once

A supply of names may be kept for as long as one likes. Between two names the grammar can become
any other: rules are added or replaced, transformations are applied to it, or it is exchanged
altogether, so that the names given out before are no rules any more. That no name comes twice
cannot be read off the grammar then. It is the number kept by the supply that sees to it: the
next number is above the last one, and numbers have different names.

What the grammar decides is which numbers are passed over, and that the search for the next
number ends, since there are no more of these than rules (`NameAllocator.next_le`).

Names are given out on request, and inside of transformations that are handed the supply. Either
way each is asked of the supply that the one before has left (`GivesOut`), which is all that
matters (`GivesOut.pairwise`).
-/

namespace GrammarWorkbench

/-! ## The next number -/

namespace NameAllocator

/-- **The next number is the least one above the last whose name is no rule.** -/
theorem isLeast_next (names : NameAllocator) (g : Grammar) :
    IsLeast {k | names.last < k ∧ mintedName k ∉ g.ruleNames} (names.next g) := by
  refine ⟨⟨names.last_lt_next g, names.fresh_not_mem g⟩, fun k hk => ?_⟩
  by_contra hlt
  exact hk.2 (mintedName_mem_of_lt_leastFree hk.1 (Nat.lt_of_not_le hlt))

/-- **The search for it passes over no more numbers than there are rules.** -/
theorem next_le (names : NameAllocator) (g : Grammar) :
    names.next g ≤ names.last + g.ruleNames.length + 1 := by
  have hlt := names.last_lt_next g
  let passed := List.range' (names.last + 1) (names.next g - (names.last + 1))
  have hnodup : (passed.map mintedName).Nodup :=
    List.Nodup.map (fun _ _ => mintedName_injective) (List.nodup_range' 1 Nat.one_pos)
  have hrules : passed.map mintedName ⊆ g.ruleNames := by
    intro name hname
    obtain ⟨k, hk, rfl⟩ := List.mem_map.mp hname
    rw [List.mem_range'_1] at hk
    exact mintedName_mem_of_lt_leastFree hk.1 (show k < names.next g by omega)
  have hlength := (hnodup.subperm hrules).length_le
  rw [List.length_map, List.length_range'] at hlength
  omega

end NameAllocator

/-! ## Sessions -/

/-- **What can happen in a session**, in which one supply is kept while the grammar changes. -/
inductive Move where
  /-- A name is asked for. -/
  | mint
  /-- The grammar becomes another one, in whatever way. -/
  | change (f : Grammar → Grammar)
  /-- Left recursion is eliminated from the first `n` rules with names from the supply. -/
  | eliminate (n : Nat)
  /-- The grammar is factored with names from the supply. -/
  | factor

/-- A grammar, and the supply that is kept. -/
structure Session where
  /-- The grammar at hand. -/
  grammar : Grammar
  /-- The supply. -/
  names : NameAllocator

namespace Session

/-- The session after a move. -/
def after (s : Session) : Move → Session
  | .mint => { s with names := (s.names.fresh s.grammar).2 }
  | .change f => { s with grammar := f s.grammar }
  | .eliminate n =>
    let done := Elimination.rounds n (Elimination.start s.grammar s.names)
    ⟨done.grammar, done.names⟩
  | .factor =>
    let done := s.grammar.leftFactorWith s.names
    ⟨done.grammar, done.names⟩

/-- The names given out in a move. -/
def mintedBy (s : Session) : Move → List Minting
  | .mint => [⟨s.grammar, s.names⟩]
  | .change _ => []
  | .eliminate n => Elimination.mintings n (Elimination.start s.grammar s.names)
  | .factor => (Factoring.start s.grammar s.names).mintings

/-- **The names given out in a session**, in their order. -/
def minted : Session → List Move → List Minting
  | _, [] => []
  | s, move :: moves => s.mintedBy move ++ minted (s.after move) moves

variable (s : Session)

theorem givesOut_move (move : Move) :
    GivesOut s.names (s.mintedBy move) (s.after move).names := by
  cases move with
  | mint => exact .single _ _
  | change f => exact .nil _
  | eliminate n => exact Elimination.givesOut_rounds n (Elimination.ordered_start _ _)
  | factor => exact Factoring.givesOut_run (Factoring.start s.grammar s.names)

/-- **A session is a succession of names.** -/
theorem givesOut (moves : List Move) :
    GivesOut s.names (s.minted moves) (moves.foldl after s).names := by
  induction moves generalizing s with
  | nil => exact .nil _
  | cons move moves ih => exact (s.givesOut_move move).append (ih _)

/-- **No name is given out twice.** In a session of any length each name is asked of the supply
that the name before has left, whatever the grammar is by then. It is `X` with the least number
above the last one whose name is no rule at that moment. To find it no more numbers are passed
over than there are rules. Over the session the numbers ascend, and the names are different. -/
theorem names_never_repeat (moves : List Move) :
    (∀ m ∈ s.minted moves,
        m.names.fresh m.grammar = ("X" ++ toString m.number, ⟨m.number⟩)
          ∧ IsLeast {k | m.names.last < k ∧ "X" ++ toString k ∉ m.grammar.ruleNames} m.number
          ∧ m.number ≤ m.names.last + m.grammar.ruleNames.length + 1)
      ∧ GivesOut s.names (s.minted moves) (moves.foldl after s).names
      ∧ ((s.minted moves).map Minting.number).Pairwise (· < ·)
      ∧ ((s.minted moves).map Minting.name).Nodup := by
  have hgiven := s.givesOut moves
  refine ⟨fun m _ => ⟨rfl, m.names.isLeast_next m.grammar, m.names.next_le m.grammar⟩, hgiven,
    hgiven.pairwise, ?_⟩
  have hnames : (s.minted moves).map Minting.name
      = ((s.minted moves).map Minting.number).map mintedName := by
    rw [List.map_map]
    rfl
  rw [hnames]
  exact List.Nodup.map (fun _ _ => mintedName_injective) (hgiven.pairwise.imp Nat.ne_of_lt)

/-- A grammar with a rule that is left-recursive. -/
def recursive : Grammar :=
  (∅ : Grammar).setProductions "S"
    [.ofSymbols [.nonTerminal "S", .terminal "a"], .ofSymbols [.terminal "b"]]

/-- A name is asked for and not used; a rule takes the name that would be next; another grammar
is transformed; and in the end all rules are gone. -/
def eventful : List Move :=
  [.mint, .change (fun g => g.setProductions "X2" []), .mint, .change (fun _ => recursive),
    .eliminate 1, .change (fun _ => ∅), .mint]

/-- The name of the rule is passed over, and the last name does not come back to those that are
no rules any more. -/
theorem names_never_repeat_eventful :
    ((Session.mk ∅ .initial).minted eventful).map Minting.name = ["X1", "X3", "X4", "X5"]
      ∧ (∃ m ∈ (Session.mk ∅ .initial).minted eventful, m.grammar.ruleNames = ["X2"]
        ∧ m.names.fresh m.grammar = ("X" ++ toString 3, ⟨3⟩)
        ∧ IsLeast {k | 1 < k ∧ "X" ++ toString k ∉ ["X2"]} 3
        ∧ m.number ≤ m.names.last + m.grammar.ruleNames.length + 1)
      ∧ ((Session.mk ∅ .initial).minted eventful).map Minting.number = [1, 3, 4, 5]
      ∧ (((Session.mk ∅ .initial).minted eventful).map Minting.number).Pairwise (· < ·)
      ∧ (((Session.mk ∅ .initial).minted eventful).map Minting.name).Nodup := by
  have hnumbers : ((Session.mk ∅ .initial).minted eventful).map Minting.number = [1, 3, 4, 5] := by
    decide +kernel
  have hnames : ((Session.mk ∅ .initial).minted eventful).map Minting.name
      = ["X1", "X3", "X4", "X5"] := by decide +kernel
  obtain ⟨hleast, -, hpairwise, hnodup⟩ := names_never_repeat (Session.mk ∅ .initial) eventful
  refine ⟨hnames, ?_, hnumbers, hpairwise, hnodup⟩
  have hsecond : (⟨(∅ : Grammar).setProductions "X2" [], ⟨1⟩⟩ : Minting)
      ∈ (Session.mk ∅ .initial).minted eventful := by decide +kernel
  have hnumber : Minting.number ⟨(∅ : Grammar).setProductions "X2" [], ⟨1⟩⟩ = 3 := by
    decide +kernel
  have hrules : ((∅ : Grammar).setProductions "X2" []).ruleNames = ["X2"] := by decide +kernel
  obtain ⟨hfresh, hnext, hbound⟩ := hleast _ hsecond
  rw [hnumber] at hfresh hnext
  rw [hrules] at hnext
  exact ⟨_, hsecond, hrules, hfresh, hnext, hbound⟩

end Session

end GrammarWorkbench
