import GrammarWorkbench.Proofs.LeftRecursion.Cycles
import GrammarWorkbench.Proofs.LeftRecursion.Order

/-!
# Rule by rule

An elimination may leave cycles through several rules, and it may not end, but two things hold
of every grammar and at every time. A rule that has had its turn is not touched again
(`productions_rounds_of_processed`), and no alternative of it begins with the rule itself
(`not_processedLeadsTo_self_rounds`). The expansion of a rule can well bring the rule to the
front, through an empty alternative or through a chain of rules. This happens before the rule
loses its direct recursion, and what it gets in its turn behind an empty alternative is the new
helper, which is another rule.

Nothing is asked of the grammar. Alternatives may mention non-terminals without a rule, and a
helper may get the name of one of them; it then has references to itself from the start, and
loses them in its own turn.
-/

namespace GrammarWorkbench

namespace Elimination

variable {s : Elimination} {left name : String} {rest : List String}

/-- **A processed rule keeps its alternatives**, however many rounds follow. -/
theorem productions_rounds_of_processed (hs : s.Ordered) (hname : name ∈ s.processed) (n : Nat) :
    (rounds n s).grammar.productions name = s.grammar.productions name := by
  induction n generalizing s with
  | zero => rfl
  | succ n ih =>
    have hround : s.round.grammar.productions name = s.grammar.productions name := by
      cases hpending : s.pending with
      | nil => rw [round_of_finished hpending]
      | cons left rest =>
        have hne : name ≠ left := fun h => hs.not_mem_processed hpending (h ▸ hname)
        exact productions_round_of_ne hs hpending (hs.processed_subset hname) hne
    exact (ih (ordered_round hs) (mem_processed_rounds hname 1)).trans hround

/-- **At no time does a processed rule lead to itself.** -/
theorem not_processedLeadsTo_self_rounds (hs : s.Ordered)
    (h : ∀ name, ¬ s.ProcessedLeadsTo name name) (n : Nat) (name : String) :
    ¬ (rounds n s).ProcessedLeadsTo name name := by
  induction n generalizing s with
  | zero => exact h name
  | succ n ih => exact ih (ordered_round hs) (not_processedLeadsTo_self_round hs h)

/-- **No alternative of a processed rule begins with the rule.** -/
theorem startsWith_self_of_processed {g : Grammar} {names : NameAllocator} {n : Nat}
    {p : Production} (hname : name ∈ (rounds n (start g names)).processed)
    (hp : p ∈ (rounds n (start g names)).grammar.productions name) :
    p.startsWith name = false := by
  have hnot := not_processedLeadsTo_self_rounds (ordered_start g names)
    (fun _ hself => absurd hself.1 List.not_mem_nil) n name
  exact Bool.eq_false_iff.mpr fun hlead => hnot ⟨hname, p, hp, hlead⟩

/-- A round adds the rule of its helper, or none. -/
theorem ruleNames_round_cases (hs : s.Ordered) (hpending : s.pending = left :: rest) :
    s.round.grammar.ruleNames = s.grammar.ruleNames
      ∨ s.round.grammar.ruleNames = s.grammar.ruleNames ++ [s.helper] := by
  cases round_effect hs hpending with
  | dropped _ _ ruleNames_eq _ => exact Or.inl ruleNames_eq
  | split _ _ ruleNames_eq _ => exact Or.inr ruleNames_eq

/-- **An elimination works rule by rule and removes all direct recursion.** After any number of
rounds, the next round processes a rule that was not processed before; it leaves the alternatives
of all others as they are, and adds at most one rule. Each processed rule keeps its alternatives
from then on, and none of them begins with the rule itself. So when nothing is pending no rule,
helpers included, is directly recursive. -/
theorem eliminates_rule_by_rule (g : Grammar) (names : NameAllocator) (n : Nat) :
    let s := rounds n (start g names)
    (∀ left rest, s.pending = left :: rest →
        left ∉ s.processed ∧ s.round.processed = s.processed ++ [left]
          ∧ (∀ name ∈ s.grammar.ruleNames, name ≠ left →
            s.round.grammar.productions name = s.grammar.productions name)
          ∧ (s.round.grammar.ruleNames = s.grammar.ruleNames
            ∨ s.round.grammar.ruleNames = s.grammar.ruleNames ++ [s.helper]))
      ∧ (∀ name ∈ s.processed,
        (∀ more, (rounds more s).grammar.productions name = s.grammar.productions name)
          ∧ ∀ p ∈ s.grammar.productions name, p.startsWith name = false)
      ∧ (s.pending = [] →
        ∀ name, ∀ p ∈ s.grammar.productions name, p.startsWith name = false) := by
  intro s
  have hs : s.Ordered := ordered_rounds (ordered_start g names) n
  refine ⟨fun left rest hpending => ?_, fun name hname => ?_, fun hpending name p hp => ?_⟩
  · exact ⟨hs.not_mem_processed hpending, processed_round hpending,
      fun name hname hne => productions_round_of_ne hs hpending hname hne,
      ruleNames_round_cases hs hpending⟩
  · exact ⟨productions_rounds_of_processed hs hname, fun p => startsWith_self_of_processed hname⟩
  · have hrule := hs.mem_iff.mp (Grammar.mem_ruleNames_of_mem hp)
    rw [hpending] at hrule
    exact startsWith_self_of_processed (hrule.resolve_right List.not_mem_nil) hp

/-- A grammar that mentions two non-terminals without a rule, one of them under the name of the
first helper. -/
def dangling : Grammar :=
  ((∅ : Grammar).setProductions "B"
    [.ofSymbols [.nonTerminal "A", .nonTerminal "B"], .ofSymbols [.terminal "b"]]).setProductions
    "A" [.ofSymbols [.nonTerminal "A", .nonTerminal "X1", .terminal "a"], .epsilon,
      .ofSymbols [.nonTerminal "D"]]

/-- When the rules `A` and `B` of the dangling grammar are processed, it is the turn of a helper
that is directly recursive, and its helper is the last one. -/
theorem eliminates_rule_by_rule_dangling :
    let s := rounds 2 (start dangling .initial)
    (s.pending = ["X1"] ∧ s.processed = ["A", "B"]
        ∧ ∃ p ∈ s.grammar.productions "X1", p.startsWith "X1" = true)
      ∧ ("X1" ∉ s.processed ∧ s.round.processed = s.processed ++ ["X1"]
        ∧ (∀ name ∈ s.grammar.ruleNames, name ≠ "X1" →
          s.round.grammar.productions name = s.grammar.productions name)
        ∧ (s.round.grammar.ruleNames = s.grammar.ruleNames
          ∨ s.round.grammar.ruleNames = s.grammar.ruleNames ++ [s.helper]))
      ∧ ("A" ∈ s.processed
        ∧ (∀ more, (rounds more s).grammar.productions "A" = s.grammar.productions "A")
        ∧ ∀ p ∈ s.grammar.productions "A", p.startsWith "A" = false)
      ∧ (rounds 4 (start dangling .initial)).pending = []
      ∧ ∀ name, ∀ p ∈ (rounds 4 (start dangling .initial)).grammar.productions name,
        p.startsWith name = false := by
  have hpending : (rounds 2 (start dangling .initial)).pending = ["X1"] := by cbv
  have hprocessed : (rounds 2 (start dangling .initial)).processed = ["A", "B"] := by cbv
  have hproductions : (rounds 2 (start dangling .initial)).grammar.productions "X1"
      = [.ofSymbols [.nonTerminal "X1", .terminal "a", .nonTerminal "X1"], .epsilon] := by cbv
  have hhelper : ∃ p ∈ (rounds 2 (start dangling .initial)).grammar.productions "X1",
      p.startsWith "X1" = true := ⟨_, hproductions ▸ List.mem_cons_self, by decide⟩
  have hfinished : (rounds 4 (start dangling .initial)).pending = [] := by cbv
  have hA : "A" ∈ (rounds 2 (start dangling .initial)).processed :=
    hprocessed ▸ List.mem_cons_self
  obtain ⟨hround, hkept, -⟩ := eliminates_rule_by_rule dangling .initial 2
  obtain ⟨-, -, hdone⟩ := eliminates_rule_by_rule dangling .initial 4
  refine ⟨⟨hpending, hprocessed, hhelper⟩, ?_, ?_, hfinished, hdone hfinished⟩
  · exact hround "X1" [] hpending
  · exact ⟨hA, hkept "A" hA⟩

end Elimination

end GrammarWorkbench
