import GrammarWorkbench.CommandLine.Outcome
import GrammarWorkbench.Proofs.Minting
import Mathlib.Data.List.Permutation

/-!
# What any sequence of transformations keeps

Eliminations, each broken off after any number of rules, and factorings can be applied one
after the other in any order, with one supply of names or with several (`Grammar.Becomes`).
Every run of the program is such a sequence (`Becomes.transform`). Whatever comes of a tidy
grammar extends it by the names given out on the way (`Becomes.extends`), and texts are read as
tidy grammars, so what the table of rules is like is known at all times (`tidy_of_becomes`).
-/

namespace GrammarWorkbench

namespace Grammar

/-- **What can become of `g`** by eliminations and factorings in any order, and the names given
out on the way. Each of them may go on with the names that the one before has left, or bring
names of its own. -/
inductive Becomes (g : Grammar) : List Minting → Grammar → Prop where
  /-- Nothing is done. -/
  | refl : Becomes g [] g
  /-- Left recursion is eliminated from the first `n` rules. -/
  | eliminate {ms : List Minting} {now : Grammar} (h : Becomes g ms now)
      (names : NameAllocator) (n : Nat) :
      Becomes g (ms ++ Elimination.mintings n (Elimination.start now names))
        (Elimination.rounds n (Elimination.start now names)).grammar
  /-- The grammar is factored. -/
  | factor {ms : List Minting} {now : Grammar} (h : Becomes g ms now) (names : NameAllocator) :
      Becomes g (ms ++ (Factoring.start now names).mintings) (now.leftFactorWith names).grammar

variable {g now after : Grammar} {ms : List Minting}

/-- **Whatever becomes of a tidy grammar**, the names given out are added to it. -/
theorem Becomes.extends (h : g.Becomes ms after) (hg : g.Tidy) : g.Extends ms after := by
  induction h with
  | refl => exact Extends.refl g
  | eliminate _ names n ih =>
    exact ih.trans (Elimination.extends_rounds n (Elimination.ordered_start _ names) (ih.tidy hg))
  | factor _ names ih =>
    exact ih.trans (Factoring.extends_run (Factoring.consistent_start _ names) (ih.tidy hg))

/-- **What a run of the program makes of a grammar** is something that can become of it. -/
theorem Becomes.transform {actions : List CommandLine.Action} {names : NameAllocator}
    (h : g.Becomes ms now)
    (hdone : CommandLine.Options.transform actions now names = .ok after) :
    ∃ ms', g.Becomes ms' after := by
  induction actions generalizing ms now names with
  | nil =>
    obtain rfl := Except.ok.inj hdone
    exact ⟨ms, h⟩
  | cons action actions ih =>
    cases action with
    | leftFactor => exact ih (h.factor names) hdone
    | eliminateLeftRecursion =>
      obtain ⟨done, heliminated, hrest⟩ := CommandLine.Options.exists_of_transform hdone
      obtain ⟨n, rfl, -⟩ := exists_rounds_of_eliminated heliminated
      exact ih (h.eliminate names n) hrest

/-- **What holds of the table of rules all the time.** A grammar is read, with any tokenizer,
and then transformed, by eliminations that may be broken off and by factorings, in any order
and with any supplies of names. Then every non-terminal has a rule. The start symbol is the
first rule, there is none only without rules, and it is the one from the beginning. The rules
that were read come first, and behind them the names given out, in that order. Alternatives are
`ϵ` alone or symbols without it, and never hold the end mark. And each name given out was then
neither a rule nor mentioned. -/
theorem tidy_of_becomes {t : Tokenizer} {text : String} (hread : parseWith t text = .ok g)
    (h : g.Becomes ms after) :
    (∀ p ∈ after.alternatives, ∀ name, Symbol.nonTerminal name ∈ p.symbols →
        name ∈ after.ruleNames)
      ∧ (after.start = after.ruleNames.head? ∧ after.start = g.start
        ∧ (after.start = none ↔ after.ruleNames = []))
      ∧ after.ruleNames = g.ruleNames ++ ms.map Minting.name
      ∧ (∀ p ∈ after.alternatives,
        (p.symbols = [.epsilon] ∨ p.symbols ≠ [] ∧ Symbol.epsilon ∉ p.symbols)
          ∧ Symbol.endMark ∉ p.symbols)
      ∧ ∀ m ∈ ms, m.name ∉ m.grammar.ruleNames
        ∧ ∀ p ∈ m.grammar.alternatives, Symbol.nonTerminal m.name ∉ p.symbols := by
  have hg := tidy_of_parseWith hread
  have hextends := h.extends hg
  have hafter := hextends.tidy hg
  have hbody : ∀ {p : Production} {a : Symbol}, a ≠ .epsilon → a ∈ p.symbols → a ∈ p.body :=
    fun hne ha => (Production.mem_symbols ha).resolve_right hne
  refine ⟨fun p hp name hname => hafter.closed name ⟨p, hp, hbody (by simp) hname⟩,
    ⟨hafter.start, hextends.start_eq, ?_⟩, hextends.ruleNames_eq, fun p hp => ?_,
    fun m hm => ⟨(hextends.new m hm).1, fun p hp hname => ?_⟩⟩
  · rw [hafter.start, List.head?_eq_none_iff]
  · exact ⟨p.symbols_cases, fun hmark => hafter.endMark ⟨p, hp, hbody (by simp) hmark⟩⟩
  · exact (hextends.new m hm).2 ⟨p, hp, hbody (by simp) hname⟩

/-- A grammar in which two rules are left-recursive. -/
def interrupted : Grammar :=
  ((∅ : Grammar).setProductions "S"
    [.ofSymbols [.nonTerminal "S", .terminal "a", .terminal "b"],
      .ofSymbols [.nonTerminal "S", .terminal "a", .terminal "c"],
      .ofSymbols [.terminal "id"]]).setProductions "T"
    [.ofSymbols [.nonTerminal "T", .terminal "x"], .ofSymbols [.nonTerminal "S"]]

/-- The first rule loses its recursion and the grammar is factored with the same supply of
names; then an elimination with a supply of its own passes the two names over. -/
theorem tidy_of_becomes_interrupted :
    ∃ ms after, parseWith (Tokenizer.declaring ["id"]) "S->Sab|Sac|id\nT->Tx|S" = .ok interrupted
      ∧ interrupted.Becomes ms after ∧ ms.map Minting.name = ["X1", "X2", "X3"]
      ∧ (∀ p ∈ after.alternatives, ∀ name, Symbol.nonTerminal name ∈ p.symbols →
        name ∈ after.ruleNames)
      ∧ after.start = some "S" ∧ after.ruleNames = ["S", "T", "X1", "X2", "X3"]
      ∧ (∀ p ∈ after.alternatives,
        (p.symbols = [.epsilon] ∨ p.symbols ≠ [] ∧ Symbol.epsilon ∉ p.symbols)
          ∧ Symbol.endMark ∉ p.symbols)
      ∧ ∀ m ∈ ms, m.name ∉ m.grammar.ruleNames
        ∧ ∀ p ∈ m.grammar.alternatives, Symbol.nonTerminal m.name ∉ p.symbols := by
  have hread : parseWith (Tokenizer.declaring ["id"]) "S->Sab|Sac|id\nT->Tx|S"
      = .ok interrupted := by decide +kernel
  have hbecomes : ∃ ms after, interrupted.Becomes ms after
      ∧ ms.map Minting.name = ["X1", "X2", "X3"] := by
    have hfirst := Becomes.refl.eliminate (g := interrupted) .initial 1
    have hsecond := hfirst.factor
      (Elimination.rounds 1 (Elimination.start interrupted .initial)).names
    exact ⟨_, _, hsecond.eliminate .initial 2, by cbv⟩
  obtain ⟨ms, after, hbecomes, hminted⟩ := hbecomes
  obtain ⟨hclosed, ⟨-, hstart, -⟩, hnames, hsymbols, hnew⟩ := tidy_of_becomes hread hbecomes
  refine ⟨ms, after, hread, hbecomes, hminted, hclosed, ?_, ?_, hsymbols, hnew⟩
  · exact hstart.trans (by decide +kernel)
  · rw [hnames, hminted]
    decide +kernel

end Grammar

end GrammarWorkbench
