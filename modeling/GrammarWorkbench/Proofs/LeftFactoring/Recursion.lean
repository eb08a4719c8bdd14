import GrammarWorkbench.Proofs.Fronts
import GrammarWorkbench.Proofs.LeftFactoring.Sets
import GrammarWorkbench.Proofs.LeftRecursion.Round

/-!
# A factoring keeps left recursion out, and in

Behind a shared beginning that can vanish a helper comes to the front, and what its alternatives
begin with comes to the front after it. So a factoring makes new ways to the front, through
helpers inside of helpers. None of them leads anywhere new. Step by step, a non-terminal that
was there before derives itself in front afterwards exactly if it did so before.

From the new grammar to the old one, the helpers in the derived form are opened
(`SplitInto.hiddenLeftRecursive_of_rule`); its first step replaces the non-terminal, which is no
helper, so at least one step is left. A helper that derives itself in front does so by way of a
non-terminal that was there before, because no helper mentions helpers
(`SplitInto.exists_rule_of_cycle`). From the old grammar to the new one, an alternative is put
together from its pieces in at least one step (`Regrouped.derivesPlus_of_mem`), which matters
where it is the non-terminal alone.
-/

namespace GrammarWorkbench

namespace Grammar

variable {g after : Grammar} {name : String} {u v : List Symbol}

namespace SplitInto

/-- **A rule that derives itself in front did so before.** -/
theorem hiddenLeftRecursive_of_rule (h : g.SplitInto after) (hname : name ∈ g.ruleNames)
    (hcycle : Relation.TransGen after.Fronts name name) : g.HiddenLeftRecursive := by
  obtain ⟨rest, first, hstep, hder⟩ := exists_derivesPlus_iff_transGen.mpr hcycle
  obtain ⟨p, hp, rfl⟩ := hstep.exists_of_nonTerminal
  -- the helpers behind the name are opened, and then all that the derivation came by
  obtain ⟨rest', hrest'⟩ := h.exists_yields rest
  have hopened : Yields (g.Openings after) (.nonTerminal name :: rest)
      (.nonTerminal name :: rest') := Yields.replace ((openings_of_mem hname).mpr rfl) hrest'
  obtain ⟨w, hw, hder'⟩ := h.exists_of_derives hder hopened
  obtain ⟨q, hq, rfl⟩ := h.opens name hname p hp w hw
  exact ⟨name, rest', (DerivesPlus.of_mem hq).trans hder'⟩

/-- Only rules of `g` bring helpers to the front. -/
theorem mem_ruleNames_of_fronts (h : g.SplitInto after) {left helper : String}
    (hhelper : g.IsHelper after helper) (hfronts : after.Fronts left helper) :
    left ∈ g.ruleNames := by
  obtain ⟨p, hp, before, behind, hbody, -⟩ := hfronts
  by_contra hleft
  have hmention : Symbol.nonTerminal helper ∈ p.body := by
    rw [hbody]
    exact List.mem_append_right _ List.mem_cons_self
  exact hhelper.2 (h.plain left ⟨mem_ruleNames_of_mem hp, hleft⟩ p hp helper hmention)

/-- **A cycle of fronts goes through a rule of `g`.** -/
theorem exists_rule_of_cycle (h : g.SplitInto after)
    (hcycle : Relation.TransGen after.Fronts name name) :
    ∃ left ∈ g.ruleNames, Relation.TransGen after.Fronts left left := by
  by_cases hname : name ∈ g.ruleNames
  · exact ⟨name, hname, hcycle⟩
  · obtain ⟨next, ⟨p, hp, -⟩, -⟩ := Relation.TransGen.head'_iff.mp hcycle
    have hhelper : g.IsHelper after name := ⟨mem_ruleNames_of_mem hp, hname⟩
    -- the last step of the cycle starts from a rule of `g`, and the cycle can be cut there
    obtain ⟨left, hpath, hlast⟩ := Relation.TransGen.tail'_iff.mp hcycle
    exact ⟨left, h.mem_ruleNames_of_fronts hhelper hlast, Relation.TransGen.head' hlast hpath⟩

/-- **No left recursion comes in, and none goes**, if alternatives are put together in at least
one step. -/
theorem hiddenLeftRecursive_iff (h : g.SplitInto after)
    (hplus : ∀ name, ∀ p ∈ g.productions name, after.DerivesPlus [.nonTerminal name] p.body) :
    after.HiddenLeftRecursive ↔ g.HiddenLeftRecursive := by
  constructor
  · intro hrec
    obtain ⟨name, hcycle⟩ := Grammar.hiddenLeftRecursive_iff.mp hrec
    obtain ⟨left, hleft, hcycle⟩ := h.exists_rule_of_cycle hcycle
    exact h.hiddenLeftRecursive_of_rule hleft hcycle
  · rintro ⟨name, rest, first, hstep, hder⟩
    obtain ⟨p, hp, rfl⟩ := hstep.exists_of_nonTerminal
    exact ⟨name, rest, (hplus name p hp).trans (h.derives_of_derives hder)⟩

end SplitInto

end Grammar

namespace Factoring

variable {g : Grammar} {s t : Factoring} {left : String} {ps out : List Production}
  {rest added : List (String × List Production)}

/-- **Regrouping a rule keeps left recursion out, and in.** -/
theorem Regrouped.hiddenLeftRecursive_iff (h : s.Regrouped left ps rest t added out)
    (hclosed : s.grammar.Closed) (hleft : left ∈ s.grammar.ruleNames)
    (hps : s.grammar.productions left = ps) :
    t.grammar.HiddenLeftRecursive ↔ s.grammar.HiddenLeftRecursive := by
  refine (h.splitInto hclosed hleft hps).hiddenLeftRecursive_iff (fun name p hp => ?_)
  by_cases hname : name = left
  · subst hname
    exact h.derivesPlus_of_mem (hps ▸ hp)
  · refine Grammar.DerivesPlus.of_mem ?_
    rwa [h.productions_eq_of_mem (Grammar.mem_ruleNames_of_mem hp) hname]

/-- **So does a step.** -/
theorem hiddenLeftRecursive_step_iff (hs : s.Refactors g) (hqueue : s.queue ≠ []) :
    s.step.grammar.HiddenLeftRecursive ↔ s.grammar.HiddenLeftRecursive := by
  obtain ⟨⟨left, ps⟩, rest, hqueue⟩ := List.exists_cons_of_ne_nil hqueue
  obtain ⟨hleft, hps, -, -⟩ := hs.head hqueue
  cases step_effect hqueue hleft with
  | unchanged _ _ hg => rw [hg]
  | regrouped added out h => exact h.hiddenLeftRecursive_iff hs.closed hleft hps

/-- **And a whole factoring of a closed grammar.** -/
theorem hiddenLeftRecursive_run_iff (hclosed : g.Closed) (names : NameAllocator) :
    (g.leftFactorWith names).grammar.HiddenLeftRecursive ↔ g.HiddenLeftRecursive :=
  (run_induction
    (P := fun s => s.Refactors g ∧ (s.grammar.HiddenLeftRecursive ↔ g.HiddenLeftRecursive))
    (fun _ hqueue hs => ⟨refactors_step hs.1 hqueue,
      (hiddenLeftRecursive_step_iff hs.1 hqueue).trans hs.2⟩)
    (start g names) ⟨refactors_start hclosed names, Iff.rfl⟩).1.2

end Factoring

namespace Grammar

/-- **Factoring neither introduces left recursion nor removes it**, hidden behind what vanishes
or not. The outcome of a factoring has a non-terminal, helpers included, that derives itself in
front exactly if the grammar has one. So what an elimination has achieved is not undone by a
factoring after it. -/
theorem leftFactorWith_hiddenLeftRecursive_iff {g : Grammar} (hclosed : g.Closed) :
    (∀ names, (g.leftFactorWith names).grammar.HiddenLeftRecursive ↔ g.HiddenLeftRecursive)
      ∧ ∀ names done, g.eliminateLeftRecursionWith names = .ok done → ∀ names',
        ((done.grammar.leftFactorWith names').grammar.HiddenLeftRecursive
          ↔ done.grammar.HiddenLeftRecursive) := by
  refine ⟨Factoring.hiddenLeftRecursive_run_iff hclosed, fun names done hdone names' => ?_⟩
  obtain ⟨n, rfl, -⟩ := exists_rounds_of_eliminated hdone
  refine Factoring.hiddenLeftRecursive_run_iff ?_ names'
  exact Elimination.closed_rounds (Elimination.ordered_start g names) hclosed n

/-- A grammar in which a rule derives itself in front, behind something that can vanish and that
is also shared. -/
def lurking : Grammar :=
  ((∅ : Grammar).setProductions "S"
    [.ofSymbols [.nonTerminal "A", .terminal "b"],
      .ofSymbols [.nonTerminal "A", .nonTerminal "S"]]).setProductions "A"
    [.ofSymbols [.terminal "a"], .epsilon]

/-- The rule hands over to a helper, and is left-recursive through it. -/
theorem leftFactorWith_hiddenLeftRecursive_iff_lurking :
    lurking.Closed ∧ lurking.HiddenLeftRecursive
      ∧ lurking.leftFactor.grammar.productions "S"
        = [.ofSymbols [.nonTerminal "A", .nonTerminal "X1"]]
      ∧ lurking.leftFactor.grammar.productions "X1"
        = [.ofSymbols [.terminal "b"], .ofSymbols [.nonTerminal "S"]]
      ∧ lurking.leftFactor.grammar.HiddenLeftRecursive
      ∧ ∀ done, lurking.eliminateLeftRecursion = .ok done →
        ((done.grammar.leftFactorWith done.names).grammar.HiddenLeftRecursive
          ↔ done.grammar.HiddenLeftRecursive) := by
  have hclosed : lurking.Closed := by decide +kernel
  have hfront : lurking.Fronts "S" "S" := by
    refine ⟨.ofSymbols [.nonTerminal "A", .nonTerminal "S"], by decide +kernel,
      [.nonTerminal "A"], [], by decide, ?_⟩
    have hvanish : Production.epsilon ∈ lurking.productions "A" := by decide +kernel
    exact Derives.of_mem hvanish
  have hrec : lurking.HiddenLeftRecursive :=
    hiddenLeftRecursive_iff.mpr ⟨"S", Relation.TransGen.single hfront⟩
  obtain ⟨hfactored, heliminated⟩ := leftFactorWith_hiddenLeftRecursive_iff hclosed
  refine ⟨hclosed, hrec, by decide +kernel, by decide +kernel, (hfactored .initial).mpr hrec, ?_⟩
  exact fun done hdone => heliminated .initial done hdone done.names

end Grammar

end GrammarWorkbench
