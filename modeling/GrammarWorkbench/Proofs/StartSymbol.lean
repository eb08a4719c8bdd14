import GrammarWorkbench.Proofs.LeftFactoring.Factored
import GrammarWorkbench.Proofs.LeftRecursion.EpsilonFree
import Mathlib.Data.List.Perm.Subperm
import Mathlib.Data.String.Basic

/-!
# The start symbol during transformations

A start symbol that is set stays, whatever a transformation does to the rules. But a grammar can
have rules and no start symbol, and whoever writes a rule of such a grammar sets one. So the
question is which rule is written first, if any.

An elimination writes a rule in its turn if an alternative begins with the rule itself or with one
that was processed before (`Elimination.isRewritten`). Until that happens nothing has changed, so
it can be read off the grammar at hand which rule comes first (`Grammar.LeadsBack`); and it is one
of the grammar's own rules (`Elimination.start_rounds_eq`). A factoring writes a rule if two of
its alternatives begin alike.
-/

namespace GrammarWorkbench

/-! ## Writing rules -/

namespace Grammar

variable {g : Grammar}

/-- **The start symbol is a rule**, if there is one. -/
def StartsAtRule (g : Grammar) : Prop := ∀ name, g.start = some name → name ∈ g.ruleNames

theorem startsAtRule_of_none (h : g.start = none) : g.StartsAtRule := fun name hname => by
  rw [h] at hname
  exact absurd hname (by simp)

/-- Writing a rule keeps that. -/
theorem StartsAtRule.setProductions (h : g.StartsAtRule) (left : String) (ps : List Production) :
    (g.setProductions left ps).StartsAtRule := by
  intro name hname
  cases hstart : g.start with
  | some start =>
    rw [start_setProductions_of_some hstart] at hname
    obtain rfl := Option.some.inj hname
    exact ruleNames_subset_setProductions g left ps (h start hstart)
  | none =>
    rw [start_setProductions_of_none hstart] at hname
    obtain rfl := Option.some.inj hname
    exact mem_ruleNames_setProductions_self g left ps

/-! ## Eliminations -/

/-- **An alternative of `left` begins with `left` itself or with a rule that has its turn
before.** -/
def LeadsBack (g : Grammar) (left : String) : Prop :=
  ∃ inner ∈ g.ruleNames, inner ≤ left ∧ g.LeadsTo left inner

instance (g : Grammar) (left : String) : Decidable (g.LeadsBack left) :=
  inferInstanceAs (Decidable (∃ inner ∈ g.ruleNames, inner ≤ left
    ∧ ∃ p ∈ g.productions left, p.startsWith inner = true))

/-- Turns are in the order of names. -/
theorem pairwise_eliminationOrder (g : Grammar) : g.eliminationOrder.Pairwise (· ≤ ·) := by
  refine (List.pairwise_mergeSort (fun a b c hab hbc => ?_) (fun a b => ?_) g.ruleNames).imp
    of_decide_eq_true
  · exact decide_eq_true (String.le_trans (of_decide_eq_true hab) (of_decide_eq_true hbc))
  · rw [Bool.or_eq_true, decide_eq_true_iff, decide_eq_true_iff]
    exact String.le_total a b

end Grammar

namespace Elimination

variable {g : Grammar} {s : Elimination} {left : String} {rest : List String}

/-- **Nothing has been written yet**: some rules of `g` had their turn, and that is all. -/
structure Untouched (g : Grammar) (s : Elimination) : Prop where
  grammar_eq : s.grammar = g
  order_eq : s.order = g.eliminationOrder

theorem untouched_start (g : Grammar) (names : NameAllocator) :
    Untouched g (start g names) := ⟨rfl, rfl⟩

/-- As long as nothing has been written, the grammar tells which rules will be. -/
theorem isRewritten_iff (hs : Untouched g s) (hpending : s.pending = left :: rest) :
    s.isRewritten left = true ↔ g.LeadsBack left := by
  have horder : (s.processed ++ [left]) ++ rest = g.eliminationOrder := by
    rw [List.append_assoc, List.singleton_append, ← hpending]
    exact hs.order_eq
  have hsorted := g.pairwise_eliminationOrder
  rw [← horder, List.pairwise_append, List.pairwise_append] at hsorted
  obtain ⟨⟨-, -, hbefore⟩, -, hbehind⟩ := hsorted
  have hturns : ∀ inner, inner ∈ s.processed ++ [left] ↔ inner ∈ g.ruleNames ∧ inner ≤ left := by
    intro inner
    rw [← g.mem_eliminationOrder, ← horder, List.mem_append (t := rest)]
    constructor
    · refine fun h => ⟨Or.inl h, ?_⟩
      rcases List.mem_append.mp h with h | h
      · exact hbefore inner h left List.mem_cons_self
      · rw [List.mem_singleton.mp h]
    · rintro ⟨h | h, hle⟩
      · exact h
      · have hge := hbehind left (List.mem_append_right _ List.mem_cons_self) inner h
        rw [String.le_antisymm hle hge]
        exact List.mem_append_right _ List.mem_cons_self
  unfold isRewritten Grammar.LeadsBack Grammar.LeadsTo
  simp only [List.any_eq_true, hs.grammar_eq, hturns, and_assoc]
  constructor
  · rintro ⟨p, hp, inner, hinner, hle, hlead⟩
    exact ⟨inner, hinner, hle, p, hp, hlead⟩
  · rintro ⟨inner, hinner, hle, p, hp, hlead⟩
    exact ⟨p, hp, inner, hinner, hle, hlead⟩

/-- A rule that is not written only has its turn. -/
theorem untouched_round (hs : Untouched g s) (hpending : s.pending = left :: rest)
    (h : s.isRewritten left = false) : Untouched g s.round ∧ s.round.pending = rest := by
  have htails : Production.recursiveTails left (s.expanded left) = [] := by
    by_contra hne
    exact absurd (isRewritten_of_tails_ne_nil hne) (h ▸ Bool.false_ne_true)
  have hkept : ({ s with pending := rest } : Elimination).isRewritten left = false := h
  have hround : s.round = { s with pending := rest, processed := s.processed ++ [left] } := by
    rw [round_eq hpending, eliminateDirect_of_tails_eq_nil htails, hkept]
    rfl
  rw [hround]
  refine ⟨⟨hs.grammar_eq, ?_⟩, rfl⟩
  show s.processed ++ [left] ++ rest = g.eliminationOrder
  rw [List.append_assoc, List.singleton_append, ← hpending]
  exact hs.order_eq

/-- **A rule that is written becomes the start symbol** if there is none. -/
theorem start_round_of_isRewritten (hpending : s.pending = left :: rest)
    (h : s.isRewritten left = true) (hstart : s.grammar.start = none) :
    s.round.grammar.start = some left := by
  have hwritten := Grammar.start_setProductions_of_none hstart left
  have hturn : ({ s with pending := rest } : Elimination).isRewritten left = true := h
  rw [round_eq hpending]
  by_cases htails : Production.recursiveTails left (s.expanded left) = []
  · rw [eliminateDirect_of_tails_eq_nil htails, hturn]
    exact hwritten _
  · rw [eliminateDirect_of_tails_ne_nil htails]
    exact Grammar.start_setProductions_of_some (hwritten _) _ _

theorem start_rounds {start : String} (n : Nat) (h : s.grammar.start = some start) :
    (rounds n s).grammar.start = some start := by
  induction n generalizing s with
  | zero => exact h
  | succ n ih => exact ih (start_round h)

/-- **The first rule that is written becomes the start symbol**, and before nothing changes. -/
theorem start_rounds_eq (n : Nat) (hs : Untouched g s) (hstart : g.start = none) :
    (rounds n s).grammar.start = (s.pending.take n).find? (fun left => decide (g.LeadsBack left))
      ∧ ((rounds n s).grammar.start = none → (rounds n s).grammar = g) := by
  induction n generalizing s with
  | zero =>
    rw [List.take_zero, List.find?_nil]
    show s.grammar.start = none ∧ _
    rw [hs.grammar_eq]
    exact ⟨hstart, fun _ => hs.grammar_eq⟩
  | succ n ih =>
    cases hpending : s.pending with
    | nil =>
      rw [rounds_of_finished hpending, List.take_nil, List.find?_nil, hs.grammar_eq]
      exact ⟨hstart, fun _ => rfl⟩
    | cons left rest =>
      rw [List.take_succ_cons]
      by_cases hback : g.LeadsBack left
      · have hround := start_round_of_isRewritten hpending
          ((isRewritten_iff hs hpending).mpr hback) (hs.grammar_eq ▸ hstart)
        have hrounds : (rounds (n + 1) s).grammar.start = some left := start_rounds n hround
        have hfirst : (left :: rest.take n).find? (fun left => decide (g.LeadsBack left))
            = some left := List.find?_cons_of_pos (decide_eq_true hback)
        rw [hfirst, hrounds]
        exact ⟨rfl, fun h => absurd h (by simp)⟩
      · obtain ⟨hround, hrest⟩ := untouched_round hs hpending
          (Bool.eq_false_iff.mpr fun h => hback ((isRewritten_iff hs hpending).mp h))
        have hfirst : (left :: rest.take n).find? (fun left => decide (g.LeadsBack left))
            = (rest.take n).find? (fun left => decide (g.LeadsBack left)) :=
          List.find?_cons_of_neg (by simpa using hback)
        rw [hfirst, ← hrest]
        exact ih hround

end Elimination

/-! ## Factorings -/

/-- **There are as many groups as alternatives** if no two alternatives begin alike. -/
theorem length_groupByLeading_eq_iff {ps : List Production} :
    (groupByLeading ps).length = ps.length ↔ (ps.map Production.leading).Nodup := by
  have hkeys : (ps.map Production.leading).eraseDups.Nodup :=
    Table.keys_group Production.leading ps ▸ Table.nodup_keys _
  have hsub : (ps.map Production.leading).eraseDups.Subperm (ps.map Production.leading) :=
    hkeys.subperm fun _ => List.mem_eraseDups.mp
  have hlength : (ps.map Production.leading).length = ps.length := List.length_map _
  rw [groupByLeading_eq, List.length_map, ← hlength]
  constructor
  · intro h
    exact (hsub.perm_of_length_le h.ge).nodup_iff.mp hkeys
  · intro h
    exact ((List.perm_ext_iff_of_nodup hkeys h).mpr fun _ => List.mem_eraseDups).length_eq

namespace Factoring

variable {g : Grammar} {s : Factoring}

/-- Taking up groups keeps the start symbol a rule. -/
theorem startsAtRule_foldl_addGroup (groups : List (List Production))
    (acc : Factoring × List Production) (h : acc.1.grammar.StartsAtRule) :
    (groups.foldl addGroup acc).1.grammar.StartsAtRule := by
  induction groups generalizing acc with
  | nil => exact h
  | cons members groups ih =>
    refine ih (addGroup acc members) ?_
    unfold addGroup
    split
    · exact h.setProductions _ _
    · exact h

theorem startsAtRule_step (h : s.grammar.StartsAtRule) : s.step.grammar.StartsAtRule := by
  unfold step
  split
  · exact h
  · unfold factorRule
    split
    · exact h
    · exact (startsAtRule_foldl_addGroup _ _ h).setProductions _ _

/-- **There is a start symbol, or there will be**: a rule waits that is put back. -/
def WillStart (s : Factoring) : Prop :=
  s.grammar.start.isSome = true ∨ ∃ e ∈ s.queue, ¬ (e.2.map Production.leading).Nodup

theorem willStart_step (hqueue : s.queue ≠ []) (h : s.WillStart) : s.step.WillStart := by
  obtain ⟨⟨left, ps⟩, rest, hqueue⟩ := List.exists_cons_of_ne_nil hqueue
  by_cases hapart : (groupByLeading ps).length = ps.length
  · rcases h with h | ⟨e, he, hnot⟩
    · exact Or.inl (isSome_start_step_of_isSome h)
    · rw [hqueue, List.mem_cons] at he
      rcases he with rfl | he
      · exact absurd (length_groupByLeading_eq_iff.mp hapart) hnot
      · rw [step_of_apart hqueue hapart]
        exact Or.inr ⟨e, he, hnot⟩
  · exact Or.inl (isSome_start_step hqueue hapart)

/-- **A factoring leaves a grammar without a start symbol alone** if in no rule two alternatives
begin alike, and only then. -/
theorem start_leftFactorWith_eq_none_iff (hstart : g.start = none) (names : NameAllocator) :
    ((g.leftFactorWith names).grammar.start = none
        ↔ ∀ name, ((g.productions name).map Production.leading).Nodup)
      ∧ ((g.leftFactorWith names).grammar.start = none →
        (g.leftFactorWith names).grammar = g) := by
  have hconsistent := consistent_start g names
  have halone : (∀ name, ((g.productions name).map Production.leading).Nodup) →
      (g.leftFactorWith names).grammar = g := fun h => by
    have hrun := (run_of_settled hconsistent fun e he => .apart ?_).1
    · exact congrArg Factoring.grammar hrun
    · rw [← Grammar.productions_eq_of_mem_entries he]
      exact length_groupByLeading_eq_iff.mpr (h e.1)
  have happart : (g.leftFactorWith names).grammar.start = none →
      ∀ name, ((g.productions name).map Production.leading).Nodup := by
    intro hnone name
    by_contra hnot
    have hmem : name ∈ g.ruleNames := by
      by_contra hname
      rw [Grammar.productions_eq_nil_of_not_mem hname] at hnot
      exact hnot List.nodup_nil
    obtain ⟨e, he, rfl⟩ := List.mem_map.mp hmem
    rw [Grammar.productions_eq_of_mem_entries he] at hnot
    obtain ⟨hsome | ⟨e, he, -⟩, hqueue⟩ :=
      run_induction (fun _ => willStart_step) (start g names) (Or.inr ⟨e, he, hnot⟩)
    · exact absurd (show (start g names).run.grammar.start = none from hnone)
        (Option.isSome_iff_ne_none.mp hsome)
    · rw [hqueue] at he
      exact absurd he List.not_mem_nil
  exact ⟨⟨happart, fun h => (congrArg Grammar.start (halone h)).trans hstart⟩,
    fun h => halone (happart h)⟩

end Factoring

namespace Grammar

/-- **A start symbol is kept, and a missing one may be set.** To factor a grammar, or to eliminate
left recursion from it in any number of rounds, keeps a start symbol that is set, whether it is a
rule or not. If there is none, an elimination sets it to the first rule, in the order of turns,
that leads back, as soon as this rule has its turn; up to then the grammar is as it was, and it is
never set to a helper. A factoring leaves such a grammar as it is if in no rule two alternatives
begin with the same symbol, empty ones included; otherwise it sets the start symbol to one of the
rules there are in the end. -/
theorem start_kept_or_set (g : Grammar) (names : NameAllocator) :
    let factored := (g.leftFactorWith names).grammar
    let eliminated := fun n => (Elimination.rounds n (Elimination.start g names)).grammar
    (∀ start, g.start = some start →
        factored.start = some start ∧ ∀ n, (eliminated n).start = some start)
      ∧ (g.start = none →
        (∀ n, (eliminated n).start
              = (g.eliminationOrder.take n).find? (fun left => decide (g.LeadsBack left))
            ∧ ((eliminated n).start = none → eliminated n = g)
            ∧ ∀ name, (eliminated n).start = some name → name ∈ g.ruleNames)
          ∧ (factored.start = none
            ↔ ∀ name, ((g.productions name).map Production.leading).Nodup)
          ∧ (factored.start = none → factored = g)
          ∧ ∀ name, factored.start = some name → name ∈ factored.ruleNames) := by
  intro factored eliminated
  refine ⟨fun start hstart => ⟨?_, fun n => Elimination.start_rounds n hstart⟩, fun hstart => ?_⟩
  · exact (Factoring.run_induction (P := fun s => s.grammar.start = some start)
      (fun _ _ h => Factoring.start_step h) (Factoring.start g names) hstart).1
  · obtain ⟨hnone, halone⟩ := Factoring.start_leftFactorWith_eq_none_iff hstart names
    have hrule := (Factoring.run_induction (P := fun s => s.grammar.StartsAtRule)
      (fun _ _ h => Factoring.startsAtRule_step h) (Factoring.start g names)
      (startsAtRule_of_none hstart)).1
    refine ⟨fun n => ?_, hnone, halone, hrule⟩
    obtain ⟨hfirst, hsame⟩ :=
      Elimination.start_rounds_eq n (Elimination.untouched_start g names) hstart
    refine ⟨hfirst, hsame, fun name hname => ?_⟩
    rw [hfirst] at hname
    exact g.mem_eliminationOrder.mp (List.mem_of_mem_take (List.mem_of_find?_eq_some hname))

/-- Rules of which the first two have nothing to write, and no start symbol. -/
def headless : Grammar where
  rules := ((((∅ : Grammar).setProductions "A"
    [.ofSymbols [.nonTerminal "B", .nonTerminal "A"]]).setProductions "B"
    [.epsilon]).setProductions "C"
    [.ofSymbols [.nonTerminal "A", .terminal "c"],
      .ofSymbols [.nonTerminal "A", .terminal "d"]]).rules
  start := none

/-- Two turns change nothing, and the third makes its rule the start symbol. A factoring sets one,
too. A start symbol that is no rule is kept. -/
theorem start_kept_or_set_headless :
    (Elimination.rounds 2 (Elimination.start headless .initial)).grammar = headless
      ∧ (Elimination.rounds 3 (Elimination.start headless .initial)).grammar.start = some "C"
      ∧ "C" ∈ headless.ruleNames
      ∧ (∃ name, headless.leftFactor.grammar.start = some name
        ∧ name ∈ headless.leftFactor.grammar.ruleNames)
      ∧ ({ headless with start := some "S" } : Grammar).leftFactor.grammar.start = some "S" := by
  obtain ⟨-, hnone⟩ := start_kept_or_set headless .initial
  obtain ⟨hkept, -⟩ := start_kept_or_set { headless with start := some "S" } .initial
  obtain ⟨heliminated, hfactored, -, hrule⟩ := hnone rfl
  have horder : headless.eliminationOrder = ["A", "B", "C"] := by cbv
  have hsecond : (headless.eliminationOrder.take 2).find?
      (fun left => decide (headless.LeadsBack left)) = none := by
    rw [horder]
    decide +kernel
  have hthird : (headless.eliminationOrder.take 3).find?
      (fun left => decide (headless.LeadsBack left)) = some "C" := by
    rw [horder]
    decide +kernel
  have halike : ¬ ((headless.productions "C").map Production.leading).Nodup := by decide +kernel
  obtain ⟨hstart₂, hsame, -⟩ := heliminated 2
  obtain ⟨hstart₃, -, hmem⟩ := heliminated 3
  refine ⟨hsame (hstart₂.trans hsecond), hstart₃.trans hthird, hmem _ (hstart₃.trans hthird), ?_,
    (hkept "S" rfl).1⟩
  obtain ⟨name, hname⟩ := Option.ne_none_iff_exists'.mp fun h => halike (hfactored.mp h "C")
  exact ⟨name, hname, hrule name hname⟩

/-- A left-recursive rule in which two alternatives begin alike, and no start symbol. -/
def orphaned : Grammar where
  rules := ((∅ : Grammar).setProductions "S"
    [.ofSymbols [.nonTerminal "S", .terminal "a"], .ofSymbols [.nonTerminal "S", .terminal "b"],
      .ofSymbols [.terminal "c"]]).rules
  start := none

/-- **A missing start symbol does not stay missing.** The factoring sets it to the helper, whose
rule it writes first, and the elimination to the rule whose turn it is. -/
theorem missing_start_set :
    orphaned.start = none ∧ orphaned.leftFactor.grammar.start = some "X1"
      ∧ (Elimination.rounds 1 (Elimination.start orphaned .initial)).grammar.start = some "S" := by
  decide +kernel

end Grammar

end GrammarWorkbench
