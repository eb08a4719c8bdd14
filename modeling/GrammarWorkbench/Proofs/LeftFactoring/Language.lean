import GrammarWorkbench.Proofs.Language
import GrammarWorkbench.Proofs.LeftFactoring.Unfolding
import Mathlib.Data.List.Nodup

/-!
# A factoring only regroups alternatives

Of a closed grammar a factoring keeps three things, step by step (`Factoring.Refactors`):
every helper is mentioned exactly once, at the end of an alternative; unfolding the helpers
gives every rule the alternatives that it had in the beginning, in some order and with
their repetitions; and what still waits in the queue mentions no helper. The last one makes
the step go through: the rule whose turn it is can be cut and regrouped without touching
what earlier steps have put in place.

Unfolding does not change what alternatives yield, as long as each helper stands for what
its alternatives yield. So the languages are the same (`Refactors.generates_iff`).
-/

namespace GrammarWorkbench

namespace Factoring

/-- **What a factoring of `g` keeps.** -/
structure Refactors (g : Grammar) (s : Factoring) : Prop where
  /-- The queue holds every rule once, with the alternatives that it has. -/
  consistent : s.Consistent
  /-- No rule is lost. -/
  subset : ∀ name ∈ g.ruleNames, name ∈ s.grammar.ruleNames
  /-- What waits mentions no helper. -/
  plain : ∀ e ∈ s.queue, ∀ p ∈ e.2, p.Plain g
  /-- Every helper is mentioned once. -/
  once : ∀ name, g.IsHelper s.grammar name → mentionCount s.grammar.alternatives name = 1
  /-- Every rule of the grammar unfolds to the alternatives that it had. -/
  unfolds : ∀ name, ∃ rs, g.Unfolds s.grammar (s.grammar.productions name) rs
    ∧ (name ∈ g.ruleNames → rs.Perm (g.productions name))

variable {g : Grammar} {s t : Factoring} {left name : String} {ps out : List Production}
  {rest added : List (String × List Production)}

theorem refactors_start (hg : g.Closed) (names : NameAllocator) :
    (start g names).Refactors g := by
  refine ⟨consistent_start g names, fun _ hname => hname, fun e he p hp => ?_,
    fun name hname => absurd hname.1 hname.2, fun name => ?_⟩
  · have hproductions := (consistent_start g names).productions_eq e he
    exact hg.plain (hproductions ▸ hp)
  · exact ⟨g.productions name, Grammar.Unfolds.of_plain (fun _ => hg.plain),
      fun _ => List.Perm.refl _⟩

/-- Whatever is mentioned is a rule of the grammar or a helper. -/
theorem Refactors.mem_or_isHelper (hs : s.Refactors g) {p : Production}
    (hp : p ∈ s.grammar.productions left) (hname : Symbol.nonTerminal name ∈ p.body) :
    name ∈ g.ruleNames ∨ g.IsHelper s.grammar name := by
  obtain ⟨rs, hrs, _⟩ := hs.unfolds left
  cases hrs.shape hp with
  | inl hplain => exact Or.inl (hplain name hname)
  | inr hpush =>
    obtain ⟨q, helper, hq, hhelper, rfl⟩ := hpush
    rw [Production.body_push_nonTerminal, List.mem_append, List.mem_singleton] at hname
    cases hname with
    | inl hname => exact Or.inl (hq name hname)
    | inr hname =>
      obtain rfl := Symbol.nonTerminal.inj hname
      exact Or.inr hhelper

/-- Whatever is mentioned has a rule. -/
theorem Refactors.closed (hs : s.Refactors g) : s.grammar.Closed := by
  intro name hname
  obtain ⟨left, p, hp, hname⟩ := Grammar.mentions_iff.mp hname
  exact (hs.mem_or_isHelper hp hname).elim (hs.subset name) And.left

/-! ## The step -/

/-- What is known of the rule whose turn it is. -/
theorem Refactors.head (hs : s.Refactors g) (hqueue : s.queue = (left, ps) :: rest) :
    left ∈ s.grammar.ruleNames ∧ s.grammar.productions left = ps
      ∧ (∀ p ∈ ps, p.Plain g) ∧ ∀ p ∈ (groupByLeading ps).flatten, p.Plain g := by
  have hmem : (left, ps) ∈ s.queue := hqueue ▸ List.mem_cons_self
  exact ⟨hs.consistent.mem_ruleNames _ hmem, hs.consistent.productions_eq _ hmem,
    hs.plain _ hmem, fun p hp =>
      hs.plain _ hmem p ((flatten_groupByLeading_perm ps).mem_iff.mp hp)⟩

/-- Helpers are mentioned once again after a rule is regrouped: old ones where they were,
new ones in what the rule is left with. -/
theorem mentionCount_regrouped (hs : s.Refactors g) (hqueue : s.queue = (left, ps) :: rest)
    (h : s.Regrouped left ps rest t added out) (hname : g.IsHelper t.grammar name) :
    mentionCount t.grammar.alternatives name = 1 := by
  obtain ⟨hleft, hps, hplain, hflat⟩ := hs.head hqueue
  have hps_zero : mentionCount ps name = 0 :=
    mentionCount_eq_zero (fun p hp hmem => hname.2 (hplain p hp name hmem))
  have hadded_zero : mentionCount (added.flatMap Prod.snd) name = 0 := by
    refine mentionCount_eq_zero (fun p hp hmem => ?_)
    obtain ⟨e, he, hp⟩ := List.mem_flatMap.mp hp
    exact hname.2 (h.groups.added_plain hflat e he p hp name hmem)
  obtain ⟨others, hbefore, hafter⟩ := h.alternatives_perm hleft hps
  have hold : mentionCount s.grammar.alternatives name = mentionCount others name := by
    rw [mentionCount_perm hbefore, mentionCount_append, hps_zero, Nat.zero_add]
  rw [mentionCount_perm hafter, mentionCount_append, mentionCount_append, hadded_zero, ← hold,
    h.groups.mentionCount_eq hflat hname.2]
  obtain ⟨hnodup, hfresh⟩ := new_of_ruleNames_eq h.ruleNames_eq
  by_cases hnew : name ∈ added.map Prod.fst
  · -- nothing mentions a name that has no rule yet
    rw [List.count_eq_one_of_mem hnodup hnew, mentionCount_eq_zero (fun p hp hmem => ?_)]
    exact hfresh name hnew (hs.closed name ⟨p, hp, hmem⟩)
  · have hmem := hname.1
    rw [h.ruleNames_eq] at hmem
    rw [List.count_eq_zero.mpr hnew, hs.once name
      ⟨(List.mem_append.mp hmem).resolve_right hnew, hname.2⟩]

/-- **Regrouping a rule keeps what all rules unfold to.** -/
theorem unfolds_regrouped (hs : s.Refactors g) (hqueue : s.queue = (left, ps) :: rest)
    (h : s.Regrouped left ps rest t added out) (name : String) :
    ∃ rs, g.Unfolds t.grammar (t.grammar.productions name) rs
      ∧ (name ∈ g.ruleNames → rs.Perm (g.productions name)) := by
  obtain ⟨hleft, hps, hplain, hflat⟩ := hs.head hqueue
  have hfresh := (new_of_ruleNames_eq h.ruleNames_eq).2
  have hhelper : ∀ name, g.IsHelper s.grammar name → g.IsHelper t.grammar name := by
    intro name hname
    refine ⟨?_, hname.2⟩
    rw [h.ruleNames_eq]
    exact List.mem_append_left _ hname.1
  have hout : g.Unfolds t.grammar (t.grammar.productions left) (groupByLeading ps).flatten := by
    rw [h.left_eq]
    refine h.groups.unfolds hflat (fun e he => ⟨⟨?_, fun hold => ?_⟩, h.added_eq e he⟩)
    · rw [h.ruleNames_eq]
      exact List.mem_append_right _ (List.mem_map_of_mem he)
    · exact hfresh e.1 (List.mem_map_of_mem he) (hs.subset e.1 hold)
  have hhelpers : ∀ helper, g.IsHelper s.grammar helper →
      t.grammar.productions helper = s.grammar.productions helper
        ∨ (∀ p ∈ s.grammar.productions helper, p.Plain g)
          ∧ ∃ us, g.Unfolds t.grammar (t.grammar.productions helper) us
            ∧ us.Perm (s.grammar.productions helper) := by
    intro helper hmem
    by_cases hsame : helper = left
    · subst hsame
      rw [hps]
      exact Or.inr ⟨hplain, _, hout, flatten_groupByLeading_perm ps⟩
    · exact Or.inl (h.productions_eq_of_mem hmem.1 hsame)
  by_cases hname : name = left
  · -- the rule itself: it was plain, and unfolding puts its groups together again
    subst hname
    refine ⟨_, hout, fun hmem => (flatten_groupByLeading_perm ps).trans ?_⟩
    obtain ⟨rs, hrs, hperm⟩ := hs.unfolds name
    rw [hps] at hrs
    rw [← hrs.functional (Grammar.Unfolds.of_plain hplain)]
    exact hperm hmem
  · by_cases hnew : name ∈ added.map Prod.fst
    · obtain ⟨e, he, rfl⟩ := List.mem_map.mp hnew
      rw [h.added_eq e he]
      exact ⟨e.2, Grammar.Unfolds.of_plain (h.groups.added_plain hflat e he),
        fun hmem => absurd (hs.subset e.1 hmem) (hfresh e.1 hnew)⟩
    · obtain ⟨rs, hrs, hperm⟩ := hs.unfolds name
      rw [h.others_eq name hname hnew]
      obtain ⟨rs', hrs', hperm'⟩ := hrs.transfer hhelper hhelpers
      exact ⟨rs', hrs', fun hmem => hperm'.trans (hperm hmem)⟩

/-- **A step keeps what a factoring keeps.** -/
theorem refactors_step (hs : s.Refactors g) (hqueue : s.queue ≠ []) : s.step.Refactors g := by
  obtain ⟨⟨left, ps⟩, rest, hqueue⟩ := List.exists_cons_of_ne_nil hqueue
  obtain ⟨hleft, _, _, hflat⟩ := hs.head hqueue
  have hrest : ∀ e ∈ rest, ∀ p ∈ e.2, p.Plain g := fun e he =>
    hs.plain e (hqueue ▸ List.mem_cons_of_mem _ he)
  have hconsistent := consistent_step hs.consistent hqueue
  cases step_effect hqueue hleft with
  | unchanged _ hq hg =>
    refine ⟨hconsistent, ?_, ?_, ?_, ?_⟩
    · rw [hg]
      exact hs.subset
    · rw [hq]
      exact hrest
    · rw [hg]
      exact hs.once
    · rw [hg]
      exact hs.unfolds
  | regrouped added out h =>
    refine ⟨hconsistent, fun name hname => ?_, fun e he => ?_, fun name hname => ?_,
      unfolds_regrouped hs hqueue h⟩
    · rw [h.ruleNames_eq]
      exact List.mem_append_left _ (hs.subset name hname)
    · rw [h.queue_eq] at he
      exact (List.mem_append.mp he).elim (hrest e) (h.groups.added_plain hflat e)
    · exact mentionCount_regrouped hs hqueue h hname

/-- **A whole factoring of a closed grammar.** -/
theorem refactors_leftFactorWith (hg : g.Closed) (names : NameAllocator) :
    (g.leftFactorWith names).Refactors g :=
  (run_induction (fun _ hqueue hs => refactors_step hs hqueue) _ (refactors_start hg names)).1

end Factoring

/-! ## Languages -/

namespace Grammar

variable {g after : Grammar} {ps rs : List Production} {name : String} {w : List Symbol}

/-- **Unfolding keeps what alternatives yield**, wherever a helper has the texts of its
alternatives. -/
theorem Unfolds.yieldsAny_iff {L : Languages} (h : g.Unfolds after ps rs)
    (hL : ∀ helper u, L helper u ↔ YieldsAny L (after.productions helper) u) :
    YieldsAny L rs w ↔ YieldsAny L ps w := by
  induction h with
  | nil => exact Iff.rfl
  | keep _ _ ih => rw [YieldsAny.cons_iff, YieldsAny.cons_iff, ih]
  | unfold _ _ _ _ ihus ihps =>
    rw [YieldsAny.append_iff, YieldsAny.cons_iff, ihps, ihus, YieldsAny.map_append_iff,
      Yields.push_iff]
    simp only [hL]

/-- **The texts of a name once its helpers are unfolded.** -/
def UnfoldedTexts (g after : Grammar) : Languages := fun name w =>
  ∃ rs, g.Unfolds after (after.productions name) rs ∧ YieldsAny g.Generates rs w

/-- **Where helpers have their unfolded texts, alternatives yield nothing that they do not
unfold to.** -/
theorem Unfolds.yieldsAny_of_unfoldedTexts (h : g.Unfolds after ps rs)
    (hold : ∀ name ∈ g.ruleNames, ∀ w, g.UnfoldedTexts after name w → g.Generates name w)
    (hw : YieldsAny (g.UnfoldedTexts after) ps w) : YieldsAny g.Generates rs w := by
  induction h with
  | nil => exact absurd hw.choose_spec.1 List.not_mem_nil
  | keep hp _ ih =>
    rw [YieldsAny.cons_iff] at hw ⊢
    exact hw.imp (fun hw => hw.mono (fun name hname => hold name (hp name hname))) ih
  | unfold hq _ hus _ _ ihps =>
    rw [YieldsAny.cons_iff] at hw
    rw [YieldsAny.append_iff]
    refine hw.imp (fun hw => ?_) ihps
    obtain ⟨u, v, rfl, hu, rs', hrs', hv⟩ := Yields.push_iff.mp hw
    -- what stands in front of the helper stands in front of what it unfolds to
    rw [hus.functional (hrs'.map_append hq), YieldsAny.map_append_iff]
    exact ⟨u, v, rfl, hu.mono (fun name hname => hold name (hq name hname)), hv⟩

end Grammar

namespace Factoring

variable {g : Grammar} {s : Factoring} {name : String} {w : List Symbol}

/-- **A factoring keeps what every rule generates.** -/
theorem Refactors.generates_iff (hs : s.Refactors g) (hname : name ∈ g.ruleNames) :
    s.grammar.Generates name w ↔ g.Generates name w := by
  have hold : ∀ name ∈ g.ruleNames, ∀ w,
      g.UnfoldedTexts s.grammar name w → g.Generates name w := by
    rintro name hname w ⟨rs, hrs, hw⟩
    obtain ⟨rs', hrs', hperm⟩ := hs.unfolds name
    rw [hrs.functional hrs', YieldsAny.congr (fun p => (hperm hname).mem_iff)] at hw
    exact Grammar.isModel_generates g name w hw
  constructor
  · intro h
    have hmodel : s.grammar.IsModel (g.UnfoldedTexts s.grammar) := by
      intro name w hw
      obtain ⟨rs, hrs, _⟩ := hs.unfolds name
      exact ⟨rs, hrs, hrs.yieldsAny_of_unfoldedTexts hold hw⟩
    exact hold name hname w (hmodel.of_generates h)
  · intro h
    have hmodel : g.IsModel s.grammar.Generates := by
      intro name w hw
      obtain ⟨rs, hrs, hperm⟩ := hs.unfolds name
      have hrule := Grammar.mem_ruleNames_of_mem hw.choose_spec.1
      rw [← YieldsAny.congr (fun p => (hperm hrule).mem_iff),
        hrs.yieldsAny_iff (fun _ _ => Grammar.generates_iff_yieldsAny)] at hw
      exact Grammar.isModel_generates s.grammar name w hw
    exact hmodel.of_generates h

/-- A helper stands at the end of an alternative. -/
theorem Refactors.exists_trailing (hs : s.Refactors g) (hname : g.IsHelper s.grammar name) :
    ∃ p ∈ s.grammar.alternatives, p.body.getLast? = some (.nonTerminal name) := by
  have hmentioned : s.grammar.Mentions name := by
    unfold Grammar.Mentions
    by_contra hnot
    push Not at hnot
    -- without a mention the count would be zero
    have honce := hs.once name hname
    rw [mentionCount_eq_zero hnot] at honce
    exact absurd honce (by decide)
  obtain ⟨left, p, hp, hmem⟩ := Grammar.mentions_iff.mp hmentioned
  refine ⟨p, Grammar.mem_alternatives.mpr ⟨left, hp⟩, ?_⟩
  obtain ⟨rs, hrs, _⟩ := hs.unfolds left
  cases hrs.shape hp with
  | inl hplain => exact absurd (hplain name hmem) hname.2
  | inr hpush =>
    obtain ⟨q, helper, hq, _, rfl⟩ := hpush
    rw [Production.body_push_nonTerminal, List.mem_append, List.mem_singleton] at hmem
    rw [Production.body_push_nonTerminal, List.getLast?_concat]
    exact hmem.elim (fun h => absurd (hq name h) hname.2) (fun h => congrArg some h.symm)

end Factoring

namespace Grammar

/-- **Factoring a closed grammar only regroups alternatives.** Every helper is mentioned
once in the whole result, at the end of an alternative; replacing helpers there by their
own alternatives, as often as it takes, gives every rule exactly the alternatives that it
had; and every rule generates what it generated. -/
theorem leftFactorWith_regroups {g : Grammar} (hg : g.Closed) (names : NameAllocator) :
    let after := (g.leftFactorWith names).grammar
    (∀ name, g.IsHelper after name → mentionCount after.alternatives name = 1
        ∧ ∃ p ∈ after.alternatives, p.body.getLast? = some (.nonTerminal name))
      ∧ ∀ name ∈ g.ruleNames,
        (∃ rounds, ∀ n ≥ rounds,
          ((g.unfoldHelpers after)^[n] (after.productions name)).Perm (g.productions name))
        ∧ ∀ w, after.Generates name w ↔ g.Generates name w := by
  have hs := Factoring.refactors_leftFactorWith hg names
  refine ⟨fun name hname => ⟨hs.once name hname, hs.exists_trailing hname⟩,
    fun name hname => ⟨?_, fun w => hs.generates_iff hname⟩⟩
  obtain ⟨rs, hrs, hperm⟩ := hs.unfolds name
  obtain ⟨rounds, hrounds⟩ := hrs.iterate
  exact ⟨rounds, fun n hn => (hrounds n hn).symm ▸ hperm hname⟩

/-- A grammar with groups inside groups, doubled alternatives and two empty ones. -/
def nested : Grammar :=
  ((∅ : Grammar).setProductions "S"
    [.ofSymbols [.terminal "a", .nonTerminal "T", .terminal "c"],
      .ofSymbols [.terminal "a", .nonTerminal "T", .terminal "d"],
      .ofSymbols [.terminal "a", .nonTerminal "T", .terminal "d"],
      .ofSymbols [.terminal "a", .terminal "e"], .epsilon, .epsilon]).setProductions "T"
    [.ofSymbols [.nonTerminal "S"], .ofSymbols [.nonTerminal "S", .terminal "b"]]

/-- Unfolding gives the six alternatives back, and a text that needs them is kept. -/
theorem leftFactorWith_regroups_nested :
    nested.Closed ∧ "S" ∈ nested.ruleNames
    ∧ (∃ rounds, ∀ n ≥ rounds, ((nested.unfoldHelpers nested.leftFactor.grammar)^[n]
        (nested.leftFactor.grammar.productions "S")).Perm
      [.ofSymbols [.terminal "a", .nonTerminal "T", .terminal "c"],
        .ofSymbols [.terminal "a", .nonTerminal "T", .terminal "d"],
        .ofSymbols [.terminal "a", .nonTerminal "T", .terminal "d"],
        .ofSymbols [.terminal "a", .terminal "e"], .epsilon, .epsilon])
    ∧ (nested.leftFactor.grammar.Generates "S" [.terminal "a", .terminal "b", .terminal "d"]
      ↔ nested.Generates "S" [.terminal "a", .terminal "b", .terminal "d"]) := by
  have hclosed : nested.Closed := by decide
  have hname : "S" ∈ nested.ruleNames := by decide
  obtain ⟨hunfold, htexts⟩ := (leftFactorWith_regroups hclosed .initial).2 "S" hname
  exact ⟨hclosed, hname, hunfold, htexts _⟩

end Grammar

end GrammarWorkbench
