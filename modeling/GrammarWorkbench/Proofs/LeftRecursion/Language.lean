import GrammarWorkbench.Proofs.Language
import GrammarWorkbench.Proofs.LeftRecursion.Round

/-!
# Elimination keeps the language

Replacing leading references and splitting a rule change the alternatives of one rule
only. For each of the two changes both grammars are compared through their least
models: what one generates is a model of the other.

Replacing a leading reference needs no more than that a name has the texts of its
alternatives, which holds in both grammars (`yieldsAny_foldl_substituteLeading`).
Splitting `A -> A α | β` into `A -> β X`, `X -> α X | ϵ` needs the texts of the helper
`X` in the old grammar, where it has no rule: they are the texts that can stand behind
every text of `A` (`behind`). The other way round, a text of `X` can be prolonged by a
text of `α` at its end, though the rule of `X` prolongs it at the front
(`generates_helper_append`).
-/

namespace GrammarWorkbench

namespace Grammar

variable {g : Grammar} {L : Languages} {w : List Symbol}

/-! ## Leading references -/

/-- **Replacing leading references to a rule keeps the texts**, wherever a name has the
texts of its alternatives. -/
theorem yieldsAny_substituteLeading {inner : String} {ps : List Production}
    (hL : ∀ u, L inner u ↔ YieldsAny L (g.productions inner) u) :
    YieldsAny L (g.substituteLeading ps inner) w ↔ YieldsAny L ps w := by
  unfold YieldsAny
  simp only [substituteLeading_eq, Production.mem_expandLeading]
  constructor
  · rintro ⟨q, ⟨hq, -⟩ | ⟨p, hp, hlead, beta, hbeta, rfl⟩, hw⟩
    · exact ⟨q, hq, hw⟩
    · obtain ⟨u, v, rfl, hu, hv⟩ := Yields.append_iff.mp hw
      refine ⟨p, hp, ?_⟩
      rw [Production.body_eq_of_startsWith hlead]
      exact Yields.replace ((hL u).mpr ⟨beta, hbeta, hu⟩) hv
  · rintro ⟨p, hp, hw⟩
    cases hlead : p.startsWith inner with
    | false => exact ⟨p, Or.inl ⟨hp, hlead⟩, hw⟩
    | true =>
      rw [Production.body_eq_of_startsWith hlead] at hw
      obtain ⟨u, v, rfl, hu, hv⟩ := Yields.nonTerminal_cons_iff.mp hw
      obtain ⟨beta, hbeta, hu⟩ := (hL u).mp hu
      exact ⟨beta ++ p.suffix 1, Or.inr ⟨p, hp, hlead, beta, hbeta, rfl⟩, hu.append hv⟩

theorem yieldsAny_foldl_substituteLeading {inners : List String} {ps : List Production}
    (hL : ∀ inner ∈ inners, ∀ u, L inner u ↔ YieldsAny L (g.productions inner) u) :
    YieldsAny L (inners.foldl g.substituteLeading ps) w ↔ YieldsAny L ps w := by
  induction inners generalizing ps with
  | nil => exact Iff.rfl
  | cons inner inners ih =>
    rw [List.foldl_cons, ih (fun name hname => hL name (List.mem_cons_of_mem _ hname))]
    exact yieldsAny_substituteLeading (hL inner List.mem_cons_self)

end Grammar

namespace Elimination

variable {s : Elimination} {left : String} {rest : List String} {w : List Symbol}

/-- What a rule generates, its expanded alternatives yield. -/
theorem generates_iff_yieldsAny_expanded :
    s.grammar.Generates left w ↔ YieldsAny s.grammar.Generates (s.expanded left) w := by
  rw [Grammar.generates_iff_yieldsAny]
  refine (Grammar.yieldsAny_foldl_substituteLeading (fun inner _ u => ?_)).symm
  exact Grammar.generates_iff_yieldsAny

/-- The expansion also keeps the texts as the grammar after the round reads them: the
rules that it looks at are the same. -/
theorem yieldsAny_expanded_round (hs : s.Ordered) (hpending : s.pending = left :: rest) :
    YieldsAny s.round.grammar.Generates (s.expanded left) w
      ↔ YieldsAny s.round.grammar.Generates (s.grammar.productions left) w := by
  refine Grammar.yieldsAny_foldl_substituteLeading (fun inner hinner u => ?_)
  have hne : inner ≠ left := fun h => hs.not_mem_processed hpending (h ▸ hinner)
  rw [Grammar.generates_iff_yieldsAny,
    productions_round_of_ne hs hpending (hs.processed_subset hinner) hne]

/-! ## Direct recursion -/

/-- An alternative that is recursive without a tail is the rule's name alone. -/
theorem body_of_suffix_isEpsilon {p : Production} (hlead : p.startsWith left = true)
    (htail : (p.suffix 1).isEpsilon = true) : p.body = [.nonTerminal left] := by
  rw [Production.body_eq_of_startsWith hlead, List.isEmpty_iff.mp htail]

/-- **What the alternatives of a rule yield**: a text without direct recursion, a text of
the rule itself, or such a text with a text of a tail behind it. -/
theorem yieldsAny_cases {L : Languages} {ps : List Production} (h : YieldsAny L ps w) :
    YieldsAny L (Production.nonRecursive left ps) w ∨ L left w ∨
      ∃ u v, w = u ++ v ∧ L left u ∧ YieldsAny L (Production.recursiveTails left ps) v := by
  obtain ⟨p, hp, hw⟩ := h
  cases hlead : p.startsWith left with
  | false => exact Or.inl ⟨p, Production.mem_nonRecursive.mpr ⟨hp, hlead⟩, hw⟩
  | true =>
    cases htail : (p.suffix 1).isEpsilon with
    | true =>
      rw [body_of_suffix_isEpsilon hlead htail] at hw
      exact Or.inr (Or.inl (Yields.nonTerminal_iff.mp hw))
    | false =>
      rw [Production.body_eq_of_startsWith hlead] at hw
      obtain ⟨u, v, rfl, hu, hv⟩ := Yields.nonTerminal_cons_iff.mp hw
      refine Or.inr (Or.inr ⟨u, v, rfl, hu, p.suffix 1, ?_, hv⟩)
      exact Production.mem_recursiveTails.mpr ⟨htail, p, hp, hlead, rfl⟩

theorem yieldsAny_of_nonRecursive {L : Languages} {ps : List Production}
    (h : YieldsAny L (Production.nonRecursive left ps) w) : YieldsAny L ps w := by
  obtain ⟨p, hp, hw⟩ := h
  exact ⟨p, (Production.mem_nonRecursive.mp hp).1, hw⟩

/-- Behind a text of the rule may stand a text of a tail. -/
theorem yieldsAny_append_of_tail {L : Languages} {ps : List Production} {u v : List Symbol}
    (hu : L left u) (hv : YieldsAny L (Production.recursiveTails left ps) v) :
    YieldsAny L ps (u ++ v) := by
  obtain ⟨alpha, halpha, hv⟩ := hv
  obtain ⟨-, p, hp, hlead, rfl⟩ := Production.mem_recursiveTails.mp halpha
  refine ⟨p, hp, ?_⟩
  rw [Production.body_eq_of_startsWith hlead]
  exact Yields.replace hu hv

/-- **Dropping useless alternatives keeps the language.** -/
theorem generates_round_of_dropped (hs : s.Ordered) (hpending : s.pending = left :: rest)
    (htails : Production.recursiveTails left (s.expanded left) = [])
    (hproductions : ∀ name, s.round.grammar.productions name
      = if name = left then Production.nonRecursive left (s.expanded left)
        else s.grammar.productions name) (name : String) :
    s.round.grammar.Generates name w ↔ s.grammar.Generates name w := by
  constructor
  · refine Grammar.IsModel.of_generates (fun name w hw => ?_)
    rw [hproductions] at hw
    split at hw
    · next hname =>
      rw [hname, generates_iff_yieldsAny_expanded]
      exact yieldsAny_of_nonRecursive hw
    · exact Grammar.isModel_generates _ name w hw
  · refine Grammar.IsModel.of_generates (fun name w hw => ?_)
    by_cases hname : name = left
    · subst hname
      rcases yieldsAny_cases ((yieldsAny_expanded_round hs hpending).mpr hw) with
        hw | hw | ⟨u, v, rfl, -, alpha, halpha, -⟩
      · rw [Grammar.generates_iff_yieldsAny, hproductions, if_pos rfl]
        exact hw
      · exact hw
      · rw [htails] at halpha
        exact absurd halpha List.not_mem_nil
    · rw [Grammar.generates_iff_yieldsAny, hproductions, if_neg hname]
      exact hw

/-- **The languages of the old grammar, with one for the helper**: the texts that may
stand behind every text of `left`. -/
def behind (g : Grammar) (left helper : String) : Languages := fun name w =>
  if name = helper then ∀ u, g.Generates left u → g.Generates left (u ++ w)
  else g.Generates name w

/-- Where the helper is not mentioned, its language does not matter. -/
theorem yields_behind_iff {g : Grammar} {helper : String} {l : List Symbol}
    (h : Symbol.nonTerminal helper ∉ l) :
    Yields (behind g left helper) l w ↔ Yields g.Generates l w := by
  constructor <;> refine Yields.mono (fun name hname w hw => ?_) <;>
    have hne : name ≠ helper := (fun he => h (he ▸ hname))
  · unfold behind at hw
    rwa [if_neg hne] at hw
  · unfold behind
    rwa [if_neg hne]

section Split

variable (hclosed : s.grammar.Closed)
  (hproductions : ∀ name, s.round.grammar.productions name
    = if name = s.helper then
        (Production.recursiveTails left (s.expanded left)).map
          (fun p => p.push (.nonTerminal s.helper)) ++ [Production.epsilon]
      else if name = left then
        (Production.nonRecursive left (s.expanded left)).map
          (fun p => p.push (.nonTerminal s.helper))
      else s.grammar.productions name)

include hclosed in
/-- Nothing in the grammar mentions the helper yet. -/
theorem not_mentions_helper : ¬ s.grammar.Mentions s.helper :=
  fun h => s.helper_not_mem (hclosed _ h)

include hclosed in
theorem helper_not_mem_expanded {p : Production} (hp : p ∈ s.expanded left) :
    Symbol.nonTerminal s.helper ∉ p.body :=
  fun h => not_mentions_helper hclosed (uses_of_mem_expanded hp h)

include hclosed in
theorem helper_not_mem_tail {p : Production}
    (hp : p ∈ Production.recursiveTails left (s.expanded left)) :
    Symbol.nonTerminal s.helper ∉ p.body := by
  obtain ⟨-, q, hq, -, rfl⟩ := Production.mem_recursiveTails.mp hp
  exact fun h => helper_not_mem_expanded hclosed hq (Production.mem_body_suffix h)

include hclosed hproductions in
/-- **The old grammar has room for the split rule.** -/
theorem isModel_behind : s.round.grammar.IsModel (behind s.grammar left s.helper) := by
  rintro name w ⟨q, hq, hw⟩
  rw [hproductions] at hq
  by_cases hhelper : name = s.helper
  · rw [if_pos hhelper, List.mem_append, List.mem_singleton] at hq
    unfold behind
    rw [if_pos hhelper]
    intro t ht
    rcases hq with hq | rfl
    · obtain ⟨alpha, halpha, rfl⟩ := List.mem_map.mp hq
      obtain ⟨u, v, rfl, hu, hv⟩ := Yields.push_iff.mp hw
      rw [yields_behind_iff (helper_not_mem_tail hclosed halpha)] at hu
      unfold behind at hv
      rw [if_pos rfl] at hv
      -- a text of the rule with a tail behind it is a text of the rule again
      rw [← List.append_assoc]
      refine hv _ (generates_iff_yieldsAny_expanded.mpr ?_)
      exact yieldsAny_append_of_tail ht ⟨alpha, halpha, hu⟩
    · rw [Production.body_epsilon, Yields.nil_iff] at hw
      rw [hw, List.append_nil]
      exact ht
  · rw [if_neg hhelper] at hq
    unfold behind
    rw [if_neg hhelper]
    by_cases hleft : name = left
    · rw [if_pos hleft] at hq
      subst hleft
      obtain ⟨beta, hbeta, rfl⟩ := List.mem_map.mp hq
      obtain ⟨u, v, rfl, hu, hv⟩ := Yields.push_iff.mp hw
      have hold := (Production.mem_nonRecursive.mp hbeta).1
      rw [yields_behind_iff (helper_not_mem_expanded hclosed hold)] at hu
      unfold behind at hv
      rw [if_pos rfl] at hv
      exact hv u (generates_iff_yieldsAny_expanded.mpr ⟨beta, hold, hu⟩)
    · rw [if_neg hleft] at hq
      have hmention : Symbol.nonTerminal s.helper ∉ q.body := fun h =>
        not_mentions_helper hclosed (Grammar.mentions_iff.mpr ⟨name, q, hq, h⟩)
      rw [yields_behind_iff hmention] at hw
      exact Grammar.isModel_generates _ name w ⟨q, hq, hw⟩

include hproductions in
theorem generates_helper_nil : s.round.grammar.Generates s.helper [] := by
  rw [Grammar.generates_iff_yieldsAny, hproductions, if_pos rfl]
  exact ⟨Production.epsilon, List.mem_append_right _ List.mem_cons_self, Yields.nil⟩

include hproductions in
/-- A text of a tail may stand in front of a text of the helper. -/
theorem generates_helper_of_tail {u v : List Symbol}
    (hu : YieldsAny s.round.grammar.Generates
      (Production.recursiveTails left (s.expanded left)) u)
    (hv : s.round.grammar.Generates s.helper v) :
    s.round.grammar.Generates s.helper (u ++ v) := by
  obtain ⟨alpha, halpha, hu⟩ := hu
  rw [Grammar.generates_iff_yieldsAny, hproductions, if_pos rfl]
  refine ⟨_, List.mem_append_left _ (List.mem_map.mpr ⟨alpha, halpha, rfl⟩), ?_⟩
  exact Yields.push_iff.mpr ⟨u, v, rfl, hu, hv⟩

include hproductions in
/-- **A text of a tail may also stand behind a text of the helper.** The rule of the
helper puts tails in front only, so the texts that can be prolonged are shown to be a
model. -/
theorem generates_helper_append {u v : List Symbol}
    (hu : s.round.grammar.Generates s.helper u)
    (hv : YieldsAny s.round.grammar.Generates
      (Production.recursiveTails left (s.expanded left)) v) :
    s.round.grammar.Generates s.helper (u ++ v) := by
  let L : Languages := fun name w => s.round.grammar.Generates name w
    ∧ (name = s.helper → s.round.grammar.Generates s.helper (w ++ v))
  have hL : s.round.grammar.IsModel L := by
    intro name w hw
    refine ⟨Grammar.isModel_generates _ name w (hw.mono (fun _ _ h => h.1)), fun hname => ?_⟩
    obtain ⟨q, hq, hw⟩ := hw
    rw [hproductions, if_pos hname, List.mem_append, List.mem_singleton] at hq
    rcases hq with hq | rfl
    · obtain ⟨alpha, halpha, rfl⟩ := List.mem_map.mp hq
      obtain ⟨u, t, rfl, hu, -, ht⟩ := Yields.push_iff.mp hw
      rw [List.append_assoc]
      refine generates_helper_of_tail hproductions ⟨alpha, halpha, ?_⟩ (ht rfl)
      exact hu.mono (fun _ _ _ h => h.1)
    · rw [Production.body_epsilon, Yields.nil_iff] at hw
      have hend := generates_helper_of_tail hproductions hv (generates_helper_nil hproductions)
      rw [List.append_nil] at hend
      rw [hw, List.nil_append]
      exact hend
  exact (hL.of_generates hu).2 rfl

include hproductions in
/-- **The split rule obeys the old one.** -/
theorem isModel_generates_round (hs : s.Ordered) (hpending : s.pending = left :: rest) :
    s.grammar.IsModel s.round.grammar.Generates := by
  have hne : left ≠ s.helper := fun h => s.helper_not_mem (h ▸ hs.mem_ruleNames hpending)
  have hleft : ∀ {w}, s.round.grammar.Generates left w ↔ ∃ u v, w = u ++ v
      ∧ YieldsAny s.round.grammar.Generates (Production.nonRecursive left (s.expanded left)) u
      ∧ s.round.grammar.Generates s.helper v := by
    intro w
    rw [Grammar.generates_iff_yieldsAny, hproductions, if_neg hne, if_pos rfl]
    constructor
    · rintro ⟨q, hq, hw⟩
      obtain ⟨beta, hbeta, rfl⟩ := List.mem_map.mp hq
      obtain ⟨u, v, rfl, hu, hv⟩ := Yields.push_iff.mp hw
      exact ⟨u, v, rfl, ⟨beta, hbeta, hu⟩, hv⟩
    · rintro ⟨u, v, rfl, ⟨beta, hbeta, hu⟩, hv⟩
      exact ⟨_, List.mem_map.mpr ⟨beta, hbeta, rfl⟩, Yields.push_iff.mpr ⟨u, v, rfl, hu, hv⟩⟩
  intro name w hw
  by_cases hname : name = left
  · subst hname
    rcases yieldsAny_cases ((yieldsAny_expanded_round hs hpending).mpr hw) with
      hw | hw | ⟨u, v, rfl, hu, hv⟩
    · exact hleft.mpr ⟨w, [], (List.append_nil w).symm, hw, generates_helper_nil hproductions⟩
    · exact hw
    · obtain ⟨u, t, rfl, hu, ht⟩ := hleft.mp hu
      rw [List.append_assoc]
      exact hleft.mpr ⟨u, t ++ v, rfl, hu, generates_helper_append hproductions ht hv⟩
  · have hrule := hw.choose_spec.1
    have hhelper : name ≠ s.helper := fun h =>
      s.helper_not_mem (h ▸ Grammar.mem_ruleNames_of_mem hrule)
    rw [Grammar.generates_iff_yieldsAny, hproductions, if_neg hhelper, if_neg hname]
    exact hw

end Split

/-! ## The whole process -/

/-- **A round keeps what the rules generate.** -/
theorem generates_round (hs : s.Ordered) (hclosed : s.grammar.Closed) {name : String}
    (hname : name ∈ s.grammar.ruleNames) :
    s.round.grammar.Generates name w ↔ s.grammar.Generates name w := by
  cases hpending : s.pending with
  | nil => rw [round_of_finished hpending]
  | cons left rest =>
    cases round_effect hs hpending with
    | dropped tails_eq _ _ productions_eq =>
      exact generates_round_of_dropped hs hpending tails_eq productions_eq name
    | split _ _ _ productions_eq =>
      constructor
      · intro h
        have hbehind := (isModel_behind hclosed productions_eq).of_generates h
        unfold behind at hbehind
        rwa [if_neg (fun h : name = s.helper => s.helper_not_mem (h ▸ hname))] at hbehind
      · exact (isModel_generates_round productions_eq hs hpending).of_generates

/-- Any number of rounds does. -/
theorem generates_rounds (hs : s.Ordered) (hclosed : s.grammar.Closed) (n : Nat)
    {name : String} (hname : name ∈ s.grammar.ruleNames) :
    (rounds n s).grammar.Generates name w ↔ s.grammar.Generates name w := by
  induction n generalizing s with
  | zero => exact Iff.rfl
  | succ n ih =>
    rw [rounds, ih (ordered_round hs) (closed_round hs hclosed) (mem_ruleNames_round hs hname)]
    exact generates_round hs hclosed hname

end Elimination

namespace Grammar

/-- **Elimination keeps the language.** In a grammar in which every non-terminal has a
rule, each rule generates the same texts after any number of rounds, and so in the
answer, if the process ends. -/
theorem generates_eliminated_iff {g : Grammar} (hclosed : g.Closed) (names : NameAllocator)
    {name : String} (hname : name ∈ g.ruleNames) (w : List Symbol) :
    (∀ n, (Elimination.rounds n (Elimination.start g names)).grammar.Generates name w
      ↔ g.Generates name w)
    ∧ ∀ done, g.eliminateLeftRecursionWith names = .ok done →
      (done.grammar.Generates name w ↔ g.Generates name w) := by
  have hrounds : ∀ n, (Elimination.rounds n (Elimination.start g names)).grammar.Generates name w
      ↔ g.Generates name w :=
    fun n => Elimination.generates_rounds (Elimination.ordered_start g names) hclosed n hname
  refine ⟨hrounds, fun done hdone => ?_⟩
  obtain ⟨n, rfl, -⟩ := exists_rounds_of_eliminated hdone
  exact hrounds n

/-- A grammar with empty, doubled and useless alternatives, and with a rule whose
alternatives are all left-recursive. -/
def tangled : Grammar :=
  ((∅ : Grammar).setProductions "S"
    [.ofSymbols [.nonTerminal "S", .nonTerminal "S", .terminal "a"],
      .ofSymbols [.nonTerminal "S"], .epsilon, .ofSymbols [.nonTerminal "T", .nonTerminal "S"],
      .ofSymbols [.terminal "c"], .ofSymbols [.terminal "c"]]).setProductions "T"
    [.ofSymbols [.nonTerminal "T", .terminal "x"]]

/-- Nothing of the language is lost or added in the tangled grammar. -/
theorem generates_eliminated_iff_tangled :
    tangled.Closed ∧ "S" ∈ tangled.ruleNames
    ∧ (∀ n, (Elimination.rounds n (Elimination.start tangled ⟨4⟩)).grammar.Generates "S"
        [.terminal "c", .terminal "a"] ↔ tangled.Generates "S" [.terminal "c", .terminal "a"])
    ∧ ∀ done, tangled.eliminateLeftRecursionWith ⟨4⟩ = .ok done →
      (done.grammar.Generates "S" [.terminal "c", .terminal "a"]
        ↔ tangled.Generates "S" [.terminal "c", .terminal "a"]) := by
  have hclosed : tangled.Closed := by decide
  have hname : "S" ∈ tangled.ruleNames := by decide
  exact ⟨hclosed, hname, generates_eliminated_iff hclosed ⟨4⟩ hname _⟩

end Grammar

end GrammarWorkbench
