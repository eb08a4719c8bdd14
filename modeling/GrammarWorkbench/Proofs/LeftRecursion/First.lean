import GrammarWorkbench.Proofs.FirstFollow.First
import GrammarWorkbench.Proofs.LeftRecursion.Language
import Mathlib.Data.List.Permutation

/-!
# Elimination keeps FIRST

FIRST does not follow from the language: a name that generates no text has its set, too. But
the FIRST sets are the least sets that obey the rules, just as the languages are the least
model, and so both grammars of a round are compared in the same way: the sets of one are made
into sets that obey the rules of the other.

Replacing a leading reference changes nothing that is shown, wherever a name shows what its
alternatives show (`firstOfAlternatives_foldl_substituteLeading`). For the splitting of
`A -> A α | β` into `A -> β X`, `X -> α X | ϵ` the old grammar lacks a set for the helper `X`.
It is what is shown where `A` has vanished, that is, by the tails `α`, and the mark
(`withHelper`). Whether `A` can vanish is up to the alternatives `β` alone, since `X` always
can.
-/

namespace GrammarWorkbench

variable {t t' : SetTable} {ps : List Production} {left helper : String} {a : Symbol}

/-! ## What alternatives show -/

namespace Grammar

variable {g : Grammar}

/-- Sets obey the rules if they hold what all alternatives of a name together show. -/
theorem obeysRules_iff : g.ObeysRules t
    ↔ ∀ name a, a ∈ firstOfAlternatives t (g.productions name) → a ∈ t.setAt name := by
  constructor
  · intro ht name a ha
    obtain ⟨p, hp, hap⟩ := mem_firstOfAlternatives.mp ha
    exact ht name p hp a hap
  · exact fun ht name p hp a ha => ht name a (mem_firstOfAlternatives.mpr ⟨p, hp, ha⟩)

/-- **Replacing leading references to a rule changes nothing that is shown**, wherever the
name shows what its alternatives show. -/
theorem firstOfAlternatives_substituteLeading {inner : String}
    (ht : t.setAt inner = firstOfAlternatives t (g.productions inner)) (ps : List Production) :
    firstOfAlternatives t (g.substituteLeading ps inner) = firstOfAlternatives t ps := by
  have hinner : ∀ b, b ∈ firstOfSymbol t (.nonTerminal inner)
      ↔ ∃ beta ∈ g.productions inner, b ∈ firstOfSequence t beta.body := by
    intro b
    rw [← mem_firstOfAlternatives, ← ht]
    rfl
  refine SortedSet.ext (fun a => ?_)
  simp only [mem_firstOfAlternatives, substituteLeading_eq, Production.mem_expandLeading]
  constructor
  · rintro ⟨q, ⟨hq, -⟩ | ⟨p, hp, hlead, beta, hbeta, rfl⟩, ha⟩
    · exact ⟨q, hq, ha⟩
    · refine ⟨p, hp, ?_⟩
      rw [Production.body_append, mem_firstOfSequence_append] at ha
      rw [Production.body_eq_of_startsWith hlead, mem_firstOfSequence_cons, hinner, hinner]
      exact ha.imp (fun ha => ⟨⟨beta, hbeta, ha.1⟩, ha.2⟩) (fun ha => ⟨⟨beta, hbeta, ha.1⟩, ha.2⟩)
  · rintro ⟨p, hp, ha⟩
    cases hlead : p.startsWith inner with
    | false => exact ⟨p, .inl ⟨hp, hlead⟩, ha⟩
    | true =>
      rw [Production.body_eq_of_startsWith hlead, mem_firstOfSequence_cons, hinner, hinner] at ha
      -- the alternative of `inner` that shows the symbol, or the one that can vanish
      obtain ⟨beta, hbeta, ha⟩ : ∃ beta ∈ g.productions inner,
          a ∈ firstOfSequence t (beta ++ p.suffix 1).body := by
        simp only [Production.body_append, mem_firstOfSequence_append]
        rcases ha with ⟨⟨beta, hbeta, ha⟩, hne⟩ | ⟨⟨beta, hbeta, hvanish⟩, ha⟩
        · exact ⟨beta, hbeta, .inl ⟨ha, hne⟩⟩
        · exact ⟨beta, hbeta, .inr ⟨hvanish, ha⟩⟩
      exact ⟨_, .inr ⟨p, hp, hlead, beta, hbeta, rfl⟩, ha⟩

theorem firstOfAlternatives_foldl_substituteLeading {inners : List String}
    (ht : ∀ inner ∈ inners, t.setAt inner = firstOfAlternatives t (g.productions inner))
    (ps : List Production) :
    firstOfAlternatives t (inners.foldl g.substituteLeading ps) = firstOfAlternatives t ps := by
  induction inners generalizing ps with
  | nil => rfl
  | cons inner inners ih =>
    rw [List.foldl_cons, ih (fun name hname => ht name (List.mem_cons_of_mem _ hname))]
    exact firstOfAlternatives_substituteLeading (ht inner List.mem_cons_self) ps

end Grammar

/-- Only the sets of names that are mentioned matter. -/
theorem firstOfAlternatives_congr
    (h : ∀ p ∈ ps, ∀ name, Symbol.nonTerminal name ∈ p.body → t.setAt name = t'.setAt name) :
    firstOfAlternatives t ps = firstOfAlternatives t' ps := by
  refine SortedSet.ext (fun a => ?_)
  rw [mem_firstOfAlternatives, mem_firstOfAlternatives]
  refine exists_congr (fun p => and_congr_right (fun hp => ⟨?_, ?_⟩))
  · exact mem_firstOfSequence_mono fun name hname b hb => h p hp name hname ▸ hb
  · exact mem_firstOfSequence_mono fun name hname b hb => (h p hp name hname).symm ▸ hb

/-- What alternatives show that hand over to a helper. -/
theorem mem_firstOfAlternatives_push :
    a ∈ firstOfAlternatives t (ps.map fun p => p.push (.nonTerminal helper))
      ↔ a ∈ firstOfAlternatives t ps ∧ a ≠ .epsilon
        ∨ Symbol.epsilon ∈ firstOfAlternatives t ps ∧ a ∈ t.setAt helper := by
  have hpush : ∀ p : Production, a ∈ firstOfSequence t (p.push (.nonTerminal helper)).body
      ↔ a ∈ firstOfSequence t p.body ∧ a ≠ .epsilon
        ∨ Symbol.epsilon ∈ firstOfSequence t p.body ∧ a ∈ t.setAt helper := by
    intro p
    rw [Production.body_push_nonTerminal, mem_firstOfSequence_append, firstOfSequence_singleton]
    rfl
  simp only [mem_firstOfAlternatives, List.mem_map, exists_exists_and_eq_and, hpush]
  constructor
  · rintro ⟨p, hp, ⟨ha, hne⟩ | ⟨hvanish, ha⟩⟩
    · exact .inl ⟨⟨p, hp, ha⟩, hne⟩
    · exact .inr ⟨⟨p, hp, hvanish⟩, ha⟩
  · rintro (⟨⟨p, hp, ha⟩, hne⟩ | ⟨⟨p, hp, hvanish⟩, ha⟩)
    · exact ⟨p, hp, .inl ⟨ha, hne⟩⟩
    · exact ⟨p, hp, .inr ⟨hvanish, ha⟩⟩

/-- What the alternatives of a helper show, which goes round once more or vanishes. -/
theorem mem_firstOfAlternatives_helper :
    a ∈ firstOfAlternatives t
        (ps.map (fun p => p.push (.nonTerminal helper)) ++ [Production.epsilon])
      ↔ a = .epsilon ∨ a ∈ firstOfAlternatives t ps ∧ a ≠ .epsilon
        ∨ Symbol.epsilon ∈ firstOfAlternatives t ps ∧ a ∈ t.setAt helper := by
  rw [← mem_firstOfAlternatives_push]
  simp only [mem_firstOfAlternatives, List.mem_append, List.mem_singleton, or_and_right,
    exists_or, exists_eq_left, Production.body_epsilon, mem_firstOfSequence_nil]
  exact or_comm

/-! ## Direct recursion -/

namespace Elimination

/-- **What the alternatives of a rule show**: what is shown without direct recursion or by the
rule itself, and what its tails show if the rule can vanish. -/
theorem firstOfAlternatives_cases (ha : a ∈ firstOfAlternatives t ps) :
    a ∈ firstOfAlternatives t (Production.nonRecursive left ps) ∨ a ∈ t.setAt left
      ∨ Symbol.epsilon ∈ t.setAt left
        ∧ a ∈ firstOfAlternatives t (Production.recursiveTails left ps) := by
  obtain ⟨p, hp, ha⟩ := mem_firstOfAlternatives.mp ha
  cases hlead : p.startsWith left with
  | false =>
    exact .inl (mem_firstOfAlternatives.mpr ⟨p, Production.mem_nonRecursive.mpr ⟨hp, hlead⟩, ha⟩)
  | true =>
    rw [Production.body_eq_of_startsWith hlead, mem_firstOfSequence_cons] at ha
    rcases ha with ⟨ha, -⟩ | ⟨hvanish, ha⟩
    · exact .inr (.inl ha)
    · cases htail : (p.suffix 1).isEpsilon with
      | true =>
        rw [List.isEmpty_iff.mp htail, mem_firstOfSequence_nil] at ha
        exact .inr (.inl (ha ▸ hvanish))
      | false =>
        have hmem := Production.mem_recursiveTails.mpr ⟨htail, p, hp, hlead, rfl⟩
        exact .inr (.inr ⟨hvanish, mem_firstOfAlternatives.mpr ⟨_, hmem, ha⟩⟩)

theorem mem_firstOfAlternatives_of_nonRecursive
    (ha : a ∈ firstOfAlternatives t (Production.nonRecursive left ps)) :
    a ∈ firstOfAlternatives t ps := by
  obtain ⟨p, hp, ha⟩ := mem_firstOfAlternatives.mp ha
  exact mem_firstOfAlternatives.mpr ⟨p, (Production.mem_nonRecursive.mp hp).1, ha⟩

/-- Where the rule can vanish, its tails are seen. -/
theorem mem_firstOfAlternatives_of_tail (hvanish : Symbol.epsilon ∈ t.setAt left)
    (ha : a ∈ firstOfAlternatives t (Production.recursiveTails left ps)) :
    a ∈ firstOfAlternatives t ps := by
  obtain ⟨alpha, halpha, ha⟩ := mem_firstOfAlternatives.mp ha
  obtain ⟨-, p, hp, hlead, rfl⟩ := Production.mem_recursiveTails.mp halpha
  refine mem_firstOfAlternatives.mpr ⟨p, hp, ?_⟩
  rw [Production.body_eq_of_startsWith hlead, mem_firstOfSequence_cons]
  exact .inr ⟨hvanish, ha⟩

/-! ## One round -/

variable {s : Elimination} {rest : List String} {name : String}

/-- What a rule shows, its expanded alternatives show. -/
theorem firstOfAlternatives_expanded (s : Elimination) (left : String) :
    firstOfAlternatives s.grammar.firstSets (s.expanded left)
      = s.grammar.firstSets.setAt left := by
  rw [Grammar.setAt_firstSets_eq]
  exact Grammar.firstOfAlternatives_foldl_substituteLeading
    (fun inner _ => Grammar.setAt_firstSets_eq _ inner) _

/-- What is shown without direct recursion, the rule shows. -/
theorem mem_setAt_of_nonRecursive (ha : a ∈ firstOfAlternatives s.grammar.firstSets
    (Production.nonRecursive left (s.expanded left))) : a ∈ s.grammar.firstSets.setAt left := by
  rw [← firstOfAlternatives_expanded]
  exact mem_firstOfAlternatives_of_nonRecursive ha

/-- The expansion also shows the same as the grammar after the round sees it: the rules that
it looks at are the same. -/
theorem firstOfAlternatives_expanded_round (hs : s.Ordered) (hpending : s.pending = left :: rest) :
    firstOfAlternatives s.round.grammar.firstSets (s.expanded left)
      = firstOfAlternatives s.round.grammar.firstSets (s.grammar.productions left) := by
  refine Grammar.firstOfAlternatives_foldl_substituteLeading (fun inner hinner => ?_) _
  have hne : inner ≠ left := fun h => hs.not_mem_processed hpending (h ▸ hinner)
  rw [Grammar.setAt_firstSets_eq,
    productions_round_of_ne hs hpending (hs.processed_subset hinner) hne]

/-- **Sets of the new grammar obey the old rules** as soon as they hold what the rule whose
turn it was showed without direct recursion, and what its tails show if it can vanish. -/
theorem obeysRules_of_round (hs : s.Ordered) (hpending : s.pending = left :: rest)
    (hplain : ∀ a, a ∈ firstOfAlternatives s.round.grammar.firstSets
        (Production.nonRecursive left (s.expanded left)) →
      a ∈ s.round.grammar.firstSets.setAt left)
    (htail : Symbol.epsilon ∈ s.round.grammar.firstSets.setAt left →
      ∀ a, a ∈ firstOfAlternatives s.round.grammar.firstSets
        (Production.recursiveTails left (s.expanded left)) →
      a ∈ s.round.grammar.firstSets.setAt left) :
    s.grammar.ObeysRules s.round.grammar.firstSets := by
  refine Grammar.obeysRules_iff.mpr (fun name a ha => ?_)
  by_cases hname : name = left
  · subst hname
    rw [← firstOfAlternatives_expanded_round hs hpending] at ha
    rcases firstOfAlternatives_cases ha with ha | ha | ⟨hvanish, ha⟩
    · exact hplain a ha
    · exact ha
    · exact htail hvanish a ha
  · obtain ⟨p, hp, -⟩ := mem_firstOfAlternatives.mp ha
    rw [Grammar.setAt_firstSets_eq,
      productions_round_of_ne hs hpending (Grammar.mem_ruleNames_of_mem hp) hname]
    exact ha

/-- **Dropping useless alternatives keeps FIRST.** -/
theorem setAt_firstSets_round_of_dropped (hs : s.Ordered) (hpending : s.pending = left :: rest)
    (htails : Production.recursiveTails left (s.expanded left) = [])
    (hproductions : ∀ name, s.round.grammar.productions name
      = if name = left then Production.nonRecursive left (s.expanded left)
        else s.grammar.productions name) (name : String) :
    s.round.grammar.firstSets.setAt name = s.grammar.firstSets.setAt name := by
  have hnew : s.round.grammar.ObeysRules s.grammar.firstSets := by
    refine Grammar.obeysRules_iff.mpr (fun name a ha => ?_)
    rw [hproductions] at ha
    split at ha
    · next hname => exact hname ▸ mem_setAt_of_nonRecursive ha
    · rw [Grammar.setAt_firstSets_eq]
      exact ha
  have hold : s.grammar.ObeysRules s.round.grammar.firstSets := by
    refine obeysRules_of_round hs hpending (fun a ha => ?_) (fun _ a ha => ?_)
    · rw [Grammar.setAt_firstSets_eq, hproductions, if_pos rfl]
      exact ha
    · rw [htails] at ha
      exact absurd ha (SortedSet.not_mem_empty a)
  exact SortedSet.ext fun a => ⟨hnew.mem_of_mem_firstSets, hold.mem_of_mem_firstSets⟩

/-- **The sets of the old grammar, with one for the helper**: what the tails show, and the
mark. -/
def withHelper (s : Elimination) (left : String) : SetTable :=
  s.grammar.firstSets.grow s.helper (.singleton .epsilon
    ∪ firstOfAlternatives s.grammar.firstSets (Production.recursiveTails left (s.expanded left)))

/-- The helper has the set that is meant for it: it had none before. -/
theorem mem_setAt_withHelper_self : a ∈ (s.withHelper left).setAt s.helper
    ↔ a = .epsilon ∨ a ∈ firstOfAlternatives s.grammar.firstSets
      (Production.recursiveTails left (s.expanded left)) := by
  have hnone : s.grammar.firstSets.setAt s.helper = ∅ := by
    rw [Grammar.setAt_firstSets_eq, Grammar.productions_eq_nil_of_not_mem s.helper_not_mem]
    rfl
  unfold withHelper
  rw [Table.mem_setAt_grow, hnone, SortedSet.mem_union, SortedSet.mem_singleton]
  simp

theorem setAt_withHelper_of_ne (hne : name ≠ s.helper) :
    (s.withHelper left).setAt name = s.grammar.firstSets.setAt name := by
  refine SortedSet.ext (fun a => ?_)
  unfold withHelper
  rw [Table.mem_setAt_grow]
  simp [hne]

/-- Where the helper is not mentioned, its set does not matter. -/
theorem firstOfAlternatives_withHelper
    (h : ∀ p ∈ ps, Symbol.nonTerminal s.helper ∉ p.body) :
    firstOfAlternatives (s.withHelper left) ps = firstOfAlternatives s.grammar.firstSets ps :=
  firstOfAlternatives_congr fun p hp _ hname =>
    setAt_withHelper_of_ne fun heq => h p hp (heq ▸ hname)

section Split

variable (hclosed : s.grammar.Closed)
  (hproductions : ∀ name, s.round.grammar.productions name
    = if name = s.helper then
        (Production.recursiveTails left (s.expanded left)).map
          (fun p => p.push (.nonTerminal s.helper)) ++ [Production.epsilon]
      else if name = left then
        (Production.nonRecursive left (s.expanded left)).map
          (fun p => p.push (.nonTerminal s.helper))
      else s.grammar.productions name)

include hclosed hproductions in
/-- **The old sets have room for the split rule.** -/
theorem obeysRules_withHelper : s.round.grammar.ObeysRules (s.withHelper left) := by
  refine Grammar.obeysRules_iff.mpr (fun name a ha => ?_)
  rw [hproductions] at ha
  by_cases hhelper : name = s.helper
  · rw [if_pos hhelper, mem_firstOfAlternatives_helper,
      firstOfAlternatives_withHelper fun p => helper_not_mem_tail hclosed] at ha
    rw [hhelper]
    rcases ha with rfl | ⟨ha, -⟩ | ⟨-, ha⟩
    · exact mem_setAt_withHelper_self.mpr (.inl rfl)
    · exact mem_setAt_withHelper_self.mpr (.inr ha)
    · exact ha
  · rw [if_neg hhelper] at ha
    rw [setAt_withHelper_of_ne hhelper]
    by_cases hname : name = left
    · rw [if_pos hname, mem_firstOfAlternatives_push,
        firstOfAlternatives_withHelper fun p hp =>
          helper_not_mem_expanded hclosed (Production.mem_nonRecursive.mp hp).1] at ha
      rw [hname]
      rcases ha with ⟨ha, -⟩ | ⟨hvanish, ha⟩
      · exact mem_setAt_of_nonRecursive ha
      · rcases mem_setAt_withHelper_self.mp ha with rfl | ha
        · exact mem_setAt_of_nonRecursive hvanish
        · -- the rule can vanish, and so its tails were seen before
          rw [← firstOfAlternatives_expanded]
          exact mem_firstOfAlternatives_of_tail (mem_setAt_of_nonRecursive hvanish) ha
    · rw [if_neg hname, firstOfAlternatives_withHelper fun p hp hmem =>
        not_mentions_helper hclosed (Grammar.uses_iff.mpr ⟨name, p, hp, hmem⟩)] at ha
      rw [Grammar.setAt_firstSets_eq]
      exact ha

include hproductions in
/-- The helper shows what the tails show, and can vanish. -/
theorem mem_setAt_firstSets_helper (ha : a = .epsilon
      ∨ a ∈ firstOfAlternatives s.round.grammar.firstSets
        (Production.recursiveTails left (s.expanded left))) :
    a ∈ s.round.grammar.firstSets.setAt s.helper := by
  rw [Grammar.setAt_firstSets_eq, hproductions, if_pos rfl, mem_firstOfAlternatives_helper]
  by_cases hne : a = .epsilon
  · exact .inl hne
  · exact .inr (.inl ⟨ha.resolve_left hne, hne⟩)

include hproductions in
/-- **The sets of the split rule obey the old one.** -/
theorem obeysRules_round_of_split (hs : s.Ordered) (hpending : s.pending = left :: rest) :
    s.grammar.ObeysRules s.round.grammar.firstSets := by
  have hne : left ≠ s.helper := fun h => s.helper_not_mem (h ▸ hs.mem_ruleNames hpending)
  have hleft : ∀ a, a ∈ s.round.grammar.firstSets.setAt left
      ↔ a ∈ firstOfAlternatives s.round.grammar.firstSets
          (Production.nonRecursive left (s.expanded left)) ∧ a ≠ .epsilon
        ∨ Symbol.epsilon ∈ firstOfAlternatives s.round.grammar.firstSets
            (Production.nonRecursive left (s.expanded left))
          ∧ a ∈ s.round.grammar.firstSets.setAt s.helper := by
    intro a
    rw [Grammar.setAt_firstSets_eq _ left, hproductions, if_neg hne, if_pos rfl,
      mem_firstOfAlternatives_push]
  refine obeysRules_of_round hs hpending (fun a ha => ?_) (fun hvanish a ha => ?_)
  · rw [hleft]
    by_cases heq : a = .epsilon
    · subst heq
      exact .inr ⟨ha, mem_setAt_firstSets_helper hproductions (.inl rfl)⟩
    · exact .inl ⟨ha, heq⟩
  · rcases (hleft .epsilon).mp hvanish with ⟨-, habsurd⟩ | ⟨hplain, -⟩
    · exact absurd rfl habsurd
    · exact (hleft a).mpr (.inr ⟨hplain, mem_setAt_firstSets_helper hproductions (.inr ha)⟩)

end Split

/-! ## The whole process -/

/-- **A round keeps the FIRST set of every rule.** -/
theorem setAt_firstSets_round (hs : s.Ordered) (hclosed : s.grammar.Closed)
    (hname : name ∈ s.grammar.ruleNames) :
    s.round.grammar.firstSets.setAt name = s.grammar.firstSets.setAt name := by
  cases hpending : s.pending with
  | nil => rw [round_of_finished hpending]
  | cons left rest =>
    cases round_effect hs hpending with
    | dropped tails_eq _ _ productions_eq =>
      exact setAt_firstSets_round_of_dropped hs hpending tails_eq productions_eq name
    | split _ _ _ productions_eq =>
      have hne : name ≠ s.helper := fun h => s.helper_not_mem (h ▸ hname)
      refine SortedSet.ext (fun a => ⟨fun ha => ?_, fun ha => ?_⟩)
      · have hseen : a ∈ (s.withHelper left).setAt name :=
          (obeysRules_withHelper hclosed productions_eq).mem_of_mem_firstSets ha
        rwa [setAt_withHelper_of_ne hne] at hseen
      · exact (obeysRules_round_of_split productions_eq hs hpending).mem_of_mem_firstSets ha

/-- Any number of rounds does. -/
theorem setAt_firstSets_rounds (hs : s.Ordered) (hclosed : s.grammar.Closed) (n : Nat)
    (hname : name ∈ s.grammar.ruleNames) :
    name ∈ (rounds n s).grammar.ruleNames
      ∧ (rounds n s).grammar.firstSets.setAt name = s.grammar.firstSets.setAt name := by
  induction n generalizing s with
  | zero => exact ⟨hname, rfl⟩
  | succ n ih =>
    have hrest := ih (ordered_round hs) (closed_round hs hclosed) (mem_ruleNames_round hs hname)
    exact ⟨hrest.1, hrest.2.trans (setAt_firstSets_round hs hclosed hname)⟩

end Elimination

namespace Grammar

/-- **Elimination keeps FIRST.** In a grammar in which every non-terminal has a rule, each rule
has the same FIRST set after any number of rounds, and so in the answer, if the process ends.
With the sets, it is the same rules that can vanish. -/
theorem firstSets_eliminated_eq {g : Grammar} (hclosed : g.Closed) (names : NameAllocator)
    {name : String} (hname : name ∈ g.ruleNames) :
    ∃ first, g.firstSets.get? name = some first
      ∧ (∀ n, (Elimination.rounds n (Elimination.start g names)).grammar.firstSets.get? name
        = some first)
      ∧ (∀ n follow follow',
        (FirstFollow.mk (Elimination.rounds n (Elimination.start g names)).grammar.firstSets
          follow').isNullable name = (FirstFollow.mk g.firstSets follow).isNullable name)
      ∧ ∀ done, g.eliminateLeftRecursionWith names = .ok done →
        done.grammar.firstSets.get? name = some first := by
  have hkeep := fun n => Elimination.setAt_firstSets_rounds (Elimination.ordered_start g names)
    hclosed n hname
  have hsets : ∀ n, (Elimination.rounds n (Elimination.start g names)).grammar.firstSets.get? name
      = some (g.firstSets.setAt name) := by
    intro n
    rw [Table.get?_eq_some_setAt (by rw [keys_firstSets]; exact (hkeep n).1), (hkeep n).2]
    rfl
  refine ⟨g.firstSets.setAt name, hsets 0, hsets, fun n follow follow' => ?_,
    fun done hdone => ?_⟩
  · unfold FirstFollow.isNullable
    rw [(hkeep n).2]
    rfl
  · obtain ⟨n, rfl, -⟩ := exists_rounds_of_eliminated hdone
    exact hsets n

/-- A grammar in which what is recursive, what follows the recursion and what is not recursive
can all vanish. `U` has nothing but recursion, and in `V` the recursion is useless. -/
def fading : Grammar :=
  ((((∅ : Grammar).setProductions "S"
    [.ofSymbols [.nonTerminal "S", .nonTerminal "A"],
      .ofSymbols [.nonTerminal "S", .nonTerminal "A", .terminal "b"],
      .ofSymbols [.nonTerminal "S"], .ofSymbols [.nonTerminal "A"]]).setProductions "A"
    [.ofSymbols [.terminal "a"], .epsilon, .ofSymbols [.nonTerminal "U"]]).setProductions "U"
    [.ofSymbols [.nonTerminal "U", .terminal "u"]]).setProductions "V"
    [.ofSymbols [.nonTerminal "V"], .ofSymbols [.nonTerminal "S", .terminal "v"]]

/-- The four rules take two helpers, and `S` begins with the same symbols all along. -/
theorem firstSets_eliminated_eq_fading :
    fading.Closed ∧ fading.ruleNames = ["S", "A", "U", "V"]
      ∧ (Elimination.rounds 4 (Elimination.start fading .initial)).grammar.ruleNames
        = ["S", "A", "U", "V", "X1", "X2"]
      ∧ ∀ n, (Elimination.rounds n (Elimination.start fading .initial)).grammar.firstSets.get? "S"
        = some (.ofList [.terminal "a", .terminal "b", .epsilon]) := by
  have hclosed : fading.Closed := by decide +kernel
  have hnames : fading.ruleNames = ["S", "A", "U", "V"] := by decide +kernel
  have hhelpers : (Elimination.rounds 4 (Elimination.start fading .initial)).grammar.ruleNames
      = ["S", "A", "U", "V", "X1", "X2"] := by cbv
  have hsymbols : fading.firstSets.get? "S"
      = some (.ofList [.terminal "a", .terminal "b", .epsilon]) := by decide +kernel
  obtain ⟨first, hfirst, hrounds, -⟩ :=
    firstSets_eliminated_eq hclosed .initial (hnames ▸ List.mem_cons_self)
  exact ⟨hclosed, hnames, hhelpers, fun n => (hrounds n).trans (hfirst.symm.trans hsymbols)⟩

end Grammar

end GrammarWorkbench
