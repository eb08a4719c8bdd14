import GrammarWorkbench.LeftFactoring
import Mathlib.Data.List.Basic

/-!
# One step of a factoring

What later proofs need to know of a step is said here once. The members of a group all
begin with what is written for the group (`commonPrefix_append_suffix`), so nothing of a
member is lost. `Regroups` says what the groups of a rule become: the alternatives that
the rule is left with, and the rules that are added for them. A step leaves its rule as it
is, or it regroups it (`step_effect`); no other rule changes.

The queue holds the alternatives that its rules have, and each rule once
(`Factoring.Consistent`): helpers are new when they come up, and a rule only changes when
it is taken off the queue.
-/

namespace GrammarWorkbench

/-! ## What a group shares -/

theorem take_sharedLength (l m : List Symbol) :
    l.take (sharedLength l m) = m.take (sharedLength l m) := by
  fun_induction sharedLength l m with
  | case1 a as bs ih => rw [List.take_succ_cons, List.take_succ_cons, ih]
  | case2 a as b bs h => rfl
  | case3 => rfl

/-- Two lists agree on every beginning that is not longer than what they share. -/
theorem take_eq_take_of_le {l m : List Symbol} {n : Nat} (h : n ≤ sharedLength l m) :
    l.take n = m.take n := by
  have hshared := congrArg (List.take n) (take_sharedLength l m)
  rwa [List.take_take, List.take_take, Nat.min_eq_left h] at hshared

/-- **What two lists share is as long as a beginning of both can be.** -/
theorem le_sharedLength_iff {l m : List Symbol} {n : Nat} :
    n ≤ sharedLength l m ↔ ∃ front, front.length = n ∧ front <+: l ∧ front <+: m := by
  constructor
  · intro h
    refine ⟨l.take n, ?_, List.take_prefix n l, ?_⟩
    · rw [List.length_take, Nat.min_eq_left (Nat.le_trans h (sharedLength_le_left l m))]
    · rw [take_eq_take_of_le h]
      exact List.take_prefix n m
  · rintro ⟨front, rfl, hl, hm⟩
    induction front generalizing l m with
    | nil => exact Nat.zero_le _
    | cons a front ih =>
      obtain ⟨l', rfl⟩ := hl
      obtain ⟨m', rfl⟩ := hm
      rw [List.cons_append, List.cons_append, sharedLength, if_pos rfl]
      exact Nat.succ_le_succ (ih (List.prefix_append _ _) (List.prefix_append _ _))

theorem le_foldl_min_iff {β : Type} {f : β → Nat} {l : List β} {m n : Nat} :
    m ≤ l.foldl (fun k b => min k (f b)) n ↔ m ≤ n ∧ ∀ b ∈ l, m ≤ f b := by
  induction l generalizing n with
  | nil => simp
  | cons b l ih => rw [List.foldl_cons, ih, Nat.le_min, and_assoc, List.forall_mem_cons]

/-- **What alternatives share is as long as a beginning of all of them can be.** -/
theorem le_commonPrefixLength_iff {ps : List Production} (hps : ps ≠ []) {n : Nat} :
    n ≤ commonPrefixLength ps
      ↔ ∃ front : List Symbol, front.length = n ∧ ∀ p ∈ ps, front <+: p.body := by
  cases ps with
  | nil => exact absurd rfl hps
  | cons q ps =>
    rw [commonPrefixLength, le_foldl_min_iff]
    constructor
    · rintro ⟨hq, hall⟩
      refine ⟨q.body.take n, by rw [List.length_take, Nat.min_eq_left hq], fun p hp => ?_⟩
      rcases List.mem_cons.mp hp with rfl | hp
      · exact List.take_prefix n _
      · obtain ⟨front, rfl, hfront, hfront'⟩ := le_sharedLength_iff.mp (hall p hp)
        rwa [← List.prefix_iff_eq_take.mp hfront]
    · rintro ⟨front, rfl, hall⟩
      obtain ⟨hq, hall⟩ := List.forall_mem_cons.mp hall
      exact ⟨hq.length_le, fun p hp => le_sharedLength_iff.mpr ⟨front, rfl, hq, hall p hp⟩⟩

namespace Factoring

/-- The alternatives of the helper for a group: the members behind what they share. -/
def rests (members : List Production) : List Production :=
  members.map fun p => p.suffix (commonPrefixLength members)

/-- **Every member is what the group shares and its own rest.** -/
theorem commonPrefix_append_suffix {members : List Production} {p : Production}
    (hp : p ∈ members) : commonPrefix members ++ p.suffix (commonPrefixLength members) = p := by
  have hshared : commonPrefix members = p.take (commonPrefixLength members) := by
    cases members with
    | nil => exact absurd hp List.not_mem_nil
    | cons q members =>
      refine Production.ext ?_
      show q.body.take _ = p.body.take _
      cases List.mem_cons.mp hp with
      | inl hpq => rw [hpq]
      | inr hp =>
        refine take_eq_take_of_le ?_
        exact foldl_min_le_of_mem (fun r => sharedLength q.body r.body) hp q.body.length
  rw [hshared]
  exact Production.take_append_suffix p _

/-- A group that is factorable has members. -/
theorem ne_nil_of_isFactorable {members : List Production} (h : isFactorable members = true) :
    members ≠ [] := by
  rintro rfl
  exact absurd h (by decide)

/-- **Putting the shared beginning back gives the members.** -/
theorem map_append_rests (members : List Production) :
    (rests members).map (commonPrefix members ++ ·) = members := by
  unfold rests
  rw [List.map_map]
  exact (List.map_congr_left fun p hp => commonPrefix_append_suffix hp).trans (List.map_id _)

/-! ## Regrouping a rule -/

/-- **What the groups of a rule become**: the rules added for them, and the alternatives
that the rule is left with. -/
inductive Regroups : List (List Production) → List (String × List Production) →
    List Production → Prop where
  /-- Without groups there is nothing left. -/
  | nil : Regroups [] [] []
  /-- A group that is not factorable is kept as it is. -/
  | keep {members : List Production} {groups : List (List Production)}
      {added : List (String × List Production)} {out : List Production}
      (hmembers : isFactorable members = false) (hrest : Regroups groups added out) :
      Regroups (members :: groups) added (members ++ out)
  /-- Any other is put together, and a helper takes over what its members had left. -/
  | factor {members : List Production} {groups : List (List Production)}
      {added : List (String × List Production)} {out : List Production} (helper : String)
      (hmembers : isFactorable members = true) (hrest : Regroups groups added out) :
      Regroups (members :: groups) ((helper, rests members) :: added)
        ((commonPrefix members).push (.nonTerminal helper) :: out)

namespace Regroups

variable {groups : List (List Production)} {added : List (String × List Production)}
  {out members : List Production} {p : Production}

/-- **What a rule is left with** are members of its groups, and shared beginnings with their
helpers. -/
theorem of_mem_out (h : Regroups groups added out) (hp : p ∈ out) :
    p ∈ groups.flatten ∨ ∃ members ∈ groups, ∃ helper, isFactorable members = true
      ∧ (helper, rests members) ∈ added
      ∧ p = (commonPrefix members).push (.nonTerminal helper) := by
  induction h with
  | nil => exact absurd hp List.not_mem_nil
  | @keep members groups _ _ _ _ ih =>
    rw [List.flatten_cons, List.mem_append]
    cases List.mem_append.mp hp with
    | inl hp => exact Or.inl (Or.inl hp)
    | inr hp =>
      refine (ih hp).imp Or.inr ?_
      rintro ⟨members', hmembers', rest⟩
      exact ⟨members', List.mem_cons_of_mem _ hmembers', rest⟩
  | @factor members groups _ _ helper hmembers _ ih =>
    rw [List.flatten_cons, List.mem_append]
    cases List.mem_cons.mp hp with
    | inl hp =>
      exact Or.inr ⟨members, List.mem_cons_self, helper, hmembers, List.mem_cons_self, hp⟩
    | inr hp =>
      refine (ih hp).imp Or.inr ?_
      rintro ⟨members', hmembers', helper', hfactorable, hadded, heq⟩
      exact ⟨members', List.mem_cons_of_mem _ hmembers', helper', hfactorable,
        List.mem_cons_of_mem _ hadded, heq⟩

/-- **What becomes of a group**: its members stay, or they are cut behind what they share. -/
theorem of_mem_groups (h : Regroups groups added out) (hmembers : members ∈ groups) :
    (∀ p ∈ members, p ∈ out) ∨ ∃ helper, (helper, rests members) ∈ added
      ∧ (commonPrefix members).push (.nonTerminal helper) ∈ out := by
  induction h with
  | nil => exact absurd hmembers List.not_mem_nil
  | keep _ _ ih =>
    cases List.mem_cons.mp hmembers with
    | inl heq => exact Or.inl fun p hp => List.mem_append_left _ (heq ▸ hp)
    | inr hmembers =>
      refine (ih hmembers).imp (fun hall p hp => List.mem_append_right _ (hall p hp)) ?_
      rintro ⟨helper, hadded, hout⟩
      exact ⟨helper, hadded, List.mem_append_right _ hout⟩
  | factor helper _ _ ih =>
    cases List.mem_cons.mp hmembers with
    | inl heq =>
      subst heq
      exact Or.inr ⟨helper, List.mem_cons_self, List.mem_cons_self⟩
    | inr hmembers =>
      refine (ih hmembers).imp (fun hall p hp => List.mem_cons_of_mem _ (hall p hp)) ?_
      rintro ⟨helper', hadded, hout⟩
      exact ⟨helper', List.mem_cons_of_mem _ hadded, List.mem_cons_of_mem _ hout⟩

/-- **Every helper takes over the rests of a factorable group**, and stands behind what the
group shares. -/
theorem of_mem_added (h : Regroups groups added out) {e : String × List Production}
    (he : e ∈ added) :
    ∃ members ∈ groups, isFactorable members = true ∧ e.2 = rests members
      ∧ (commonPrefix members).push (.nonTerminal e.1) ∈ out := by
  induction h with
  | nil => exact absurd he List.not_mem_nil
  | keep _ _ ih =>
    obtain ⟨members', hmembers', hfactorable, hrests, hout⟩ := ih he
    exact ⟨members', List.mem_cons_of_mem _ hmembers', hfactorable, hrests,
      List.mem_append_right _ hout⟩
  | @factor members _ _ _ helper hmembers _ ih =>
    cases List.mem_cons.mp he with
    | inl heq =>
      subst heq
      exact ⟨members, List.mem_cons_self, hmembers, rfl, List.mem_cons_self⟩
    | inr he =>
      obtain ⟨members', hmembers', hfactorable, hrests, hout⟩ := ih he
      exact ⟨members', List.mem_cons_of_mem _ hmembers', hfactorable, hrests,
        List.mem_cons_of_mem _ hout⟩

end Regroups

/-- **The rules of `added` are put behind those that were there.** -/
structure Adds (s t : Factoring) (added : List (String × List Production)) : Prop where
  queue_eq : t.queue = s.queue ++ added
  ruleNames_eq : t.grammar.ruleNames = s.grammar.ruleNames ++ added.map Prod.fst
  added_eq : ∀ e ∈ added, t.grammar.productions e.1 = e.2
  others_eq : ∀ name, name ∉ added.map Prod.fst →
    t.grammar.productions name = s.grammar.productions name

variable {s t u : Factoring} {added more : List (String × List Production)}

theorem Adds.nil (s : Factoring) : s.Adds s [] where
  queue_eq := (List.append_nil _).symm
  ruleNames_eq := (List.append_nil _).symm
  added_eq := fun _ he => absurd he List.not_mem_nil
  others_eq := fun _ _ => rfl

/-- Rules put behind the old ones are new, and each is added once. -/
theorem new_of_ruleNames_eq
    (h : t.grammar.ruleNames = s.grammar.ruleNames ++ added.map Prod.fst) :
    (added.map Prod.fst).Nodup ∧ ∀ name ∈ added.map Prod.fst, name ∉ s.grammar.ruleNames := by
  have hnodup := t.grammar.nodup_ruleNames
  rw [h, List.nodup_append] at hnodup
  exact ⟨hnodup.2.1, fun name hnew hold => hnodup.2.2 name hold name hnew rfl⟩

theorem Adds.append (h : s.Adds t added) (h' : t.Adds u more) : s.Adds u (added ++ more) where
  queue_eq := by rw [h'.queue_eq, h.queue_eq, List.append_assoc]
  ruleNames_eq := by
    rw [h'.ruleNames_eq, h.ruleNames_eq, List.map_append, List.append_assoc]
  added_eq := by
    intro e he
    cases List.mem_append.mp he with
    | inr he => exact h'.added_eq e he
    | inl he =>
      rw [h'.others_eq e.1 (fun hmore => ?_), h.added_eq e he]
      refine (new_of_ruleNames_eq h'.ruleNames_eq).2 e.1 hmore ?_
      rw [h.ruleNames_eq]
      exact List.mem_append_right _ (List.mem_map_of_mem he)
  others_eq := by
    intro name hname
    rw [List.map_append, List.mem_append, not_or] at hname
    rw [h'.others_eq name hname.2, h.others_eq name hname.1]

/-- A group that is not factorable adds no rule. -/
theorem addGroup_of_not_factorable (acc : Factoring × List Production)
    {members : List Production} (h : isFactorable members = false) :
    addGroup acc members = (acc.1, acc.2 ++ members) := by
  unfold addGroup
  rw [if_neg (by simp [h])]

/-- A factorable group adds the rule of its helper. -/
theorem addGroup_of_factorable (acc : Factoring × List Production)
    {members : List Production} (h : isFactorable members = true) :
    ∃ helper t, acc.1.Adds t [(helper, rests members)] ∧ addGroup acc members
      = (t, acc.2 ++ [(commonPrefix members).push (.nonTerminal helper)]) := by
  unfold addGroup
  rw [if_pos h]
  refine ⟨_, _, ⟨rfl, ?_, ?_, ?_⟩, rfl⟩
  · show (Grammar.setProductions _ _ _).ruleNames = _
    rw [Grammar.ruleNames_setProductions]
    exact if_neg (acc.1.names.fresh_not_mem acc.1.grammar)
  · intro e he
    rw [List.mem_singleton.mp he]
    exact Grammar.productions_setProductions_self _ _ _
  · intro name hname
    show (Grammar.setProductions _ _ _).productions name = _
    rw [Grammar.productions_setProductions, if_neg (fun heq => hname ?_)]
    exact List.mem_singleton.mpr heq

/-- **The groups of a rule are regrouped one after the other.** -/
theorem regroups_foldl_addGroup (groups : List (List Production)) (s : Factoring)
    (before : List Production) :
    ∃ added out t, Regroups groups added out ∧ s.Adds t added
      ∧ groups.foldl addGroup (s, before) = (t, before ++ out) := by
  induction groups generalizing s before with
  | nil => exact ⟨[], [], s, Regroups.nil, Adds.nil s, by rw [List.append_nil]; rfl⟩
  | cons members groups ih =>
    rw [List.foldl_cons]
    cases h : isFactorable members with
    | false =>
      rw [addGroup_of_not_factorable _ h]
      obtain ⟨added, out, t, hgroups, ht, heq⟩ := ih s (before ++ members)
      exact ⟨added, members ++ out, t, hgroups.keep h, ht, by rw [heq, List.append_assoc]⟩
    | true =>
      obtain ⟨helper, s', hs', hadd⟩ := addGroup_of_factorable (s, before) h
      rw [hadd]
      obtain ⟨added, out, t, hgroups, ht, heq⟩ := ih s' _
      refine ⟨_, _, t, hgroups.factor helper h, hs'.append ht, ?_⟩
      rw [heq, List.append_assoc]
      rfl

/-! ## The effect of a step -/

/-- **The rule of `left` is regrouped**: it is left with `out`, and the rules of `added`
are put behind those that were there. -/
structure Regrouped (s : Factoring) (left : String) (ps : List Production)
    (rest : List (String × List Production)) (t : Factoring)
    (added : List (String × List Production)) (out : List Production) : Prop where
  groups : Regroups (groupByLeading ps) added out
  queue_eq : t.queue = rest ++ added
  ruleNames_eq : t.grammar.ruleNames = s.grammar.ruleNames ++ added.map Prod.fst
  left_eq : t.grammar.productions left = out
  added_eq : ∀ e ∈ added, t.grammar.productions e.1 = e.2
  others_eq : ∀ name, name ≠ left → name ∉ added.map Prod.fst →
    t.grammar.productions name = s.grammar.productions name

/-- **What a step can do** when it is the turn of `left` with the alternatives `ps`. -/
inductive StepEffect (s : Factoring) (left : String) (ps : List Production)
    (rest : List (String × List Production)) (t : Factoring) : Prop where
  /-- No two alternatives begin alike, and the rule is left as it is. -/
  | unchanged (apart : (groupByLeading ps).length = ps.length) (queue_eq : t.queue = rest)
      (grammar_eq : t.grammar = s.grammar)
  /-- Some do, and the alternatives are regrouped. -/
  | regrouped (added : List (String × List Production)) (out : List Production)
      (h : s.Regrouped left ps rest t added out)

variable {left : String} {ps : List Production} {rest : List (String × List Production)}

theorem step_eq (hqueue : s.queue = (left, ps) :: rest) :
    s.step = ({ s with queue := rest } : Factoring).factorRule left ps := by
  unfold step
  rw [hqueue]

/-- **Every step has one of the two effects.** -/
theorem step_effect (hqueue : s.queue = (left, ps) :: rest)
    (hleft : left ∈ s.grammar.ruleNames) : StepEffect s left ps rest s.step := by
  rw [step_eq hqueue]
  unfold factorRule
  split
  · next hapart => exact .unchanged hapart rfl rfl
  · obtain ⟨added, out, t, hgroups, ht, heq⟩ :=
      regroups_foldl_addGroup (groupByLeading ps) ({ s with queue := rest } : Factoring) []
    rw [heq]
    have hold : left ∈ t.grammar.ruleNames := by
      rw [ht.ruleNames_eq]
      exact List.mem_append_left _ hleft
    refine .regrouped added out ⟨hgroups, ht.queue_eq, ?_, ?_, fun e he => ?_,
      fun name hname hadded => ?_⟩
    · show (Grammar.setProductions _ _ _).ruleNames = _
      rw [Grammar.ruleNames_setProductions, if_pos hold]
      exact ht.ruleNames_eq
    · exact Grammar.productions_setProductions_self _ _ _
    · show (Grammar.setProductions _ _ _).productions e.1 = _
      rw [Grammar.productions_setProductions, if_neg (fun heq => ?_)]
      · exact ht.added_eq e he
      · exact (new_of_ruleNames_eq ht.ruleNames_eq).2 e.1 (List.mem_map_of_mem he) (heq ▸ hleft)
    · show (Grammar.setProductions _ _ _).productions name = _
      rw [Grammar.productions_setProductions, if_neg hname]
      exact ht.others_eq name hadded

/-- A start symbol is kept while groups are taken up. -/
theorem start_foldl_addGroup {start : String} (groups : List (List Production))
    (acc : Factoring × List Production) (h : acc.1.grammar.start = some start) :
    (groups.foldl addGroup acc).1.grammar.start = some start := by
  induction groups generalizing acc with
  | nil => exact h
  | cons members groups ih =>
    refine ih (addGroup acc members) ?_
    unfold addGroup
    split
    · exact Grammar.start_setProductions_of_some h _ _
    · exact h

/-- **A step keeps a start symbol.** -/
theorem start_step {start : String} (h : s.grammar.start = some start) :
    s.step.grammar.start = some start := by
  unfold step
  split
  · exact h
  · unfold factorRule
    split
    · exact h
    · exact Grammar.start_setProductions_of_some (start_foldl_addGroup _ _ h) _ _

/-- The other rules keep their alternatives. -/
theorem Regrouped.productions_eq_of_mem {out : List Production}
    (h : s.Regrouped left ps rest t added out) {name : String}
    (hname : name ∈ s.grammar.ruleNames) (hne : name ≠ left) :
    t.grammar.productions name = s.grammar.productions name :=
  h.others_eq name hne fun hnew => (new_of_ruleNames_eq h.ruleNames_eq).2 name hnew hname

/-- **The alternatives that a step replaces**: those of its rule by what the rule is left
with and by those of the rules added. -/
theorem Regrouped.alternatives_perm {out : List Production}
    (h : s.Regrouped left ps rest t added out) (hleft : left ∈ s.grammar.ruleNames)
    (hps : s.grammar.productions left = ps) :
    ∃ others, s.grammar.alternatives.Perm (ps ++ others)
      ∧ t.grammar.alternatives.Perm (out ++ (others ++ added.flatMap Prod.snd)) := by
  have hnames := List.perm_cons_erase hleft
  have hothers : (s.grammar.ruleNames.erase left).flatMap t.grammar.productions
      = (s.grammar.ruleNames.erase left).flatMap s.grammar.productions := by
    refine List.flatMap_congr (fun name hname => ?_)
    have hmem := (List.Nodup.mem_erase_iff s.grammar.nodup_ruleNames).mp hname
    exact h.productions_eq_of_mem hmem.2 hmem.1
  have hadded : (added.map Prod.fst).flatMap t.grammar.productions = added.flatMap Prod.snd := by
    rw [List.flatMap_map]
    exact List.flatMap_congr h.added_eq
  refine ⟨(s.grammar.ruleNames.erase left).flatMap s.grammar.productions, ?_, ?_⟩
  · rw [Grammar.alternatives_eq]
    refine (hnames.flatMap_right _).trans ?_
    rw [List.flatMap_cons, hps]
  · rw [Grammar.alternatives_eq, h.ruleNames_eq, List.flatMap_append, hadded, ← List.append_assoc]
    refine List.Perm.append_right _ ((hnames.flatMap_right _).trans ?_)
    rw [List.flatMap_cons, h.left_eq, hothers]

/-! ## Whole runs -/

/-- **What every step keeps holds at the end.** -/
theorem run_induction {P : Factoring → Prop}
    (hstep : ∀ s : Factoring, s.queue ≠ [] → P s → P s.step) (s : Factoring) (hs : P s) :
    P s.run ∧ s.run.queue = [] := by
  fun_induction run s with
  | case1 s hqueue => exact ⟨hs, hqueue⟩
  | case2 s hqueue ih => exact ih (hstep s hqueue hs)

/-- **The queue tells the truth**: it holds every rule at most once, with the alternatives
that the rule has. -/
structure Consistent (s : Factoring) : Prop where
  nodup : (s.queue.map Prod.fst).Nodup
  mem_ruleNames : ∀ e ∈ s.queue, e.1 ∈ s.grammar.ruleNames
  productions_eq : ∀ e ∈ s.queue, s.grammar.productions e.1 = e.2

theorem consistent_start (g : Grammar) (names : NameAllocator) : (start g names).Consistent where
  nodup := g.rules.nodup_keys
  mem_ruleNames := fun _ he => List.mem_map_of_mem he
  productions_eq := by
    intro e he
    show (g.rules.get? e.1).getD [] = e.2
    rw [Table.get?_eq_some_iff.mpr he]
    rfl

/-- **A step keeps the queue consistent.** -/
theorem consistent_step (hs : s.Consistent) (hqueue : s.queue = (left, ps) :: rest) :
    s.step.Consistent := by
  have hmem : ∀ e ∈ rest, e ∈ s.queue := fun e he => hqueue ▸ List.mem_cons_of_mem _ he
  have hleft : left ∈ s.grammar.ruleNames :=
    hs.mem_ruleNames _ (hqueue ▸ List.mem_cons_self)
  have hnodup := hs.nodup
  rw [hqueue, List.map_cons, List.nodup_cons] at hnodup
  cases step_effect hqueue hleft with
  | unchanged _ hq hg =>
    refine ⟨?_, ?_, ?_⟩
    · rw [hq]
      exact hnodup.2
    · rw [hq, hg]
      exact fun e he => hs.mem_ruleNames e (hmem e he)
    · rw [hq, hg]
      exact fun e he => hs.productions_eq e (hmem e he)
  | regrouped added out h =>
    -- what was added is new, so it is not in the queue yet
    obtain ⟨hadds, hfresh⟩ := new_of_ruleNames_eq h.ruleNames_eq
    refine ⟨?_, ?_, ?_⟩
    · rw [h.queue_eq, List.map_append, List.nodup_append]
      refine ⟨hnodup.2, hadds, fun name hname name' hname' heq => ?_⟩
      obtain ⟨e, he, rfl⟩ := List.mem_map.mp hname
      exact hfresh name' hname' (heq ▸ hs.mem_ruleNames e (hmem e he))
    · intro e he
      rw [h.ruleNames_eq]
      rw [h.queue_eq] at he
      exact List.mem_append.mpr ((List.mem_append.mp he).imp
        (fun he => hs.mem_ruleNames e (hmem e he)) List.mem_map_of_mem)
    · intro e he
      rw [h.queue_eq] at he
      cases List.mem_append.mp he with
      | inr he => exact h.added_eq e he
      | inl he =>
        rw [h.others_eq e.1 (fun heq => ?_) (fun hnew => ?_)]
        · exact hs.productions_eq e (hmem e he)
        · exact hnodup.1 (List.mem_map.mpr ⟨e, he, heq⟩)
        · exact hfresh e.1 hnew (hs.mem_ruleNames e (hmem e he))

end Factoring

end GrammarWorkbench
