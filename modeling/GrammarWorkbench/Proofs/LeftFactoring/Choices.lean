import GrammarWorkbench.Proofs.LeftFactoring.Factored
import GrammarWorkbench.Proofs.Succession
import Mathlib.Algebra.BigOperators.Group.List.Basic
import Mathlib.Algebra.GroupWithZero.Nat
import Mathlib.Logic.Function.Iterate

/-!
# How many helpers a factoring needs

A rule with `n` alternatives leaves `n - 1` choices beyond the first (`Grammar.choices` adds
them up over the rules). A factoring moves choices into helpers and neither makes nor loses
any (`choices_step`): a group of `k` members becomes one alternative, and its helper has `k`.
A helper is never left with a single alternative, because what its group shares is as long as
possible: the rests begin with nothing in common (`commonPrefixLength_rests`), so they stand in
several groups, or are all empty and are not factorable (`Regrouped.two_le_length`). Each helper
takes up a choice of its own, and there can be no more helpers than choices. Nor is a name taken
from the supply without a helper (`Grammar.leftFactorWith_choices`).

Every step takes one rule off the queue and puts the helpers that it adds behind the others, so
the queue is empty after as many steps as there are rules in the end (`iterate_step`).
-/

namespace GrammarWorkbench

/-- **The choices that a grammar leaves**: for each rule one less than it has alternatives, and
none for a rule without any. -/
def Grammar.choices (g : Grammar) : Nat :=
  (g.ruleNames.map fun name => (g.productions name).length - 1).sum

/-- **Numbers of which none is zero** add up to at least how many they are, and to more if one of
them is greater than one. -/
theorem length_le_sum_iff {β : Type} {f : β → Nat} {l : List β} (h : ∀ b ∈ l, 1 ≤ f b) :
    l.length ≤ (l.map f).sum ∧ ((l.map f).sum = l.length ↔ ∀ b ∈ l, f b = 1) := by
  induction l with
  | nil => simp
  | cons b l ih =>
    obtain ⟨hb, hl⟩ := List.forall_mem_cons.mp h
    obtain ⟨hle, hiff⟩ := ih hl
    rw [List.map_cons, List.sum_cons, List.length_cons, List.forall_mem_cons, ← hiff]
    omega

namespace Factoring

variable {g : Grammar} {s t : Factoring} {left : String} {ps members out : List Production}
  {groups : List (List Production)} {added rest : List (String × List Production)}

/-! ## The rests of a group -/

/-- **The rests of a group share nothing**: with a symbol in common they would have been cut
behind it. -/
theorem commonPrefixLength_rests (hmembers : members ≠ []) :
    commonPrefixLength (rests members) = 0 := by
  have hrests : rests members ≠ [] := fun h => hmembers (List.map_eq_nil_iff.mp h)
  refine Nat.eq_zero_of_not_pos (fun hpos => ?_)
  obtain ⟨front, hlength, hfront⟩ := (le_commonPrefixLength_iff hrests).mp hpos
  -- what is written for the group could have been longer
  have hlonger : commonPrefixLength members + 1 ≤ commonPrefixLength members := by
    refine (le_commonPrefixLength_iff hmembers).mpr
      ⟨(commonPrefix members).body ++ front, ?_, fun p hp => ?_⟩
    · obtain ⟨p, others, rfl⟩ := List.exists_cons_of_ne_nil hmembers
      have hp := commonPrefixLength_le (List.mem_cons_self : p ∈ p :: others)
      rw [List.length_append, hlength]
      show (p.body.take _).length + 1 = _
      rw [List.length_take, Nat.min_eq_left hp]
    · rw [← commonPrefix_append_suffix hp, Production.body_append]
      exact (List.prefix_append_right_inj _).mpr (hfront _ (List.mem_map_of_mem hp))
  exact Nat.not_succ_le_self _ hlonger

theorem length_rests (members : List Production) : (rests members).length = members.length :=
  List.length_map _

/-- A factorable group has several members. -/
theorem two_le_length_of_isFactorable (h : isFactorable members = true) : 2 ≤ members.length := by
  unfold isFactorable at h
  exact of_decide_eq_true (Bool.and_eq_true_iff.mp h).1

/-! ## What regrouping does to choices -/

namespace Regroups

/-- **What a rule is left with, and the choices of its helpers, make up the alternatives that it
had.** -/
theorem length_add_choices (h : Regroups groups added out) :
    out.length + (added.map fun e => e.2.length - 1).sum = groups.flatten.length := by
  induction h with
  | nil => rfl
  | keep _ _ ih =>
    rw [List.flatten_cons, List.length_append, List.length_append, ← ih, Nat.add_assoc]
  | factor helper hmembers _ ih =>
    have htwo := two_le_length_of_isFactorable hmembers
    rw [List.flatten_cons, List.length_append, ← ih, List.length_cons, List.map_cons,
      List.sum_cons, length_rests]
    omega

/-- Each group leaves an alternative behind. -/
theorem length_groups_le (h : Regroups groups added out)
    (hstated : ∀ members ∈ groups, members ≠ []) : groups.length ≤ out.length := by
  induction h with
  | nil => exact Nat.le_refl 0
  | keep _ _ ih =>
    obtain ⟨hmembers, hstated⟩ := List.forall_mem_cons.mp hstated
    have hpos := List.length_pos_iff.mpr hmembers
    have hrest := ih hstated
    rw [List.length_cons, List.length_append]
    omega
  | factor _ _ _ ih => exact Nat.succ_le_succ (ih (List.forall_mem_cons.mp hstated).2)

end Regroups

/-- A group that is the only one is all there is. -/
theorem eq_of_groupByLeading_eq_singleton (h : groupByLeading ps = [members]) : members = ps := by
  obtain ⟨a, hmembers, -⟩ := exists_of_mem_groupByLeading (h ▸ List.mem_singleton_self members)
  have hperm := flatten_groupByLeading_perm ps
  rw [h, List.flatten_singleton] at hperm
  rw [hmembers] at hperm ⊢
  exact List.filter_eq_self.mpr (List.length_filter_eq_length_iff.mp hperm.length_eq)

namespace Regrouped

/-- A rule with alternatives is left with some. -/
theorem out_ne_nil (h : s.Regrouped left ps rest t added out) (hps : ps ≠ []) : out ≠ [] := by
  obtain ⟨p, hp⟩ := List.exists_mem_of_ne_nil _ hps
  have hflat : p ∈ (groupByLeading ps).flatten :=
    (List.Perm.mem_iff (flatten_groupByLeading_perm ps)).mpr hp
  obtain ⟨members, hmembers, hp⟩ := List.mem_flatten.mp hflat
  rcases h.groups.of_mem_groups hmembers with hkept | ⟨helper, -, hout⟩
  · exact List.ne_nil_of_mem (hkept p hp)
  · exact List.ne_nil_of_mem hout

/-- **Alternatives that share nothing are not put together to a single one.** -/
theorem two_le_length (h : s.Regrouped left ps rest t added out) (hps : 2 ≤ ps.length)
    (hshared : commonPrefixLength ps = 0) : 2 ≤ out.length := by
  have hstated : ∀ members ∈ groupByLeading ps, members ≠ [] := fun members hmembers => by
    obtain ⟨_, -, hne⟩ := exists_of_mem_groupByLeading hmembers
    exact hne
  have hcount := h.groups.length_groups_le hstated
  cases hgroups : groupByLeading ps with
  | nil =>
    have hperm := flatten_groupByLeading_perm ps
    rw [hgroups] at hperm
    rw [← hperm.length_eq] at hps
    exact absurd hps (by simp)
  | cons members groups =>
    cases groups with
    | cons members' groups =>
      rw [hgroups, List.length_cons, List.length_cons] at hcount
      omega
    | nil =>
      -- the only group is not factorable, so everything is kept
      obtain rfl := eq_of_groupByLeading_eq_singleton hgroups
      have hgroup : members ∈ groupByLeading members := hgroups ▸ List.mem_singleton_self _
      have hregroups := hgroups ▸ h.groups
      cases hregroups with
      | keep _ hrest => cases hrest with
        | nil => rwa [List.append_nil]
      | factor helper hfactorable _ =>
        unfold isFactorable at hfactorable
        rw [hshared, decide_eq_false (Nat.lt_irrefl 0), Bool.and_false] at hfactorable
        exact absurd hfactorable (by decide)

/-- **Regrouping moves choices and changes nothing in their number.** -/
theorem choices_eq (h : s.Regrouped left ps rest t added out) (hleft : left ∈ s.grammar.ruleNames)
    (hps : s.grammar.productions left = ps) : t.grammar.choices = s.grammar.choices := by
  have hlength : out.length - 1 + (added.map fun e => e.2.length - 1).sum = ps.length - 1 := by
    have hsum := h.groups.length_add_choices
    rw [(flatten_groupByLeading_perm ps).length_eq] at hsum
    by_cases hnil : ps = []
    · rw [hnil, List.length_nil] at hsum ⊢
      omega
    · have hpos := List.length_pos_iff.mpr (h.out_ne_nil hnil)
      omega
  have hadded : (added.map Prod.fst).map (fun name => (t.grammar.productions name).length - 1)
      = added.map fun e => e.2.length - 1 := by
    rw [List.map_map]
    exact List.map_congr_left fun e he => by rw [Function.comp_apply, h.added_eq e he]
  have hothers : (s.grammar.ruleNames.erase left).map
        (fun name => (t.grammar.productions name).length - 1)
      = (s.grammar.ruleNames.erase left).map
        fun name => (s.grammar.productions name).length - 1 := by
    refine List.map_congr_left fun name hname => ?_
    obtain ⟨hne, hname⟩ := (List.Nodup.mem_erase_iff s.grammar.nodup_ruleNames).mp hname
    rw [h.productions_eq_of_mem hname hne]
  unfold Grammar.choices
  rw [h.ruleNames_eq, List.map_append, List.sum_append, hadded,
    ← List.sum_map_erase _ hleft, ← List.sum_map_erase _ hleft, hothers, h.left_eq, hps]
  omega

end Regrouped

/-! ## Steps -/

/-- A step that changes nothing gives out no name. -/
theorem stepMintings_of_grammar_eq (hqueue : s.queue = (left, ps) :: rest)
    (hleft : left ∈ s.grammar.ruleNames) (hgrammar : s.step.grammar = s.grammar) :
    s.stepMintings = [] := by
  have hnames := ruleNames_step hqueue hleft
  rw [hgrammar] at hnames
  exact List.map_eq_nil_iff.mp (List.append_cancel_left (hnames.symm.trans (List.append_nil _).symm))

/-- **A step keeps the number of choices.** -/
theorem choices_step (hs : s.Consistent) : s.step.grammar.choices = s.grammar.choices := by
  cases hqueue : s.queue with
  | nil =>
    unfold step
    rw [hqueue]
  | cons e rest =>
    have hmem : e ∈ s.queue := hqueue ▸ List.mem_cons_self
    have hleft := hs.mem_ruleNames e hmem
    cases step_effect hqueue hleft with
    | unchanged _ _ hgrammar => rw [hgrammar]
    | regrouped added out h => exact h.choices_eq hleft (hs.productions_eq e hmem)

/-- **A step takes one rule off the queue and puts one on for each name that it gives out.** -/
theorem length_queue_step (hs : s.Consistent) (hqueue : s.queue ≠ []) :
    s.step.queue.length + 1 = s.queue.length + s.stepMintings.length := by
  obtain ⟨⟨left, ps⟩, rest, hqueue⟩ := List.exists_cons_of_ne_nil hqueue
  have hleft := hs.mem_ruleNames _ (hqueue ▸ List.mem_cons_self)
  cases step_effect hqueue hleft with
  | unchanged _ hrest hgrammar =>
    rw [hrest, hqueue, stepMintings_of_grammar_eq hqueue hleft hgrammar]
    rfl
  | regrouped added out h =>
    have hadded := congrArg List.length (h.map_fst_added hqueue hleft)
    rw [List.length_map, List.length_map] at hadded
    rw [h.queue_eq, hqueue, List.length_append, List.length_cons, hadded]
    omega

/-- **Every helper has a choice**, and one that waits has alternatives that share nothing. -/
def Branched (g : Grammar) (s : Factoring) : Prop :=
  ∀ name, g.IsHelper s.grammar name → 2 ≤ (s.grammar.productions name).length
    ∧ (name ∈ s.queue.map Prod.fst → commonPrefixLength (s.grammar.productions name) = 0)

/-- **A step keeps the choices of every helper, and gives one to the helpers that it adds.** -/
theorem branched_step (hs : s.Consistent) (h : Branched g s) (hqueue : s.queue ≠ []) :
    Branched g s.step := by
  obtain ⟨⟨left, ps⟩, rest, hqueue⟩ := List.exists_cons_of_ne_nil hqueue
  have hmem : (left, ps) ∈ s.queue := hqueue ▸ List.mem_cons_self
  have hleft := hs.mem_ruleNames _ hmem
  have hwaits : ∀ name ∈ rest.map Prod.fst, name ∈ s.queue.map Prod.fst := fun name hname =>
    hqueue ▸ List.mem_cons_of_mem _ hname
  cases step_effect hqueue hleft with
  | unchanged _ hrest hgrammar =>
    intro name hname
    rw [hgrammar] at hname ⊢
    rw [hrest]
    exact (h name hname).imp id fun hshared hwait => hshared (hwaits name hwait)
  | regrouped added out hout =>
    obtain ⟨-, hnew⟩ := new_of_ruleNames_eq hout.ruleNames_eq
    intro name hname
    by_cases hadded : name ∈ added.map Prod.fst
    · -- a helper that comes in has the rests of a factorable group
      obtain ⟨e, he, rfl⟩ := List.mem_map.mp hadded
      obtain ⟨members, -, hfactorable, hrests, -⟩ := hout.groups.of_mem_added he
      rw [hout.added_eq e he, hrests, length_rests]
      exact ⟨two_le_length_of_isFactorable hfactorable,
        fun _ => commonPrefixLength_rests (ne_nil_of_isFactorable hfactorable)⟩
    · have hold : g.IsHelper s.grammar name := by
        refine ⟨?_, hname.2⟩
        have hrule := hname.1
        rw [hout.ruleNames_eq, List.mem_append] at hrule
        exact hrule.resolve_right hadded
      obtain ⟨htwo, hshared⟩ := h name hold
      by_cases heq : name = left
      · subst heq
        rw [hs.productions_eq _ hmem] at htwo hshared
        rw [hout.left_eq, hout.queue_eq]
        refine ⟨hout.two_le_length htwo (hshared (List.mem_map_of_mem hmem)), fun hwait => ?_⟩
        -- its turn is over
        rw [List.map_append, List.mem_append] at hwait
        have hnodup := hs.nodup
        rw [hqueue, List.map_cons, List.nodup_cons] at hnodup
        exact absurd (hwait.resolve_right hadded) hnodup.1
      · rw [hout.others_eq name heq hadded, hout.queue_eq, List.map_append, List.mem_append]
        exact ⟨htwo, fun hwait => hshared (hwaits name (hwait.resolve_right hadded))⟩

/-! ## Whole runs -/

/-- **The rules in the end** are those from the beginning, and the names given out. -/
theorem ruleNames_run (hs : s.Consistent) :
    s.run.grammar.ruleNames = s.grammar.ruleNames ++ s.mintings.map Minting.name := by
  fun_induction run s with
  | case1 s hqueue =>
    rw [mintings_of_queue_eq_nil hqueue]
    exact (List.append_nil _).symm
  | case2 s hqueue ih =>
    obtain ⟨⟨left, ps⟩, rest, hcons⟩ := List.exists_cons_of_ne_nil hqueue
    have hstep := ruleNames_step hcons (hs.mem_ruleNames _ (hcons ▸ List.mem_cons_self))
    rw [mintings_of_queue_ne_nil hqueue, ih (consistent_step hs hcons), hstep, List.map_append,
      List.append_assoc]

/-- **The queue is empty after one step for each rule that waits and for each name given out.** -/
theorem iterate_step (hs : s.Consistent) :
    step^[s.queue.length + s.mintings.length] s = s.run := by
  fun_induction run s with
  | case1 s hqueue =>
    rw [mintings_of_queue_eq_nil hqueue, hqueue]
    rfl
  | case2 s hqueue ih =>
    obtain ⟨_, rest, hcons⟩ := List.exists_cons_of_ne_nil hqueue
    have hlength := length_queue_step hs hqueue
    have hcount : s.queue.length + s.mintings.length
        = s.step.queue.length + s.step.mintings.length + 1 := by
      rw [mintings_of_queue_ne_nil hqueue, List.length_append]
      omega
    rw [hcount, Function.iterate_succ_apply]
    exact ih (consistent_step hs hcons)

/-- The names given out are those of the helpers. -/
theorem isHelper_of_mem_mintings {names : NameAllocator} {m : Minting}
    (hm : m ∈ (start g names).mintings) : g.IsHelper (g.leftFactorWith names).grammar m.name := by
  have hnames : (g.leftFactorWith names).grammar.ruleNames
      = g.ruleNames ++ (start g names).mintings.map Minting.name :=
    ruleNames_run (consistent_start g names)
  have hname := List.mem_map_of_mem (f := Minting.name) hm
  have hnodup := (g.leftFactorWith names).grammar.nodup_ruleNames
  rw [hnames, List.nodup_append] at hnodup
  refine ⟨hnames ▸ List.mem_append_right _ hname, fun hold => ?_⟩
  exact hnodup.2.2 m.name hold m.name hname rfl

/-- **What every step keeps of choices**, and the queue is empty in the end. -/
theorem branched_leftFactorWith (g : Grammar) (names : NameAllocator) :
    Branched g (g.leftFactorWith names) ∧ (g.leftFactorWith names).grammar.choices = g.choices
      ∧ (g.leftFactorWith names).queue = [] := by
  have hrun := run_induction
    (P := fun s => (Branched g s ∧ s.grammar.choices = g.choices) ∧ s.Consistent)
    (fun s hqueue hs => ?_) (start g names)
    ⟨⟨fun name hname => absurd hname.1 hname.2, rfl⟩, consistent_start g names⟩
  · exact ⟨hrun.1.1.1, hrun.1.1.2, hrun.2⟩
  · obtain ⟨⟨hbranched, hchoices⟩, hconsistent⟩ := hs
    obtain ⟨_, rest, hcons⟩ := List.exists_cons_of_ne_nil hqueue
    exact ⟨⟨branched_step hconsistent hbranched hqueue, (choices_step hconsistent).trans hchoices⟩,
      consistent_step hconsistent hcons⟩

/-- **The choices from the beginning are in the end those of the rules and those of the
helpers.** -/
theorem choices_eq_add (g : Grammar) (names : NameAllocator) :
    g.choices
      = (g.ruleNames.map fun name =>
          ((g.leftFactorWith names).grammar.productions name).length - 1).sum
        + ((start g names).mintings.map fun m =>
          ((g.leftFactorWith names).grammar.productions m.name).length - 1).sum := by
  have hnames : (g.leftFactorWith names).grammar.ruleNames
      = g.ruleNames ++ (start g names).mintings.map Minting.name :=
    ruleNames_run (consistent_start g names)
  rw [← (branched_leftFactorWith g names).2.1, Grammar.choices, hnames, List.map_append,
    List.sum_append, List.map_map]
  rfl

end Factoring

namespace Grammar

/-- **A factoring ends, and needs no more helpers than there are choices.** The queue is empty
after one step for each rule and for each name given out, and the rules are then the old ones
and one for each name. These names account for all that is missing from the supply. Every such
helper has at least two alternatives. The names given out are at most as many as the rules had
alternatives beyond their first, and they are as many exactly if no rule is left with a choice
and every helper is left with two alternatives. -/
theorem leftFactorWith_choices (g : Grammar) (names : NameAllocator) :
    let after := g.leftFactorWith names
    let minted := (Factoring.start g names).mintings
    (Factoring.step^[g.ruleNames.length + minted.length] (Factoring.start g names) = after
        ∧ after.queue = [])
      ∧ after.grammar.ruleNames = g.ruleNames ++ minted.map Minting.name
      ∧ GivesOut names minted after.names
      ∧ (∀ m ∈ minted, 2 ≤ (after.grammar.productions m.name).length)
      ∧ minted.length ≤ (g.ruleNames.map fun name => (g.productions name).length - 1).sum
      ∧ (minted.length = (g.ruleNames.map fun name => (g.productions name).length - 1).sum
        ↔ (∀ name ∈ g.ruleNames, (after.grammar.productions name).length ≤ 1)
          ∧ ∀ m ∈ minted, (after.grammar.productions m.name).length = 2) := by
  intro after minted
  obtain ⟨hbranched, -, hqueue⟩ := Factoring.branched_leftFactorWith g names
  have hconsistent := Factoring.consistent_start g names
  have hsteps := Factoring.iterate_step hconsistent
  have hwaiting : (Factoring.start g names).queue.length = g.ruleNames.length :=
    (List.length_map _).symm
  have htwo : ∀ m ∈ minted, 2 ≤ (after.grammar.productions m.name).length := fun m hm =>
    (hbranched m.name (Factoring.isHelper_of_mem_mintings hm)).1
  obtain ⟨hle, hone⟩ := length_le_sum_iff
    (f := fun m : Minting => (after.grammar.productions m.name).length - 1)
    fun m hm => Nat.le_sub_of_add_le (htwo m hm)
  have hsum : g.choices
      = (g.ruleNames.map fun name => (after.grammar.productions name).length - 1).sum
        + (minted.map fun m => (after.grammar.productions m.name).length - 1).sum :=
    Factoring.choices_eq_add g names
  rw [hwaiting] at hsteps
  have hsettled : (g.ruleNames.map fun name => (after.grammar.productions name).length - 1).sum = 0
      ↔ ∀ name ∈ g.ruleNames, (after.grammar.productions name).length ≤ 1 := by
    rw [List.sum_eq_zero_iff_forall_eq_nat, List.forall_mem_map]
    exact forall₂_congr fun name _ => Nat.sub_eq_zero_iff_le
  have hpairs : (∀ m ∈ minted, (after.grammar.productions m.name).length - 1 = 1)
      ↔ ∀ m ∈ minted, (after.grammar.productions m.name).length = 2 := by
    refine forall₂_congr fun m hm => ?_
    have := htwo m hm
    omega
  refine ⟨⟨hsteps, hqueue⟩, Factoring.ruleNames_run hconsistent,
    Factoring.givesOut_run (Factoring.start g names), htwo, ?_, ?_⟩
  · rw [← choices, hsum]
    exact Nat.le_add_left_of_le hle
  · rw [← choices, hsum, ← hsettled, ← hpairs, ← hone]
    omega

/-- Where every beginning is an alternative of its own, no choice goes without a helper. -/
example :
    let g := (∅ : Grammar).setProductions "S" [.ofSymbols [.terminal "a"],
      .ofSymbols [.terminal "a", .terminal "a"],
      .ofSymbols [.terminal "a", .terminal "a", .terminal "a"]]
    g.leftFactor.grammar.ruleNames = ["S", "X1", "X2"] ∧ g.choices = 2 := by decide +kernel

end Grammar

end GrammarWorkbench
