import GrammarWorkbench.Proofs.Minting
import Mathlib.Data.List.Basic

/-!
# What a factoring leaves

When the queue is empty, no rule has two alternatives that begin with the same symbol, and a
second factoring changes nothing. Both come from what is known of a rule that has had its turn
(`Factoring.Settled`): its alternatives begin with different symbols, or they stand in groups
of which none is factorable, one behind the other.

A rule that is regrouped gets one block for each group, the members as they were or a single
alternative in their place, and a block begins as its group did. So grouping once more finds
the blocks (`groupByLeading_append`), none of them factorable (`Regroups.inOrder`). A group of
several members that begin alike always is, unless they are empty, since they share at least
the symbol that they begin with (`commonPrefixLength_pos`); repeated empty alternatives are all
that remains, and these stand together already. Taking up such a rule again puts it back as it
is. That this counts as no change needs a start symbol, because a grammar without one gets it
when a rule is put back; but then the first factoring has seen to it.
-/

namespace GrammarWorkbench

/-! ## Groups and their beginnings -/

/-- **Alternatives that all begin with the same symbol share a beginning.** -/
theorem commonPrefixLength_pos {members : List Production} {a : Symbol} (hmembers : members ≠ [])
    (h : ∀ p ∈ members, p.leading = a) (ha : a ≠ .epsilon) : 0 < commonPrefixLength members := by
  refine (le_commonPrefixLength_iff hmembers).mpr ⟨[a], rfl, fun p hp => ?_⟩
  have hlead := h p hp
  unfold Production.leading at hlead
  cases hbody : p.body with
  | nil => rw [hbody] at hlead; exact absurd hlead.symm ha
  | cons b body =>
    rw [hbody] at hlead
    obtain rfl : b = a := hlead
    exact ⟨body, rfl⟩

theorem groupByLeading_nil : groupByLeading [] = [] := by
  rw [groupByLeading_eq]
  simp

/-- A group is all that begins with one symbol, and it has members. -/
theorem exists_of_mem_groupByLeading {ps members : List Production}
    (h : members ∈ groupByLeading ps) :
    ∃ a, members = ps.filter (fun p => decide (p.leading = a)) ∧ members ≠ [] := by
  rw [groupByLeading_eq] at h
  obtain ⟨a, ha, rfl⟩ := List.mem_map.mp h
  obtain ⟨p, hp, hlead⟩ := List.mem_map.mp (List.mem_eraseDups.mp ha)
  exact ⟨a, rfl, List.ne_nil_of_mem (List.mem_filter.mpr ⟨hp, decide_eq_true hlead⟩)⟩

/-- The members of a group begin alike. -/
theorem leading_eq_of_mem_group {ps members : List Production} (h : members ∈ groupByLeading ps)
    {p q : Production} (hp : p ∈ members) (hq : q ∈ members) : p.leading = q.leading := by
  obtain ⟨a, rfl, -⟩ := exists_of_mem_groupByLeading h
  rw [List.mem_filter, decide_eq_true_iff] at hp hq
  exact hp.2.trans hq.2.symm

/-- **Different groups begin differently.** -/
theorem pairwise_groupByLeading (ps : List Production) :
    (groupByLeading ps).Pairwise fun l m => ∀ p ∈ l, ∀ q ∈ m, p.leading ≠ q.leading := by
  have hkeys : (ps.map Production.leading).eraseDups.Nodup :=
    Table.keys_group Production.leading ps ▸ Table.nodup_keys _
  rw [groupByLeading_eq, List.pairwise_map]
  refine hkeys.imp (fun {a b} hab p hp q hq heq => hab ?_)
  rw [List.mem_filter, decide_eq_true_iff] at hp hq
  exact hp.2.symm.trans (heq.trans hq.2)

/-- **A block in front that begins as nothing behind it does is a group of its own.** -/
theorem groupByLeading_append {block rest : List Production} {a : Symbol} (hblock : block ≠ [])
    (hfront : ∀ p ∈ block, p.leading = a) (hrest : ∀ p ∈ rest, p.leading ≠ a) :
    groupByLeading (block ++ rest) = block :: groupByLeading rest := by
  have hkeys : ((block ++ rest).map Production.leading).eraseDups
      = a :: (rest.map Production.leading).eraseDups := by
    obtain ⟨p, block, rfl⟩ := List.exists_cons_of_ne_nil hblock
    have hnone : (block.map Production.leading).filter (fun b => !b == a) = [] := by
      refine List.filter_eq_nil_iff.mpr (fun b hb => ?_)
      obtain ⟨q, hq, rfl⟩ := List.mem_map.mp hb
      simp [hfront q (List.mem_cons_of_mem _ hq)]
    have hall : (rest.map Production.leading).filter (fun b => !b == a)
        = rest.map Production.leading := by
      refine List.filter_eq_self.mpr (fun b hb => ?_)
      obtain ⟨q, hq, rfl⟩ := List.mem_map.mp hb
      simp [hrest q hq]
    rw [List.cons_append, List.map_cons, List.map_append, List.eraseDups_cons,
      hfront p List.mem_cons_self, List.filter_append, hnone, hall, List.nil_append]
  have hown : block.filter (fun p => decide (p.leading = a)) = block :=
    List.filter_eq_self.mpr fun p hp => decide_eq_true (hfront p hp)
  have hothers : rest.filter (fun p => decide (p.leading = a)) = [] :=
    List.filter_eq_nil_iff.mpr fun p hp => by simpa using hrest p hp
  rw [groupByLeading_eq, hkeys, List.map_cons, List.filter_append, hown, hothers, List.append_nil,
    groupByLeading_eq]
  refine congrArg (block :: ·) (List.map_congr_left fun b hb => ?_)
  obtain ⟨q, hq, rfl⟩ := List.mem_map.mp (List.mem_eraseDups.mp hb)
  have hnone : block.filter (fun p => decide (p.leading = q.leading)) = [] := by
    refine List.filter_eq_nil_iff.mpr (fun p hp => ?_)
    simpa [hfront p hp] using (hrest q hq).symm
  rw [List.filter_append, hnone, List.nil_append]

/-- Lists that hold something are no more than what they hold. -/
theorem length_le_length_flatten {groups : List (List Production)}
    (hgroups : ∀ members ∈ groups, members ≠ []) : groups.length ≤ groups.flatten.length := by
  induction groups with
  | nil => exact Nat.le_refl 0
  | cons first groups ih =>
    obtain ⟨hfirst, hrest⟩ := List.forall_mem_cons.mp hgroups
    have hpos := List.length_pos_iff.mpr hfirst
    have := ih hrest
    rw [List.flatten_cons, List.length_append, List.length_cons]
    omega

/-- If there are as many groups as alternatives, every group has one member. -/
theorem length_le_one_of_mem {groups : List (List Production)}
    (hgroups : ∀ members ∈ groups, members ≠ []) (h : groups.flatten.length ≤ groups.length)
    {members : List Production} (hmembers : members ∈ groups) : members.length ≤ 1 := by
  induction groups with
  | nil => exact absurd hmembers List.not_mem_nil
  | cons first groups ih =>
    obtain ⟨hfirst, hrest⟩ := List.forall_mem_cons.mp hgroups
    have hpos := List.length_pos_iff.mpr hfirst
    have hcount := length_le_length_flatten hrest
    rw [List.flatten_cons, List.length_append, List.length_cons] at h
    rcases List.mem_cons.mp hmembers with rfl | hmembers
    · omega
    · exact ih hrest (by omega) hmembers

namespace Factoring

variable {g : Grammar} {s : Factoring} {left : String} {ps members out : List Production}
  {groups : List (List Production)} {added rest : List (String × List Production)}

/-- What is written for a group begins as its members do. -/
theorem leading_commonPrefix_push (h : isFactorable members = true) {p : Production}
    (hp : p ∈ members) (helper : String) :
    ((commonPrefix members).push (.nonTerminal helper)).leading = p.leading := by
  obtain ⟨-, hpos⟩ : 1 < members.length ∧ 0 < commonPrefixLength members := by
    simpa [isFactorable] using h
  have hshared : (commonPrefix members).body ≠ [] := by
    obtain ⟨q, members, rfl⟩ := List.exists_cons_of_ne_nil (ne_nil_of_isFactorable h)
    have hle := commonPrefixLength_le (List.mem_cons_self : q ∈ q :: members)
    show q.body.take _ ≠ []
    rw [← List.length_pos_iff, List.length_take]
    omega
  obtain ⟨a, body, hbody⟩ := List.exists_cons_of_ne_nil hshared
  rw [← commonPrefix_append_suffix hp]
  unfold Production.leading
  rw [Production.body_push_nonTerminal, Production.body_append, hbody]
  rfl

/-! ## Rules that have had their turn -/

/-- **Alternatives that stand group behind group**, and no group is factorable. -/
structure InOrder (ps : List Production) : Prop where
  flatten_eq : (groupByLeading ps).flatten = ps
  kept : ∀ members ∈ groupByLeading ps, isFactorable members = false

theorem inOrder_nil : InOrder [] where
  flatten_eq := by rw [groupByLeading_nil]; rfl
  kept := by simp [groupByLeading_nil]

/-- One more group in front. -/
theorem InOrder.append {block rest : List Production} {a : Symbol} (hrest : InOrder rest)
    (hblock : block ≠ []) (hkept : isFactorable block = false)
    (hfront : ∀ p ∈ block, p.leading = a) (hnot : ∀ p ∈ rest, p.leading ≠ a) :
    InOrder (block ++ rest) := by
  have hgroups := groupByLeading_append hblock hfront hnot
  refine ⟨?_, ?_⟩
  · rw [hgroups, List.flatten_cons, hrest.flatten_eq]
  · rw [hgroups]
    exact List.forall_mem_cons.mpr ⟨hkept, hrest.kept⟩

/-- What a rule is left with begins as its groups did. -/
theorem Regroups.exists_leading_eq (h : Regroups groups added out) {q : Production} (hq : q ∈ out) :
    ∃ p ∈ groups.flatten, q.leading = p.leading := by
  rcases h.of_mem_out hq with hkept | ⟨members, hmembers, helper, hfactorable, -, rfl⟩
  · exact ⟨q, hkept, rfl⟩
  · obtain ⟨p, hp⟩ := List.exists_mem_of_ne_nil _ (ne_nil_of_isFactorable hfactorable)
    exact ⟨p, List.mem_flatten.mpr ⟨members, hmembers, hp⟩,
      leading_commonPrefix_push hfactorable hp helper⟩

/-- A group that begins as no other does begins as nothing that the others become. -/
theorem Regroups.leading_ne (h : Regroups groups added out) {p : Production}
    (hp : ∀ members ∈ groups, ∀ q ∈ members, p.leading ≠ q.leading) :
    ∀ q ∈ out, q.leading ≠ p.leading := by
  intro q hq heq
  obtain ⟨r, hr, hlead⟩ := h.exists_leading_eq hq
  obtain ⟨members, hmembers, hr⟩ := List.mem_flatten.mp hr
  exact hp members hmembers r hr (heq.symm.trans hlead)

/-- **What a rule is left with stands group behind group.** -/
theorem Regroups.inOrder (h : Regroups groups added out)
    (hstated : ∀ members ∈ groups, members ≠ [])
    (halike : ∀ members ∈ groups, ∀ p ∈ members, ∀ q ∈ members, p.leading = q.leading)
    (hapart : groups.Pairwise fun l m => ∀ p ∈ l, ∀ q ∈ m, p.leading ≠ q.leading) :
    InOrder out := by
  induction h with
  | nil => exact inOrder_nil
  | @keep members groups added out hkept hrest ih =>
    obtain ⟨hne, hstated⟩ := List.forall_mem_cons.mp hstated
    obtain ⟨hsame, halike⟩ := List.forall_mem_cons.mp halike
    obtain ⟨hfirst, hapart⟩ := List.pairwise_cons.mp hapart
    obtain ⟨p, hp⟩ := List.exists_mem_of_ne_nil _ hne
    exact (ih hstated halike hapart).append hne hkept (fun q hq => hsame q hq p hp)
      (hrest.leading_ne fun l hl => hfirst l hl p hp)
  | @factor members groups added out helper hfactorable hrest ih =>
    obtain ⟨hne, hstated⟩ := List.forall_mem_cons.mp hstated
    obtain ⟨-, halike⟩ := List.forall_mem_cons.mp halike
    obtain ⟨hfirst, hapart⟩ := List.pairwise_cons.mp hapart
    obtain ⟨p, hp⟩ := List.exists_mem_of_ne_nil _ hne
    refine (ih hstated halike hapart).append (List.cons_ne_nil _ []) rfl (fun q hq => ?_)
      (hrest.leading_ne fun l hl => hfirst l hl p hp)
    rw [List.mem_singleton.mp hq]
    exact leading_commonPrefix_push hfactorable hp helper

/-- **Alternatives that a factoring leaves alone.** A grammar without a start symbol would get
one if they were put back in order. -/
inductive Settled (g : Grammar) (ps : List Production) : Prop where
  /-- They all begin with different symbols. -/
  | apart (h : (groupByLeading ps).length = ps.length)
  /-- They are in order. -/
  | inOrder (h : InOrder ps) (started : g.start.isSome = true)

/-- None of the groups is factorable. -/
theorem Settled.isFactorable_eq_false (h : Settled g ps) (hmembers : members ∈ groupByLeading ps) :
    isFactorable members = false := by
  cases h with
  | inOrder h _ => exact h.kept members hmembers
  | apart h =>
    have hlength : members.length ≤ 1 := by
      refine length_le_one_of_mem (fun l hl => ?_) ?_ hmembers
      · obtain ⟨_, -, hne⟩ := exists_of_mem_groupByLeading hl
        exact hne
      · rw [(flatten_groupByLeading_perm ps).length_eq]
        exact Nat.le_of_eq h.symm
    unfold isFactorable
    rw [decide_eq_false (by omega), Bool.false_and]

/-- **No two of the alternatives begin with the same symbol**, empty ones apart. -/
theorem Settled.pairwise (h : Settled g ps) :
    ps.Pairwise fun p q => p ≠ .epsilon → q ≠ .epsilon → p.leading ≠ q.leading := by
  rw [List.pairwise_iff_forall_sublist]
  intro p q hsub hp hq heq
  -- the two are in one group, which is factorable
  have hpair : [p, q].Sublist (ps.filter (fun r => decide (r.leading = p.leading))) := by
    simpa [heq] using hsub.filter (fun r => decide (r.leading = p.leading))
  have hgroup : ps.filter (fun r => decide (r.leading = p.leading)) ∈ groupByLeading ps := by
    rw [groupByLeading_eq]
    refine List.mem_map_of_mem (List.mem_eraseDups.mpr (List.mem_map_of_mem ?_))
    exact hsub.subset List.mem_cons_self
  have hlength := hpair.length_le
  have hpos := commonPrefixLength_pos (List.ne_nil_of_mem (hpair.subset List.mem_cons_self))
    (fun r hr => of_decide_eq_true (List.mem_filter.mp hr).2)
    (fun heps => hp (Production.leading_eq_epsilon_iff.mp heps))
  have hnot := h.isFactorable_eq_false hgroup
  unfold isFactorable at hnot
  rw [decide_eq_true (show 1 < _ from hlength), decide_eq_true hpos] at hnot
  exact absurd hnot (by decide)

/-! ## Whole runs -/

/-- **Every rule waits or has had its turn.** -/
def Attended (s : Factoring) : Prop :=
  ∀ name, name ∈ s.queue.map Prod.fst ∨ Settled s.grammar (s.grammar.productions name)

theorem attended_start (g : Grammar) (names : NameAllocator) : (start g names).Attended := by
  intro name
  by_cases hname : name ∈ g.ruleNames
  · exact Or.inl hname
  · refine Or.inr (Settled.apart ?_)
    show (groupByLeading (g.productions name)).length = (g.productions name).length
    rw [Grammar.productions_eq_nil_of_not_mem hname, groupByLeading_nil]
    rfl

/-- A rule whose alternatives begin differently is left as it is. -/
theorem step_of_apart (hqueue : s.queue = (left, ps) :: rest)
    (hapart : (groupByLeading ps).length = ps.length) : s.step = { s with queue := rest } := by
  rw [step_eq hqueue]
  unfold factorRule
  rw [if_pos hapart]

/-- Any other is put back, and so there is a start symbol afterwards. -/
theorem isSome_start_step (hqueue : s.queue = (left, ps) :: rest)
    (hapart : (groupByLeading ps).length ≠ ps.length) : s.step.grammar.start.isSome = true := by
  rw [step_eq hqueue]
  unfold factorRule
  rw [if_neg hapart]
  show (Option.or _ (some left)).isSome = true
  rw [Option.isSome_or, Option.isSome_some, Bool.or_true]

/-- A start symbol stays. -/
theorem isSome_start_step_of_isSome (h : s.grammar.start.isSome = true) :
    s.step.grammar.start.isSome = true := by
  obtain ⟨start, hstart⟩ := Option.isSome_iff_exists.mp h
  rw [start_step hstart]
  rfl

/-- Alternatives stay settled during a step. -/
theorem Settled.step (h : Settled s.grammar ps) : Settled s.step.grammar ps := by
  cases h with
  | apart h => exact .apart h
  | inOrder h started => exact .inOrder h (isSome_start_step_of_isSome started)

/-- The groups of a rule, regrouped, are in order. -/
theorem Regrouped.inOrder {t : Factoring} (h : s.Regrouped left ps rest t added out) :
    InOrder out := by
  refine h.groups.inOrder (fun members hmembers => ?_)
    (fun members hmembers p hp q hq => leading_eq_of_mem_group hmembers hp hq)
    (pairwise_groupByLeading ps)
  obtain ⟨_, -, hne⟩ := exists_of_mem_groupByLeading hmembers
  exact hne

/-- **A step attends to the rule whose turn it is.** -/
theorem attended_step (hs : s.Attended) (hconsistent : s.Consistent) (hqueue : s.queue ≠ []) :
    s.step.Attended := by
  obtain ⟨⟨left, ps⟩, rest, hqueue⟩ := List.exists_cons_of_ne_nil hqueue
  have hmem : (left, ps) ∈ s.queue := hqueue ▸ List.mem_cons_self
  have hwaits : ∀ name ≠ left, name ∈ s.queue.map Prod.fst → name ∈ rest.map Prod.fst := by
    intro name hne hname
    rw [hqueue, List.map_cons] at hname
    exact (List.mem_cons.mp hname).resolve_left hne
  by_cases hapart : (groupByLeading ps).length = ps.length
  · rw [step_of_apart hqueue hapart]
    intro name
    show name ∈ rest.map Prod.fst ∨ Settled s.grammar (s.grammar.productions name)
    by_cases hname : name = left
    · rw [hname, hconsistent.productions_eq _ hmem]
      exact Or.inr (.apart hapart)
    · exact (hs name).imp (hwaits name hname) id
  · intro name
    cases step_effect hqueue (hconsistent.mem_ruleNames _ hmem) with
    | unchanged apart => exact absurd apart hapart
    | regrouped added out h =>
      rw [h.queue_eq, List.map_append, List.mem_append]
      by_cases hname : name = left
      · rw [hname, h.left_eq]
        exact Or.inr (.inOrder h.inOrder (isSome_start_step hqueue hapart))
      · by_cases hnew : name ∈ added.map Prod.fst
        · exact Or.inl (Or.inr hnew)
        · rw [h.others_eq name hname hnew]
          exact (hs name).imp (fun hname' => Or.inl (hwaits name hname hname')) Settled.step

/-- **When the queue is empty every rule is settled.** -/
theorem settled_leftFactorWith (g : Grammar) (names : NameAllocator) (name : String) :
    Settled (g.leftFactorWith names).grammar ((g.leftFactorWith names).grammar.productions name) := by
  have hrun := run_induction (P := fun s => s.Attended ∧ s.Consistent)
    (fun s hqueue hs => ?_) (start g names) ⟨attended_start g names, consistent_start g names⟩
  · refine (hrun.1.1 name).resolve_left (fun hname => ?_)
    rw [hrun.2] at hname
    exact absurd hname List.not_mem_nil
  · obtain ⟨_, rest, hcons⟩ := List.exists_cons_of_ne_nil hqueue
    exact ⟨attended_step hs.1 hs.2 hqueue, consistent_step hs.2 hcons⟩

/-! ## Factoring once more -/

/-- Groups that are not factorable are kept one behind the other. -/
theorem foldl_addGroup_of_kept (hkept : ∀ members ∈ groups, isFactorable members = false)
    (s : Factoring) (before : List Production) :
    groups.foldl addGroup (s, before) = (s, before ++ groups.flatten) := by
  induction groups generalizing before with
  | nil => exact congrArg (Prod.mk s) (List.append_nil before).symm
  | cons members groups ih =>
    obtain ⟨hmembers, hkept⟩ := List.forall_mem_cons.mp hkept
    rw [List.foldl_cons, addGroup_of_not_factorable _ hmembers, ih hkept, List.flatten_cons,
      List.append_assoc]

/-- For them no name is asked for. -/
theorem groupMintings_of_kept (hkept : ∀ members ∈ groups, isFactorable members = false)
    (acc : Factoring × List Production) : groupMintings acc groups = [] := by
  induction groups generalizing acc with
  | nil => rfl
  | cons members groups ih =>
    obtain ⟨hmembers, hkept⟩ := List.forall_mem_cons.mp hkept
    rw [groupMintings, ih hkept, List.append_nil]
    unfold groupMinting
    rw [if_neg (by simp [hmembers])]

/-- Giving a rule the alternatives that it has changes nothing, if there is a start symbol. -/
theorem setProductions_eq_self (hleft : left ∈ g.ruleNames) (hps : g.productions left = ps)
    (hstart : g.start.isSome = true) : g.setProductions left ps = g := by
  refine Grammar.ext_productions ?_ (fun name => ?_) ?_
  · rw [Grammar.ruleNames_setProductions, if_pos hleft]
  · rw [Grammar.productions_setProductions]
    split
    · next hname => rw [hname, hps]
    · rfl
  · obtain ⟨start, hstart⟩ := Option.isSome_iff_exists.mp hstart
    rw [Grammar.start_setProductions_of_some hstart, hstart]

/-- **A settled rule is put back as it is**, and no name is asked for. -/
theorem step_of_settled (hs : s.Consistent) (hqueue : s.queue = (left, ps) :: rest)
    (h : Settled s.grammar ps) : s.step = { s with queue := rest } ∧ s.stepMintings = [] := by
  have hmem : (left, ps) ∈ s.queue := hqueue ▸ List.mem_cons_self
  have hmintings : s.stepMintings = [] := by
    unfold stepMintings
    rw [hqueue]
    dsimp only
    rw [groupMintings_of_kept fun _ => h.isFactorable_eq_false, ite_self]
  refine ⟨?_, hmintings⟩
  cases h with
  | apart h => exact step_of_apart hqueue h
  | inOrder h started =>
    rw [step_eq hqueue]
    unfold factorRule
    rw [foldl_addGroup_of_kept h.kept, List.nil_append, h.flatten_eq]
    dsimp only
    rw [setProductions_eq_self (hs.mem_ruleNames _ hmem) (hs.productions_eq _ hmem) started, ite_self]

/-- **Where every rule is settled, a factoring does nothing.** -/
theorem run_of_settled (hs : s.Consistent) (h : ∀ e ∈ s.queue, Settled s.grammar e.2) :
    s.run = { s with queue := [] } ∧ s.mintings = [] := by
  fun_induction run s with
  | case1 s hqueue =>
    rw [mintings_of_queue_eq_nil hqueue, ← hqueue]
    exact ⟨rfl, rfl⟩
  | case2 s hqueue ih =>
    obtain ⟨⟨left, ps⟩, rest, hcons⟩ := List.exists_cons_of_ne_nil hqueue
    obtain ⟨hstep, hmintings⟩ := step_of_settled hs hcons (h _ (hcons ▸ List.mem_cons_self))
    have hrest := ih (consistent_step hs hcons) (fun e he => ?_)
    · rw [mintings_of_queue_ne_nil hqueue, hmintings, hrest.1, hrest.2, hstep]
      exact ⟨rfl, rfl⟩
    · rw [hstep] at he ⊢
      exact h e (hcons ▸ List.mem_cons_of_mem _ he)

end Factoring

namespace Grammar

/-- **A factoring is complete, and a second one does nothing.** In its outcome no rule, helpers
included, has two alternatives at different places that begin with the same symbol, empty ones
apart. To factor the outcome once more, with any supply of names, leaves the grammar and the
supply as they are, and no name is given out. -/
theorem leftFactorWith_complete (g : Grammar) (names : NameAllocator) :
    let after := (g.leftFactorWith names).grammar
    (∀ name, (after.productions name).Pairwise fun p q =>
        p ≠ .epsilon → q ≠ .epsilon → p.leading ≠ q.leading)
      ∧ ∀ names', (after.leftFactorWith names').grammar = after
        ∧ (after.leftFactorWith names').names = names'
        ∧ (Factoring.start after names').mintings = [] := by
  have hsettled := Factoring.settled_leftFactorWith g names
  refine ⟨fun name => (hsettled name).pairwise, fun names' => ?_⟩
  have hconsistent := Factoring.consistent_start (g.leftFactorWith names).grammar names'
  have hqueue : ∀ e ∈ (Factoring.start (g.leftFactorWith names).grammar names').queue,
      Factoring.Settled (g.leftFactorWith names).grammar e.2 := by
    intro e he
    rw [← hconsistent.productions_eq e he]
    exact hsettled e.1
  obtain ⟨hrun, hmintings⟩ := Factoring.run_of_settled hconsistent hqueue
  have hagain : (g.leftFactorWith names).grammar.leftFactorWith names'
      = ⟨(g.leftFactorWith names).grammar, names', []⟩ := hrun
  rw [hagain]
  exact ⟨rfl, rfl, hmintings⟩

/-- Repeated empty alternatives are put together and stay so. -/
example : ((∅ : Grammar).setProductions "S"
    [.epsilon, .ofSymbols [.terminal "a"], .epsilon]).leftFactor.grammar.productions "S"
      = [.epsilon, .epsilon, .ofSymbols [.terminal "a"]] := by decide +kernel

end Grammar

end GrammarWorkbench
