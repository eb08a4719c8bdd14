import GrammarWorkbench.Proofs.LeftFactoring.Unfolding
import GrammarWorkbench.Proofs.LeftRecursion.Round
import GrammarWorkbench.Proofs.Tidy

/-!
# The names that transformations give out

A supply of names only looks at rules. That a name is not mentioned either when it is given out
holds because the grammar is closed at that moment (`Minting.isNew_of_closed`). The moments lie
inside of steps: an elimination asks for a name when the rule whose turn it is has its expanded
alternatives, and a factoring when the groups before have their helpers and the rule still has
its old alternatives. So what is listed is the grammar at each of these moments (`Minting`),
which is also the one that reports are about (`Elimination.roundEvents_eq`,
`Factoring.groupEvents_cons`). All that is used inside of a step was used before it
(`Grammar.Meanwhile`), so a closed grammar is closed at these moments.

A step puts the names given out in it behind the rules, and uses nothing that is new but these
names (`Grammar.Extends`). From that a tidy grammar stays tidy (`Extends.tidy`), and the next
step finds what it needs. Steps compose (`Extends.trans`), so the same holds of an elimination
after any number of rules (`Elimination.extends_rounds`) and of a factoring
(`Factoring.extends_run`).
-/

namespace GrammarWorkbench

/-- **A moment at which a name is given out.** -/
structure Minting where
  /-- The grammar at that moment. -/
  grammar : Grammar
  /-- The supply that gives the name out. -/
  names : NameAllocator
deriving DecidableEq

namespace Minting

/-- The name that is given out. -/
def name (m : Minting) : String := (m.names.fresh m.grammar).1

/-- **The name occurs nowhere**: it is no rule, and no alternative mentions it. -/
def IsNew (m : Minting) : Prop := m.name ∉ m.grammar.ruleNames ∧ ¬ m.grammar.Mentions m.name

/-- **In a closed grammar a name that is no rule is not mentioned.** -/
theorem isNew_of_closed {m : Minting} (h : m.grammar.Closed) : m.IsNew :=
  have hnew := m.names.fresh_not_mem m.grammar
  ⟨hnew, fun hmention => hnew (h _ hmention)⟩

end Minting

/-- A supply looks at the rules and at nothing else. -/
theorem NameAllocator.fresh_congr (names : NameAllocator) {g g' : Grammar}
    (h : g.ruleNames = g'.ruleNames) : names.fresh g = names.fresh g' := by
  unfold fresh next
  rw [h]

/-! ## Grammars with names added -/

namespace Grammar

/-- **What the grammar `after` has more than `g`**, if the names of `ms` were given out on the
way from one to the other. -/
structure Extends (g : Grammar) (ms : List Minting) (after : Grammar) : Prop where
  /-- The names are put behind the rules, in the order in which they were given out. -/
  ruleNames_eq : after.ruleNames = g.ruleNames ++ ms.map Minting.name
  /-- A first rule stays the first. -/
  head?_eq : after.ruleNames.head? = g.ruleNames.head?
  /-- The start symbol stays. -/
  start_eq : after.start = g.start
  /-- Apart from the names nothing new is used. -/
  uses : ∀ a, after.Uses a → g.Uses a ∨ ∃ m ∈ ms, a = .nonTerminal m.name
  /-- Each name was new when it was given out. -/
  new : ∀ m ∈ ms, m.IsNew

variable {g g' after : Grammar} {ms ms' : List Minting} {left : String} {ps : List Production}
  {a : Symbol}

namespace Extends

theorem refl (g : Grammar) : g.Extends [] g where
  ruleNames_eq := (List.append_nil _).symm
  head?_eq := rfl
  start_eq := rfl
  uses := fun _ => Or.inl
  new := fun _ hm => absurd hm List.not_mem_nil

/-- **One after the other**, the names add up. -/
theorem trans (h : g.Extends ms g') (h' : g'.Extends ms' after) :
    g.Extends (ms ++ ms') after where
  ruleNames_eq := by rw [h'.ruleNames_eq, h.ruleNames_eq, List.map_append, List.append_assoc]
  head?_eq := h'.head?_eq.trans h.head?_eq
  start_eq := h'.start_eq.trans h.start_eq
  uses := by
    intro a ha
    rcases h'.uses a ha with ha | ⟨m, hm, rfl⟩
    · refine (h.uses a ha).imp id ?_
      rintro ⟨m, hm, heq⟩
      exact ⟨m, List.mem_append_left _ hm, heq⟩
    · exact Or.inr ⟨m, List.mem_append_right _ hm, rfl⟩
  new := fun m hm => (List.mem_append.mp hm).elim (h.new m) (h'.new m)

/-- **A tidy grammar stays tidy.** -/
theorem tidy (h : g.Extends ms after) (hg : g.Tidy) : after.Tidy where
  closed := by
    intro name hname
    rw [h.ruleNames_eq]
    rcases h.uses _ hname with hold | ⟨m, hm, heq⟩
    · exact List.mem_append_left _ (hg.closed name hold)
    · rw [Symbol.nonTerminal.inj heq]
      exact List.mem_append_right _ (List.mem_map_of_mem hm)
  start := by rw [h.start_eq, h.head?_eq, hg.start]
  endMark := by
    intro hmark
    rcases h.uses _ hmark with hold | ⟨m, -, heq⟩
    · exact hg.endMark hold
    · exact absurd heq (by simp)

end Extends

/-! ## Inside of a step -/

/-- What is used after a rule got new alternatives. -/
theorem uses_of_uses_setProductions (h : (g.setProductions left ps).Uses a) :
    (∃ p ∈ ps, a ∈ p.body) ∨ g.Uses a := by
  obtain ⟨other, p, hp, ha⟩ := uses_iff.mp h
  rw [productions_setProductions] at hp
  split at hp
  · exact Or.inl ⟨p, hp, ha⟩
  · exact Or.inr (uses_iff.mpr ⟨other, p, hp, ha⟩)

/-- **What `g` can be like inside of a step**: there may be new rules, but nothing is used that
`g` does not use. -/
structure Meanwhile (g g' : Grammar) : Prop where
  /-- The rules are still there. -/
  rules : g.ruleNames ⊆ g'.ruleNames
  /-- Nothing new is used. -/
  uses : ∀ a, g'.Uses a → g.Uses a

namespace Meanwhile

theorem refl (g : Grammar) : g.Meanwhile g := ⟨List.Subset.refl _, fun _ => id⟩

/-- Whatever rule is written, if its alternatives are made of what `g` uses. -/
theorem setProductions (h : g.Meanwhile g') (left : String)
    (hps : ∀ p ∈ ps, ∀ a ∈ p.body, g.Uses a) : g.Meanwhile (g'.setProductions left ps) where
  rules := List.Subset.trans h.rules (ruleNames_subset_setProductions g' left ps)
  uses := by
    intro a ha
    rcases uses_of_uses_setProductions ha with ⟨p, hp, ha⟩ | ha
    · exact hps p hp a ha
    · exact h.uses a ha

/-- **A closed grammar is closed inside of a step, too.** -/
theorem closed (h : g.Meanwhile g') (hg : g.Closed) : g'.Closed := fun name hname =>
  h.rules (hg name (h.uses _ hname))

end Meanwhile

end Grammar

/-! ## Eliminations -/

namespace Elimination

variable {s : Elimination} {left : String} {rest : List String}

/-- **The name given out in the next round**, if there is one. The rule has its expanded
alternatives by then. -/
def roundMintings (s : Elimination) : List Minting :=
  match s.pending with
  | [] => []
  | left :: _ =>
    if (Production.recursiveTails left (s.expanded left)).isEmpty then []
    else [⟨s.grammar.setProductions left (s.expanded left), s.names⟩]

/-- **The names given out in `n` rounds.** -/
def mintings : Nat → Elimination → List Minting
  | 0, _ => []
  | n + 1, s => s.roundMintings ++ mintings n s.round

/-- No name is given out when nothing is pending. -/
theorem roundMintings_of_finished (hpending : s.pending = []) : s.roundMintings = [] := by
  unfold roundMintings
  rw [hpending]

theorem roundMintings_of_tails_eq_nil (hpending : s.pending = left :: rest)
    (htails : Production.recursiveTails left (s.expanded left) = []) : s.roundMintings = [] := by
  unfold roundMintings
  rw [hpending]
  dsimp only
  rw [if_pos (List.isEmpty_iff.mpr htails)]

theorem roundMintings_of_tails_ne_nil (hpending : s.pending = left :: rest)
    (htails : Production.recursiveTails left (s.expanded left) ≠ []) :
    s.roundMintings = [⟨s.grammar.setProductions left (s.expanded left), s.names⟩] := by
  unfold roundMintings
  rw [hpending]
  dsimp only
  rw [if_neg (by rwa [List.isEmpty_iff])]

/-- Expanding the rule whose turn it is adds no rule, so the helper has the name that is given
out then. -/
theorem fresh_expanded (hs : s.Ordered) (hpending : s.pending = left :: rest) :
    s.names.fresh (s.grammar.setProductions left (s.expanded left)) = s.names.fresh s.grammar := by
  refine s.names.fresh_congr ?_
  rw [Grammar.ruleNames_setProductions, if_pos (hs.mem_ruleNames hpending)]

/-- **The rules after a round** are those before it, and the name given out. -/
theorem ruleNames_round (hs : s.Ordered) (hpending : s.pending = left :: rest) :
    s.round.grammar.ruleNames = s.grammar.ruleNames ++ s.roundMintings.map Minting.name := by
  cases round_effect hs hpending with
  | dropped tails_eq _ ruleNames_eq _ =>
    rw [ruleNames_eq, roundMintings_of_tails_eq_nil hpending tails_eq]
    exact (List.append_nil _).symm
  | split tails_ne _ ruleNames_eq _ =>
    rw [ruleNames_eq, roundMintings_of_tails_ne_nil hpending tails_ne, List.map_singleton,
      Minting.name, fresh_expanded hs hpending]
    rfl

/-- **The rules after any number of rounds** are those before, and the names given out. -/
theorem ruleNames_rounds (n : Nat) (hs : s.Ordered) :
    (rounds n s).grammar.ruleNames = s.grammar.ruleNames ++ (mintings n s).map Minting.name := by
  induction n generalizing s with
  | zero => exact (List.append_nil _).symm
  | succ n ih =>
    have hround : s.round.grammar.ruleNames
        = s.grammar.ruleNames ++ s.roundMintings.map Minting.name := by
      cases hpending : s.pending with
      | nil =>
        rw [round_of_finished hpending, roundMintings_of_finished hpending]
        exact (List.append_nil _).symm
      | cons left rest => exact ruleNames_round hs hpending
    rw [rounds, mintings, ih (ordered_round hs), hround, List.map_append, List.append_assoc]

/-- **What a round reports**: the replacements, and then what there is to say of the name given
out, as the grammar is at that moment. -/
theorem roundEvents_eq (hs : s.Ordered) (hpending : s.pending = left :: rest) :
    s.roundEvents
      = s.grammar.substitutionEvents left s.processed (s.grammar.productions left)
        ++ s.roundMintings.flatMap fun m =>
          m.grammar.mintEvents m.name ++ [.directRecursionEliminated left m.name] := by
  unfold roundEvents directEvents
  rw [hpending]
  dsimp only
  refine congrArg _ ?_
  split
  · next htails =>
    rw [roundMintings_of_tails_eq_nil hpending (List.isEmpty_iff.mp htails)]
    rfl
  · next htails =>
    rw [List.isEmpty_iff] at htails
    rw [roundMintings_of_tails_ne_nil hpending htails, List.flatMap_singleton, Minting.name,
      fresh_expanded hs hpending]

/-- When a round asks for a name, its rule has other alternatives, made of what there was. -/
theorem meanwhile_of_mem_roundMintings {m : Minting} (hm : m ∈ s.roundMintings) :
    s.grammar.Meanwhile m.grammar := by
  unfold roundMintings at hm
  split at hm
  · exact absurd hm List.not_mem_nil
  · split at hm
    · exact absurd hm List.not_mem_nil
    · obtain rfl := List.mem_singleton.mp hm
      exact (Grammar.Meanwhile.refl _).setProductions _ fun _ hp _ => uses_of_mem_expanded hp

/-- **What is used after a round** was used before, or is the name given out. -/
theorem uses_or_minted_of_uses_round (hs : s.Ordered) {a : Symbol}
    (ha : s.round.grammar.Uses a) :
    s.grammar.Uses a ∨ ∃ m ∈ s.roundMintings, a = .nonTerminal m.name := by
  cases hpending : s.pending with
  | nil =>
    rw [round_of_finished hpending] at ha
    exact Or.inl ha
  | cons left rest =>
    refine (uses_of_uses_round hs ha).imp id ?_
    rintro ⟨rfl, hhelper⟩
    -- the helper is a new rule, and these are the names given out
    rw [ruleNames_round hs hpending, List.mem_append] at hhelper
    obtain ⟨m, hm, heq⟩ := List.mem_map.mp (hhelper.resolve_left s.helper_not_mem)
    exact ⟨m, hm, congrArg Symbol.nonTerminal heq.symm⟩

/-- **A round adds the name that is given out in it.** -/
theorem extends_round (hs : s.Ordered) (hg : s.grammar.Tidy) :
    s.grammar.Extends s.roundMintings s.round.grammar := by
  cases hpending : s.pending with
  | nil =>
    rw [round_of_finished hpending, roundMintings_of_finished hpending]
    exact Grammar.Extends.refl s.grammar
  | cons left rest =>
    have hleft := hs.mem_ruleNames hpending
    have hnames := ruleNames_round hs hpending
    obtain ⟨start, hstart⟩ := hg.exists_start hleft
    refine ⟨hnames, ?_, (start_round hstart).trans hstart.symm,
      fun _ => uses_or_minted_of_uses_round hs,
      fun m hm => Minting.isNew_of_closed ((meanwhile_of_mem_roundMintings hm).closed hg.closed)⟩
    rw [hnames]
    exact List.head?_append_of_ne_nil _ (List.ne_nil_of_mem hleft)

/-- **So does an elimination that is broken off after any number of rounds.** -/
theorem extends_rounds (n : Nat) (hs : s.Ordered) (hg : s.grammar.Tidy) :
    s.grammar.Extends (mintings n s) (rounds n s).grammar := by
  induction n generalizing s with
  | zero => exact Grammar.Extends.refl s.grammar
  | succ n ih =>
    have hround := extends_round hs hg
    exact hround.trans (ih (ordered_round hs) (hround.tidy hg))

end Elimination

/-! ## Factorings -/

namespace Factoring

variable {g : Grammar} {s : Factoring} {acc : Factoring × List Production} {left : String}
  {members ps : List Production} {groups : List (List Production)}
  {rest : List (String × List Production)}

/-- The name given out for a group, if it is factorable. -/
def groupMinting (acc : Factoring × List Production) (members : List Production) :
    List Minting :=
  if isFactorable members then [⟨acc.1.grammar, acc.1.names⟩] else []

/-- **The names given out for groups** that are taken up one after the other. -/
def groupMintings : Factoring × List Production → List (List Production) → List Minting
  | _, [] => []
  | acc, members :: groups =>
    groupMinting acc members ++ groupMintings (addGroup acc members) groups

/-- The names given out in the next step. -/
def stepMintings (s : Factoring) : List Minting :=
  match s.queue with
  | [] => []
  | (_, ps) :: rest =>
    if (groupByLeading ps).length = ps.length then []
    else groupMintings ({ s with queue := rest }, []) (groupByLeading ps)

/-- **The names given out until the queue is empty.** -/
def mintings (s : Factoring) : List Minting :=
  if _ : s.queue = [] then [] else s.stepMintings ++ mintings s.step
termination_by s.workload
decreasing_by exact workload_step_lt (by assumption)

theorem mintings_of_queue_eq_nil (h : s.queue = []) : s.mintings = [] := by
  rw [mintings, dif_pos h]

theorem mintings_of_queue_ne_nil (h : s.queue ≠ []) :
    s.mintings = s.stepMintings ++ s.step.mintings := by
  rw [mintings, dif_neg h]

/-- **What a group reports** is said of the name given out for it, as the grammar is at that
moment. -/
theorem groupEvents_cons (left : String) (acc : Factoring × List Production)
    (members : List Production) (groups : List (List Production)) :
    groupEvents left acc (members :: groups)
      = (groupMinting acc members).flatMap (fun m => m.grammar.mintEvents m.name
          ++ [.factored (commonPrefix members) members.length left m.name])
        ++ groupEvents left (addGroup acc members) groups := by
  rw [groupEvents]
  refine congrArg (· ++ groupEvents left (addGroup acc members) groups) ?_
  unfold groupMinting
  split
  · exact (List.append_nil _).symm
  · rfl

/-- A group adds the rule of the name given out for it. -/
theorem ruleNames_addGroup (acc : Factoring × List Production) (members : List Production) :
    (addGroup acc members).1.grammar.ruleNames
      = acc.1.grammar.ruleNames ++ (groupMinting acc members).map Minting.name := by
  unfold addGroup groupMinting
  split
  · show (Grammar.setProductions _ _ _).ruleNames = _
    rw [Grammar.ruleNames_setProductions, if_neg (acc.1.names.fresh_not_mem acc.1.grammar)]
    rfl
  · exact (List.append_nil _).symm

theorem ruleNames_foldl_addGroup (groups : List (List Production))
    (acc : Factoring × List Production) :
    (groups.foldl addGroup acc).1.grammar.ruleNames
      = acc.1.grammar.ruleNames ++ (groupMintings acc groups).map Minting.name := by
  induction groups generalizing acc with
  | nil => exact (List.append_nil _).symm
  | cons members groups ih =>
    rw [List.foldl_cons, ih, ruleNames_addGroup, groupMintings, List.map_append,
      List.append_assoc]

/-- **The rules after a step** are those before it, and the names given out. -/
theorem ruleNames_step (hqueue : s.queue = (left, ps) :: rest)
    (hleft : left ∈ s.grammar.ruleNames) :
    s.step.grammar.ruleNames = s.grammar.ruleNames ++ s.stepMintings.map Minting.name := by
  rw [step_eq hqueue]
  unfold factorRule stepMintings
  rw [hqueue]
  dsimp only
  split
  · exact (List.append_nil _).symm
  · have hnames := ruleNames_foldl_addGroup (groupByLeading ps)
      (({ s with queue := rest } : Factoring), [])
    show (Grammar.setProductions _ _ _).ruleNames = _
    rw [Grammar.ruleNames_setProductions, hnames, if_pos (List.mem_append_left _ hleft)]

/-- The names of the helpers that a step adds are the names given out in it. -/
theorem Regrouped.map_fst_added {added : List (String × List Production)} {out : List Production}
    (h : s.Regrouped left ps rest s.step added out) (hqueue : s.queue = (left, ps) :: rest)
    (hleft : left ∈ s.grammar.ruleNames) :
    added.map Prod.fst = s.stepMintings.map Minting.name :=
  List.append_cancel_left (h.ruleNames_eq.symm.trans (ruleNames_step hqueue hleft))

/-- Taking up a group writes a rule that is made of its members. -/
theorem meanwhile_addGroup (h : g.Meanwhile acc.1.grammar)
    (hmembers : ∀ p ∈ members, ∀ a ∈ p.body, g.Uses a) :
    g.Meanwhile (addGroup acc members).1.grammar := by
  unfold addGroup
  split
  · refine h.setProductions _ fun q hq a ha => ?_
    obtain ⟨p, hp, rfl⟩ := List.mem_map.mp hq
    exact hmembers p hp a (Production.mem_body_suffix ha)
  · exact h

/-- When a group asks for a name, the helpers of the groups before have their rules. -/
theorem meanwhile_of_mem_groupMintings (h : g.Meanwhile acc.1.grammar)
    (hgroups : ∀ p ∈ groups.flatten, ∀ a ∈ p.body, g.Uses a) {m : Minting}
    (hm : m ∈ groupMintings acc groups) : g.Meanwhile m.grammar := by
  induction groups generalizing acc with
  | nil => exact absurd hm List.not_mem_nil
  | cons members groups ih =>
    rw [List.flatten_cons, List.forall_mem_append] at hgroups
    rw [groupMintings, List.mem_append] at hm
    rcases hm with hm | hm
    · unfold groupMinting at hm
      split at hm
      · obtain rfl := List.mem_singleton.mp hm
        exact h
      · exact absurd hm List.not_mem_nil
    · exact ih (meanwhile_addGroup h hgroups.1) hgroups.2 hm

theorem meanwhile_of_mem_stepMintings (hs : s.Consistent) {m : Minting}
    (hm : m ∈ s.stepMintings) : s.grammar.Meanwhile m.grammar := by
  unfold stepMintings at hm
  split at hm
  · exact absurd hm List.not_mem_nil
  · next left ps rest hqueue =>
    split at hm
    · exact absurd hm List.not_mem_nil
    · refine meanwhile_of_mem_groupMintings (Grammar.Meanwhile.refl _) (fun p hp a ha => ?_) hm
      have hps : s.grammar.productions left = ps :=
        hs.productions_eq _ (hqueue ▸ List.mem_cons_self)
      rw [(flatten_groupByLeading_perm ps).mem_iff, ← hps] at hp
      exact Grammar.uses_iff.mpr ⟨left, p, hp, ha⟩

/-- **What is used after a rule is regrouped** was used before, or is a new helper. -/
theorem Regrouped.uses {t : Factoring} {added : List (String × List Production)}
    {out : List Production} (h : s.Regrouped left ps rest t added out)
    (hps : s.grammar.productions left = ps) {a : Symbol} (ha : t.grammar.Uses a) :
    s.grammar.Uses a ∨ ∃ helper ∈ added.map Prod.fst, a = .nonTerminal helper := by
  have hgroup : ∀ members ∈ groupByLeading ps, ∀ p ∈ members, a ∈ p.body →
      s.grammar.Uses a := by
    intro members hmembers p hp hap
    have hmem := (flatten_groupByLeading_perm ps).mem_iff.mp
      (List.mem_flatten.mpr ⟨members, hmembers, hp⟩)
    exact Grammar.uses_iff.mpr ⟨left, p, hps ▸ hmem, hap⟩
  obtain ⟨name, p, hp, hap⟩ := Grammar.uses_iff.mp ha
  by_cases hleft : name = left
  · subst hleft
    rw [h.left_eq] at hp
    rcases h.groups.of_mem_out hp with hkept | ⟨members, hmembers, helper, hfactorable, hadded, rfl⟩
    · obtain ⟨members, hmembers, hmem⟩ := List.mem_flatten.mp hkept
      exact Or.inl (hgroup members hmembers p hmem hap)
    · rw [Production.body_push_nonTerminal, List.mem_append, List.mem_singleton] at hap
      rcases hap with hap | rfl
      · -- the shared beginning stands in every member
        obtain ⟨q, hq⟩ := List.exists_mem_of_ne_nil _ (ne_nil_of_isFactorable hfactorable)
        refine Or.inl (hgroup members hmembers q hq ?_)
        rw [← commonPrefix_append_suffix hq]
        exact List.mem_append_left _ hap
      · exact Or.inr ⟨helper, List.mem_map_of_mem hadded, rfl⟩
  · by_cases hnew : name ∈ added.map Prod.fst
    · obtain ⟨e, he, rfl⟩ := List.mem_map.mp hnew
      obtain ⟨members, hmembers, -, hrests, -⟩ := h.groups.of_mem_added he
      rw [h.added_eq e he, hrests] at hp
      obtain ⟨q, hq, rfl⟩ := List.mem_map.mp hp
      exact Or.inl (hgroup members hmembers q hq (Production.mem_body_suffix hap))
    · rw [h.others_eq name hleft hnew] at hp
      exact Or.inl (Grammar.uses_iff.mpr ⟨name, p, hp, hap⟩)

/-- **What is used after a step** was used before, or is one of the names given out. -/
theorem uses_or_minted_of_uses_step (hs : s.Consistent) (hqueue : s.queue = (left, ps) :: rest)
    {a : Symbol} (ha : s.step.grammar.Uses a) :
    s.grammar.Uses a ∨ ∃ m ∈ s.stepMintings, a = .nonTerminal m.name := by
  have hmem : (left, ps) ∈ s.queue := hqueue ▸ List.mem_cons_self
  have hleft := hs.mem_ruleNames _ hmem
  cases step_effect hqueue hleft with
  | unchanged _ _ hgrammar => exact Or.inl (hgrammar ▸ ha)
  | regrouped added out h =>
    refine (h.uses (hs.productions_eq _ hmem) ha).imp id ?_
    rintro ⟨helper, hhelper, rfl⟩
    rw [h.map_fst_added hqueue hleft] at hhelper
    obtain ⟨m, hm, rfl⟩ := List.mem_map.mp hhelper
    exact ⟨m, hm, rfl⟩

/-- **A step adds the names that are given out in it.** -/
theorem extends_step (hs : s.Consistent) (hg : s.grammar.Tidy) (hqueue : s.queue ≠ []) :
    s.grammar.Extends s.stepMintings s.step.grammar := by
  obtain ⟨⟨left, ps⟩, rest, hqueue⟩ := List.exists_cons_of_ne_nil hqueue
  have hleft := hs.mem_ruleNames _ (hqueue ▸ List.mem_cons_self)
  have hnames := ruleNames_step hqueue hleft
  obtain ⟨start, hstart⟩ := hg.exists_start hleft
  refine ⟨hnames, ?_, (start_step hstart).trans hstart.symm,
    fun _ => uses_or_minted_of_uses_step hs hqueue,
    fun m hm => Minting.isNew_of_closed ((meanwhile_of_mem_stepMintings hs hm).closed hg.closed)⟩
  rw [hnames]
  exact List.head?_append_of_ne_nil _ (List.ne_nil_of_mem hleft)

/-- **So does a factoring.** -/
theorem extends_run (hs : s.Consistent) (hg : s.grammar.Tidy) :
    s.grammar.Extends s.mintings s.run.grammar := by
  fun_induction run s with
  | case1 s hqueue =>
    rw [mintings_of_queue_eq_nil hqueue]
    exact Grammar.Extends.refl s.grammar
  | case2 s hqueue ih =>
    have hstep := extends_step hs hg hqueue
    rw [mintings_of_queue_ne_nil hqueue]
    obtain ⟨⟨left, ps⟩, rest, hcons⟩ := List.exists_cons_of_ne_nil hqueue
    exact hstep.trans (ih (consistent_step hs hcons) (hstep.tidy hg))

end Factoring

end GrammarWorkbench
