import GrammarWorkbench.Proofs.LeftFactoring.Step
import Mathlib.Data.List.Perm.Basic
import Mathlib.Logic.Function.Iterate

/-!
# Unfolding the helpers of a factoring

A factoring can be undone: where a helper stands at the end of an alternative, put each of
the helper's own alternatives there, and go on until no helper is left
(`Grammar.unfoldHelpers`). What comes out in the end is said by `Grammar.Unfolds`, which
follows the nesting of the helpers instead of counting rounds; `Unfolds.iterate` joins the
two.

A step of a factoring moves alternatives into new helpers, and unfolding moves them back
(`Regroups.unfolds`). A helper may itself be regrouped later, so what the others unfold to
has to be followed through every step (`Unfolds.transfer`).
-/

namespace GrammarWorkbench

namespace Production

/-- The non-terminal at the end of the alternative, with what stands in front of it. -/
def trailing? (p : Production) : Option (Production × String) :=
  match p.body.getLast? with
  | some (.nonTerminal name) => some (p.take (p.body.length - 1), name)
  | _ => none

/-- The alternative mentions nothing but rules of `g`. -/
def Plain (g : Grammar) (p : Production) : Prop :=
  ∀ name, Symbol.nonTerminal name ∈ p.body → name ∈ g.ruleNames

variable {g : Grammar} {p q : Production} {name : String}

theorem trailing?_push (q : Production) (name : String) :
    (q.push (.nonTerminal name)).trailing? = some (q, name) := by
  unfold trailing?
  rw [body_push_nonTerminal, List.getLast?_concat]
  refine congrArg some (Prod.ext (ext ?_) rfl)
  rw [body_take, body_push_nonTerminal, List.length_append, List.length_singleton,
    Nat.add_sub_cancel]
  exact List.take_left

theorem mem_body_of_trailing? (h : p.trailing? = some (q, name)) :
    Symbol.nonTerminal name ∈ p.body := by
  unfold trailing? at h
  split at h
  · next name' hlast =>
    obtain ⟨_, rfl⟩ := Prod.mk.inj (Option.some.inj h)
    exact List.mem_of_getLast? hlast
  · exact absurd h (Option.some_ne_none _).symm

theorem Plain.append (hp : p.Plain g) (hq : q.Plain g) : (p ++ q).Plain g := by
  intro name hname
  rw [body_append, List.mem_append] at hname
  exact hname.elim (hp name) (hq name)

/-- The two parts of a plain alternative are plain. -/
theorem Plain.of_append (h : (p ++ q).Plain g) : p.Plain g ∧ q.Plain g :=
  ⟨fun name hname => h name (List.mem_append_left _ hname),
    fun name hname => h name (List.mem_append_right _ hname)⟩

end Production

/-- The alternatives of a closed grammar are plain. -/
theorem Grammar.Closed.plain {g : Grammar} (hg : g.Closed) {left : String} {p : Production}
    (hp : p ∈ g.productions left) : p.Plain g := fun name hname =>
  hg name (Grammar.mentions_iff.mpr ⟨left, p, hp, hname⟩)

/-- How often alternatives mention a name. -/
def mentionCount (ps : List Production) (name : String) : Nat :=
  (ps.flatMap Production.body).count (.nonTerminal name)

theorem mentionCount_append (ps qs : List Production) (name : String) :
    mentionCount (ps ++ qs) name = mentionCount ps name + mentionCount qs name := by
  unfold mentionCount
  rw [List.flatMap_append, List.count_append]

theorem mentionCount_perm {ps qs : List Production} (h : ps.Perm qs) (name : String) :
    mentionCount ps name = mentionCount qs name :=
  (h.flatMap_right Production.body).count_eq _

theorem mentionCount_eq_zero {ps : List Production} {name : String}
    (h : ∀ p ∈ ps, Symbol.nonTerminal name ∉ p.body) : mentionCount ps name = 0 := by
  refine List.count_eq_zero.mpr (fun hmem => ?_)
  obtain ⟨p, hp, hname⟩ := List.mem_flatMap.mp hmem
  exact h p hp hname

/-! ## Unfolding -/

namespace Grammar

/-- **A rule of the result that the grammar did not have.** -/
def IsHelper (g after : Grammar) (name : String) : Prop :=
  name ∈ after.ruleNames ∧ name ∉ g.ruleNames

instance (g after : Grammar) (name : String) : Decidable (g.IsHelper after name) :=
  inferInstanceAs (Decidable (_ ∧ _))

/-- **One round of unfolding**: a helper at the end of an alternative is replaced by each
of its own alternatives. -/
def unfoldHelpers (g after : Grammar) (ps : List Production) : List Production :=
  ps.flatMap fun p => match p.trailing? with
    | some (q, name) =>
      if g.IsHelper after name then (after.productions name).map (q ++ ·) else [p]
    | none => [p]

/-- **What alternatives unfold to** when no helper is left. -/
inductive Unfolds (g after : Grammar) : List Production → List Production → Prop where
  /-- Nothing unfolds to nothing. -/
  | nil : Unfolds g after [] []
  /-- An alternative that only mentions rules of the grammar stays. -/
  | keep {p : Production} {ps rs : List Production} (hp : p.Plain g)
      (hps : Unfolds g after ps rs) : Unfolds g after (p :: ps) (p :: rs)
  /-- A helper gives way to what its alternatives unfold to. -/
  | unfold {q : Production} {helper : String} {ps rs us : List Production} (hq : q.Plain g)
      (hhelper : g.IsHelper after helper)
      (hus : Unfolds g after ((after.productions helper).map (q ++ ·)) us)
      (hps : Unfolds g after ps rs) :
      Unfolds g after (q.push (.nonTerminal helper) :: ps) (us ++ rs)

variable {g before after : Grammar} {p q : Production} {ps qs rs us : List Production}
  {name : String}

theorem unfoldHelpers_append (g after : Grammar) (ps qs : List Production) :
    g.unfoldHelpers after (ps ++ qs) = g.unfoldHelpers after ps ++ g.unfoldHelpers after qs :=
  List.flatMap_append

theorem iterate_unfoldHelpers_append (g after : Grammar) (n : Nat) (ps qs : List Production) :
    (g.unfoldHelpers after)^[n] (ps ++ qs)
      = (g.unfoldHelpers after)^[n] ps ++ (g.unfoldHelpers after)^[n] qs := by
  induction n generalizing ps qs with
  | zero => rfl
  | succ n ih =>
    rw [Function.iterate_succ_apply, unfoldHelpers_append, ih]
    rfl

theorem unfoldHelpers_of_plain (hp : p.Plain g) : g.unfoldHelpers after [p] = [p] := by
  unfold unfoldHelpers
  rw [List.flatMap_singleton]
  split
  · next q name h =>
    exact if_neg (fun hhelper => hhelper.2 (hp name (Production.mem_body_of_trailing? h)))
  · rfl

theorem unfoldHelpers_push (h : g.IsHelper after name) :
    g.unfoldHelpers after [q.push (.nonTerminal name)]
      = (after.productions name).map (q ++ ·) := by
  unfold unfoldHelpers
  rw [List.flatMap_singleton, Production.trailing?_push]
  exact if_pos h

namespace Unfolds

/-- **Round by round the same comes out**, and once it has come out it stays. -/
theorem iterate (h : g.Unfolds after ps rs) :
    ∃ rounds, ∀ n ≥ rounds, (g.unfoldHelpers after)^[n] ps = rs := by
  induction h with
  | nil => exact ⟨0, fun n _ => Function.iterate_fixed rfl n⟩
  | @keep p ps rs hp _ ih =>
    obtain ⟨rounds, hrounds⟩ := ih
    refine ⟨rounds, fun n hn => ?_⟩
    rw [← List.singleton_append, iterate_unfoldHelpers_append, hrounds n hn,
      Function.iterate_fixed (unfoldHelpers_of_plain hp)]
    rfl
  | @unfold q helper ps rs us _ hhelper _ _ ihus ihps =>
    obtain ⟨rounds, hrounds⟩ := ihus
    obtain ⟨rounds', hrounds'⟩ := ihps
    -- one round opens the helper, and its alternatives take theirs after it
    refine ⟨max rounds rounds' + 1, fun n hn => ?_⟩
    obtain ⟨m, rfl⟩ := Nat.exists_eq_add_of_le' (Nat.le_of_add_left_le hn)
    rw [← List.singleton_append, iterate_unfoldHelpers_append, hrounds' _ (by omega),
      Function.iterate_succ_apply, unfoldHelpers_push hhelper, hrounds m (by omega)]

/-- What alternatives unfold to is determined by them. -/
theorem functional (h : g.Unfolds after ps rs) (h' : g.Unfolds after ps us) : rs = us := by
  obtain ⟨rounds, hrounds⟩ := h.iterate
  obtain ⟨rounds', hrounds'⟩ := h'.iterate
  rw [← hrounds (max rounds rounds') (Nat.le_max_left _ _),
    ← hrounds' (max rounds rounds') (Nat.le_max_right _ _)]

theorem of_plain (h : ∀ p ∈ ps, p.Plain g) : g.Unfolds after ps ps := by
  induction ps with
  | nil => exact nil
  | cons p ps ih =>
    exact keep (h p List.mem_cons_self) (ih (fun q hq => h q (List.mem_cons_of_mem _ hq)))

theorem append (h : g.Unfolds after ps rs) (h' : g.Unfolds after qs us) :
    g.Unfolds after (ps ++ qs) (rs ++ us) := by
  induction h with
  | nil => exact h'
  | keep hp _ ih => exact keep hp ih
  | unfold hq hhelper hus _ _ ih =>
    rw [List.append_assoc]
    exact unfold hq hhelper hus ih

/-- **The same in front of all alternatives stays in front of what they unfold to.** -/
theorem map_append (hq : q.Plain g) (h : g.Unfolds after ps rs) :
    g.Unfolds after (ps.map (q ++ ·)) (rs.map (q ++ ·)) := by
  induction h with
  | nil => exact nil
  | keep hp _ ih => exact keep (hq.append hp) ih
  | @unfold r helper ps rs us hr hhelper _ _ ihus ih =>
    rw [List.map_cons, List.map_append, Production.append_push]
    refine unfold (hq.append hr) hhelper ?_ ih
    rw [List.map_map] at ihus
    refine (congrArg (g.Unfolds after · _) (List.map_congr_left fun p _ => ?_)).mp ihus
    exact (Production.append_assoc q r p).symm

/-- A helper stands at the end of an alternative, or nowhere in it. -/
theorem shape (h : g.Unfolds after ps rs) (hp : p ∈ ps) :
    p.Plain g ∨ ∃ (q : Production) (helper : String), q.Plain g ∧ g.IsHelper after helper
      ∧ p = q.push (.nonTerminal helper) := by
  induction h with
  | nil => exact absurd hp List.not_mem_nil
  | keep hplain _ ih =>
    cases List.mem_cons.mp hp with
    | inl heq => exact Or.inl (heq ▸ hplain)
    | inr hp => exact ih hp
  | unfold hq hhelper _ _ _ ih =>
    cases List.mem_cons.mp hp with
    | inl heq => exact Or.inr ⟨_, _, hq, hhelper, heq⟩
    | inr hp => exact ih hp

/-- **Unfolding survives a change of the helpers**, if every helper keeps its alternatives
or, being plain before, unfolds to a rearrangement of them. -/
theorem transfer (h : g.Unfolds before ps rs)
    (hhelper : ∀ name, g.IsHelper before name → g.IsHelper after name)
    (hsame : ∀ name, g.IsHelper before name →
      after.productions name = before.productions name
        ∨ (∀ p ∈ before.productions name, p.Plain g)
          ∧ ∃ us, g.Unfolds after (after.productions name) us
            ∧ us.Perm (before.productions name)) :
    ∃ rs', g.Unfolds after ps rs' ∧ rs'.Perm rs := by
  induction h with
  | nil => exact ⟨[], nil, List.Perm.nil⟩
  | keep hp _ ih =>
    obtain ⟨rs', hrs', hperm⟩ := ih
    exact ⟨_, keep hp hrs', hperm.cons _⟩
  | @unfold q name ps rs us hq hname hus _ ihus ihps =>
    obtain ⟨rs', hrs', hperm⟩ := ihps
    cases hsame name hname with
    | inl heq =>
      obtain ⟨us', hus', hperm'⟩ := ihus
      exact ⟨us' ++ rs', unfold hq (hhelper name hname) (heq ▸ hus') hrs', hperm'.append hperm⟩
    | inr hnew =>
      -- the helper was plain, so it unfolded to its own alternatives
      obtain ⟨hplain, us', hus', hperm'⟩ := hnew
      have hown : us = (before.productions name).map (q ++ ·) := by
        refine hus.functional (of_plain (fun p hp => ?_))
        obtain ⟨p', hp', rfl⟩ := List.mem_map.mp hp
        exact hq.append (hplain p' hp')
      refine ⟨us'.map (q ++ ·) ++ rs', unfold hq (hhelper name hname) (hus'.map_append hq) hrs',
        (List.Perm.trans (hperm'.map _) (hown ▸ List.Perm.refl _)).append hperm⟩

end Unfolds

end Grammar

/-! ## Regrouped alternatives -/

namespace Factoring

variable {g after : Grammar} {members out : List Production}
  {groups : List (List Production)} {added : List (String × List Production)} {name : String}

/-- What is written for a factorable group of plain alternatives is plain. -/
theorem commonPrefix_plain (hfactorable : isFactorable members = true)
    (h : ∀ p ∈ members, p.Plain g) : (commonPrefix members).Plain g := by
  cases members with
  | nil => exact absurd hfactorable (by decide)
  | cons p members =>
    have hmem : p ∈ p :: members := List.mem_cons_self
    have hplain := h p List.mem_cons_self
    rw [← commonPrefix_append_suffix hmem] at hplain
    exact hplain.of_append.1

theorem rests_plain (h : ∀ p ∈ members, p.Plain g) : ∀ p ∈ rests members, p.Plain g := by
  intro q hq
  obtain ⟨p, hp, rfl⟩ := List.mem_map.mp hq
  exact fun name hname => h p hp name (Production.mem_body_suffix hname)

namespace Regroups

/-- **Unfolding undoes regrouping.** -/
theorem unfolds (h : Regroups groups added out) (hplain : ∀ p ∈ groups.flatten, p.Plain g)
    (hadded : ∀ e ∈ added, g.IsHelper after e.1 ∧ after.productions e.1 = e.2) :
    g.Unfolds after out groups.flatten := by
  induction h with
  | nil => exact Grammar.Unfolds.nil
  | keep _ _ ih =>
    rw [List.flatten_cons, List.forall_mem_append] at hplain
    rw [List.flatten_cons]
    exact (Grammar.Unfolds.of_plain hplain.1).append (ih hplain.2 hadded)
  | factor helper hmembers _ ih =>
    rw [List.flatten_cons, List.forall_mem_append] at hplain
    obtain ⟨⟨hhelper, hrests⟩, hadded⟩ := List.forall_mem_cons.mp hadded
    rw [List.flatten_cons]
    refine Grammar.Unfolds.unfold (commonPrefix_plain hmembers hplain.1) hhelper ?_
      (ih hplain.2 hadded)
    rw [hrests, map_append_rests]
    exact Grammar.Unfolds.of_plain hplain.1

/-- Helpers of plain alternatives have plain alternatives. -/
theorem added_plain (h : Regroups groups added out)
    (hplain : ∀ p ∈ groups.flatten, p.Plain g) :
    ∀ e ∈ added, ∀ p ∈ e.2, p.Plain g := by
  induction h with
  | nil => exact fun e he => absurd he List.not_mem_nil
  | keep _ _ ih =>
    rw [List.flatten_cons, List.forall_mem_append] at hplain
    exact ih hplain.2
  | factor helper _ _ ih =>
    rw [List.flatten_cons, List.forall_mem_append] at hplain
    exact List.forall_mem_cons.mpr ⟨rests_plain hplain.1, ih hplain.2⟩

/-- **Every helper is mentioned once in what its rule is left with.** -/
theorem mentionCount_eq (h : Regroups groups added out)
    (hplain : ∀ p ∈ groups.flatten, p.Plain g) (hname : name ∉ g.ruleNames) :
    mentionCount out name = (added.map Prod.fst).count name := by
  induction h with
  | nil => rfl
  | keep _ _ ih =>
    rw [List.flatten_cons, List.forall_mem_append] at hplain
    rw [mentionCount_append, ih hplain.2,
      mentionCount_eq_zero (fun p hp hmem => hname (hplain.1 p hp name hmem)), Nat.zero_add]
  | @factor members _ _ _ helper hmembers _ ih =>
    rw [List.flatten_cons, List.forall_mem_append] at hplain
    have hshared : Symbol.nonTerminal name ∉ (commonPrefix members).body := fun hmem =>
      hname (commonPrefix_plain hmembers hplain.1 name hmem)
    rw [← List.singleton_append, mentionCount_append, ih hplain.2, List.map_cons,
      List.count_cons, Nat.add_comm]
    refine congrArg _ ?_
    unfold mentionCount
    rw [List.flatMap_singleton, Production.body_push_nonTerminal, List.count_append,
      List.count_eq_zero.mpr hshared, List.count_singleton]
    simp

end Regroups

end Factoring

end GrammarWorkbench
