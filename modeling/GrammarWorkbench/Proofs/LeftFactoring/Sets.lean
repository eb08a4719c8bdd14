import GrammarWorkbench.Proofs.FirstFollow.Passes
import GrammarWorkbench.Proofs.LeftFactoring.Language

/-!
# A factoring keeps FIRST and FOLLOW

The sets are told by derivations of forms, not of texts alone, and so nothing follows from the
languages: a name without any text has its sets, too. What a step of a factoring does to
derivations is said here once (`Grammar.SplitInto`). A helper can be opened, that is, replaced
by any of its alternatives, and these mention no helper; with its helpers opened, every
alternative of an old rule is one that the rule had before.

Derivations are then compared in both directions. A derivation of the old grammar is one of
the new grammar with more steps (`SplitInto.derives_of_derives`). A derivation of the new
grammar leads to a form with helpers in it, and however these are opened, the old grammar
derives the outcome (`SplitInto.derives_of_yields`). Opening moves no other symbol, so what
stands first in a form, and what stands behind an old name, is the same in both grammars
(`SplitInto.begins_iff`, `SplitInto.follows_iff`).
-/

namespace GrammarWorkbench

namespace Grammar

/-- **What a name of the new grammar can be opened to**: a helper to each of its alternatives,
and any other name to itself alone. -/
def Openings (g after : Grammar) : Languages := fun name w =>
  (g.IsHelper after name ∧ ∃ p ∈ after.productions name, w = p.body)
    ∨ ¬ g.IsHelper after name ∧ w = [.nonTerminal name]

/-- **The rules of `g` are split into those of `after`**, and helpers hold the pieces. -/
structure SplitInto (g after : Grammar) : Prop where
  /-- No rule is lost. -/
  subset : ∀ name ∈ g.ruleNames, name ∈ after.ruleNames
  /-- An alternative can be put together from its pieces. -/
  derives : ∀ name, ∀ p ∈ g.productions name, after.Derives [.nonTerminal name] p.body
  /-- Nothing else can be put together. -/
  opens : ∀ name ∈ g.ruleNames, ∀ p ∈ after.productions name, ∀ w,
    Yields (g.Openings after) p.body w → ∃ q ∈ g.productions name, w = q.body
  /-- The pieces in helpers mention no helper. -/
  plain : ∀ helper, g.IsHelper after helper → ∀ p ∈ after.productions helper, p.Plain g
  /-- Every helper can be opened. -/
  stated : ∀ helper, g.IsHelper after helper → after.productions helper ≠ []
  /-- Every helper comes up in a derivation from a rule of `g`. -/
  reached : ∀ helper, g.IsHelper after helper → ∃ left ∈ g.ruleNames, after.Reaches left helper

variable {g after : Grammar} {name start : String} {u v w : List Symbol} {p : Production}
  {a : Symbol}

theorem openings_of_isHelper (h : g.IsHelper after name) :
    g.Openings after name w ↔ ∃ p ∈ after.productions name, w = p.body := by
  unfold Openings
  simp [h]

theorem openings_of_not_isHelper (h : ¬ g.IsHelper after name) :
    g.Openings after name w ↔ w = [.nonTerminal name] := by
  unfold Openings
  simp [h]

/-- A rule of `g` is not opened. -/
theorem openings_of_mem (h : name ∈ g.ruleNames) :
    g.Openings after name w ↔ w = [.nonTerminal name] :=
  openings_of_not_isHelper (fun hhelper => hhelper.2 h)

/-- **A form without helpers opens to itself** and to nothing else. -/
theorem yields_openings_iff_of_plain
    (h : ∀ name, Symbol.nonTerminal name ∈ u → name ∈ g.ruleNames) :
    Yields (g.Openings after) u w ↔ w = u := by
  induction u generalizing w with
  | nil => exact Yields.nil_iff
  | cons s u ih =>
    have hrest : ∀ {w}, Yields (g.Openings after) u w ↔ w = u :=
      ih fun name hname => h name (List.mem_cons_of_mem _ hname)
    constructor
    · intro hw
      cases hw with
      | keep hs hw => rw [hrest.mp hw]
      | replace ht hw =>
        rw [(openings_of_mem (h _ List.mem_cons_self)).mp ht, hrest.mp hw]
        rfl
    · rintro rfl
      by_cases hs : ∃ name, s = .nonTerminal name
      · obtain ⟨name, rfl⟩ := hs
        have hself : g.Openings after name [.nonTerminal name] :=
          (openings_of_mem (h name List.mem_cons_self)).mpr rfl
        exact Yields.replace hself (hrest.mpr rfl)
      · exact Yields.keep (fun name hname => hs ⟨name, hname⟩) (hrest.mpr rfl)

namespace SplitInto

/-- **Every form can be opened.** -/
theorem exists_yields (h : g.SplitInto after) (u : List Symbol) :
    ∃ w, Yields (g.Openings after) u w := by
  induction u with
  | nil => exact ⟨[], Yields.nil⟩
  | cons s u ih =>
    obtain ⟨w, hw⟩ := ih
    by_cases hs : ∃ name, s = .nonTerminal name
    · obtain ⟨name, rfl⟩ := hs
      by_cases hname : g.IsHelper after name
      · obtain ⟨p, hp⟩ := List.exists_mem_of_ne_nil _ (h.stated name hname)
        exact ⟨_, Yields.replace ((openings_of_isHelper hname).mpr ⟨p, hp, rfl⟩) hw⟩
      · exact ⟨_, Yields.replace ((openings_of_not_isHelper hname).mpr rfl) hw⟩
    · exact ⟨_, Yields.keep (fun name hname => hs ⟨name, hname⟩) hw⟩

/-! ## Derivations -/

/-- **What the old grammar derives, the new one derives.** -/
theorem derives_of_derives (h : g.SplitInto after) (hder : g.Derives u v) :
    after.Derives u v := by
  induction hder with
  | refl => exact Derives.refl _
  | tail _ hstep ih =>
    obtain ⟨left, name, right, p, hp⟩ := hstep
    have hname := ((h.derives name p hp).append_left left).append_right right
    rw [List.append_assoc] at hname
    exact ih.trans hname

/-- **A step of the new grammar, once all helpers are opened**, is one of the old grammar or
none at all. -/
theorem exists_of_step (h : g.SplitInto after) (hstep : after.Step u v)
    (hw : Yields (g.Openings after) v w) :
    ∃ u', Yields (g.Openings after) u u' ∧ g.Derives u' w := by
  obtain ⟨left, name, right, p, hp⟩ := hstep
  obtain ⟨w₁₂, w₃, rfl, hw₁₂, hw₃⟩ := Yields.append_iff.mp hw
  obtain ⟨w₁, w₂, rfl, hw₁, hw₂⟩ := Yields.append_iff.mp hw₁₂
  by_cases hname : g.IsHelper after name
  · -- the alternative that the step puts in place is one that the helper can be opened to
    obtain rfl := (yields_openings_iff_of_plain (h.plain name hname p hp)).mp hw₂
    have hopened := (openings_of_isHelper hname).mpr ⟨p, hp, rfl⟩
    refine ⟨_, hw₁.append (Yields.replace hopened hw₃), ?_⟩
    rw [List.append_assoc]
    exact Derives.refl _
  · have hrule : name ∈ g.ruleNames := by
      by_contra hnew
      exact hname ⟨mem_ruleNames_of_mem hp, hnew⟩
    obtain ⟨q, hq, rfl⟩ := h.opens name hrule p hp w₂ hw₂
    have hself := (openings_of_not_isHelper hname).mpr rfl
    refine ⟨_, hw₁.append (Yields.replace hself hw₃), ?_⟩
    exact Derives.single (Step.replace w₁ name w₃ q hq)

/-- **A derivation of the new grammar, once all helpers are opened.** -/
theorem exists_of_derives (h : g.SplitInto after) (hder : after.Derives u v)
    (hw : Yields (g.Openings after) v w) :
    ∃ u', Yields (g.Openings after) u u' ∧ g.Derives u' w := by
  induction hder generalizing w with
  | refl => exact ⟨w, hw, Derives.refl _⟩
  | tail _ hstep ih =>
    obtain ⟨v', hv', hder'⟩ := h.exists_of_step hstep hw
    obtain ⟨u', hu', hder⟩ := ih hv'
    exact ⟨u', hu', hder.trans hder'⟩

/-- **However the form that a rule derives is opened**, the rule derived the outcome before. -/
theorem derives_of_yields (h : g.SplitInto after) (hname : name ∈ g.ruleNames)
    (hder : after.Derives [.nonTerminal name] v) (hw : Yields (g.Openings after) v w) :
    g.Derives [.nonTerminal name] w := by
  obtain ⟨u, hu, huw⟩ := h.exists_of_derives hder hw
  obtain rfl := (openings_of_mem hname).mp (Yields.nonTerminal_iff.mp hu)
  exact huw

/-! ## Beginnings and followers -/

/-- A symbol that stands first in a derived form stood there before. -/
theorem derives_cons (h : g.SplitInto after) (hname : name ∈ g.ruleNames)
    (ha : ∀ name', a ≠ .nonTerminal name')
    (hder : ∃ rest, after.Derives [.nonTerminal name] (a :: rest)) :
    ∃ rest, g.Derives [.nonTerminal name] (a :: rest) := by
  obtain ⟨rest, hder⟩ := hder
  obtain ⟨rest', hrest'⟩ := h.exists_yields rest
  exact ⟨rest', h.derives_of_yields hname hder (Yields.keep ha hrest')⟩

/-- **The texts of a rule begin as before.** -/
theorem begins_iff (h : g.SplitInto after) (hname : name ∈ g.ruleNames) :
    after.Begins [.nonTerminal name] a ↔ g.Begins [.nonTerminal name] a := by
  cases a with
  | nonTerminal _ => exact Iff.rfl
  | epsilon =>
    exact ⟨fun hder => h.derives_of_yields hname hder Yields.nil, h.derives_of_derives⟩
  | terminal text =>
    exact ⟨h.derives_cons hname (by simp), Exists.imp fun _ => h.derives_of_derives⟩
  | endMark =>
    exact ⟨h.derives_cons hname (by simp), Exists.imp fun _ => h.derives_of_derives⟩

/-- What a rule or a helper derives comes up in a derivation from a rule of `g`. -/
theorem exists_derives (h : g.SplitInto after) (hname : name ∈ after.ruleNames)
    (hder : after.Derives [.nonTerminal name] w) :
    ∃ left ∈ g.ruleNames, ∃ x y, after.Derives [.nonTerminal left] (x ++ (w ++ y)) := by
  by_cases hrule : name ∈ g.ruleNames
  · exact ⟨name, hrule, [], [], by rwa [List.nil_append, List.append_nil]⟩
  · obtain ⟨left, hleft, x, y, hxy⟩ := h.reached name ⟨hname, hrule⟩
    exact ⟨left, hleft, x, y, hxy.trans ((hder.append_right y).append_left x)⟩

/-- **What follows a rule is what followed it before.** -/
theorem follows_iff (h : g.SplitInto after) (hstart : start ∈ g.ruleNames)
    (hname : name ∈ g.ruleNames) :
    after.Follows start name a ↔ g.Follows start name a := by
  have hopen : ∀ {w}, g.Openings after name w ↔ w = [.nonTerminal name] := openings_of_mem hname
  refine and_congr_right (fun hinput => or_congr ⟨?_, ?_⟩ (and_congr_right fun _ => ⟨?_, ?_⟩))
  · rintro ⟨left, hleft, before, behind, hder⟩
    have ha : ∀ name', a ≠ .nonTerminal name' := by
      rcases hinput with ⟨text, rfl⟩ | rfl <;> simp
    obtain ⟨root, hroot, x, y, hder⟩ := h.exists_derives hleft hder
    -- helpers are opened on both sides, the name and the symbol behind it stay
    obtain ⟨x', hx'⟩ := h.exists_yields (x ++ before)
    obtain ⟨y', hy'⟩ := h.exists_yields (behind ++ y)
    refine ⟨root, hroot, x', y', h.derives_of_yields hroot hder ?_⟩
    have hmiddle := Yields.replace (hopen.mpr rfl) (Yields.keep ha hy')
    simpa [List.append_assoc] using hx'.append hmiddle
  · rintro ⟨left, hleft, before, behind, hder⟩
    exact ⟨left, h.subset left hleft, before, behind, h.derives_of_derives hder⟩
  · rintro ⟨-, before, hder⟩
    obtain ⟨before', hbefore'⟩ := h.exists_yields before
    refine ⟨hstart, before', h.derives_of_yields hstart hder (hbefore'.append ?_)⟩
    exact Yields.nonTerminal_iff.mpr (hopen.mpr rfl)
  · rintro ⟨-, before, hder⟩
    exact ⟨h.subset start hstart, before, h.derives_of_derives hder⟩

end SplitInto

end Grammar

/-! ## A step of a factoring -/

namespace Factoring

variable {g : Grammar} {s t : Factoring} {left name start : String} {ps out : List Production}
  {rest added : List (String × List Production)} {p : Production} {w : List Symbol}

namespace Regrouped

variable (h : s.Regrouped left ps rest t added out)

include h

/-- The helpers of a step are the rules that it adds. -/
theorem isHelper_iff : s.grammar.IsHelper t.grammar name ↔ name ∈ added.map Prod.fst := by
  unfold Grammar.IsHelper
  rw [h.ruleNames_eq, List.mem_append]
  have hfresh := (new_of_ruleNames_eq h.ruleNames_eq).2 name
  exact ⟨fun hname => hname.1.resolve_left hname.2, fun hname => ⟨Or.inr hname, hfresh hname⟩⟩

/-- The helper of a group can be opened to what the members have behind their shared
beginning. -/
theorem openings_helper_iff {members : List Production} {helper : String}
    (hadded : (helper, rests members) ∈ added) :
    s.grammar.Openings t.grammar helper w ↔ ∃ p ∈ rests members, w = p.body := by
  rw [Grammar.openings_of_isHelper (h.isHelper_iff.mpr (List.mem_map_of_mem hadded)),
    h.added_eq _ hadded]

/-- **An alternative of the rule is put together from the pieces in `out`**, in one step or
two. -/
theorem derivesPlus_of_mem (hp : p ∈ ps) :
    t.grammar.DerivesPlus [.nonTerminal left] p.body := by
  obtain ⟨members, hmembers, hmem⟩ :=
    List.mem_flatten.mp ((flatten_groupByLeading_perm ps).mem_iff.mpr hp)
  cases h.groups.of_mem_groups hmembers with
  | inl hkept => exact Grammar.DerivesPlus.of_mem (h.left_eq.symm ▸ hkept p hmem)
  | inr hfactored =>
    obtain ⟨helper, hadded, hout⟩ := hfactored
    have hrest : p.suffix (commonPrefixLength members) ∈ t.grammar.productions helper := by
      rw [h.added_eq _ hadded]
      exact List.mem_map_of_mem hmem
    have hfirst := Grammar.DerivesPlus.of_mem (h.left_eq.symm ▸ hout)
    rw [Production.body_push_nonTerminal] at hfirst
    rw [← commonPrefix_append_suffix hmem, Production.body_append]
    exact hfirst.trans ((Grammar.Derives.of_mem hrest).append_left _)

theorem derives_of_mem (hp : p ∈ ps) : t.grammar.Derives [.nonTerminal left] p.body :=
  (h.derivesPlus_of_mem hp).derives

/-- **With its helper opened, an alternative in `out` is one that the rule had.** -/
theorem mem_of_yields (hplain : ∀ p ∈ (groupByLeading ps).flatten, p.Plain s.grammar)
    (hp : p ∈ out) (hw : Yields (s.grammar.Openings t.grammar) p.body w) :
    ∃ q ∈ ps, w = q.body := by
  have hmem : ∀ {q}, q ∈ (groupByLeading ps).flatten → q ∈ ps :=
    (flatten_groupByLeading_perm ps).mem_iff.mp
  rcases h.groups.of_mem_out hp with hkept | ⟨members, hmembers, helper, hfactorable, hadded, rfl⟩
  · exact ⟨p, hmem hkept, (Grammar.yields_openings_iff_of_plain (hplain p hkept)).mp hw⟩
  · have hgroup : ∀ q ∈ members, q ∈ (groupByLeading ps).flatten := fun q hq =>
      List.mem_flatten.mpr ⟨members, hmembers, hq⟩
    have hshared : (commonPrefix members).Plain s.grammar :=
      commonPrefix_plain hfactorable fun q hq => hplain q (hgroup q hq)
    obtain ⟨u, v, rfl, hu, hv⟩ := Yields.push_iff.mp hw
    obtain ⟨r, hr, rfl⟩ := (h.openings_helper_iff hadded).mp hv
    obtain ⟨q, hq, rfl⟩ := List.mem_map.mp hr
    refine ⟨q, hmem (hgroup q hq), ?_⟩
    rw [(Grammar.yields_openings_iff_of_plain hshared).mp hu, ← Production.body_append,
      commonPrefix_append_suffix hq]

/-- Every helper was made for a group. -/
theorem exists_group {helper : String} (hhelper : s.grammar.IsHelper t.grammar helper) :
    ∃ members ∈ groupByLeading ps, isFactorable members = true
      ∧ t.grammar.productions helper = rests members
      ∧ (commonPrefix members).push (.nonTerminal helper) ∈ t.grammar.productions left := by
  obtain ⟨e, he, rfl⟩ := List.mem_map.mp (h.isHelper_iff.mp hhelper)
  obtain ⟨members, hmembers, hfactorable, hrests, hout⟩ := h.groups.of_mem_added he
  exact ⟨members, hmembers, hfactorable, (h.added_eq e he).trans hrests, h.left_eq.symm ▸ hout⟩

/-- **Regrouping a rule splits it.** -/
theorem splitInto (hclosed : s.grammar.Closed) (hleft : left ∈ s.grammar.ruleNames)
    (hps : s.grammar.productions left = ps) : s.grammar.SplitInto t.grammar := by
  have hplain : ∀ p ∈ (groupByLeading ps).flatten, p.Plain s.grammar := fun p hp =>
    hclosed.plain (hps.symm ▸ (flatten_groupByLeading_perm ps).mem_iff.mp hp)
  refine ⟨fun name hname => ?_, fun name p hp => ?_, fun name hname p hp w hw => ?_,
    fun helper hhelper => ?_, fun helper hhelper => ?_, fun helper hhelper => ?_⟩
  · rw [h.ruleNames_eq]
    exact List.mem_append_left _ hname
  · by_cases hname : name = left
    · subst hname
      exact h.derives_of_mem (hps ▸ hp)
    · refine Grammar.Derives.of_mem ?_
      rwa [h.productions_eq_of_mem (Grammar.mem_ruleNames_of_mem hp) hname]
  · by_cases hsame : name = left
    · subst hsame
      rw [h.left_eq] at hp
      rw [hps]
      exact h.mem_of_yields hplain hp hw
    · rw [h.productions_eq_of_mem hname hsame] at hp
      exact ⟨p, hp, (Grammar.yields_openings_iff_of_plain (hclosed.plain hp)).mp hw⟩
  · obtain ⟨members, hmembers, -, hrests, -⟩ := h.exists_group hhelper
    rw [hrests]
    exact rests_plain fun p hp => hplain p (List.mem_flatten.mpr ⟨members, hmembers, hp⟩)
  · obtain ⟨members, -, hfactorable, hrests, -⟩ := h.exists_group hhelper
    rw [hrests]
    exact fun hnil => ne_nil_of_isFactorable hfactorable (List.map_eq_nil_iff.mp hnil)
  · obtain ⟨members, -, -, -, hout⟩ := h.exists_group hhelper
    have hder := Grammar.Derives.of_mem hout
    rw [Production.body_push_nonTerminal] at hder
    exact ⟨left, hleft, _, [], hder⟩

end Regrouped

/-! ## Whole runs -/

/-- **What the rules of `g` begin with and what follows them** is the same in both
grammars. -/
def SameShown (g after : Grammar) (start : String) : Prop :=
  ∀ name ∈ g.ruleNames, ∀ a,
    (after.Begins [.nonTerminal name] a ↔ g.Begins [.nonTerminal name] a)
      ∧ (after.Follows start name a ↔ g.Follows start name a)

/-- **A step keeps what is shown.** -/
theorem sameShown_step (hs : s.Refactors g) (hstart : start ∈ g.ruleNames)
    (h : SameShown g s.grammar start) (hqueue : s.queue ≠ []) :
    SameShown g s.step.grammar start := by
  obtain ⟨⟨left, ps⟩, rest, hqueue⟩ := List.exists_cons_of_ne_nil hqueue
  obtain ⟨hleft, hps, -, -⟩ := hs.head hqueue
  cases step_effect hqueue hleft with
  | unchanged _ _ hg => rwa [hg]
  | regrouped added out hstep =>
    have hsplit := hstep.splitInto hs.closed hleft hps
    intro name hname a
    have hrule := hs.subset name hname
    exact ⟨(hsplit.begins_iff hrule).trans (h name hname a).1,
      (hsplit.follows_iff (hs.subset start hstart) hrule).trans (h name hname a).2⟩

/-- **A whole factoring of a closed grammar keeps what is shown**, and the start symbol. -/
theorem sameShown_leftFactorWith (hg : g.Closed) (hstart : g.start = some start)
    (hrule : start ∈ g.ruleNames) (names : NameAllocator) :
    (g.leftFactorWith names).grammar.start = some start
      ∧ SameShown g (g.leftFactorWith names).grammar start := by
  have hrun := (run_induction
    (P := fun s => s.Refactors g ∧ s.grammar.start = some start ∧ SameShown g s.grammar start)
    (fun s hqueue hs => ⟨refactors_step hs.1 hqueue, start_step hs.2.1,
      sameShown_step hs.1 hrule hs.2.2 hqueue⟩)
    (Factoring.start g names)
    ⟨refactors_start hg names, hstart, fun _ _ _ => ⟨Iff.rfl, Iff.rfl⟩⟩).1
  exact hrun.2

end Factoring

namespace Grammar

variable {g : Grammar} {start name : String} {limit limit' : Nat} {before after : FirstFollow}

/-- **Factoring a closed grammar keeps FIRST and FOLLOW** of all its rules. Whenever the
analysis succeeds before and after it, under whatever ceilings, every rule of the grammar has
the same two sets in both answers. -/
theorem leftFactorWith_keeps_sets (hclosed : g.Closed) (hstart : g.start = some start)
    (hrule : start ∈ g.ruleNames) (names : NameAllocator)
    (hbefore : g.firstFollowWithin limit = .ok before)
    (hafter : (g.leftFactorWith names).grammar.firstFollowWithin limit' = .ok after) :
    ∀ name ∈ g.ruleNames,
      (∃ first, before.first.get? name = some first ∧ after.first.get? name = some first)
        ∧ ∃ follow, before.follow.get? name = some follow
          ∧ after.follow.get? name = some follow := by
  intro name hname
  obtain ⟨hstart', hshown⟩ := Factoring.sameShown_leftFactorWith hclosed hstart hrule names
  have hname' : name ∈ (g.leftFactorWith names).grammar.ruleNames :=
    (Factoring.refactors_leftFactorWith hclosed names).subset name hname
  have hfirst : after.first.setAt name = before.first.setAt name := by
    rw [first_of_firstFollowWithin hstart hbefore, first_of_firstFollowWithin hstart' hafter]
    refine SortedSet.ext (fun a => ?_)
    rw [mem_setAt_firstSets_iff, mem_setAt_firstSets_iff]
    exact (hshown name hname a).1
  have hfollow : after.follow.setAt name = before.follow.setAt name := by
    refine SortedSet.ext (fun a => ?_)
    rw [mem_follow_iff hstart hbefore hname, mem_follow_iff hstart' hafter hname']
    exact (hshown name hname a).2
  refine ⟨⟨before.first.setAt name, Table.get?_eq_some_setAt ?_, ?_⟩,
    before.follow.setAt name, Table.get?_eq_some_setAt ?_, ?_⟩
  · rwa [first_of_firstFollowWithin hstart hbefore, keys_firstSets]
  · rw [← hfirst]
    refine Table.get?_eq_some_setAt ?_
    rwa [first_of_firstFollowWithin hstart' hafter, keys_firstSets]
  · rwa [keys_follow_of_firstFollowWithin hstart hbefore]
  · rw [← hfollow]
    refine Table.get?_eq_some_setAt ?_
    rwa [keys_follow_of_firstFollowWithin hstart' hafter]

/-- A grammar in which what is shared and what is left can vanish, with a group inside a group
and with a rule that no other mentions and that has no text. -/
def vanishing : Grammar :=
  (((∅ : Grammar).setProductions "S"
    [.ofSymbols [.nonTerminal "A", .nonTerminal "A", .terminal "b"],
      .ofSymbols [.nonTerminal "A", .nonTerminal "A"],
      .ofSymbols [.nonTerminal "A", .nonTerminal "S"]]).setProductions "A"
    [.ofSymbols [.terminal "a"], .epsilon]).setProductions "U"
    [.ofSymbols [.nonTerminal "U", .terminal "c"],
      .ofSymbols [.nonTerminal "U", .terminal "c", .nonTerminal "S"]]

/-- What a factoring makes of it. -/
def vanishingFactored : Grammar :=
  ((((((∅ : Grammar).setProductions "S"
    [.ofSymbols [.nonTerminal "A", .nonTerminal "X1"]]).setProductions "A"
    [.ofSymbols [.terminal "a"], .epsilon]).setProductions "U"
    [.ofSymbols [.nonTerminal "U", .terminal "c", .nonTerminal "X2"]]).setProductions "X1"
    [.ofSymbols [.nonTerminal "A", .nonTerminal "X3"],
      .ofSymbols [.nonTerminal "S"]]).setProductions "X2"
    [.epsilon, .ofSymbols [.nonTerminal "S"]]).setProductions "X3"
    [.ofSymbols [.terminal "b"], .epsilon]

/-- Both analyses succeed, and the three rules have the same sets in both. -/
theorem leftFactorWith_keeps_sets_vanishing :
    (vanishing.leftFactorWith .initial).grammar = vanishingFactored
      ∧ vanishing.Closed ∧ vanishing.start = some "S" ∧ vanishing.ruleNames = ["S", "A", "U"]
      ∧ ∃ before after, vanishing.firstFollowWithin 10 = .ok before
        ∧ vanishingFactored.firstFollowWithin 10 = .ok after
        ∧ ∀ name ∈ vanishing.ruleNames,
          (∃ first, before.first.get? name = some first ∧ after.first.get? name = some first)
            ∧ ∃ follow, before.follow.get? name = some follow
              ∧ after.follow.get? name = some follow := by
  have hfactored : (vanishing.leftFactorWith .initial).grammar = vanishingFactored := by
    decide +kernel
  have hclosed : vanishing.Closed := by decide +kernel
  have hstart : vanishing.start = some "S" := by decide +kernel
  have hnames : vanishing.ruleNames = ["S", "A", "U"] := by decide +kernel
  -- ten passes are more than there are rules
  obtain ⟨before, hbefore⟩ : ∃ sets, vanishing.firstFollowWithin 10 = .ok sets :=
    exists_firstFollowWithin (by decide +kernel)
  obtain ⟨after, hafter⟩ : ∃ sets, vanishingFactored.firstFollowWithin 10 = .ok sets :=
    exists_firstFollowWithin (by decide +kernel)
  refine ⟨hfactored, hclosed, hstart, hnames, before, after, hbefore, hafter, ?_⟩
  refine leftFactorWith_keeps_sets hclosed hstart ?_ .initial hbefore (hfactored ▸ hafter)
  rw [hnames]
  exact List.mem_cons_self

end Grammar

end GrammarWorkbench
