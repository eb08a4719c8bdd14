import GrammarWorkbench.Derivation
import Mathlib.Logic.Relation

/-!
# What comes to the front of a derived form

A non-terminal stands in front of a form once all symbols before it have vanished. Whether a
derivation can bring it there is a matter of single alternatives: it stands in one of them with
nothing but vanishing symbols before it, or such a non-terminal brings it to the front in turn.
So there is hidden left recursion exactly if these steps from a left side to a front
(`Grammar.Fronts`) form a cycle (`hiddenLeftRecursive_iff`).

Left recursion of this kind is a property of derivations, and a cycle of fronts is a property
of the table of rules; the second can be followed through a change of single rules.
-/

namespace GrammarWorkbench

namespace Grammar

variable {g : Grammar} {u v w before after : List Symbol} {name left inner : String}

/-- **What two forms side by side derive is cut between them.** -/
theorem Derives.exists_of_append (h : g.Derives (u ++ v) w) :
    ∃ u' v', w = u' ++ v' ∧ g.Derives u u' ∧ g.Derives v v' := by
  induction h with
  | refl => exact ⟨u, v, rfl, Derives.refl u, Derives.refl v⟩
  | tail _ hstep ih =>
    obtain ⟨u', v', hcut, hu, hv⟩ := ih
    obtain ⟨x, other, y, p, hp⟩ := hstep
    rcases List.append_eq_append_iff.mp hcut with ⟨middle, rfl, hright⟩ | ⟨middle, rfl, rfl⟩
    · rcases List.cons_eq_append_iff.mp hright with ⟨rfl, rfl⟩ | ⟨middle, rfl, rfl⟩
      · -- the replaced non-terminal stands first in the second form
        refine ⟨x, p.body ++ y, List.append_assoc x p.body y, ?_, ?_⟩
        · rwa [List.append_nil] at hu
        · exact Derives.tail hv (Step.replace [] other y p hp)
      · refine ⟨x ++ p.body ++ middle, v', ?_, ?_, hv⟩
        · rw [List.append_assoc (x ++ p.body)]
        · exact Derives.tail hu (Step.replace x other middle p hp)
    · refine ⟨u', middle ++ p.body ++ y, ?_, hu, ?_⟩
      · rw [List.append_assoc, List.append_assoc, List.append_assoc]
      · exact Derives.tail hv (Step.replace middle other y p hp)

/-- **Two forms side by side vanish if both do.** -/
theorem derives_append_nil_iff : g.Derives (u ++ v) [] ↔ g.Derives u [] ∧ g.Derives v [] := by
  constructor
  · intro h
    obtain ⟨u', v', hnil, hu, hv⟩ := h.exists_of_append
    obtain ⟨rfl, rfl⟩ := List.append_eq_nil_iff.mp hnil.symm
    exact ⟨hu, hv⟩
  · rintro ⟨hu, hv⟩
    exact hu.append hv

/-- **Some alternative of `left` brings `inner` to the front**, once what stands before it has
vanished. -/
def Fronts (g : Grammar) (left inner : String) : Prop :=
  ∃ p ∈ g.productions left, ∃ before after,
    p.body = before ++ .nonTerminal inner :: after ∧ g.Derives before []

/-- A front is derived. -/
theorem Fronts.derivesPlus (h : g.Fronts left inner) :
    ∃ rest, g.DerivesPlus [.nonTerminal left] (.nonTerminal inner :: rest) := by
  obtain ⟨p, hp, before, after, hbody, hvanish⟩ := h
  have hfirst := DerivesPlus.of_mem hp
  rw [hbody] at hfirst
  exact ⟨after, hfirst.trans (hvanish.append_right _)⟩

/-- **Where a non-terminal in a form comes from**, if what stands before it can vanish: some
non-terminal of the form from which the derivation started, also with nothing but vanishing
symbols before it, brings it to the front, in one step after the other. -/
theorem Derives.exists_front (h : g.Derives u v) (hv : v = before ++ .nonTerminal inner :: after)
    (hvanish : g.Derives before []) :
    ∃ x left y, u = x ++ .nonTerminal left :: y ∧ g.Derives x []
      ∧ Relation.ReflTransGen g.Fronts left inner := by
  induction h generalizing before inner after with
  | refl => exact ⟨before, inner, after, hv, hvanish, Relation.ReflTransGen.refl⟩
  | tail _ hstep ih =>
    subst hv
    cases hstep.origin with
    | inFront before middle right other p hp => exact ih rfl hvanish
    | inside x front after right other p hp hbody =>
      obtain ⟨hx, hfront⟩ := derives_append_nil_iff.mp hvanish
      obtain ⟨x', left, y, hu, hx', hpath⟩ := ih rfl hx
      exact ⟨x', left, y, hu, hx', hpath.tail ⟨p, hp, front, after, hbody, hfront⟩⟩
    | behind before middle after other p hp =>
      -- the step took place in front, and what it replaced can vanish, too
      obtain ⟨hbefore, hrest⟩ := derives_append_nil_iff.mp hvanish
      obtain ⟨hbody, hmiddle⟩ := derives_append_nil_iff.mp hrest
      have hother : g.Derives [.nonTerminal other] [] := (Derives.of_mem hp).trans hbody
      have hcut : before ++ .nonTerminal other :: (middle ++ .nonTerminal inner :: after)
          = (before ++ ([.nonTerminal other] ++ middle)) ++ .nonTerminal inner :: after := by simp
      exact ih hcut (hbefore.append (hother.append hmiddle))

/-- **A non-terminal is brought to the front by a path of fronts.** -/
theorem exists_derivesPlus_iff_transGen :
    (∃ rest, g.DerivesPlus [.nonTerminal left] (.nonTerminal inner :: rest))
      ↔ Relation.TransGen g.Fronts left inner := by
  constructor
  · rintro ⟨rest, first, hstep, hder⟩
    obtain ⟨p, hp, rfl⟩ := hstep.exists_of_nonTerminal
    obtain ⟨x, middle, y, hbody, hx, hpath⟩ :=
      hder.exists_front (List.nil_append _).symm (Derives.refl [])
    exact Relation.TransGen.head' ⟨p, hp, x, y, hbody, hx⟩ hpath
  · intro hpath
    induction hpath with
    | single hfront => exact hfront.derivesPlus
    | tail _ hfront ih =>
      obtain ⟨rest, hder⟩ := ih
      obtain ⟨rest', hder'⟩ := hfront.derivesPlus
      exact ⟨rest' ++ rest, hder.trans (hder'.derives.append_right rest)⟩

/-- **There is hidden left recursion exactly if fronts form a cycle.** -/
theorem hiddenLeftRecursive_iff :
    g.HiddenLeftRecursive ↔ ∃ name, Relation.TransGen g.Fronts name name :=
  exists_congr fun _ => exists_derivesPlus_iff_transGen

end Grammar

end GrammarWorkbench
