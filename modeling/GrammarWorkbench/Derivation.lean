import GrammarWorkbench.Grammar.Basic

/-!
# Derivations

What a grammar means: one step replaces one occurrence of a non-terminal in a
sentential form by the body of one of its alternatives, and a derivation is any
number of steps. The texts of a non-terminal are the forms without non-terminals
that it derives.

Every statement about what an analysis finds, or about what a transformation
keeps, compares it with the relations defined here. Steps take place inside any
context, so derivations can be put side by side (`Derives.append`).
-/

namespace GrammarWorkbench

namespace Grammar

/-- **One step of a derivation**: an occurrence of a non-terminal is replaced by the
body of one of its alternatives. -/
inductive Step (g : Grammar) : List Symbol → List Symbol → Prop where
  | replace (before : List Symbol) (name : String) (after : List Symbol) (p : Production)
      (h : p ∈ g.productions name) :
      Step g (before ++ Symbol.nonTerminal name :: after) (before ++ p.body ++ after)

/-- **A derivation**: any number of steps. -/
inductive Derives (g : Grammar) : List Symbol → List Symbol → Prop where
  | refl (u : List Symbol) : Derives g u u
  | tail {u v w : List Symbol} (huv : Derives g u v) (hvw : Step g v w) : Derives g u w

variable {g : Grammar} {u v w : List Symbol}

/-- A step stays a step with more symbols in front. -/
theorem Step.append_left (h : g.Step u v) (w : List Symbol) : g.Step (w ++ u) (w ++ v) := by
  obtain ⟨before, name, after, p, hp⟩ := h
  have := Step.replace (w ++ before) name after p hp
  simpa [List.append_assoc] using this

/-- A step stays a step with more symbols behind. -/
theorem Step.append_right (h : g.Step u v) (w : List Symbol) : g.Step (u ++ w) (v ++ w) := by
  obtain ⟨before, name, after, p, hp⟩ := h
  have := Step.replace before name (after ++ w) p hp
  simpa [List.append_assoc] using this

/-- **Where a symbol of a form comes from**, when the form is the outcome of a step: it stood
in front of the replaced non-terminal, it is new, or it stood behind. The form before the
step is given with what stands before and behind the symbol after it. -/
inductive Step.Origin (g : Grammar) (s : Symbol) :
    List Symbol → List Symbol → List Symbol → Prop where
  | inFront (before middle after : List Symbol) (name : String) (p : Production)
      (h : p ∈ g.productions name) :
      Origin g s (before ++ s :: (middle ++ Symbol.nonTerminal name :: after)) before
        (middle ++ (p.body ++ after))
  | inside (left before after right : List Symbol) (name : String) (p : Production)
      (h : p ∈ g.productions name) (hp : p.body = before ++ s :: after) :
      Origin g s (left ++ Symbol.nonTerminal name :: right) (left ++ before) (after ++ right)
  | behind (before middle after : List Symbol) (name : String) (p : Production)
      (h : p ∈ g.productions name) :
      Origin g s (before ++ Symbol.nonTerminal name :: (middle ++ s :: after))
        (before ++ (p.body ++ middle)) after

/-- Every symbol after a step has an origin. -/
theorem Step.origin {before after : List Symbol} {s : Symbol}
    (h : g.Step u (before ++ s :: after)) : Step.Origin g s u before after := by
  generalize hw : before ++ s :: after = w at h
  obtain ⟨left, name, right, p, hp⟩ := h
  rw [List.append_assoc, List.append_eq_append_iff] at hw
  rcases hw with ⟨cut, rfl, hrest⟩ | ⟨cut, rfl, hrest⟩
  · rcases List.cons_eq_append_iff.mp hrest with ⟨rfl, hbody⟩ | ⟨middle, rfl, rfl⟩
    · -- the symbol stands first in what the step put in, or right behind it
      rcases List.append_eq_cons_iff.mp hbody with ⟨hnil, rfl⟩ | ⟨tail, hnew, rfl⟩
      · have := Origin.behind (s := s) before [] after name p hp
        simpa [hnil] using this
      · have := Origin.inside before [] tail right name p hp hnew
        simpa using this
    · rw [List.append_assoc, List.cons_append]
      exact Origin.inFront before middle right name p hp
  · rcases List.append_eq_append_iff.mp hrest with ⟨middle, rfl, rfl⟩ | ⟨tail, hbody, hrest⟩
    · exact Origin.behind left middle after name p hp
    · rcases List.cons_eq_append_iff.mp hrest with ⟨rfl, hright⟩ | ⟨tail, rfl, rfl⟩
      · have := Origin.behind (s := s) left [] after name p hp
        simpa [hbody, hright] using this
      · exact Origin.inside left cut tail right name p hp hbody

namespace Derives

theorem single (h : g.Step u v) : g.Derives u v := tail (refl u) h

theorem trans (huv : g.Derives u v) (hvw : g.Derives v w) : g.Derives u w := by
  induction hvw with
  | refl => exact huv
  | tail _ hstep ih => exact tail ih hstep

theorem append_left (h : g.Derives u v) (w : List Symbol) : g.Derives (w ++ u) (w ++ v) := by
  induction h with
  | refl => exact refl _
  | tail _ hstep ih => exact tail ih (hstep.append_left w)

theorem append_right (h : g.Derives u v) (w : List Symbol) : g.Derives (u ++ w) (v ++ w) := by
  induction h with
  | refl => exact refl _
  | tail _ hstep ih => exact tail ih (hstep.append_right w)

/-- **Derivations put side by side.** -/
theorem append {u' v' : List Symbol} (hu : g.Derives u u') (hv : g.Derives v v') :
    g.Derives (u ++ v) (u' ++ v') :=
  (hu.append_right v).trans (hv.append_left u')

/-- A non-terminal derives the body of each of its alternatives. -/
theorem of_mem {name : String} {p : Production} (h : p ∈ g.productions name) :
    g.Derives [Symbol.nonTerminal name] p.body := by
  simpa using single (Step.replace [] name [] p h)

end Derives

/-- **A derivation of at least one step.** -/
def DerivesPlus (g : Grammar) (u w : List Symbol) : Prop := ∃ v, g.Step u v ∧ g.Derives v w

/-- A step that starts from a non-terminal alone puts one of its alternatives in its place. -/
theorem Step.exists_of_nonTerminal {name : String} (h : g.Step [Symbol.nonTerminal name] v) :
    ∃ p ∈ g.productions name, v = p.body := by
  generalize hu : [Symbol.nonTerminal name] = u at h
  obtain ⟨before, other, after, p, hp⟩ := h
  rcases List.cons_eq_append_iff.mp hu with ⟨rfl, hcons⟩ | ⟨_, -, hnil⟩
  · obtain ⟨hname, rfl⟩ := List.cons.inj hcons
    obtain rfl := Symbol.nonTerminal.inj hname
    exact ⟨p, hp, by rw [List.nil_append, List.append_nil]⟩
  · exact absurd hnil (by simp)

namespace DerivesPlus

theorem of_mem {name : String} {p : Production} (h : p ∈ g.productions name) :
    g.DerivesPlus [Symbol.nonTerminal name] p.body :=
  ⟨p.body, by simpa using Step.replace [] name [] p h, Derives.refl _⟩

theorem trans (h : g.DerivesPlus u v) (h' : g.Derives v w) : g.DerivesPlus u w := by
  obtain ⟨first, hstep, hder⟩ := h
  exact ⟨first, hstep, hder.trans h'⟩

theorem derives (h : g.DerivesPlus u w) : g.Derives u w := by
  obtain ⟨first, hstep, hder⟩ := h
  exact (Derives.single hstep).trans hder

end DerivesPlus

/-- No non-terminal is left. -/
def IsSentence (w : List Symbol) : Prop := ∀ name, Symbol.nonTerminal name ∉ w

/-- **The texts of a non-terminal**: the sentences that it derives. -/
def Generates (g : Grammar) (name : String) (w : List Symbol) : Prop :=
  g.Derives [Symbol.nonTerminal name] w ∧ IsSentence w

/-- **A derivation leads from some non-terminal back to it in front**, whatever vanished
before it. -/
def HiddenLeftRecursive (g : Grammar) : Prop :=
  ∃ name rest, g.DerivesPlus [Symbol.nonTerminal name] (Symbol.nonTerminal name :: rest)

/-- Some alternative of `left` begins with the non-terminal `inner`. -/
def LeadsTo (g : Grammar) (left inner : String) : Prop :=
  ∃ p ∈ g.productions left, p.startsWith inner = true

end Grammar

end GrammarWorkbench
