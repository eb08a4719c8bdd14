import GrammarWorkbench.Derivation

/-!
# Languages as least models of the rules

A derivation is a sequence of steps, each inside some context, and what a
transformation does to it is hard to follow step by step. Here the texts of a
non-terminal are described without derivations. Given a language for each name, a
form *yields* the texts that arise when every non-terminal in it is replaced by a
text of its language (`Yields`). The languages are a *model* of the rules if every
text that an alternative yields belongs to its left side (`IsModel`).

The texts that a grammar generates are a model (`isModel_generates`), and they are
contained in every other one (`IsModel.of_generates`). So two grammars are compared
by showing that what each generates is a model of the other. A name generates
exactly what one of its alternatives yields (`generates_iff_yieldsAny`).
-/

namespace GrammarWorkbench

/-- A language for each name. -/
abbrev Languages := String → List Symbol → Prop

/-- **The texts of a form**, given the texts of each non-terminal. -/
inductive Yields (L : Languages) : List Symbol → List Symbol → Prop where
  /-- The empty form has the empty text. -/
  | nil : Yields L [] []
  /-- What is no non-terminal stands for itself. -/
  | keep {s : Symbol} {l w : List Symbol} (hs : ∀ name, s ≠ .nonTerminal name)
      (h : Yields L l w) : Yields L (s :: l) (s :: w)
  /-- A non-terminal stands for any of its texts. -/
  | replace {name : String} {l u w : List Symbol} (hu : L name u) (h : Yields L l w) :
      Yields L (.nonTerminal name :: l) (u ++ w)

/-- Some alternative has the text. -/
def YieldsAny (L : Languages) (ps : List Production) (w : List Symbol) : Prop :=
  ∃ p ∈ ps, Yields L p.body w

namespace Yields

variable {L M : Languages} {l m u v w : List Symbol} {name : String}

theorem nil_iff : Yields L [] w ↔ w = [] := by
  constructor
  · intro h
    cases h
    rfl
  · rintro rfl
    exact nil

/-- A form that begins with a non-terminal has the texts of the non-terminal, each
followed by a text of the rest. -/
theorem nonTerminal_cons_iff :
    Yields L (.nonTerminal name :: l) w ↔ ∃ u v, w = u ++ v ∧ L name u ∧ Yields L l v := by
  constructor
  · intro h
    cases h with
    | keep hs _ => exact absurd rfl (hs name)
    | replace hu hl => exact ⟨_, _, rfl, hu, hl⟩
  · rintro ⟨u, v, rfl, hu, hl⟩
    exact replace hu hl

/-- The texts of a non-terminal that stands alone. -/
theorem nonTerminal_iff : Yields L [.nonTerminal name] w ↔ L name w := by
  rw [nonTerminal_cons_iff]
  constructor
  · rintro ⟨u, v, rfl, hu, hv⟩
    rw [nil_iff.mp hv, List.append_nil]
    exact hu
  · intro h
    exact ⟨w, [], (List.append_nil w).symm, h, nil⟩

/-- Texts of two forms, one behind the other. -/
theorem append (hl : Yields L l u) (hm : Yields L m v) : Yields L (l ++ m) (u ++ v) := by
  induction hl with
  | nil => exact hm
  | keep hs _ ih => exact keep hs ih
  | replace hu _ ih =>
    rw [List.append_assoc]
    exact replace hu ih

/-- **A text of two forms side by side is cut between them.** -/
theorem append_iff :
    Yields L (l ++ m) w ↔ ∃ u v, w = u ++ v ∧ Yields L l u ∧ Yields L m v := by
  constructor
  · intro h
    induction l generalizing w with
    | nil => exact ⟨[], w, rfl, nil, h⟩
    | cons s l ih =>
      cases h with
      | keep hs hrest =>
        obtain ⟨u, v, rfl, hu, hv⟩ := ih hrest
        exact ⟨s :: u, v, rfl, keep hs hu, hv⟩
      | replace ht hrest =>
        obtain ⟨u, v, rfl, hu, hv⟩ := ih hrest
        exact ⟨_ ++ u, v, (List.append_assoc _ u v).symm, replace ht hu, hv⟩
  · rintro ⟨u, v, rfl, hu, hv⟩
    exact append hu hv

/-- **More texts for the names give more texts for a form**; only the names that the
form mentions count. -/
theorem mono (hLM : ∀ name, Symbol.nonTerminal name ∈ l → ∀ w, L name w → M name w)
    (h : Yields L l w) : Yields M l w := by
  induction h with
  | nil => exact nil
  | keep hs _ ih =>
    exact keep hs (ih (fun name hname => hLM name (List.mem_cons_of_mem _ hname)))
  | replace hu _ ih =>
    exact replace (hLM _ List.mem_cons_self _ hu)
      (ih (fun name hname => hLM name (List.mem_cons_of_mem _ hname)))

/-- A sentence is a text of itself. -/
theorem self (hw : Grammar.IsSentence w) : Yields L w w := by
  induction w with
  | nil => exact nil
  | cons s w ih =>
    refine keep (fun name hs => hw name (hs ▸ List.mem_cons_self)) (ih (fun name hname => ?_))
    exact hw name (List.mem_cons_of_mem _ hname)

end Yields

/-- A text of an alternative with a non-terminal pushed behind it. -/
theorem Yields.push_iff {L : Languages} {p : Production} {name : String} {w : List Symbol} :
    Yields L (p.push (.nonTerminal name)).body w
      ↔ ∃ u v, w = u ++ v ∧ Yields L p.body u ∧ L name v := by
  rw [Production.body_push_nonTerminal, append_iff]
  simp only [nonTerminal_iff]

namespace YieldsAny

variable {L M : Languages} {p q : Production} {ps qs : List Production} {w : List Symbol}

theorem mono (hLM : ∀ name w, L name w → M name w) (h : YieldsAny L ps w) :
    YieldsAny M ps w := by
  obtain ⟨p, hp, hw⟩ := h
  exact ⟨p, hp, hw.mono (fun name _ => hLM name)⟩

theorem cons_iff : YieldsAny L (p :: ps) w ↔ Yields L p.body w ∨ YieldsAny L ps w := by
  unfold YieldsAny
  simp only [List.mem_cons, exists_eq_or_imp]

theorem append_iff : YieldsAny L (ps ++ qs) w ↔ YieldsAny L ps w ∨ YieldsAny L qs w := by
  unfold YieldsAny
  simp only [List.mem_append, or_and_right, exists_or]

/-- The order of alternatives does not matter, nor does repetition. -/
theorem congr (h : ∀ p, p ∈ ps ↔ p ∈ qs) : YieldsAny L ps w ↔ YieldsAny L qs w := by
  unfold YieldsAny
  simp only [h]

/-- The same in front of all alternatives. -/
theorem map_append_iff :
    YieldsAny L (ps.map (q ++ ·)) w
      ↔ ∃ u v, w = u ++ v ∧ Yields L q.body u ∧ YieldsAny L ps v := by
  constructor
  · rintro ⟨r, hr, hw⟩
    obtain ⟨p, hp, rfl⟩ := List.mem_map.mp hr
    obtain ⟨u, v, rfl, hu, hv⟩ := Yields.append_iff.mp hw
    exact ⟨u, v, rfl, hu, p, hp, hv⟩
  · rintro ⟨u, v, rfl, hu, p, hp, hv⟩
    exact ⟨q ++ p, List.mem_map_of_mem hp, hu.append hv⟩

end YieldsAny

namespace Grammar

/-- **The languages obey the rules of the grammar**: what an alternative yields belongs
to its left side. -/
def IsModel (g : Grammar) (L : Languages) : Prop :=
  ∀ name w, YieldsAny L (g.productions name) w → L name w

variable {g : Grammar} {L : Languages} {name : String} {u v w : List Symbol}

/-- In a model a step back loses no text. -/
theorem IsModel.yields_of_step (hL : g.IsModel L) (h : g.Step u v) (hv : Yields L v w) :
    Yields L u w := by
  obtain ⟨before, name, after, p, hp⟩ := h
  obtain ⟨w₁, w₃, rfl, h₁₂, h₃⟩ := Yields.append_iff.mp hv
  obtain ⟨w₁, w₂, rfl, h₁, h₂⟩ := Yields.append_iff.mp h₁₂
  rw [List.append_assoc]
  exact h₁.append (Yields.replace (hL name w₂ ⟨p, hp, h₂⟩) h₃)

/-- **What a grammar generates is contained in every model.** -/
theorem IsModel.of_generates (hL : g.IsModel L) (h : g.Generates name w) : L name w := by
  obtain ⟨hder, hw⟩ := h
  have key : ∀ {u v}, g.Derives u v → Yields L v w → Yields L u w := by
    intro u v huv
    induction huv with
    | refl => exact id
    | tail _ hstep ih => exact fun hv => ih (hL.yields_of_step hstep hv)
  exact Yields.nonTerminal_iff.mp (key hder (Yields.self hw))

/-- A form derives its texts. -/
theorem derives_of_yields (h : Yields g.Generates u w) : g.Derives u w ∧ IsSentence w := by
  induction h with
  | nil => exact ⟨Derives.refl [], fun _ => List.not_mem_nil⟩
  | @keep s l w hs _ ih =>
    refine ⟨ih.1.append_left [s], fun name hname => ?_⟩
    rcases List.mem_cons.mp hname with hname | hname
    · exact hs name hname.symm
    · exact ih.2 name hname
  | @replace name l u w hu _ ih =>
    refine ⟨hu.1.append ih.1, fun name' hname => ?_⟩
    rcases List.mem_append.mp hname with hname | hname
    · exact hu.2 name' hname
    · exact ih.2 name' hname

/-- **What a grammar generates is a model.** -/
theorem isModel_generates (g : Grammar) : g.IsModel g.Generates := by
  rintro name w ⟨p, hp, hw⟩
  obtain ⟨hder, hsentence⟩ := derives_of_yields hw
  exact ⟨(Derives.of_mem hp).trans hder, hsentence⟩

/-- **A name generates what one of its alternatives yields.** The languages on the
right are a model, too, so the least one is contained in them. -/
theorem generates_iff_yieldsAny :
    g.Generates name w ↔ YieldsAny g.Generates (g.productions name) w := by
  constructor
  · intro h
    have hL : g.IsModel fun name => YieldsAny g.Generates (g.productions name) := by
      intro name w hw
      exact hw.mono (isModel_generates g)
    exact hL.of_generates h
  · exact isModel_generates g name w

end Grammar

end GrammarWorkbench
