import GrammarWorkbench.Production

/-!
# Alternatives in normal form

What is shown of an alternative is never nothing: an empty alternative is shown as a single mark
`ϵ`. Lists of symbols in this normal form (`Shown.Normal`) do not stay in it when they are glued,
cut and extended like other lists. So the mark of an empty alternative is taken away before
(`Shown.body`), and afterwards marks are left out and, if nothing remains, one of them is put back
(`Shown.ofSymbols`).

Alternatives themselves hold no mark, and gluing them is gluing their bodies. The two accounts
agree, one operation at a time (`symbols_suffix`, `symbols_append`, `symbols_push`), and so for
whatever is made in any number of operations (`Recipe.symbols_make`). What holds of bodies
therefore holds of what is shown, the laws of gluing and cutting included
(`monoid_in_normalForm`).
-/

namespace GrammarWorkbench

/-! ## Lists as they are shown -/

namespace Shown

variable {l : List Symbol}

/-- **A list in normal form** holds at least one symbol, and the mark `ϵ` only as the single
one. -/
structure Normal (l : List Symbol) : Prop where
  ne_nil : l ≠ []
  alone : l = [.epsilon] ∨ Symbol.epsilon ∉ l

/-- The normal form of a list: marks are left out, and one mark stands for nothing. -/
def ofSymbols (l : List Symbol) : List Symbol :=
  if l.filter (· ≠ .epsilon) = [] then [.epsilon] else l.filter (· ≠ .epsilon)

/-- What a list in normal form derives: nothing for the single mark. -/
def body (l : List Symbol) : List Symbol := if l = [.epsilon] then [] else l

theorem normal_ofSymbols (l : List Symbol) : Normal (ofSymbols l) := by
  unfold ofSymbols
  split
  · exact ⟨List.cons_ne_nil _ _, Or.inl rfl⟩
  · next hkept => exact ⟨hkept, Or.inr (Production.ofSymbols l).epsilon_not_mem⟩

/-- A list in normal form is its own normal form. -/
theorem Normal.ofSymbols_eq (h : Normal l) : ofSymbols l = l := by
  cases h.alone with
  | inl hmark =>
    subst hmark
    rfl
  | inr hfree =>
    have hkept : l.filter (· ≠ .epsilon) = l :=
      congrArg Production.body (Production.ofSymbols_body ⟨l, hfree⟩)
    unfold ofSymbols
    rw [hkept, if_neg h.ne_nil]

end Shown

namespace Production

variable {p q : Production}

/-! ## One operation -/

theorem symbols_ofSymbols (l : List Symbol) : (ofSymbols l).symbols = Shown.ofSymbols l := by
  unfold symbols isEpsilon Shown.ofSymbols
  simp only [body_ofSymbols, List.isEmpty_iff]

/-- What is shown is the normal form of the body. -/
theorem symbols_eq (p : Production) : p.symbols = Shown.ofSymbols p.body := by
  rw [← symbols_ofSymbols, ofSymbols_body]

theorem normal_symbols (p : Production) : Shown.Normal p.symbols := by
  rw [symbols_eq]
  exact Shown.normal_ofSymbols p.body

/-- **What is shown tells the body.** -/
theorem body_symbols (p : Production) : Shown.body p.symbols = p.body := by
  unfold Shown.body symbols
  cases h : p.isEpsilon with
  | true => exact (List.isEmpty_iff.mp h).symm
  | false =>
    have hbody : p.body ≠ [.epsilon] := fun heq =>
      p.epsilon_not_mem (heq ▸ List.mem_singleton_self _)
    rw [if_neg Bool.false_ne_true, if_neg hbody]

/-- Alternatives that are shown alike are equal. -/
theorem symbols_inj : p.symbols = q.symbols ↔ p = q := by
  refine ⟨fun h => ?_, congrArg symbols⟩
  rw [← ofSymbols_symbols p, h, ofSymbols_symbols]

theorem symbols_suffix (p : Production) (n : Nat) :
    (p.suffix n).symbols = Shown.ofSymbols ((Shown.body p.symbols).drop n) := by
  rw [body_symbols, symbols_eq, body_suffix]

theorem symbols_append (p q : Production) :
    (p ++ q).symbols = Shown.ofSymbols (Shown.body p.symbols ++ Shown.body q.symbols) := by
  rw [body_symbols, body_symbols, symbols_eq, body_append]

theorem symbols_push (p : Production) (s : Symbol) :
    (p.push s).symbols = Shown.ofSymbols (Shown.body p.symbols ++ [s]) := by
  rw [body_symbols, ← symbols_ofSymbols, ofSymbols_append, ofSymbols_body, push_eq_append]

/-! ## Any number of operations -/

/-- **A way to make an alternative** out of symbols, marks among them, and of alternatives made
before. -/
inductive Recipe where
  | ofSymbols (l : List Symbol)
  | epsilon
  | suffix (r : Recipe) (n : Nat)
  | append (r r' : Recipe)
  | push (r : Recipe) (s : Symbol)

namespace Recipe

/-- The alternative that is made. -/
def make : Recipe → Production
  | ofSymbols l => Production.ofSymbols l
  | epsilon => Production.epsilon
  | suffix r n => r.make.suffix n
  | append r r' => r.make ++ r'.make
  | push r s => r.make.push s

/-- **The same work on lists as they are shown**: every operation takes the mark of an empty
alternative away and brings its result into normal form again. -/
def shown : Recipe → List Symbol
  | ofSymbols l => Shown.ofSymbols l
  | epsilon => [.epsilon]
  | suffix r n => Shown.ofSymbols ((Shown.body r.shown).drop n)
  | append r r' => Shown.ofSymbols (Shown.body r.shown ++ Shown.body r'.shown)
  | push r s => Shown.ofSymbols (Shown.body r.shown ++ [s])

/-- **Both ways lead to the same.** -/
theorem symbols_make (r : Recipe) : r.make.symbols = r.shown := by
  induction r with
  | ofSymbols l => exact symbols_ofSymbols l
  | epsilon => exact symbols_epsilon
  | suffix r n ih => rw [make, shown, symbols_suffix, ih]
  | append r r' ih ih' => rw [make, shown, symbols_append, ih, ih']
  | push r s ih => rw [make, shown, symbols_push, ih]

/-- A mark shows where everything is cut off, and is gone once a symbol follows. -/
example :
    (suffix (ofSymbols [.terminal "a", .epsilon]) 1).shown = [.epsilon]
      ∧ (push (suffix (ofSymbols [.terminal "a", .epsilon]) 1) .endMark).shown = [.endMark] := by
  decide

theorem normal_shown (r : Recipe) : Shown.Normal r.shown := by
  rw [← r.symbols_make]
  exact r.make.normal_symbols

/-- **The lists that can be shown** are those in normal form, and no others. -/
theorem exists_shown_eq_iff {l : List Symbol} : (∃ r : Recipe, r.shown = l) ↔ Shown.Normal l := by
  constructor
  · rintro ⟨r, rfl⟩
    exact r.normal_shown
  · intro h
    exact ⟨ofSymbols l, h.ofSymbols_eq⟩

end Recipe

/-- **Alternatives are made in normal form, and gluing makes a monoid of them.** Whatever is made
is shown as the same work on shown lists tells, in normal form, and the leading symbol is the
first one shown; every list in normal form can be made. The body of two alternatives glued
together is their bodies side by side, gluing is associative, and the empty alternative changes
nothing on either side. To push a symbol is to glue on the alternative of this symbol. Cutting
twice is cutting once, and what is cut off at the front can be glued on again. Alternatives are
equal exactly if they are shown alike, and exactly if their bodies are equal. -/
theorem monoid_in_normalForm (r : Recipe) (p q t : Production) (s : Symbol) (m n : Nat) :
    (r.make.symbols = r.shown ∧ Shown.Normal r.shown ∧ r.shown[0]? = some r.make.leading
        ∧ Shown.body r.shown = r.make.body)
      ∧ (∀ l : List Symbol, (∃ r : Recipe, r.shown = l) ↔ Shown.Normal l)
      ∧ (p ++ q).body = p.body ++ q.body
      ∧ p ++ q ++ t = p ++ (q ++ t)
      ∧ (epsilon ++ p = p ∧ p ++ epsilon = p)
      ∧ p.push s = p ++ ofSymbols [s]
      ∧ (p.suffix m).suffix n = p.suffix (m + n)
      ∧ ofSymbols (p.body.take n) ++ p.suffix n = p
      ∧ (p = q ↔ p.symbols = q.symbols)
      ∧ (p = q ↔ p.body = q.body) := by
  have hleading : r.shown[0]? = some r.make.leading := by
    rw [← r.symbols_make, ← List.head?_eq_getElem?, head?_symbols]
  have hbody : Shown.body r.shown = r.make.body := by
    rw [← r.symbols_make, body_symbols]
  have htake : ofSymbols (p.body.take n) = p.take n := ofSymbols_body (p.take n)
  refine ⟨⟨r.symbols_make, r.normal_shown, hleading, hbody⟩, fun l => Recipe.exists_shown_eq_iff,
    body_append p q, append_assoc p q t, ⟨epsilon_append p, append_epsilon p⟩,
    push_eq_append p s, suffix_suffix p m n, ?_, symbols_inj.symm, ext_iff⟩
  rw [htake, take_append_suffix]

end Production

end GrammarWorkbench
