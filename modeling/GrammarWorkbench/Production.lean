import GrammarWorkbench.Symbol

/-!
# Alternatives of a rule

An alternative is the sequence of symbols that it derives, its `body`. The empty
sequence is an alternative like any other; only its printed form is special, a
single `ϵ`. Keeping the mark out of bodies is part of the type, so that gluing
and cutting alternatives are gluing and cutting lists, and the laws of lists are
the laws of alternatives: `Production.ext` reduces every equation to its bodies.
-/

namespace GrammarWorkbench

/-- **An alternative: the symbols it derives, none of them the mark `ϵ`.** -/
structure Production where
  /-- The symbols derived, in order; empty for the empty alternative. -/
  body : List Symbol
  /-- The empty-string mark is not derived, it is left out. -/
  epsilon_not_mem : Symbol.epsilon ∉ body

namespace Production

/-- **Alternatives with equal bodies are equal.** -/
theorem ext {p q : Production} (h : p.body = q.body) : p = q := by
  cases p; cases q; simpa using h

theorem ext_iff {p q : Production} : p = q ↔ p.body = q.body := ⟨congrArg body, ext⟩

instance : DecidableEq Production := fun p q => decidable_of_iff (p.body = q.body) ext_iff.symm

/-- The alternative that derives the empty string. -/
def epsilon : Production := ⟨[], List.not_mem_nil⟩

instance : Inhabited Production := ⟨epsilon⟩

@[simp] theorem body_epsilon : epsilon.body = [] := rfl

/-- The alternative that derives the given symbols, marks `ϵ` left out. -/
def ofSymbols (l : List Symbol) : Production :=
  ⟨l.filter (· ≠ Symbol.epsilon), by simp⟩

@[simp] theorem body_ofSymbols (l : List Symbol) :
    (ofSymbols l).body = l.filter (· ≠ Symbol.epsilon) := rfl

/-- Whether the alternative derives the empty string as it stands. -/
def isEpsilon (p : Production) : Bool := p.body.isEmpty

/-- **The symbols as they are shown**: the body, or a single `ϵ` in place of an
empty one. -/
def symbols (p : Production) : List Symbol :=
  if p.isEpsilon then [Symbol.epsilon] else p.body

/-- The first symbol shown. -/
def leading (p : Production) : Symbol := p.body.headD Symbol.epsilon

/-- Whether the alternative begins with the non-terminal `name`. -/
def startsWith (p : Production) (name : String) : Bool := p.leading = Symbol.nonTerminal name

/-- The printed form: the printed symbols one after the other. -/
def display (p : Production) : String := String.join (p.symbols.map Symbol.name)

@[simp] theorem symbols_epsilon : epsilon.symbols = [Symbol.epsilon] := rfl

theorem symbols_ne_nil (p : Production) : p.symbols ≠ [] := by
  unfold symbols isEpsilon
  cases h : p.body <;> simp

/-- The shown symbols begin with the leading one. -/
theorem head?_symbols (p : Production) : p.symbols.head? = some p.leading := by
  unfold symbols isEpsilon leading
  cases h : p.body <;> simp

/-- Reading back the body gives the alternative. -/
@[simp] theorem ofSymbols_body (p : Production) : ofSymbols p.body = p := by
  refine ext (List.filter_eq_self.mpr fun s hs => decide_eq_true fun h => ?_)
  exact p.epsilon_not_mem (h ▸ hs)

/-- Reading back the shown symbols gives the alternative. -/
@[simp] theorem ofSymbols_symbols (p : Production) : ofSymbols p.symbols = p := by
  obtain ⟨l, hl⟩ := p
  cases l with
  | nil => rfl
  | cons a l => exact ofSymbols_body ⟨a :: l, hl⟩

theorem leading_eq_epsilon_iff {p : Production} :
    p.leading = Symbol.epsilon ↔ p = epsilon := by
  obtain ⟨l, hl⟩ := p
  cases l with
  | nil => simp [leading, epsilon]
  | cons a l =>
    have ha : a ≠ Symbol.epsilon := fun h => hl (h ▸ List.mem_cons_self)
    simp [leading, epsilon, ha]

theorem startsWith_iff {p : Production} {name : String} :
    p.startsWith name = true ↔ ∃ rest, p.body = Symbol.nonTerminal name :: rest := by
  obtain ⟨l, hl⟩ := p
  cases l with
  | nil => simp [startsWith, leading]
  | cons a l => simp [startsWith, leading]

/-! ## Gluing and cutting -/

/-- The symbols of `p`, then those of `q`. -/
def concat (p q : Production) : Production :=
  ⟨p.body ++ q.body, by simp [p.epsilon_not_mem, q.epsilon_not_mem]⟩

instance : Append Production := ⟨concat⟩

@[simp] theorem body_append (p q : Production) : (p ++ q).body = p.body ++ q.body := rfl

theorem append_assoc (p q r : Production) : p ++ q ++ r = p ++ (q ++ r) :=
  ext (List.append_assoc p.body q.body r.body)

@[simp] theorem epsilon_append (p : Production) : epsilon ++ p = p := ext (List.nil_append p.body)

@[simp] theorem append_epsilon (p : Production) : p ++ epsilon = p := ext (List.append_nil p.body)

/-- Symbols side by side derive alternatives side by side. -/
theorem ofSymbols_append (l m : List Symbol) : ofSymbols (l ++ m) = ofSymbols l ++ ofSymbols m :=
  ext (List.filter_append l m)

/-- The alternative with one more symbol at its end; the mark `ϵ` adds nothing. -/
def push (p : Production) (s : Symbol) : Production :=
  if h : s = Symbol.epsilon then p
  else ⟨p.body ++ [s], by simp [p.epsilon_not_mem, Ne.symm h]⟩

theorem body_push {s : Symbol} (h : s ≠ Symbol.epsilon) (p : Production) :
    (p.push s).body = p.body ++ [s] := by
  simp [push, h]

@[simp] theorem body_push_nonTerminal (p : Production) (name : String) :
    (p.push (.nonTerminal name)).body = p.body ++ [.nonTerminal name] :=
  body_push (by simp) p

@[simp] theorem push_epsilon (p : Production) : p.push Symbol.epsilon = p := by
  simp [push]

/-- One more symbol is one more alternative glued on, empty for the mark `ϵ`. -/
theorem push_eq_append (p : Production) (s : Symbol) : p.push s = p ++ ofSymbols [s] := by
  by_cases hs : s = Symbol.epsilon
  · subst hs
    exact (push_epsilon p).trans (append_epsilon p).symm
  · have hkept : [s].filter (· ≠ Symbol.epsilon) = [s] := List.filter_cons_of_pos (by simp [hs])
    refine ext ?_
    rw [body_push hs, body_append, body_ofSymbols, hkept]

theorem append_push (p q : Production) (s : Symbol) : p ++ q.push s = (p ++ q).push s := by
  rw [push_eq_append, push_eq_append, append_assoc]

/-- Everything after the first `n` symbols. -/
def suffix (p : Production) (n : Nat) : Production :=
  ⟨p.body.drop n, fun h => p.epsilon_not_mem (List.mem_of_mem_drop h)⟩

@[simp] theorem body_suffix (p : Production) (n : Nat) : (p.suffix n).body = p.body.drop n := rfl

theorem mem_body_suffix {p : Production} {n : Nat} {s : Symbol} (h : s ∈ (p.suffix n).body) :
    s ∈ p.body := by
  rw [body_suffix] at h
  exact List.mem_of_mem_drop h

/-- Cutting twice is cutting once, after as many symbols. -/
theorem suffix_suffix (p : Production) (m n : Nat) : (p.suffix m).suffix n = p.suffix (m + n) :=
  ext List.drop_drop

/-- The first `n` symbols. -/
def take (p : Production) (n : Nat) : Production :=
  ⟨p.body.take n, fun h => p.epsilon_not_mem (List.mem_of_mem_take h)⟩

@[simp] theorem body_take (p : Production) (n : Nat) : (p.take n).body = p.body.take n := rfl

/-- Cutting after `n` symbols and gluing again changes nothing. -/
theorem take_append_suffix (p : Production) (n : Nat) : p.take n ++ p.suffix n = p :=
  ext (List.take_append_drop n p.body)

end Production

end GrammarWorkbench
