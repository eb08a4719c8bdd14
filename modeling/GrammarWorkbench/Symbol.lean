import GrammarWorkbench.SortedSet

/-!
# Grammar symbols

A sentential form is made of non-terminals and terminals. Two marks stand beside
them: the empty-string mark `ϵ`, which occurs in FIRST sets and as the printed
form of an empty alternative, and the end mark `$`, which occurs in FOLLOW sets.

A symbol is more than its printed name: the terminal spelled `$` and the end mark
print alike and are different symbols. The order of `Symbol` puts non-terminals
before terminals before the two marks, and names of one kind by code point; it is
the order in which every set of symbols is listed.
-/

namespace GrammarWorkbench

/-- **A symbol of a grammar, or one of the two marks that sets may hold.** -/
inductive Symbol where
  /-- A name that rules can expand. -/
  | nonTerminal (name : String)
  /-- A name that stands for itself. -/
  | terminal (name : String)
  /-- The mark of the empty string. -/
  | epsilon
  /-- The mark of the end of the input. -/
  | endMark
deriving DecidableEq, Inhabited

namespace Symbol

/-- The printed form of the empty-string mark. -/
def epsilonName : String := "ϵ"

/-- The printed form of the end mark. -/
def endMarkName : String := "$"

/-- The printed form of a symbol. -/
def name : Symbol → String
  | nonTerminal n => n
  | terminal n => n
  | epsilon => epsilonName
  | endMark => endMarkName

/-- The name of a non-terminal. -/
def nonTerminal? : Symbol → Option String
  | nonTerminal n => some n
  | _ => none

theorem nonTerminal?_eq_some_iff {s : Symbol} {n : String} :
    s.nonTerminal? = some n ↔ s = nonTerminal n := by
  cases s <;> simp [nonTerminal?]

/-! ## The order of symbols -/

/-- The place of a kind of symbol: non-terminals, terminals, `ϵ`, `$`. -/
def rank : Symbol → Nat
  | nonTerminal _ => 0
  | terminal _ => 1
  | epsilon => 2
  | endMark => 3

/-- What tells two symbols of one kind apart. -/
def label : Symbol → String
  | nonTerminal n => n
  | terminal n => n
  | epsilon => ""
  | endMark => ""

theorem eq_of_rank_of_label {a b : Symbol} (hr : a.rank = b.rank) (hl : a.label = b.label) :
    a = b := by
  cases a <;> cases b <;> simp_all [rank, label]

instance : LT Symbol := ⟨fun a b => a.rank < b.rank ∨ a.rank = b.rank ∧ a.label < b.label⟩

theorem lt_def {a b : Symbol} :
    a < b ↔ a.rank < b.rank ∨ a.rank = b.rank ∧ a.label < b.label := Iff.rfl

instance : DecidableLT Symbol := fun a b =>
  inferInstanceAs (Decidable (a.rank < b.rank ∨ a.rank = b.rank ∧ a.label < b.label))

instance : StrictOrder Symbol where
  irrefl a h := by
    rcases h with h | ⟨_, h⟩
    · exact Nat.lt_irrefl _ h
    · exact String.lt_irrefl _ h
  trans {a b c} hab hbc := by
    rcases hab with hab | ⟨hab, hab'⟩ <;> rcases hbc with hbc | ⟨hbc, hbc'⟩
    · exact .inl (Nat.lt_trans hab hbc)
    · exact .inl (hbc ▸ hab)
    · exact .inl (hab ▸ hbc)
    · exact .inr ⟨hab.trans hbc, String.lt_trans hab' hbc'⟩
  trichotomy a b := by
    rcases Nat.lt_trichotomy a.rank b.rank with h | h | h
    · exact .inl (.inl h)
    · rcases StrictOrder.trichotomy a.label b.label with h' | h' | h'
      · exact .inl (.inr ⟨h, h'⟩)
      · exact .inr (.inl (eq_of_rank_of_label h h'))
      · exact .inr (.inr (.inr ⟨h.symm, h'⟩))
    · exact .inr (.inr (.inl h))

/-- The same order as a comparison, for tables with symbols as keys. -/
instance : Ord Symbol := ⟨compareLex (compareOn rank) (compareOn label)⟩

instance : Std.TransOrd Symbol :=
  inferInstanceAs (Std.TransCmp (compareLex (compareOn rank) (compareOn label)))

instance : Std.LawfulEqOrd Symbol where
  compare_self := Std.ReflCmp.compare_self
  eq_of_compare h := by
    obtain ⟨hr, hl⟩ := Ordering.then_eq_eq.mp h
    exact eq_of_rank_of_label (Std.LawfulEqOrd.eq_of_compare hr)
      (Std.LawfulEqOrd.eq_of_compare hl)

end Symbol

/-- A finite set of symbols, listed in the order of symbols. -/
abbrev SymbolSet := SortedSet Symbol

end GrammarWorkbench
