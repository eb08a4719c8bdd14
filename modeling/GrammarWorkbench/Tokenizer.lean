import GrammarWorkbench.Production
import GrammarWorkbench.Text.Blank

/-!
# From the text of an alternative to its symbols

An alternative is written as its symbols one after the other. As a rule every
character is a symbol; terminals of several characters have to be declared, and
where declared terminals fit, the longest one that fits is taken, whatever
characters it is made of. Of the characters left over, blank ones separate,
epsilon characters stand for nothing, a capital that names a rule is a
non-terminal, and anything else is a terminal.

The declared terminals form a set, `SortedSet Terminal`, whose order puts longer
terminals first. The first one that fits is therefore the longest one that fits,
and neither the order nor the repetition of declarations can matter.
-/

namespace GrammarWorkbench

/-! ## Declared terminals -/

/-- **A terminal that can be declared**: any text but the empty one. -/
structure Terminal where
  /-- The spelling. -/
  text : String
  /-- A terminal takes up some of the input. -/
  text_ne_empty : text ≠ ""

namespace Terminal

theorem ext {s t : Terminal} (h : s.text = t.text) : s = t := by
  cases s; cases t; simpa using h

instance : DecidableEq Terminal := fun s t =>
  decidable_of_iff (s.text = t.text) ⟨ext, congrArg text⟩

/-- The terminal with a given spelling. -/
def ofText? (text : String) : Option Terminal :=
  if h : text = "" then none else some ⟨text, h⟩

/-- The characters of the spelling. -/
def chars (t : Terminal) : List Char := t.text.toList

theorem chars_ne_nil (t : Terminal) : t.chars ≠ [] := fun h =>
  t.text_ne_empty (String.toList_injective (h.trans String.toList_empty.symm))

/-- The number of bytes of the spelling. -/
def size (t : Terminal) : Nat := t.text.utf8ByteSize

/-- Longer terminals come first, terminals of one length in the order of their
spellings. -/
instance : LT Terminal := ⟨fun s t => t.size < s.size ∨ s.size = t.size ∧ s.text < t.text⟩

theorem lt_def {s t : Terminal} :
    s < t ↔ t.size < s.size ∨ s.size = t.size ∧ s.text < t.text := Iff.rfl

instance : DecidableLT Terminal := fun s t =>
  inferInstanceAs (Decidable (t.size < s.size ∨ s.size = t.size ∧ s.text < t.text))

instance : StrictOrder Terminal where
  irrefl t h := by
    rcases h with h | ⟨_, h⟩
    · exact Nat.lt_irrefl _ h
    · exact String.lt_irrefl _ h
  trans {a b c} hab hbc := by
    rcases hab with hab | ⟨hab, hab'⟩ <;> rcases hbc with hbc | ⟨hbc, hbc'⟩
    · exact .inl (Nat.lt_trans hbc hab)
    · exact .inl (hbc ▸ hab)
    · exact .inl (hab ▸ hbc)
    · exact .inr ⟨hab.trans hbc, String.lt_trans hab' hbc'⟩
  trichotomy a b := by
    rcases Nat.lt_trichotomy a.size b.size with h | h | h
    · exact .inr (.inr (.inl h))
    · rcases StrictOrder.trichotomy a.text b.text with h' | h' | h'
      · exact .inl (.inr ⟨h, h'⟩)
      · exact .inr (.inl (ext h'))
      · exact .inr (.inr (.inr ⟨h.symm, h'⟩))
    · exact .inl (.inl h)

end Terminal

/-! ## Spellings of the empty string -/

/-- The spellings of an empty alternative: `ϵ` (U+03F5), `eps`, `ε` (U+03B5). -/
def epsilonSpellings : List String := [Symbol.epsilonName, "eps", "ε"]

/-- Whether a text is a spelling of the empty alternative. -/
def isEpsilonSpelling (text : String) : Bool := epsilonSpellings.contains text

/-! ## Tokenizers -/

/-- **A way to cut alternatives into symbols**, given by the terminals declared. -/
structure Tokenizer where
  /-- The declared terminals, longest first. -/
  declared : SortedSet Terminal

namespace Tokenizer

/-- The tokenizer that declares the given texts; empty ones declare nothing. -/
def declaring (texts : List String) : Tokenizer :=
  ⟨SortedSet.ofList (texts.filterMap Terminal.ofText?)⟩

/-- The tokenizer without declared terminals. -/
def plain : Tokenizer := ⟨∅⟩

instance : Inhabited Tokenizer := ⟨plain⟩

/-- The spellings of the declared terminals, longest first. -/
def terminals (t : Tokenizer) : List String := t.declared.toList.map Terminal.text

/-- The longest declared terminal that the text begins with. -/
def match? (t : Tokenizer) (text : List Char) : Option Terminal :=
  t.declared.toList.find? fun d => d.chars.isPrefixOf text

/-- What a character outside declared terminals stands for: nothing, if it is
blank or spells the empty string, and otherwise a non-terminal or a terminal. -/
def charSymbol? (defined : String → Bool) (c : Char) : Option Symbol :=
  let name := String.singleton c
  if Text.isBlank c || isEpsilonSpelling name then none
  else if c.isUpper && defined name then some (.nonTerminal name)
  else some (.terminal name)

/-- **The symbols of a text, from left to right**: at each place the longest
declared terminal that fits, or else what the character there stands for. -/
def scan (t : Tokenizer) (defined : String → Bool) : List Char → List Symbol
  | [] => []
  | c :: cs =>
    match t.match? (c :: cs) with
    | some d => .terminal d.text :: scan t defined (cs.drop (d.chars.length - 1))
    | none => (charSymbol? defined c).toList ++ scan t defined cs
termination_by text => text.length
decreasing_by
  · simp only [List.length_drop, List.length_cons]
    omega
  · simp

/-- **The alternative that a text spells.** A text that is one of the epsilon
spellings as a whole is the empty alternative; any other is scanned. -/
def tokenize (t : Tokenizer) (defined : String → Bool) (text : String) : Production :=
  if isEpsilonSpelling text then Production.epsilon
  else Production.ofSymbols (t.scan defined text.toList)

end Tokenizer

end GrammarWorkbench
