/-!
# Blank characters

The characters that separate and surround text without being part of it: the
Unicode property `White_Space`. Format characters that show nothing, such as the
zero-width space U+200B or the byte order mark U+FEFF, are not blank, and neither
are the information separators U+001C to U+001F.
-/

namespace GrammarWorkbench.Text

/-- The ranges of blank code points, both ends included. -/
def blankRanges : List (Nat × Nat) :=
  [(0x0009, 0x000D), (0x0020, 0x0020), (0x0085, 0x0085), (0x00A0, 0x00A0), (0x1680, 0x1680),
   (0x2000, 0x200A), (0x2028, 0x2029), (0x202F, 0x202F), (0x205F, 0x205F), (0x3000, 0x3000)]

/-- Whether a character is blank. -/
def isBlank (c : Char) : Bool :=
  blankRanges.any fun r => r.1 ≤ c.toNat && c.toNat ≤ r.2

/-- Blank characters cut from the front. -/
def trimLeft (text : List Char) : List Char := text.dropWhile isBlank

/-- Blank characters cut from the end. -/
def trimRight (text : List Char) : List Char := (trimLeft text.reverse).reverse

/-- **Blank characters cut from both ends.** -/
def trim (text : List Char) : List Char := trimRight (trimLeft text)

/-- Nothing blank is left at the front. -/
theorem isBlank_head_trimLeft {text rest : List Char} {c : Char}
    (h : trimLeft text = c :: rest) : isBlank c = false := by
  induction text with
  | nil => simp [trimLeft] at h
  | cons a as ih =>
    unfold trimLeft at h
    rw [List.dropWhile_cons] at h
    split at h
    · exact ih h
    · next hb =>
      obtain ⟨rfl, _⟩ := List.cons.inj h
      simpa using hb

end GrammarWorkbench.Text
