/-!
# A text inside another

Whether one text can be read somewhere inside another, at any place. The empty
text can be read inside every text.
-/

namespace GrammarWorkbench.Text

/-- Whether `needle` can be read inside the text, at some place. -/
def occursIn (needle : List Char) : List Char → Bool
  | [] => needle.isEmpty
  | c :: cs => needle.isPrefixOf (c :: cs) || occursIn needle cs

/-- **Occurring means standing between two pieces of the text.** -/
theorem occursIn_iff {needle text : List Char} :
    occursIn needle text = true ↔ ∃ before after, text = before ++ needle ++ after := by
  induction text with
  | nil => simp [occursIn]
  | cons c cs ih =>
    rw [occursIn, Bool.or_eq_true, List.isPrefixOf_iff_prefix, ih]
    constructor
    · rintro (⟨after, h⟩ | ⟨before, after, h⟩)
      · exact ⟨[], after, h.symm⟩
      · exact ⟨c :: before, after, congrArg (c :: ·) h⟩
    · rintro ⟨before, after, h⟩
      cases before with
      | nil => exact .inl ⟨after, h.symm⟩
      | cons b before => exact .inr ⟨before, after, (List.cons.inj h).2⟩

end GrammarWorkbench.Text
