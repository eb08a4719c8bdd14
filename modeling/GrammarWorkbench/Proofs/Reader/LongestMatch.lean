import GrammarWorkbench.Proofs.Reader.Printable
import GrammarWorkbench.Proofs.Tidy
import Mathlib.Data.Nat.Basic
import Mathlib.Order.Basic

/-!
# The longest declared terminal

Which symbols a text is made of can be said without a tokenizer, by the texts that are declared
(`Tokenizer.Spells`): at each place the longest of them that fits is taken as a whole, whatever
characters it is made of, and where none fits a single character is taken for what it is.

The tokenizer does not compare the candidates at a place. It tries the declared terminals in one
fixed order, those with more bytes first, and takes the first that fits. Of two texts that fit at
the same place one begins with the other, so the one with more characters has more bytes
(`Tokenizer.size_lt_size`), and the first that fits is the longest
(`Tokenizer.match?_declaring_eq_some_iff`). It is also the only one of its length, so a text is
spelled in one way.
-/

namespace GrammarWorkbench

theorem Terminal.ofText?_eq_some_iff {text : String} {t : Terminal} :
    ofText? text = some t ↔ text = t.text := by
  unfold ofText?
  split
  · next hempty => simp [hempty, Ne.symm t.text_ne_empty]
  · exact ⟨fun h => congrArg Terminal.text (Option.some.inj h), fun h => congrArg some (ext h)⟩

namespace Tokenizer

/-! ## The reference -/

/-- **The declared text `d` fits in front of `text`.** The empty text does not count as
declared. -/
structure Fits (declared : List String) (text : List Char) (d : String) : Prop where
  mem : d ∈ declared
  ne_empty : d ≠ ""
  front : d.toList <+: text

/-- **What is taken off the front of a text**: a piece, which stands for a symbol or for nothing,
with the rest of the text behind it. -/
inductive Takes (declared : List String) (defined : String → Bool) :
    List Char → List Char → Option Symbol → Prop where
  /-- The longest declared text that fits is one terminal. -/
  | declared {d : String} {rest : List Char} (hd : Fits declared (d.toList ++ rest) d)
      (longest : ∀ e, Fits declared (d.toList ++ rest) e → e.length ≤ d.length) :
      Takes declared defined d.toList rest (some (.terminal d))
  /-- Where none fits, blank characters and epsilon characters stand for nothing. -/
  | nothing {c : Char} {rest : List Char} (hnone : ∀ e, ¬ Fits declared (c :: rest) e)
      (hc : Text.isBlank c = true ∨ c = '\u03f5' ∨ c = '\u03b5') :
      Takes declared defined [c] rest none
  /-- A capital that is defined is a non-terminal. -/
  | nonTerminal {c : Char} {rest : List Char} (hnone : ∀ e, ¬ Fits declared (c :: rest) e)
      (hc : c.isUpper = true) (hdefined : defined (String.singleton c) = true) :
      Takes declared defined [c] rest (some (.nonTerminal (String.singleton c)))
  /-- Any other character is a terminal. -/
  | terminal {c : Char} {rest : List Char} (hnone : ∀ e, ¬ Fits declared (c :: rest) e)
      (hc : ¬ (Text.isBlank c = true ∨ c = '\u03f5' ∨ c = '\u03b5'))
      (hname : ¬ (c.isUpper = true ∧ defined (String.singleton c) = true)) :
      Takes declared defined [c] rest (some (.terminal (String.singleton c)))

/-- **The symbols that a text spells**, piece by piece from left to right until it is used up. -/
inductive Spells (declared : List String) (defined : String → Bool) :
    List Char → List Symbol → Prop where
  /-- The empty text spells no symbol. -/
  | nil : Spells declared defined [] []
  /-- The first piece, and then the others. -/
  | cons {piece rest : List Char} {s : Option Symbol} {l : List Symbol}
      (h : Takes declared defined piece rest s) (hrest : Spells declared defined rest l) :
      Spells declared defined (piece ++ rest) (s.toList ++ l)

variable {declared : List String} {defined : String → Bool} {text piece rest : List Char}
  {s : Option Symbol} {l : List Symbol} {c : Char}

/-! ## The first that fits is the longest -/

/-- **Of two beginnings of one text, the one with more characters has more bytes.** -/
theorem size_lt_size {d e : String} (hd : d.toList <+: text) (he : e.toList <+: text)
    (h : d.length < e.length) : d.utf8ByteSize < e.utf8ByteSize := by
  rw [← String.length_toList, ← String.length_toList] at h
  obtain ⟨more, hmore⟩ := List.prefix_of_prefix_length_le hd he (Nat.le_of_lt h)
  have happend : e = d ++ String.ofList more := by
    refine String.toList_injective ?_
    rw [String.toList_append, String.toList_ofList, hmore]
  have hne : String.ofList more ≠ "" := by
    intro hempty
    rw [← hmore, String.ofList_eq_empty_iff.mp hempty, List.append_nil] at h
    exact Nat.lt_irrefl _ h
  have hpos : (String.ofList more).utf8ByteSize ≠ 0 := mt String.utf8ByteSize_eq_zero_iff.mp hne
  rw [happend, String.utf8ByteSize_append]
  omega

theorem mem_declaring_iff {t : Terminal} :
    t ∈ (declaring declared).declared ↔ t.text ∈ declared := by
  show t ∈ SortedSet.ofList _ ↔ _
  rw [SortedSet.mem_ofList, List.mem_filterMap]
  constructor
  · rintro ⟨d, hd, hsome⟩
    exact Terminal.ofText?_eq_some_iff.mp hsome ▸ hd
  · exact fun ht => ⟨t.text, ht, Terminal.ofText?_eq_some_iff.mpr rfl⟩

/-- A declared text that fits is the spelling of a declared terminal. -/
theorem fits_iff {d : String} : Fits declared text d
    ↔ ∃ t ∈ (declaring declared).declared.toList, t.chars.isPrefixOf text = true ∧ t.text = d := by
  constructor
  · intro h
    exact ⟨⟨d, h.ne_empty⟩, mem_declaring_iff.mpr h.mem, List.isPrefixOf_iff_prefix.mpr h.front,
      rfl⟩
  · rintro ⟨t, ht, hfront, rfl⟩
    exact ⟨mem_declaring_iff.mp ht, t.text_ne_empty, List.isPrefixOf_iff_prefix.mp hfront⟩

theorem match?_declaring_eq_none_iff :
    (declaring declared).match? text = none ↔ ∀ d, ¬ Fits declared text d := by
  unfold match?
  rw [List.find?_eq_none]
  constructor
  · intro h d hd
    obtain ⟨t, ht, hfront, -⟩ := fits_iff.mp hd
    exact h t ht hfront
  · exact fun h t ht hfront => h t.text (fits_iff.mpr ⟨t, ht, hfront, rfl⟩)

/-- What is found fits, and nothing longer does. -/
theorem fits_of_match? {t : Terminal} (h : (declaring declared).match? text = some t) :
    Fits declared text t.text ∧ ∀ d, Fits declared text d → d.length ≤ t.text.length := by
  unfold match? at h
  obtain ⟨hfront, before, behind, hsplit, hbefore⟩ := List.find?_eq_some_iff_append.mp h
  have hfits : Fits declared text t.text := by
    refine fits_iff.mpr ⟨t, ?_, hfront, rfl⟩
    rw [hsplit]
    exact List.mem_append_right _ List.mem_cons_self
  refine ⟨hfits, fun d hd => ?_⟩
  obtain ⟨e, he, hefront, rfl⟩ := fits_iff.mp hd
  rw [hsplit, List.mem_append, List.mem_cons] at he
  rcases he with he | rfl | he
  · have hnot := hbefore e he
    rw [hefront] at hnot
    exact absurd hnot (by decide)
  · exact Nat.le_refl _
  · -- what comes later in the order has no more bytes
    have hsorted := (declaring declared).declared.sorted
    rw [hsplit, List.pairwise_append, List.pairwise_cons] at hsorted
    refine Nat.le_of_not_lt fun hlt => ?_
    have hsize : t.size < e.size := size_lt_size hfits.front hd.front hlt
    rcases hsorted.2.1.1 e he with hless | ⟨heq, -⟩
    · exact Nat.lt_asymm hless hsize
    · exact Nat.ne_of_lt hsize heq

/-- **The tokenizer finds the longest declared text that fits.** -/
theorem match?_declaring_eq_some_iff {t : Terminal} :
    (declaring declared).match? text = some t
      ↔ Fits declared text t.text ∧ ∀ d, Fits declared text d → d.length ≤ t.text.length := by
  refine ⟨fits_of_match?, fun ⟨hfits, hlongest⟩ => ?_⟩
  cases hmatch : (declaring declared).match? text with
  | none => exact absurd hfits (match?_declaring_eq_none_iff.mp hmatch _)
  | some t' =>
    obtain ⟨hfits', hlongest'⟩ := fits_of_match? hmatch
    have hlength : t'.chars.length = t.chars.length := by
      show t'.text.toList.length = t.text.toList.length
      rw [String.length_toList, String.length_toList]
      exact Nat.le_antisymm (hlongest _ hfits') (hlongest' _ hfits)
    have hchars : t'.chars = t.chars :=
      (List.prefix_of_prefix_length_le hfits'.front hfits.front hlength.le).eq_of_length hlength
    exact congrArg some (Terminal.ext (String.toList_injective hchars))

/-! ## Piece by piece -/

/-- A character that fits nothing declared stands for nothing if it is blank or an epsilon
character. -/
theorem charSymbol?_eq_none_iff :
    charSymbol? defined c = none ↔ Text.isBlank c = true ∨ c = '\u03f5' ∨ c = '\u03b5' := by
  rw [← isEpsilonSpelling_singleton_iff, ← Bool.or_eq_true]
  unfold charSymbol?
  dsimp only
  split
  · next h => exact iff_of_true rfl h
  · next h => split <;> simp [h]

/-- A declared terminal that is found is taken off the text. -/
theorem scan_of_match? {u : Tokenizer} {t : Terminal} (h : u.match? (t.chars ++ rest) = some t) :
    u.scan defined (t.chars ++ rest) = .terminal t.text :: u.scan defined rest := by
  obtain ⟨c, cs, hchars⟩ := List.exists_cons_of_ne_nil t.chars_ne_nil
  have htext : t.chars ++ rest = c :: (cs ++ rest) := by rw [hchars, List.cons_append]
  rw [htext] at h ⊢
  rw [scan, h]
  dsimp only
  rw [hchars, List.length_cons, Nat.add_sub_cancel, List.drop_left]

/-- Where none is found, the first character is read by itself. -/
theorem scan_of_match?_eq_none {u : Tokenizer} (h : u.match? (c :: rest) = none) :
    u.scan defined ([c] ++ rest) = (charSymbol? defined c).toList ++ u.scan defined rest := by
  rw [List.singleton_append, scan, h]

/-- **A scan begins with what is taken off the front.** -/
theorem Takes.scan_eq (h : Takes declared defined piece rest s) :
    (declaring declared).scan defined (piece ++ rest)
      = s.toList ++ (declaring declared).scan defined rest := by
  cases h with
  | @declared d _ hd longest =>
    exact scan_of_match? (t := ⟨d, hd.ne_empty⟩) (match?_declaring_eq_some_iff.mpr ⟨hd, longest⟩)
  | nothing hnone hc =>
    rw [scan_of_match?_eq_none (match?_declaring_eq_none_iff.mpr hnone),
      charSymbol?_eq_none_iff.mpr hc]
  | @nonTerminal c _ hnone hc hdefined =>
    have hsymbol : charSymbol? defined c = some (.nonTerminal (String.singleton c)) := by
      refine charSymbol?_eq_some_iff.mpr ⟨Text.isBlank_of_isUpper hc, ?_, ?_⟩
      · rw [Bool.eq_false_iff, ne_eq, isEpsilonSpelling_singleton_iff, not_or]
        exact ⟨ne_of_isUpper hc (by decide), ne_of_isUpper hc (by decide)⟩
      · rw [hc, hdefined]
        rfl
    rw [scan_of_match?_eq_none (match?_declaring_eq_none_iff.mpr hnone), hsymbol]
  | @terminal c _ hnone hc hname =>
    have hsymbol : charSymbol? defined c = some (.terminal (String.singleton c)) := by
      rw [not_or, ← isEpsilonSpelling_singleton_iff, Bool.not_eq_true, Bool.not_eq_true] at hc
      refine charSymbol?_eq_some_iff.mpr ⟨hc.1, hc.2, ?_⟩
      rw [if_neg (by rwa [Bool.and_eq_true])]
    rw [scan_of_match?_eq_none (match?_declaring_eq_none_iff.mpr hnone), hsymbol]

/-- **From every text that is not used up, something is taken.** -/
theorem exists_takes (declared : List String) (defined : String → Bool) (c : Char)
    (cs : List Char) :
    ∃ piece rest s, piece ++ rest = c :: cs ∧ piece ≠ [] ∧ Takes declared defined piece rest s := by
  cases hmatch : (declaring declared).match? (c :: cs) with
  | some t =>
    obtain ⟨hfits, hlongest⟩ := fits_of_match? hmatch
    obtain ⟨rest, hrest⟩ := hfits.front
    rw [← hrest] at hfits hlongest
    exact ⟨_, rest, _, hrest, t.chars_ne_nil, .declared hfits hlongest⟩
  | none =>
    have hnone := match?_declaring_eq_none_iff.mp hmatch
    by_cases hc : Text.isBlank c = true ∨ c = '\u03f5' ∨ c = '\u03b5'
    · exact ⟨[c], cs, _, rfl, List.cons_ne_nil _ _, .nothing hnone hc⟩
    · by_cases hname : c.isUpper = true ∧ defined (String.singleton c) = true
      · exact ⟨[c], cs, _, rfl, List.cons_ne_nil _ _, .nonTerminal hnone hname.1 hname.2⟩
      · exact ⟨[c], cs, _, rfl, List.cons_ne_nil _ _, .terminal hnone hc hname⟩

/-- **A text spells what the scan finds, and nothing else.** -/
theorem spells_iff :
    Spells declared defined text l ↔ l = (declaring declared).scan defined text := by
  constructor
  · intro h
    induction h with
    | nil => rw [scan]
    | cons h _ ih => rw [h.scan_eq, ih]
  · rintro rfl
    -- a piece has characters, so the rest is shorter
    induction hlength : text.length using Nat.strong_induction_on generalizing text with
    | h n ih =>
      cases text with
      | nil => rw [scan]; exact .nil
      | cons c cs =>
        obtain ⟨piece, rest, s, htext, hpiece, htakes⟩ := exists_takes declared defined c cs
        have hpos := List.length_pos_iff.mpr hpiece
        rw [← htext, List.length_append] at hlength
        rw [← htext, htakes.scan_eq]
        exact .cons htakes (ih rest.length (by omega) rfl)

/-- **Tokenizers that declare the same texts are equal**, whatever the order and repetition of
the declarations. The empty text declares nothing. -/
theorem declaring_congr {others : List String}
    (h : ∀ d, d ≠ "" → (d ∈ others ↔ d ∈ declared)) : declaring others = declaring declared := by
  have hset : (declaring others).declared = (declaring declared).declared := by
    refine SortedSet.ext fun t => ?_
    rw [mem_declaring_iff, mem_declaring_iff]
    exact h t.text t.text_ne_empty
  exact congrArg Tokenizer.mk hset

/-! ## The result -/

/-- **Tokenizing takes the longest declared text everywhere.** A text that is no spelling of the
empty alternative spells one sequence of symbols, taken from left to right until the text is used
up, and these are the symbols found; if there are none, the alternative is empty. Of the texts
declared only the set of those that are not empty matters. -/
theorem tokenize_longest_match (declared : List String) (defined : String → Bool) :
    (∀ text : String, text ∉ epsilonSpellings →
        ∃ l, (∀ l', Spells declared defined text.toList l' ↔ l' = l)
          ∧ ((declaring declared).tokenize defined text).symbols
            = if l = [] then [.epsilon] else l)
      ∧ ∀ others : List String, (∀ d, d ≠ "" → (d ∈ others ↔ d ∈ declared)) →
        ∀ text, (declaring others).tokenize defined text
          = (declaring declared).tokenize defined text := by
  refine ⟨fun text htext => ?_, fun others h text => by rw [declaring_congr h]⟩
  refine ⟨(declaring declared).scan defined text.toList, fun l' => spells_iff, ?_⟩
  have hspelling : isEpsilonSpelling text = false :=
    Bool.eq_false_iff.mpr fun h => htext (List.contains_iff_mem.mp h)
  -- a scan finds no mark of the empty string, so none is left out
  have hmark : ((declaring declared).scan defined text.toList).filter (· ≠ Symbol.epsilon)
      = (declaring declared).scan defined text.toList := by
    refine List.filter_eq_self.mpr fun s hs => ?_
    rcases of_origin (origin_of_mem_scan hs) with ⟨name, rfl⟩ | ⟨name, rfl, -⟩ <;> rfl
  unfold tokenize
  rw [if_neg (Bool.eq_false_iff.mp hspelling)]
  unfold Production.symbols Production.isEpsilon
  rw [Production.body_ofSymbols, hmark]
  simp only [List.isEmpty_iff]

/-- Terminals of several characters, one of them with an epsilon character, a capital and a blank
in it; two are declared more than once, or are no text at all. -/
def crowded : List String := ["i", "", "id", "ϵA d", "id"]

/-- Where `i` and `id` fit, `id` is taken; the blanks and the capital inside of the last terminal
belong to it, and those outside are read one by one. The order of the declarations does not
matter. -/
theorem tokenize_longest_match_crowded :
    ("id A iϵA dBε" ∉ epsilonSpellings
        ∧ Spells crowded (· == "A") "id A iϵA dBε".toList
          [.terminal "id", .nonTerminal "A", .terminal "i", .terminal "ϵA d", .terminal "B"]
        ∧ ((declaring crowded).tokenize (· == "A") "id A iϵA dBε").symbols
          = [.terminal "id", .nonTerminal "A", .terminal "i", .terminal "ϵA d", .terminal "B"])
      ∧ (∀ d, d ≠ "" → (d ∈ ["ϵA d", "id", "i", "i"] ↔ d ∈ crowded))
      ∧ (declaring ["ϵA d", "id", "i", "i"]).tokenize (· == "A") "id A iϵA dBε"
        = (declaring crowded).tokenize (· == "A") "id A iϵA dBε" := by
  have hspelling : "id A iϵA dBε" ∉ epsilonSpellings := by decide
  have hsame : ∀ d, d ≠ "" → (d ∈ ["ϵA d", "id", "i", "i"] ↔ d ∈ crowded) := by
    intro d hd
    simp only [crowded, List.mem_cons, List.not_mem_nil, or_false, hd, false_or]
    grind
  have hsymbols : ((declaring crowded).tokenize (· == "A") "id A iϵA dBε").symbols
      = [.terminal "id", .nonTerminal "A", .terminal "i", .terminal "ϵA d", .terminal "B"] := by
    decide +kernel
  obtain ⟨hspells, hothers⟩ := tokenize_longest_match crowded (· == "A")
  obtain ⟨l, hl, hresult⟩ := hspells "id A iϵA dBε" hspelling
  rw [hsymbols] at hresult
  refine ⟨⟨hspelling, (hl _).mpr ?_, hsymbols⟩, hsame, hothers _ hsame _⟩
  split at hresult
  · exact absurd hresult (by decide)
  · exact hresult

end Tokenizer

end GrammarWorkbench
