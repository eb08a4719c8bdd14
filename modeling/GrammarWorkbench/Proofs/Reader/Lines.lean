import Mathlib.Data.List.Basic
import GrammarWorkbench.Grammar.Reader

/-!
# Rules as lines

A rule can be written as a line, `A -> x | y`, and reading the line gives the rule back
(`ofLine_text`); so does reading the lines of several rules (`ofText_intercalate_text`).
Conversely the rules that reading finds are of the kind that can be written
(`wellFormed_of_mem_ofText`): the left side is a capital, and between the bars stands at
least one piece, each of them trimmed, none empty, and none with a bar or a line break in
it.

Reading cuts a line three times, at the ends, at the arrow and at the bars. Written lines
are such that each cut finds what writing has put in: no piece holds a bar, no left side an
arrow, and blanks surround what is trimmed.
-/

namespace GrammarWorkbench

namespace Text

variable {text before after : List Char} {c : Char}

/-! ## Trimming -/

/-- **Neither end is blank.** -/
structure Trimmed (text : List Char) : Prop where
  /-- The first character. -/
  head : ∀ c ∈ text.head?, isBlank c = false
  /-- The last character. -/
  last : ∀ c ∈ text.getLast?, isBlank c = false

theorem Trimmed.of_forall (h : ∀ c ∈ text, isBlank c = false) : Trimmed text :=
  ⟨fun c hc => h c (List.mem_of_head? hc), fun c hc => h c (List.mem_of_getLast? hc)⟩

theorem toNat_of_isUpper (h : c.isUpper = true) : 65 ≤ c.toNat ∧ c.toNat ≤ 90 := by
  unfold Char.isUpper at h
  simpa [UInt32.le_iff_toNat_le] using h

/-- A capital is not blank. -/
theorem isBlank_of_isUpper (h : c.isUpper = true) : isBlank c = false := by
  have hrange := toNat_of_isUpper h
  unfold isBlank blankRanges
  simp only [List.any_cons, List.any_nil, Bool.or_false, Bool.or_eq_false_iff,
    Bool.and_eq_false_iff, decide_eq_false_iff_not]
  omega

/-- A space is blank. -/
theorem isBlank_of_mem_space : ∀ c ∈ [' '], isBlank c = true :=
  List.forall_mem_singleton.mpr rfl

theorem trimLeft_append (h : ∀ c ∈ before, isBlank c = true) (text : List Char) :
    trimLeft (before ++ text) = trimLeft text :=
  List.dropWhile_append_of_pos h

theorem trimLeft_eq_self (h : ∀ c ∈ text.head?, isBlank c = false) : trimLeft text = text := by
  cases text with
  | nil => rfl
  | cons a as => exact List.dropWhile_cons_of_neg (by simp [h a rfl])

theorem trimRight_append (h : ∀ c ∈ after, isBlank c = true) (text : List Char) :
    trimRight (text ++ after) = trimRight text := by
  unfold trimRight
  rw [List.reverse_append, trimLeft_append (fun c hc => h c (List.mem_reverse.mp hc))]

theorem trimRight_eq_self (h : ∀ c ∈ text.getLast?, isBlank c = false) :
    trimRight text = text := by
  unfold trimRight
  rw [trimLeft_eq_self (by rwa [List.head?_reverse]), List.reverse_reverse]

/-- **Trimming takes surrounding blanks away** and nothing else. -/
theorem trim_surrounded (h : Trimmed text) (hne : text ≠ []) (before after : List Char)
    (hbefore : ∀ c ∈ before, isBlank c = true) (hafter : ∀ c ∈ after, isBlank c = true) :
    trim (before ++ (text ++ after)) = text := by
  have hhead : ∀ c ∈ (text ++ after).head?, isBlank c = false := by
    rw [List.head?_append_of_ne_nil text hne]
    exact h.head
  rw [trim, trimLeft_append hbefore, trimLeft_eq_self hhead, trimRight_append hafter,
    trimRight_eq_self h.last]

theorem trim_eq_self (h : Trimmed text) : trim text = text := by
  rw [trim, trimLeft_eq_self h.head, trimRight_eq_self h.last]

/-- Trimming keeps a stretch from the front of what is cut at the front. -/
theorem trim_front (text : List Char) : trim text <+: trimLeft text := by
  have hsuffix := List.dropWhile_suffix (l := (trimLeft text).reverse) isBlank
  rw [← List.reverse_prefix, List.reverse_reverse] at hsuffix
  exact hsuffix

theorem mem_of_mem_trim (h : c ∈ trim text) : c ∈ text :=
  (List.dropWhile_suffix isBlank).subset ((trim_front text).subset h)

/-- **What has been trimmed is trimmed.** -/
theorem trimmed_trim (text : List Char) : Trimmed (trim text) where
  head := by
    intro c hc
    obtain ⟨rest, hrest⟩ := trim_front text
    cases htrim : trim text with
    | nil => rw [htrim] at hc; exact absurd hc (by simp)
    | cons a as =>
      rw [htrim] at hc hrest
      obtain rfl := Option.some.inj hc
      exact isBlank_head_trimLeft hrest.symm
  last := by
    intro c hc
    rw [trim, trimRight, List.getLast?_reverse] at hc
    cases htrim : trimLeft (trimLeft text).reverse with
    | nil => rw [htrim] at hc; exact absurd hc (by simp)
    | cons a as =>
      rw [htrim] at hc
      obtain rfl := Option.some.inj hc
      exact isBlank_head_trimLeft htrim

/-- **What a text is cut into at `sep` is part of it and does not hold `sep`.** -/
theorem of_mem_splitOn {sep : Char} {part : List Char} (h : part ∈ text.splitOn sep)
    (hc : c ∈ part) : c ∈ text ∧ c ≠ sep := by
  induction text generalizing part with
  | nil =>
    rw [List.splitOn_nil, List.mem_singleton] at h
    exact absurd hc (h ▸ List.not_mem_nil)
  | cons a as ih =>
    rw [List.splitOn_cons_eq_if_modifyHead] at h
    obtain ⟨first, others, hsplit⟩ := List.exists_cons_of_ne_nil (List.splitOn_ne_nil sep as)
    split at h
    · rcases List.mem_cons.mp h with rfl | h
      · exact absurd hc List.not_mem_nil
      · exact (ih h hc).imp_left (List.mem_cons_of_mem _)
    · next ha =>
      rw [hsplit, List.modifyHead_cons] at h
      rcases List.mem_cons.mp h with rfl | h
      · rcases List.mem_cons.mp hc with rfl | hc
        · exact ⟨List.mem_cons_self, by simpa using ha⟩
        · exact (ih (hsplit ▸ List.mem_cons_self) hc).imp_left (List.mem_cons_of_mem _)
      · exact (ih (hsplit ▸ List.mem_cons_of_mem _ h) hc).imp_left (List.mem_cons_of_mem _)

end Text

namespace RuleLine

variable {r : RuleLine} {rs : List RuleLine} {line left right : List Char}

/-! ## Rules that can be written -/

/-- **A text that can stand between bars.** -/
structure IsPiece (piece : List Char) : Prop where
  /-- Empty alternatives are refused. -/
  ne_nil : piece ≠ []
  /-- Pieces are trimmed. -/
  trimmed : Text.Trimmed piece
  /-- A bar ends a piece, and a line break the line. -/
  ne_of_mem : ∀ c ∈ piece, c ≠ '|' ∧ c ≠ '\n'

/-- **A rule that can be written as a line.** -/
structure WellFormed (r : RuleLine) : Prop where
  /-- The left side is a capital. -/
  left : r.left.isUpper = true
  /-- There is at least one alternative. -/
  pieces_ne_nil : r.pieces ≠ []
  /-- The alternatives are pieces. -/
  isPiece : ∀ piece ∈ r.pieces, IsPiece piece.toList

theorem cutArrow?_eq_some (h : cutArrow? line = some (left, right)) :
    line = left ++ '-' :: '>' :: right := by
  induction line using cutArrow?.induct generalizing left with
  | case1 => exact absurd h (by simp [cutArrow?])
  | case2 cs =>
    obtain ⟨rfl, rfl⟩ := Prod.mk.inj (Option.some.inj h)
    rfl
  | case3 c cs hne ih =>
    rw [cutArrow?] at h
    · obtain ⟨⟨left', right'⟩, hcut, heq⟩ := Option.map_eq_some_iff.mp h
      obtain ⟨rfl, rfl⟩ := Prod.mk.inj heq
      rw [ih hcut, List.cons_append]
    · exact hne

theorem capital?_eq_some_iff {text : List Char} {c : Char} :
    capital? text = some c ↔ text = [c] ∧ c.isUpper = true := by
  unfold capital?
  split
  · next d =>
    rw [Option.ite_none_right_eq_some, Option.some.injEq, List.singleton_inj]
    constructor
    · rintro ⟨h, rfl⟩
      exact ⟨rfl, h⟩
    · rintro ⟨rfl, h⟩
      exact ⟨h, rfl⟩
  · next hne =>
    simp only [reduceCtorEq, false_iff]
    rintro ⟨rfl, -⟩
    exact hne c rfl

/-- **What it takes for a line to state a rule.** -/
theorem ofLine_eq_ok_iff :
    ofLine line = .ok r ↔ ∃ left right, cutArrow? line = some (left, right)
      ∧ capital? (Text.trim left) = some r.left
      ∧ (∀ piece ∈ cutBars right, piece ≠ [])
      ∧ (cutBars right).map String.ofList = r.pieces := by
  have hany : ∀ right, (cutBars right).any List.isEmpty = true
      ↔ ¬ ∀ piece ∈ cutBars right, piece ≠ [] := by
    intro right
    simp only [List.any_eq_true, List.isEmpty_iff, ne_eq, not_forall, not_not, exists_prop]
  constructor
  · intro h
    unfold ofLine at h
    cases hcut : cutArrow? line with
    | none => rw [hcut] at h; exact absurd h (by simp)
    | some cut =>
      rw [hcut] at h
      cases hcapital : capital? (Text.trim cut.1) with
      | none => simp only [hcapital, reduceCtorEq] at h
      | some c =>
        simp only [hcapital] at h
        split at h
        · exact absurd h (by simp)
        · next hempty =>
          obtain rfl := Except.ok.inj h
          exact ⟨cut.1, cut.2, rfl, hcapital, not_not.mp (mt (hany cut.2).mpr hempty), rfl⟩
  · rintro ⟨left, right, hcut, hcapital, hne, hpieces⟩
    unfold ofLine
    simp only [hcut, hcapital]
    rw [if_neg (fun hempty => (hany right).mp hempty hne), hpieces]

theorem isPiece_of_mem_cutBars {piece : List Char} (hbreak : '\n' ∉ right)
    (h : piece ∈ cutBars right) (hne : piece ≠ []) : IsPiece piece := by
  obtain ⟨part, hpart, rfl⟩ := List.mem_map.mp h
  refine ⟨hne, Text.trimmed_trim part, fun c hc => ?_⟩
  obtain ⟨hright, hbar⟩ := Text.of_mem_splitOn hpart (Text.mem_of_mem_trim hc)
  exact ⟨hbar, fun hc' => hbreak (hc' ▸ hright)⟩

/-- **A line that is read states a rule that can be written.** -/
theorem wellFormed_of_ofLine (hbreak : '\n' ∉ line) (h : ofLine line = .ok r) :
    r.WellFormed := by
  obtain ⟨left, right, hcut, hcapital, hne, hpieces⟩ := ofLine_eq_ok_iff.mp h
  rw [cutArrow?_eq_some hcut] at hbreak
  have hright : '\n' ∉ right := fun hc => hbreak
    (List.mem_append_right _ (List.mem_cons_of_mem _ (List.mem_cons_of_mem _ hc)))
  refine ⟨(capital?_eq_some_iff.mp hcapital).2, ?_, fun piece hpiece => ?_⟩
  · rw [← hpieces]
    simp [cutBars, List.splitOn_ne_nil]
  · rw [← hpieces] at hpiece
    obtain ⟨text, htext, rfl⟩ := List.mem_map.mp hpiece
    rw [String.toList_ofList]
    exact isPiece_of_mem_cutBars hright htext (hne text htext)

/-- Every rule that is read is stated by one of the lines. -/
theorem exists_line_of_mem_ofLines {lines : List (List Char)} {n : Nat}
    (h : ofLines n lines = .ok rs) (hr : r ∈ rs) :
    ∃ line ∈ lines, ofLine (Text.trim line) = .ok r := by
  induction lines generalizing n rs with
  | nil =>
    obtain rfl := Except.ok.inj h
    exact absurd hr List.not_mem_nil
  | cons line lines ih =>
    have hlater : ∀ {m : Nat} {others : List RuleLine}, ofLines m lines = .ok others →
        r ∈ others → ∃ line' ∈ line :: lines, ofLine (Text.trim line') = .ok r := by
      intro m others hothers hr
      obtain ⟨line', hline', hread⟩ := ih hothers hr
      exact ⟨line', List.mem_cons_of_mem _ hline', hread⟩
    rw [ofLines] at h
    split at h
    · exact hlater h hr
    · cases hline : ofLine (Text.trim line) with
      | error fault => simp only [hline, reduceCtorEq] at h
      | ok first =>
        simp only [hline] at h
        cases hlines : ofLines (n + 1) lines with
        | error fault => rw [hlines] at h; exact absurd h (by simp [Except.map])
        | ok others =>
          rw [hlines] at h
          obtain rfl := Except.ok.inj h
          rcases List.mem_cons.mp hr with rfl | hr
          · exact ⟨line, List.mem_cons_self, hline⟩
          · exact hlater hlines hr

/-- **Reading finds rules that can be written.** -/
theorem wellFormed_of_mem_ofText {text : String} (h : ofText text = .ok rs) :
    ∀ r ∈ rs, r.WellFormed := by
  intro r hr
  obtain ⟨line, hline, hread⟩ := exists_line_of_mem_ofLines h hr
  refine wellFormed_of_ofLine (fun hc => ?_) hread
  exact (Text.of_mem_splitOn hline (Text.mem_of_mem_trim hc)).2 rfl

/-! ## Writing rules -/

/-- **The line that states a rule.** -/
def text (r : RuleLine) : String :=
  r.name ++ " -> " ++ String.intercalate " | " r.pieces

/-- What stands behind the arrow of the line. -/
def bars (pieces : List (List Char)) : List Char := ' ' :: [' ', '|', ' '].intercalate pieces

theorem toList_text (r : RuleLine) :
    r.text.toList = r.left :: ' ' :: '-' :: '>' :: bars (r.pieces.map String.toList) := by
  unfold text name bars
  rw [String.toList_append, String.toList_append, String.toList_singleton,
    String.toList_intercalate]
  rfl

/-- The line of a rule is not passed over. -/
theorem isSkipped_text (r : RuleLine) : isSkipped r.text.toList = false := by
  rw [toList_text]
  simp [isSkipped, endKeyword]

theorem bars_singleton (piece : List Char) : bars [piece] = ' ' :: piece := by
  rw [bars, List.intercalate_singleton]

/-- The first piece with the blanks around it, a bar, and the other pieces. -/
theorem bars_cons_cons (piece piece' : List Char) (pieces : List (List Char)) :
    bars (piece :: piece' :: pieces)
      = (' ' :: (piece ++ [' '])) ++ '|' :: bars (piece' :: pieces) := by
  unfold bars
  rw [List.intercalate_cons_cons]
  simp

/-- **Cutting at the bars gives the pieces back.** -/
theorem cutBars_bars {pieces : List (List Char)} (hne : pieces ≠ [])
    (h : ∀ piece ∈ pieces, IsPiece piece) : cutBars (bars pieces) = pieces := by
  induction pieces with
  | nil => exact absurd rfl hne
  | cons piece pieces ih =>
    have hpiece := h piece List.mem_cons_self
    have hbar : '|' ∉ piece := fun hc => (hpiece.ne_of_mem _ hc).1 rfl
    cases pieces with
    | nil =>
      have htrim := Text.trim_surrounded hpiece.trimmed hpiece.ne_nil [' '] []
        Text.isBlank_of_mem_space (fun _ hc => absurd hc List.not_mem_nil)
      rw [List.append_nil] at htrim
      rw [bars_singleton, cutBars, List.splitOn_eq_singleton (by simp [hbar])]
      exact congrArg (fun p => [p]) htrim
    | cons piece' pieces =>
      have hothers := ih (List.cons_ne_nil _ _) (fun p hp => h p (List.mem_cons_of_mem _ hp))
      have htrim := Text.trim_surrounded hpiece.trimmed hpiece.ne_nil [' '] [' ']
        Text.isBlank_of_mem_space Text.isBlank_of_mem_space
      unfold cutBars at hothers ⊢
      rw [bars_cons_cons, List.splitOn_append_cons_self_of_not_mem (by simp [hbar]),
        List.map_cons, hothers]
      exact congrArg (· :: piece' :: pieces) htrim

theorem bars_ne_nil (pieces : List (List Char)) : bars pieces ≠ [] := List.cons_ne_nil _ _

/-- The line ends as its last piece does. -/
theorem isBlank_last_bars {pieces : List (List Char)} (hne : pieces ≠ [])
    (h : ∀ piece ∈ pieces, IsPiece piece) :
    ∀ c ∈ (bars pieces).getLast?, Text.isBlank c = false := by
  induction pieces with
  | nil => exact absurd rfl hne
  | cons piece pieces ih =>
    have hpiece := h piece List.mem_cons_self
    cases pieces with
    | nil =>
      rw [bars_singleton, ← List.singleton_append,
        List.getLast?_append_of_ne_nil _ hpiece.ne_nil]
      exact hpiece.trimmed.last
    | cons piece' pieces =>
      rw [bars_cons_cons, List.append_cons, List.getLast?_append_of_ne_nil _ (bars_ne_nil _)]
      exact ih (List.cons_ne_nil _ _) (fun p hp => h p (List.mem_cons_of_mem _ hp))

/-- No line break gets between the pieces. -/
theorem newline_not_mem_bars {pieces : List (List Char)}
    (h : ∀ piece ∈ pieces, IsPiece piece) : '\n' ∉ bars pieces := by
  induction pieces with
  | nil => decide
  | cons piece pieces ih =>
    have hpiece : '\n' ∉ piece := fun hc => ((h piece List.mem_cons_self).ne_of_mem _ hc).2 rfl
    cases pieces with
    | nil => simp [bars_singleton, hpiece]
    | cons piece' pieces =>
      have hothers := ih (fun p hp => h p (List.mem_cons_of_mem _ hp))
      rw [bars_cons_cons]
      simp [hpiece, hothers]

namespace WellFormed

variable (h : r.WellFormed)
include h

theorem isPiece_toList : ∀ piece ∈ r.pieces.map String.toList, IsPiece piece := by
  intro piece hpiece
  obtain ⟨text, htext, rfl⟩ := List.mem_map.mp hpiece
  exact h.isPiece text htext

theorem pieces_toList_ne_nil : r.pieces.map String.toList ≠ [] :=
  fun hnil => h.pieces_ne_nil (List.map_eq_nil_iff.mp hnil)

/-- The left side is a capital and nothing else. -/
theorem left_ne {c : Char} (hc : c.isUpper = false) : r.left ≠ c := by
  intro hleft
  have hupper := h.left
  rw [hleft, hc] at hupper
  exact absurd hupper (by simp)

theorem trim_left : Text.trim [r.left, ' '] = [r.left] := by
  have hblank : Text.isBlank r.left = false := Text.isBlank_of_isUpper h.left
  have htrimmed : Text.Trimmed [r.left] := Text.Trimmed.of_forall (by simpa using hblank)
  exact Text.trim_surrounded htrimmed (List.cons_ne_nil _ _) [] [' ']
    (fun _ hc => absurd hc List.not_mem_nil) Text.isBlank_of_mem_space

theorem cutArrow?_text :
    cutArrow? r.text.toList
      = some ([r.left, ' '], bars (r.pieces.map String.toList)) := by
  have hleft : r.left ≠ '-' := h.left_ne (by decide)
  rw [toList_text, cutArrow?, cutArrow?, cutArrow?]
  · rfl
  · simp
  · exact fun _ hc => absurd hc hleft

/-- **Reading the line of a rule gives the rule back.** -/
theorem ofLine_text : ofLine r.text.toList = .ok r := by
  have hcut := cutBars_bars h.pieces_toList_ne_nil h.isPiece_toList
  refine ofLine_eq_ok_iff.mpr ⟨_, _, h.cutArrow?_text, ?_, ?_, ?_⟩
  · exact capital?_eq_some_iff.mpr ⟨h.trim_left, h.left⟩
  · rw [hcut]
    exact fun piece hpiece => (h.isPiece_toList piece hpiece).ne_nil
  · rw [hcut, List.map_map]
    simp [Function.comp_def]

theorem trim_text : Text.trim r.text.toList = r.text.toList := by
  refine Text.trim_eq_self ⟨?_, ?_⟩
  · rw [toList_text]
    intro c hc
    obtain rfl := Option.some.inj hc
    exact Text.isBlank_of_isUpper h.left
  · have hsplit : r.text.toList
        = [r.left, ' ', '-', '>'] ++ bars (r.pieces.map String.toList) := toList_text r
    rw [hsplit, List.getLast?_append_of_ne_nil _ (bars_ne_nil _)]
    exact isBlank_last_bars h.pieces_toList_ne_nil h.isPiece_toList

theorem newline_not_mem_text : '\n' ∉ r.text.toList := by
  have hleft : '\n' ≠ r.left := (h.left_ne (by decide)).symm
  have hbars := newline_not_mem_bars h.isPiece_toList
  rw [toList_text]
  simp [hleft, hbars]

end WellFormed

theorem ofLines_text (h : ∀ r ∈ rs, r.WellFormed) (n : Nat) :
    ofLines n (rs.map fun r => r.text.toList) = .ok rs := by
  induction rs generalizing n with
  | nil => rfl
  | cons r rs ih =>
    have hr := h r List.mem_cons_self
    have hskip : ¬ isSkipped r.text.toList = true := by simp [isSkipped_text]
    rw [List.map_cons, ofLines, hr.trim_text, if_neg hskip, hr.ofLine_text,
      ih (fun r' hr' => h r' (List.mem_cons_of_mem _ hr'))]
    rfl

/-- **Reading the lines of rules gives the rules back**, in their order. -/
theorem ofText_intercalate_text (h : ∀ r ∈ rs, r.WellFormed) :
    ofText (String.intercalate "\n" (rs.map text)) = .ok rs := by
  unfold ofText
  rw [String.toList_intercalate, List.map_map]
  cases rs with
  | nil => rfl
  | cons r rs =>
    have hlines : ∀ line ∈ (r :: rs).map (String.toList ∘ text), '\n' ∉ line := by
      intro line hline
      obtain ⟨r', hr', rfl⟩ := List.mem_map.mp hline
      exact (h r' hr').newline_not_mem_text
    have hsplit := List.splitOn_intercalate '\n' hlines (by simp)
    exact (congrArg (ofLines 1) hsplit).trans (ofLines_text h 1)

end RuleLine

end GrammarWorkbench
