import Mathlib.Data.List.TakeWhile
import GrammarWorkbench.Proofs.Reader.Lines

/-!
# Kinds of lines

Three kinds of lines make up all texts. A silent line is blank or says `END`. A line can state
a rule. All others are faulty, each in one of three ways: no arrow, a left side that is not a
single capital, a blank stretch between bars. These are looked for in this order, so a line with
several faults is blamed for the first.

The kinds are described here by what stands in a line (`RuleLine.Silent`, `RuleLine.States`,
`RuleLine.Faulty`) and not by how it is taken apart. That reading a line agrees with this is said
by `RuleLine.ofLines_cons_of_silent`, `RuleLine.ofLines_cons_of_states` and
`RuleLine.ofLines_cons_of_faulty`. The lines of a text, too, are described as line breaks end
them, with or without a carriage return (`Text.lines`).
-/

namespace GrammarWorkbench

namespace Text

variable {text after : List Char}

/-! ## Capitals and blanks -/

theorem toNat_toUpper (c : Char) :
    c.toUpper.toNat = if 97 ≤ c.toNat ∧ c.toNat ≤ 122 then c.toNat - 32 else c.toNat := by
  have hrange : ('a'.val ≤ c.val ∧ c.val ≤ 'z'.val) ↔ 97 ≤ c.toNat ∧ c.toNat ≤ 122 := by
    simp [UInt32.le_iff_toNat_le]
  unfold Char.toUpper
  split
  · next h =>
    have hlower := hrange.mp h
    rw [if_pos hlower]
    show (c.val + ('A'.val - 'a'.val)).toNat = _
    rw [UInt32.toNat_add]
    show (c.toNat + 4294967264) % 4294967296 = _
    omega
  · next h => rw [if_neg (mt hrange.mpr h)]

/-- **A capital stands for itself and its small letter.** -/
theorem toUpper_eq_iff {c d : Char} (hd : d.isUpper = true) :
    c.toUpper = d ↔ c = d ∨ c.toNat = d.toNat + 32 := by
  have hrange := toNat_of_isUpper hd
  rw [← Char.toNat_inj, ← Char.toNat_inj (c := c), toNat_toUpper]
  split <;> omega

/-- Nothing is left of a text that is blank, and of no other. -/
theorem trim_eq_nil_iff : trim text = [] ↔ ∀ c ∈ text, isBlank c = true := by
  constructor
  · intro h
    rw [trim, trimRight, List.reverse_eq_nil_iff] at h
    cases hleft : trimLeft text with
    | nil => exact List.dropWhile_eq_nil_iff.mp hleft
    | cons c cs =>
      have hblank := List.dropWhile_eq_nil_iff.mp h c (by simp [hleft])
      exact absurd hblank (by simp [isBlank_head_trimLeft hleft])
  · intro h
    rw [trim, show trimLeft text = [] from List.dropWhile_eq_nil_iff.mpr h]
    rfl

/-- Blanks at the end do not show. -/
theorem trim_append (hafter : ∀ c ∈ after, isBlank c = true) (text : List Char) :
    trim (text ++ after) = trim text := by
  by_cases h : ∀ c ∈ text, isBlank c = true
  · rw [trim_eq_nil_iff.mpr h, trim_eq_nil_iff]
    exact fun c hc => (List.mem_append.mp hc).elim (h c) (hafter c)
  · have hne : (trimLeft text).isEmpty = false := by
      rw [Bool.eq_false_iff, ne_eq, List.isEmpty_iff]
      exact mt List.dropWhile_eq_nil_iff.mp h
    have hleft : trimLeft (text ++ after) = trimLeft text ++ after := by
      unfold trimLeft at hne ⊢
      rw [List.dropWhile_append, hne, if_neg (by simp)]
    rw [trim, hleft, trimRight_append hafter, trim]

/-! ## Lines -/

/-- Puts a character in front of the first line. -/
def extendFirst (c : Char) : List (List Char) → List (List Char)
  | [] => [[c]]
  | line :: lines => (c :: line) :: lines

/-- **The lines of a text.** A line break ends a line, alone or behind a carriage return; what
stands behind the last line break is a line if it is not empty. -/
def lines : List Char → List (List Char)
  | [] => []
  | '\n' :: cs => [] :: lines cs
  | '\r' :: '\n' :: cs => [] :: lines cs
  | c :: cs => extendFirst c (lines cs)

/-- What stands before a line break: a line, with or without a carriage return. -/
def Ends (line part : List Char) : Prop := part = line ∨ part = line ++ ['\r']

theorem Ends.trim_eq {line part : List Char} (h : Ends line part) : trim part = trim line := by
  rcases h with rfl | rfl
  · rfl
  · exact trim_append (List.forall_mem_singleton.mpr rfl) line

/-- **Cutting at line breaks gives the lines**, and possibly nothing at the end. -/
theorem exists_splitOn_eq (text : List Char) :
    ∃ parts, List.Forall₂ Ends (lines text) parts
      ∧ (text.splitOn '\n' = parts ∨ text.splitOn '\n' = parts ++ [[]]) := by
  fun_induction lines text with
  | case1 => exact ⟨[], .nil, Or.inr (List.splitOn_nil _)⟩
  | case2 cs ih =>
    obtain ⟨parts, hparts, hsplit⟩ := ih
    refine ⟨[] :: parts, .cons (Or.inl rfl) hparts, ?_⟩
    rw [List.splitOn_cons_eq_if_modifyHead, if_pos (beq_self_eq_true _)]
    exact hsplit.imp (congrArg ([] :: ·)) (congrArg ([] :: ·))
  | case3 cs ih =>
    obtain ⟨parts, hparts, hsplit⟩ := ih
    refine ⟨['\r'] :: parts, .cons (Or.inr rfl) hparts, ?_⟩
    rw [List.splitOn_cons_eq_if_modifyHead, if_neg (by decide),
      List.splitOn_cons_eq_if_modifyHead, if_pos (beq_self_eq_true _), List.modifyHead_cons]
    exact hsplit.imp (congrArg (['\r'] :: ·)) (congrArg (['\r'] :: ·))
  | case4 c cs hbreak _ ih =>
    obtain ⟨parts, hparts, hsplit⟩ := ih
    rw [List.splitOn_cons_eq_if_modifyHead, if_neg (by simpa using hbreak)]
    generalize lines cs = ls at hparts
    cases hparts with
    | nil =>
      -- a last line of one character
      have hsplit := hsplit.resolve_left (List.splitOn_ne_nil _ cs)
      rw [hsplit]
      exact ⟨[[c]], .cons (Or.inl rfl) .nil, Or.inl rfl⟩
    | @cons line part _ parts hpart hparts =>
      refine ⟨(c :: part) :: parts, .cons (hpart.imp (congrArg _) (congrArg _)) hparts, ?_⟩
      rcases hsplit with hsplit | hsplit <;> rw [hsplit]
      · exact Or.inl rfl
      · exact Or.inr rfl

end Text

namespace RuleLine

variable {r : RuleLine} {line left right : List Char} {lines : List (List Char)}
  {fault : LineFault}

/-! ## Kinds of lines -/

/-- **A line that states nothing.** -/
inductive Silent (line : List Char) : Prop where
  /-- The line is blank. -/
  | blank (h : ∀ c ∈ line, Text.isBlank c = true)
  /-- The line says `END`, in capitals or small letters. -/
  | closing {e n d : Char} (h : Text.trim line = [e, n, d]) (he : e = 'E' ∨ e = 'e')
      (hn : n = 'N' ∨ n = 'n') (hd : d = 'D' ∨ d = 'd')

/-- **The texts around the first arrow.** -/
structure AroundArrow (line left right : List Char) : Prop where
  /-- The arrow stands between the two texts. -/
  eq : line = left ++ '-' :: '>' :: right
  /-- No arrow comes before. -/
  first : ¬ ['-', '>'] <:+: left

/-- **The line states the rule**: behind the first arrow nothing between bars is blank, and
before it stands a capital. -/
def States (line : List Char) (r : RuleLine) : Prop :=
  ∃ left right, AroundArrow (Text.trim line) left right
    ∧ Text.trim left = [r.left] ∧ r.left.isUpper = true
    ∧ (∀ piece ∈ right.splitOn '|', ∃ c ∈ piece, Text.isBlank c = false)
    ∧ r.pieces = (right.splitOn '|').map fun piece => String.ofList (Text.trim piece)

/-- **The line can stand in grammar text.** -/
def Accepted (line : List Char) : Prop := Silent line ∨ ∃ r, States line r

/-- **What a line is blamed for.** -/
inductive Faulty (line : List Char) : LineFault → Prop where
  /-- There is something and no arrow. -/
  | missingArrow (hsilent : ¬ Silent line) (h : ¬ ['-', '>'] <:+: Text.trim line) :
      Faulty line (.missingArrow (String.ofList (Text.trim line)))
  /-- What stands before the first arrow is not a capital. -/
  | badLeftSide {left right : List Char} (h : AroundArrow (Text.trim line) left right)
      (hleft : ¬ ∃ c : Char, Text.trim left = [c] ∧ c.isUpper = true) :
      Faulty line (.badLeftSide (String.ofList (Text.trim left)))
  /-- There is a capital before the first arrow, and some piece behind it is blank. -/
  | emptyAlternative {left right piece : List Char} {c : Char}
      (h : AroundArrow (Text.trim line) left right) (hleft : Text.trim left = [c])
      (hc : c.isUpper = true) (hpiece : piece ∈ right.splitOn '|')
      (hblank : ∀ c ∈ piece, Text.isBlank c = true) :
      Faulty line (.emptyAlternative (String.ofList (Text.trim line)))

/-! ## Taking a line apart -/

theorem isSkipped_trim_iff : isSkipped (Text.trim line) = true ↔ Silent line := by
  have hcase : ∀ {c d : Char} (lower : Char), d.isUpper = true → lower.toNat = d.toNat + 32 →
      (c.toUpper = d ↔ c = d ∨ c = lower) := by
    intro c d lower hd hlower
    rw [Text.toUpper_eq_iff hd, ← Char.toNat_inj (d := lower), hlower]
  unfold isSkipped
  rw [Bool.or_eq_true, List.isEmpty_iff, beq_iff_eq]
  show _ ∨ _ = ['E', 'N', 'D'] ↔ _
  constructor
  · rintro (h | h)
    · exact .blank (Text.trim_eq_nil_iff.mp h)
    · obtain ⟨e, nd, hline, he, hnd⟩ := List.map_eq_cons_iff.mp h
      obtain ⟨n, d', rfl, hn, hd'⟩ := List.map_eq_cons_iff.mp hnd
      obtain ⟨d, rest, rfl, hd, hrest⟩ := List.map_eq_cons_iff.mp hd'
      obtain rfl := List.map_eq_nil_iff.mp hrest
      exact .closing hline ((hcase _ (by decide) (by decide)).mp he)
        ((hcase _ (by decide) (by decide)).mp hn) ((hcase _ (by decide) (by decide)).mp hd)
  · intro h
    cases h with
    | blank h => exact Or.inl (Text.trim_eq_nil_iff.mpr h)
    | closing h he hn hd =>
      refine Or.inr ?_
      rw [h, List.map_cons, List.map_cons, List.map_cons, List.map_nil,
        (hcase 'e' (by decide) (by decide)).mpr he,
        (hcase 'n' (by decide) (by decide)).mpr hn,
        (hcase 'd' (by decide) (by decide)).mpr hd]

instance : DecidablePred Silent := fun _ => decidable_of_iff _ isSkipped_trim_iff

theorem not_arrow_of_cutArrow? (h : cutArrow? line = some (left, right)) :
    ¬ ['-', '>'] <:+: left := by
  induction line using cutArrow?.induct generalizing left with
  | case1 => exact absurd h (by simp [cutArrow?])
  | case2 cs =>
    obtain ⟨rfl, -⟩ := Prod.mk.inj (Option.some.inj h)
    simp
  | case3 c cs hne ih =>
    rw [cutArrow?] at h
    · obtain ⟨⟨left', right'⟩, hcut, heq⟩ := Option.map_eq_some_iff.mp h
      obtain ⟨rfl, rfl⟩ := Prod.mk.inj heq
      rw [List.infix_cons_iff, not_or]
      refine ⟨fun harrow => ?_, ih hcut⟩
      -- an arrow at the front would have been the first
      obtain ⟨hc, hhead⟩ := List.cons_prefix_cons.mp harrow
      obtain ⟨rest, rfl⟩ := hhead
      exact hne _ hc.symm (cutArrow?_eq_some hcut)
    · exact hne

/-- **The cut is made at the first arrow.** -/
theorem cutArrow?_eq_some_iff :
    cutArrow? line = some (left, right) ↔ AroundArrow line left right := by
  constructor
  · exact fun h => ⟨cutArrow?_eq_some h, not_arrow_of_cutArrow? h⟩
  · rintro ⟨rfl, hfirst⟩
    induction left with
    | nil => rfl
    | cons c cs ih =>
      rw [List.infix_cons_iff, not_or] at hfirst
      rw [List.cons_append, cutArrow?, ih hfirst.2]
      · rfl
      · rintro rest rfl hrest
        refine hfirst.1 ?_
        cases cs with
        | nil => exact absurd (List.cons.inj hrest).1 (by decide)
        | cons d cs =>
          obtain ⟨rfl, -⟩ := List.cons.inj hrest
          exact ⟨cs, rfl⟩

theorem cutArrow?_eq_none_iff : cutArrow? line = none ↔ ¬ ['-', '>'] <:+: line := by
  induction line using cutArrow?.induct with
  | case1 => simp [cutArrow?]
  | case2 cs =>
    refine iff_of_false (by simp [cutArrow?]) (not_not.mpr ?_)
    exact ⟨[], cs, rfl⟩
  | case3 c cs hne ih =>
    rw [cutArrow?, Option.map_eq_none_iff, ih, List.infix_cons_iff, not_or, iff_and_self]
    · rintro - ⟨rest, hrest⟩
      obtain ⟨hc, rfl⟩ := List.cons.inj hrest
      exact hne rest hc.symm rfl
    · exact hne

/-- Nothing between bars is empty if nothing there is blank. -/
theorem forall_mem_cutBars_iff :
    (∀ piece ∈ cutBars right, piece ≠ [])
      ↔ ∀ piece ∈ right.splitOn '|', ∃ c ∈ piece, Text.isBlank c = false := by
  unfold cutBars
  rw [List.forall_mem_map]
  refine forall₂_congr fun piece _ => ?_
  rw [ne_eq, Text.trim_eq_nil_iff]
  simp

theorem ofLine_eq_ok_iff_states : ofLine (Text.trim line) = .ok r ↔ States line r := by
  rw [ofLine_eq_ok_iff]
  refine exists_congr fun left => exists_congr fun right => ?_
  rw [cutArrow?_eq_some_iff, capital?_eq_some_iff, forall_mem_cutBars_iff, and_assoc, cutBars,
    List.map_map, eq_comm (b := r.pieces)]
  rfl

/-- A line with an arrow is not silent. -/
theorem AroundArrow.not_silent (h : AroundArrow (Text.trim line) left right) : ¬ Silent line := by
  have hmem : '-' ∈ Text.trim line := h.eq ▸ List.mem_append_right _ List.mem_cons_self
  intro hsilent
  cases hsilent with
  | blank hblank => exact absurd (hblank _ (Text.mem_of_mem_trim hmem)) (by decide)
  | closing hword he hn hd =>
    rw [hword] at hmem
    rcases he with rfl | rfl <;> rcases hn with rfl | rfl <;> rcases hd with rfl | rfl <;>
      exact absurd hmem (by decide)

theorem States.not_silent (h : States line r) : ¬ Silent line :=
  let ⟨_, _, harrow, _⟩ := h
  harrow.not_silent

theorem Faulty.not_silent (h : Faulty line fault) : ¬ Silent line := by
  cases h with
  | missingArrow hsilent _ => exact hsilent
  | badLeftSide harrow _ => exact harrow.not_silent
  | emptyAlternative harrow _ _ _ _ => exact harrow.not_silent

theorem ofLine_of_faulty (h : Faulty line fault) : ofLine (Text.trim line) = .error fault := by
  unfold ofLine
  cases h with
  | missingArrow _ h => rw [cutArrow?_eq_none_iff.mpr h]
  | badLeftSide h hleft =>
    rw [cutArrow?_eq_some_iff.mpr h]
    have hcapital : capital? (Text.trim _) = none :=
      Option.eq_none_iff_forall_ne_some.mpr fun c hc => hleft ⟨c, capital?_eq_some_iff.mp hc⟩
    simp only [hcapital]
  | emptyAlternative h hleft hc hpiece hblank =>
    rw [cutArrow?_eq_some_iff.mpr h]
    have hcapital := capital?_eq_some_iff.mpr ⟨hleft, hc⟩
    simp only [hcapital]
    refine if_pos (List.any_eq_true.mpr ⟨_, List.mem_map_of_mem hpiece, ?_⟩)
    exact List.isEmpty_iff.mpr (Text.trim_eq_nil_iff.mpr hblank)

/-- **There are no other lines.** -/
theorem line_cases (line : List Char) :
    Silent line ∨ (∃ r, States line r) ∨ ∃ fault, Faulty line fault := by
  by_cases hsilent : Silent line
  · exact Or.inl hsilent
  refine Or.inr ?_
  cases hcut : cutArrow? (Text.trim line) with
  | none => exact Or.inr ⟨_, .missingArrow hsilent (cutArrow?_eq_none_iff.mp hcut)⟩
  | some cut =>
    have harrow : AroundArrow (Text.trim line) cut.1 cut.2 := cutArrow?_eq_some_iff.mp hcut
    by_cases hleft : ∃ c : Char, Text.trim cut.1 = [c] ∧ c.isUpper = true
    · obtain ⟨c, hleft, hc⟩ := hleft
      by_cases hpieces : ∀ piece ∈ cut.2.splitOn '|', ∃ c ∈ piece, Text.isBlank c = false
      · exact Or.inl ⟨⟨c, _⟩, cut.1, cut.2, harrow, hleft, hc, hpieces, rfl⟩
      · push Not at hpieces
        obtain ⟨piece, hpiece, hblank⟩ := hpieces
        simp only [ne_eq, Bool.not_eq_false] at hblank
        exact Or.inr ⟨_, .emptyAlternative harrow hleft hc hpiece hblank⟩
    · exact Or.inr ⟨_, .badLeftSide harrow hleft⟩

theorem ofLines_cons_of_silent (h : Silent line) (n : Nat) :
    ofLines n (line :: lines) = ofLines (n + 1) lines := by
  rw [ofLines, if_pos (isSkipped_trim_iff.mpr h)]

theorem ofLines_cons_of_states (h : States line r) (n : Nat) :
    ofLines n (line :: lines) = (ofLines (n + 1) lines).map (r :: ·) := by
  rw [ofLines, if_neg (mt isSkipped_trim_iff.mp h.not_silent), ofLine_eq_ok_iff_states.mpr h]

theorem ofLines_cons_of_faulty (h : Faulty line fault) (n : Nat) :
    ofLines n (line :: lines) = .error (.badLine n fault) := by
  rw [ofLines, if_neg (mt isSkipped_trim_iff.mp h.not_silent), ofLine_of_faulty h]

/-- A faulty line cannot stand in grammar text. -/
theorem Faulty.not_accepted (h : Faulty line fault) : ¬ Accepted line := by
  rintro (hsilent | ⟨r, hstates⟩)
  · exact h.not_silent hsilent
  · have heq := (ofLine_of_faulty h).symm.trans (ofLine_eq_ok_iff_states.mpr hstates)
    exact absurd heq (by simp)

theorem accepted_iff :
    Accepted line ↔ isSkipped (Text.trim line) = true ∨ (ofLine (Text.trim line)).isOk = true := by
  have hok : (ofLine (Text.trim line)).isOk = true ↔ ∃ r, ofLine (Text.trim line) = .ok r := by
    cases ofLine (Text.trim line) <;> simp [Except.isOk, Except.toBool]
  rw [hok, isSkipped_trim_iff]
  exact or_congr_right (exists_congr fun r => ofLine_eq_ok_iff_states.symm)

instance : DecidablePred Accepted := fun _ => decidable_of_iff _ accepted_iff.symm

end RuleLine

end GrammarWorkbench
