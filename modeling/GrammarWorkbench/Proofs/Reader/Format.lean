import Mathlib.Algebra.GroupWithZero.Nat
import GrammarWorkbench.Proofs.Reader.Kinds
import GrammarWorkbench.Proofs.Reader.RoundTrip

/-!
# What is accepted, and what is blamed

A text is accepted if none of its lines is faulty, and then each line that is not silent states
a rule (`RuleLine.Reads`). Otherwise the first faulty line is blamed under its number
(`RuleLine.ofLines_of_faulty`). Silent lines count when lines are numbered and have no other
effect, so one can insert them everywhere (`RuleLine.Insertion`).

Nothing of this depends on the terminals that are declared (`Grammar.parseWith_format`).
-/

namespace GrammarWorkbench

namespace RuleLine

variable {rules front back : List RuleLine} {line : List Char}
  {lines before after : List (List Char)} {fault : LineFault} {e : GrammarError}

/-! ## Reading lines one after the other -/

/-- **The lines state the rules**, in their order. -/
inductive Reads : List (List Char) → List RuleLine → Prop where
  | nil : Reads [] []
  /-- A silent line adds nothing. -/
  | silent {line : List Char} {lines : List (List Char)} {rules : List RuleLine}
      (h : Silent line) (hlines : Reads lines rules) : Reads (line :: lines) rules
  /-- Each other line adds a rule. -/
  | states {line : List Char} {r : RuleLine} {lines : List (List Char)}
      {rules : List RuleLine} (h : States line r) (hlines : Reads lines rules) :
      Reads (line :: lines) (r :: rules)

theorem Reads.accepted (h : Reads lines rules) : ∀ line ∈ lines, Accepted line := by
  induction h with
  | nil => exact fun _ hline => absurd hline List.not_mem_nil
  | silent h _ ih => exact List.forall_mem_cons.mpr ⟨Or.inl h, ih⟩
  | states h _ ih => exact List.forall_mem_cons.mpr ⟨Or.inr ⟨_, h⟩, ih⟩

theorem exists_reads (h : ∀ line ∈ lines, Accepted line) : ∃ rules, Reads lines rules := by
  induction lines with
  | nil => exact ⟨[], .nil⟩
  | cons line lines ih =>
    obtain ⟨hline, hlines⟩ := List.forall_mem_cons.mp h
    obtain ⟨rules, hrules⟩ := ih hlines
    rcases hline with hsilent | ⟨r, hstates⟩
    · exact ⟨rules, hrules.silent hsilent⟩
    · exact ⟨r :: rules, hrules.states hstates⟩

theorem Reads.append (h : Reads before front) (h' : Reads after back) :
    Reads (before ++ after) (front ++ back) := by
  induction h with
  | nil => exact h'
  | silent h _ ih => exact ih.silent h
  | states h _ ih => exact ih.states h

/-- Silent lines state no rule. -/
theorem Reads.of_silent (h : ∀ line ∈ lines, Silent line) : Reads lines [] := by
  induction lines with
  | nil => exact .nil
  | cons line lines ih =>
    obtain ⟨hline, hlines⟩ := List.forall_mem_cons.mp h
    exact (ih hlines).silent hline

/-- **Accepted lines are read**, whatever the number of the first. -/
theorem ofLines_of_reads (h : Reads lines rules) (n : Nat) : ofLines n lines = .ok rules := by
  induction h generalizing n with
  | nil => rfl
  | silent h _ ih => rw [ofLines_cons_of_silent h, ih]
  | states h _ ih => rw [ofLines_cons_of_states h, ih]; rfl

/-- **The first faulty line is blamed.** -/
theorem ofLines_of_faulty (hbefore : ∀ line ∈ before, Accepted line) (h : Faulty line fault)
    (after : List (List Char)) (n : Nat) :
    ofLines n (before ++ line :: after) = .error (.badLine (n + before.length) fault) := by
  induction before generalizing n with
  | nil => exact ofLines_cons_of_faulty h n
  | cons first before ih =>
    obtain ⟨hfirst, hbefore⟩ := List.forall_mem_cons.mp hbefore
    have hrest := ih hbefore (n + 1)
    rw [List.length_cons, ← Nat.add_right_comm, Nat.add_assoc] at *
    rcases hfirst with hsilent | ⟨r, hstates⟩
    · rw [List.cons_append, ofLines_cons_of_silent hsilent, hrest]
    · rw [List.cons_append, ofLines_cons_of_states hstates, hrest]
      rfl

/-- Lines are accepted, or there is a first one that is faulty. -/
theorem accepted_or_exists_faulty (lines : List (List Char)) :
    (∀ line ∈ lines, Accepted line) ∨ ∃ before line after fault,
      lines = before ++ line :: after ∧ (∀ line ∈ before, Accepted line) ∧ Faulty line fault := by
  induction lines with
  | nil => exact Or.inl fun _ hline => absurd hline List.not_mem_nil
  | cons line lines ih =>
    have haccepted : Accepted line ∨ ∃ fault, Faulty line fault :=
      (line_cases line).elim (fun h => Or.inl (Or.inl h)) (Or.imp_left Or.inr)
    rcases haccepted with haccepted | ⟨fault, hfaulty⟩
    · rcases ih with hall | ⟨before, bad, after, fault, rfl, hbefore, hfaulty⟩
      · exact Or.inl (List.forall_mem_cons.mpr ⟨haccepted, hall⟩)
      · exact Or.inr ⟨line :: before, bad, after, fault, rfl,
          List.forall_mem_cons.mpr ⟨haccepted, hbefore⟩, hfaulty⟩
    · exact Or.inr ⟨[], line, lines, fault, rfl,
        fun _ hline => absurd hline List.not_mem_nil, hfaulty⟩

theorem ofLines_eq_ok_iff {n : Nat} : ofLines n lines = .ok rules ↔ Reads lines rules := by
  refine ⟨fun h => ?_, fun h => ofLines_of_reads h n⟩
  rcases accepted_or_exists_faulty lines with hall | ⟨before, line, after, fault, rfl, hbefore, hf⟩
  · obtain ⟨rules', hreads⟩ := exists_reads hall
    obtain rfl := Except.ok.inj ((ofLines_of_reads hreads n).symm.trans h)
    exact hreads
  · exact absurd ((ofLines_of_faulty hbefore hf after n).symm.trans h) (by simp)

theorem ofLines_eq_error_iff {n : Nat} :
    ofLines n lines = .error e ↔ ∃ before line after fault, lines = before ++ line :: after
      ∧ (∀ line ∈ before, Accepted line) ∧ Faulty line fault
      ∧ e = .badLine (n + before.length) fault := by
  constructor
  · intro h
    rcases accepted_or_exists_faulty lines
      with hall | ⟨before, line, after, fault, rfl, hbefore, hf⟩
    · obtain ⟨rules', hreads⟩ := exists_reads hall
      exact absurd ((ofLines_of_reads hreads n).symm.trans h) (by simp)
    · have heq := (ofLines_of_faulty hbefore hf after n).symm.trans h
      exact ⟨before, line, after, fault, rfl, hbefore, hf, (Except.error.inj heq).symm⟩
  · rintro ⟨before, line, after, fault, rfl, hbefore, hf, rfl⟩
    exact ofLines_of_faulty hbefore hf after n

/-! ## Reading a text -/

/-- Carriage returns at the ends of lines do not show. -/
theorem ofLines_of_ends {parts : List (List Char)} (h : List.Forall₂ Text.Ends lines parts)
    (n : Nat) : ofLines n parts = ofLines n lines := by
  induction h generalizing n with
  | nil => rfl
  | cons hpart _ ih => rw [ofLines, ofLines, hpart.trim_eq, ih]

/-- Nothing behind the last line does not show either. -/
theorem ofLines_concat_nil (lines : List (List Char)) (n : Nat) :
    ofLines n (lines ++ [[]]) = ofLines n lines := by
  induction lines generalizing n with
  | nil => rfl
  | cons line lines ih => rw [List.cons_append, ofLines, ofLines, ih]

/-- **A text is read line by line.** -/
theorem ofText_eq (text : String) : ofText text = ofLines 1 (Text.lines text.toList) := by
  obtain ⟨parts, hparts, hsplit⟩ := Text.exists_splitOn_eq text.toList
  rw [ofText, ← ofLines_of_ends hparts]
  rcases hsplit with hsplit | hsplit <;> rw [hsplit]
  exact ofLines_concat_nil parts 1

/-! ## Inserting silent lines -/

/-- **Silent lines to be inserted into a text.** -/
structure Insertion where
  /-- The lines of the text, each with the lines that are put in front of it. -/
  entries : List (List (List Char) × List Char)
  /-- The lines that are put behind the last one. -/
  last : List (List Char)
  /-- What is put in front of a line is silent. -/
  silent_of_entry : ∀ entry ∈ entries, ∀ line ∈ entry.1, Silent line
  /-- What is put behind the last line is silent. -/
  silent_of_last : ∀ line ∈ last, Silent line

namespace Insertion

/-- The lines of the text. -/
def original (i : Insertion) : List (List Char) := i.entries.map Prod.snd

/-- The lines with those inserted. -/
def extended (i : Insertion) : List (List Char) :=
  i.entries.flatMap (fun entry => entry.1 ++ [entry.2]) ++ i.last

/-- How many lines are inserted before line `n`, counted from one. -/
def shift (i : Insertion) (n : Nat) : Nat := ((i.entries.take n).map fun entry => entry.1.length).sum

end Insertion

/-- **Inserted lines add nothing.** -/
theorem Reads.inserted (i : Insertion) (h : Reads i.original rules) : Reads i.extended rules := by
  obtain ⟨entries, last, hentries, hlast⟩ := i
  unfold Insertion.original at h
  unfold Insertion.extended
  dsimp only at h ⊢
  induction entries generalizing rules with
  | nil =>
    cases h
    exact .of_silent hlast
  | cons entry entries ih =>
    obtain ⟨hentry, hentries⟩ := List.forall_mem_cons.mp hentries
    rw [List.flatMap_cons, List.append_assoc, List.append_assoc, List.singleton_append]
    refine (Reads.of_silent hentry).append ?_
    cases h with
    | silent h hlines => exact (ih hentries hlines).silent h
    | states h hlines => exact (ih hentries hlines).states h

/-- The lines of a stretch of entries. -/
theorem length_flatMap_entries (entries : List (List (List Char) × List Char)) :
    (entries.flatMap fun entry => entry.1 ++ [entry.2]).length
      = entries.length + (entries.map fun entry => entry.1.length).sum := by
  induction entries with
  | nil => rfl
  | cons entry entries ih =>
    rw [List.flatMap_cons, List.length_append, ih, List.length_append, List.length_singleton,
      List.length_cons, List.map_cons, List.sum_cons]
    omega

/-- **A line keeps its place among the others**, behind the silent lines inserted before it. -/
theorem Insertion.exists_extended_eq (i : Insertion) (h : i.original = before ++ line :: after)
    (hbefore : ∀ line ∈ before, Accepted line) :
    ∃ before' after', i.extended = before' ++ line :: after'
      ∧ (∀ line ∈ before', Accepted line)
      ∧ before'.length = before.length + i.shift (before.length + 1) := by
  obtain ⟨front, rest, hentries, rfl, hrest⟩ := List.map_eq_append_iff.mp h
  obtain ⟨entry, back, rfl, rfl, rfl⟩ := List.map_eq_cons_iff.mp hrest
  refine ⟨front.flatMap (fun entry => entry.1 ++ [entry.2]) ++ entry.1,
    back.flatMap (fun entry => entry.1 ++ [entry.2]) ++ i.last, ?_, fun line hline => ?_, ?_⟩
  · unfold Insertion.extended
    rw [hentries]
    simp
  · have hsilent : ∀ entry' ∈ front ++ entry :: back, ∀ line ∈ entry'.1, Silent line :=
      hentries ▸ i.silent_of_entry
    rcases List.mem_append.mp hline with hline | hline
    · obtain ⟨entry', hentry', hline⟩ := List.mem_flatMap.mp hline
      rcases List.mem_append.mp hline with hline | hline
      · exact Or.inl (hsilent entry' (List.mem_append_left _ hentry') line hline)
      · obtain rfl := List.mem_singleton.mp hline
        exact hbefore _ (List.mem_map_of_mem hentry')
    · exact Or.inl (hsilent entry (List.mem_append_right _ List.mem_cons_self) line hline)
  · have htake : (front ++ entry :: back).take (front.length + 1) = front ++ [entry] := by
      rw [List.take_length_add_append, List.take_succ_cons, List.take_zero]
    unfold Insertion.shift
    rw [List.length_append, length_flatMap_entries, List.length_map, hentries, htake,
      List.map_append, List.sum_append, List.map_singleton, List.sum_singleton, Nat.add_assoc]

end RuleLine

namespace Grammar

open RuleLine (Accepted Faulty Insertion Silent)

variable {t : Tokenizer} {text : String} {g : Grammar} {e : GrammarError}

theorem parseWith_eq_error_iff : parseWith t text = .error e ↔ RuleLine.ofText text = .error e := by
  unfold parseWith
  cases RuleLine.ofText text <;> simp [Except.map]

/-- **The grammar of a text** is made of the rules that its lines state. -/
theorem parseWith_eq_ok_iff :
    parseWith t text = .ok g ↔ ∃ rules, RuleLine.Reads (Text.lines text.toList) rules
      ∧ g = ofPieces t (RuleLine.gather rules) := by
  constructor
  · intro h
    obtain ⟨rules, hrules, rfl⟩ := exists_of_parseWith h
    rw [RuleLine.ofText_eq] at hrules
    exact ⟨rules, RuleLine.ofLines_eq_ok_iff.mp hrules, rfl⟩
  · rintro ⟨rules, hrules, rfl⟩
    unfold parseWith
    rw [RuleLine.ofText_eq, RuleLine.ofLines_of_reads hrules]
    rfl

/-- **A text is accepted if each of its lines is.** -/
theorem exists_parseWith_iff :
    (∃ g, parseWith t text = .ok g) ↔ ∀ line ∈ Text.lines text.toList, Accepted line := by
  constructor
  · rintro ⟨g, h⟩
    obtain ⟨rules, hrules, -⟩ := parseWith_eq_ok_iff.mp h
    exact hrules.accepted
  · intro h
    obtain ⟨rules, hrules⟩ := RuleLine.exists_reads h
    exact ⟨_, parseWith_eq_ok_iff.mpr ⟨rules, hrules, rfl⟩⟩

/-- **Reading accepts exactly the format, and blames the first faulty line.** What is accepted
and what is blamed does not depend on the terminals that are declared. Silent lines inserted
anywhere leave the grammar as it is; they only move the line that is blamed. -/
theorem parseWith_format (t : Tokenizer) (text : String) :
    ((∃ g, parseWith t text = .ok g) ↔ ∀ line ∈ Text.lines text.toList, Accepted line)
      ∧ (∀ e, parseWith t text = .error e ↔ ∃ before line after fault,
        Text.lines text.toList = before ++ line :: after
          ∧ (∀ line ∈ before, Accepted line) ∧ ¬ Accepted line ∧ Faulty line fault
          ∧ e = .badLine (before.length + 1) fault)
      ∧ (∀ t', ((∃ g, parseWith t' text = .ok g) ↔ ∃ g, parseWith t text = .ok g)
        ∧ ∀ e, parseWith t' text = .error e ↔ parseWith t text = .error e)
      ∧ ∀ (i : Insertion) (text' : String), Text.lines text.toList = i.original →
        Text.lines text'.toList = i.extended →
        (∀ g, parseWith t text = .ok g → parseWith t text' = .ok g)
          ∧ ∀ n fault, parseWith t text = .error (.badLine n fault) →
            parseWith t text' = .error (.badLine (n + i.shift n) fault) := by
  refine ⟨exists_parseWith_iff, fun e => ?_, fun t' => ⟨?_, fun e => ?_⟩,
    fun i text' htext htext' => ⟨fun g hg => ?_, fun n fault hfault => ?_⟩⟩
  · rw [parseWith_eq_error_iff, RuleLine.ofText_eq, RuleLine.ofLines_eq_error_iff]
    constructor
    · rintro ⟨before, line, after, fault, hlines, hbefore, hf, rfl⟩
      exact ⟨before, line, after, fault, hlines, hbefore, hf.not_accepted, hf,
        congrArg (GrammarError.badLine · fault) (Nat.add_comm _ _)⟩
    · rintro ⟨before, line, after, fault, hlines, hbefore, -, hf, rfl⟩
      exact ⟨before, line, after, fault, hlines, hbefore, hf,
        congrArg (GrammarError.badLine · fault) (Nat.add_comm _ _)⟩
  · rw [exists_parseWith_iff, exists_parseWith_iff]
  · rw [parseWith_eq_error_iff, parseWith_eq_error_iff]
  · obtain ⟨rules, hrules, rfl⟩ := parseWith_eq_ok_iff.mp hg
    rw [htext] at hrules
    exact parseWith_eq_ok_iff.mpr ⟨rules, htext' ▸ hrules.inserted i, rfl⟩
  · rw [parseWith_eq_error_iff, RuleLine.ofText_eq, RuleLine.ofLines_eq_error_iff] at hfault
    obtain ⟨before, line, after, _, hlines, hbefore, hf, heq⟩ := hfault
    obtain ⟨rfl, rfl⟩ := GrammarError.badLine.inj heq
    obtain ⟨before', after', hextended, hbefore', hlength⟩ :=
      i.exists_extended_eq (htext.symm.trans hlines) hbefore
    rw [parseWith_eq_error_iff, RuleLine.ofText_eq, htext', hextended,
      RuleLine.ofLines_of_faulty hbefore' hf, hlength, Nat.add_comm before.length 1,
      Nat.add_assoc]

/-- Blank and closing lines for a text of three lines, the last of which is `line`. -/
def interruption (line : List Char) : Insertion where
  entries := [([[' ']], "S->aT|x->y".toList), (["eNd".toList, []], "T->B".toList), ([], line)]
  last := ["END".toList, [Char.ofNat 0x3000]]
  silent_of_entry := by
    simp only [List.forall_mem_cons, List.not_mem_nil, false_imp_iff, implies_true, and_true]
    decide +kernel
  silent_of_last := by decide +kernel

/-- Interruptions leave an accepted text with its grammar, and a text whose third line has two
faults with the blame for the first of them; three lines are inserted before that line. -/
theorem parseWith_format_interrupted :
    (Text.lines "S->aT|x->y\r\nT->B\nT -> S|b".toList
        = (interruption "T -> S|b".toList).original
      ∧ Text.lines " \nS->aT|x->y\neNd\r\n\nT->B\r\nT -> S|b\nEND\n\u3000".toList
        = (interruption "T -> S|b".toList).extended
      ∧ ∃ g, parse "S->aT|x->y\r\nT->B\nT -> S|b" = .ok g
        ∧ parse " \nS->aT|x->y\neNd\r\n\nT->B\r\nT -> S|b\nEND\n\u3000" = .ok g)
      ∧ Text.lines "S->aT|x->y\r\nT->B\nb->|c".toList = (interruption "b->|c".toList).original
      ∧ Text.lines " \nS->aT|x->y\neNd\r\n\nT->B\r\nb->|c\nEND\n\u3000".toList
        = (interruption "b->|c".toList).extended
      ∧ parse "S->aT|x->y\r\nT->B\nb->|c" = .error (.badLine 3 (.badLeftSide "b"))
      ∧ parse " \nS->aT|x->y\neNd\r\n\nT->B\r\nb->|c\nEND\n\u3000"
        = .error (.badLine (3 + (interruption "b->|c".toList).shift 3) (.badLeftSide "b"))
      ∧ (interruption "b->|c".toList).shift 3 = 3 := by
  have hlines : Text.lines "S->aT|x->y\r\nT->B\nT -> S|b".toList
      = (interruption "T -> S|b".toList).original := by decide +kernel
  have hlines' : Text.lines " \nS->aT|x->y\neNd\r\n\nT->B\r\nT -> S|b\nEND\n\u3000".toList
      = (interruption "T -> S|b".toList).extended := by decide +kernel
  have hbad : Text.lines "S->aT|x->y\r\nT->B\nb->|c".toList
      = (interruption "b->|c".toList).original := by decide +kernel
  have hbad' : Text.lines " \nS->aT|x->y\neNd\r\n\nT->B\r\nb->|c\nEND\n\u3000".toList
      = (interruption "b->|c".toList).extended := by decide +kernel
  have haccepted : ∀ line ∈ (interruption "T -> S|b".toList).original, Accepted line := by
    decide +kernel
  have hblamed : parse "S->aT|x->y\r\nT->B\nb->|c" = .error (.badLine 3 (.badLeftSide "b")) := by
    decide +kernel
  obtain ⟨hok, -, -, hinsert⟩ := parseWith_format .plain "S->aT|x->y\r\nT->B\nT -> S|b"
  obtain ⟨g, hg⟩ := hok.mpr (hlines ▸ haccepted)
  obtain ⟨-, -, -, hshift⟩ := parseWith_format .plain "S->aT|x->y\r\nT->B\nb->|c"
  exact ⟨⟨hlines, hlines', g, hg, (hinsert _ _ hlines hlines').1 g hg⟩, hbad, hbad', hblamed,
    (hshift _ _ hbad hbad').2 3 _ hblamed, by decide⟩

end Grammar

end GrammarWorkbench
