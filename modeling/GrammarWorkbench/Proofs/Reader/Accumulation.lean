import GrammarWorkbench.Proofs.Reader.Format

/-!
# Lines of one left side

Lines of one left side add up, wherever they stand, and a capital is a non-terminal if some
line has it as its left side, also one further down. Both are said of the rules that the lines
state one after another (`RuleLine.Reads`), without the table in which reading gathers them
(`RuleLine.gather`).

So it makes no difference how the alternatives of a left side are spread over lines. All its
lines can be replaced by a single one (`RuleLine.Merges`), which stands where the first of them
stood because left sides come in order of first appearance. The gathered pieces are the same
(`RuleLine.gather_merge`), and with them the grammar (`Grammar.parseWith_accumulates`).
-/

namespace GrammarWorkbench

/-- A value that came before can be left out when values are listed by first appearance. -/
theorem eraseDups_append_cons_filter {α : Type} [BEq α] [LawfulBEq α] (a : α) (xs ys : List α) :
    (xs ++ a :: ys.filter fun b => !b == a).eraseDups = (xs ++ a :: ys).eraseDups := by
  rw [List.eraseDups_append, List.eraseDups_append]
  refine congrArg (xs.eraseDups ++ ·) ?_
  unfold List.removeAll
  rw [List.filter_cons, List.filter_cons]
  split
  · rw [List.eraseDups_cons, List.eraseDups_cons, List.filter_filter, List.filter_filter,
      List.filter_filter]
    congr 3
    funext b
    cases b == a <;> simp
  · next ha =>
    rw [List.filter_filter]
    congr 2
    funext b
    by_cases hb : b = a
    · simpa [hb] using ha
    · simp [hb]

namespace Text

/-! ## Texts with given lines -/

theorem newline_not_mem_of_mem_lines {text line : List Char} (h : line ∈ lines text) :
    '\n' ∉ line := by
  fun_induction lines text generalizing line with
  | case1 => exact absurd h List.not_mem_nil
  | case2 cs ih | case3 cs ih =>
    rcases List.mem_cons.mp h with rfl | h
    · exact List.not_mem_nil
    · exact ih h
  | case4 c cs hbreak _ ih =>
    have hc : '\n' ≠ c := fun hc => hbreak hc.symm
    generalize lines cs = ls at h ih
    cases ls with
    | nil =>
      obtain rfl := List.mem_singleton.mp h
      exact fun hmem => hc (List.mem_singleton.mp hmem)
    | cons first ls =>
      rcases List.mem_cons.mp h with rfl | h
      · exact List.not_mem_cons_of_ne_of_not_mem hc (ih List.mem_cons_self)
      · exact ih (List.mem_cons_of_mem _ h)

theorem lines_append_break {line : List Char} (h : '\n' ∉ line) (rest : List Char) :
    lines (line ++ '\r' :: '\n' :: rest) = line :: lines rest := by
  induction line with
  | nil => rw [List.nil_append, lines]
  | cons c cs ih =>
    obtain ⟨hc, hcs⟩ := List.ne_and_not_mem_of_not_mem_cons h
    rw [List.cons_append, lines, ih hcs]
    · rfl
    · exact fun hc' => hc hc'.symm
    · rintro tail rfl htail
      cases cs with
      | nil => exact absurd (List.cons.inj htail).1 (by decide)
      | cons d cs => exact hcs ((List.cons.inj htail).1 ▸ List.mem_cons_self)

/-- **Every list of lines is the lines of some text.** -/
theorem exists_lines_eq {ls : List (List Char)} (h : ∀ line ∈ ls, '\n' ∉ line) :
    ∃ text : String, lines text.toList = ls := by
  refine ⟨String.ofList (ls.flatMap (· ++ ['\r', '\n'])), ?_⟩
  rw [String.toList_ofList]
  induction ls with
  | nil => rfl
  | cons line ls ih =>
    obtain ⟨hline, hls⟩ := List.forall_mem_cons.mp h
    have hbreak := lines_append_break hline (ls.flatMap (· ++ ['\r', '\n']))
    rw [List.flatMap_cons, List.append_assoc]
    exact hbreak.trans (congrArg (line :: ·) (ih hls))

end Text

namespace RuleLine

variable {r r' : RuleLine} {rules front back : List RuleLine} {line : List Char}
  {lines lines' before after : List (List Char)} {name : String}

/-! ## The rules of some of the lines -/

theorem States.unique (h : States line r) (h' : States line r') : r = r' := by
  have heq := (ofLine_eq_ok_iff_states.mpr h).symm.trans (ofLine_eq_ok_iff_states.mpr h')
  exact Except.ok.inj heq

theorem Reads.unique {rules' : List RuleLine} (h : Reads lines rules) (h' : Reads lines rules') :
    rules = rules' :=
  Except.ok.inj ((ofLines_of_reads h 1).symm.trans (ofLines_of_reads h' 1))

theorem Reads.exists_of_append (h : Reads (before ++ after) rules) :
    ∃ front back, rules = front ++ back ∧ Reads before front ∧ Reads after back := by
  induction before generalizing rules with
  | nil => exact ⟨[], rules, rfl, .nil, h⟩
  | cons line before ih =>
    cases h with
    | silent hline hlines =>
      obtain ⟨front, back, rfl, hfront, hback⟩ := ih hlines
      exact ⟨front, back, rfl, hfront.silent hline, hback⟩
    | @states _ r _ _ hline hlines =>
      obtain ⟨front, back, rfl, hfront, hback⟩ := ih hlines
      exact ⟨r :: front, back, rfl, hfront.states hline, hback⟩

theorem Reads.exists_line (h : Reads lines rules) (hr : r ∈ rules) :
    ∃ line ∈ lines, States line r := by
  obtain ⟨line, hline, hread⟩ := exists_line_of_mem_ofLines (ofLines_of_reads h 1) hr
  exact ⟨line, hline, ofLine_eq_ok_iff_states.mp hread⟩

/-- **The line is one of a given left side.** -/
def HasName (name : String) (line : List Char) : Prop := ∃ r, States line r ∧ r.name = name

theorem States.hasName_iff (h : States line r) : HasName name line ↔ r.name = name :=
  ⟨fun ⟨_, hr, hname⟩ => (h.unique hr).symm ▸ hname, fun hname => ⟨r, h, hname⟩⟩

theorem Silent.not_hasName (h : Silent line) : ¬ HasName name line :=
  fun ⟨_, hr, _⟩ => hr.not_silent h

instance : DecidablePred (HasName name) := fun line =>
  match h : ofLine (Text.trim line) with
  | .ok _ => decidable_of_iff _ (ofLine_eq_ok_iff_states.mp h).hasName_iff.symm
  | .error _ => isFalse fun ⟨_, hr, _⟩ =>
    absurd (h.symm.trans (ofLine_eq_ok_iff_states.mpr hr)) (by simp)

/-- **Leaving out the lines of a left side leaves out its rules.** -/
theorem Reads.filter (h : Reads lines rules) (name : String) :
    Reads (lines.filter fun line => decide (¬ HasName name line))
      (rules.filter fun r => decide (r.name ≠ name)) := by
  induction h with
  | nil => exact .nil
  | silent h _ ih =>
    rw [List.filter_cons_of_pos (by simpa using h.not_hasName)]
    exact ih.silent h
  | @states line r _ _ h _ ih =>
    by_cases hname : r.name = name
    · rw [List.filter_cons_of_neg (by simpa using h.hasName_iff.mpr hname),
        List.filter_cons_of_neg (by simpa using hname)]
      exact ih
    · rw [List.filter_cons_of_pos (by simpa using mt h.hasName_iff.mp hname),
        List.filter_cons_of_pos (by simpa using hname)]
      exact ih.states h

/-! ## One line for a left side -/

/-- **The rule with all the pieces of the left side of `r`.** -/
def merged (r : RuleLine) (rules : List RuleLine) : RuleLine where
  left := r.left
  pieces := (rules.filter fun r' => decide (r'.name = r.name)).flatMap pieces

theorem name_merged (r : RuleLine) (rules : List RuleLine) : (r.merged rules).name = r.name := rfl

/-- **All lines of a left side become one**, in the place of the first of them; it states all the
pieces in their order. -/
inductive Merges (name : String) : List (List Char) → List (List Char) → Prop where
  | intro {before after : List (List Char)} {first line : List Char} {r : RuleLine}
      {rules : List RuleLine} (hrules : Reads (before ++ first :: after) rules)
      (hbefore : ∀ line ∈ before, ¬ HasName name line) (hfirst : States first r)
      (hname : r.name = name) (hline : States line (r.merged rules)) :
      Merges name (before ++ first :: after)
        (before ++ line :: after.filter fun line => decide (¬ HasName name line))

/-- Gathering depends on nothing but the order of the left sides and the pieces of each. -/
theorem gather_eq_of {rules' : List RuleLine}
    (hnames : (rules'.map RuleLine.name).eraseDups = (rules.map RuleLine.name).eraseDups)
    (hpieces : ∀ name, (rules'.filter fun r => decide (r.name = name)).flatMap pieces
      = (rules.filter fun r => decide (r.name = name)).flatMap pieces) :
    gather rules' = gather rules := by
  refine Table.ext_get? (by rw [keys_gather, keys_gather, hnames]) fun name => ?_
  have hmem : name ∈ rules'.map RuleLine.name ↔ name ∈ rules.map RuleLine.name := by
    rw [← List.mem_eraseDups, hnames, List.mem_eraseDups]
  rw [get?_gather, get?_gather]
  exact if_congr hmem (congrArg some (hpieces name)) rfl

/-- **A merged rule gathers what its rules did.** -/
theorem gather_merge (hfront : ∀ r' ∈ front, r'.name ≠ r.name) :
    gather (front ++ r.merged (front ++ r :: back)
        :: back.filter fun r' => decide (r'.name ≠ r.name))
      = gather (front ++ r :: back) := by
  refine gather_eq_of ?_ fun name => ?_
  · have hnames : (back.filter fun r' => decide (r'.name ≠ r.name)).map RuleLine.name
        = (back.map RuleLine.name).filter fun name => !name == r.name := by
      rw [List.filter_map]
      refine congrArg _ (List.filter_congr fun r' _ => ?_)
      by_cases h : r'.name = r.name <;> simp [h]
    rw [List.map_append, List.map_append, List.map_cons, List.map_cons, hnames, name_merged,
      eraseDups_append_cons_filter]
  · by_cases hname : name = r.name
    · -- the merged rule is the only one left
      subst hname
      have hnone : front.filter (fun r' => decide (r'.name = r.name)) = [] :=
        List.filter_eq_nil_iff.mpr fun r' hr' => by simpa using hfront r' hr'
      rw [List.filter_append, hnone, List.nil_append,
        List.filter_cons_of_pos (by simp [name_merged]), List.filter_filter]
      simp [merged]
    · -- no rule of another left side has changed
      have hr : ¬ decide (r.name = name) = true := by simpa using fun h => hname h.symm
      have hmerged : ¬ decide ((r.merged (front ++ r :: back)).name = name) = true := hr
      rw [List.filter_append, List.filter_append, List.filter_cons, List.filter_cons,
        if_neg hmerged, if_neg hr, List.filter_filter]
      congr 3
      funext r'
      by_cases hr' : r'.name = name
      · simp [hr', hname]
      · simp [hr']

/-- **Merged lines gather the same pieces.** -/
theorem Merges.exists_reads (h : Merges name lines lines') :
    ∃ rules rules', Reads lines rules ∧ Reads lines' rules' ∧ gather rules' = gather rules := by
  obtain ⟨hrules, hbefore, hfirst, rfl, hline⟩ := h
  obtain ⟨front, rest, rfl, hfront, hrest⟩ := hrules.exists_of_append
  cases hrest with
  | silent hsilent _ => exact absurd hsilent hfirst.not_silent
  | states hstates hback =>
    obtain rfl := hstates.unique hfirst
    refine ⟨_, _, hrules, hfront.append ((hback.filter _).states hline), gather_merge ?_⟩
    intro r' hr' hname
    obtain ⟨line, hmem, hstates⟩ := hfront.exists_line hr'
    exact hbefore line hmem ⟨r', hstates, hname⟩

theorem wellFormed_merged (h : ∀ r' ∈ rules, r'.WellFormed) (hr : r ∈ rules) :
    (r.merged rules).WellFormed := by
  have hmem : r ∈ rules.filter fun r' => decide (r'.name = r.name) :=
    List.mem_filter.mpr ⟨hr, decide_eq_true rfl⟩
  refine ⟨(h r hr).left, fun hnil => ?_, fun piece hpiece => ?_⟩
  · exact (h r hr).pieces_ne_nil (List.flatMap_eq_nil_iff.mp hnil r hmem)
  · obtain ⟨r', hr', hpiece⟩ := List.mem_flatMap.mp hpiece
    exact (h r' (List.mem_filter.mp hr').1).isPiece piece hpiece

theorem WellFormed.states_text (h : r.WellFormed) : States r.text.toList r :=
  ofLine_eq_ok_iff_states.mp (h.trim_text.symm ▸ h.ofLine_text)

/-- **The lines of a left side can be merged**, and no line is broken by this. -/
theorem exists_merges (h : Reads lines rules) (hrules : ∀ r ∈ rules, r.WellFormed)
    (hbreak : ∀ line ∈ lines, '\n' ∉ line) (hname : name ∈ rules.map RuleLine.name) :
    ∃ lines', Merges name lines lines' ∧ ∀ line ∈ lines', '\n' ∉ line := by
  obtain ⟨r, hr, hname⟩ := List.mem_map.mp hname
  obtain ⟨some_line, hmem, hstates⟩ := h.exists_line hr
  have hfind : (lines.find? fun line => decide (HasName name line)).isSome :=
    List.find?_isSome.mpr ⟨some_line, hmem, decide_eq_true ⟨r, hstates, hname⟩⟩
  obtain ⟨first, hfound⟩ := Option.isSome_iff_exists.mp hfind
  obtain ⟨hfirst, before, after, rfl, hbefore⟩ := List.find?_eq_some_iff_append.mp hfound
  obtain ⟨r', hr', hname'⟩ := of_decide_eq_true hfirst
  have hmem' : r' ∈ rules := by
    obtain ⟨front, rest, rfl, -, hrest⟩ := h.exists_of_append
    cases hrest with
    | silent hsilent _ => exact absurd hsilent hr'.not_silent
    | states hstates _ =>
      obtain rfl := hstates.unique hr'
      exact List.mem_append_right _ List.mem_cons_self
  have hwell := wellFormed_merged hrules hmem'
  refine ⟨_, .intro h (fun line hline => by simpa using hbefore line hline) hr' hname'
    hwell.states_text, fun line hline => ?_⟩
  rcases List.mem_append.mp hline with hline | hline
  · exact hbreak line (List.mem_append_left _ hline)
  · rcases List.mem_cons.mp hline with rfl | hline
    · exact hwell.newline_not_mem_text
    · exact hbreak line (List.mem_append_right _
        (List.mem_cons_of_mem _ (List.mem_filter.mp hline).1))

end RuleLine

namespace Grammar

open RuleLine (Merges Reads)

variable {t : Tokenizer} {text : String} {g : Grammar}

theorem contains_gather (rules : List RuleLine) :
    (RuleLine.gather rules).contains = fun s => decide (∃ r ∈ rules, r.name = s) := by
  funext s
  rw [Bool.eq_iff_iff, Table.contains_iff, RuleLine.keys_gather, List.mem_eraseDups, List.mem_map,
    decide_eq_true_iff]

/-- **Lines of one left side add up, and left sides may come later.** The rules of a grammar that
has been read are the left sides in order of first appearance, each with the pieces of all its
lines; and to be a non-terminal is to be the left side of some line. So one line can stand for
all lines of a left side: there is a text in which it does, and each such text has the same
grammar. -/
theorem parseWith_accumulates (h : parseWith t text = .ok g) :
    ∃ rules, Reads (Text.lines text.toList) rules
      ∧ g.ruleNames = (rules.map RuleLine.name).eraseDups
      ∧ (∀ name, g.productions name
        = ((rules.filter fun r => decide (r.name = name)).flatMap RuleLine.pieces).map
          (t.tokenize fun s => decide (∃ r ∈ rules, r.name = s)))
      ∧ ∀ name ∈ g.ruleNames,
        (∃ text' : String, Merges name (Text.lines text.toList) (Text.lines text'.toList))
          ∧ ∀ text' : String, Merges name (Text.lines text.toList) (Text.lines text'.toList) →
            parseWith t text' = .ok g := by
  obtain ⟨rules, hrules, rfl⟩ := parseWith_eq_ok_iff.mp h
  have hnames : (ofPieces t (RuleLine.gather rules)).ruleNames
      = (rules.map RuleLine.name).eraseDups :=
    (Table.keys_map _ _).trans (RuleLine.keys_gather rules)
  refine ⟨rules, hrules, hnames, fun name => ?_, fun name hname => ⟨?_, fun text' hmerges => ?_⟩⟩
  · rw [productions_ofPieces_gather, contains_gather]
  · have hread : RuleLine.ofText text = .ok rules :=
      (RuleLine.ofText_eq text).trans (RuleLine.ofLines_of_reads hrules 1)
    rw [hnames, List.mem_eraseDups] at hname
    obtain ⟨lines', hmerges, hbreak⟩ := RuleLine.exists_merges hrules
      (RuleLine.wellFormed_of_mem_ofText hread)
      (fun _ hline => Text.newline_not_mem_of_mem_lines hline) hname
    obtain ⟨text', rfl⟩ := Text.exists_lines_eq hbreak
    exact ⟨text', hmerges⟩
  · obtain ⟨rules₁, rules', hrules₁, hrules', hgather⟩ := hmerges.exists_reads
    obtain rfl := hrules₁.unique hrules
    exact parseWith_eq_ok_iff.mpr ⟨rules', hrules', congrArg (ofPieces t) hgather.symm⟩

/-- A text in which `B` has two lines, with rules referred to before they come and a capital
without a rule. -/
def scattered : String := "A -> C\r\nB->idA|b\nEND\nB-> C|Dx\nC->eps"

/-- The scattered text with a single line for `B`. -/
def collected : String := "A -> C\nB->idA | b|C |Dx\nEND\nC->eps\n"

/-- The grammar of the scattered text when `id` is a terminal. -/
def scatteredGrammar : Grammar :=
  (((∅ : Grammar).setProductions "A" [.ofSymbols [.nonTerminal "C"]]).setProductions "B"
    [.ofSymbols [.terminal "id", .nonTerminal "A"], .ofSymbols [.terminal "b"],
      .ofSymbols [.nonTerminal "C"], .ofSymbols [.terminal "D", .terminal "x"]]).setProductions
    "C" [.epsilon]

theorem merges_scattered :
    Merges "B" (Text.lines scattered.toList) (Text.lines collected.toList) := by
  have hscattered : Text.lines scattered.toList = ["A -> C".toList] ++ "B->idA|b".toList
      :: ["END".toList, "B-> C|Dx".toList, "C->eps".toList] := by decide +kernel
  have hcollected : Text.lines collected.toList = ["A -> C".toList] ++ "B->idA | b|C |Dx".toList
      :: (["END".toList, "B-> C|Dx".toList, "C->eps".toList].filter
        fun line => decide (¬ RuleLine.HasName "B" line)) := by decide +kernel
  have hread : RuleLine.ofLines 1 (Text.lines scattered.toList)
      = .ok [⟨'A', ["C"]⟩, ⟨'B', ["idA", "b"]⟩, ⟨'B', ["C", "Dx"]⟩, ⟨'C', ["eps"]⟩] := by
    decide +kernel
  have hfirst : RuleLine.ofLine (Text.trim "B->idA|b".toList) = .ok ⟨'B', ["idA", "b"]⟩ := by
    decide +kernel
  have hline : RuleLine.ofLine (Text.trim "B->idA | b|C |Dx".toList)
      = .ok ⟨'B', ["idA", "b", "C", "Dx"]⟩ := by decide +kernel
  rw [hscattered] at hread
  rw [hscattered, hcollected]
  exact .intro (RuleLine.ofLines_eq_ok_iff.mp hread) (by decide +kernel)
    (RuleLine.ofLine_eq_ok_iff_states.mp hfirst) rfl
    (RuleLine.ofLine_eq_ok_iff_states.mp hline)

/-- Both texts have the same grammar. -/
theorem parseWith_accumulates_scattered :
    parseWith (.declaring ["id"]) scattered = .ok scatteredGrammar
      ∧ Merges "B" (Text.lines scattered.toList) (Text.lines collected.toList)
      ∧ parseWith (.declaring ["id"]) collected = .ok scatteredGrammar := by
  have hread : parseWith (.declaring ["id"]) scattered = .ok scatteredGrammar := by
    decide +kernel
  obtain ⟨-, -, -, -, hmerge⟩ := parseWith_accumulates hread
  exact ⟨hread, merges_scattered, (hmerge "B" (by decide +kernel)).2 _ merges_scattered⟩

end Grammar

end GrammarWorkbench
