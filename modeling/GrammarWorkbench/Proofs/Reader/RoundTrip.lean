import GrammarWorkbench.Proofs.Reader.Lines
import GrammarWorkbench.Report.RuleListing

/-!
# Printing and reading back

The plain listing of a grammar that has been read is grammar text again, and reading it
gives the grammar back, with one exception (`parse_plain_eq_iff`). An alternative made of
the terminals `e`, `p`, `s` prints as `eps`, and that spells the empty alternative. Such an
alternative can be read, from `e p s` for one, because blanks inside of an alternative stand
for nothing; it cannot be printed.

What can be printed at all is said by `Legible`: left sides are capitals, each with an
alternative, the first of them is the start symbol, and each symbol is what some character
stands for. A character stands for one symbol and is its name, so in a legible grammar
printing an alternative undoes scanning it (`scan_plain`), and the rules of the grammar are
the lines of the listing (`plain_ruleListing`), whose pieces are gathered as they were
(`gather_ruleLines`).
-/

namespace GrammarWorkbench

/-! ## Symbols and their characters -/

theorem isEpsilonSpelling_iff {text : String} :
    isEpsilonSpelling text = true ↔ text = "ϵ" ∨ text = "eps" ∨ text = "ε" := by
  unfold isEpsilonSpelling epsilonSpellings Symbol.epsilonName
  simp

namespace Tokenizer

variable {defined : String → Bool} {c : Char} {s : Symbol} {cs : List Char} {l : List Symbol}

/-- **A character stands for what it is read as.** -/
theorem charSymbol?_eq_some_iff :
    charSymbol? defined c = some s
      ↔ Text.isBlank c = false ∧ isEpsilonSpelling (String.singleton c) = false
        ∧ s = if c.isUpper && defined (String.singleton c)
          then .nonTerminal (String.singleton c) else .terminal (String.singleton c) := by
  unfold charSymbol?
  dsimp only
  cases Text.isBlank c with
  | true => simp
  | false =>
    cases isEpsilonSpelling (String.singleton c) with
    | true => simp
    | false =>
      rw [if_neg (by decide)]
      split <;> simp [eq_comm]

/-- **Between bars, the character stands for the symbol.** -/
structure Writes (defined : String → Bool) (c : Char) (s : Symbol) : Prop where
  /-- A bar would end the alternative. -/
  ne_bar : c ≠ '|'
  /-- The character is read as the symbol. -/
  read : charSymbol? defined c = some s

namespace Writes

variable (h : Writes defined c s)
include h

theorem not_blank : Text.isBlank c = false := (charSymbol?_eq_some_iff.mp h.read).1

theorem not_epsilon : isEpsilonSpelling (String.singleton c) = false :=
  (charSymbol?_eq_some_iff.mp h.read).2.1

/-- What a character stands for is printed as that character. -/
theorem name_eq : s.name = String.singleton c := by
  rw [(charSymbol?_eq_some_iff.mp h.read).2.2]
  split <;> rfl

theorem ne_separator : c ≠ '|' ∧ c ≠ '\n' := by
  refine ⟨h.ne_bar, fun hc => ?_⟩
  have hblank := h.not_blank
  rw [hc] at hblank
  exact absurd hblank (by decide)

end Writes

/-- Without declared terminals nothing is matched. -/
theorem match?_plain (text : List Char) : plain.match? text = none := rfl

/-- **Without declared terminals each character is read by itself.** -/
theorem scan_plain (defined : String → Bool) (cs : List Char) :
    plain.scan defined cs = cs.filterMap (charSymbol? defined) := by
  induction cs with
  | nil => rw [scan, List.filterMap_nil]
  | cons c cs ih =>
    rw [scan, match?_plain, List.filterMap_cons]
    cases charSymbol? defined c with
    | none => exact ih
    | some s => exact congrArg (s :: ·) ih

/-- Scanning finds the symbols that characters stand for. -/
theorem scan_plain_of_writes (h : List.Forall₂ (Writes defined) cs l) :
    plain.scan defined cs = l := by
  rw [scan_plain]
  induction h with
  | nil => rfl
  | cons hc _ ih => rw [List.filterMap_cons_some hc.read, ih]

/-- Printing symbols one after the other gives the characters that stand for them. -/
theorem join_names_of_writes (h : List.Forall₂ (Writes defined) cs l) :
    String.join (l.map Symbol.name) = String.ofList cs := by
  refine String.toList_injective ?_
  rw [String.toList_join, String.toList_ofList]
  induction h with
  | nil => rfl
  | cons hc _ ih =>
    rw [List.map_cons, List.flatMap_cons, ih, hc.name_eq, String.toList_singleton]
    rfl

theorem exists_writes_of_mem (h : List.Forall₂ (Writes defined) cs l) (hc : c ∈ cs) :
    ∃ s, Writes defined c s := by
  induction h with
  | nil => exact absurd hc List.not_mem_nil
  | cons hfirst _ ih =>
    rcases List.mem_cons.mp hc with rfl | hc
    · exact ⟨_, hfirst⟩
    · exact ih hc

theorem exists_writes (h : ∀ s ∈ l, ∃ c, Writes defined c s) :
    ∃ cs, List.Forall₂ (Writes defined) cs l := by
  induction l with
  | nil => exact ⟨[], List.Forall₂.nil⟩
  | cons s l ih =>
    obtain ⟨c, hc⟩ := h s List.mem_cons_self
    obtain ⟨cs, hcs⟩ := ih (fun s' hs' => h s' (List.mem_cons_of_mem _ hs'))
    exact ⟨c :: cs, List.Forall₂.cons hc hcs⟩

end Tokenizer

/-! ## The alternative that prints as a spelling of the empty one -/

namespace Production

/-- The terminals whose names make up `eps`. -/
def epsLetters : List Symbol := [.terminal "e", .terminal "p", .terminal "s"]

/-- **What the printed form of an alternative is read as**: the alternative, unless it prints
as `eps`. -/
def reread (p : Production) : Production := if p.body = epsLetters then epsilon else p

theorem reread_eq_self_iff {p : Production} : p.reread = p ↔ p.body ≠ epsLetters := by
  unfold reread
  split
  · next h =>
    refine ⟨fun heq => ?_, fun hne => absurd h hne⟩
    rw [← heq] at h
    exact absurd h (by simp [epsLetters])
  · next h => exact ⟨fun _ => h, fun _ => rfl⟩

variable {defined : String → Bool} {p : Production} {cs : List Char}

theorem display_eq (hne : p.body ≠ []) (h : List.Forall₂ (Tokenizer.Writes defined) cs p.body) :
    p.display = String.ofList cs := by
  have hsymbols : p.symbols = p.body := by
    unfold symbols isEpsilon
    rw [if_neg (by simpa using hne)]
  rw [display, hsymbols, Tokenizer.join_names_of_writes h]

/-- **Only `e`, `p`, `s` are printed as a spelling of the empty alternative.** -/
theorem isEpsilonSpelling_ofList_iff {l : List Symbol}
    (h : List.Forall₂ (Tokenizer.Writes defined) cs l) :
    isEpsilonSpelling (String.ofList cs) = true ↔ l = epsLetters := by
  rw [isEpsilonSpelling_iff]
  constructor
  · rintro (heps | heps | heps)
    · obtain rfl : cs = ['ϵ'] := String.ofList_injective heps
      cases h with
      | cons hmark _ => exact absurd hmark.not_epsilon (by decide)
    · obtain rfl : cs = ['e', 'p', 's'] := String.ofList_injective heps
      rw [← Tokenizer.scan_plain_of_writes h, Tokenizer.scan_plain]
      rfl
    · obtain rfl : cs = ['ε'] := String.ofList_injective heps
      cases h with
      | cons hmark _ => exact absurd hmark.not_epsilon (by decide)
  · rintro rfl
    refine Or.inr (Or.inl ?_)
    rw [← Tokenizer.join_names_of_writes h]
    rfl

/-- **Reading the printed form of an alternative.** -/
theorem tokenize_display (h : ∀ s ∈ p.body, ∃ c, Tokenizer.Writes defined c s) :
    Tokenizer.plain.tokenize defined p.display = p.reread := by
  unfold Tokenizer.tokenize
  by_cases hne : p.body = []
  · obtain rfl : p = epsilon := ext hne
    rfl
  · obtain ⟨cs, hcs⟩ := Tokenizer.exists_writes h
    rw [display_eq hne hcs, String.toList_ofList, Tokenizer.scan_plain_of_writes hcs]
    unfold reread
    simp only [isEpsilonSpelling_ofList_iff hcs]
    refine if_congr Iff.rfl rfl (ext ?_)
    refine List.filter_eq_self.mpr (fun s hs => ?_)
    exact decide_eq_true fun hmark => p.epsilon_not_mem (hmark ▸ hs)

/-- The printed form of an alternative can stand between bars. -/
theorem isPiece_display (h : ∀ s ∈ p.body, ∃ c, Tokenizer.Writes defined c s) :
    RuleLine.IsPiece p.display.toList := by
  by_cases hne : p.body = []
  · obtain rfl : p = epsilon := ext hne
    show RuleLine.IsPiece ['ϵ']
    exact ⟨List.cons_ne_nil _ _, Text.Trimmed.of_forall (List.forall_mem_singleton.mpr rfl),
      List.forall_mem_singleton.mpr (by decide)⟩
  · obtain ⟨cs, hcs⟩ := Tokenizer.exists_writes h
    rw [display_eq hne hcs, String.toList_ofList]
    refine ⟨fun hnil => hne ?_, Text.Trimmed.of_forall fun c hc => ?_, fun c hc => ?_⟩
    · rw [hnil] at hcs
      cases hbody : p.body with
      | nil => rfl
      | cons s l => rw [hbody] at hcs; cases hcs
    · obtain ⟨s, hs⟩ := Tokenizer.exists_writes_of_mem hcs hc
      exact hs.not_blank
    · obtain ⟨s, hs⟩ := Tokenizer.exists_writes_of_mem hcs hc
      exact hs.ne_separator

end Production

/-! ## Legible grammars -/

namespace Grammar

variable {g : Grammar} {name text : String} {p : Production}

theorem productions_ofPieces (t : Tokenizer) (pieces : Table String (List String))
    (name : String) :
    (ofPieces t pieces).productions name
      = ((pieces.get? name).getD []).map (t.tokenize pieces.contains) := by
  unfold productions ofPieces
  rw [Table.get?_map]
  cases pieces.get? name <;> rfl

/-- **A grammar that can be printed as grammar text.** -/
structure Legible (g : Grammar) : Prop where
  /-- Left sides are single capitals. -/
  capital : ∀ name ∈ g.ruleNames, ∃ c : Char, c.isUpper = true ∧ name = String.singleton c
  /-- A left side without alternatives cannot be written. -/
  stated : ∀ name ∈ g.ruleNames, g.productions name ≠ []
  /-- Text starts with the start symbol. -/
  start : g.start = g.ruleNames.head?
  /-- Each symbol is what some character stands for. -/
  written : ∀ p ∈ g.alternatives, ∀ s ∈ p.body, ∃ c, Tokenizer.Writes g.isRule c s

/-- **What the listing of a grammar is read as.** -/
def reread (g : Grammar) : Grammar := ⟨g.rules.map (List.map Production.reread), g.start⟩

theorem productions_reread (g : Grammar) (name : String) :
    g.reread.productions name = (g.productions name).map Production.reread := by
  unfold productions reread
  rw [Table.get?_map]
  cases g.rules.get? name <;> rfl

theorem ruleNames_reread (g : Grammar) : g.reread.ruleNames = g.ruleNames :=
  Table.keys_map _ g.rules

/-- Nothing changes unless some alternative prints as `eps`. -/
theorem reread_eq_self_iff :
    g.reread = g ↔ ∀ p ∈ g.alternatives, p.body ≠ Production.epsLetters := by
  have hfixed : ∀ name, g.reread.productions name = g.productions name
      ↔ ∀ p ∈ g.productions name, p.body ≠ Production.epsLetters := by
    intro name
    rw [productions_reread]
    conv_lhs => rhs; rw [← List.map_id (g.productions name)]
    rw [List.map_inj_left]
    exact forall₂_congr fun p _ => Production.reread_eq_self_iff
  constructor
  · intro h p hp
    obtain ⟨name, hname⟩ := mem_alternatives.mp hp
    exact (hfixed name).mp (by rw [h]) p hname
  · intro h
    refine ext_productions g.ruleNames_reread (fun name => (hfixed name).mpr ?_) rfl
    exact fun p hp => h p (mem_alternatives.mpr ⟨name, hp⟩)

/-! ## The lines of a listing -/

/-- **The rules of a grammar as lines.** -/
def ruleLines (g : Grammar) : List RuleLine :=
  g.rules.entries.map fun rule =>
    ⟨rule.1.toList.headD 'A', rule.2.map Production.display⟩

namespace Legible

variable (h : g.Legible)
include h

theorem singleton_head {rule : String × List Production} (hrule : rule ∈ g.rules.entries) :
    String.singleton (rule.1.toList.headD 'A') = rule.1 := by
  obtain ⟨c, -, hname⟩ := h.capital rule.1 (List.mem_map_of_mem hrule)
  rw [hname, String.toList_singleton]
  rfl

/-- **The listing of a grammar states its rules.** -/
theorem plain_ruleListing :
    g.ruleListing.plain = String.intercalate "\n" (g.ruleLines.map RuleLine.text) := by
  unfold RuleListing.plain ruleListing ruleLines
  rw [List.map_map, List.map_map]
  refine congrArg (String.intercalate "\n") (List.map_congr_left fun rule hrule => ?_)
  show rule.1 ++ " -> " ++ _ = String.singleton _ ++ " -> " ++ _
  rw [h.singleton_head hrule, List.map_map]
  rfl

theorem wellFormed_of_mem_ruleLines : ∀ r ∈ g.ruleLines, r.WellFormed := by
  intro r hr
  obtain ⟨rule, hrule, rfl⟩ := List.mem_map.mp hr
  have hname : rule.1 ∈ g.ruleNames := List.mem_map_of_mem hrule
  have hproductions := productions_eq_of_mem_entries hrule
  refine ⟨?_, fun hnil => ?_, fun piece hpiece => ?_⟩
  · obtain ⟨c, hc, hname⟩ := h.capital rule.1 hname
    rw [hname, String.toList_singleton]
    exact hc
  · refine h.stated rule.1 hname ?_
    rw [hproductions]
    exact List.map_eq_nil_iff.mp hnil
  · obtain ⟨p, hp, rfl⟩ := List.mem_map.mp hpiece
    rw [← hproductions] at hp
    exact Production.isPiece_display (h.written p (mem_alternatives.mpr ⟨rule.1, hp⟩))

theorem names_ruleLines : g.ruleLines.map RuleLine.name = g.ruleNames := by
  unfold ruleLines
  rw [List.map_map]
  exact List.map_congr_left fun rule hrule => h.singleton_head hrule

/-- **Gathering the lines of a grammar gives its table of printed alternatives.** -/
theorem gather_ruleLines :
    RuleLine.gather g.ruleLines = g.rules.map (List.map Production.display) := by
  have hnodup : (g.ruleLines.map RuleLine.name).Nodup := by
    rw [h.names_ruleLines]
    exact g.nodup_ruleNames
  have hkeys : (RuleLine.gather g.ruleLines).keys = g.ruleNames := by
    rw [RuleLine.gather, Table.keys_map, Table.keys_group_of_nodup hnodup, h.names_ruleLines]
  refine Table.ext_get? (hkeys.trans (Table.keys_map _ _).symm) (fun name => ?_)
  by_cases hname : name ∈ g.ruleNames
  · obtain ⟨rule, hrule, rfl⟩ := List.mem_map.mp hname
    have hline := Table.get?_group_of_nodup hnodup (List.mem_map_of_mem hrule)
    rw [RuleLine.name, h.singleton_head hrule] at hline
    rw [RuleLine.gather, Table.get?_map, Table.get?_map, Table.get?_eq_some_iff.mpr hrule, hline]
    exact congrArg some (List.append_nil _)
  · rw [Table.get?_eq_none_iff.mpr (fun hmem => hname (hkeys ▸ hmem)), Table.get?_map,
      Table.get?_eq_none_iff.mpr hname]
    rfl

/-- **Reading the listing of a legible grammar** gives the grammar, up to alternatives that
print as `eps`. -/
theorem parse_plain : parse g.ruleListing.plain = .ok g.reread := by
  unfold parse parseWith
  rw [h.plain_ruleListing, RuleLine.ofText_intercalate_text h.wellFormed_of_mem_ruleLines]
  refine congrArg Except.ok ?_
  show ofPieces Tokenizer.plain (RuleLine.gather g.ruleLines) = g.reread
  rw [h.gather_ruleLines]
  refine ext_productions ?_ (fun name => ?_) ?_
  · show ((g.rules.map _).map _).keys = (g.rules.map _).keys
    rw [Table.keys_map, Table.keys_map, Table.keys_map]
  · have hdisplays : ((g.rules.map (List.map Production.display)).get? name).getD []
        = (g.productions name).map Production.display := by
      unfold productions
      rw [Table.get?_map]
      cases g.rules.get? name <;> rfl
    rw [productions_ofPieces, hdisplays, productions_reread, List.map_map]
    refine List.map_congr_left fun p hp => ?_
    exact Production.tokenize_display (h.written p (mem_alternatives.mpr ⟨name, hp⟩))
  · show (g.rules.map _).keys.head? = g.start
    rw [Table.keys_map, h.start]
    rfl

end Legible

/-! ## Grammars that have been read -/

/-- **The alternatives of a left side** are those of its lines, in the order of the lines. -/
theorem productions_ofPieces_gather (t : Tokenizer) (rules : List RuleLine) (name : String) :
    (ofPieces t (RuleLine.gather rules)).productions name
      = ((rules.filter fun r => decide (r.name = name)).flatMap RuleLine.pieces).map
          (t.tokenize (RuleLine.gather rules).contains) := by
  have hpieces : ((RuleLine.gather rules).get? name).getD []
      = (rules.filter fun r => decide (r.name = name)).flatMap RuleLine.pieces := by
    rw [RuleLine.get?_gather]
    split
    · rfl
    · next hname =>
      have hnone : (rules.filter fun r => decide (r.name = name)) = [] := by
        refine List.filter_eq_nil_iff.mpr (fun r hr heq => hname ?_)
        exact of_decide_eq_true heq ▸ List.mem_map_of_mem hr
      rw [hnone]
      rfl
  rw [productions_ofPieces, hpieces]

theorem mem_ruleNames_ofPieces_gather {t : Tokenizer} {rules : List RuleLine} :
    name ∈ (ofPieces t (RuleLine.gather rules)).ruleNames ↔ ∃ r ∈ rules, r.name = name := by
  show name ∈ ((RuleLine.gather rules).map _).keys ↔ _
  rw [Table.keys_map, RuleLine.keys_gather, List.mem_eraseDups, List.mem_map]

/-- **Reading a piece finds symbols that characters stand for.** -/
theorem exists_writes_of_mem_tokenize {defined : String → Bool} {piece : String}
    (hpiece : RuleLine.IsPiece piece.toList) {s : Symbol}
    (hs : s ∈ (Tokenizer.plain.tokenize defined piece).body) :
    ∃ c, Tokenizer.Writes defined c s := by
  unfold Tokenizer.tokenize at hs
  split at hs
  · exact absurd hs List.not_mem_nil
  · rw [Production.body_ofSymbols, List.mem_filter, Tokenizer.scan_plain] at hs
    obtain ⟨c, hc, hread⟩ := List.mem_filterMap.mp hs.1
    exact ⟨c, (hpiece.ne_of_mem c hc).1, hread⟩

/-- The left sides of rules that can be written are capitals. -/
theorem exists_capital_of_mem_ruleNames {t : Tokenizer} {rules : List RuleLine}
    (h : ∀ r ∈ rules, r.WellFormed) :
    ∀ name ∈ (ofPieces t (RuleLine.gather rules)).ruleNames,
      ∃ c : Char, c.isUpper = true ∧ name = String.singleton c := by
  intro name hname
  obtain ⟨r, hr, rfl⟩ := mem_ruleNames_ofPieces_gather.mp hname
  exact ⟨r.left, (h r hr).left, rfl⟩

/-- **The grammar of rules that can be written can be printed.** -/
theorem legible_ofPieces {rules : List RuleLine} (h : ∀ r ∈ rules, r.WellFormed) :
    (ofPieces Tokenizer.plain (RuleLine.gather rules)).Legible where
  capital := exists_capital_of_mem_ruleNames h
  stated := by
    intro name hname hnil
    obtain ⟨r, hr, rfl⟩ := mem_ruleNames_ofPieces_gather.mp hname
    rw [productions_ofPieces_gather, List.map_eq_nil_iff, List.flatMap_eq_nil_iff] at hnil
    exact (h r hr).pieces_ne_nil (hnil r (List.mem_filter.mpr ⟨hr, decide_eq_true rfl⟩))
  start := by
    show (RuleLine.gather rules).keys.head? = ((RuleLine.gather rules).map _).keys.head?
    rw [Table.keys_map]
  written := by
    intro p hp s hs
    obtain ⟨name, hname⟩ := mem_alternatives.mp hp
    rw [productions_ofPieces_gather] at hname
    obtain ⟨piece, hpiece, rfl⟩ := List.mem_map.mp hname
    obtain ⟨r, hr, hpiece⟩ := List.mem_flatMap.mp hpiece
    exact exists_writes_of_mem_tokenize ((h r (List.mem_filter.mp hr).1).isPiece piece hpiece) hs

/-- **A grammar that has been read** is made of the rules that its text states. -/
theorem exists_of_parseWith {t : Tokenizer} (h : parseWith t text = .ok g) :
    ∃ rules, RuleLine.ofText text = .ok rules ∧ g = ofPieces t (RuleLine.gather rules) := by
  unfold parseWith at h
  cases hrules : RuleLine.ofText text with
  | error fault => rw [hrules] at h; exact absurd h (by simp [Except.map])
  | ok rules =>
    rw [hrules] at h
    exact ⟨rules, rfl, (Except.ok.inj h).symm⟩

/-- **What has been read can be printed.** -/
theorem legible_of_parse (h : parse text = .ok g) : g.Legible := by
  obtain ⟨rules, hrules, rfl⟩ := exists_of_parseWith h
  exact legible_ofPieces (RuleLine.wellFormed_of_mem_ofText hrules)

/-- **Printing a grammar that has been read, and reading it again**, always succeeds and gives
the grammar back, rules and alternatives in their order and the start symbol, exactly if no
alternative is made of the terminals `e`, `p`, `s`. Each such alternative comes back as the
empty one, and nothing else changes. -/
theorem parse_plain_eq_iff (h : parse text = .ok g) :
    parse g.ruleListing.plain = .ok g.reread
      ∧ (parse g.ruleListing.plain = .ok g
        ↔ ∀ p ∈ g.alternatives, p.body ≠ Production.epsLetters) := by
  have hreread := (legible_of_parse h).parse_plain
  refine ⟨hreread, ?_⟩
  rw [hreread, Except.ok.injEq]
  exact reread_eq_self_iff

/-- The grammar of a text in which two lines add up, an arrow stands for itself behind the
first one, and blanks and capitals without a rule stand in alternatives. -/
def mixed : Grammar :=
  ((∅ : Grammar).setProductions "S"
    [.ofSymbols [.terminal "a", .nonTerminal "T"], .epsilon, .epsilon]).setProductions
    "T" [.ofSymbols [.terminal "-", .terminal ">", .terminal "X"]]

/-- The mixed grammar is read from its text, and comes back when it is printed and read. -/
theorem parse_plain_eq_iff_mixed :
    parse "S-> a T |ε\n\nT->->X\nS->eps\nEND" = .ok mixed
      ∧ parse mixed.ruleListing.plain = .ok mixed.reread
      ∧ (parse mixed.ruleListing.plain = .ok mixed
        ↔ ∀ p ∈ mixed.alternatives, p.body ≠ Production.epsLetters) := by
  have hread : parse "S-> a T |ε\n\nT->->X\nS->eps\nEND" = .ok mixed := by decide +kernel
  exact ⟨hread, parse_plain_eq_iff hread⟩

/-- The grammar whose only alternative is made of the terminals `e`, `p`, `s`. -/
def spaced : Grammar := (∅ : Grammar).setProductions "A" [.ofSymbols Production.epsLetters]

/-- Reading keeps the three terminals of `A->e p s` apart, and printing puts them together as
`A -> eps`, which is read as the empty alternative. -/
theorem parse_plain_ne_spaced :
    parse "A->e p s" = .ok spaced ∧ spaced.ruleListing.plain = "A -> eps"
      ∧ parse spaced.ruleListing.plain
        = .ok ((∅ : Grammar).setProductions "A" [Production.epsilon])
      ∧ parse spaced.ruleListing.plain ≠ .ok spaced := by
  refine ⟨?_, ?_, ?_, ?_⟩ <;> decide +kernel

end Grammar

end GrammarWorkbench
