import GrammarWorkbench.Proofs.Reader.RoundTrip

/-!
# The grammars of the text format

Which grammars come back when they are printed and read is said here without printer and
reader, by a look at the table alone (`Grammar.Printable`). Left sides are capitals, each with
an alternative, and the first of them is the start symbol. A non-terminal names a rule. A
terminal is one character, which may be almost any: a dash or an arrow head, a dollar sign, a
capital without a rule, a letter of any script. It must not be blank, the bar, a spelling of
the empty alternative or the name of a rule. And no alternative may be made of the terminals
`e`, `p`, `s`.

These conditions leave nothing out: a grammar that breaks one of them does not come back
(`Grammar.parse_plain_eq_self_iff`).
-/

namespace GrammarWorkbench

variable {g : Grammar} {c : Char} {s : Symbol}

/-- **The symbols that grammar text can show** in alternatives of `g`. -/
inductive Symbol.Spelled (g : Grammar) : Symbol → Prop where
  /-- A non-terminal has a rule. -/
  | rule {name : String} (h : name ∈ g.ruleNames) : Spelled g (.nonTerminal name)
  /-- A terminal is a single character that nothing else is meant by. -/
  | char {c : Char} (not_blank : Text.isBlank c = false) (ne_bar : c ≠ '|')
      (ne_mark : c ≠ '\u03f5' ∧ c ≠ '\u03b5')
      (not_rule : ¬ (c.isUpper = true ∧ String.singleton c ∈ g.ruleNames)) :
      Spelled g (.terminal (String.singleton c))

/-- Of single characters only the two epsilons spell the empty alternative. -/
theorem isEpsilonSpelling_singleton_iff :
    isEpsilonSpelling (String.singleton c) = true ↔ c = '\u03f5' ∨ c = '\u03b5' := by
  have hsingle : ∀ (d : Char), String.singleton c = String.ofList [d] ↔ c = d := fun d =>
    ⟨fun h => List.singleton_injective (String.ofList_injective h), fun h => h ▸ rfl⟩
  have hword : String.singleton c ≠ "eps" := fun h => by
    simpa using congrArg String.toList h
  rw [isEpsilonSpelling_iff]
  show String.singleton c = String.ofList ['\u03f5'] ∨ _
    ∨ String.singleton c = String.ofList ['\u03b5'] ↔ _
  rw [hsingle, hsingle, or_iff_right hword]

/-- A capital is neither blank nor any of the characters with a meaning of their own. -/
theorem ne_of_isUpper (hc : c.isUpper = true) {d : Char} (hd : d.isUpper = false) : c ≠ d :=
  fun h => absurd (h ▸ hc) (Bool.eq_false_iff.mp hd)

/-- **Where left sides are capitals, the symbols that characters stand for** are those that
can be spelled. -/
theorem Symbol.exists_writes_iff
    (hcapital : ∀ name ∈ g.ruleNames, ∃ c : Char, c.isUpper = true ∧ name = String.singleton c) :
    (∃ c, Tokenizer.Writes g.isRule c s) ↔ s.Spelled g := by
  constructor
  · rintro ⟨c, hc⟩
    obtain ⟨hblank, hspelling, hs⟩ := Tokenizer.charSymbol?_eq_some_iff.mp hc.read
    rw [Bool.eq_false_iff, ne_eq, isEpsilonSpelling_singleton_iff, not_or] at hspelling
    subst hs
    split
    · next hrule =>
      rw [Bool.and_eq_true, Grammar.isRule_iff] at hrule
      exact Spelled.rule hrule.2
    · next hother =>
      rw [Bool.and_eq_true, Grammar.isRule_iff] at hother
      exact Spelled.char hblank hc.ne_bar hspelling hother
  · intro h
    cases h with
    | rule h =>
      obtain ⟨c, hc, rfl⟩ := hcapital _ h
      have hspelling : ¬ (c = '\u03f5' ∨ c = '\u03b5') :=
        not_or.mpr ⟨ne_of_isUpper hc (by decide), ne_of_isUpper hc (by decide)⟩
      refine ⟨c, ne_of_isUpper hc (by decide), Tokenizer.charSymbol?_eq_some_iff.mpr
        ⟨Text.isBlank_of_isUpper hc, ?_, ?_⟩⟩
      · rwa [Bool.eq_false_iff, ne_eq, isEpsilonSpelling_singleton_iff]
      · rw [if_pos (Bool.and_eq_true_iff.mpr ⟨hc, Grammar.isRule_iff.mpr h⟩)]
    | @char c not_blank ne_bar ne_mark not_rule =>
      refine ⟨c, ne_bar, Tokenizer.charSymbol?_eq_some_iff.mpr ⟨not_blank, ?_, ?_⟩⟩
      · rwa [Bool.eq_false_iff, ne_eq, isEpsilonSpelling_singleton_iff, not_or]
      · rw [if_neg (by rwa [Bool.and_eq_true, Grammar.isRule_iff])]

namespace Grammar

/-- **A grammar that the text format can hold.** -/
structure Printable (g : Grammar) : Prop where
  /-- Left sides are single capitals. -/
  capital : ∀ name ∈ g.ruleNames, ∃ c : Char, c.isUpper = true ∧ name = String.singleton c
  /-- Every rule has an alternative. -/
  stated : ∀ name ∈ g.ruleNames, g.productions name ≠ []
  /-- The start symbol is the first left side, if there is one. -/
  start : g.start = g.ruleNames.head?
  /-- Alternatives are empty or made of symbols that can be spelled. -/
  spelled : ∀ p ∈ g.alternatives, ∀ s ∈ p.body, s.Spelled g
  /-- No alternative is made of the terminals `e`, `p`, `s`. -/
  ne_eps : ∀ p ∈ g.alternatives,
    p.body ≠ [.terminal "e", .terminal "p", .terminal "s"]

theorem printable_iff :
    g.Printable ↔ g.Legible ∧ ∀ p ∈ g.alternatives, p.body ≠ Production.epsLetters := by
  constructor
  · intro h
    refine ⟨⟨h.capital, h.stated, h.start, fun p hp s hs => ?_⟩, h.ne_eps⟩
    exact (Symbol.exists_writes_iff h.capital).mpr (h.spelled p hp s hs)
  · rintro ⟨h, hne⟩
    refine ⟨h.capital, h.stated, h.start, fun p hp s hs => ?_, hne⟩
    exact (Symbol.exists_writes_iff h.capital).mp (h.written p hp s hs)

/-- **Reading undoes printing on the whole text format**, and on nothing else: a grammar comes
back from its listing, rules and alternatives in their order and the start symbol, exactly if
it is printable. -/
theorem parse_plain_eq_self_iff (g : Grammar) :
    parse g.ruleListing.plain = .ok g ↔ g.Printable := by
  rw [printable_iff]
  constructor
  · intro h
    have hlegible := legible_of_parse h
    rw [hlegible.parse_plain, Except.ok.injEq, reread_eq_self_iff] at h
    exact ⟨hlegible, h⟩
  · rintro ⟨hlegible, hne⟩
    rw [hlegible.parse_plain, reread_eq_self_iff.mpr hne]

/-- A grammar with terminals that look like the marks of the text format: an arrow, a closing
word, a dollar sign and a letter that is no capital of the alphabet. -/
def disguised : Grammar :=
  ((∅ : Grammar).setProductions "S"
    [.ofSymbols [.terminal "-", .terminal ">", .nonTerminal "D"],
      .ofSymbols [.terminal "E", .terminal "N", .nonTerminal "D"], .epsilon]).setProductions
    "D" [.ofSymbols [.terminal "$", .terminal "Ж", .terminal "e", .terminal "p"]]

/-- The characters that stand for terminals in the disguised grammar. -/
def disguisedChars : List Char := ['-', '>', 'E', 'N', '$', 'Ж', 'e', 'p']

/-- The disguised grammar is printable, so it comes back from its listing. -/
theorem parse_plain_eq_self_iff_disguised :
    disguised.Printable ∧ parse disguised.ruleListing.plain = .ok disguised := by
  have hsymbols : ∀ p ∈ disguised.alternatives, ∀ s ∈ p.body,
      s = .nonTerminal "D" ∨ s ∈ disguisedChars.map fun c => .terminal (String.singleton c) := by
    decide +kernel
  have hchars : (disguisedChars.all fun c => decide (Text.isBlank c = false ∧ c ≠ '|'
      ∧ (c ≠ '\u03f5' ∧ c ≠ '\u03b5')
      ∧ ¬ (c.isUpper = true ∧ String.singleton c ∈ disguised.ruleNames))) = true := by
    decide +kernel
  have hprintable : disguised.Printable := by
    refine ⟨fun name hname => ?_, by decide +kernel, by decide +kernel, fun p hp s hs => ?_,
      by decide +kernel⟩
    · have hnames : disguised.ruleNames = ["S", "D"] := by decide +kernel
      rw [hnames, List.mem_cons, List.mem_singleton] at hname
      rcases hname with rfl | rfl
      · exact ⟨'S', rfl, rfl⟩
      · exact ⟨'D', rfl, rfl⟩
    · rcases hsymbols p hp s hs with rfl | hterminal
      · exact Symbol.Spelled.rule (by decide +kernel)
      · obtain ⟨c, hc, rfl⟩ := List.mem_map.mp hterminal
        obtain ⟨hblank, hbar, hmark, hrule⟩ := of_decide_eq_true (List.all_eq_true.mp hchars c hc)
        exact Symbol.Spelled.char hblank hbar hmark hrule
  exact ⟨hprintable, (parse_plain_eq_self_iff disguised).mpr hprintable⟩

end Grammar

end GrammarWorkbench
