import GrammarWorkbench.Proofs.Tidy

/-!
# Capitals that are said to have no rule

When a text has been read, each capital that stands as a terminal is reported to have no rule
(`Grammar.namesReported`), once and in alphabetical order. This is said of every such capital,
also of one that has a rule.

There are two ways for a capital to become a terminal (`Grammar.declared_or_char_of_uses`). Read
by itself it does so only if it is no left side, and then the report is true. But it may also be
the spelling of a declared terminal, and those are taken wherever they fit, before anything else
is considered. So every capital without a rule that stands in an alternative is reported, and the
others that are reported are declared terminals. The report is right exactly if no declared
terminal that is found in the text is the name of a rule (`Grammar.namesReported_right_iff`).
-/

namespace GrammarWorkbench

/-- **A single capital**, as a name. -/
def IsCapital (name : String) : Prop := ∃ c : Char, c.isUpper = true ∧ name = String.singleton c

/-- The name that an event says to have no rule. -/
def Event.nameWithoutRule? : Event → Option String
  | .capitalWithoutRule name => some name
  | _ => none

/-! ## Where terminals come from -/

namespace Tokenizer

/-- A terminal that a character stands for is that character, and not a defined capital. -/
theorem eq_singleton_of_charSymbol? {defined : String → Bool} {name : String} {c : Char}
    (h : charSymbol? defined c = some (.terminal name)) :
    name = String.singleton c ∧ ¬ (c.isUpper = true ∧ defined name = true) := by
  obtain ⟨-, -, heq⟩ := charSymbol?_eq_some_iff.mp h
  split at heq
  · exact absurd heq (by simp)
  · next hrule =>
    obtain rfl := Symbol.terminal.inj heq
    exact ⟨rfl, by rwa [Bool.and_eq_true] at hrule⟩

end Tokenizer

namespace Grammar

variable {g : Grammar} {t : Tokenizer} {text name : String}

/-- **A terminal of a grammar that has been read** is declared, or it is a single character that
is not the name of a rule. -/
theorem declared_or_char_of_uses (h : parseWith t text = .ok g) (huse : g.Uses (.terminal name)) :
    name ∈ t.terminals
      ∨ ∃ c, name = String.singleton c ∧ ¬ (c.isUpper = true ∧ name ∈ g.ruleNames) := by
  obtain ⟨rules, -, rfl⟩ := exists_of_parseWith h
  have hnames : (ofPieces t (RuleLine.gather rules)).ruleNames = (RuleLine.gather rules).keys :=
    Table.keys_map _ _
  rcases origin_of_uses_ofPieces huse with ⟨other, hdeclared, heq⟩ | ⟨c, hc⟩
  · obtain rfl := Symbol.terminal.inj heq
    exact Or.inl hdeclared
  · have hchar := Tokenizer.eq_singleton_of_charSymbol? hc
    rw [Table.contains_iff, ← hnames] at hchar
    exact Or.inr ⟨c, hchar⟩

/-- The rules of a grammar that has been read are capitals. -/
theorem isCapital_of_mem_ruleNames (h : parseWith t text = .ok g) (hname : name ∈ g.ruleNames) :
    IsCapital name := by
  obtain ⟨rules, hrules, rfl⟩ := exists_of_parseWith h
  exact exists_capital_of_mem_ruleNames (RuleLine.wellFormed_of_mem_ofText hrules) name hname

/-- **A rule that stands as a terminal** is declared. -/
theorem mem_terminals_of_uses (h : parseWith t text = .ok g) (huse : g.Uses (.terminal name))
    (hname : name ∈ g.ruleNames) : name ∈ t.terminals := by
  rcases declared_or_char_of_uses h huse with hdeclared | ⟨c, hc, hnot⟩
  · exact hdeclared
  · obtain ⟨d, hd, hname'⟩ := isCapital_of_mem_ruleNames h hname
    have hcd : c = d := List.singleton_injective (String.ofList_injective (hc.symm.trans hname'))
    exact absurd ⟨hcd ▸ hd, hname⟩ hnot

/-! ## What is reported -/

/-- **The names that are said to have no rule** when `g` has been read, in order. -/
def namesReported (g : Grammar) : List String := g.readEvents.filterMap Event.nameWithoutRule?

theorem namesReported_eq (g : Grammar) : g.namesReported = g.capitalTerminals.toList := by
  unfold namesReported readEvents
  rw [List.filterMap_append, List.filterMap_map]
  simp [Function.comp_def, Event.nameWithoutRule?]

theorem capitalTerminal?_eq_some_iff {a : Symbol} :
    capitalTerminal? a = some name ↔ a = .terminal name ∧ IsCapital name := by
  cases a with
  | terminal other =>
    rw [capitalTerminal?, Option.map_eq_some_iff, Symbol.terminal.injEq]
    constructor
    · rintro ⟨c, hc, rfl⟩
      obtain ⟨hchars, hupper⟩ := RuleLine.capital?_eq_some_iff.mp hc
      exact ⟨rfl, c, hupper, String.toList_injective (by rw [hchars, String.toList_singleton])⟩
    · rintro ⟨rfl, c, hupper, rfl⟩
      exact ⟨c, RuleLine.capital?_eq_some_iff.mpr ⟨String.toList_singleton c, hupper⟩, rfl⟩
  | nonTerminal _ | epsilon | endMark => simp [capitalTerminal?]

/-- **The capitals that stand as terminals** are reported, and no other names. -/
theorem mem_namesReported_iff :
    name ∈ g.namesReported ↔ IsCapital name ∧ g.Uses (.terminal name) := by
  rw [namesReported_eq, ← SortedSet.mem_def, capitalTerminals, SortedSet.mem_ofList,
    List.mem_flatMap]
  constructor
  · rintro ⟨p, hp, hmem⟩
    obtain ⟨a, ha, hsome⟩ := List.mem_filterMap.mp hmem
    obtain ⟨rfl, hcapital⟩ := capitalTerminal?_eq_some_iff.mp hsome
    exact ⟨hcapital, p, hp, ha⟩
  · rintro ⟨hcapital, p, hp, ha⟩
    exact ⟨p, hp, List.mem_filterMap.mpr ⟨_, ha, capitalTerminal?_eq_some_iff.mpr ⟨rfl, hcapital⟩⟩⟩

/-- **Each capital that stands as a terminal is said to have no rule**, once and in alphabetical
order. All that have none are among them, and one that has a rule is a declared terminal. So the
names are those of the capitals without a rule exactly if no declared terminal that stands in an
alternative is the name of a rule. -/
theorem namesReported_right_iff (h : parseWith t text = .ok g) :
    g.namesReported.Pairwise (· < ·)
      ∧ (∀ name, name ∈ g.namesReported ↔ IsCapital name ∧ g.Uses (.terminal name))
      ∧ (∀ name ∈ g.namesReported, name ∈ g.ruleNames → name ∈ t.terminals)
      ∧ ((∀ name, name ∈ g.namesReported
            ↔ IsCapital name ∧ g.Uses (.terminal name) ∧ name ∉ g.ruleNames)
        ↔ ∀ name ∈ t.terminals, g.Uses (.terminal name) → name ∉ g.ruleNames) := by
  have hdeclared : ∀ name ∈ g.namesReported, name ∈ g.ruleNames → name ∈ t.terminals :=
    fun name hname => mem_terminals_of_uses h (mem_namesReported_iff.mp hname).2
  refine ⟨?_, fun name => mem_namesReported_iff, hdeclared, fun hright name _ huse hrule => ?_,
    fun hnone name => ?_⟩
  · rw [namesReported_eq]
    exact g.capitalTerminals.sorted
  · have hcapital := isCapital_of_mem_ruleNames h hrule
    exact ((hright name).mp (mem_namesReported_iff.mpr ⟨hcapital, huse⟩)).2.2 hrule
  · constructor
    · intro hname
      obtain ⟨hcapital, huse⟩ := mem_namesReported_iff.mp hname
      exact ⟨hcapital, huse, fun hrule => hnone name (hdeclared name hname hrule) huse hrule⟩
    · rintro ⟨hcapital, huse, -⟩
      exact mem_namesReported_iff.mpr ⟨hcapital, huse⟩

/-- A text in which a capital is declared and is a left side, and stands in an alternative only
inside of a longer declared terminal. -/
def clearedText : String := "S->aA|QZ|Q\nA->ZB"

/-- The grammar of that text when `A`, `aA` and `B` are declared. -/
def cleared : Grammar :=
  ((∅ : Grammar).setProductions "S"
    [.ofSymbols [.terminal "aA"], .ofSymbols [.terminal "Q", .terminal "Z"],
      .ofSymbols [.terminal "Q"]]).setProductions
    "A" [.ofSymbols [.terminal "Z", .terminal "B"]]

/-- The names reported are right: `A` is taken as part of `aA` where it stands. -/
theorem namesReported_right_iff_cleared :
    parseWith (.declaring ["A", "aA", "B"]) clearedText = .ok cleared
      ∧ cleared.namesReported = ["B", "Q", "Z"]
      ∧ ∀ name, name ∈ cleared.namesReported
        ↔ IsCapital name ∧ cleared.Uses (.terminal name) ∧ name ∉ cleared.ruleNames := by
  have hread : parseWith (.declaring ["A", "aA", "B"]) clearedText = .ok cleared := by
    decide +kernel
  have hnone : ∀ name ∈ (Tokenizer.declaring ["A", "aA", "B"]).terminals,
      name ∈ cleared.ruleNames → ∀ p ∈ cleared.alternatives, Symbol.terminal name ∉ p.body := by
    decide +kernel
  obtain ⟨-, -, -, hright⟩ := namesReported_right_iff hread
  refine ⟨hread, by decide +kernel, hright.mpr fun name hname huse hrule => ?_⟩
  obtain ⟨p, hp, hmem⟩ := huse
  exact hnone name hname hrule p hp hmem

/-- The grammar of a text in which a declared terminal is also a rule. -/
def overruled : Grammar :=
  ((∅ : Grammar).setProductions "S" [.ofSymbols [.terminal "A"]]).setProductions
    "A" [.ofSymbols [.terminal "a"]]

/-- **A rule may be said to have none.** The capital `A` has a rule and is declared, so it is a
terminal where it stands, and is reported. -/
theorem rule_mem_namesReported :
    parseWith (.declaring ["A"]) "S->A\nA->a" = .ok overruled
      ∧ overruled.namesReported = ["A"] ∧ "A" ∈ overruled.ruleNames
      ∧ ¬ ∀ name, name ∈ overruled.namesReported
        ↔ IsCapital name ∧ overruled.Uses (.terminal name) ∧ name ∉ overruled.ruleNames := by
  have hnames : overruled.namesReported = ["A"] := by decide +kernel
  have hrule : "A" ∈ overruled.ruleNames := by decide +kernel
  refine ⟨by decide +kernel, hnames, hrule, fun hright => ?_⟩
  exact ((hright "A").mp (hnames ▸ List.mem_cons_self)).2.2 hrule

end Grammar

end GrammarWorkbench
