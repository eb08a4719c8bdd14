import GrammarWorkbench.Proofs.NormalForm
import GrammarWorkbench.Proofs.Reader.RoundTrip

/-!
# Tidy grammars

What holds of a grammar that has been read, and is to hold of whatever becomes of it
(`Grammar.Tidy`): non-terminals have rules, the first rule is the start symbol, and no
alternative holds the end mark. That the mark `ϵ` stands alone or not at all is part of what an
alternative is (`Production.symbols_cases`).

A reader that goes through the text once could not tell a non-terminal from a terminal, because
the rule may come later. Here every left side is known before the first alternative is cut into
symbols, and a character becomes a non-terminal only if it is one of them
(`Tokenizer.of_origin`). This does not depend on the terminals that are declared, so
neither does tidiness (`Grammar.tidy_of_parseWith`).
-/

namespace GrammarWorkbench

/-- **The mark `ϵ` is shown alone or not at all.** -/
theorem Production.symbols_cases (p : Production) :
    p.symbols = [.epsilon] ∨ p.symbols ≠ [] ∧ Symbol.epsilon ∉ p.symbols := by
  cases p.normal_symbols.alone with
  | inl hmark => exact Or.inl hmark
  | inr hfree => exact Or.inr ⟨p.symbols_ne_nil, hfree⟩

/-- The symbols shown are those of the body, and the mark `ϵ` for an empty one. -/
theorem Production.mem_symbols {p : Production} {s : Symbol} (h : s ∈ p.symbols) :
    s ∈ p.body ∨ s = .epsilon := by
  unfold Production.symbols at h
  split at h
  · exact Or.inr (List.mem_singleton.mp h)
  · exact Or.inl h

/-! ## What tokenizers find -/

namespace Tokenizer

variable {t : Tokenizer} {defined : String → Bool} {s : Symbol}

/-- **Every symbol that a scan finds** is a declared terminal, or a character stands for it. -/
theorem origin_of_mem_scan {text : List Char} (hs : s ∈ t.scan defined text) :
    (∃ name ∈ t.terminals, s = .terminal name) ∨ ∃ c, charSymbol? defined c = some s := by
  fun_induction scan t defined text with
  | case1 => exact absurd hs List.not_mem_nil
  | case2 c cs d hmatch ih =>
    rcases List.mem_cons.mp hs with rfl | hs
    · exact Or.inl ⟨d.text, List.mem_map_of_mem (List.mem_of_find?_eq_some hmatch), rfl⟩
    · exact ih hs
  | case3 c cs _ ih =>
    rcases List.mem_append.mp hs with hs | hs
    · exact Or.inr ⟨c, Option.mem_toList.mp hs⟩
    · exact ih hs

/-- So is every symbol of an alternative that is read. -/
theorem origin_of_mem_tokenize {text : String} (hs : s ∈ (t.tokenize defined text).body) :
    (∃ name ∈ t.terminals, s = .terminal name) ∨ ∃ c, charSymbol? defined c = some s := by
  unfold tokenize at hs
  split at hs
  · exact absurd hs List.not_mem_nil
  · rw [Production.body_ofSymbols, List.mem_filter] at hs
    exact origin_of_mem_scan hs.1

/-- What characters stand for are terminals, and non-terminals that are defined. -/
theorem of_origin
    (h : (∃ name ∈ t.terminals, s = .terminal name) ∨ ∃ c, charSymbol? defined c = some s) :
    (∃ name, s = .terminal name) ∨ ∃ name, s = .nonTerminal name ∧ defined name = true := by
  rcases h with ⟨name, -, rfl⟩ | ⟨c, hc⟩
  · exact Or.inl ⟨name, rfl⟩
  · obtain ⟨-, -, rfl⟩ := charSymbol?_eq_some_iff.mp hc
    split
    · next hrule => exact Or.inr ⟨_, rfl, (Bool.and_eq_true_iff.mp hrule).2⟩
    · exact Or.inl ⟨_, rfl⟩

end Tokenizer

/-! ## Tidy grammars -/

namespace Grammar

/-- **A grammar in which everything is in its place.** -/
structure Tidy (g : Grammar) : Prop where
  /-- Non-terminals have rules. -/
  closed : g.Closed
  /-- The start symbol is the first rule, if there is one. -/
  start : g.start = g.ruleNames.head?
  /-- The end mark is left to the analysis. -/
  endMark : ¬ g.Uses .endMark

variable {g : Grammar} {a : Symbol}

/-- In a tidy grammar with a rule there is a start symbol. -/
theorem Tidy.exists_start (h : g.Tidy) {name : String} (hname : name ∈ g.ruleNames) :
    ∃ start, g.start = some start := by
  rw [h.start]
  cases hnames : g.ruleNames with
  | nil => exact absurd (hnames ▸ hname) List.not_mem_nil
  | cons first _ => exact ⟨first, rfl⟩

/-- What a grammar of gathered pieces uses was found in one of the pieces. -/
theorem origin_of_uses_ofPieces {t : Tokenizer} {pieces : Table String (List String)}
    (h : (ofPieces t pieces).Uses a) :
    (∃ name ∈ t.terminals, a = .terminal name)
      ∨ ∃ c, Tokenizer.charSymbol? pieces.contains c = some a := by
  obtain ⟨name, p, hp, ha⟩ := uses_iff.mp h
  rw [productions_ofPieces] at hp
  obtain ⟨piece, -, rfl⟩ := List.mem_map.mp hp
  exact Tokenizer.origin_of_mem_tokenize ha

/-- So it is a terminal, or a non-terminal that pieces are gathered for. -/
theorem of_uses_ofPieces {t : Tokenizer} {pieces : Table String (List String)}
    (h : (ofPieces t pieces).Uses a) :
    (∃ name, a = .terminal name) ∨ ∃ name, a = .nonTerminal name ∧ pieces.contains name = true :=
  Tokenizer.of_origin (origin_of_uses_ofPieces h)

/-- **Gathered pieces make a tidy grammar**, whatever the tokenizer declares. -/
theorem tidy_ofPieces (t : Tokenizer) (pieces : Table String (List String)) :
    (ofPieces t pieces).Tidy := by
  have hnames : (ofPieces t pieces).ruleNames = pieces.keys := Table.keys_map _ _
  refine ⟨fun name hname => ?_, ?_, fun huse => ?_⟩
  · rcases of_uses_ofPieces hname with ⟨text, heq⟩ | ⟨other, heq, hdefined⟩
    · exact absurd heq (by simp)
    · obtain rfl := Symbol.nonTerminal.inj heq
      exact hnames ▸ Table.contains_iff.mp hdefined
  · rw [hnames]
    rfl
  · rcases of_uses_ofPieces huse with ⟨text, heq⟩ | ⟨other, heq, -⟩
    · exact absurd heq (by simp)
    · exact absurd heq (by simp)

/-- **What is read from a text is tidy.** -/
theorem tidy_of_parseWith {t : Tokenizer} {text : String} (h : parseWith t text = .ok g) :
    g.Tidy := by
  obtain ⟨rules, -, rfl⟩ := exists_of_parseWith h
  exact tidy_ofPieces t _

end Grammar

end GrammarWorkbench
