import GrammarWorkbench.Production
import GrammarWorkbench.Table
import GrammarWorkbench.Text.Occurs

/-!
# Context-free grammars

A grammar is a table of rules, each a left side with its list of alternatives, and
the name of the non-terminal that derivations start from. The table keeps the
order in which left sides were first seen, and alternatives keep their order and
their repetitions, because all of this is shown.

Nothing forces a non-terminal to have a rule, or the start symbol to be a rule;
`productions` of an unknown name is the empty list. A grammar in which every
non-terminal has a rule is `Closed`.
-/

namespace GrammarWorkbench

/-- **A context-free grammar.** -/
structure Grammar where
  /-- The alternatives of each left side, in order of first appearance. -/
  rules : Table String (List Production)
  /-- Where derivations start. -/
  start : Option String
deriving DecidableEq

namespace Grammar

/-- The grammar without rules. -/
def empty : Grammar := ⟨∅, none⟩

instance : EmptyCollection Grammar := ⟨empty⟩

instance : Inhabited Grammar := ⟨∅⟩

/-- The left sides, in order of first appearance. -/
def ruleNames (g : Grammar) : List String := g.rules.keys

theorem nodup_ruleNames (g : Grammar) : g.ruleNames.Nodup := g.rules.nodup_keys

/-- Whether `name` is the left side of a rule. -/
def isRule (g : Grammar) (name : String) : Bool := g.rules.contains name

@[simp] theorem isRule_iff {g : Grammar} {name : String} :
    g.isRule name = true ↔ name ∈ g.ruleNames :=
  Table.contains_iff

/-- The alternatives of `name`; none if it has no rule. -/
def productions (g : Grammar) (name : String) : List Production := (g.rules.get? name).getD []

theorem productions_eq_nil_of_not_mem {g : Grammar} {name : String} (h : name ∉ g.ruleNames) :
    g.productions name = [] := by
  simp [productions, Table.get?_eq_none_iff.mpr h]

theorem productions_eq_of_mem_entries {g : Grammar} {rule : String × List Production}
    (h : rule ∈ g.rules.entries) : g.productions rule.1 = rule.2 := by
  unfold productions
  rw [Table.get?_eq_some_iff.mpr h]
  rfl

theorem mem_ruleNames_of_mem_entries {g : Grammar} {rule : String × List Production}
    (h : rule ∈ g.rules.entries) : rule.1 ∈ g.ruleNames :=
  List.mem_map_of_mem h

/-- **Grammars with the same left sides in the same order, the same alternatives and the same
start symbol are equal.** -/
theorem ext_productions {g g' : Grammar} (hnames : g.ruleNames = g'.ruleNames)
    (hproductions : ∀ name, g.productions name = g'.productions name)
    (hstart : g.start = g'.start) : g = g' := by
  have hrules : g.rules = g'.rules := by
    refine Table.ext_get? hnames (fun name => ?_)
    have hname := hproductions name
    unfold productions at hname
    cases hv : g.rules.get? name with
    | none =>
      have hmem : name ∉ g'.ruleNames := hnames ▸ Table.get?_eq_none_iff.mp hv
      rw [Table.get?_eq_none_iff.mpr hmem]
    | some ps =>
      cases hv' : g'.rules.get? name with
      | none =>
        have hmem : name ∉ g.ruleNames := hnames ▸ Table.get?_eq_none_iff.mp hv'
        rw [Table.get?_eq_none_iff.mpr hmem] at hv
        exact absurd hv (by simp)
      | some ps' =>
        rw [hv, hv'] at hname
        exact congrArg some hname
  obtain ⟨rules, start⟩ := g
  obtain ⟨rules', start'⟩ := g'
  obtain rfl : rules = rules' := hrules
  obtain rfl : start = start' := hstart
  rfl

/-- Every alternative of every rule. -/
def alternatives (g : Grammar) : List Production := g.rules.values.flatten

/-- **Gives `left` the alternatives `rights`**, in place if it has a rule and as
the last rule otherwise. A grammar without a start symbol starts from `left`. -/
def setProductions (g : Grammar) (left : String) (rights : List Production) : Grammar where
  rules := g.rules.insert left rights
  start := g.start.or (some left)

/-- Adds one alternative at the end of those of `left`. A grammar without a start
symbol starts from `left`. -/
def addProduction (g : Grammar) (left : String) (right : Production) : Grammar :=
  g.setProductions left (g.productions left ++ [right])

theorem ruleNames_setProductions (g : Grammar) (left : String) (rights : List Production) :
    (g.setProductions left rights).ruleNames
      = if left ∈ g.ruleNames then g.ruleNames else g.ruleNames ++ [left] :=
  Table.keys_insert g.rules left rights

/-- No rule disappears. -/
theorem ruleNames_subset_setProductions (g : Grammar) (left : String) (rights : List Production) :
    g.ruleNames ⊆ (g.setProductions left rights).ruleNames := by
  intro name hname
  rw [ruleNames_setProductions]
  split
  · exact hname
  · exact List.mem_append_left _ hname

theorem mem_ruleNames_setProductions_self (g : Grammar) (left : String)
    (rights : List Production) : left ∈ (g.setProductions left rights).ruleNames := by
  rw [ruleNames_setProductions]
  split
  · next hleft => exact hleft
  · exact List.mem_append_right _ List.mem_cons_self

/-- A start symbol is kept. -/
theorem start_setProductions_of_some {g : Grammar} {start : String} (h : g.start = some start)
    (left : String) (rights : List Production) :
    (g.setProductions left rights).start = some start := by
  show g.start.or (some left) = some start
  rw [h]
  rfl

/-- A missing one is set. -/
theorem start_setProductions_of_none {g : Grammar} (h : g.start = none) (left : String)
    (rights : List Production) : (g.setProductions left rights).start = some left := by
  show g.start.or (some left) = some left
  rw [h]
  rfl

/-- **Only the alternatives of `left` change.** -/
theorem productions_setProductions (g : Grammar) (left name : String)
    (rights : List Production) :
    (g.setProductions left rights).productions name
      = if name = left then rights else g.productions name := by
  unfold productions setProductions
  rw [Table.get?_insert]
  split <;> rfl

@[simp] theorem productions_setProductions_self (g : Grammar) (left : String)
    (rights : List Production) :
    (g.setProductions left rights).productions left = rights := by
  simp [productions_setProductions]

theorem productions_addProduction (g : Grammar) (left name : String) (right : Production) :
    (g.addProduction left right).productions name
      = if name = left then g.productions left ++ [right] else g.productions name :=
  productions_setProductions g left name _

/-- **Whether `name` can be read inside the printed form of some alternative**, as
`X1` can in the alternative made of the non-terminal `X` and the terminal `1`. -/
def rendersName (g : Grammar) (name : String) : Bool :=
  g.alternatives.any fun p => Text.occursIn name.toList p.display.toList

/-- The symbol `s` stands in some alternative. -/
def Uses (g : Grammar) (s : Symbol) : Prop := ∃ p ∈ g.alternatives, s ∈ p.body

/-- The non-terminal `name` stands in some alternative. -/
def Mentions (g : Grammar) (name : String) : Prop :=
  ∃ p ∈ g.alternatives, Symbol.nonTerminal name ∈ p.body

/-- The alternatives of the grammar are those of its rules, in the order of the rules. -/
theorem alternatives_eq (g : Grammar) : g.alternatives = g.ruleNames.flatMap g.productions := by
  have hvalues : g.rules.values = g.ruleNames.map g.productions := by
    refine (List.map_inj_right fun _ _ => Option.some.inj).mp ?_
    rw [Table.map_some_values, List.map_map]
    refine List.map_congr_left fun name hname => ?_
    unfold productions
    cases hv : g.rules.get? name with
    | none => exact absurd hname (Table.get?_eq_none_iff.mp hv)
    | some ps => rw [Function.comp_apply, hv]; rfl
  rw [alternatives, hvalues, List.flatMap_def]

theorem mem_ruleNames_of_mem {g : Grammar} {name : String} {p : Production}
    (h : p ∈ g.productions name) : name ∈ g.ruleNames := by
  by_cases hname : name ∈ g.ruleNames
  · exact hname
  · rw [productions_eq_nil_of_not_mem hname] at h
    exact absurd h List.not_mem_nil

/-- The alternatives of the grammar are those of its rules. -/
theorem mem_alternatives {g : Grammar} {p : Production} :
    p ∈ g.alternatives ↔ ∃ name, p ∈ g.productions name := by
  rw [alternatives_eq, List.mem_flatMap]
  constructor
  · rintro ⟨name, _, hp⟩
    exact ⟨name, hp⟩
  · rintro ⟨name, hp⟩
    exact ⟨name, mem_ruleNames_of_mem hp, hp⟩

theorem uses_iff {g : Grammar} {s : Symbol} :
    g.Uses s ↔ ∃ left, ∃ p ∈ g.productions left, s ∈ p.body := by
  unfold Uses
  constructor
  · rintro ⟨p, hp, hs⟩
    obtain ⟨left, hleft⟩ := mem_alternatives.mp hp
    exact ⟨left, p, hleft, hs⟩
  · rintro ⟨left, p, hp, hs⟩
    exact ⟨p, mem_alternatives.mpr ⟨left, hp⟩, hs⟩

theorem mentions_iff {g : Grammar} {name : String} :
    g.Mentions name ↔ ∃ left, ∃ p ∈ g.productions left, Symbol.nonTerminal name ∈ p.body :=
  uses_iff

/-- **Every non-terminal that an alternative mentions has a rule.** -/
def Closed (g : Grammar) : Prop := ∀ name, g.Mentions name → name ∈ g.ruleNames

/-- Whether the grammar is closed can be seen symbol by symbol. -/
instance (g : Grammar) : Decidable g.Closed :=
  decidable_of_iff
    (∀ p ∈ g.alternatives, ∀ s ∈ p.body, ∀ name ∈ s.nonTerminal?, g.isRule name = true) <| by
    unfold Closed Mentions
    constructor
    · rintro h name ⟨p, hp, hname⟩
      exact isRule_iff.mp (h p hp _ hname name rfl)
    · intro h p hp s hs name hname
      obtain rfl := Symbol.nonTerminal?_eq_some_iff.mp hname
      exact isRule_iff.mpr (h name ⟨p, hp, hs⟩)

end Grammar

end GrammarWorkbench
