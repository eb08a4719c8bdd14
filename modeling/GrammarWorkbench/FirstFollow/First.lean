import GrammarWorkbench.Grammar.Basic
import GrammarWorkbench.Settling

/-!
# FIRST sets

FIRST of a non-terminal holds the symbols that the texts derived from it can begin
with, and the mark `ϵ` if it derives the empty text. FIRST of a sequence follows
from FIRST of its symbols: a symbol that can vanish lets the next one be seen, and
`ϵ` belongs to FIRST of the whole only if every symbol can vanish. In particular
FIRST of the empty sequence is `ϵ` alone.

The sets are found by passes over the rules. Each pass adds to the set of every
left side, in the order of the rules, what FIRST of its alternatives is by then;
later rules of one pass already see what earlier ones found.
-/

namespace GrammarWorkbench

/-! ## Tables of sets -/

/-- **A set of symbols for each name**, in the order of the names. -/
abbrev SetTable := Table String SymbolSet

namespace Table

variable {κ α : Type} [Ord κ] [Std.TransOrd κ] [LT α]

/-- The set of `k`; empty if `k` has no entry. -/
def setAt (t : Table κ (SortedSet α)) (k : κ) : SortedSet α := (t.get? k).getD ∅

variable [Std.LawfulEqOrd κ] [DecidableLT α] [StrictOrder α]

/-- The table with the members of `s` added to the set of `k`. -/
def grow (t : Table κ (SortedSet α)) (k : κ) (s : SortedSet α) : Table κ (SortedSet α) :=
  t.insert k (t.setAt k ∪ s)

variable [DecidableEq κ]

/-- **Growing adds members to one set.** -/
theorem mem_setAt_grow {t : Table κ (SortedSet α)} {k k' : κ} {s : SortedSet α} {a : α} :
    a ∈ (t.grow k s).setAt k' ↔ a ∈ t.setAt k' ∨ k' = k ∧ a ∈ s := by
  unfold setAt grow
  rw [get?_insert]
  by_cases h : k' = k
  · subst h; simp [setAt]
  · simp [h]

/-- Growing the set of a key keeps the keys. -/
theorem keys_grow {t : Table κ (SortedSet α)} {k : κ} {s : SortedSet α} (h : k ∈ t.keys) :
    (t.grow k s).keys = t.keys := by
  simp [grow, keys_insert, h]

end Table

/-! ## FIRST from given sets -/

/-- FIRST of a symbol: the set of its name if it is a non-terminal, and otherwise
the symbol itself. -/
def firstOfSymbol (first : SetTable) : Symbol → SymbolSet
  | .nonTerminal name => first.setAt name
  | .terminal name => .singleton (.terminal name)
  | .epsilon => .singleton .epsilon
  | .endMark => .singleton .endMark

/-- FIRST of a symbol with `front` as its FIRST and something behind it that has
`behind` as its FIRST: if the symbol can vanish, what is behind can be seen. -/
def seenThrough (front behind : SymbolSet) : SymbolSet :=
  if Symbol.epsilon ∈ front then front.erase .epsilon ∪ behind else front

/-- **FIRST of a sequence.** A symbol that can vanish lets the next one be seen; no
other needs a look at what is behind it. -/
def firstOfSequence (first : SetTable) : List Symbol → SymbolSet
  | [] => .singleton .epsilon
  | s :: rest =>
    let front := firstOfSymbol first s
    if Symbol.epsilon ∈ front then front.erase .epsilon ∪ firstOfSequence first rest
    else front

theorem firstOfSequence_cons (first : SetTable) (s : Symbol) (rest : List Symbol) :
    firstOfSequence first (s :: rest)
      = seenThrough (firstOfSymbol first s) (firstOfSequence first rest) := rfl

/-- FIRST of a list of alternatives: what any of them can begin with. -/
def firstOfAlternatives (first : SetTable) (ps : List Production) : SymbolSet :=
  ps.foldr (fun p found => firstOfSequence first p.body ∪ found) ∅

/-- What any alternative can begin with, and nothing else. -/
theorem mem_firstOfAlternatives {first : SetTable} {ps : List Production} {a : Symbol} :
    a ∈ firstOfAlternatives first ps ↔ ∃ p ∈ ps, a ∈ firstOfSequence first p.body := by
  induction ps with
  | nil => simp [firstOfAlternatives]
  | cons p ps ih =>
    have hstep : firstOfAlternatives first (p :: ps)
        = firstOfSequence first p.body ∪ firstOfAlternatives first ps := rfl
    rw [hstep, SortedSet.mem_union, ih]
    simp only [List.mem_cons, exists_eq_or_imp]

/-! ## The passes -/

namespace Grammar

/-- An empty set for each rule. -/
def emptySets (g : Grammar) : SetTable := g.rules.map fun _ => ∅

/-- **One pass over the rules**: each left side gains FIRST of its alternatives,
as far as it is known by then. -/
def firstPass (g : Grammar) (first : SetTable) : SetTable :=
  g.rules.entries.foldl (fun t rule => t.grow rule.1 (firstOfAlternatives t rule.2)) first

/-- The symbols that can get into a FIRST set, some of them more than once. -/
def firstUniverse (g : Grammar) : List Symbol :=
  Symbol.epsilon :: g.alternatives.flatMap Production.body

/-- A number of passes that is always enough: every pass but the last adds a symbol
of the universe to the set of a rule. -/
def firstPassLimit (g : Grammar) : Nat := g.rules.size * g.firstUniverse.length + 1

/-- The FIRST sets and the number of passes taken, if the passes allowed are
enough. -/
def settledFirst? (g : Grammar) : Option (SetTable × Nat) :=
  settle? g.firstPass g.firstPassLimit g.emptySets

/-- The FIRST sets of all rules, and the number of passes after which they are known
to be final. -/
def settledFirst (g : Grammar) : SetTable × Nat := g.settledFirst?.getD (g.emptySets, 0)

/-- **The FIRST sets of all rules.** -/
def firstSets (g : Grammar) : SetTable := g.settledFirst.1

end Grammar

end GrammarWorkbench
