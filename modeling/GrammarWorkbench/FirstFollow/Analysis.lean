import GrammarWorkbench.Error
import GrammarWorkbench.Event
import GrammarWorkbench.FirstFollow.Follow

/-!
# FIRST and FOLLOW of a grammar

Both kinds of sets together, under a ceiling on the passes for FOLLOW. The ceiling
is a circuit breaker: it decides whether there is an answer, never which.
-/

namespace GrammarWorkbench

/-- **FIRST and FOLLOW sets by name.** The sets need not be those of the grammar
that they are used with; a name without a set counts as having an empty one. -/
structure FirstFollow where
  /-- What texts derived from a name begin with. -/
  first : SetTable
  /-- What can stand right behind a name. -/
  follow : SetTable
deriving DecidableEq

namespace FirstFollow

/-- No sets at all. -/
def empty : FirstFollow := ⟨∅, ∅⟩

instance : EmptyCollection FirstFollow := ⟨empty⟩

instance : Inhabited FirstFollow := ⟨∅⟩

/-- FIRST of a symbol. -/
def ofSymbol (sets : FirstFollow) (s : Symbol) : SymbolSet := firstOfSymbol sets.first s

/-- FIRST of a sequence of symbols. -/
def ofSequence (sets : FirstFollow) (l : List Symbol) : SymbolSet := firstOfSequence sets.first l

/-- Whether `name` is known to derive the empty text. -/
def isNullable (sets : FirstFollow) (name : String) : Bool :=
  Symbol.epsilon ∈ sets.first.setAt name

end FirstFollow

namespace Grammar

/-- The passes allowed for FOLLOW where nothing else is asked for. -/
def followPassLimit : Nat := 1000

/-- **FIRST and FOLLOW sets, with at most `limit` passes for FOLLOW**, and the
number of passes that each took. Without a start symbol there is nothing to
follow, and FOLLOW takes no pass. -/
def analyse (g : Grammar) (limit : Nat) : Reported (Except GrammarError FirstFollow) :=
  let (first, firstPasses) := g.settledFirst
  match g.start with
  | none => ⟨.ok ⟨first, g.emptySets⟩, [.firstSettled firstPasses]⟩
  | some _ =>
    match g.settledFollow? first limit with
    | none => ⟨.error (.followUnsettled limit), [.firstSettled firstPasses]⟩
    | some (follow, followPasses) =>
      ⟨.ok ⟨first, follow⟩, [.firstSettled firstPasses, .followSettled followPasses]⟩

/-- FIRST and FOLLOW sets, with at most `limit` passes for FOLLOW. -/
def firstFollowWithin (g : Grammar) (limit : Nat) : Except GrammarError FirstFollow :=
  (g.analyse limit).value

/-- The sets that are returned: FIRST as it is, and FOLLOW if its passes settle. -/
theorem firstFollowWithin_eq (g : Grammar) (limit : Nat) :
    g.firstFollowWithin limit
      = match g.start with
        | none => .ok ⟨g.firstSets, g.emptySets⟩
        | some _ => match g.settledFollow? g.firstSets limit with
          | none => .error (.followUnsettled limit)
          | some (follow, _) => .ok ⟨g.firstSets, follow⟩ := by
  unfold firstFollowWithin analyse firstSets
  generalize g.settledFirst = settled
  obtain ⟨first, firstPasses⟩ := settled
  cases g.start with
  | none => rfl
  | some s => cases hf : g.settledFollow? first limit <;> simp [hf]

/-- FIRST and FOLLOW sets under the usual ceiling. -/
def firstFollow (g : Grammar) : Except GrammarError FirstFollow :=
  g.firstFollowWithin followPassLimit

end Grammar

end GrammarWorkbench
