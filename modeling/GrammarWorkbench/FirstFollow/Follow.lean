import GrammarWorkbench.FirstFollow.First

/-!
# FOLLOW sets

FOLLOW of a non-terminal holds the symbols that can stand right behind it, and the
end mark `$` if it can stand at the end of everything. Each occurrence of a
non-terminal in an alternative contributes FIRST of what stands behind it; where
all of that can vanish, what follows the left side follows the occurrence too.
The mark `ϵ` is no symbol that can follow, so FOLLOW sets never hold it.

As for FIRST, the sets are found by passes in which later occurrences see what
earlier ones found. What can be read off the FIRST sets is the same in every pass, so
it is found beforehand: each occurrence becomes a `Sighting`, and `sightings_eq` says
that none is missed. A grammar without a start symbol has empty FOLLOW sets.
-/

namespace GrammarWorkbench

/-- **A place where a non-terminal stands in an alternative.** -/
structure Occurrence where
  /-- The left side of the rule. -/
  left : String
  /-- The non-terminal that stands there. -/
  name : String
  /-- What stands behind it. -/
  after : List Symbol
deriving DecidableEq

/-- The occurrences in a sequence of symbols, from left to right. -/
def occurrencesIn (left : String) : List Symbol → List Occurrence
  | [] => []
  | .nonTerminal name :: rest => ⟨left, name, rest⟩ :: occurrencesIn left rest
  | _ :: rest => occurrencesIn left rest

/-- **The occurrences in a sequence are its cuts at a non-terminal.** -/
theorem mem_occurrencesIn {left : String} {l : List Symbol} {o : Occurrence} :
    o ∈ occurrencesIn left l
      ↔ o.left = left ∧ ∃ before, l = before ++ Symbol.nonTerminal o.name :: o.after := by
  induction l with
  | nil => simp [occurrencesIn]
  | cons s rest ih =>
    have htail : ∀ {o : Occurrence},
        (∃ before, s :: rest = before ++ Symbol.nonTerminal o.name :: o.after)
          ↔ s = Symbol.nonTerminal o.name ∧ rest = o.after
            ∨ ∃ before, rest = before ++ Symbol.nonTerminal o.name :: o.after := by
      intro o
      constructor
      · rintro ⟨before, h⟩
        cases before with
        | nil => exact .inl (List.cons.inj h)
        | cons b before => exact .inr ⟨before, (List.cons.inj h).2⟩
      · rintro (⟨hs, hrest⟩ | ⟨before, h⟩)
        · exact ⟨[], by rw [hs, hrest]; rfl⟩
        · exact ⟨s :: before, by rw [h]; rfl⟩
    cases s with
    | nonTerminal name =>
      rw [occurrencesIn, List.mem_cons, ih, htail]
      obtain ⟨oleft, oname, oafter⟩ := o
      simp only [Occurrence.mk.injEq, Symbol.nonTerminal.injEq]
      grind
    | terminal name => rw [occurrencesIn, ih, htail] <;> simp
    | epsilon => rw [occurrencesIn, ih, htail] <;> simp
    | endMark => rw [occurrencesIn, ih, htail] <;> simp

/-! ## What comes next -/

/-- **What an occurrence shows about its non-terminal.** FIRST sets do not change
while FOLLOW sets grow, so this is found once for all passes. -/
structure Sighting where
  /-- The left side of the rule. -/
  left : String
  /-- The non-terminal. -/
  name : String
  /-- The symbols that can come next in the alternative. -/
  next : SymbolSet
  /-- Whether everything behind the non-terminal can vanish. -/
  vanishing : Bool
deriving DecidableEq

/-- What the occurrence of a non-terminal shows, given FIRST of what stands behind
it. -/
def Sighting.ofBehind (left name : String) (behind : SymbolSet) : Sighting :=
  ⟨left, name, behind.erase .epsilon, decide (Symbol.epsilon ∈ behind)⟩

/-- What an occurrence shows. -/
def Occurrence.sighting (first : SetTable) (o : Occurrence) : Sighting :=
  .ofBehind o.left o.name (firstOfSequence first o.after)

/-- What the occurrences in a sequence show, from left to right, and FIRST of the
sequence. Going from the end to the front, FIRST of what stands behind each symbol
is at hand. -/
def sightingsIn (first : SetTable) (left : String) (l : List Symbol) : List Sighting × SymbolSet :=
  l.foldr (fun s seen => (match s with
    | .nonTerminal name => .ofBehind left name seen.2 :: seen.1
    | _ => seen.1, seenThrough (firstOfSymbol first s) seen.2)) ([], .singleton .epsilon)

/-- **Going from the end to the front finds what each occurrence shows.** -/
theorem sightingsIn_eq (first : SetTable) (left : String) (l : List Symbol) :
    sightingsIn first left l
      = ((occurrencesIn left l).map (Occurrence.sighting first), firstOfSequence first l) := by
  induction l with
  | nil => rfl
  | cons s rest ih =>
    have hrest := ih
    unfold sightingsIn at hrest ⊢
    rw [List.foldr_cons, hrest, firstOfSequence_cons]
    cases s <;> rfl

/-- What a sighting adds to FOLLOW of its non-terminal: the symbols that can come
next, and what follows the left side if nothing need come. -/
def Sighting.addition (o : Sighting) (follow : SetTable) : SymbolSet :=
  if o.vanishing then o.next ∪ follow.setAt o.left else o.next

/-! ## The passes -/

namespace Grammar

/-- The occurrences of rules in the alternatives of the grammar, in the order of
the rules, of their alternatives, and from left to right. -/
def occurrences (g : Grammar) : List Occurrence :=
  (g.rules.entries.flatMap fun rule => rule.2.flatMap fun p => occurrencesIn rule.1 p.body).filter
    fun o => g.isRule o.name

/-- What the occurrences of rules show, in the same order. -/
def sightings (g : Grammar) (first : SetTable) : List Sighting :=
  (g.rules.entries.flatMap fun rule => rule.2.flatMap fun p =>
    (sightingsIn first rule.1 p.body).1).filter fun o => g.isRule o.name

/-- There is one sighting for each occurrence. -/
theorem sightings_eq (g : Grammar) (first : SetTable) :
    g.sightings first = g.occurrences.map (Occurrence.sighting first) := by
  simp only [sightings, occurrences, sightingsIn_eq, List.filter_flatMap, List.map_flatMap,
    List.filter_map]
  rfl

/-- What is known before the first pass: the end mark follows the start symbol. -/
def followSeed (g : Grammar) : SetTable :=
  match g.start with
  | none => g.emptySets
  | some s => if g.isRule s then g.emptySets.grow s (.singleton .endMark) else g.emptySets

/-- **One pass over the sightings**: each adds what it contributes, as far as it is
known by then. -/
def followPass (sightings : List Sighting) (follow : SetTable) : SetTable :=
  sightings.foldl (fun t o => t.grow o.name (o.addition t)) follow

/-- The FOLLOW sets that go with given FIRST sets, and the number of passes taken, if
`limit` passes are enough. -/
def settledFollow? (g : Grammar) (first : SetTable) (limit : Nat) : Option (SetTable × Nat) :=
  settle? (followPass (g.sightings first)) limit g.followSeed

end Grammar

end GrammarWorkbench
