import GrammarWorkbench.Proofs.LeftRecursion.Order
import GrammarWorkbench.Proofs.Minting

/-!
# Names given out one after the other

A supply is asked for a name, and what is left of it is asked for the next one. Between two
names the grammar can become any other. What the supply gives out is then a succession of
moments (`GivesOut`), and all that matters is that each name is asked of the supply that the one
before has left: the numbers of the names ascend (`GivesOut.pairwise`).

Inside of a transformation names are given out in the same way. A round of an elimination
leaves the supply as it is after the names that the round asks for, and not one further
(`Elimination.givesOut_round`), and so does a step of a factoring (`Factoring.givesOut_step`). So
the successions put together account for all that a transformation takes from its supply
(`Elimination.givesOut_rounds`, `Factoring.givesOut_run`).
-/

namespace GrammarWorkbench

/-- The number of the name that is given out. -/
def Minting.number (m : Minting) : Nat := m.names.next m.grammar

/-- **A supply gives out the names of `ms` one after the other**, from `names` in the beginning
to `left` in the end. The grammar may be another each time. -/
inductive GivesOut : NameAllocator → List Minting → NameAllocator → Prop where
  /-- No name is given out. -/
  | nil (names : NameAllocator) : GivesOut names [] names
  /-- The first name, and then the others. -/
  | cons {names left : NameAllocator} {ms : List Minting} (g : Grammar)
      (h : GivesOut (names.fresh g).2 ms left) : GivesOut names (⟨g, names⟩ :: ms) left

namespace GivesOut

variable {names left last : NameAllocator} {ms ms' : List Minting}

theorem single (g : Grammar) (names : NameAllocator) :
    GivesOut names [⟨g, names⟩] (names.fresh g).2 :=
  .cons g (.nil _)

/-- What was left goes on. -/
theorem append (h : GivesOut names ms left) (h' : GivesOut left ms' last) :
    GivesOut names (ms ++ ms') last := by
  induction h with
  | nil => exact h'
  | cons g _ ih => exact .cons g (ih h')

/-- The numbers lie above the last one before. -/
theorem last_lt_number (h : GivesOut names ms left) : ∀ m ∈ ms, names.last < m.number := by
  induction h with
  | nil => exact fun _ hm => absurd hm List.not_mem_nil
  | @cons names _ _ g _ ih =>
    have hnext := names.last_lt_next g
    rw [List.forall_mem_cons]
    exact ⟨hnext, fun m hm => Nat.lt_trans hnext (ih m hm)⟩

/-- **The numbers ascend**, whatever becomes of the grammar. -/
theorem pairwise (h : GivesOut names ms left) : (ms.map Minting.number).Pairwise (· < ·) := by
  induction h with
  | nil => exact List.Pairwise.nil
  | cons g hrest ih =>
    rw [List.map_cons, List.pairwise_cons, List.forall_mem_map]
    exact ⟨hrest.last_lt_number, ih⟩

end GivesOut

/-! ## Transformations as successions of names -/

namespace Elimination

variable {s : Elimination}

/-- A round asks for its name, if it needs one, and keeps what is left of the supply. -/
theorem givesOut_round (hs : s.Ordered) : GivesOut s.names s.roundMintings s.round.names := by
  cases hpending : s.pending with
  | nil =>
    rw [round_of_finished hpending, roundMintings_of_finished hpending]
    exact .nil _
  | cons left rest =>
    by_cases htails : Production.recursiveTails left (s.expanded left) = []
    · rw [roundMintings_of_tails_eq_nil hpending htails,
        names_round_of_tails_eq_nil hpending htails]
      exact .nil _
    · have hnames : s.round.names
          = (s.names.fresh (s.grammar.setProductions left (s.expanded left))).2 := by
        rw [fresh_expanded hs hpending, round_eq hpending, eliminateDirect_of_tails_ne_nil htails]
      rw [roundMintings_of_tails_ne_nil hpending htails, hnames]
      exact .single _ _

/-- **So does an elimination in any number of rounds.** -/
theorem givesOut_rounds (n : Nat) (hs : s.Ordered) :
    GivesOut s.names (mintings n s) (rounds n s).names := by
  induction n generalizing s with
  | zero => exact .nil _
  | succ n ih => exact (givesOut_round hs).append (ih (ordered_round hs))

end Elimination

namespace Factoring

variable {s : Factoring}

/-- A group asks for its name, if it is factorable, and keeps what is left of the supply. -/
theorem givesOut_addGroup (acc : Factoring × List Production) (members : List Production) :
    GivesOut acc.1.names (groupMinting acc members) (addGroup acc members).1.names := by
  unfold groupMinting addGroup
  split
  · exact .single _ _
  · exact .nil _

theorem givesOut_foldl_addGroup (groups : List (List Production))
    (acc : Factoring × List Production) :
    GivesOut acc.1.names (groupMintings acc groups) (groups.foldl addGroup acc).1.names := by
  induction groups generalizing acc with
  | nil => exact .nil _
  | cons members groups ih => exact (givesOut_addGroup acc members).append (ih _)

theorem givesOut_step {left : String} {ps : List Production}
    {rest : List (String × List Production)} (hqueue : s.queue = (left, ps) :: rest) :
    GivesOut s.names s.stepMintings s.step.names := by
  rw [step_eq hqueue]
  unfold stepMintings factorRule
  rw [hqueue]
  dsimp only
  split
  · exact .nil _
  · exact givesOut_foldl_addGroup (groupByLeading ps) (({ s with queue := rest } : Factoring), [])

/-- **So does a factoring.** -/
theorem givesOut_run (s : Factoring) : GivesOut s.names s.mintings s.run.names := by
  fun_induction run s with
  | case1 s hqueue =>
    rw [mintings_of_queue_eq_nil hqueue]
    exact .nil _
  | case2 s hqueue ih =>
    obtain ⟨_, rest, hcons⟩ := List.exists_cons_of_ne_nil hqueue
    rw [mintings_of_queue_ne_nil hqueue]
    exact (givesOut_step hcons).append ih

end Factoring

end GrammarWorkbench
