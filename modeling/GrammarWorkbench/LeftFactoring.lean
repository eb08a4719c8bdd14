import GrammarWorkbench.NameAllocator
import GrammarWorkbench.Table.Grouping

/-!
# Left factoring

Alternatives of one rule that begin with the same symbol are put together: the
longest beginning that all of them share is written once, followed by a minted
helper, and the helper's alternatives are what the members had behind it. Empty
alternatives begin with no symbol and are never put together.

Helpers wait in the same queue as the rules, so what their alternatives still share
is factored in turn. The queue runs empty because the alternatives that wait in it
get shorter: a group of at least two members gives away at least one symbol of
each and costs one new entry (`workload_addGroup`).
-/

namespace GrammarWorkbench

/-! ## Shared beginnings -/

/-- The number of places, from the front, at which two lists agree. -/
def sharedLength : List Symbol → List Symbol → Nat
  | a :: as, b :: bs => if a = b then sharedLength as bs + 1 else 0
  | _, _ => 0

theorem sharedLength_le_left (l m : List Symbol) : sharedLength l m ≤ l.length := by
  fun_induction sharedLength l m with
  | case1 a as bs ih => simp; omega
  | case2 a as b bs h => simp
  | case3 => simp

theorem sharedLength_le_right (l m : List Symbol) : sharedLength l m ≤ m.length := by
  fun_induction sharedLength l m with
  | case1 a as bs ih => simp; omega
  | case2 a as b bs h => simp
  | case3 => simp

/-- **The length of the longest beginning that all alternatives share**; zero for no
alternatives. -/
def commonPrefixLength : List Production → Nat
  | [] => 0
  | p :: ps => ps.foldl (fun n q => min n (sharedLength p.body q.body)) p.body.length

theorem foldl_min_le {β : Type} (f : β → Nat) (l : List β) (n : Nat) :
    l.foldl (fun m b => min m (f b)) n ≤ n := by
  induction l generalizing n with
  | nil => exact Nat.le_refl n
  | cons b l ih => exact Nat.le_trans (ih _) (Nat.min_le_left _ _)

theorem foldl_min_le_of_mem {β : Type} (f : β → Nat) {l : List β} {b : β} (h : b ∈ l) (n : Nat) :
    l.foldl (fun m b => min m (f b)) n ≤ f b := by
  induction l generalizing n with
  | nil => exact absurd h List.not_mem_nil
  | cons c l ih =>
    rcases List.mem_cons.mp h with rfl | h
    · exact Nat.le_trans (foldl_min_le f l _) (Nat.min_le_right _ _)
    · exact ih h _

/-- No alternative is shorter than what all of them share. -/
theorem commonPrefixLength_le {ps : List Production} {p : Production} (h : p ∈ ps) :
    commonPrefixLength ps ≤ p.body.length := by
  cases ps with
  | nil => exact absurd h List.not_mem_nil
  | cons q ps =>
    rcases List.mem_cons.mp h with rfl | h
    · exact foldl_min_le _ ps _
    · exact Nat.le_trans (foldl_min_le_of_mem (fun r => sharedLength q.body r.body) h _)
        (sharedLength_le_right _ _)

/-! ## Groups -/

/-- **The alternatives grouped by their leading symbol**, groups in order of first
appearance and members in their order. -/
def groupByLeading (ps : List Production) : List (List Production) :=
  (Table.group Production.leading ps).values

/-- There is one group for each symbol that alternatives begin with. -/
theorem groupByLeading_eq (ps : List Production) :
    groupByLeading ps
      = (ps.map Production.leading).eraseDups.map fun s =>
          ps.filter fun p => decide (p.leading = s) :=
  Table.values_group Production.leading ps

/-- **Grouping loses and adds nothing.** -/
theorem flatten_groupByLeading_perm (ps : List Production) :
    (groupByLeading ps).flatten.Perm ps :=
  Table.flatten_values_group_perm Production.leading ps

/-- Whether the members of a group are put together: there are several, and they
share a beginning. -/
def isFactorable (members : List Production) : Bool :=
  1 < members.length && 0 < commonPrefixLength members

/-! ## The process -/

/-- The number of symbols in a list of alternatives. -/
def totalLength : List Production → Nat
  | [] => 0
  | p :: ps => p.body.length + totalLength ps

theorem totalLength_append (ps qs : List Production) :
    totalLength (ps ++ qs) = totalLength ps + totalLength qs := by
  induction ps with
  | nil => simp [totalLength]
  | cons p ps ih => rw [List.cons_append, totalLength, totalLength, ih, Nat.add_assoc]

/-- The order of alternatives does not matter to the number of their symbols. -/
theorem totalLength_perm {ps qs : List Production} (h : ps.Perm qs) :
    totalLength ps = totalLength qs := by
  induction h with
  | nil => rfl
  | cons p _ ih => rw [totalLength, totalLength, ih]
  | swap p q ps => rw [totalLength, totalLength, totalLength, totalLength, Nat.add_left_comm]
  | trans _ _ ih₁ ih₂ => exact ih₁.trans ih₂

/-- The work that a queue of rules holds: one unit for each rule and one for each
symbol in its alternatives. -/
def queueLoad : List (String × List Production) → Nat
  | [] => 0
  | e :: queue => totalLength e.2 + 1 + queueLoad queue

theorem queueLoad_append_single (queue : List (String × List Production))
    (e : String × List Production) :
    queueLoad (queue ++ [e]) = queueLoad queue + (totalLength e.2 + 1) := by
  induction queue with
  | nil => simp [queueLoad]
  | cons f queue ih =>
    rw [List.cons_append, queueLoad, queueLoad, ih, Nat.add_assoc (totalLength f.2 + 1)]

/-- **The state of a factoring between two rules.** -/
structure Factoring where
  /-- The grammar so far. -/
  grammar : Grammar
  /-- The supply of names for helpers. -/
  names : NameAllocator
  /-- The rules still to be looked at, each with its alternatives. -/
  queue : List (String × List Production)
deriving DecidableEq

namespace Factoring

/-- The state before the first rule: all rules wait, in their order. -/
def start (g : Grammar) (names : NameAllocator) : Factoring where
  grammar := g
  names := names
  queue := g.rules.entries

/-- The work that waits in the queue. -/
def workload (s : Factoring) : Nat := queueLoad s.queue

/-- What the members of a group share. -/
def commonPrefix (members : List Production) : Production :=
  (members.headD Production.epsilon).take (commonPrefixLength members)

/-- Takes up one group. The alternatives that its rule is to have so far are carried
along: a group that is not factorable is kept as it is, and any other becomes the
shared beginning followed by a new helper. -/
def addGroup (acc : Factoring × List Production) (members : List Production) :
    Factoring × List Production :=
  if isFactorable members then
    let s := acc.1
    let n := commonPrefixLength members
    let rests := members.map fun p => p.suffix n
    let (helper, names) := s.names.fresh s.grammar
    ({ grammar := s.grammar.setProductions helper rests
       names := names
       queue := s.queue ++ [(helper, rests)] },
      acc.2 ++ [(commonPrefix members).push (.nonTerminal helper)])
  else (acc.1, acc.2 ++ members)

/-- **Factors the rule of `left`**, whose alternatives are `ps`. A rule in which no
two alternatives begin alike stays as it is. -/
def factorRule (s : Factoring) (left : String) (ps : List Production) : Factoring :=
  if (groupByLeading ps).length = ps.length then s
  else
    let done := (groupByLeading ps).foldl addGroup (s, [])
    { done.1 with grammar := done.1.grammar.setProductions left done.2 }

/-- **Factors the next rule that waits**; a finished factoring stays as it is. -/
def step (s : Factoring) : Factoring :=
  match s.queue with
  | [] => s
  | (left, ps) :: rest => { s with queue := rest }.factorRule left ps

/-! ## The queue runs empty -/

theorem totalLength_suffix_add {members : List Production} {n : Nat}
    (h : ∀ p ∈ members, n ≤ p.body.length) :
    totalLength (members.map fun p => p.suffix n) + members.length * n = totalLength members := by
  induction members with
  | nil => simp [totalLength]
  | cons p ps ih =>
    have hp := h p List.mem_cons_self
    have := ih fun q hq => h q (List.mem_cons_of_mem _ hq)
    simp only [totalLength, List.map_cons, Production.body_suffix, List.length_drop,
      List.length_cons, Nat.add_mul] at this ⊢
    omega

/-- **A group adds no more work than it had symbols.** -/
theorem workload_addGroup (acc : Factoring × List Production) (members : List Production) :
    (addGroup acc members).1.workload ≤ acc.1.workload + totalLength members := by
  unfold addGroup
  split
  · next h =>
    obtain ⟨hlen, hpos⟩ : 1 < members.length ∧ 0 < commonPrefixLength members := by
      simpa [isFactorable] using h
    have hadd := totalLength_suffix_add (fun p hp => commonPrefixLength_le hp : ∀ p ∈ members,
      commonPrefixLength members ≤ p.body.length)
    have hmul : 2 ≤ members.length * commonPrefixLength members :=
      Nat.mul_le_mul hlen hpos
    simp only [workload, queueLoad_append_single]
    omega
  · exact Nat.le_add_right _ _

theorem workload_foldl_addGroup (groups : List (List Production))
    (acc : Factoring × List Production) :
    (groups.foldl addGroup acc).1.workload
      ≤ acc.1.workload + totalLength groups.flatten := by
  induction groups generalizing acc with
  | nil => simp
  | cons members groups ih =>
    rw [List.foldl_cons, List.flatten_cons, totalLength_append]
    have := ih (addGroup acc members)
    have := workload_addGroup acc members
    omega

/-- Factoring a rule adds no more work than its alternatives had symbols. -/
theorem workload_factorRule (s : Factoring) (left : String) (ps : List Production) :
    (s.factorRule left ps).workload ≤ s.workload + totalLength ps := by
  unfold factorRule
  split
  · exact Nat.le_add_right _ _
  · have := workload_foldl_addGroup (groupByLeading ps) (s, [])
    rw [totalLength_perm (flatten_groupByLeading_perm ps)] at this
    exact this

/-- **Every step takes work away.** -/
theorem workload_step_lt {s : Factoring} (h : s.queue ≠ []) : s.step.workload < s.workload := by
  unfold step
  split
  · next hqueue => exact absurd hqueue h
  · next left ps rest hqueue =>
    have := workload_factorRule { s with queue := rest } left ps
    simp only [workload, hqueue, queueLoad] at this ⊢
    omega

/-- **Factors every rule that waits, and the helpers that come up.** -/
def run (s : Factoring) : Factoring :=
  if _ : s.queue = [] then s else run s.step
termination_by s.workload
decreasing_by exact workload_step_lt (by assumption)

/-! ## What is reported -/

/-- What is reported when groups of alternatives of `left` are taken up one after the
other. -/
def groupEvents (left : String) :
    Factoring × List Production → List (List Production) → List Event
  | _, [] => []
  | acc, members :: groups =>
    (if isFactorable members then
      let helper := (acc.1.names.fresh acc.1.grammar).1
      acc.1.grammar.mintEvents helper
        ++ [.factored (commonPrefix members) members.length left helper]
    else []) ++ groupEvents left (addGroup acc members) groups

/-- What is reported in the next step. -/
def stepEvents (s : Factoring) : List Event :=
  match s.queue with
  | [] => []
  | (left, ps) :: rest =>
    if (groupByLeading ps).length = ps.length then []
    else groupEvents left ({ s with queue := rest }, []) (groupByLeading ps)

/-- **What is reported until the queue is empty.** -/
def events (s : Factoring) : List Event :=
  if _ : s.queue = [] then [] else s.stepEvents ++ events s.step
termination_by s.workload
decreasing_by exact workload_step_lt (by assumption)

end Factoring

namespace Grammar

/-- **Factors a grammar with names from `names`.** The answer holds the new grammar
and the names left. -/
def leftFactorWith (g : Grammar) (names : NameAllocator) : Factoring :=
  (Factoring.start g names).run

/-- Factors a grammar with names of its own. -/
def leftFactor (g : Grammar) : Factoring := g.leftFactorWith NameAllocator.initial

/-- What is reported while a grammar is factored with names from `names`. -/
def factoringEvents (g : Grammar) (names : NameAllocator) : List Event :=
  (Factoring.start g names).events

end Grammar

end GrammarWorkbench
