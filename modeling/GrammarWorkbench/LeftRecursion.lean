import GrammarWorkbench.Error
import GrammarWorkbench.NameAllocator

/-!
# Elimination of left recursion

The rules are put into the order of their names and processed one by one. A rule
first gets rid of leading references to rules processed before it: each is
replaced by every alternative of that rule. What is left of recursion is direct,
`A -> A α | β`, and becomes `A -> β X`, `X -> α X | ϵ` with a minted helper `X`,
which joins the end of the order.

A helper has an empty alternative, so replacing a leading reference to it lets the
next symbol come to the front, and the helper may need a helper in turn. Such
chains can be long, and on some grammars they never end. `rounds` follows the
process for any number of rules. `run?` carries it to its end if `2 ^ k` rounds are
enough (`run?_of_finished`), and `k` grows with the grammar from a start that is
out of reach already.

What is reported on the way is a second reading of the same process: `events`
follows the rounds and says of each what it does. The grammar that comes out never
depends on it.
-/

namespace GrammarWorkbench

/-! ## What happens to the alternatives of one rule -/

namespace Production

/-- **The alternatives `ps` with leading references to `inner` replaced** by each of
its alternatives. The alternatives that stay as they are come first. -/
def expandLeading (inner : String) (expansions ps : List Production) : List Production :=
  ps.filter (fun p => !p.startsWith inner)
    ++ (ps.filter fun p => p.startsWith inner).flatMap fun p =>
      expansions.map fun beta => beta ++ p.suffix 1

/-- What follows the leading `left` in directly recursive alternatives; the useless
alternative that is `left` alone contributes nothing. -/
def recursiveTails (left : String) (ps : List Production) : List Production :=
  ((ps.filter fun p => p.startsWith left).map fun p => p.suffix 1).filter fun alpha =>
    !alpha.isEpsilon

/-- The alternatives that are not directly recursive. -/
def nonRecursive (left : String) (ps : List Production) : List Production :=
  ps.filter fun p => !p.startsWith left

/-- An alternative comes out of an expansion if it went in without the reference, or
if it is an alternative that went in with the reference replaced. -/
theorem mem_expandLeading {inner : String} {expansions ps : List Production}
    {q : Production} :
    q ∈ expandLeading inner expansions ps
      ↔ q ∈ ps ∧ q.startsWith inner = false
        ∨ ∃ p ∈ ps, p.startsWith inner = true ∧ ∃ beta ∈ expansions, q = beta ++ p.suffix 1 := by
  simp only [expandLeading, List.mem_append, List.mem_filter, List.mem_flatMap, List.mem_map,
    Bool.not_eq_true', and_assoc]
  simp only [eq_comm (b := q)]

theorem mem_recursiveTails {left : String} {ps : List Production} {alpha : Production} :
    alpha ∈ recursiveTails left ps
      ↔ alpha.isEpsilon = false ∧ ∃ p ∈ ps, p.startsWith left = true ∧ p.suffix 1 = alpha := by
  simp only [recursiveTails, List.mem_filter, List.mem_map, Bool.not_eq_true', and_assoc]
  exact and_comm

theorem mem_nonRecursive {left : String} {ps : List Production} {p : Production} :
    p ∈ nonRecursive left ps ↔ p ∈ ps ∧ p.startsWith left = false := by
  simp [nonRecursive]

end Production

namespace Grammar

/-- **The alternatives `ps` with leading references to the rule `inner` replaced**, if
there are any. -/
def substituteLeading (g : Grammar) (ps : List Production) (inner : String) : List Production :=
  if ps.any fun p => p.startsWith inner then
    Production.expandLeading inner (g.productions inner) ps
  else ps

/-- Without leading references to the rule there is nothing to replace. -/
theorem substituteLeading_of_forall {g : Grammar} {ps : List Production} {inner : String}
    (h : ∀ p ∈ ps, p.startsWith inner = false) : g.substituteLeading ps inner = ps := by
  unfold substituteLeading
  rw [List.any_eq_false.mpr fun p hp => by rw [h p hp]; exact Bool.false_ne_true]
  rfl

/-- Where there is nothing to replace, replacing changes nothing. -/
theorem substituteLeading_eq (g : Grammar) (ps : List Production) (inner : String) :
    g.substituteLeading ps inner = Production.expandLeading inner (g.productions inner) ps := by
  unfold substituteLeading
  split
  · rfl
  · next h =>
    have hnone : ∀ p ∈ ps, p.startsWith inner = false := by simpa using h
    have hstay : ps.filter (fun p => !p.startsWith inner) = ps :=
      List.filter_eq_self.mpr fun p hp => by simp [hnone p hp]
    have hlead : ps.filter (fun p => p.startsWith inner) = [] :=
      List.filter_eq_nil_iff.mpr fun p hp => by simp [hnone p hp]
    rw [Production.expandLeading, hstay, hlead]
    exact (List.append_nil ps).symm

/-- What is reported when leading references to the rules `inners` are replaced, one
rule after the other, in the alternatives `ps` of `left`. -/
def substitutionEvents (g : Grammar) (left : String) :
    List String → List Production → List Event
  | [], _ => []
  | inner :: inners, ps =>
    let qs := g.substituteLeading ps inner
    if ps.any fun p => p.startsWith inner then
      .leadingSubstituted inner left qs.length :: substitutionEvents g left inners qs
    else substitutionEvents g left inners qs

end Grammar

/-! ## The process -/

/-- **The state of an elimination between two rules.** -/
structure Elimination where
  /-- The grammar so far. -/
  grammar : Grammar
  /-- The supply of names for helpers. -/
  names : NameAllocator
  /-- The rules processed, in order. -/
  processed : List String
  /-- The rules still to be processed, in order. -/
  pending : List String
deriving DecidableEq

namespace Elimination

/-- The state before the first rule: all rules are pending, in the order of their
names. -/
def start (g : Grammar) (names : NameAllocator) : Elimination where
  grammar := g
  names := names
  processed := []
  pending := g.ruleNames.mergeSort fun a b => decide (a ≤ b)

/-- **The alternatives of `left` without leading references to processed rules.** -/
def expanded (s : Elimination) (left : String) : List Production :=
  s.processed.foldl s.grammar.substituteLeading (s.grammar.productions left)

/-- Whether the rule of `left` is written anew: one of its alternatives begins with a processed
rule, or with `left` itself. -/
def isRewritten (s : Elimination) (left : String) : Bool :=
  (s.grammar.productions left).any fun p => (s.processed ++ [left]).any fun name =>
    p.startsWith name

/-- **Gives `left` the expanded alternatives `ps` without their direct recursion.** If nothing
in them is recursive but useless alternatives, these are dropped and no helper is
needed; a rule with nothing to replace or to drop is not touched. -/
def eliminateDirect (s : Elimination) (left : String) (ps : List Production) : Elimination :=
  let tails := Production.recursiveTails left ps
  let others := Production.nonRecursive left ps
  if tails.isEmpty then
    if s.isRewritten left then { s with grammar := s.grammar.setProductions left others }
    else s
  else
    let (helper, names) := s.names.fresh s.grammar
    let goOn (p : Production) : Production := p.push (.nonTerminal helper)
    { s with
      grammar := (s.grammar.setProductions left (others.map goOn)).setProductions helper
        (tails.map goOn ++ [Production.epsilon])
      names := names
      pending := s.pending ++ [helper] }

/-- **Processes the next pending rule**; a finished elimination stays as it is. -/
def round (s : Elimination) : Elimination :=
  match s.pending with
  | [] => s
  | left :: rest =>
    let t := { s with pending := rest }.eliminateDirect left (s.expanded left)
    { t with processed := t.processed ++ [left] }

/-- The state after processing `n` rules, or all of them if there are fewer. -/
def rounds : Nat → Elimination → Elimination
  | 0, s => s
  | n + 1, s => rounds n s.round

theorem rounds_add (m n : Nat) (s : Elimination) : rounds (m + n) s = rounds n (rounds m s) := by
  induction m generalizing s with
  | zero => rw [Nat.zero_add]; rfl
  | succ m ih => rw [Nat.succ_add]; exact ih s.round

/-- A finished elimination has nothing left to do. -/
theorem round_of_finished {s : Elimination} (h : s.pending = []) : s.round = s := by
  unfold round
  rw [h]

theorem rounds_of_finished {s : Elimination} (h : s.pending = []) (n : Nat) : rounds n s = s := by
  induction n with
  | zero => rfl
  | succ n ih => rw [rounds, round_of_finished h, ih]

/-- The state after `2 ^ k` rounds. Half of them come first; if nothing is pending
then, the other half would change nothing. -/
def doubledRounds : Nat → Elimination → Elimination
  | 0, s => s.round
  | k + 1, s =>
    let half := doubledRounds k s
    if half.pending.isEmpty then half else doubledRounds k half

/-- **Stopping early leaves no round out that does anything.** -/
theorem doubledRounds_eq (k : Nat) (s : Elimination) :
    doubledRounds k s = rounds (Nat.pow 2 k) s := by
  induction k generalizing s with
  | zero => rfl
  | succ k ih =>
    have hpow : Nat.pow 2 (k + 1) = Nat.pow 2 k + Nat.pow 2 k := Nat.mul_two _
    rw [doubledRounds, hpow, rounds_add, ih]
    split
    · next h => exact (rounds_of_finished (List.isEmpty_iff.mp h) _).symm
    · exact ih _

/-- **The state in which nothing is pending**, if `2 ^ k` rounds are enough to reach
it. -/
def run? (k : Nat) (s : Elimination) : Option Elimination :=
  let t := doubledRounds k s
  if t.pending.isEmpty then some t else none

theorem run?_eq_some_iff {k : Nat} {s t : Elimination} :
    run? k s = some t ↔ t = rounds (Nat.pow 2 k) s ∧ t.pending = [] := by
  unfold run?
  rw [doubledRounds_eq]
  simp only [Option.ite_none_right_eq_some, Option.some.injEq, List.isEmpty_iff]
  constructor
  · rintro ⟨h, rfl⟩
    exact ⟨rfl, h⟩
  · rintro ⟨rfl, h⟩
    exact ⟨h, rfl⟩

/-- **An elimination that ends in time is carried to its end.** -/
theorem run?_of_finished {k n : Nat} {s : Elimination} (hn : n ≤ Nat.pow 2 k)
    (h : (rounds n s).pending = []) : run? k s = some (rounds n s) := by
  have hmore : rounds (Nat.pow 2 k) s = rounds n s := by
    rw [← Nat.add_sub_of_le hn, rounds_add, rounds_of_finished h]
  exact run?_eq_some_iff.mpr ⟨hmore.symm, h⟩

/-! ## What is reported -/

/-- What is reported when the alternatives `ps` of `left` lose their direct
recursion. -/
def directEvents (s : Elimination) (left : String) (ps : List Production) : List Event :=
  if (Production.recursiveTails left ps).isEmpty then []
  else
    let helper := (s.names.fresh s.grammar).1
    (s.grammar.setProductions left ps).mintEvents helper
      ++ [.directRecursionEliminated left helper]

/-- What is reported in the next round. -/
def roundEvents (s : Elimination) : List Event :=
  match s.pending with
  | [] => []
  | left :: _ =>
    s.grammar.substitutionEvents left s.processed (s.grammar.productions left)
      ++ s.directEvents left (s.expanded left)

/-- **What is reported until nothing is pending**, or in `limit` rounds if they are
not enough. -/
def events (limit : Nat) (s : Elimination) : List Event :=
  if s.pending.isEmpty then []
  else
    match limit with
    | 0 => []
    | n + 1 => s.roundEvents ++ events n s.round

end Elimination

namespace Grammar

/-- How often the number of rounds allowed is doubled, from a single one. Two rounds
for each rule, one for itself and one for a helper, would do if helpers never needed
helpers. For the chains of helpers there are more than a thousand million: each round
looks at all rules processed before it, so nobody sees the end of a longer process. -/
def eliminationDoublings (g : Grammar) : Nat := g.rules.size + 30

/-- The rounds allowed. -/
def eliminationLimit (g : Grammar) : Nat := Nat.pow 2 g.eliminationDoublings

/-- **Eliminates left recursion with names from `names`.** The answer holds the new
grammar and the names left. -/
def eliminateLeftRecursionWith (g : Grammar) (names : NameAllocator) :
    Except GrammarError Elimination :=
  match (Elimination.start g names).run? g.eliminationDoublings with
  | some s => .ok s
  | none => .error (.eliminationUnfinished g.eliminationLimit)

/-- Eliminates left recursion with names of its own. -/
def eliminateLeftRecursion (g : Grammar) : Except GrammarError Elimination :=
  g.eliminateLeftRecursionWith NameAllocator.initial

/-- What is reported while left recursion is eliminated with names from `names`. -/
def eliminationEvents (g : Grammar) (names : NameAllocator) : List Event :=
  (Elimination.start g names).events g.eliminationLimit

end Grammar

end GrammarWorkbench
