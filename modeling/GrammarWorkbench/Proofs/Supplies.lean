import GrammarWorkbench.CommandLine.Outcome
import GrammarWorkbench.Proofs.LeftRecursion.Order
import GrammarWorkbench.Proofs.Minting
import Mathlib.Data.List.Permutation

/-!
# One supply of names or many

A sequence of actions can be served by one supply of names, which goes on from action to
action, or by a new supply for each. The first relies on the number it keeps, the others on
passing over names that are taken. In a grammar without minted names both come to the same:
at every moment the names given out are those of the numbers from 1 to some `k`, and no supply
has gone beyond `k` (`Counted`), so each gives out the name of `k + 1` (`Counted.fresh_eq`).

An elimination and a factoring look at their supply for the next name only. So what they do is
the same with two supplies as long as the names are counted, and they keep them counted
(`Elimination.counted_rounds`, `Factoring.counted_run`).
-/

namespace GrammarWorkbench

/-- **The names given out are counted**: behind the rules `base` stand the names of the numbers
from 1 to `k`, and the supply has not gone further. -/
structure Counted (base : List String) (k : Nat) (g : Grammar) (names : NameAllocator) :
    Prop where
  /-- No name was left out. -/
  ruleNames_eq : g.ruleNames = base ++ (List.range' 1 k).map mintedName
  /-- The supply may lag behind. -/
  last_le : names.last ≤ k

namespace Counted

variable {base : List String} {k : Nat} {g g' : Grammar} {names names' : NameAllocator}

/-- A supply that lags behind as well will do. -/
theorem of_le (h : Counted base k g names) (hle : names'.last ≤ k) : Counted base k g names' :=
  ⟨h.ruleNames_eq, hle⟩

theorem congr (h : Counted base k g names) (hg : g'.ruleNames = g.ruleNames) :
    Counted base k g' names :=
  ⟨hg.trans h.ruleNames_eq, h.last_le⟩

variable (hbase : ∀ n, mintedName n ∉ base)

include hbase in
/-- The numbers whose names are taken. -/
theorem mem_iff (h : Counted base k g names) (n : Nat) :
    mintedName n ∈ g.ruleNames ↔ 1 ≤ n ∧ n ≤ k := by
  rw [h.ruleNames_eq, List.mem_append]
  constructor
  · rintro (hmem | hmem)
    · exact absurd hmem (hbase n)
    · obtain ⟨m, hm, heq⟩ := List.mem_map.mp hmem
      obtain rfl := mintedName_injective heq
      rw [List.mem_range'_1] at hm
      omega
  · intro hn
    refine .inr (List.mem_map_of_mem (List.mem_range'_1.mpr ?_))
    omega

include hbase in
/-- **Every supply gives out the next name**, whether it counts or looks it up. -/
theorem fresh_eq (h : Counted base k g names) :
    names.fresh g = (mintedName (k + 1), ⟨k + 1⟩) := by
  have hfree : ¬ (1 ≤ names.next g ∧ names.next g ≤ k) := fun hmem =>
    names.fresh_not_mem g ((h.mem_iff hbase _).mpr hmem)
  have hlast := names.last_lt_next g
  have hnext : names.next g ≤ k + 1 := by
    by_contra hgt
    -- the number that was passed over would be taken
    have hmem : mintedName (k + 1) ∈ g.ruleNames :=
      mintedName_mem_of_lt_leastFree (Nat.succ_le_succ h.last_le) (Nat.lt_of_not_le hgt)
    exact absurd ((h.mem_iff hbase _).mp hmem).2 (Nat.not_succ_le_self k)
  have heq : names.next g = k + 1 := by omega
  unfold NameAllocator.fresh
  rw [heq]

include hbase in
/-- So two supplies cannot be told apart. -/
theorem fresh_eq_fresh (h : Counted base k g names) (hle : names'.last ≤ k) :
    names'.fresh g = names.fresh g :=
  ((h.of_le hle).fresh_eq hbase).trans (h.fresh_eq hbase).symm

include hbase in
/-- With one more name they are counted again. -/
theorem succ (h : Counted base k g names)
    (hg : g'.ruleNames = g.ruleNames ++ [(names.fresh g).1]) :
    Counted base (k + 1) g' (names.fresh g).2 := by
  rw [h.fresh_eq hbase] at hg ⊢
  refine ⟨?_, Nat.le_refl _⟩
  rw [hg, h.ruleNames_eq, List.range'_concat, List.map_append, List.append_assoc,
    Nat.one_mul, Nat.add_comm 1 k]
  rfl

end Counted

/-! ## Eliminations -/

namespace Elimination

/-- An elimination that ends has one end. -/
theorem rounds_eq_of_finished {s : Elimination} {m n : Nat} (hm : (rounds m s).pending = [])
    (hn : (rounds n s).pending = []) : rounds m s = rounds n s := by
  have hmore := rounds_of_finished hm n
  rw [← rounds_add, Nat.add_comm, rounds_add, rounds_of_finished hn] at hmore
  exact hmore.symm

/-- The same state with another supply. -/
def withNames (s : Elimination) (names : NameAllocator) : Elimination := { s with names := names }

variable {base : List String} {k : Nat} {s : Elimination} {names : NameAllocator}
  {left : String} {rest : List String}

/-- What gives out no name does not look at the supply. -/
theorem eliminateDirect_withNames_of_tails_eq_nil {ps : List Production}
    (htails : Production.recursiveTails left ps = []) (s : Elimination) (names : NameAllocator) :
    (s.withNames names).eliminateDirect left ps = (s.eliminateDirect left ps).withNames names := by
  rw [eliminateDirect_of_tails_eq_nil htails, eliminateDirect_of_tails_eq_nil htails]
  have hrewritten : (s.withNames names).isRewritten left = s.isRewritten left := rfl
  rw [hrewritten]
  split <;> rfl

/-- What gives out a name only looks at which one it is. -/
theorem eliminateDirect_withNames_of_tails_ne_nil {ps : List Production}
    (htails : Production.recursiveTails left ps ≠ [])
    (hfresh : names.fresh s.grammar = s.names.fresh s.grammar) :
    (s.withNames names).eliminateDirect left ps = s.eliminateDirect left ps := by
  rw [eliminateDirect_of_tails_ne_nil htails, eliminateDirect_of_tails_ne_nil htails]
  unfold helper withNames
  dsimp only
  rw [hfresh]

/-- **A round does the same with another supply** that gives out the same name. -/
theorem round_withNames (hpending : s.pending = left :: rest)
    (hfresh : names.fresh s.grammar = s.names.fresh s.grammar) :
    (s.withNames names).round
      = if Production.recursiveTails left (s.expanded left) = [] then s.round.withNames names
        else s.round := by
  have hpending' : (s.withNames names).pending = left :: rest := hpending
  have hexpanded : (s.withNames names).expanded left = s.expanded left := rfl
  let turn : Elimination := { s with pending := rest }
  rw [round_eq hpending', round_eq hpending, hexpanded]
  show ({ (turn.withNames names).eliminateDirect left (s.expanded left) with
    processed := s.processed ++ [left] } : Elimination) = _
  split
  · next htails => rw [eliminateDirect_withNames_of_tails_eq_nil htails]; rfl
  · next htails =>
    have hturn : names.fresh turn.grammar = turn.names.fresh turn.grammar := hfresh
    rw [eliminateDirect_withNames_of_tails_ne_nil htails hturn]

section Counted

variable (hbase : ∀ n, mintedName n ∉ base)

include hbase in
/-- **A round keeps the names counted**, and does the same with any supply that lags behind. -/
theorem counted_round (hs : s.Ordered) (h : Counted base k s.grammar s.names)
    (hle : names.last ≤ k) :
    ∃ k' names', (s.withNames names).round = s.round.withNames names'
      ∧ Counted base k' s.round.grammar s.round.names ∧ names'.last ≤ k' := by
  cases hpending : s.pending with
  | nil =>
    have hpending' : (s.withNames names).pending = [] := hpending
    rw [round_of_finished hpending, round_of_finished hpending']
    exact ⟨k, names, rfl, h, hle⟩
  | cons left rest =>
    have hfresh : names.fresh s.grammar = s.names.fresh s.grammar :=
      h.fresh_eq_fresh hbase hle
    rw [round_withNames hpending hfresh]
    cases round_effect hs hpending with
    | dropped tails_eq _ ruleNames_eq _ =>
      rw [if_pos tails_eq, names_round_of_tails_eq_nil hpending tails_eq]
      exact ⟨k, names, rfl, h.congr ruleNames_eq, hle⟩
    | split tails_ne _ ruleNames_eq _ =>
      rw [if_neg tails_ne]
      have hnames : s.round.names = (s.names.fresh s.grammar).2 := by
        rw [round_eq hpending, eliminateDirect_of_tails_ne_nil tails_ne]
      have hcounted : Counted base (k + 1) s.round.grammar s.round.names := by
        rw [hnames]
        exact h.succ hbase ruleNames_eq
      exact ⟨k + 1, s.round.names, rfl, hcounted, hcounted.last_le⟩

include hbase in
/-- **So does any number of rounds.** -/
theorem counted_rounds (n : Nat) (hs : s.Ordered) (h : Counted base k s.grammar s.names)
    (hle : names.last ≤ k) :
    ∃ k' names', rounds n (s.withNames names) = (rounds n s).withNames names'
      ∧ Counted base k' (rounds n s).grammar (rounds n s).names ∧ names'.last ≤ k' := by
  induction n generalizing s k names with
  | zero => exact ⟨k, names, rfl, h, hle⟩
  | succ n ih =>
    obtain ⟨k', names', hround, h', hle'⟩ := counted_round hbase hs h hle
    rw [rounds, hround]
    exact ih (ordered_round hs) h' hle'

end Counted

end Elimination

/-! ## Factorings -/

namespace Factoring

/-- The same state with another supply. -/
def withNames (s : Factoring) (names : NameAllocator) : Factoring := { s with names := names }

variable {base : List String} {k : Nat} {s : Factoring} {acc : Factoring × List Production}
  {names : NameAllocator} {left : String} {members ps : List Production}
  {rest : List (String × List Production)} (hbase : ∀ n, mintedName n ∉ base)

include hbase in
/-- **Taking up a group keeps the names counted**, and is the same with any supply that lags
behind. -/
theorem counted_addGroup (h : Counted base k acc.1.grammar acc.1.names) (hle : names.last ≤ k)
    (members : List Production) :
    ∃ k' names', addGroup (acc.1.withNames names, acc.2) members
        = ((addGroup acc members).1.withNames names', (addGroup acc members).2)
      ∧ Counted base k' (addGroup acc members).1.grammar (addGroup acc members).1.names
      ∧ names'.last ≤ k' := by
  cases hmembers : isFactorable members with
  | false =>
    rw [addGroup_of_not_factorable _ hmembers, addGroup_of_not_factorable _ hmembers]
    exact ⟨k, names, rfl, h, hle⟩
  | true =>
    have hfresh : names.fresh acc.1.grammar = acc.1.names.fresh acc.1.grammar :=
      h.fresh_eq_fresh hbase hle
    have hsame : addGroup (acc.1.withNames names, acc.2) members = addGroup acc members := by
      unfold addGroup withNames
      rw [if_pos hmembers, if_pos hmembers]
      dsimp only
      rw [hfresh]
    have hruleNames := ruleNames_addGroup acc members
    have hcounted : Counted base (k + 1) (addGroup acc members).1.grammar
        (addGroup acc members).1.names := by
      unfold groupMinting at hruleNames
      rw [if_pos hmembers] at hruleNames
      have hnames : (addGroup acc members).1.names = (acc.1.names.fresh acc.1.grammar).2 := by
        unfold addGroup
        rw [if_pos hmembers]
      rw [hnames]
      exact h.succ hbase hruleNames
    exact ⟨k + 1, (addGroup acc members).1.names, hsame, hcounted, hcounted.last_le⟩

include hbase in
theorem counted_foldl_addGroup (groups : List (List Production))
    (h : Counted base k acc.1.grammar acc.1.names) (hle : names.last ≤ k) :
    ∃ k' names', groups.foldl addGroup (acc.1.withNames names, acc.2)
        = ((groups.foldl addGroup acc).1.withNames names', (groups.foldl addGroup acc).2)
      ∧ Counted base k' (groups.foldl addGroup acc).1.grammar (groups.foldl addGroup acc).1.names
      ∧ names'.last ≤ k' := by
  induction groups generalizing acc k names with
  | nil => exact ⟨k, names, rfl, h, hle⟩
  | cons members groups ih =>
    obtain ⟨k', names', hgroup, h', hle'⟩ := counted_addGroup hbase h hle members
    rw [List.foldl_cons, List.foldl_cons, hgroup]
    exact ih h' hle'

include hbase in
/-- **A step keeps the names counted**, and does the same with any supply that lags behind. -/
theorem counted_step (hs : s.Consistent) (h : Counted base k s.grammar s.names)
    (hle : names.last ≤ k) (hqueue : s.queue = (left, ps) :: rest) :
    ∃ k' names', (s.withNames names).step = s.step.withNames names'
      ∧ Counted base k' s.step.grammar s.step.names ∧ names'.last ≤ k' := by
  have hqueue' : (s.withNames names).queue = (left, ps) :: rest := hqueue
  have hleft : left ∈ s.grammar.ruleNames := hs.mem_ruleNames _ (hqueue ▸ List.mem_cons_self)
  let turn : Factoring := { s with queue := rest }
  rw [step_eq hqueue', step_eq hqueue]
  show ∃ k' names', (turn.withNames names).factorRule left ps
      = (turn.factorRule left ps).withNames names'
    ∧ Counted base k' (turn.factorRule left ps).grammar (turn.factorRule left ps).names
    ∧ names'.last ≤ k'
  unfold factorRule
  by_cases hapart : (groupByLeading ps).length = ps.length
  · rw [if_pos hapart, if_pos hapart]
    exact ⟨k, names, rfl, h, hle⟩
  · rw [if_neg hapart, if_neg hapart]
    have hturn : Counted base k (turn, ([] : List Production)).1.grammar
      (turn, ([] : List Production)).1.names := h
    obtain ⟨k', names', hgroups, h', hle'⟩ :=
      counted_foldl_addGroup hbase (groupByLeading ps) hturn hle
    refine ⟨k', names', ?_, h'.congr ?_, hle'⟩
    · dsimp only
      rw [hgroups]
      rfl
    · show (Grammar.setProductions _ _ _).ruleNames = _
      rw [Grammar.ruleNames_setProductions, ruleNames_foldl_addGroup,
        if_pos (List.mem_append_left _ hleft)]

include hbase in
/-- **So does a factoring.** -/
theorem counted_run (hs : s.Consistent) (h : Counted base k s.grammar s.names)
    (hle : names.last ≤ k) :
    ∃ k' names', (s.withNames names).run = s.run.withNames names'
      ∧ Counted base k' s.run.grammar s.run.names ∧ names'.last ≤ k' := by
  fun_induction run s generalizing k names with
  | case1 s hqueue =>
    have hqueue' : (s.withNames names).queue = [] := hqueue
    rw [run, dif_pos hqueue']
    exact ⟨k, names, rfl, h, hle⟩
  | case2 s hqueue ih =>
    have hqueue' : (s.withNames names).queue ≠ [] := hqueue
    obtain ⟨⟨left, ps⟩, rest, hcons⟩ := List.exists_cons_of_ne_nil hqueue
    obtain ⟨k', names', hstep, h', hle'⟩ := counted_step hbase hs h hle hcons
    rw [run, dif_neg hqueue', hstep]
    exact ih (consistent_step hs hcons) h' hle'

end Factoring

/-! ## Sequences of actions -/

namespace Grammar

open CommandLine (Action)

/-- **What an action does to `g`** with names from a supply: the names given out on the way, the
grammar that comes of it and the supply that is left. An elimination does something only if it
ends. -/
inductive Does (g : Grammar) (names : NameAllocator) :
    Action → List Minting → Grammar → NameAllocator → Prop where
  /-- Left recursion is eliminated until nothing is pending. -/
  | eliminate (n : Nat) (hend : (Elimination.rounds n (Elimination.start g names)).pending = []) :
      Does g names .eliminateLeftRecursion (Elimination.mintings n (Elimination.start g names))
        (Elimination.rounds n (Elimination.start g names)).grammar
        (Elimination.rounds n (Elimination.start g names)).names
  /-- The grammar is factored. -/
  | factor :
      Does g names .leftFactor (Factoring.start g names).mintings (g.leftFactorWith names).grammar
        (g.leftFactorWith names).names

/-- **What a sequence of actions does**, one after the other. Each takes its names from the
supply that `renew` makes of what the action before has left. All grammars on the way are kept,
one after each action. -/
inductive Runs (renew : NameAllocator → NameAllocator) : Grammar → NameAllocator →
    List Action → List Minting → List Grammar → Grammar → NameAllocator → Prop where
  /-- Without actions nothing is done. -/
  | nil (g : Grammar) (names : NameAllocator) : Runs renew g names [] [] [] g names
  /-- The first action, and then the others. -/
  | cons {g now after : Grammar} {names left last : NameAllocator} {action : Action}
      {actions : List Action} {ms ms' : List Minting} {stages : List Grammar}
      (h : Does g (renew names) action ms now left)
      (hrest : Runs renew now left actions ms' stages after last) :
      Runs renew g names (action :: actions) (ms ++ ms') (now :: stages) after last

/-- One supply serves all actions. -/
def shared : NameAllocator → NameAllocator := id

/-- Every action has a new supply. -/
def separate : NameAllocator → NameAllocator := fun _ => .initial

variable {g now now' after : Grammar} {names names' left left' last : NameAllocator}
  {action : Action} {actions : List Action} {ms ms' : List Minting} {stages : List Grammar}
  {base : List String} {k : Nat} {renew renew' : NameAllocator → NameAllocator}

/-- **An action has one outcome.** -/
theorem Does.unique (h : g.Does names action ms now left)
    (h' : g.Does names action ms' now' left') : now = now' ∧ left = left' := by
  cases h with
  | factor =>
    cases h' with
    | factor => exact ⟨rfl, rfl⟩
  | eliminate n hend =>
    cases h' with
    | eliminate n' hend' =>
      have hsame := Elimination.rounds_eq_of_finished hend hend'
      rw [hsame]
      exact ⟨rfl, rfl⟩

/-- An action extends a tidy grammar by the names given out. -/
theorem Does.extends (h : g.Does names action ms now left) (hg : g.Tidy) : g.Extends ms now := by
  cases h with
  | eliminate n _ => exact Elimination.extends_rounds n (Elimination.ordered_start g names) hg
  | factor => exact Factoring.extends_run (Factoring.consistent_start g names) hg

/-- **An action does the same with any supply that lags behind** while names are counted. -/
theorem Does.counted (hbase : ∀ n, mintedName n ∉ base) (h : g.Does names action ms now left)
    (hcounted : Counted base k g names) (hle : names'.last ≤ k) :
    ∃ k' ms' left', g.Does names' action ms' now left' ∧ Counted base k' now left
      ∧ left'.last ≤ k' := by
  cases h with
  | eliminate n hend =>
    obtain ⟨k', left', hrounds, hcounted', hle'⟩ := Elimination.counted_rounds hbase n
      (Elimination.ordered_start g names) hcounted hle
    have hsame : Elimination.rounds n (Elimination.start g names')
        = (Elimination.rounds n (Elimination.start g names)).withNames left' := hrounds
    have hend' : (Elimination.rounds n (Elimination.start g names')).pending = [] := by
      rw [hsame]
      exact hend
    have hdoes := Does.eliminate n hend'
    rw [hsame] at hdoes
    exact ⟨k', _, left', hdoes, hcounted', hle'⟩
  | factor =>
    obtain ⟨k', left', hrun, hcounted', hle'⟩ := Factoring.counted_run hbase
      (Factoring.consistent_start g names) hcounted hle
    have hsame : g.leftFactorWith names' = (g.leftFactorWith names).withNames left' := hrun
    have hdoes : g.Does names' _ _ _ _ := Does.factor
    rw [hsame] at hdoes
    exact ⟨k', _, left', hdoes, hcounted', hle'⟩

theorem Runs.extends (h : Runs renew g names actions ms stages after last) (hg : g.Tidy) :
    g.Extends ms after := by
  induction h with
  | nil g _ => exact Extends.refl g
  | cons h _ ih =>
    have hfirst := h.extends hg
    exact hfirst.trans (ih (hfirst.tidy hg))

/-- **A sequence of actions has one outcome.** -/
theorem Runs.unique {stages' : List Grammar} {after' : Grammar} {last' : NameAllocator}
    (h : Runs renew g names actions ms stages after last)
    (h' : Runs renew g names actions ms' stages' after' last') :
    stages = stages' ∧ after = after' ∧ last = last' := by
  induction h generalizing ms' stages' after' last' with
  | nil =>
    cases h' with
    | nil => exact ⟨rfl, rfl, rfl⟩
  | cons hfirst _ ih =>
    cases h' with
    | cons hfirst' hrest' =>
      obtain ⟨rfl, rfl⟩ := hfirst.unique hfirst'
      obtain ⟨rfl, hafter, hlast⟩ := ih hrest'
      exact ⟨rfl, hafter, hlast⟩

/-- **A sequence of actions does the same however its supplies are renewed**, as long as none
of them goes ahead of the names counted. -/
theorem Runs.counted (hbase : ∀ n, mintedName n ∉ base)
    (hrenew : ∀ names, (renew names).last ≤ names.last)
    (hrenew' : ∀ names, (renew' names).last ≤ names.last)
    (h : Runs renew g names actions ms stages after last)
    (hcounted : Counted base k g names) (hle : names'.last ≤ k) :
    ∃ k' ms' last', Runs renew' g names' actions ms' stages after last'
      ∧ Counted base k' after last ∧ last'.last ≤ k' := by
  induction h generalizing k names' with
  | nil g names => exact ⟨k, [], names', .nil g names', hcounted, hle⟩
  | cons hfirst _ ih =>
    obtain ⟨k₁, ms₁, left₁, hfirst', hcounted₁, hle₁⟩ := hfirst.counted hbase
      (hcounted.of_le (Nat.le_trans (hrenew _) hcounted.last_le))
      (Nat.le_trans (hrenew' _) hle)
    obtain ⟨k', ms₂, last', hrest', hcounted', hle'⟩ := ih hcounted₁ hle₁
    exact ⟨k', _, last', .cons hfirst' hrest', hcounted', hle'⟩

/-! ## The program and the library -/

/-- **The answer of an elimination**, without the search for the number of rounds. -/
theorem eliminateLeftRecursionWith_eq_ite (g : Grammar) (names : NameAllocator) :
    g.eliminateLeftRecursionWith names
      = if (Elimination.rounds g.eliminationLimit (Elimination.start g names)).pending = [] then
          .ok (Elimination.rounds g.eliminationLimit (Elimination.start g names))
        else .error (.eliminationUnfinished g.eliminationLimit) := by
  unfold eliminateLeftRecursionWith Elimination.run? eliminationLimit
  rw [Elimination.doubledRounds_eq]
  generalize Elimination.rounds _ (Elimination.start g names) = done
  dsimp only
  by_cases hend : done.pending = []
  · rw [if_pos (List.isEmpty_iff.mpr hend), if_pos hend]
  · rw [if_neg (fun h => hend (List.isEmpty_iff.mp h)), if_neg hend]

/-- **What a single action makes of a grammar** with names of its own. -/
def perform (g : Grammar) : Action → Except GrammarError Grammar
  | .eliminateLeftRecursion => g.eliminateLeftRecursion.map Elimination.grammar
  | .leftFactor => .ok g.leftFactor.grammar

/-- **One supply for all actions or one for each**: what comes of it is the same, also if an
elimination takes too long. -/
theorem transform_eq_foldlM (hbase : ∀ n, mintedName n ∉ base) (hcounted : Counted base k g names) :
    CommandLine.Options.transform actions g names = actions.foldlM perform g := by
  induction actions generalizing g names k with
  | nil => rfl
  | cons action actions ih =>
    rw [List.foldlM_cons]
    have hle : NameAllocator.initial.last ≤ k := Nat.zero_le k
    cases action with
    | leftFactor =>
      obtain ⟨k', left, hrun, hcounted', -⟩ := Factoring.counted_run hbase
        (Factoring.consistent_start g names) hcounted hle
      have hsame : g.leftFactor = (g.leftFactorWith names).withNames left := hrun
      show CommandLine.Options.transform actions (g.leftFactorWith names).grammar
        (g.leftFactorWith names).names = actions.foldlM perform g.leftFactor.grammar
      rw [hsame]
      exact ih hcounted'
    | eliminateLeftRecursion =>
      have hgiven := eliminateLeftRecursionWith_eq_ite g names
      have hown := eliminateLeftRecursionWith_eq_ite g .initial
      -- the number of rounds gets a name, so that nothing tries to compute it
      generalize g.eliminationLimit = limit at hgiven hown
      obtain ⟨k', left, hrounds, hcounted', -⟩ := Elimination.counted_rounds hbase limit
        (Elimination.ordered_start g names) hcounted hle
      have hsame : Elimination.rounds limit (Elimination.start g .initial)
          = (Elimination.rounds limit (Elimination.start g names)).withNames left := hrounds
      have hperform : g.perform .eliminateLeftRecursion
        = (g.eliminateLeftRecursionWith .initial).map Elimination.grammar := rfl
      rw [hsame] at hown
      rw [CommandLine.Options.transform_eliminate, hperform, hown, hgiven]
      generalize Elimination.rounds limit (Elimination.start g names) = done at hcounted'
      by_cases hend : done.pending = []
      · rw [if_pos hend, if_pos (show (done.withNames left).pending = [] from hend)]
        exact ih hcounted'
      · rw [if_neg hend, if_neg (show (done.withNames left).pending ≠ [] from hend)]
        rfl

/-- What the program makes of a grammar is what the actions do with a shared supply. -/
theorem Runs.of_transform (h : CommandLine.Options.transform actions g names = .ok after) :
    ∃ ms stages last, Runs shared g names actions ms stages after last := by
  induction actions generalizing g names with
  | nil =>
    obtain rfl := Except.ok.inj h
    exact ⟨[], [], names, .nil g names⟩
  | cons action actions ih =>
    cases action with
    | leftFactor =>
      obtain ⟨ms, stages, last, hrest⟩ := ih h
      exact ⟨_, _, last, .cons .factor hrest⟩
    | eliminateLeftRecursion =>
      obtain ⟨done, heliminated, hafter⟩ := CommandLine.Options.exists_of_transform h
      obtain ⟨n, rfl, hend⟩ := exists_rounds_of_eliminated heliminated
      obtain ⟨ms, stages, last, hrest⟩ := ih hafter
      exact ⟨_, _, last, .cons (.eliminate n hend) hrest⟩

/-- A rule that was read has a single capital as its name, and no name given out has. -/
theorem mintedName_not_mem_of_parseWith {t : Tokenizer} {text : String}
    (h : parseWith t text = .ok g) (n : Nat) : mintedName n ∉ g.ruleNames := by
  obtain ⟨rules, -, rfl⟩ := exists_of_parseWith h
  intro hmem
  obtain ⟨r, -, hname⟩ := mem_ruleNames_ofPieces_gather.mp hmem
  have hlength := congrArg (fun name : String => name.toList.length) hname
  have hstem : "X".toList.length = 1 := rfl
  have hdigits : 0 < (Nat.toDigits 10 n).length := Nat.length_toDigits_pos
  simp only [RuleLine.name, mintedName, mintedStem, String.toList_singleton,
    String.toList_append, List.length_append, Nat.toList_repr, List.length_singleton] at hlength
  omega

/-- **One supply for all actions or one for each: nothing shows which.** A grammar is read, with
any tokenizer, and actions are applied to it, all eliminations of which end. With either kind of
supply they do, and there is the same grammar after every action. With either kind the names
given out are those of the numbers from 1 on, in this order, and every supply goes on with the
same name afterwards: the shared one, the last one of the others, and a new one. What the
program makes of a grammar, which has one supply, is what the single actions make of it, which
have their own. -/
theorem runs_shared_iff_separate {t : Tokenizer} {text : String}
    (hread : parseWith t text = .ok g) (actions : List Action) :
    (∀ stages after, (∃ ms last, Runs shared g .initial actions ms stages after last)
        ↔ ∃ ms last, Runs separate g .initial actions ms stages after last)
      ∧ (∀ ms stages after last ms' stages' after' last',
        Runs shared g .initial actions ms stages after last →
        Runs separate g .initial actions ms' stages' after' last' →
        stages = stages' ∧ after = after'
          ∧ ms.map Minting.name = (List.range' 1 ms.length).map mintedName
          ∧ ms'.map Minting.name = ms.map Minting.name
          ∧ ∀ names ∈ [last, last', .initial],
            names.fresh after = (mintedName (ms.length + 1), ⟨ms.length + 1⟩))
      ∧ CommandLine.Options.transform actions g .initial = actions.foldlM perform g
      ∧ ∀ after, CommandLine.Options.transform actions g .initial = .ok after →
        ∃ ms stages last, Runs shared g .initial actions ms stages after last := by
  have hbase := mintedName_not_mem_of_parseWith hread
  have htidy := tidy_of_parseWith hread
  have hnone : Counted g.ruleNames 0 g .initial := ⟨(List.append_nil _).symm, Nat.le_refl 0⟩
  have hshared : ∀ names, (shared names).last ≤ names.last := fun names => Nat.le_refl _
  have hseparate : ∀ names, (separate names).last ≤ names.last := fun names => Nat.zero_le _
  refine ⟨fun stages after => ⟨?_, ?_⟩, ?_, transform_eq_foldlM hbase hnone,
    fun after h => Runs.of_transform h⟩
  · rintro ⟨ms, last, h⟩
    obtain ⟨-, ms', last', h', -⟩ := h.counted hbase hshared hseparate hnone (Nat.le_refl 0)
    exact ⟨ms', last', h'⟩
  · rintro ⟨ms, last, h⟩
    obtain ⟨-, ms', last', h', -⟩ := h.counted hbase hseparate hshared hnone (Nat.le_refl 0)
    exact ⟨ms', last', h'⟩
  · intro ms stages after last ms' stages' after' last' h h'
    obtain ⟨k, ms₁, last₁, h₁, hcounted, hle⟩ :=
      h.counted hbase hshared hseparate hnone (Nat.le_refl 0)
    obtain ⟨rfl, rfl, rfl⟩ := h₁.unique h'
    have hminted : ∀ {renew ms last}, Runs renew g .initial actions ms stages after last →
        ms.map Minting.name = (List.range' 1 k).map mintedName := by
      intro renew ms last hrun
      exact List.append_cancel_left
        ((hrun.extends htidy).ruleNames_eq.symm.trans hcounted.ruleNames_eq)
    have hlength : ms.length = k := by
      rw [← List.length_map Minting.name, hminted h, List.length_map, List.length_range']
    rw [hlength]
    refine ⟨rfl, rfl, hminted h, (hminted h').trans (hminted h).symm, fun names hnames => ?_⟩
    have hlast : names.last ≤ k := by
      simp only [List.mem_cons, List.not_mem_nil, or_false] at hnames
      rcases hnames with rfl | rfl | rfl
      · exact hcounted.last_le
      · exact hle
      · exact Nat.zero_le k
    exact (hcounted.of_le hlast).fresh_eq hbase

/-- A grammar in which an elimination leaves something to a factoring. -/
def layered : Grammar :=
  (∅ : Grammar).setProductions "S"
    [.ofSymbols [.nonTerminal "S", .terminal "a", .terminal "b"],
      .ofSymbols [.nonTerminal "S", .terminal "a", .terminal "c"], .ofSymbols [.terminal "b"]]

/-- An elimination, a factoring and another elimination with one supply for all of them. -/
theorem runs_shared_layered :
    ∃ ms stages after last, Runs shared layered .initial
      [.eliminateLeftRecursion, .leftFactor, .eliminateLeftRecursion] ms stages after last
      ∧ last = ⟨2⟩ ∧ ms.length = 2
      ∧ stages.map ruleNames = [["S", "X1"], ["S", "X1", "X2"], ["S", "X1", "X2"]] :=
  ⟨_, _, _, _, .cons (.eliminate 2 (by cbv)) (.cons .factor (.cons (.eliminate 3 (by cbv))
    (.nil _ _))), by cbv, by cbv, by cbv⟩

/-- The same with a new supply each time. -/
theorem runs_separate_layered :
    ∃ ms stages after last, Runs separate layered .initial
      [.eliminateLeftRecursion, .leftFactor, .eliminateLeftRecursion] ms stages after last
      ∧ last = ⟨0⟩ :=
  ⟨_, _, _, _, .cons (.eliminate 2 (by cbv)) (.cons .factor (.cons (.eliminate 3 (by cbv))
    (.nil _ _))), by cbv⟩

/-- An elimination, a factoring and another elimination give out `X1` and `X2`, also if the
factoring has to look for a name of its own, and `X3` is next in any case. -/
theorem runs_shared_iff_separate_layered :
    parse "S->Sab|Sac|b" = .ok layered
      ∧ ∃ ms stages after last ms' last',
        Runs shared layered .initial
            [.eliminateLeftRecursion, .leftFactor, .eliminateLeftRecursion] ms stages after last
          ∧ Runs separate layered .initial
            [.eliminateLeftRecursion, .leftFactor, .eliminateLeftRecursion] ms' stages after last'
          ∧ last = ⟨2⟩ ∧ last' = ⟨0⟩
          ∧ stages.map ruleNames = [["S", "X1"], ["S", "X1", "X2"], ["S", "X1", "X2"]]
          ∧ ms.map Minting.name = ["X1", "X2"] ∧ ms'.map Minting.name = ["X1", "X2"]
          ∧ (last.fresh after).1 = "X3" ∧ (last'.fresh after).1 = "X3" := by
  have hread : parse "S->Sab|Sac|b" = .ok layered := by decide +kernel
  obtain ⟨ms, stages, after, last, hruns, hlast, hlength, hstages⟩ := runs_shared_layered
  obtain ⟨ms', stages', after', last', hruns', hlast'⟩ := runs_separate_layered
  obtain ⟨-, hagree, -⟩ := runs_shared_iff_separate hread
    [.eliminateLeftRecursion, .leftFactor, .eliminateLeftRecursion]
  obtain ⟨rfl, rfl, hminted, hminted', hnext⟩ := hagree _ _ _ _ _ _ _ _ hruns hruns'
  have hnames : ms.map Minting.name = ["X1", "X2"] := by
    rw [hminted, hlength]
    decide
  have hthird : ∀ names ∈ [last, last', .initial], (names.fresh after).1 = "X3" := by
    intro names hmem
    rw [hnext names hmem, hlength]
    decide
  exact ⟨hread, ms, stages, after, last, ms', last', hruns, hruns', hlast, hlast', hstages,
    hnames, hminted'.trans hnames, hthird last List.mem_cons_self,
    hthird last' (List.mem_cons_of_mem _ List.mem_cons_self)⟩

end Grammar

end GrammarWorkbench
