import GrammarWorkbench.Proofs.LeftRecursion.EpsilonFree

/-!
# Hidden left recursion

A grammar can be left-recursive although no path of first symbols leads back: what stands in
front of a non-terminal may vanish. In the outcome of an elimination all helpers can vanish,
and helpers do stand in front, so this has to be looked at. Where no alternative of the
grammar is empty and no non-terminal derives itself alone, nothing of the kind is left
(`not_hiddenLeftRecursive_of_epsilonFree`).

The point is that no alternative of a helper but the empty one can vanish, since each holds
a symbol of the grammar (`Traced.heavy`). Such an alternative starts as the tail of a
recursion, and every alternative of a rule of the grammar, with the helpers left out, is
derived from the rule in the grammar itself (`Traced.derives`). So a tail of helpers only
would come from a rule that derives itself alone. Replacing references later on takes
nothing but helpers away.

Then every non-terminal that can come to the front of a derived form ranks below the one
that the form is derived from (`FrontsBelow`), by the order known from first symbols.
-/

namespace GrammarWorkbench

namespace Grammar

variable {g : Grammar} {p : Production} {name inner : String} {l m : List Symbol}

/-- A sequence with the helpers left out. -/
def ownPart (g : Grammar) (l : List Symbol) : List Symbol := l.filter g.isOwn

theorem ownPart_append (g : Grammar) (l m : List Symbol) :
    g.ownPart (l ++ m) = g.ownPart l ++ g.ownPart m :=
  List.filter_append l m

theorem ownPart_cons_own (h : name ∈ g.ruleNames) (l : List Symbol) :
    g.ownPart (.nonTerminal name :: l) = .nonTerminal name :: g.ownPart l :=
  List.filter_cons_of_pos (isOwn_nonTerminal.mpr h)

theorem isOwn_eq_false (h : name ∉ g.ruleNames) : g.isOwn (.nonTerminal name) = false :=
  Bool.eq_false_iff.mpr (fun hown => h (isOwn_nonTerminal.mp hown))

theorem ownPart_cons_helper (h : name ∉ g.ruleNames) (l : List Symbol) :
    g.ownPart (.nonTerminal name :: l) = g.ownPart l :=
  List.filter_cons_of_neg (by simp [isOwn_eq_false h])

theorem ownPart_eq_nil_iff : g.ownPart l = [] ↔ ∀ s ∈ l, g.isOwn s = false := by
  unfold ownPart
  rw [List.filter_eq_nil_iff]
  simp only [Bool.not_eq_true]

/-- Handing over to a helper adds nothing of the grammar. -/
theorem ownPart_push (h : name ∉ g.ruleNames) (p : Production) :
    g.ownPart (p.push (.nonTerminal name)).body = g.ownPart p.body := by
  rw [Production.body_push_nonTerminal, ownPart_append, ownPart_cons_helper h]
  exact List.append_nil _

theorem Solid.ownPart_ne_nil (h : g.Solid p) : g.ownPart p.body ≠ [] := by
  obtain ⟨s, rest, hbody, hs⟩ := h
  rw [ne_eq, ownPart_eq_nil_iff, hbody]
  intro hnone
  rw [hnone s List.mem_cons_self] at hs
  exact absurd hs (by simp)

/-- In front of what a solid alternative begins with there is nothing that could vanish. -/
theorem Solid.startsWith_of_cut (h : g.Solid p) {before after : List Symbol}
    (hcut : p.body = before ++ .nonTerminal inner :: after)
    (hbefore : ∀ s ∈ before, g.isOwn s = false) : p.startsWith inner = true := by
  obtain ⟨s, rest, hbody, hs⟩ := h
  rw [Production.startsWith_iff]
  cases before with
  | nil => exact ⟨after, hcut⟩
  | cons t before =>
    obtain ⟨rfl, -⟩ := List.cons.inj (hbody.symm.trans hcut)
    rw [hbefore s List.mem_cons_self] at hs
    exact absurd hs (by simp)

end Grammar

namespace Elimination

variable {g : Grammar} {s : Elimination} {left name inner : String} {rest : List String}
  {p q : Production} {u v w before after : List Symbol}

/-! ## Where alternatives come from -/

/-- **What alternatives come from**, in the elimination of a grammar without empty
alternatives. -/
structure Traced (g : Grammar) (s : Elimination) : Prop where
  /-- A rule of the grammar derives each of its alternatives, helpers left out. -/
  derives : ∀ name ∈ g.ruleNames, ∀ p ∈ s.grammar.productions name,
    g.DerivesPlus [.nonTerminal name] (g.ownPart p.body)
  /-- Every alternative of a helper but the empty one holds a symbol of the grammar. -/
  heavy : ∀ name, name ∉ g.ruleNames → ∀ p ∈ s.grammar.productions name,
    p.body = [] ∨ g.ownPart p.body ≠ []

theorem traced_start (hfree : g.EpsilonFree) (hclosed : g.Closed) (names : NameAllocator) :
    Traced g (start g names) where
  derives := by
    intro name _ p hp
    have hall : g.ownPart p.body = p.body := by
      refine List.filter_eq_self.mpr (fun t ht => ?_)
      cases t with
      | nonTerminal inner =>
        exact Grammar.isOwn_nonTerminal.mpr
          (hclosed inner (Grammar.mentions_iff.mpr ⟨name, p, hp, ht⟩))
      | terminal text => rfl
      | epsilon => rfl
      | endMark => rfl
    rw [hall]
    exact Grammar.DerivesPlus.of_mem hp
  heavy := fun _ _ _ hp => Or.inr (hfree.solid hclosed hp).ownPart_ne_nil

namespace Traced

variable (ht : Traced g s)
include ht

/-- **Replacing a reference to a rule of the grammar goes on with the derivation.** -/
theorem derives_foldl_substituteLeading {inners : List String} {ps : List Production}
    (hinners : ∀ inner ∈ inners, inner ∈ g.ruleNames)
    (hps : ∀ p ∈ ps, g.DerivesPlus [.nonTerminal left] (g.ownPart p.body)) :
    ∀ q ∈ inners.foldl s.grammar.substituteLeading ps,
      g.DerivesPlus [.nonTerminal left] (g.ownPart q.body) := by
  induction inners generalizing ps with
  | nil => exact hps
  | cons inner inners ih =>
    have hinner : inner ∈ g.ruleNames := hinners inner List.mem_cons_self
    refine ih (fun name hname => hinners name (List.mem_cons_of_mem _ hname)) (fun q hq => ?_)
    rw [Grammar.substituteLeading_eq, Production.mem_expandLeading] at hq
    rcases hq with ⟨hq, -⟩ | ⟨p, hp, hlead, beta, hbeta, rfl⟩
    · exact hps q hq
    · have hder := hps p hp
      rw [Production.body_eq_of_startsWith hlead, Grammar.ownPart_cons_own hinner] at hder
      rw [Production.body_append, Grammar.ownPart_append]
      exact hder.trans ((ht.derives inner hinner beta hbeta).derives.append_right _)

theorem derives_of_mem_expanded (h : Graded g s) (hpending : s.pending = left :: rest)
    (hleft : left ∈ g.ruleNames) (hq : q ∈ s.expanded left) :
    g.DerivesPlus [.nonTerminal left] (g.ownPart q.body) :=
  ht.derives_foldl_substituteLeading (fun _ => h.processed_of_original hpending hleft)
    (ht.derives left hleft) q hq

omit ht in
/-- **Replacing a reference takes nothing but a helper away.** -/
theorem heavy_foldl_substituteLeading (h : Graded g s) {inners : List String}
    {ps : List Production} (hps : ∀ p ∈ ps, p.body = [] ∨ g.ownPart p.body ≠ []) :
    ∀ q ∈ inners.foldl s.grammar.substituteLeading ps,
      q.body = [] ∨ g.ownPart q.body ≠ [] := by
  induction inners generalizing ps with
  | nil => exact hps
  | cons inner inners ih =>
    refine ih (fun q hq => ?_)
    rw [Grammar.substituteLeading_eq, Production.mem_expandLeading] at hq
    rcases hq with ⟨hq, -⟩ | ⟨p, hp, hlead, beta, hbeta, rfl⟩
    · exact hps q hq
    · refine Or.inr ?_
      rw [Production.body_append, Grammar.ownPart_append]
      by_cases hinner : inner ∈ g.ruleNames
      · exact List.append_ne_nil_of_left_ne_nil (h.solid inner hinner beta hbeta).ownPart_ne_nil _
      · have hbody := Production.body_eq_of_startsWith hlead
        have hheavy := (hps p hp).resolve_left (by rw [hbody]; simp)
        rw [hbody, Grammar.ownPart_cons_helper hinner] at hheavy
        exact List.append_ne_nil_of_right_ne_nil _ hheavy

/-- **A round keeps the origin of alternatives known.** The tail of a recursion holds a symbol
of the grammar, or else its rule would derive itself alone. -/
theorem round (h : Graded g s)
    (halone : ∀ name, ¬ g.DerivesPlus [.nonTerminal name] [.nonTerminal name]) :
    Traced g s.round := by
  cases hpending : s.pending with
  | nil => rw [round_of_finished hpending]; exact ht
  | cons left rest =>
    refine ⟨fun name hname q hq => ?_, fun name hname q hq => ?_⟩
    · cases origin_of_mem_round h.ordered hpending hq with
      | kept _ hq => exact ht.derives name hname q hq
      | expanded hq _ => exact ht.derives_of_mem_expanded h hpending hname hq
      | handing hp _ _ =>
        rw [Grammar.ownPart_push h.helper_not_mem_ruleNames]
        exact ht.derives_of_mem_expanded h hpending hname hp
      | tail _ => exact absurd hname h.helper_not_mem_ruleNames
      | stop _ => exact absurd hname h.helper_not_mem_ruleNames
    · cases origin_of_mem_round h.ordered hpending hq with
      | kept _ hq => exact ht.heavy name hname q hq
      | expanded hq _ => exact heavy_foldl_substituteLeading h (ht.heavy left hname) q hq
      | handing _ _ htails => exact absurd (h.mem_ruleNames_of_tails_ne_nil hpending htails) hname
      | @tail alpha halpha =>
        have hleft := h.mem_ruleNames_of_tails_ne_nil hpending (List.ne_nil_of_mem halpha)
        obtain ⟨-, p, hp, hlead, rfl⟩ := Production.mem_recursiveTails.mp halpha
        refine Or.inr (fun hnone => halone left ?_)
        have hder := ht.derives_of_mem_expanded h hpending hleft hp
        rw [Grammar.ownPart_push h.helper_not_mem_ruleNames] at hnone
        rw [Production.body_eq_of_startsWith hlead, Grammar.ownPart_cons_own hleft, hnone] at hder
        exact hder
      | stop _ => exact Or.inl Production.body_epsilon

theorem rounds (h : Graded g s)
    (halone : ∀ name, ¬ g.DerivesPlus [.nonTerminal name] [.nonTerminal name]) (n : Nat) :
    Traced g (rounds n s) := by
  induction n generalizing s with
  | zero => exact ht
  | succ n ih => exact ih (ht.round h halone) h.round

end Traced

/-! ## What can come to the front -/

/-- **Every non-terminal with nothing but helpers in front of it ranks below `k`.** -/
def FrontsBelow (g : Grammar) (s : Elimination) (k : Nat) (w : List Symbol) : Prop :=
  ∀ before inner after, w = before ++ .nonTerminal inner :: after →
    (∀ t ∈ before, g.isOwn t = false) → rank g s inner < k

section Finished

variable (h : Graded g s) (ht : Traced g s) (hpending : s.pending = [])
include h ht hpending

/-- **The fronts of alternatives rank below their rule.** -/
theorem frontsBelow_of_mem (hp : p ∈ s.grammar.productions name) :
    FrontsBelow g s (rank g s name) p.body := by
  intro before inner after hcut hbefore
  by_cases hname : name ∈ g.ruleNames
  · exact h.rank_lt_of_leadsTo hpending
      ⟨p, hp, (h.solid name hname p hp).startsWith_of_cut hcut hbefore⟩
  · cases h.form name hname p hp with
    | empty hnil => rw [hnil] at hcut; exact absurd hcut (by simp)
    | solid hsolid =>
      exact h.rank_lt_of_leadsTo hpending ⟨p, hp, hsolid.startsWith_of_cut hcut hbefore⟩
    | trailing front hfront hearlier =>
      refine h.rank_lt_of_helper hname (Or.inr ?_)
      rcases List.eq_nil_or_concat after with rfl | ⟨after, last, rfl⟩
      · -- the helper itself comes to the front only if all before it can vanish
        obtain ⟨rfl, -⟩ := List.append_inj' (hfront.symm.trans hcut) rfl
        have hnone : g.ownPart p.body = [] := by
          rw [hfront, Grammar.ownPart_append, Grammar.ownPart_cons_helper hname,
            Grammar.ownPart_eq_nil_iff.mpr hbefore]
          rfl
        rcases ht.heavy name hname p hp with hnil | hheavy
        · rw [hnil] at hcut; exact absurd hcut (by simp)
        · exact absurd hnone hheavy
      · have hsplit : front ++ [.nonTerminal name]
            = (before ++ .nonTerminal inner :: after) ++ [last] := by
          rw [← hfront, hcut, List.concat_eq_append, List.append_assoc]
          rfl
        obtain ⟨rfl, -⟩ := List.append_inj' hsplit rfl
        exact hearlier inner (List.mem_append_right _ List.mem_cons_self)

/-- **A step brings nothing of higher rank to the front.** -/
theorem FrontsBelow.of_step {k : Nat} (hu : FrontsBelow g s k u) (hstep : s.grammar.Step u v) :
    FrontsBelow g s k v := by
  rintro before inner after rfl hbefore
  cases hstep.origin with
  | inFront before middle right other p hp => exact hu before inner _ rfl hbefore
  | inside x before after right other p hp hbody =>
    -- the replaced non-terminal was a front, and ranks above those of its alternative
    have hother : rank g s other < k :=
      hu x other right rfl (fun t hmem => hbefore t (List.mem_append_left _ hmem))
    refine (frontsBelow_of_mem h ht hpending hp before inner after hbody ?_).trans hother
    exact fun t hmem => hbefore t (List.mem_append_right _ hmem)
  | behind before middle after other p hp =>
    have hother : other ∉ g.ruleNames := by
      intro hown
      refine (h.solid other hown p hp).ownPart_ne_nil (Grammar.ownPart_eq_nil_iff.mpr ?_)
      intro t hmem
      exact hbefore t (List.mem_append_right _ (List.mem_append_left _ hmem))
    refine hu (before ++ .nonTerminal other :: middle) inner after ?_ (fun t hmem => ?_)
    · rw [List.append_assoc]
      rfl
    · rcases List.mem_append.mp hmem with hmem | hmem
      · exact hbefore t (List.mem_append_left _ hmem)
      · rcases List.mem_cons.mp hmem with rfl | hmem
        · exact Grammar.isOwn_eq_false hother
        · exact hbefore t (List.mem_append_right _ (List.mem_append_right _ hmem))

/-- **What a non-terminal derives has lower ranks in front.** -/
theorem frontsBelow_of_derivesPlus (hder : s.grammar.DerivesPlus [.nonTerminal name] w) :
    FrontsBelow g s (rank g s name) w := by
  obtain ⟨v, hstep, hder⟩ := hder
  induction hder with
  | refl =>
    obtain ⟨p, hp, rfl⟩ := hstep.exists_of_nonTerminal
    exact frontsBelow_of_mem h ht hpending hp
  | tail _ hlast ih => exact ih.of_step h ht hpending hlast

theorem not_hiddenLeftRecursive : ¬ s.grammar.HiddenLeftRecursive := by
  rintro ⟨name, rest, hder⟩
  have hfront := frontsBelow_of_derivesPlus h ht hpending hder [] name rest rfl
    (fun _ hmem => absurd hmem List.not_mem_nil)
  exact Nat.lt_irrefl _ hfront

end Finished

end Elimination

namespace Grammar

variable {g : Grammar}

/-- **On textbook grammars not even hidden left recursion is left.** If no alternative is
empty, every non-terminal has a rule and none derives itself alone, then the elimination
ends, and in its outcome no derivation leads from a non-terminal, helpers included, back to
it in front. -/
theorem not_hiddenLeftRecursive_of_epsilonFree (hfree : g.EpsilonFree) (hclosed : g.Closed)
    (halone : ∀ name, ¬ g.DerivesPlus [.nonTerminal name] [.nonTerminal name])
    (names : NameAllocator) :
    ∃ done, g.eliminateLeftRecursionWith names = .ok done ∧ done.pending = []
      ∧ ¬ done.grammar.HiddenLeftRecursive := by
  obtain ⟨n, -, hpending, hdone⟩ := hfree.exists_rounds hclosed names
  have hgraded := Elimination.graded_start hfree hclosed names
  have htraced := Elimination.traced_start hfree hclosed names
  exact ⟨_, hdone, hpending, Elimination.not_hiddenLeftRecursive (hgraded.rounds n)
    (htraced.rounds hgraded halone n) hpending⟩

/-- **Where ranks fall along units, no non-terminal derives itself alone.** Without empty
alternatives a form never gets shorter, so a form of one symbol comes from units only. -/
theorem not_derivesPlus_alone_of_rank (hfree : g.EpsilonFree) (hclosed : g.Closed)
    (rank : String → Nat)
    (hunits : ∀ name ∈ g.ruleNames, ∀ p ∈ g.productions name, ∀ inner ∈ g.ruleNames,
      p.body = [.nonTerminal inner] → rank inner < rank name) (name : String) :
    ¬ g.DerivesPlus [.nonTerminal name] [.nonTerminal name] := by
  have hunit : ∀ left inner, ∀ p ∈ g.productions left, p.body = [.nonTerminal inner] →
      rank inner < rank left := by
    intro left inner p hp hbody
    have hinner : inner ∈ g.ruleNames :=
      hclosed inner (mentions_iff.mpr ⟨left, p, hp, hbody ▸ List.mem_cons_self⟩)
    exact hunits left (mem_ruleNames_of_mem hp) p hp inner hinner hbody
  -- the rank of the only symbol, if there is but one, stays below that of `name`
  have hbelow : ∀ w, g.DerivesPlus [.nonTerminal name] w →
      ∀ inner, w = [.nonTerminal inner] → rank inner < rank name := by
    rintro w ⟨v, hstep, hder⟩
    induction hder with
    | refl =>
      intro inner hw
      obtain ⟨p, hp, rfl⟩ := hstep.exists_of_nonTerminal
      exact hunit name inner p hp hw
    | tail _ hlast ih =>
      intro inner hw
      obtain ⟨before, other, after, p, hp⟩ := hlast
      have hne : p.body ≠ [] := fun hnil =>
        hfree p (mem_alternatives.mpr ⟨other, hp⟩) (Production.ext hnil)
      have hlength := congrArg List.length hw
      simp only [List.length_append, List.length_singleton] at hlength
      have hpos : 0 < p.body.length := List.length_pos_iff.mpr hne
      obtain rfl : before = [] := List.length_eq_zero_iff.mp (by omega)
      obtain rfl : after = [] := List.length_eq_zero_iff.mp (by omega)
      rw [List.nil_append, List.append_nil] at hw
      exact (hunit other inner p hp hw).trans (ih other rfl)
  exact fun halone => Nat.lt_irrefl _ (hbelow _ halone name rfl)

/-- A grammar with three rules that lead back to the first of them. -/
def chained : Grammar :=
  (((∅ : Grammar).setProductions "A"
    [.ofSymbols [.nonTerminal "A", .terminal "x"], .ofSymbols [.nonTerminal "B"],
      .ofSymbols [.terminal "a"]]).setProductions
    "B" [.ofSymbols [.nonTerminal "B", .terminal "y"], .ofSymbols [.nonTerminal "C"],
      .ofSymbols [.terminal "b"]]).setProductions
    "C" [.ofSymbols [.nonTerminal "A", .terminal "e"]]

theorem rounds_chained :
    (Elimination.rounds 6 (Elimination.start chained ⟨0⟩)).pending = []
      ∧ (Elimination.rounds 6 (Elimination.start chained ⟨0⟩)).grammar.productions "X3"
        = [.epsilon,
          .ofSymbols [.terminal "y", .nonTerminal "X2", .nonTerminal "X1", .terminal "e",
            .nonTerminal "X3"],
          .ofSymbols [.nonTerminal "X1", .terminal "e", .nonTerminal "X3"]]
      ∧ (Elimination.rounds 6 (Elimination.start chained ⟨0⟩)).grammar.productions "X1"
        = [.ofSymbols [.terminal "x", .nonTerminal "X1"], .epsilon] := by
  cbv
  exact ⟨rfl, rfl⟩

/-- In the outcome for the chained grammar a helper stands at the front of an alternative of
another one, and it vanishes there; and still nothing leads back to the front. -/
theorem not_hiddenLeftRecursive_of_epsilonFree_chained :
    chained.EpsilonFree ∧ chained.Closed
      ∧ (∀ name, ¬ chained.DerivesPlus [.nonTerminal name] [.nonTerminal name])
      ∧ ∃ done, chained.eliminateLeftRecursionWith ⟨0⟩ = .ok done ∧ done.pending = []
        ∧ .ofSymbols [.nonTerminal "X1", .terminal "e", .nonTerminal "X3"]
          ∈ done.grammar.productions "X3"
        ∧ .epsilon ∈ done.grammar.productions "X1"
        ∧ ¬ done.grammar.HiddenLeftRecursive := by
  have hfree : chained.EpsilonFree := by decide
  have hclosed : chained.Closed := by decide
  have halone : ∀ name, ¬ chained.DerivesPlus [.nonTerminal name] [.nonTerminal name] :=
    not_derivesPlus_alone_of_rank hfree hclosed
      (fun name => if name = "A" then 2 else if name = "B" then 1 else 0) (by decide)
  obtain ⟨done, hdone, hpending, hhidden⟩ :=
    not_hiddenLeftRecursive_of_epsilonFree hfree hclosed halone ⟨0⟩
  obtain ⟨hfinished, hthird, hfirst⟩ := rounds_chained
  have hsix : chained.eliminateLeftRecursionWith ⟨0⟩
      = .ok (Elimination.rounds 6 (Elimination.start chained ⟨0⟩)) :=
    eliminated_of_finished (by decide +kernel) hfinished
  obtain rfl := Except.ok.inj (hdone.symm.trans hsix)
  exact ⟨hfree, hclosed, halone, _, hdone, hpending, hthird ▸ by simp,
    hfirst ▸ List.mem_cons_of_mem _ List.mem_cons_self, hhidden⟩

end Grammar

end GrammarWorkbench
