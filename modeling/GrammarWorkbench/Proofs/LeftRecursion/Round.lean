import GrammarWorkbench.LeftRecursion

/-!
# One round of an elimination

What later proofs need to know of a round is said here once. Between two rounds every
rule is either processed or pending, and none is both (`Ordered`); so the rule whose
turn it is has not been processed before, and a round leaves the processed rules
alone. `round_effect` lists the two things that a round can do: it drops useless
alternatives of its rule, or it splits the rule in two with a new helper. All
symbols in what comes out were there before, or mention the helper
(`uses_of_uses_round`), so a closed grammar stays closed (`closed_round`).
-/

namespace GrammarWorkbench

namespace Production

variable {p : Production} {name : String}

theorem startsWith_false_iff :
    p.startsWith name = false ↔ ∀ rest, p.body ≠ Symbol.nonTerminal name :: rest := by
  rw [← Bool.not_eq_true, startsWith_iff, not_exists]

/-- An alternative that begins with a name is that name and its tail. -/
theorem body_eq_of_startsWith (h : p.startsWith name = true) :
    p.body = Symbol.nonTerminal name :: (p.suffix 1).body := by
  obtain ⟨rest, hrest⟩ := startsWith_iff.mp h
  rw [body_suffix, hrest]
  rfl

end Production

namespace Grammar

variable {g : Grammar} {a : Symbol}

/-- **Replacing leading references brings no new symbol in.** -/
theorem uses_of_mem_substituteLeading {inner : String} {ps : List Production} {q : Production}
    (hq : q ∈ g.substituteLeading ps inner) (ha : a ∈ q.body) :
    (∃ p ∈ ps, a ∈ p.body) ∨ g.Uses a := by
  rw [substituteLeading_eq, Production.mem_expandLeading] at hq
  rcases hq with ⟨hq, -⟩ | ⟨p, hp, -, beta, hbeta, rfl⟩
  · exact Or.inl ⟨q, hq, ha⟩
  · rw [Production.body_append, List.mem_append] at ha
    rcases ha with ha | ha
    · exact Or.inr (uses_iff.mpr ⟨inner, beta, hbeta, ha⟩)
    · exact Or.inl ⟨p, hp, Production.mem_body_suffix ha⟩

theorem uses_of_mem_foldl_substituteLeading {inners : List String} {ps : List Production}
    {q : Production} (hq : q ∈ inners.foldl g.substituteLeading ps) (ha : a ∈ q.body) :
    (∃ p ∈ ps, a ∈ p.body) ∨ g.Uses a := by
  induction inners generalizing ps with
  | nil => exact Or.inl ⟨q, hq, ha⟩
  | cons inner inners ih =>
    rcases ih hq with ⟨p, hp, ha⟩ | huse
    · exact uses_of_mem_substituteLeading hp ha
    · exact Or.inr huse

end Grammar

namespace Elimination

/-- **Every rule is processed or pending, and only once.** -/
def Ordered (s : Elimination) : Prop :=
  (s.processed ++ s.pending).Perm s.grammar.ruleNames

/-- The name that a helper would get in the next round. -/
def helper (s : Elimination) : String := (s.names.fresh s.grammar).1

variable {s : Elimination} {left : String} {rest : List String}

theorem helper_not_mem (s : Elimination) : s.helper ∉ s.grammar.ruleNames :=
  s.names.fresh_not_mem s.grammar

theorem ordered_start (g : Grammar) (names : NameAllocator) : (start g names).Ordered :=
  List.mergeSort_perm g.ruleNames _

namespace Ordered

theorem mem_iff (hs : s.Ordered) {name : String} :
    name ∈ s.grammar.ruleNames ↔ name ∈ s.processed ∨ name ∈ s.pending := by
  rw [← List.Perm.mem_iff hs, List.mem_append]

theorem nodup (hs : s.Ordered) : (s.processed ++ s.pending).Nodup :=
  (List.Perm.nodup_iff hs).mpr s.grammar.nodup_ruleNames

/-- The rule whose turn it is was not processed before. -/
theorem not_mem_processed (hs : s.Ordered) (hpending : s.pending = left :: rest) :
    left ∉ s.processed := by
  intro hleft
  have hdisjoint := (List.nodup_append.mp hs.nodup).2.2
  exact hdisjoint left hleft left (hpending ▸ List.mem_cons_self) rfl

/-- The rule whose turn it is has a rule. -/
theorem mem_ruleNames (hs : s.Ordered) (hpending : s.pending = left :: rest) :
    left ∈ s.grammar.ruleNames :=
  hs.mem_iff.mpr (Or.inr (hpending ▸ List.mem_cons_self))

theorem processed_subset (hs : s.Ordered) {name : String} (h : name ∈ s.processed) :
    name ∈ s.grammar.ruleNames :=
  hs.mem_iff.mpr (Or.inl h)

end Ordered

/-- What an expansion uses, the grammar uses. -/
theorem uses_of_mem_expanded {q : Production} {a : Symbol} (hq : q ∈ s.expanded left)
    (ha : a ∈ q.body) : s.grammar.Uses a := by
  rcases Grammar.uses_of_mem_foldl_substituteLeading hq ha with ⟨p, hp, ha⟩ | huse
  · exact Grammar.uses_iff.mpr ⟨left, p, hp, ha⟩
  · exact huse

theorem isRewritten_eq_false_iff :
    s.isRewritten left = false ↔ ∀ name ∈ s.processed ++ [left],
      ∀ p ∈ s.grammar.productions left, p.startsWith name = false := by
  unfold isRewritten
  simp only [List.any_eq_false, Bool.not_eq_true]
  exact ⟨fun h name hname p hp => h p hp name hname, fun h p hp name hname => h name hname p hp⟩

/-- **A rule that is not written anew** has nothing to expand. -/
theorem expanded_of_isRewritten_eq_false (h : s.isRewritten left = false) :
    s.expanded left = s.grammar.productions left := by
  have hnone := isRewritten_eq_false_iff.mp h
  have hfold : ∀ inners ⊆ s.processed,
      inners.foldl s.grammar.substituteLeading (s.grammar.productions left)
        = s.grammar.productions left := by
    intro inners
    induction inners with
    | nil => exact fun _ => rfl
    | cons inner inners ih =>
      intro hsub
      obtain ⟨hinner, hsub⟩ := List.cons_subset.mp hsub
      rw [List.foldl_cons, Grammar.substituteLeading_of_forall
        (hnone inner (List.mem_append_left _ hinner)), ih hsub]
  exact hfold _ (List.Subset.refl _)

/-- Nor has it anything to drop. -/
theorem nonRecursive_expanded (h : s.isRewritten left = false) :
    Production.nonRecursive left (s.expanded left) = s.grammar.productions left := by
  rw [expanded_of_isRewritten_eq_false h]
  refine List.filter_eq_self.mpr fun p hp => ?_
  rw [isRewritten_eq_false_iff.mp h left (List.mem_append_right _ List.mem_cons_self) p hp]
  rfl

/-- **What needs a helper is written anew.** -/
theorem isRewritten_of_tails_ne_nil
    (htails : Production.recursiveTails left (s.expanded left) ≠ []) :
    s.isRewritten left = true := by
  cases hkept : s.isRewritten left with
  | true => rfl
  | false =>
    obtain ⟨alpha, halpha⟩ := List.exists_mem_of_ne_nil _ htails
    obtain ⟨-, p, hp, hlead, -⟩ := Production.mem_recursiveTails.mp halpha
    rw [expanded_of_isRewritten_eq_false hkept] at hp
    rw [isRewritten_eq_false_iff.mp hkept left (List.mem_append_right _ List.mem_cons_self) p hp]
      at hlead
    exact absurd hlead Bool.false_ne_true

/-! ## The effect of a round -/

/-- **What a round can do** when it is the turn of `left`. -/
inductive RoundEffect (s : Elimination) (left : String) (rest : List String)
    (t : Elimination) : Prop where
  /-- Nothing is recursive but useless alternatives, and these are dropped. -/
  | dropped (tails_eq : Production.recursiveTails left (s.expanded left) = [])
      (pending_eq : t.pending = rest)
      (ruleNames_eq : t.grammar.ruleNames = s.grammar.ruleNames)
      (productions_eq : ∀ name, t.grammar.productions name
        = if name = left then Production.nonRecursive left (s.expanded left)
          else s.grammar.productions name)
  /-- The rule hands its recursion over to a helper. -/
  | split (tails_ne : Production.recursiveTails left (s.expanded left) ≠ [])
      (pending_eq : t.pending = rest ++ [s.helper])
      (ruleNames_eq : t.grammar.ruleNames = s.grammar.ruleNames ++ [s.helper])
      (productions_eq : ∀ name, t.grammar.productions name
        = if name = s.helper then
            (Production.recursiveTails left (s.expanded left)).map
              (fun p => p.push (.nonTerminal s.helper)) ++ [Production.epsilon]
          else if name = left then
            (Production.nonRecursive left (s.expanded left)).map
              (fun p => p.push (.nonTerminal s.helper))
          else s.grammar.productions name)

/-- Without recursion no helper is needed. -/
theorem eliminateDirect_of_tails_eq_nil {ps : List Production}
    (htails : Production.recursiveTails left ps = []) :
    s.eliminateDirect left ps
      = if s.isRewritten left then
          { s with grammar := s.grammar.setProductions left (Production.nonRecursive left ps) }
        else s := by
  unfold eliminateDirect
  rw [htails]
  rfl

/-- With recursion the rule is split in two. -/
theorem eliminateDirect_of_tails_ne_nil {ps : List Production}
    (htails : Production.recursiveTails left ps ≠ []) :
    s.eliminateDirect left ps
      = { s with
          grammar := (s.grammar.setProductions left ((Production.nonRecursive left ps).map
              (fun p => p.push (.nonTerminal s.helper)))).setProductions s.helper
            ((Production.recursiveTails left ps).map (fun p => p.push (.nonTerminal s.helper))
              ++ [Production.epsilon])
          names := (s.names.fresh s.grammar).2
          pending := s.pending ++ [s.helper] } := by
  unfold eliminateDirect
  dsimp only
  rw [if_neg (by rwa [List.isEmpty_iff])]
  rfl

theorem processed_eliminateDirect (s : Elimination) (left : String) (ps : List Production) :
    (s.eliminateDirect left ps).processed = s.processed := by
  by_cases htails : Production.recursiveTails left ps = []
  · rw [eliminateDirect_of_tails_eq_nil htails]
    split <;> rfl
  · rw [eliminateDirect_of_tails_ne_nil htails]

/-- A round takes the first pending rule, and its expansion looks at processed rules
only. -/
theorem round_eq (hpending : s.pending = left :: rest) :
    s.round = { ({ s with pending := rest } : Elimination).eliminateDirect left
      (s.expanded left) with processed := s.processed ++ [left] } := by
  unfold round
  rw [hpending]
  dsimp only
  rw [processed_eliminateDirect]

theorem processed_round (hpending : s.pending = left :: rest) :
    s.round.processed = s.processed ++ [left] := by
  rw [round_eq hpending]

/-- **Every round has one of the two effects.** -/
theorem round_effect (hs : s.Ordered) (hpending : s.pending = left :: rest) :
    RoundEffect s left rest s.round := by
  have hleft := hs.mem_ruleNames hpending
  rw [round_eq hpending]
  by_cases htails : Production.recursiveTails left (s.expanded left) = []
  · rw [eliminateDirect_of_tails_eq_nil htails]
    split
    · refine RoundEffect.dropped htails rfl ?_ (fun name => ?_)
      · show (s.grammar.setProductions left _).ruleNames = _
        rw [Grammar.ruleNames_setProductions, if_pos hleft]
      · exact Grammar.productions_setProductions s.grammar left name _
    · next hkept =>
      have hsame := nonRecursive_expanded (s := s) (Bool.eq_false_iff.mpr hkept)
      refine RoundEffect.dropped htails rfl rfl (fun name => ?_)
      split
      · next hname => rw [hname, hsame]
      · rfl
  · rw [eliminateDirect_of_tails_ne_nil htails]
    refine RoundEffect.split htails rfl ?_ (fun name => ?_)
    · show ((s.grammar.setProductions left _).setProductions s.helper _).ruleNames = _
      rw [Grammar.ruleNames_setProductions, Grammar.ruleNames_setProductions, if_pos hleft,
        if_neg s.helper_not_mem]
    · show ((s.grammar.setProductions left _).setProductions s.helper _).productions name = _
      rw [Grammar.productions_setProductions, Grammar.productions_setProductions]
      rfl

/-- A round leaves the rules alone whose turn it is not. -/
theorem productions_round_of_ne (hs : s.Ordered) (hpending : s.pending = left :: rest)
    {name : String} (hname : name ∈ s.grammar.ruleNames) (hne : name ≠ left) :
    s.round.grammar.productions name = s.grammar.productions name := by
  cases round_effect hs hpending with
  | dropped _ _ _ productions_eq => rw [productions_eq, if_neg hne]
  | split _ _ _ productions_eq =>
    rw [productions_eq, if_neg (fun h : name = s.helper => s.helper_not_mem (h ▸ hname)),
      if_neg hne]

/-- **Where an alternative comes from** that stands in the table after a round. -/
inductive Origin (s : Elimination) (left : String) : String → Production → Prop where
  /-- It was there before, in another rule. -/
  | kept {name : String} {q : Production} (hne : name ≠ left)
      (hq : q ∈ s.grammar.productions name) : Origin s left name q
  /-- It is an expanded alternative of the rule. -/
  | expanded {q : Production} (hq : q ∈ s.expanded left) (hnot : q.startsWith left = false) :
      Origin s left left q
  /-- It is an expanded alternative of the rule that hands over to the helper. -/
  | handing {p : Production} (hp : p ∈ s.expanded left) (hnot : p.startsWith left = false)
      (htails : Production.recursiveTails left (s.expanded left) ≠ []) :
      Origin s left left (p.push (.nonTerminal s.helper))
  /-- It goes round once more in the helper. -/
  | tail {alpha : Production}
      (halpha : alpha ∈ Production.recursiveTails left (s.expanded left)) :
      Origin s left s.helper (alpha.push (.nonTerminal s.helper))
  /-- It lets the helper vanish. -/
  | stop (htails : Production.recursiveTails left (s.expanded left) ≠ []) :
      Origin s left s.helper Production.epsilon

/-- **Every alternative after a round has an origin.** -/
theorem origin_of_mem_round (hs : s.Ordered) (hpending : s.pending = left :: rest)
    {name : String} {q : Production} (hq : q ∈ s.round.grammar.productions name) :
    Origin s left name q := by
  cases round_effect hs hpending with
  | dropped _ _ _ productions_eq =>
    rw [productions_eq] at hq
    split at hq
    · next hname =>
      subst hname
      obtain ⟨hq, hnot⟩ := Production.mem_nonRecursive.mp hq
      exact Origin.expanded hq hnot
    · next hname => exact Origin.kept hname hq
  | split tails_ne _ _ productions_eq =>
    rw [productions_eq] at hq
    split at hq
    · next hname =>
      subst hname
      rw [List.mem_append, List.mem_singleton] at hq
      rcases hq with hq | rfl
      · obtain ⟨alpha, halpha, rfl⟩ := List.mem_map.mp hq
        exact Origin.tail halpha
      · exact Origin.stop tails_ne
    · split at hq
      · next hname =>
        subst hname
        obtain ⟨p, hp, rfl⟩ := List.mem_map.mp hq
        obtain ⟨hp, hnot⟩ := Production.mem_nonRecursive.mp hp
        exact Origin.handing hp hnot tails_ne
      · next hname => exact Origin.kept hname hq

/-! ## What every round keeps -/

theorem ordered_round (hs : s.Ordered) : s.round.Ordered := by
  cases hpending : s.pending with
  | nil => rw [round_of_finished hpending]; exact hs
  | cons left rest =>
    have hold : (s.processed ++ [left] ++ rest).Perm s.grammar.ruleNames := by
      rw [List.append_assoc, List.singleton_append, ← hpending]
      exact hs
    unfold Ordered
    rw [processed_round hpending]
    cases round_effect hs hpending with
    | dropped _ pending_eq ruleNames_eq _ =>
      rw [pending_eq, ruleNames_eq]
      exact hold
    | split _ pending_eq ruleNames_eq _ =>
      rw [pending_eq, ruleNames_eq, ← List.append_assoc]
      exact hold.append_right _

/-- No rule disappears. -/
theorem mem_ruleNames_round (hs : s.Ordered) {name : String} (h : name ∈ s.grammar.ruleNames) :
    name ∈ s.round.grammar.ruleNames := by
  cases hpending : s.pending with
  | nil => rw [round_of_finished hpending]; exact h
  | cons left rest =>
    cases round_effect hs hpending with
    | dropped _ _ ruleNames_eq _ => rw [ruleNames_eq]; exact h
    | split _ _ ruleNames_eq _ => rw [ruleNames_eq]; exact List.mem_append_left _ h

/-- What needs a helper puts its rule in. -/
theorem helper_mem_ruleNames_round (hs : s.Ordered) (hpending : s.pending = left :: rest)
    (htails : Production.recursiveTails left (s.expanded left) ≠ []) :
    s.helper ∈ s.round.grammar.ruleNames := by
  cases round_effect hs hpending with
  | dropped tails_eq _ _ _ => exact absurd tails_eq htails
  | split _ _ ruleNames_eq _ =>
    rw [ruleNames_eq]
    exact List.mem_append_right _ List.mem_cons_self

/-- **What is used after a round was used before, or is the new helper.** -/
theorem uses_of_uses_round (hs : s.Ordered) {a : Symbol} (h : s.round.grammar.Uses a) :
    s.grammar.Uses a ∨ a = .nonTerminal s.helper ∧ s.helper ∈ s.round.grammar.ruleNames := by
  cases hpending : s.pending with
  | nil => rw [round_of_finished hpending] at h; exact Or.inl h
  | cons left rest =>
    obtain ⟨name, q, hq, ha⟩ := Grammar.uses_iff.mp h
    have hhelper := helper_mem_ruleNames_round hs hpending
    cases origin_of_mem_round hs hpending hq with
    | kept _ hq => exact Or.inl (Grammar.uses_iff.mpr ⟨name, q, hq, ha⟩)
    | expanded hq _ => exact Or.inl (uses_of_mem_expanded hq ha)
    | handing hp _ htails =>
      rw [Production.body_push_nonTerminal, List.mem_append, List.mem_singleton] at ha
      exact ha.imp (uses_of_mem_expanded hp) fun heq => ⟨heq, hhelper htails⟩
    | tail halpha =>
      have htails := List.ne_nil_of_mem halpha
      obtain ⟨_, p, hp, _, rfl⟩ := Production.mem_recursiveTails.mp halpha
      rw [Production.body_push_nonTerminal, List.mem_append, List.mem_singleton] at ha
      exact ha.imp (fun ha => uses_of_mem_expanded hp (Production.mem_body_suffix ha))
        fun heq => ⟨heq, hhelper htails⟩
    | stop _ => exact absurd ha List.not_mem_nil

/-- A start symbol is kept. -/
theorem start_round {start : String} (h : s.grammar.start = some start) :
    s.round.grammar.start = some start := by
  unfold round eliminateDirect
  dsimp only
  split
  · exact h
  · split
    · split
      · exact Grammar.start_setProductions_of_some h _ _
      · exact h
    · exact Grammar.start_setProductions_of_some
        (Grammar.start_setProductions_of_some h _ _) _ _

/-- **A closed grammar stays closed.** -/
theorem closed_round (hs : s.Ordered) (hclosed : s.grammar.Closed) : s.round.grammar.Closed := by
  intro name hname
  rcases uses_of_uses_round hs hname with hname | ⟨heq, hhelper⟩
  · exact mem_ruleNames_round hs (hclosed name hname)
  · obtain rfl := Symbol.nonTerminal.inj heq
    exact hhelper

theorem ordered_rounds (hs : s.Ordered) (n : Nat) : (rounds n s).Ordered := by
  induction n generalizing s with
  | zero => exact hs
  | succ n ih => exact ih (ordered_round hs)

/-- So it does in any number of rounds. -/
theorem closed_rounds (hs : s.Ordered) (hclosed : s.grammar.Closed) (n : Nat) :
    (rounds n s).grammar.Closed := by
  induction n generalizing s with
  | zero => exact hclosed
  | succ n ih => exact ih (ordered_round hs) (closed_round hs hclosed)

end Elimination

/-- An elimination that is finished after so many rounds answers with the state
reached. -/
theorem Grammar.eliminated_of_finished {g : Grammar} {names : NameAllocator} {n : Nat}
    (hn : n ≤ g.eliminationLimit)
    (h : (Elimination.rounds n (Elimination.start g names)).pending = []) :
    g.eliminateLeftRecursionWith names
      = .ok (Elimination.rounds n (Elimination.start g names)) := by
  unfold eliminateLeftRecursionWith
  rw [Elimination.run?_of_finished hn h]

/-- **What an elimination answers is the state after some number of rounds**, with
nothing pending. -/
theorem Grammar.exists_rounds_of_eliminated {g : Grammar} {names : NameAllocator}
    {done : Elimination} (h : g.eliminateLeftRecursionWith names = .ok done) :
    ∃ n, done = Elimination.rounds n (Elimination.start g names) ∧ done.pending = [] := by
  unfold eliminateLeftRecursionWith at h
  split at h
  · next t ht =>
    obtain ⟨hrounds, hpending⟩ := Elimination.run?_eq_some_iff.mp ht
    obtain rfl := Except.ok.inj h
    exact ⟨_, hrounds, hpending⟩
  · exact absurd h (by simp)

end GrammarWorkbench
