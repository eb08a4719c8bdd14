import GrammarWorkbench.Proofs.FirstFollow.First

/-!
# FOLLOW is exact

What may follow a non-terminal is said by derivations: a symbol that stands right behind it
in a form that some rule derives, and the end mark if the start symbol derives a form that
ends in it (`Grammar.Follows`).

That the sets hold nothing else is kept by every addition of every pass
(`followSound_followPass`): what an occurrence adds is either a beginning of what stands
behind it, or it follows the left side, and then it follows the occurrence as soon as all
that stands behind has vanished.

That they hold everything comes from the end of the passes, when all alternatives hand on
what they have to (`HandsOn`). This property of a form is kept by the steps of a derivation
(`HandsOn.of_step`), because what is behind a new occurrence is seen either in the
alternative that brought it in, or else behind the non-terminal that was replaced. So a form
derived from a rule hands on as well as an alternative does, and a symbol behind a
non-terminal is seen there.
-/

namespace GrammarWorkbench

/-- A symbol that the input can show: a terminal or the end mark. -/
def Symbol.InInput (s : Symbol) : Prop := (∃ name, s = .terminal name) ∨ s = .endMark

/-- Neither a mark of vanishing nor a non-terminal is in the input. -/
theorem Symbol.InInput.ne_epsilon {s : Symbol} (h : s.InInput) : s ≠ .epsilon := by
  rcases h with ⟨name, rfl⟩ | rfl <;> simp

namespace Grammar

variable {g : Grammar} {t : SetTable} {u v w before after : List Symbol} {a : Symbol}
  {name left start : String} {limit : Nat}

/-- **The symbols that may follow a non-terminal**, in derivations from any rule, and the
end mark behind all that the start symbol derives. -/
def Follows (g : Grammar) (start name : String) (a : Symbol) : Prop :=
  a.InInput ∧
    ((∃ left ∈ g.ruleNames, ∃ before after,
        g.Derives [.nonTerminal left] (before ++ .nonTerminal name :: a :: after))
      ∨ a = .endMark ∧ start ∈ g.ruleNames ∧ ∃ before,
        g.Derives [.nonTerminal start] (before ++ [.nonTerminal name]))

/-- A derivation that does anything starts with a rule. -/
theorem mem_ruleNames_of_derives (h : g.Derives [.nonTerminal name] w) :
    w = [.nonTerminal name] ∨ name ∈ g.ruleNames := by
  induction h with
  | refl => exact Or.inl rfl
  | tail _ hstep ih =>
    rcases ih with hsame | hrule
    · obtain ⟨x, other, y, p, hp⟩ := hstep
      have hother : Symbol.nonTerminal other ∈ [Symbol.nonTerminal name] := by
        rw [← hsame]
        exact List.mem_append_right x List.mem_cons_self
      rw [List.mem_singleton, Symbol.nonTerminal.injEq] at hother
      exact Or.inr (hother ▸ mem_ruleNames_of_mem hp)
    · exact Or.inr hrule

/-- What derives a rule is a rule. -/
theorem mem_ruleNames_of_mem_derived (h : g.Derives [.nonTerminal left] w)
    (hname : name ∈ g.ruleNames) (hmem : Symbol.nonTerminal name ∈ w) : left ∈ g.ruleNames := by
  rcases mem_ruleNames_of_derives h with rfl | hleft
  · rw [List.mem_singleton, Symbol.nonTerminal.injEq] at hmem
    exact hmem ▸ hname
  · exact hleft

/-! ## What an occurrence adds -/

/-- The occurrences that count are the cuts of alternatives at a rule. -/
theorem mem_occurrences {o : Occurrence} :
    o ∈ g.occurrences ↔ o.name ∈ g.ruleNames ∧ ∃ p ∈ g.productions o.left, ∃ before,
      p.body = before ++ .nonTerminal o.name :: o.after := by
  unfold occurrences
  rw [List.mem_filter, isRule_iff, and_comm]
  simp only [List.mem_flatMap, mem_occurrencesIn]
  refine and_congr_right (fun _ => ⟨?_, ?_⟩)
  · rintro ⟨rule, hrule, p, hp, hleft, hcut⟩
    refine ⟨p, ?_, hcut⟩
    rw [hleft, productions_eq_of_mem_entries hrule]
    exact hp
  · rintro ⟨p, hp, hcut⟩
    obtain ⟨rule, hrule, hleft⟩ := List.mem_map.mp (mem_ruleNames_of_mem hp)
    refine ⟨rule, hrule, p, ?_, hleft.symm, hcut⟩
    rw [← productions_eq_of_mem_entries hrule, hleft]
    exact hp

/-- **What is handed on to a non-terminal** with `after` behind it in a form that comes from
`left`: what can be seen next, and what follows `left` if nothing need come. -/
def HandedOn (g : Grammar) (t : SetTable) (left : String) (after : List Symbol)
    (a : Symbol) : Prop :=
  a ∈ firstOfSequence g.firstSets after ∧ a ≠ .epsilon
    ∨ Symbol.epsilon ∈ firstOfSequence g.firstSets after ∧ a ∈ t.setAt left

/-- An occurrence adds what is handed on to it. -/
theorem mem_addition {o : Occurrence} :
    a ∈ (o.sighting g.firstSets).addition t ↔ g.HandedOn t o.left o.after a := by
  show a ∈ (if decide (Symbol.epsilon ∈ firstOfSequence g.firstSets o.after) = true then
      (firstOfSequence g.firstSets o.after).erase .epsilon ∪ t.setAt o.left
    else (firstOfSequence g.firstSets o.after).erase .epsilon) ↔ _
  unfold HandedOn
  split
  · next hvanish =>
    rw [SortedSet.mem_union, SortedSet.mem_erase]
    simp [of_decide_eq_true hvanish]
  · next hstay =>
    rw [decide_eq_true_iff] at hstay
    rw [SortedSet.mem_erase]
    simp [hstay]

/-! ## Nothing else is found -/

/-- **Every member of a set may follow its name.** -/
def FollowSound (g : Grammar) (start : String) (t : SetTable) : Prop :=
  ∀ name a, a ∈ t.setAt name → g.Follows start name a

/-- The beginnings of what stands behind a non-terminal may follow it. -/
theorem Begins.stands_behind (h : g.Begins after a) (hne : a ≠ .epsilon) :
    a.InInput ∧ ∃ rest, g.Derives after (a :: rest) := by
  cases a with
  | nonTerminal name => exact absurd h id
  | epsilon => exact absurd rfl hne
  | terminal name => exact ⟨Or.inl ⟨name, rfl⟩, h⟩
  | endMark => exact ⟨Or.inr rfl, h⟩

/-- What follows a rule follows each non-terminal at the end of its alternatives, also if
what is behind the non-terminal only vanishes. -/
theorem Follows.of_vanish (ha : g.Follows start left a)
    (hp : g.Derives [.nonTerminal left] (before ++ .nonTerminal name :: after))
    (hvanish : g.Derives after []) : g.Follows start name a := by
  have hlast : g.Derives [.nonTerminal left] (before ++ [.nonTerminal name]) := by
    refine hp.trans ?_
    exact (hvanish.append_left [.nonTerminal name]).append_left before
  refine ⟨ha.1, ha.2.imp ?_ ?_⟩
  · rintro ⟨top, htop, x, y, hder⟩
    refine ⟨top, htop, x ++ before, y, hder.trans ?_⟩
    have := (hlast.append_right (a :: y)).append_left x
    simpa [List.append_assoc] using this
  · rintro ⟨hmark, hstart, x, hder⟩
    refine ⟨hmark, hstart, x ++ before, hder.trans ?_⟩
    rw [List.append_assoc]
    exact hlast.append_left x

/-- **What is handed on may follow.** -/
theorem follows_of_handedOn (ht : g.FollowSound start t) {p : Production}
    (hp : p ∈ g.productions left) (hcut : p.body = before ++ .nonTerminal name :: after)
    (ha : g.HandedOn t left after a) : g.Follows start name a := by
  have hder : g.Derives [.nonTerminal left] (before ++ .nonTerminal name :: after) :=
    hcut ▸ Derives.of_mem hp
  have hmark : Symbol.epsilon ∉ after := fun h =>
    p.epsilon_not_mem (hcut ▸ List.mem_append_right before (List.mem_cons_of_mem _ h))
  rcases ha with ⟨hseen, hne⟩ | ⟨hvanish, ha⟩
  · obtain ⟨hinput, rest, hrest⟩ :=
      (g.sound_firstSets.begins_of_mem hmark hseen).stands_behind hne
    refine ⟨hinput, Or.inl ⟨left, mem_ruleNames_of_mem hp, before, rest, hder.trans ?_⟩⟩
    exact (hrest.append_left [.nonTerminal name]).append_left before
  · exact (ht left a ha).of_vanish hder (g.sound_firstSets.begins_of_mem hmark hvanish)

/-- **A pass keeps the sets sound.** -/
theorem followSound_followPass (ht : g.FollowSound start t) :
    g.FollowSound start (followPass (g.sightings g.firstSets) t) := by
  refine Table.growAll_induction (P := g.FollowSound start) (fun seen hseen t' ht' => ?_) ht
  rw [sightings_eq] at hseen
  obtain ⟨o, ho, rfl⟩ := List.mem_map.mp hseen
  obtain ⟨-, p, hp, before, hcut⟩ := mem_occurrences.mp ho
  intro name a ha
  cases Table.mem_setAt_grow.mp ha with
  | inl ha => exact ht' name a ha
  | inr ha =>
    obtain ⟨rfl, hadd⟩ := ha
    exact follows_of_handedOn ht' hp hcut (mem_addition.mp hadd)

/-! ## Before the first pass -/

theorem keys_followSeed (g : Grammar) : g.followSeed.keys = g.ruleNames := by
  unfold followSeed
  split
  · exact g.keys_emptySets
  · split
    · next hrule =>
      rw [Table.keys_grow (g.keys_emptySets ▸ isRule_iff.mp hrule)]
      exact g.keys_emptySets
    · exact g.keys_emptySets

/-- The seed holds the end mark for the start symbol and nothing else. -/
theorem mem_followSeed (hstart : g.start = some start) :
    a ∈ g.followSeed.setAt name ↔ a = .endMark ∧ name = start ∧ start ∈ g.ruleNames := by
  unfold followSeed
  rw [hstart]
  show a ∈ (if g.isRule start = true then _ else _ : SetTable).setAt name ↔ _
  split
  · next hrule =>
    rw [Table.mem_setAt_grow, setAt_emptySets, SortedSet.mem_singleton]
    simp [isRule_iff.mp hrule, and_comm]
  · next hrule =>
    rw [isRule_iff] at hrule
    rw [setAt_emptySets]
    simp [hrule]

theorem followSound_followSeed (hstart : g.start = some start) :
    g.FollowSound start g.followSeed := by
  intro name a ha
  obtain ⟨rfl, rfl, hrule⟩ := (mem_followSeed hstart).mp ha
  exact ⟨Or.inr rfl, Or.inr ⟨rfl, hrule, [], Derives.refl _⟩⟩

/-! ## Everything is found -/

/-- **A form that comes from `left` hands on all it has to**, to each rule that stands in
it. -/
def HandsOn (g : Grammar) (t : SetTable) (left : String) (w : List Symbol) : Prop :=
  ∀ before name after, w = before ++ .nonTerminal name :: after → name ∈ g.ruleNames →
    ∀ a, g.HandedOn t left after a → a ∈ t.setAt name

/-- The end of the passes: every alternative hands on what it has to. -/
def ObeysOccurrences (g : Grammar) (t : SetTable) : Prop :=
  ∀ left, ∀ p ∈ g.productions left, g.HandsOn t left p.body

/-- A form that is more of the same behind hands on less. -/
theorem HandedOn.of_first (h : ∀ a ∈ firstOfSequence g.firstSets u,
    a ∈ firstOfSequence g.firstSets v) (ha : g.HandedOn t left u a) :
    g.HandedOn t left v a :=
  ha.imp (fun ha => ⟨h a ha.1, ha.2⟩) (fun ha => ⟨h _ ha.1, ha.2⟩)

/-- **What is handed on through two pieces** is handed on by the first as if it came from a
rule with the second behind it. -/
theorem HandedOn.of_append {inner : String}
    (hinner : ∀ a, g.HandedOn t left v a → a ∈ t.setAt inner)
    (ha : g.HandedOn t left (u ++ v) a) : g.HandedOn t inner u a := by
  rcases ha with ⟨hseen, hne⟩ | ⟨hvanish, ha⟩
  · rcases mem_firstOfSequence_append.mp hseen with hfront | ⟨hfront, hback⟩
    · exact Or.inl hfront
    · exact Or.inr ⟨hfront, hinner a (Or.inl ⟨hback, hne⟩)⟩
  · rcases mem_firstOfSequence_append.mp hvanish with hfront | ⟨hfront, hback⟩
    · exact absurd rfl hfront.2
    · exact Or.inr ⟨hfront, hinner a (Or.inr ⟨hback, ha⟩)⟩

/-- **A step keeps a form handing on.** -/
theorem HandsOn.of_step (ht : g.ObeysOccurrences t) (hu : g.HandsOn t left u)
    (h : g.Step u v) : g.HandsOn t left v := by
  rintro before name after rfl hname a ha
  cases h.origin with
  | inFront before middle right other p hp =>
    -- less can be seen behind the old occurrence than before the step
    refine hu before name _ rfl hname a (ha.of_first (fun b hb => ?_))
    have hstep := Step.replace middle other right p hp
    rw [List.append_assoc] at hstep
    exact g.obeysRules_firstSets.of_step hstep hb
  | inside x before after right other p hp hbody =>
    refine ht other p hp before name after hbody hname a (ha.of_append (fun b hb => ?_))
    exact hu x other right rfl (mem_ruleNames_of_mem hp) b hb
  | behind before middle after other p hp =>
    refine hu (before ++ .nonTerminal other :: middle) name after ?_ hname a ha
    rw [List.append_assoc, List.cons_append]

/-- **What a rule derives hands on as its alternatives do.** -/
theorem handsOn_of_derives (ht : g.ObeysOccurrences t)
    (h : g.Derives [.nonTerminal left] w) : g.HandsOn t left w := by
  induction h with
  | refl =>
    rintro before name after hcut - a ha
    obtain ⟨hname, rfl⟩ : name = left ∧ after = [] := by
      rcases List.cons_eq_append_iff.mp hcut with ⟨-, hcons⟩ | ⟨_, -, hnil⟩
      · simpa using hcons
      · simp at hnil
    rw [hname]
    rcases ha with ⟨hseen, hne⟩ | ⟨-, ha⟩
    · exact absurd (mem_firstOfSequence_nil.mp hseen) hne
    · exact ha
  | tail _ hstep ih => exact ih.of_step ht hstep

/-- **Everything that may follow a rule is found.** -/
theorem mem_of_follows (hseed : g.followSeed.Within t) (ht : g.ObeysOccurrences t)
    (hstart : g.start = some start) (hname : name ∈ g.ruleNames)
    (ha : g.Follows start name a) : a ∈ t.setAt name := by
  obtain ⟨hinput, ⟨left, -, before, after, hder⟩ | ⟨rfl, hrule, before, hder⟩⟩ := ha
  · refine handsOn_of_derives ht hder before name (a :: after) rfl hname a (Or.inl ⟨?_, ?_⟩)
    · refine mem_firstOfSequence_cons.mpr (Or.inl ⟨?_, hinput.ne_epsilon⟩)
      rcases hinput with ⟨text, rfl⟩ | rfl <;> exact SortedSet.mem_singleton.mpr rfl
    · exact hinput.ne_epsilon
  · refine handsOn_of_derives ht hder before name [] rfl hname _ (Or.inr ⟨?_, ?_⟩)
    · exact mem_firstOfSequence_nil.mpr rfl
    · exact hseed start _ ((mem_followSeed hstart).mpr ⟨rfl, rfl, hrule⟩)

/-! ## The end of the passes -/

/-- A pass that changes nothing leaves sets that obey all occurrences. -/
theorem obeysOccurrences_of_followPass_eq (hk : t.keys = g.ruleNames)
    (h : followPass (g.sightings g.firstSets) t = t) : g.ObeysOccurrences t := by
  intro left p hp before name after hcut hname a ha
  have ho : (⟨left, name, after⟩ : Occurrence) ∈ g.occurrences :=
    mem_occurrences.mpr ⟨hname, p, hp, before, hcut⟩
  refine Table.mem_of_growAll_eq (fun seen hseen => ?_) h
    (sightings_eq g g.firstSets ▸ List.mem_map_of_mem ho) (mem_addition.mpr ha)
  rw [sightings_eq] at hseen
  obtain ⟨o, ho, rfl⟩ := List.mem_map.mp hseen
  exact hk ▸ (mem_occurrences.mp ho).1

theorem keys_followPass (hk : t.keys = g.ruleNames) :
    (followPass (g.sightings g.firstSets) t).keys = g.ruleNames := by
  refine (Table.keys_growAll (fun seen hseen => ?_)).trans hk
  rw [sightings_eq] at hseen
  obtain ⟨o, ho, rfl⟩ := List.mem_map.mp hseen
  exact hk ▸ (mem_occurrences.mp ho).1

/-- The sets of an analysis that succeeds are what the passes settle at. -/
theorem settledFollow?_of_firstFollowWithin {sets : FirstFollow} (hstart : g.start = some start)
    (h : g.firstFollowWithin limit = .ok sets) :
    ∃ passes, g.settledFollow? g.firstSets limit = some (sets.follow, passes) := by
  rw [firstFollowWithin_eq, hstart] at h
  dsimp only at h
  split at h
  · exact absurd h (by simp)
  · next follow passes hsettled =>
    obtain rfl := Except.ok.inj h
    exact ⟨passes, hsettled⟩

/-- The FIRST sets that are answered do not depend on the ceiling. -/
theorem first_of_firstFollowWithin {sets : FirstFollow} (hstart : g.start = some start)
    (h : g.firstFollowWithin limit = .ok sets) : sets.first = g.firstSets := by
  rw [firstFollowWithin_eq, hstart] at h
  dsimp only at h
  split at h
  · exact absurd h (by simp)
  · obtain rfl := Except.ok.inj h
    rfl

/-- The FOLLOW sets that are answered have one entry for each rule. -/
theorem keys_follow_of_firstFollowWithin {sets : FirstFollow} (hstart : g.start = some start)
    (h : g.firstFollowWithin limit = .ok sets) : sets.follow.keys = g.ruleNames := by
  obtain ⟨passes, hsettled⟩ := settledFollow?_of_firstFollowWithin hstart h
  exact inv_of_settle? (P := fun t => t.keys = g.ruleNames) (fun t ht => keys_followPass ht)
    g.keys_followSeed hsettled

/-- **The FOLLOW sets that are answered are exact.** -/
theorem mem_follow_iff {sets : FirstFollow} (hstart : g.start = some start)
    (h : g.firstFollowWithin limit = .ok sets) (hname : name ∈ g.ruleNames) :
    a ∈ sets.follow.setAt name ↔ g.Follows start name a := by
  obtain ⟨passes, hsettled⟩ := settledFollow?_of_firstFollowWithin hstart h
  have hsound : g.FollowSound start sets.follow :=
    inv_of_settle? (fun t ht => followSound_followPass ht) (followSound_followSeed hstart) hsettled
  have hseed : g.followSeed.Within sets.follow :=
    inv_of_settle? (P := g.followSeed.Within) (fun t ht => ht.trans (Table.within_growAll _ _ _ t))
      (Table.Within.refl _) hsettled
  have hobeys : g.ObeysOccurrences sets.follow :=
    obeysOccurrences_of_followPass_eq (keys_follow_of_firstFollowWithin hstart h)
      (step_of_settle? hsettled)
  exact ⟨hsound name a, mem_of_follows hseed hobeys hstart hname⟩

/-! ## Seen from the start symbol -/

/-- A form that `start` derives mentions the name. -/
def Reaches (g : Grammar) (start name : String) : Prop :=
  ∃ before after, g.Derives [.nonTerminal start] (before ++ .nonTerminal name :: after)

/-- **If the start symbol reaches every rule, then what may follow is seen in forms that the
start symbol derives**, with the end mark put behind them. -/
theorem follows_iff_of_reaches (hreach : ∀ left ∈ g.ruleNames, g.Reaches start left)
    (hname : name ∈ g.ruleNames) :
    g.Follows start name a ↔ a.InInput ∧ ∃ w before after,
      g.Derives [.nonTerminal start] w
        ∧ w ++ [.endMark] = before ++ .nonTerminal name :: a :: after := by
  refine and_congr_right (fun _ => ⟨?_, ?_⟩)
  · rintro (⟨left, hleft, before, after, hder⟩ | ⟨rfl, -, before, hder⟩)
    · obtain ⟨x, y, hxy⟩ := hreach left hleft
      refine ⟨_, x ++ before, after ++ y ++ [.endMark],
        hxy.trans ((hder.append_right y).append_left x), ?_⟩
      simp [List.append_assoc]
    · exact ⟨_, before, [], hder, by rw [List.append_assoc]; rfl⟩
  · rintro ⟨w, before, after, hder, hw⟩
    rcases List.eq_nil_or_concat after with rfl | ⟨after, last, rfl⟩
    · -- the symbol is the end mark that was put behind
      have hcut : w ++ [.endMark] = (before ++ [.nonTerminal name]) ++ [a] := by
        rw [hw, List.append_assoc]
        rfl
      obtain ⟨rfl, hlast⟩ := List.append_inj' hcut rfl
      have hrule : start ∈ g.ruleNames :=
        mem_ruleNames_of_mem_derived hder hname (List.mem_append_right before List.mem_cons_self)
      exact Or.inr ⟨(List.cons.inj hlast).1.symm, hrule, before, hder⟩
    · have hcut : w ++ [.endMark]
          = (before ++ .nonTerminal name :: a :: after) ++ [last] := by
        rw [hw, List.concat_eq_append, List.append_assoc]
        rfl
      obtain ⟨rfl, -⟩ := List.append_inj' hcut rfl
      have hrule : start ∈ g.ruleNames :=
        mem_ruleNames_of_mem_derived hder hname (List.mem_append_right before List.mem_cons_self)
      exact Or.inl ⟨start, hrule, before, after, hder⟩

/-- **FOLLOW is exact.** Whenever an analysis succeeds, each rule has a set, and this holds
the symbols that may follow it, read off the derivations of all rules. So no set holds the
mark of vanishing, the set of the start symbol holds the end mark, and if the start symbol
reaches every rule, the sets tell what can stand behind in the forms that it derives. -/
theorem followSets_exact {sets : FirstFollow} (hstart : g.start = some start)
    (h : g.firstFollowWithin limit = .ok sets) :
    sets.follow.keys = g.ruleNames
      ∧ (∀ name ∈ g.ruleNames, ∀ a, a ∈ sets.follow.setAt name ↔ g.Follows start name a)
      ∧ (∀ name, Symbol.epsilon ∉ sets.follow.setAt name)
      ∧ (start ∈ g.ruleNames → Symbol.endMark ∈ sets.follow.setAt start)
      ∧ ((∀ left ∈ g.ruleNames, g.Reaches start left) → ∀ name ∈ g.ruleNames, ∀ a,
        a ∈ sets.follow.setAt name ↔ a.InInput ∧ ∃ w before after,
          g.Derives [.nonTerminal start] w
            ∧ w ++ [.endMark] = before ++ .nonTerminal name :: a :: after) := by
  have hkeys := keys_follow_of_firstFollowWithin hstart h
  refine ⟨hkeys, fun name hname a => mem_follow_iff hstart h hname, fun name hmark => ?_,
    fun hrule => ?_, fun hreach name hname a => ?_⟩
  · have hname : name ∈ g.ruleNames := hkeys ▸ Table.mem_keys_of_mem_setAt hmark
    exact ((mem_follow_iff hstart h hname).mp hmark).1.ne_epsilon rfl
  · refine (mem_follow_iff hstart h hrule).mpr ⟨Or.inr rfl, Or.inr ⟨rfl, hrule, [], ?_⟩⟩
    exact Derives.refl _
  · rw [mem_follow_iff hstart h hname]
    exact follows_iff_of_reaches hreach hname

/-- A grammar in which the start symbol follows a rule that can vanish, and is followed by
what is behind itself. -/
def wrapped : Grammar :=
  ((∅ : Grammar).setProductions "S"
    [.ofSymbols [.nonTerminal "A", .nonTerminal "S", .terminal "b"],
      .epsilon]).setProductions "A" [.ofSymbols [.terminal "a"], .epsilon]

/-- The start symbol of the wrapped grammar reaches both rules. -/
theorem reaches_wrapped : ∀ left ∈ wrapped.ruleNames, wrapped.Reaches "S" left := by
  intro left hleft
  have hnames : wrapped.ruleNames = ["S", "A"] := by decide +kernel
  rw [hnames, List.mem_cons, List.mem_singleton] at hleft
  rcases hleft with rfl | rfl
  · exact ⟨[], [], Derives.refl _⟩
  · have hrule : Production.ofSymbols [.nonTerminal "A", .nonTerminal "S", .terminal "b"]
        ∈ wrapped.productions "S" := by decide +kernel
    exact ⟨[], [.nonTerminal "S", .terminal "b"], Derives.of_mem hrule⟩

/-- The sets of the wrapped grammar are found in three passes and read off derivations. -/
theorem followSets_exact_wrapped :
    ∃ sets, wrapped.start = some "S" ∧ wrapped.firstFollowWithin 3 = .ok sets
      ∧ sets.follow.keys = wrapped.ruleNames
      ∧ (∀ name ∈ wrapped.ruleNames, ∀ a,
        a ∈ sets.follow.setAt name ↔ wrapped.Follows "S" name a)
      ∧ (∀ name, Symbol.epsilon ∉ sets.follow.setAt name)
      ∧ Symbol.endMark ∈ sets.follow.setAt "S"
      ∧ ∀ name ∈ wrapped.ruleNames, ∀ a,
        a ∈ sets.follow.setAt name ↔ a.InInput ∧ ∃ w before after,
          wrapped.Derives [.nonTerminal "S"] w
            ∧ w ++ [.endMark] = before ++ .nonTerminal name :: a :: after := by
  have hstart : wrapped.start = some "S" := by decide +kernel
  have hends : (wrapped.firstFollowWithin 3).toBool = true := by decide +kernel
  cases h : wrapped.firstFollowWithin 3 with
  | error fault => rw [h] at hends; exact absurd hends (by simp [Except.toBool])
  | ok sets =>
    obtain ⟨hkeys, hiff, hmark, hend, hseen⟩ := followSets_exact hstart h
    exact ⟨sets, hstart, rfl, hkeys, hiff, hmark, hend (by decide +kernel),
      hseen reaches_wrapped⟩

end Grammar

end GrammarWorkbench
