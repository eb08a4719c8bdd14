import GrammarWorkbench.Derivation
import GrammarWorkbench.FirstFollow.Analysis
import GrammarWorkbench.Proofs.FirstFollow.Sequence

/-!
# FIRST is exact

What FIRST of a sequence ought to hold is said by derivations: the symbols other than
non-terminals that some derived form begins with, and the mark `ϵ` if the empty form is
derived (`Grammar.Begins`).

That the sets hold nothing else is kept by every single addition of every pass
(`sound_firstPass`). That they hold everything comes from the end of the passes: once a
pass changes nothing, the sets obey all rules (`ObeysRules`), and then a step of a
derivation shows nothing that was not seen before it (`ObeysRules.of_step`). That there
is an end is an instance of the growth of tables: every set is taken from the symbols of
the grammar.

Two grammars can then be compared without derivations. The FIRST sets are contained in all
sets that obey the rules (`ObeysRules.mem_of_mem_firstSets`), and the set of a name holds
just what its alternatives show (`setAt_firstSets_eq`).
-/

namespace GrammarWorkbench

namespace Grammar

/-- **What texts derived from a form begin with**: the mark `ϵ` if the form can vanish,
and every other symbol except a non-terminal if it stands first in a derived form. -/
def Begins (g : Grammar) (w : List Symbol) : Symbol → Prop
  | .epsilon => g.Derives w []
  | .nonTerminal _ => False
  | .terminal name => ∃ rest, g.Derives w (.terminal name :: rest)
  | .endMark => ∃ rest, g.Derives w (.endMark :: rest)

variable {g : Grammar} {t : SetTable} {u v w : List Symbol} {a : Symbol} {name : String}

/-- What a derived form begins with is a beginning of the form itself. -/
theorem Begins.of_derives (h : g.Derives u v) (ha : g.Begins v a) : g.Begins u a := by
  cases a with
  | nonTerminal name => exact ha
  | epsilon => exact h.trans ha
  | terminal name =>
    obtain ⟨rest, hrest⟩ := ha
    exact ⟨rest, h.trans hrest⟩
  | endMark =>
    obtain ⟨rest, hrest⟩ := ha
    exact ⟨rest, h.trans hrest⟩

/-- A beginning is a beginning of every longer form, the mark of vanishing apart. -/
theorem Begins.append (ha : g.Begins u a) (hne : a ≠ .epsilon) (v : List Symbol) :
    g.Begins (u ++ v) a := by
  cases a with
  | nonTerminal name => exact ha
  | epsilon => exact absurd rfl hne
  | terminal name =>
    obtain ⟨rest, hrest⟩ := ha
    exact ⟨rest ++ v, hrest.append_right v⟩
  | endMark =>
    obtain ⟨rest, hrest⟩ := ha
    exact ⟨rest ++ v, hrest.append_right v⟩

/-! ## The table before the first pass -/

theorem keys_emptySets (g : Grammar) : g.emptySets.keys = g.ruleNames := Table.keys_map _ _

theorem setAt_emptySets (g : Grammar) (name : String) : g.emptySets.setAt name = ∅ := by
  unfold Table.setAt emptySets
  rw [Table.get?_map]
  cases g.rules.get? name with
  | none => rfl
  | some ps => rfl

/-! ## Nothing else is found -/

/-- **Every member of a set is a beginning of its name.** -/
def Sound (g : Grammar) (t : SetTable) : Prop :=
  ∀ name a, a ∈ t.setAt name → g.Begins [.nonTerminal name] a

theorem sound_emptySets (g : Grammar) : g.Sound g.emptySets := by
  intro name a ha
  rw [setAt_emptySets] at ha
  exact absurd ha (SortedSet.not_mem_empty a)

theorem Sound.begins_of_mem_firstOfSymbol (ht : g.Sound t) {s : Symbol} (hs : s ≠ .epsilon)
    (ha : a ∈ firstOfSymbol t s) : g.Begins [s] a := by
  cases s with
  | nonTerminal name => exact ht name a ha
  | epsilon => exact absurd rfl hs
  | terminal name =>
    obtain rfl := SortedSet.mem_singleton.mp ha
    exact ⟨[], Derives.refl _⟩
  | endMark =>
    obtain rfl := SortedSet.mem_singleton.mp ha
    exact ⟨[], Derives.refl _⟩

/-- **From sound sets only beginnings are seen.** -/
theorem Sound.begins_of_mem (ht : g.Sound t) (hw : Symbol.epsilon ∉ w)
    (ha : a ∈ firstOfSequence t w) : g.Begins w a := by
  induction w with
  | nil =>
    rw [mem_firstOfSequence_nil.mp ha]
    exact Derives.refl []
  | cons s w ih =>
    have hs : s ≠ .epsilon := fun h => hw (h ▸ List.mem_cons_self)
    cases mem_firstOfSequence_cons.mp ha with
    | inl ha => exact (ht.begins_of_mem_firstOfSymbol hs ha.1).append ha.2 w
    | inr ha =>
      -- the symbol in front vanishes, and the rest of the form is left
      have hvanish : g.Derives [s] [] := ht.begins_of_mem_firstOfSymbol hs ha.1
      have hrest := ih (fun h => hw (List.mem_cons_of_mem _ h)) ha.2
      exact Begins.of_derives (hvanish.append_right w) hrest

/-- **A pass keeps the sets sound.** -/
theorem sound_firstPass (ht : g.Sound t) : g.Sound (g.firstPass t) := by
  refine Table.growAll_induction (fun rule hrule t' ht' name a ha => ?_) ht
  cases Table.mem_setAt_grow.mp ha with
  | inl ha => exact ht' name a ha
  | inr ha =>
    obtain ⟨rfl, hseen⟩ := ha
    obtain ⟨p, hp, hap⟩ := mem_firstOfAlternatives.mp hseen
    have hprod : p ∈ g.productions rule.1 := (productions_eq_of_mem_entries hrule).symm ▸ hp
    exact Begins.of_derives (Derives.of_mem hprod) (ht'.begins_of_mem p.epsilon_not_mem hap)

/-! ## Everything is found -/

/-- **The sets hold what the alternatives show.** -/
def ObeysRules (g : Grammar) (t : SetTable) : Prop :=
  ∀ name, ∀ p ∈ g.productions name, ∀ a ∈ firstOfSequence t p.body, a ∈ t.setAt name

/-- **What is seen after a step was seen before it.** -/
theorem ObeysRules.of_step (ht : g.ObeysRules t) (h : g.Step u v)
    (ha : a ∈ firstOfSequence t v) : a ∈ firstOfSequence t u := by
  obtain ⟨before, name, after, p, hp⟩ := h
  have hname : ∀ a ∈ firstOfSequence t p.body, a ∈ firstOfSequence t [.nonTerminal name] := by
    intro b hb
    rw [firstOfSequence_singleton]
    exact ht name p hp b hb
  -- the forms differ in the middle only, and there the name shows all that the body shows
  rw [List.append_assoc, mem_firstOfSequence_append, mem_firstOfSequence_append] at ha
  rw [show before ++ Symbol.nonTerminal name :: after
    = before ++ ([Symbol.nonTerminal name] ++ after) from rfl, mem_firstOfSequence_append,
    mem_firstOfSequence_append]
  refine ha.imp id (fun ha => ⟨ha.1, ha.2.imp (fun ha => ?_) (fun ha => ?_)⟩)
  · exact ⟨hname a ha.1, ha.2⟩
  · exact ⟨hname _ ha.1, ha.2⟩

theorem ObeysRules.of_derives (ht : g.ObeysRules t) (h : g.Derives u v)
    (ha : a ∈ firstOfSequence t v) : a ∈ firstOfSequence t u := by
  induction h with
  | refl => exact ha
  | tail _ hstep ih => exact ih (ht.of_step hstep ha)

/-- **From sets that obey the rules every beginning is seen.** -/
theorem ObeysRules.mem_of_begins (ht : g.ObeysRules t) (ha : g.Begins w a) :
    a ∈ firstOfSequence t w := by
  cases a with
  | nonTerminal name => exact absurd ha id
  | epsilon => exact ht.of_derives ha (mem_firstOfSequence_nil.mpr rfl)
  | terminal name =>
    obtain ⟨rest, hrest⟩ := ha
    refine ht.of_derives hrest (mem_firstOfSequence_cons.mpr (.inl ⟨?_, by simp⟩))
    exact SortedSet.mem_singleton.mpr rfl
  | endMark =>
    obtain ⟨rest, hrest⟩ := ha
    refine ht.of_derives hrest (mem_firstOfSequence_cons.mpr (.inl ⟨?_, by simp⟩))
    exact SortedSet.mem_singleton.mpr rfl

/-! ## The end of the passes -/

/-- A pass that changes nothing leaves sets that obey the rules. -/
theorem obeysRules_of_firstPass_eq (hk : t.keys = g.ruleNames) (h : g.firstPass t = t) :
    g.ObeysRules t := by
  intro name p hp a ha
  obtain ⟨rule, hrule, rfl⟩ := List.mem_map.mp (mem_ruleNames_of_mem hp)
  rw [productions_eq_of_mem_entries hrule] at hp
  refine Table.mem_of_growAll_eq (fun rule hrule => ?_) h hrule
    (mem_firstOfAlternatives.mpr ⟨p, hp, ha⟩)
  exact hk ▸ mem_ruleNames_of_mem_entries hrule

/-- What alternatives show is taken from the symbols of the grammar. -/
theorem mem_firstUniverse {rule : String × List Production} (hrule : rule ∈ g.rules.entries)
    (ht : t.MembersIn g.firstUniverse) (ha : a ∈ firstOfAlternatives t rule.2) :
    a ∈ g.firstUniverse := by
  obtain ⟨p, hp, hap⟩ := mem_firstOfAlternatives.mp ha
  refine mem_of_mem_firstOfSequence ht (fun s hs => ?_) List.mem_cons_self hap
  refine List.mem_cons_of_mem _ (List.mem_flatMap.mpr ⟨p, ?_, hs⟩)
  exact mem_alternatives.mpr ⟨rule.1, (productions_eq_of_mem_entries hrule).symm ▸ hp⟩

/-- **The passes come to an end.** -/
theorem exists_settledFirst? (g : Grammar) : ∃ r, g.settledFirst? = some r := by
  refine Table.exists_settle?_growAll g.firstUniverse (fun rule hrule => ?_) ?_
    (fun rule hrule t ht a ha => mem_firstUniverse hrule ht ha) ?_
  · exact g.keys_emptySets ▸ mem_ruleNames_of_mem_entries hrule
  · intro name a ha
    rw [setAt_emptySets] at ha
    exact absurd ha (SortedSet.not_mem_empty a)
  · show g.emptySets.keys.length * g.firstUniverse.length < g.firstPassLimit
    rw [keys_emptySets, ruleNames, Table.keys, List.length_map]
    exact Nat.lt_succ_self _

/-- **The FIRST sets are what the passes settle at.** -/
theorem settledFirst?_eq (g : Grammar) : g.settledFirst? = some g.settledFirst := by
  obtain ⟨r, hr⟩ := g.exists_settledFirst?
  unfold settledFirst
  rw [hr]
  rfl

theorem sound_firstSets (g : Grammar) : g.Sound g.firstSets :=
  inv_of_settle? (P := g.Sound) (fun _ => sound_firstPass) g.sound_emptySets g.settledFirst?_eq

/-- There is one FIRST set for each rule. -/
theorem keys_firstSets (g : Grammar) : g.firstSets.keys = g.ruleNames := by
  refine inv_of_settle? (P := fun t => t.keys = g.ruleNames) (fun t ht => ?_)
    g.keys_emptySets g.settledFirst?_eq
  exact (Table.keys_growAll fun rule hrule => ht ▸ mem_ruleNames_of_mem_entries hrule).trans ht

theorem obeysRules_firstSets (g : Grammar) : g.ObeysRules g.firstSets :=
  obeysRules_of_firstPass_eq g.keys_firstSets (step_of_settle? g.settledFirst?_eq)

/-- **FIRST of a sequence holds what the sequence begins with**, marks left out. -/
theorem mem_firstOfSequence_firstSets_iff :
    a ∈ firstOfSequence g.firstSets w ↔ g.Begins (Production.ofSymbols w).body a := by
  rw [← firstOfSequence_filter, ← Production.body_ofSymbols]
  exact ⟨g.sound_firstSets.begins_of_mem (Production.epsilon_not_mem _),
    g.obeysRules_firstSets.mem_of_begins⟩

/-- **FIRST of a rule holds what its texts begin with.** -/
theorem mem_setAt_firstSets_iff :
    a ∈ g.firstSets.setAt name ↔ g.Begins [.nonTerminal name] a := by
  have hsymbol : firstOfSequence g.firstSets [.nonTerminal name] = g.firstSets.setAt name :=
    firstOfSequence_singleton _ _
  rw [← hsymbol, mem_firstOfSequence_firstSets_iff]
  rfl

/-! ## The least sets -/

/-- **The FIRST sets are contained in all sets that obey the rules.** -/
theorem ObeysRules.mem_of_mem_firstSets (ht : g.ObeysRules t)
    (ha : a ∈ g.firstSets.setAt name) : a ∈ t.setAt name := by
  have hseen := ht.mem_of_begins (mem_setAt_firstSets_iff.mp ha)
  rwa [firstOfSequence_singleton] at hseen

/-- **FIRST of a rule is what its alternatives show.** What they show obeys the rules, too,
so the least sets are contained in it. -/
theorem setAt_firstSets_eq (g : Grammar) (name : String) :
    g.firstSets.setAt name = firstOfAlternatives g.firstSets (g.productions name) := by
  let shown : SetTable := g.rules.map (firstOfAlternatives g.firstSets)
  have hshown : ∀ name, shown.setAt name
      = firstOfAlternatives g.firstSets (g.productions name) := by
    intro name
    unfold shown Table.setAt productions
    rw [Table.get?_map]
    cases g.rules.get? name <;> rfl
  have hfound : ∀ name a, a ∈ shown.setAt name → a ∈ g.firstSets.setAt name := by
    intro name a ha
    obtain ⟨p, hp, hap⟩ := mem_firstOfAlternatives.mp (hshown name ▸ ha)
    exact g.obeysRules_firstSets name p hp a hap
  have hobeys : g.ObeysRules shown := by
    intro name p hp a ha
    rw [hshown]
    exact mem_firstOfAlternatives.mpr
      ⟨p, hp, mem_firstOfSequence_mono (fun name _ => hfound name) ha⟩
  rw [← hshown]
  exact SortedSet.ext fun a => ⟨hobeys.mem_of_mem_firstSets, hfound name a⟩

/-! ## What the sets tell -/

/-- **FIRST is exact.** The passes come to an end, whatever the rules are; and from what
they end with, the set of every sequence, of every name and the vanishing of names can be
read off. Marks in a sequence count as nothing, and a name without rule derives
nothing. -/
theorem firstSets_exact (g : Grammar) :
    (∃ passes, ∀ limit, settle? g.firstPass limit g.emptySets
        = if passes ≤ limit then some (g.firstSets, passes) else none)
      ∧ (∀ limit, (g.firstFollowWithin limit).map FirstFollow.first
        = (g.firstFollowWithin limit).map fun _ => g.firstSets)
      ∧ ∀ follow, let sets : FirstFollow := ⟨g.firstSets, follow⟩
        (∀ w a, a ∈ sets.ofSequence w ↔ g.Begins (Production.ofSymbols w).body a)
        ∧ (∀ name, sets.first.setAt name = sets.ofSequence [.nonTerminal name])
        ∧ ∀ name, sets.isNullable name = true ↔ g.Derives [.nonTerminal name] [] := by
  refine ⟨⟨g.settledFirst.2, ?_⟩, fun limit => ?_, fun follow => ⟨?_, ?_, fun name => ?_⟩⟩
  · exact settle?_eq_ite g.settledFirst?_eq
  · rw [firstFollowWithin_eq]
    cases g.start with
    | none => rfl
    | some s => cases g.settledFollow? g.firstSets limit <;> rfl
  · exact fun w a => mem_firstOfSequence_firstSets_iff
  · exact fun name => (firstOfSequence_singleton g.firstSets (.nonTerminal name)).symm
  · show decide (Symbol.epsilon ∈ firstOfSymbol g.firstSets (.nonTerminal name)) = true ↔ _
    rw [decide_eq_true_iff, ← firstOfSequence_singleton]
    exact mem_firstOfSequence_firstSets_iff

end Grammar

end GrammarWorkbench
