import GrammarWorkbench.FirstFollow.Analysis
import GrammarWorkbench.Proofs.FirstFollow.Growth

/-!
# Laws of FIRST of a sequence

FIRST of a sequence is found from given sets of names, whether these are those of a
grammar or not. What can be seen in front of two sequences put side by side is what
can be seen in front of the first, and behind it only if all of the first can vanish
(`firstOfSequence_append`). The mark `ϵ` is seen through wherever it stands
(`firstOfSequence_filter`). Larger sets show more (`mem_firstOfSequence_mono`), although a
name that gains the mark no longer hides what is behind it; and nothing is seen that is
neither in the sequence nor in one of the sets (`mem_of_mem_firstOfSequence`).
-/

namespace GrammarWorkbench

variable {t : SetTable} {s a : Symbol} {l m : List Symbol}

theorem mem_firstOfSequence_nil : a ∈ firstOfSequence t [] ↔ a = .epsilon :=
  SortedSet.mem_singleton

theorem mem_seenThrough {front behind : SymbolSet} :
    a ∈ seenThrough front behind
      ↔ a ∈ front ∧ a ≠ .epsilon ∨ Symbol.epsilon ∈ front ∧ a ∈ behind := by
  unfold seenThrough
  split
  · next hvanish =>
    rw [SortedSet.mem_union, SortedSet.mem_erase]
    simp [hvanish]
  · next hstay =>
    simp only [hstay, false_and, or_false]
    refine ⟨fun ha => ⟨ha, fun heq => hstay (heq ▸ ha)⟩, And.left⟩

theorem mem_firstOfSequence_cons :
    a ∈ firstOfSequence t (s :: l)
      ↔ a ∈ firstOfSymbol t s ∧ a ≠ .epsilon
        ∨ Symbol.epsilon ∈ firstOfSymbol t s ∧ a ∈ firstOfSequence t l := by
  rw [firstOfSequence_cons, mem_seenThrough]

/-- Members of FIRST of two sequences side by side. -/
theorem mem_firstOfSequence_append :
    a ∈ firstOfSequence t (l ++ m)
      ↔ a ∈ firstOfSequence t l ∧ a ≠ .epsilon
        ∨ Symbol.epsilon ∈ firstOfSequence t l ∧ a ∈ firstOfSequence t m := by
  induction l with
  | nil =>
    simp only [List.nil_append, mem_firstOfSequence_nil, true_and]
    exact ⟨.inr, fun h => h.elim (fun hne => absurd hne.1 hne.2) id⟩
  | cons s l ih =>
    rw [List.cons_append, mem_firstOfSequence_cons, ih, mem_firstOfSequence_cons,
      mem_firstOfSequence_cons]
    simp only [ne_eq, not_true_eq_false, and_false, false_or]
    constructor
    · rintro (ha | ⟨hs, ha | ⟨hl, ha⟩⟩)
      · exact .inl ⟨.inl ha, ha.2⟩
      · exact .inl ⟨.inr ⟨hs, ha.1⟩, ha.2⟩
      · exact .inr ⟨⟨hs, hl⟩, ha⟩
    · rintro (⟨ha | ⟨hs, ha⟩, hne⟩ | ⟨⟨hs, hl⟩, ha⟩)
      · exact .inl ha
      · exact .inr ⟨hs, .inl ⟨ha, hne⟩⟩
      · exact .inr ⟨hs, .inr ⟨hl, ha⟩⟩

/-- **FIRST of two sequences side by side.** -/
theorem firstOfSequence_append (t : SetTable) (l m : List Symbol) :
    firstOfSequence t (l ++ m) = seenThrough (firstOfSequence t l) (firstOfSequence t m) :=
  SortedSet.ext fun _ => mem_firstOfSequence_append.trans mem_seenThrough.symm

/-- FIRST of one symbol. -/
theorem firstOfSequence_singleton (t : SetTable) (s : Symbol) :
    firstOfSequence t [s] = firstOfSymbol t s := by
  refine SortedSet.ext (fun a => ?_)
  rw [mem_firstOfSequence_cons, mem_firstOfSequence_nil]
  by_cases ha : a = .epsilon
  · subst ha
    simp
  · simp [ha]

/-- **Larger sets show more**; only the names that the sequence mentions count. -/
theorem mem_firstOfSequence_mono {t' : SetTable}
    (h : ∀ name, Symbol.nonTerminal name ∈ l → ∀ b, b ∈ t.setAt name → b ∈ t'.setAt name)
    (ha : a ∈ firstOfSequence t l) : a ∈ firstOfSequence t' l := by
  induction l with
  | nil => exact ha
  | cons s l ih =>
    have hfront : ∀ b, b ∈ firstOfSymbol t s → b ∈ firstOfSymbol t' s := by
      cases s with
      | nonTerminal name => exact h name List.mem_cons_self
      | terminal name => exact fun b hb => hb
      | epsilon => exact fun b hb => hb
      | endMark => exact fun b hb => hb
    have hrest := ih fun name hname => h name (List.mem_cons_of_mem _ hname)
    rw [mem_firstOfSequence_cons] at ha ⊢
    exact ha.imp (fun ha => ⟨hfront a ha.1, ha.2⟩) (fun ha => ⟨hfront _ ha.1, hrest ha.2⟩)

/-- **Marks in a sequence change nothing.** -/
theorem firstOfSequence_filter (t : SetTable) (l : List Symbol) :
    firstOfSequence t (l.filter (· ≠ .epsilon)) = firstOfSequence t l := by
  induction l with
  | nil => rfl
  | cons s l ih =>
    by_cases hs : s = .epsilon
    · subst hs
      rw [List.filter_cons_of_neg (by simp), ih]
      refine SortedSet.ext (fun a => ?_)
      rw [mem_firstOfSequence_cons]
      simp [firstOfSymbol]
    · rw [List.filter_cons_of_pos (by simp [hs]), firstOfSequence_cons, ih, firstOfSequence_cons]

/-- Every symbol seen is one of the sequence, a member of one of the sets, or the mark
of a sequence that can vanish. -/
theorem mem_of_mem_firstOfSequence {members : List Symbol} (ht : t.MembersIn members)
    (hl : ∀ s ∈ l, s ∈ members) (hmark : Symbol.epsilon ∈ members)
    (ha : a ∈ firstOfSequence t l) : a ∈ members := by
  induction l with
  | nil => exact mem_firstOfSequence_nil.mp ha ▸ hmark
  | cons s l ih =>
    cases mem_firstOfSequence_cons.mp ha with
    | inr ha => exact ih (fun s' hs' => hl s' (List.mem_cons_of_mem _ hs')) ha.2
    | inl ha =>
      have hs := hl s List.mem_cons_self
      have hfront := ha.1
      cases s with
      | nonTerminal name => exact ht name a hfront
      | terminal name => exact SortedSet.mem_singleton.mp hfront ▸ hs
      | epsilon => exact SortedSet.mem_singleton.mp hfront ▸ hs
      | endMark => exact SortedSet.mem_singleton.mp hfront ▸ hs

/-! ## Sets of any origin -/

namespace FirstFollow

/-- **FIRST of a sequence is found piece by piece, and grows with the sets**, whatever sets are
used. Of two sequences side by side the second is seen exactly if the first can vanish.
Sequences that differ in marks only look alike. Where each FIRST set is contained in that of
other sets for the same name, so is FIRST of every sequence. -/
theorem ofSequence_piecewise (sets : FirstFollow) :
    (∀ l m, sets.ofSequence (l ++ m)
        = if Symbol.epsilon ∈ sets.ofSequence l
          then (sets.ofSequence l).erase .epsilon ∪ sets.ofSequence m
          else sets.ofSequence l)
      ∧ (∀ l m : List Symbol, l.filter (· ≠ .epsilon) = m.filter (· ≠ .epsilon) →
        sets.ofSequence l = sets.ofSequence m)
      ∧ ∀ sets' : FirstFollow, sets.first.Within sets'.first →
        ∀ l, ∀ a ∈ sets.ofSequence l, a ∈ sets'.ofSequence l := by
  refine ⟨firstOfSequence_append sets.first, fun l m h => ?_, fun sets' h l a ha => ?_⟩
  · calc firstOfSequence sets.first l
      _ = firstOfSequence sets.first (l.filter (· ≠ .epsilon)) :=
        (firstOfSequence_filter sets.first l).symm
      _ = firstOfSequence sets.first (m.filter (· ≠ .epsilon)) := by rw [h]
      _ = firstOfSequence sets.first m := firstOfSequence_filter sets.first m
  · exact mem_firstOfSequence_mono (fun name _ => h name) ha

/-- Sets in which `S` cannot vanish. -/
def stopping : FirstFollow := ⟨(∅ : SetTable).grow "S" (.singleton (.terminal "a")), ∅⟩

/-- The same sets with the mark added for `S`. -/
def passing : FirstFollow := ⟨stopping.first.grow "S" (.singleton .epsilon), ∅⟩

/-- The mark makes `S` show what is behind it, and what was seen before is still seen. -/
theorem ofSequence_piecewise_passing :
    [.nonTerminal "S", .epsilon, .endMark].filter (· ≠ .epsilon)
        = [Symbol.nonTerminal "S", .endMark].filter (· ≠ .epsilon)
      ∧ passing.ofSequence [.nonTerminal "S", .epsilon, .endMark]
        = passing.ofSequence [.nonTerminal "S", .endMark]
      ∧ stopping.first.Within passing.first
      ∧ (∀ a ∈ stopping.ofSequence [.nonTerminal "S", .endMark],
        a ∈ passing.ofSequence [.nonTerminal "S", .endMark])
      ∧ Symbol.endMark ∉ stopping.ofSequence [.nonTerminal "S", .endMark]
      ∧ Symbol.endMark ∈ passing.ofSequence [.nonTerminal "S", .endMark] := by
  have hfilter : [.nonTerminal "S", .epsilon, .endMark].filter (· ≠ .epsilon)
      = [Symbol.nonTerminal "S", .endMark].filter (· ≠ .epsilon) := by decide
  have hwithin : stopping.first.Within passing.first := fun _ _ ha =>
    Table.mem_setAt_grow.mpr (Or.inl ha)
  obtain ⟨-, hmarks, -⟩ := ofSequence_piecewise passing
  obtain ⟨-, -, hmono⟩ := ofSequence_piecewise stopping
  exact ⟨hfilter, hmarks _ _ hfilter, hwithin, hmono passing hwithin _, by decide +kernel,
    by decide +kernel⟩

end FirstFollow

end GrammarWorkbench
