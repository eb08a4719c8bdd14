/-!
# Finite sets with one list each

FIRST and FOLLOW sets are compared, printed and grown pass by pass, and two sets
with the same members have to be the same value: otherwise "a pass changes
nothing" would depend on the order in which symbols were found. So a set is a
strictly ascending list, with the ascent as part of the type. There is then
exactly one list per set, and `SortedSet.ext` is the whole theory of equality.

Every operation is described by what it does to membership: `mem_insert`,
`mem_union`, `mem_erase`, `mem_ofList`.
-/

namespace GrammarWorkbench

/-- **A strict order in which any two different values compare.** -/
class StrictOrder (α : Type) [LT α] : Prop where
  /-- Nothing precedes itself. -/
  irrefl : ∀ a : α, ¬ a < a
  /-- The order is transitive. -/
  trans : ∀ {a b c : α}, a < b → b < c → a < c
  /-- Of two different values one precedes the other. -/
  trichotomy : ∀ a b : α, a < b ∨ a = b ∨ b < a

/-- Values neither of which precedes the other are equal. -/
theorem StrictOrder.eq_of_not_lt {α : Type} [LT α] [StrictOrder α] {a b : α} (hab : ¬ a < b)
    (hba : ¬ b < a) : a = b :=
  (StrictOrder.trichotomy a b).elim (absurd · hab) (·.elim id (absurd · hba))

instance : StrictOrder String where
  irrefl := String.lt_irrefl
  trans := String.lt_trans
  trichotomy a b := by
    by_cases hab : a < b
    · exact .inl hab
    · by_cases hba : b < a
      · exact .inr (.inr hba)
      · exact .inr (.inl (String.le_antisymm (String.not_lt.mp hba) (String.not_lt.mp hab)))

/-! ## Insertion into an ascending list -/

section Insertion

variable {α : Type} [LT α] [DecidableLT α]

/-- Puts `a` in front of the first value that it precedes; a list that already
holds `a` at its place stays as it is. -/
def insertAscending (a : α) : List α → List α
  | [] => [a]
  | b :: bs =>
    if a < b then a :: b :: bs
    else if b < a then b :: insertAscending a bs
    else b :: bs

variable [StrictOrder α]

theorem mem_insertAscending {x a : α} {l : List α} :
    x ∈ insertAscending a l ↔ x = a ∨ x ∈ l := by
  induction l with
  | nil => simp [insertAscending]
  | cons b bs ih =>
    unfold insertAscending
    split
    · simp
    · split
      · simp [ih, or_left_comm]
      · next hab hba =>
        simp [StrictOrder.eq_of_not_lt hab hba]

theorem pairwise_insertAscending {a : α} {l : List α} (h : l.Pairwise (· < ·)) :
    (insertAscending a l).Pairwise (· < ·) := by
  induction l with
  | nil => simp [insertAscending]
  | cons b bs ih =>
    obtain ⟨hb, hbs⟩ := List.pairwise_cons.mp h
    unfold insertAscending
    split
    · next hab =>
      refine List.pairwise_cons.mpr ⟨fun x hx => ?_, h⟩
      rcases List.mem_cons.mp hx with rfl | hx
      · exact hab
      · exact StrictOrder.trans hab (hb x hx)
    · split
      · next hba =>
        refine List.pairwise_cons.mpr ⟨fun x hx => ?_, ih hbs⟩
        rcases mem_insertAscending.mp hx with rfl | hx
        · exact hba
        · exact hb x hx
      · exact h

/-- Puts the values of an ascending list among those of `a :: as`, given what
`merge` makes of `as` and another list. -/
def mergeBehind (a : α) (as : List α) (merge : List α → List α) : List α → List α
  | [] => a :: as
  | b :: bs =>
    if a < b then a :: merge (b :: bs)
    else if b < a then b :: mergeBehind a as merge bs
    else a :: merge bs

/-- The values of two ascending lists in one. -/
def mergeAscending : List α → List α → List α
  | [] => fun bs => bs
  | a :: as => mergeBehind a as (mergeAscending as)

theorem mem_mergeBehind {x a : α} {as bs : List α} {merge : List α → List α}
    (hm : ∀ cs, x ∈ merge cs ↔ x ∈ as ∨ x ∈ cs) :
    x ∈ mergeBehind a as merge bs ↔ x ∈ a :: as ∨ x ∈ bs := by
  induction bs with
  | nil => simp [mergeBehind]
  | cons b bs ih =>
    unfold mergeBehind
    split
    · simp [hm, or_assoc]
    · split
      · simp [ih, or_left_comm]
      · next hab hba =>
        simp only [List.mem_cons, hm, StrictOrder.eq_of_not_lt hab hba]
        grind

theorem mem_mergeAscending {x : α} {as bs : List α} :
    x ∈ mergeAscending as bs ↔ x ∈ as ∨ x ∈ bs := by
  induction as generalizing bs with
  | nil => simp [mergeAscending]
  | cons a as ih => exact mem_mergeBehind fun cs => ih

theorem pairwise_mergeBehind {a : α} {as bs : List α} {merge : List α → List α}
    (hm : ∀ x cs, x ∈ merge cs ↔ x ∈ as ∨ x ∈ cs)
    (hp : ∀ cs : List α, cs.Pairwise (· < ·) → (merge cs).Pairwise (· < ·))
    (ha : ∀ x ∈ as, a < x) (hbs : bs.Pairwise (· < ·)) (has : as.Pairwise (· < ·)) :
    (mergeBehind a as merge bs).Pairwise (· < ·) := by
  induction bs with
  | nil => exact List.pairwise_cons.mpr ⟨ha, has⟩
  | cons b bs ih =>
    obtain ⟨hb, hbs'⟩ := List.pairwise_cons.mp hbs
    unfold mergeBehind
    split
    · next hab =>
      refine List.pairwise_cons.mpr ⟨fun x hx => ?_, hp _ hbs⟩
      rcases (hm x _).mp hx with hx | hx
      · exact ha x hx
      · rcases List.mem_cons.mp hx with rfl | hx
        · exact hab
        · exact StrictOrder.trans hab (hb x hx)
    · split
      · next hba =>
        refine List.pairwise_cons.mpr ⟨fun x hx => ?_, ih hbs'⟩
        rcases (mem_mergeBehind (hm x)).mp hx with hx | hx
        · rcases List.mem_cons.mp hx with rfl | hx
          · exact hba
          · exact StrictOrder.trans hba (ha x hx)
        · exact hb x hx
      · next hab hba =>
        refine List.pairwise_cons.mpr ⟨fun x hx => ?_, hp _ hbs'⟩
        rcases (hm x _).mp hx with hx | hx
        · exact ha x hx
        · exact StrictOrder.eq_of_not_lt hab hba ▸ hb x hx

theorem pairwise_mergeAscending {as bs : List α} (has : as.Pairwise (· < ·))
    (hbs : bs.Pairwise (· < ·)) : (mergeAscending as bs).Pairwise (· < ·) := by
  induction as generalizing bs with
  | nil => exact hbs
  | cons a as ih =>
    obtain ⟨ha, has'⟩ := List.pairwise_cons.mp has
    exact pairwise_mergeBehind (fun _ _ => mem_mergeAscending) (fun _ h => ih has' h) ha hbs has'

omit [DecidableLT α] in
/-- **An ascending list is determined by its members.** -/
theorem eq_of_ascending {l m : List α} (hl : l.Pairwise (· < ·)) (hm : m.Pairwise (· < ·))
    (h : ∀ x, x ∈ l ↔ x ∈ m) : l = m := by
  induction l generalizing m with
  | nil =>
    cases m with
    | nil => rfl
    | cons b bs => exact absurd ((h b).mpr List.mem_cons_self) List.not_mem_nil
  | cons a as ih =>
    cases m with
    | nil => exact absurd ((h a).mp List.mem_cons_self) List.not_mem_nil
    | cons b bs =>
      obtain ⟨ha, has⟩ := List.pairwise_cons.mp hl
      obtain ⟨hb, hbs⟩ := List.pairwise_cons.mp hm
      have hab : a = b := by
        rcases List.mem_cons.mp ((h a).mp List.mem_cons_self) with hab | hab
        · exact hab
        · rcases List.mem_cons.mp ((h b).mpr List.mem_cons_self) with hba | hba
          · exact hba.symm
          · exact absurd (StrictOrder.trans (hb a hab) (ha b hba)) (StrictOrder.irrefl b)
      subst hab
      refine congrArg (a :: ·) (ih has hbs fun x => ⟨fun hx => ?_, fun hx => ?_⟩)
      · rcases List.mem_cons.mp ((h x).mp (List.mem_cons_of_mem _ hx)) with rfl | hx'
        · exact absurd (ha x hx) (StrictOrder.irrefl x)
        · exact hx'
      · rcases List.mem_cons.mp ((h x).mpr (List.mem_cons_of_mem _ hx)) with rfl | hx'
        · exact absurd (hb x hx) (StrictOrder.irrefl x)
        · exact hx'

end Insertion

/-! ## The type -/

/-- **A finite set**, stored as the strictly ascending list of its members. -/
structure SortedSet (α : Type) [LT α] where
  /-- The members, each once, in ascending order. -/
  toList : List α
  /-- Each member precedes all later ones. -/
  sorted : toList.Pairwise (· < ·)

namespace SortedSet

variable {α : Type} [LT α]

instance [DecidableEq α] : DecidableEq (SortedSet α) := fun s t =>
  decidable_of_iff (s.toList = t.toList) <| by
    cases s; cases t; simp

instance : Membership α (SortedSet α) := ⟨fun s a => a ∈ s.toList⟩

theorem mem_def {a : α} {s : SortedSet α} : a ∈ s ↔ a ∈ s.toList := Iff.rfl

instance [DecidableEq α] (a : α) (s : SortedSet α) : Decidable (a ∈ s) :=
  inferInstanceAs (Decidable (a ∈ s.toList))

/-- The set without members. -/
def empty : SortedSet α := ⟨[], List.Pairwise.nil⟩

instance : EmptyCollection (SortedSet α) := ⟨empty⟩

instance : Inhabited (SortedSet α) := ⟨∅⟩

@[simp] theorem not_mem_empty (a : α) : ¬ a ∈ (∅ : SortedSet α) := List.not_mem_nil

/-- The set of one member. -/
def singleton (a : α) : SortedSet α := ⟨[a], List.pairwise_singleton _ a⟩

@[simp] theorem mem_singleton {x a : α} : x ∈ singleton a ↔ x = a := List.mem_singleton

/-- The set without `a`. -/
def erase [DecidableEq α] (s : SortedSet α) (a : α) : SortedSet α :=
  ⟨s.toList.filter (· ≠ a), s.sorted.filter _⟩

@[simp] theorem mem_erase [DecidableEq α] {x a : α} {s : SortedSet α} :
    x ∈ s.erase a ↔ x ∈ s ∧ x ≠ a := by
  simp [erase, mem_def]

/-- The number of members. -/
def size (s : SortedSet α) : Nat := s.toList.length

variable [StrictOrder α]

/-- **Sets with the same members are equal.** -/
theorem ext {s t : SortedSet α} (h : ∀ a, a ∈ s ↔ a ∈ t) : s = t := by
  obtain ⟨l, hl⟩ := s
  obtain ⟨m, hm⟩ := t
  have hlm : l = m := eq_of_ascending hl hm h
  subst hlm
  rfl

variable [DecidableLT α]

/-- The set with `a` added. -/
def insert (s : SortedSet α) (a : α) : SortedSet α :=
  ⟨insertAscending a s.toList, pairwise_insertAscending s.sorted⟩

@[simp] theorem mem_insert {x a : α} {s : SortedSet α} : x ∈ s.insert a ↔ x = a ∨ x ∈ s :=
  mem_insertAscending

/-- The set of the values of a list. The last ones are put in first, so an ascending
list is taken over as it is. -/
def ofList (l : List α) : SortedSet α := l.foldr (fun a s => s.insert a) ∅

@[simp] theorem mem_ofList {x : α} {l : List α} : x ∈ ofList l ↔ x ∈ l := by
  induction l with
  | nil => simp [ofList]
  | cons a l ih =>
    have hstep : ofList (a :: l) = (ofList l).insert a := rfl
    rw [hstep, mem_insert, ih, List.mem_cons]

/-- The members of either set. -/
def union (s t : SortedSet α) : SortedSet α :=
  ⟨mergeAscending s.toList t.toList, pairwise_mergeAscending s.sorted t.sorted⟩

instance : Union (SortedSet α) := ⟨union⟩

@[simp] theorem mem_union {x : α} {s t : SortedSet α} : x ∈ s ∪ t ↔ x ∈ s ∨ x ∈ t :=
  mem_mergeAscending

end SortedSet

end GrammarWorkbench
