import GrammarWorkbench.FirstFollow.First
import Mathlib.Algebra.Group.Action.Defs
import Mathlib.Algebra.Order.BigOperators.Group.List
import Mathlib.Algebra.Order.Ring.Nat

/-!
# Tables of sets that only grow

A pass over a grammar adds members to one set after the other, and what it adds may
depend on the table as it is by then (`growAll`). Nothing is ever taken out, so the
passes climb: a pass either changes nothing, and then everything that it wanted to
add was there already (`mem_of_growAll_eq`), or it leaves more members than before
(`weight_lt`). If all members come from a finite universe, then the climb ends
(`exists_settle?_growAll`), whatever the passes add.

Nothing here speaks of grammars: FIRST and FOLLOW are both found in this way.
-/

namespace GrammarWorkbench

/-! ## Sizes of sets -/

namespace SortedSet

variable {α : Type} [LT α] [StrictOrder α]

theorem nodup_toList (s : SortedSet α) : s.toList.Nodup := by
  refine s.sorted.imp (fun {a b} hab heq => ?_)
  rw [heq] at hab
  exact StrictOrder.irrefl b hab

theorem size_le_length {s : SortedSet α} {l : List α} (h : ∀ a ∈ s, a ∈ l) :
    s.size ≤ l.length :=
  s.nodup_toList.length_le_of_subset h

/-- A member that the smaller set lacks makes the larger one larger. -/
theorem size_lt_size {s t : SortedSet α} {a : α} (h : ∀ b ∈ s, b ∈ t) (ht : a ∈ t)
    (hs : a ∉ s) : s.size < t.size := by
  have hnodup : (a :: s.toList).Nodup := List.nodup_cons.mpr ⟨hs, s.nodup_toList⟩
  refine hnodup.length_le_of_subset (fun b hb => ?_)
  cases List.mem_cons.mp hb with
  | inl hba => exact hba ▸ ht
  | inr hb => exact h b hb

end SortedSet

/-! ## Containment and weight -/

namespace Table

variable {κ α : Type} [Ord κ] [Std.TransOrd κ] [LT α]

/-- **Each set of one table is contained in that of the other.** -/
def Within (t t' : Table κ (SortedSet α)) : Prop := ∀ k a, a ∈ t.setAt k → a ∈ t'.setAt k

/-- All members of all sets are taken from a list. -/
def MembersIn (t : Table κ (SortedSet α)) (l : List α) : Prop := ∀ k a, a ∈ t.setAt k → a ∈ l

/-- The number of members of all sets. -/
def weight (t : Table κ (SortedSet α)) : Nat := (t.keys.map fun k => (t.setAt k).size).sum

variable {t t' t'' : Table κ (SortedSet α)}

theorem Within.refl (t : Table κ (SortedSet α)) : t.Within t := fun _ _ => id

theorem Within.trans (h : t.Within t') (h' : t'.Within t'') : t.Within t'' :=
  fun k a ha => h' k a (h k a ha)

/-- A key with a member in its set is among the keys. -/
theorem mem_keys_of_mem_setAt {k : κ} {a : α} (h : a ∈ t.setAt k) : k ∈ t.keys := by
  by_cases hk : k ∈ t.keys
  · exact hk
  · unfold setAt at h
    rw [get?_eq_none_iff.mpr hk] at h
    exact absurd h (SortedSet.not_mem_empty a)

/-- The value of a key is its set. -/
theorem get?_eq_some_setAt {k : κ} (h : k ∈ t.keys) : t.get? k = some (t.setAt k) := by
  unfold setAt
  cases hv : t.get? k with
  | none => exact absurd h (get?_eq_none_iff.mp hv)
  | some s => rfl

variable [StrictOrder α]

/-- **Tables contained in each other are equal.** -/
theorem Within.antisymm [Std.LawfulEqOrd κ] (hk : t.keys = t'.keys) (h : t.Within t')
    (h' : t'.Within t) : t = t' := by
  refine ext_get? hk (fun k => ?_)
  by_cases hkey : k ∈ t.keys
  · rw [get?_eq_some_setAt hkey, get?_eq_some_setAt (hk ▸ hkey)]
    exact congrArg some (SortedSet.ext (fun a => ⟨h k a, h' k a⟩))
  · rw [get?_eq_none_iff.mpr hkey, get?_eq_none_iff.mpr (hk ▸ hkey)]

/-- A larger table with the same keys is heavier. -/
theorem weight_lt [Std.LawfulEqOrd κ] (hk : t.keys = t'.keys) (h : t.Within t')
    (hne : t' ≠ t) : t.weight < t'.weight := by
  have hnot : ¬ t'.Within t := fun h' => hne (Within.antisymm hk h h').symm
  unfold Within at hnot
  push Not at hnot
  obtain ⟨k, a, ha', ha⟩ := hnot
  unfold weight
  rw [← hk]
  refine List.sum_lt_sum _ _ (fun k' _ => ?_) ⟨k, ?_, SortedSet.size_lt_size (h k) ha' ha⟩
  · exact SortedSet.size_le_length (h k')
  · rw [hk]
    exact mem_keys_of_mem_setAt ha'

/-- Members from a list make a table no heavier than the list for each key. -/
theorem weight_le {l : List α} (h : t.MembersIn l) : t.weight ≤ t.keys.length * l.length := by
  have hbound := List.sum_le_card_nsmul (t.keys.map fun k => (t.setAt k).size) l.length
    (fun n hn => by
      obtain ⟨k, _, rfl⟩ := List.mem_map.mp hn
      exact SortedSet.size_le_length (h k))
  rw [List.length_map, smul_eq_mul] at hbound
  exact hbound

/-! ## Adding to one set after the other -/

variable [Std.LawfulEqOrd κ] [DecidableLT α]

theorem within_grow [DecidableEq κ] (t : Table κ (SortedSet α)) (k : κ) (s : SortedSet α) :
    t.Within (t.grow k s) := fun _ _ ha => mem_setAt_grow.mpr (.inl ha)

variable {ι : Type}

/-- **A pass that adds members to one set after the other.** What is added may depend
on the table as it is by then. -/
def growAll (key : ι → κ) (addition : ι → Table κ (SortedSet α) → SortedSet α) (l : List ι)
    (t : Table κ (SortedSet α)) : Table κ (SortedSet α) :=
  l.foldl (fun t i => t.grow (key i) (addition i t)) t

variable [DecidableEq κ] {key : ι → κ} {addition : ι → Table κ (SortedSet α) → SortedSet α}
  {l : List ι}

omit [DecidableEq κ] in
/-- What each addition keeps is kept by the pass. -/
theorem growAll_induction {P : Table κ (SortedSet α) → Prop}
    (hstep : ∀ i ∈ l, ∀ t, P t → P (t.grow (key i) (addition i t))) (ht : P t) :
    P (growAll key addition l t) :=
  List.foldlRecOn l _ ht (fun t ht i hi => hstep i hi t ht)

/-- A pass takes nothing out. -/
theorem within_growAll (key : ι → κ) (addition : ι → Table κ (SortedSet α) → SortedSet α)
    (l : List ι) (t : Table κ (SortedSet α)) : t.Within (growAll key addition l t) :=
  growAll_induction (fun _ _ _ ht' => ht'.trans (within_grow _ _ _)) (Within.refl t)

theorem keys_growAll (hkey : ∀ i ∈ l, key i ∈ t.keys) :
    (growAll key addition l t).keys = t.keys :=
  growAll_induction (P := fun t' => t'.keys = t.keys)
    (fun i hi _ ht' => (keys_grow (ht' ▸ hkey i hi)).trans ht') rfl

/-- **A pass that changes nothing had nothing to add.** The table stays the same
through the pass, so every addition is that to the table itself. -/
theorem mem_of_growAll_eq (hkey : ∀ i ∈ l, key i ∈ t.keys)
    (h : growAll key addition l t = t) {i : ι} (hi : i ∈ l) {a : α}
    (ha : a ∈ addition i t) : a ∈ t.setAt (key i) := by
  induction l with
  | nil => exact absurd hi List.not_mem_nil
  | cons j l ih =>
    -- the rest of the pass takes nothing out, so nothing can have come in here
    have hback : (t.grow (key j) (addition j t)).Within t := by
      have hrest := within_growAll key addition l (t.grow (key j) (addition j t))
      rw [show growAll key addition l (t.grow (key j) (addition j t)) = t from h] at hrest
      exact hrest
    have hsame : t.grow (key j) (addition j t) = t :=
      Within.antisymm (keys_grow (hkey j List.mem_cons_self)) hback (within_grow t _ _)
    cases List.mem_cons.mp hi with
    | inl hij =>
      subst hij
      exact hback (key i) a (mem_setAt_grow.mpr (.inr ⟨rfl, ha⟩))
    | inr hi =>
      refine ih (fun j hj => hkey j (List.mem_cons_of_mem _ hj)) ?_ hi
      show growAll key addition l t = t
      rw [show growAll key addition (j :: l) t
        = growAll key addition l (t.grow (key j) (addition j t)) from rfl, hsame] at h
      exact h

/-- **Passes that add members from a finite universe come to an end.** -/
theorem exists_settle?_growAll [DecidableEq α] (members : List α)
    (hkey : ∀ i ∈ l, key i ∈ t.keys) (ht : t.MembersIn members)
    (hadd : ∀ i ∈ l, ∀ t' : Table κ (SortedSet α), t'.MembersIn members →
      ∀ a ∈ addition i t', a ∈ members)
    {limit : Nat} (hlimit : t.keys.length * members.length < limit) :
    ∃ r, settle? (growAll key addition l) limit t = some r := by
  refine exists_settle? (P := fun t' => t'.keys = t.keys ∧ t'.MembersIn members)
    weight (t.keys.length * members.length) ?_ ?_ ?_ ⟨rfl, ht⟩ (by omega)
  · rintro t' ⟨hk, hmem⟩
    refine ⟨(keys_growAll (fun i hi => hk ▸ hkey i hi)).trans hk, ?_⟩
    refine growAll_induction (P := fun t'' => t''.MembersIn members)
      (fun i hi t'' ht'' k a ha => ?_) hmem
    cases mem_setAt_grow.mp ha with
    | inl ha => exact ht'' k a ha
    | inr ha => exact hadd i hi t'' ht'' a ha.2
  · rintro t' ⟨hk, hmem⟩
    rw [← hk]
    exact weight_le hmem
  · rintro t' ⟨hk, _⟩ hne
    exact weight_lt (keys_growAll (fun i hi => hk ▸ hkey i hi)).symm
      (within_growAll key addition l t') hne

end Table

end GrammarWorkbench
