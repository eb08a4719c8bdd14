import Std.Data.ExtTreeMap

/-!
# Tables in order of insertion

A grammar keeps its rules in the order in which their left sides were first seen,
and giving a rule new alternatives leaves it where it is. FIRST and FOLLOW sets
are listed in that same order. A `Table` is a row of cells, one for each key, and
an index that finds the cell of a key without a walk along the row.

The index has no say of its own: it finds each key exactly where the key stands.
So no key stands twice (`nodup_keys`), and tables with the same entries in the same
order are equal (`ext`). `keys` and `get?` are the views through which everything
else is stated, and together they determine a table (`ext_get?`).
-/

namespace GrammarWorkbench

/-- **A finite map that remembers the order of its keys.** -/
structure Table (κ α : Type) [Ord κ] [Std.TransOrd κ] where
  /-- The keys with their values, in order of first insertion. -/
  cells : Array (κ × α)
  /-- Where each key stands. -/
  index : Std.ExtTreeMap κ Nat
  /-- The index finds a key exactly where it stands. -/
  index_iff : ∀ (k : κ) (i : Nat), index[k]? = some i ↔ cells[i]?.map Prod.fst = some k

namespace Table

variable {κ α β : Type} [Ord κ] [Std.TransOrd κ]

/-- The table without entries. -/
def empty : Table κ α := ⟨#[], ∅, by simp⟩

instance : EmptyCollection (Table κ α) := ⟨empty⟩

instance : Inhabited (Table κ α) := ⟨∅⟩

/-- The keys with their values, in order of first insertion. -/
def entries (t : Table κ α) : List (κ × α) := t.cells.toList

/-- The keys, in order of first insertion. -/
def keys (t : Table κ α) : List κ := t.entries.map Prod.fst

@[simp] theorem keys_empty : (∅ : Table κ α).keys = [] := rfl

/-- The values, in the order of their keys. -/
def values (t : Table κ α) : List α := t.entries.map Prod.snd

/-- The number of entries. -/
def size (t : Table κ α) : Nat := t.cells.size

/-- The table with every value replaced by its image. -/
def map (f : α → β) (t : Table κ α) : Table κ β where
  cells := t.cells.map fun e => (e.1, f e.2)
  index := t.index
  index_iff k i := by
    rw [t.index_iff]
    cases h : t.cells[i]? <;> simp [h]

@[simp] theorem keys_map (f : α → β) (t : Table κ α) : (t.map f).keys = t.keys := by
  simp [keys, entries, map, List.map_map, Function.comp_def]

/-! ## Finding a key -/

/-- The index speaks of places in the list of keys. -/
theorem index_eq_some_iff {t : Table κ α} {k : κ} {i : Nat} :
    t.index[k]? = some i ↔ t.keys[i]? = some k := by
  rw [t.index_iff]
  simp [keys, entries]

/-- The index only speaks of places that there are. -/
theorem lt_size_of_index {t : Table κ α} {k : κ} {i : Nat} (h : t.index[k]? = some i) :
    i < t.cells.size := by
  obtain ⟨e, he, _⟩ := Option.map_eq_some_iff.mp ((t.index_iff k i).mp h)
  exact (Array.getElem?_eq_some_iff.mp he).1

/-- **No key stands twice.** -/
theorem nodup_keys (t : Table κ α) : t.keys.Nodup := by
  rw [List.Nodup, List.pairwise_iff_getElem]
  intro i j hi hj hij heq
  have hik : t.index[t.keys[i]]? = some i :=
    index_eq_some_iff.mpr (List.getElem?_eq_getElem hi)
  have hjk : t.index[t.keys[i]]? = some j :=
    index_eq_some_iff.mpr (heq ▸ List.getElem?_eq_getElem hj)
  have := Option.some.inj (hik.symm.trans hjk)
  omega

/-- A key stands somewhere exactly if the index finds it. -/
theorem mem_keys_iff {t : Table κ α} {k : κ} : k ∈ t.keys ↔ ∃ i, t.index[k]? = some i := by
  simp only [index_eq_some_iff]
  exact List.mem_iff_getElem?

theorem index_eq_none_iff {t : Table κ α} {k : κ} : t.index[k]? = none ↔ k ∉ t.keys := by
  rw [mem_keys_iff, Option.eq_none_iff_forall_ne_some, not_exists]

/-- Whether `k` has an entry. -/
def contains (t : Table κ α) (k : κ) : Bool := t.index[k]?.isSome

@[simp] theorem contains_iff {t : Table κ α} {k : κ} : t.contains k = true ↔ k ∈ t.keys := by
  rw [contains, Option.isSome_iff_exists, mem_keys_iff]

/-- The value of `k`, if `k` has an entry. -/
def get? (t : Table κ α) (k : κ) : Option α :=
  match t.index[k]? with
  | some i => t.cells[i]?.map Prod.snd
  | none => none

/-- **The entries are the pairs of a key and its value.** -/
theorem get?_eq_some_iff {t : Table κ α} {k : κ} {v : α} :
    t.get? k = some v ↔ (k, v) ∈ t.entries := by
  unfold get?
  split
  · next i hi =>
    have hk := (t.index_iff k i).mp hi
    obtain ⟨e, he, rfl⟩ := Option.map_eq_some_iff.mp hk
    simp only [he, Option.map_some, Option.some.injEq, entries, List.mem_iff_getElem?,
      Array.getElem?_toList]
    constructor
    · rintro rfl
      exact ⟨i, he⟩
    · rintro ⟨j, hj⟩
      have hij : t.index[e.1]? = some j := (t.index_iff e.1 j).mpr (by rw [hj]; rfl)
      obtain rfl := Option.some.inj (hi.symm.trans hij)
      rw [Option.some.inj (he.symm.trans hj)]
  · next hn =>
    simp only [reduceCtorEq, false_iff]
    intro hm
    exact index_eq_none_iff.mp hn (List.mem_map.mpr ⟨(k, v), hm, rfl⟩)

/-- A key has no value exactly if it is not among the keys. -/
theorem get?_eq_none_iff {t : Table κ α} {k : κ} : t.get? k = none ↔ k ∉ t.keys := by
  rw [Option.eq_none_iff_forall_ne_some, keys, List.mem_map]
  simp only [ne_eq, get?_eq_some_iff]
  constructor
  · rintro h ⟨⟨_, v⟩, hm, rfl⟩
    exact h v hm
  · exact fun h v hm => h ⟨(k, v), hm, rfl⟩

@[simp] theorem get?_empty (k : κ) : (∅ : Table κ α).get? k = none :=
  get?_eq_none_iff.mpr List.not_mem_nil

@[simp] theorem get?_map (f : α → β) (t : Table κ α) (k : κ) :
    (t.map f).get? k = (t.get? k).map f := by
  unfold get? map
  cases t.index[k]? with
  | none => rfl
  | some i => cases h : t.cells[i]? <;> simp [h]

/-- The values stand in the order of their keys. -/
theorem map_some_values (t : Table κ α) : t.values.map some = t.keys.map t.get? := by
  rw [values, keys, List.map_map, List.map_map]
  exact List.map_congr_left fun e he => (get?_eq_some_iff.mpr he).symm

/-! ## Equality -/

variable [Std.LawfulEqOrd κ]

/-- **Tables with the same entries in the same order are equal.** -/
theorem ext {s t : Table κ α} (h : s.entries = t.entries) : s = t := by
  obtain ⟨cells, index, hs⟩ := s
  obtain ⟨cells', index', ht⟩ := t
  obtain rfl : cells = cells' := Array.toList_inj.mp h
  obtain rfl : index = index' := Std.ExtTreeMap.ext_getElem? fun k =>
    Option.ext fun i => (hs k i).trans (ht k i).symm
  rfl

instance [DecidableEq κ] [DecidableEq α] : DecidableEq (Table κ α) := fun s t =>
  decidable_of_iff (s.entries = t.entries) ⟨ext, congrArg entries⟩

omit [Std.LawfulEqOrd κ] in
/-- An entry is its key with the value of that key. -/
theorem map_get?_keys (t : Table κ α) :
    t.keys.map (fun k => (k, t.get? k)) = t.entries.map fun e => (e.1, some e.2) := by
  rw [keys, List.map_map]
  refine List.map_congr_left fun e he => ?_
  exact congrArg (Prod.mk e.1) (get?_eq_some_iff.mpr he)

/-- **The keys in order and the value of each key determine a table.** -/
theorem ext_get? {s t : Table κ α} (hk : s.keys = t.keys) (hv : ∀ k, s.get? k = t.get? k) :
    s = t := by
  refine ext ((List.map_inj_right fun a b h => ?_).mp ((map_get?_keys s).symm.trans
    ((List.map_congr_left fun k _ => by rw [hv k]).trans (hk ▸ map_get?_keys t))))
  obtain ⟨hkey, hvalue⟩ := Prod.mk.inj h
  exact Prod.ext hkey (Option.some.inj hvalue)

omit [Std.LawfulEqOrd κ] in
/-- The index determines the keys. -/
theorem keys_eq_of_index_eq {s : Table κ α} {t : Table κ β} (h : s.index = t.index) :
    s.keys = t.keys :=
  List.ext_getElem? fun i => Option.ext fun k => by
    rw [← index_eq_some_iff, h, index_eq_some_iff]

/-! ## Insertion -/

omit [Std.LawfulEqOrd κ] in
/-- A new value in the cell of a key leaves the index right. -/
theorem index_iff_set {t : Table κ α} {k : κ} {i : Nat} (h : t.index[k]? = some i) (v : α)
    (k' : κ) (j : Nat) :
    t.index[k']? = some j ↔ (t.cells.setIfInBounds i (k, v))[j]?.map Prod.fst = some k' := by
  rw [t.index_iff, Array.getElem?_setIfInBounds]
  split
  · next hij =>
    subst hij
    rw [(t.index_iff k i).mp h]
    simp [lt_size_of_index h]
  · rfl

/-- A new key that is put last is found there. -/
theorem index_iff_push {t : Table κ α} {k : κ} (h : t.index[k]? = none) (v : α)
    (k' : κ) (j : Nat) :
    (t.index.insert k t.cells.size)[k']? = some j
      ↔ (t.cells.push (k, v))[j]?.map Prod.fst = some k' := by
  rw [Std.ExtTreeMap.getElem?_insert, Array.getElem?_push]
  by_cases hk : k = k'
  · subst hk
    have hnot := mt (t.index_iff k j).mpr (by simp [h])
    by_cases hj : j = t.cells.size
    · simp [hj]
    · simp [hj, Ne.symm hj, hnot]
  · have hne : compare k k' ≠ .eq := fun he => hk (Std.LawfulEqOrd.eq_of_compare he)
    by_cases hj : j = t.cells.size
    · have hnot : ¬ t.index[k']? = some j := fun hi => by
        simpa [hj] using lt_size_of_index hi
      simp [hne, hj ▸ hnot, hj, hk]
    · simp [hj, hne, t.index_iff]

/-- **Gives `k` the value `v`**, in place if `k` has an entry and at the end
otherwise. -/
def insert (t : Table κ α) (k : κ) (v : α) : Table κ α :=
  match h : t.index[k]? with
  | some i => ⟨t.cells.setIfInBounds i (k, v), t.index, index_iff_set h v⟩
  | none => ⟨t.cells.push (k, v), t.index.insert k t.cells.size, index_iff_push h v⟩

variable [DecidableEq κ]

/-- Insertion keeps the keys and their order, and puts a new key last. -/
theorem keys_insert (t : Table κ α) (k : κ) (v : α) :
    (t.insert k v).keys = if k ∈ t.keys then t.keys else t.keys ++ [k] := by
  unfold insert
  split
  · next i h =>
    rw [if_pos (mem_keys_iff.mpr ⟨i, h⟩)]
    exact keys_eq_of_index_eq rfl
  · next h =>
    rw [if_neg (index_eq_none_iff.mp h)]
    simp [keys, entries]

/-- **Insertion changes the value of one key.** -/
theorem get?_insert (t : Table κ α) (k k' : κ) (v : α) :
    (t.insert k v).get? k' = if k' = k then some v else t.get? k' := by
  unfold insert
  split
  · next i h =>
    have hk := (t.index_iff k i).mp h
    by_cases hkk : k' = k
    · subst hkk
      simp [get?, h, lt_size_of_index h]
    · rw [if_neg hkk]
      unfold get?
      cases hj : t.index[k']? with
      | none => rfl
      | some j =>
        have hne : i ≠ j := fun hij => by
          have hk' := (t.index_iff k' j).mp hj
          rw [← hij, hk] at hk'
          exact hkk (Option.some.inj hk').symm
        simp [hne]
  · next h =>
    by_cases hkk : k' = k
    · subst hkk
      simp [get?]
    · have hne : compare k k' ≠ .eq := fun he => hkk (Std.LawfulEqOrd.eq_of_compare he).symm
      rw [if_neg hkk]
      unfold get?
      rw [Std.ExtTreeMap.getElem?_insert, if_neg hne]
      cases hj : t.index[k']? with
      | none => rfl
      | some j => simp [Array.getElem?_push, Nat.ne_of_lt (lt_size_of_index hj)]

@[simp] theorem get?_insert_self (t : Table κ α) (k : κ) (v : α) :
    (t.insert k v).get? k = some v := by
  simp [get?_insert]

theorem get?_insert_of_ne {t : Table κ α} {k k' : κ} {v : α} (h : k' ≠ k) :
    (t.insert k v).get? k' = t.get? k' := by
  simp [get?_insert, h]

end Table

end GrammarWorkbench
