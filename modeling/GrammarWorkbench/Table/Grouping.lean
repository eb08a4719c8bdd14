import GrammarWorkbench.Table

/-!
# Values gathered by a key

Lines of grammar text are gathered by their left side, alternatives of a rule by the
symbol that they begin with. `Table.group` does both: each key that occurs gets the
values with that key, in their order, and the keys come in order of first
appearance.

The values are gathered in one walk along the list, in front of those found before,
and turned round at the end. What comes out is said without the walk by
`keys_group` and `get?_group`; together they say that nothing is lost and nothing is
added (`flatten_values_group_perm`).
-/

namespace GrammarWorkbench

namespace Table

variable {κ α : Type} [Ord κ] [Std.TransOrd κ] [Std.LawfulEqOrd κ]

/-- Puts one more value in front of those with its key. -/
def addInFront (key : α → κ) (t : Table κ (List α)) (a : α) : Table κ (List α) :=
  t.insert (key a) (a :: (t.get? (key a)).getD [])

/-- **The values of a list, gathered by a key.** -/
def group (key : α → κ) (l : List α) : Table κ (List α) :=
  (l.foldl (addInFront key) ∅).map List.reverse

variable [DecidableEq κ]

theorem keys_foldl_addInFront (key : α → κ) (t : Table κ (List α)) (l : List α) :
    (l.foldl (addInFront key) t).keys
      = t.keys ++ ((l.map key).filter fun k => decide (k ∉ t.keys)).eraseDups := by
  induction l generalizing t with
  | nil => simp
  | cons a l ih =>
    rw [List.foldl_cons, ih, addInFront, keys_insert]
    by_cases h : key a ∈ t.keys
    · simp [h]
    · simp only [h, if_false, List.map_cons, List.filter_cons, not_false_eq_true, decide_true,
        if_true, List.eraseDups_cons, List.filter_filter, List.append_assoc, List.singleton_append,
        List.mem_append, List.mem_singleton, not_or]
      congr 4
      funext k
      by_cases hk : k = key a <;> simp [hk]

/-- **The keys are those that occur, in order of first appearance.** -/
theorem keys_group (key : α → κ) (l : List α) : (group key l).keys = (l.map key).eraseDups := by
  rw [group, keys_map, keys_foldl_addInFront]
  have hall : ((l.map key).filter fun k => decide (k ∉ (∅ : Table κ (List α)).keys)) = l.map key :=
    List.filter_eq_self.mpr fun k _ => by simp
  rw [hall]
  rfl

theorem mem_keys_group {key : α → κ} {l : List α} {k : κ} :
    k ∈ (group key l).keys ↔ ∃ a ∈ l, key a = k := by
  rw [keys_group, List.mem_eraseDups, List.mem_map]

theorem getD_get?_foldl_addInFront (key : α → κ) (t : Table κ (List α)) (l : List α) (k : κ) :
    ((l.foldl (addInFront key) t).get? k).getD []
      = (l.filter fun a => decide (key a = k)).reverse ++ (t.get? k).getD [] := by
  induction l generalizing t with
  | nil => simp
  | cons a l ih =>
    rw [List.foldl_cons, ih, addInFront, get?_insert]
    by_cases h : key a = k
    · simp [h]
    · simp [h, Ne.symm h]

/-- **Each key that occurs has the values with that key, in their order.** -/
theorem get?_group (key : α → κ) (l : List α) (k : κ) :
    (group key l).get? k
      = if k ∈ l.map key then some (l.filter fun a => decide (key a = k)) else none := by
  split
  · next h =>
    have hk : k ∈ (group key l).keys := mem_keys_group.mpr (List.mem_map.mp h)
    have hwalk := getD_get?_foldl_addInFront key ∅ l k
    rw [group, get?_map]
    cases hv : (l.foldl (addInFront key) ∅).get? k with
    | none =>
      rw [group, keys_map] at hk
      exact absurd hk (get?_eq_none_iff.mp hv)
    | some v =>
      rw [hv] at hwalk
      simpa using congrArg List.reverse hwalk
  · next h =>
    exact get?_eq_none_iff.mpr fun hk => h (List.mem_map.mpr (mem_keys_group.mp hk))

/-- Keys that differ stay as they are. -/
theorem keys_group_of_nodup {key : α → κ} {l : List α} (h : (l.map key).Nodup) :
    (group key l).keys = l.map key := by
  rw [keys_group]
  generalize l.map key = ks at h
  induction ks with
  | nil => rfl
  | cons k ks ih =>
    obtain ⟨hk, hks⟩ := List.nodup_cons.mp h
    have hothers : ks.filter (fun k' => !k' == k) = ks :=
      List.filter_eq_self.mpr fun k' hk' => by simpa using fun he : k' = k => hk (he ▸ hk')
    rw [List.eraseDups_cons, hothers, ih hks]

/-- **Values whose keys differ are gathered each by itself.** -/
theorem get?_group_of_nodup {key : α → κ} {l : List α} (h : (l.map key).Nodup) {a : α}
    (ha : a ∈ l) : (group key l).get? (key a) = some [a] := by
  rw [get?_group, if_pos (List.mem_map_of_mem ha)]
  refine congrArg some ?_
  induction l with
  | nil => exact absurd ha List.not_mem_nil
  | cons b l ih =>
    obtain ⟨hb, hl⟩ := List.nodup_cons.mp h
    rcases List.mem_cons.mp ha with rfl | ha
    · have hnone : ∀ c ∈ l, ¬ decide (key c = key a) = true := fun c hc hkey =>
        hb (of_decide_eq_true hkey ▸ List.mem_map_of_mem hc)
      rw [List.filter_cons_of_pos (by simp), List.filter_eq_nil_iff.mpr hnone]
    · have hne : key b ≠ key a := fun hkey => hb (hkey ▸ List.mem_map_of_mem ha)
      rw [List.filter_cons_of_neg (by simpa using hne)]
      exact ih hl ha

/-- The gathered values, said without the walk. -/
theorem values_group (key : α → κ) (l : List α) :
    (group key l).values
      = (l.map key).eraseDups.map fun k => l.filter fun a => decide (key a = k) := by
  refine (List.map_inj_right fun _ _ => Option.some.inj).mp ?_
  rw [map_some_values, keys_group, List.map_map]
  refine List.map_congr_left fun k hk => ?_
  rw [get?_group, if_pos (List.mem_eraseDups.mp hk)]
  rfl

omit [Ord κ] [Std.TransOrd κ] [Std.LawfulEqOrd κ] in
/-- Gathering by keys among which each value finds its own gathers every value once. -/
theorem flatten_map_filter_perm (key : α → κ) {ks : List κ} (hks : ks.Nodup) {l : List α}
    (h : ∀ a ∈ l, key a ∈ ks) :
    (ks.map fun k => l.filter fun a => decide (key a = k)).flatten.Perm l := by
  induction ks generalizing l with
  | nil => simp [List.eq_nil_iff_forall_not_mem.mpr fun a ha => List.not_mem_nil (h a ha)]
  | cons k ks ih =>
    obtain ⟨hk, hks⟩ := List.nodup_cons.mp hks
    have hrest := ih hks (l := l.filter fun a => !decide (key a = k)) fun a ha => by
      obtain ⟨hal, hne⟩ := List.mem_filter.mp ha
      exact (List.mem_cons.mp (h a hal)).resolve_left (by simpa using hne)
    have hsame : (ks.map fun k' => (l.filter fun a => !decide (key a = k)).filter
          fun a => decide (key a = k'))
        = ks.map fun k' => l.filter fun a => decide (key a = k') := by
      refine List.map_congr_left fun k' hk' => ?_
      rw [List.filter_filter]
      refine List.filter_congr fun a _ => ?_
      by_cases ha : key a = k'
      · have hne : k' ≠ k := fun he => hk (he ▸ hk')
        simp [ha, hne]
      · simp [ha]
    rw [hsame] at hrest
    rw [List.map_cons, List.flatten_cons]
    exact (hrest.append_left _).trans (List.filter_append_perm _ l)

/-- **Gathering loses and adds nothing.** -/
theorem flatten_values_group_perm (key : α → κ) (l : List α) :
    (group key l).values.flatten.Perm l := by
  rw [values_group, ← keys_group]
  exact flatten_map_filter_perm key (nodup_keys _) fun a ha => mem_keys_group.mpr ⟨a, ha, rfl⟩

end Table

end GrammarWorkbench
