import GrammarWorkbench.Proofs.FirstFollow.Follow
import GrammarWorkbench.Proofs.Reader.RoundTrip
import GrammarWorkbench.Report.FromText
import Mathlib.Logic.Function.Iterate

/-!
# The passes that FOLLOW takes

Whether a pass adds a symbol to a FOLLOW set depends on which sets hold that symbol by then,
and on no other symbol (`Sighting.separate_addition`): each symbol spreads by itself. A pass
that carries a symbol no further is therefore the end of its spreading, however the other
symbols fare, and every pass before that has carried it to one more rule. So the passes that
change anything are no more than the rules, whatever the number of symbols and alternatives
(`growAll_iterate_length_keys`), and one more pass finds out that nothing changes.

The ceiling on the passes decides only whether there is an answer. A text has at most 26
rules, so under the usual ceiling an analysis of grammar text never fails.
-/

namespace GrammarWorkbench

/-- **A value that `n` passes lead to and a further one keeps** is found in `n + 1` passes. -/
theorem exists_settle?_of_iterate {α : Type} [DecidableEq α] {step : α → α} {n limit : Nat} {x : α}
    (hn : n < limit) (h : step (step^[n] x) = step^[n] x) :
    ∃ r, settle? step limit x = some r := by
  induction limit generalizing n x with
  | zero => exact absurd hn (Nat.not_lt_zero n)
  | succ limit ih =>
    rw [settle?_succ]
    by_cases hsame : step x = x
    · exact ⟨(x, 1), if_pos hsame⟩
    · cases n with
      | zero => exact absurd h hsame
      | succ n =>
        obtain ⟨r, hr⟩ := ih (Nat.lt_of_succ_lt_succ hn) h
        rw [if_neg hsame, hr]
        exact ⟨_, rfl⟩

/-! ## Spreading of one member -/

namespace Table

variable {κ α ι : Type} [Ord κ] [Std.TransOrd κ] [LT α]

/-- **The same sets of both tables hold `a`.** -/
def AgreeOn (a : α) (t t' : Table κ (SortedSet α)) : Prop :=
  ∀ k, a ∈ t.setAt k ↔ a ∈ t'.setAt k

/-- **Whether a member is added depends only on which sets hold that member.** -/
def Separate (addition : ι → Table κ (SortedSet α) → SortedSet α) : Prop :=
  ∀ i a t t', AgreeOn a t t' → (a ∈ addition i t ↔ a ∈ addition i t')

variable [DecidableEq α]

/-- The keys whose sets hold `a`. -/
def holders (t : Table κ (SortedSet α)) (a : α) : List κ :=
  t.keys.filter fun k => decide (a ∈ t.setAt k)

variable {t t' : Table κ (SortedSet α)} {a : α} {k : κ}

theorem mem_holders : k ∈ t.holders a ↔ a ∈ t.setAt k := by
  unfold holders
  rw [List.mem_filter, decide_eq_true_iff]
  exact and_iff_right_of_imp mem_keys_of_mem_setAt

theorem length_holders_le (t : Table κ (SortedSet α)) (a : α) :
    (t.holders a).length ≤ t.keys.length :=
  List.length_filter_le _ _

/-- A larger table holds a member in more sets, unless it holds it in the same. -/
theorem length_holders_lt (h : t.Within t') (hmore : ¬ AgreeOn a t t') :
    (t.holders a).length < (t'.holders a).length := by
  unfold AgreeOn at hmore
  push Not at hmore
  obtain ⟨k, hk⟩ := hmore
  have hnew : a ∉ t.setAt k ∧ a ∈ t'.setAt k :=
    hk.resolve_left fun hlost => hlost.2 (h k a hlost.1)
  have hnodup : (k :: t.holders a).Nodup :=
    List.nodup_cons.mpr ⟨fun hmem => hnew.1 (mem_holders.mp hmem), t.nodup_keys.filter _⟩
  refine hnodup.length_le_of_subset (fun k' hk' => mem_holders.mpr ?_)
  cases List.mem_cons.mp hk' with
  | inl hsame => exact hsame ▸ hnew.2
  | inr hold => exact h k' a (mem_holders.mp hold)

variable [StrictOrder α] [Std.LawfulEqOrd κ] [DecidableLT α] [DecidableEq κ] {key : ι → κ}
  {addition : ι → Table κ (SortedSet α) → SortedSet α} {l : List ι}

omit [DecidableEq α] in
/-- **Tables that agree on a member still agree on it after a pass.** -/
theorem AgreeOn.growAll (hadd : Separate addition) (h : AgreeOn a t t') :
    AgreeOn a (growAll key addition l t) (growAll key addition l t') := by
  induction l generalizing t t' with
  | nil => exact h
  | cons i l ih =>
    refine ih (fun k => ?_)
    rw [mem_setAt_grow, mem_setAt_grow, h k, hadd i a t t' h]

/-- **A member that pass number `n + 1` carries further** has been carried further by every
pass before. -/
theorem lt_length_holders_iterate (hadd : Separate addition) (n : Nat)
    (h : ¬ AgreeOn a ((Table.growAll key addition l)^[n] t)
      ((Table.growAll key addition l)^[n + 1] t)) :
    n < (((Table.growAll key addition l)^[n + 1] t).holders a).length := by
  induction n with
  | zero => exact Nat.zero_lt_of_lt (length_holders_lt (within_growAll key addition l t) h)
  | succ n ih =>
    -- had the pass before carried it nowhere, then neither would this one
    have hbefore : ¬ AgreeOn a ((Table.growAll key addition l)^[n] t)
        ((Table.growAll key addition l)^[n + 1] t) := fun hsame => h (by
      rw [Function.iterate_succ_apply', Function.iterate_succ_apply' _ (n + 1)]
      exact hsame.growAll hadd)
    have hfurther := length_holders_lt (within_growAll key addition l _)
      (Function.iterate_succ_apply' (Table.growAll key addition l) (n + 1) t ▸ h)
    rw [Function.iterate_succ_apply' _ (n + 1)]
    exact Nat.lt_of_le_of_lt (ih hbefore) hfurther

omit [DecidableEq α] in
theorem keys_growAll_iterate (hkey : ∀ i ∈ l, key i ∈ t.keys) (n : Nat) :
    ((Table.growAll key addition l)^[n] t).keys = t.keys := by
  induction n with
  | zero => rfl
  | succ n ih =>
    rw [Function.iterate_succ_apply', keys_growAll (fun i hi => ih ▸ hkey i hi), ih]

/-- **As many passes as there are keys find everything**, if members are added
separately. -/
theorem growAll_iterate_length_keys (hkey : ∀ i ∈ l, key i ∈ t.keys) (hadd : Separate addition) :
    Table.growAll key addition l ((Table.growAll key addition l)^[t.keys.length] t)
      = (Table.growAll key addition l)^[t.keys.length] t := by
  have hkeys : ∀ n, ((Table.growAll key addition l)^[n] t).keys = t.keys :=
    keys_growAll_iterate hkey
  rw [← Function.iterate_succ_apply' (Table.growAll key addition l)]
  refine Within.antisymm ((hkeys _).trans (hkeys _).symm) (fun k a ha => ?_) ?_
  · by_contra hnot
    -- the member would be held by more sets than there are
    have hmore := lt_length_holders_iterate (a := a) hadd t.keys.length
      (fun hsame => hnot ((hsame k).mpr ha))
    have hbound := length_holders_le ((Table.growAll key addition l)^[t.keys.length + 1] t) a
    rw [hkeys] at hbound
    exact absurd hbound (Nat.not_le_of_lt hmore)
  · rw [Function.iterate_succ_apply']
    exact within_growAll key addition l _

end Table

/-! ## The passes for FOLLOW -/

/-- **What a sighting adds, it adds symbol by symbol.** -/
theorem Sighting.separate_addition : Table.Separate Sighting.addition := by
  intro o a t t' h
  unfold Sighting.addition
  split
  · rw [SortedSet.mem_union, SortedSet.mem_union, h o.left]
  · rfl

namespace Grammar

variable {g : Grammar} {start : String}

/-- **One pass more than there are rules is enough.** -/
theorem exists_settledFollow? (g : Grammar) :
    ∃ r, g.settledFollow? g.firstSets (g.ruleNames.length + 1) = some r := by
  have hkey : ∀ o ∈ g.sightings g.firstSets, o.name ∈ g.followSeed.keys := by
    intro o ho
    rw [sightings_eq] at ho
    obtain ⟨place, hplace, rfl⟩ := List.mem_map.mp ho
    exact g.keys_followSeed ▸ (mem_occurrences.mp hplace).1
  have hlast := Table.growAll_iterate_length_keys hkey Sighting.separate_addition
  rw [keys_followSeed] at hlast
  exact exists_settle?_of_iterate (Nat.lt_succ_self _) hlast

/-- **The ceiling decides whether there is an answer, and not which.** -/
theorem firstFollowWithin_eq_ite (hstart : g.start = some start) :
    ∃ passes sets, 1 ≤ passes ∧ passes ≤ g.ruleNames.length + 1
      ∧ ∀ limit, g.firstFollowWithin limit
        = if passes ≤ limit then .ok sets else .error (.followUnsettled limit) := by
  obtain ⟨⟨follow, passes⟩, hsettled⟩ := g.exists_settledFollow?
  have hpasses := passes_of_settle? hsettled
  refine ⟨passes, ⟨g.firstSets, follow⟩, hpasses.1, hpasses.2, fun limit => ?_⟩
  have hlimit : g.settledFollow? g.firstSets limit
      = if passes ≤ limit then some (follow, passes) else none := settle?_eq_ite hsettled limit
  rw [firstFollowWithin_eq, hstart]
  dsimp only
  rw [hlimit]
  by_cases hle : passes ≤ limit
  · rw [if_pos hle, if_pos hle]
  · rw [if_neg hle, if_neg hle]

/-- Without a start symbol there is an answer under every ceiling. -/
theorem firstFollowWithin_of_start_eq_none (hstart : g.start = none) (limit : Nat) :
    g.firstFollowWithin limit = .ok ⟨g.firstSets, g.emptySets⟩ := by
  rw [firstFollowWithin_eq, hstart]

/-- **What there is under some ceiling is there under every one that is not lower than the
number of rules and one.** -/
theorem exists_firstFollowWithin {limit : Nat} (hlimit : g.ruleNames.length + 1 ≤ limit) :
    ∃ sets, g.firstFollowWithin limit = .ok sets := by
  cases hstart : g.start with
  | none => exact ⟨_, firstFollowWithin_of_start_eq_none hstart limit⟩
  | some start =>
    obtain ⟨passes, sets, -, hpasses, hsets⟩ := firstFollowWithin_eq_ite hstart
    exact ⟨sets, (hsets limit).trans (if_pos (Nat.le_trans hpasses hlimit))⟩

/-! ## Grammar text -/

/-- The names that a rule of grammar text can have. -/
def capitalNames : List String := (List.range' 65 26).map fun n => String.singleton (Char.ofNat n)

theorem Legible.mem_capitalNames (h : g.Legible) {name : String} (hname : name ∈ g.ruleNames) :
    name ∈ capitalNames := by
  obtain ⟨c, hc, rfl⟩ := h.capital name hname
  have hrange : 65 ≤ c.toNat ∧ c.toNat < 65 + 26 := by
    unfold Char.isUpper at hc
    simp only [ge_iff_le, decide_eq_true_iff, UInt32.le_iff_toNat_le] at hc
    exact ⟨hc.1, Nat.lt_succ_of_le hc.2⟩
  exact List.mem_map.mpr ⟨c.toNat, List.mem_range'_1.mpr hrange, by rw [Char.ofNat_toNat]⟩

/-- **A grammar of grammar text has at most 26 rules.** -/
theorem Legible.length_ruleNames_le (h : g.Legible) : g.ruleNames.length ≤ 26 :=
  g.nodup_ruleNames.length_le_of_subset fun _ hname => h.mem_capitalNames hname

/-- A table of sets is not taken for an error. -/
theorem json_setsTable_ne (t : SetsTable) (e : GrammarError) : t.json ≠ e.json := by
  intro h
  -- the name of the first field tells them apart
  have hfield := congrArg (fun text : String => text.toList.take 3) h
  simp [SetsTable.json, GrammarError.json, Text.Json.object, Text.Json.string,
    Text.Json.escapeChar] at hfield

/-- **The sets of a text that can be read are found.** -/
theorem firstFollowJson_of_parse {text : String} (h : parse text = .ok g) :
    ∃ sets, g.firstFollow = .ok sets ∧ firstFollowJson text = (g.setsTable sets).json := by
  have hlimit : g.ruleNames.length + 1 ≤ followPassLimit :=
    Nat.le_trans (Nat.succ_le_succ (legible_of_parse h).length_ruleNames_le) (by decide)
  obtain ⟨sets, hsets⟩ : ∃ sets, g.firstFollow = .ok sets := exists_firstFollowWithin hlimit
  refine ⟨sets, hsets, ?_⟩
  unfold firstFollowJson
  rw [h]
  dsimp only
  rw [hsets]

/-- **The ceiling on the passes for FOLLOW is only a circuit breaker.** With a start symbol
some number of passes, at most one more than there are rules, is enough: every ceiling from
there on gives the same sets, and every lower one is reported. Without a start symbol the
sets are found under every ceiling. A text has at most 26 rules, so under the usual ceiling
its sets are found if it can be read, and what is reported on it is a fault of reading. -/
theorem firstFollowWithin_settles :
    (∀ (g : Grammar) (start : String), g.start = some start →
      ∃ passes sets, 1 ≤ passes ∧ passes ≤ g.ruleNames.length + 1
        ∧ ∀ limit, g.firstFollowWithin limit
          = if passes ≤ limit then .ok sets else .error (.followUnsettled limit))
      ∧ (∀ g : Grammar, g.start = none →
        ∃ sets, ∀ limit, g.firstFollowWithin limit = .ok sets)
      ∧ (∀ (text : String) (g : Grammar), parse text = .ok g →
        g.ruleNames.length ≤ 26
          ∧ ∃ sets, g.firstFollow = .ok sets ∧ firstFollowJson text = (g.setsTable sets).json)
      ∧ ∀ text : String, (∃ e : GrammarError, firstFollowJson text = e.json)
        ↔ ∃ fault, parse text = .error fault := by
  refine ⟨fun g start hstart => firstFollowWithin_eq_ite hstart,
    fun g hstart => ⟨_, firstFollowWithin_of_start_eq_none hstart⟩,
    fun text g h => ⟨(legible_of_parse h).length_ruleNames_le, firstFollowJson_of_parse h⟩,
    fun text => ⟨fun ⟨e, he⟩ => ?_, fun ⟨fault, hfault⟩ => ⟨fault, ?_⟩⟩⟩
  · cases h : parse text with
    | error fault => exact ⟨fault, rfl⟩
    | ok g =>
      obtain ⟨sets, -, hjson⟩ := firstFollowJson_of_parse h
      exact absurd (hjson.symm.trans he) (json_setsTable_ne _ e)
  · unfold firstFollowJson
    rw [hfault]

/-- A grammar in which what follows the last rule climbs to the first, one rule a pass. -/
def climbing : Grammar :=
  (((∅ : Grammar).setProductions "C" [.ofSymbols [.terminal "c"]]).setProductions
    "B" [.ofSymbols [.nonTerminal "C"]]).setProductions
    "A" [.ofSymbols [.nonTerminal "B"], .ofSymbols [.nonTerminal "A", .terminal "a"]]

/-- The climbing grammar has three rules and takes all of four passes; it is read from its
text, whose sets are found. -/
theorem firstFollowWithin_settles_climbing :
    climbing.start = some "C" ∧ climbing.ruleNames.length = 3
      ∧ (∃ sets, ∀ limit, climbing.firstFollowWithin limit
        = if 4 ≤ limit then .ok sets else .error (.followUnsettled limit))
      ∧ parse "C->c\nB->C\nA->B|Aa" = .ok climbing
      ∧ ∃ sets, climbing.firstFollow = .ok sets
        ∧ firstFollowJson "C->c\nB->C\nA->B|Aa" = (climbing.setsTable sets).json := by
  have hstart : climbing.start = some "C" := by decide +kernel
  have hlength : climbing.ruleNames.length = 3 := by decide +kernel
  have hread : parse "C->c\nB->C\nA->B|Aa" = .ok climbing := by decide +kernel
  have hfew : (climbing.firstFollowWithin 3).toBool = false := by decide +kernel
  obtain ⟨hceiling, -, htext, -⟩ := firstFollowWithin_settles
  obtain ⟨passes, sets, -, hpasses, hsets⟩ := hceiling climbing "C" hstart
  refine ⟨hstart, hlength, ⟨sets, ?_⟩, hread, (htext _ climbing hread).2⟩
  -- three passes are not enough, and four are the most that three rules can take
  have hfour : passes = 4 := by
    rw [hlength] at hpasses
    refine Nat.le_antisymm hpasses (Nat.succ_le_of_lt (Nat.lt_of_not_le fun hle => ?_))
    rw [hsets, if_pos hle] at hfew
    exact absurd hfew (by simp [Except.toBool])
  exact hfour ▸ hsets

end Grammar

end GrammarWorkbench
