import GrammarWorkbench.Proofs.LeftFactoring.Step

/-!
# The longest beginning of all alternatives

What alternatives share is found by comparing the first of them with each of the others; the
others are never compared among themselves, and no comparison has to go further than the ones
before it got (`commonPrefixLength_cons`). Nevertheless the first alternative plays no special
part in the result. It is the greatest number of symbols on which all alternatives agree
(`beginAlike_iff_le`), and such agreement depends on nothing but which alternatives there are
(`BeginAlike.congr`), not on their order or on how often they occur.
-/

namespace GrammarWorkbench

variable {ps qs : List Production} {n : Nat}

/-! ## How it is found -/

/-- **A comparison that is broken off after `n` places** finds what is shared up to there. -/
theorem length_takeWhile_take_zip (l m : List Symbol) (n : Nat) :
    (((l.zip m).take n).takeWhile fun pair => decide (pair.1 = pair.2)).length
      = min n (sharedLength l m) := by
  fun_induction sharedLength l m generalizing n with
  | case1 a as bs ih =>
    cases n with
    | zero => simp
    | succ n =>
      rw [List.zip_cons_cons, List.take_succ_cons, List.takeWhile_cons_of_pos (by simp),
        List.length_cons, ih, Nat.add_min_add_right]
  | case2 a as b bs h =>
    cases n with
    | zero => simp
    | succ n =>
      rw [List.zip_cons_cons, List.take_succ_cons, List.takeWhile_cons_of_neg (by simpa using h),
        List.length_nil, Nat.min_zero]
  | case3 l m h =>
    cases l with
    | nil => simp
    | cons a as =>
      cases m with
      | nil => simp
      | cons b bs => exact (h a as b bs rfl rfl).elim

/-- **Comparisons with the first alternative**, each broken off where the ones before it got. -/
theorem commonPrefixLength_cons (p : Production) (ps : List Production) :
    commonPrefixLength (p :: ps)
      = ps.foldl (fun n q => (((p.body.zip q.body).take n).takeWhile
          fun pair => decide (pair.1 = pair.2)).length) p.body.length := by
  refine congrArg (fun step => ps.foldl step p.body.length) ?_
  funext n q
  exact (length_takeWhile_take_zip p.body q.body n).symm

/-! ## What it is -/

/-- **The alternatives agree on their first `n` symbols**, and none of them is shorter. -/
structure BeginAlike (n : Nat) (ps : List Production) : Prop where
  long : ∀ p ∈ ps, n ≤ p.body.length
  agree : ∀ p ∈ ps, ∀ q ∈ ps, p.body.take n = q.body.take n

/-- **To agree on the first symbols is to have a beginning in common.** -/
theorem beginAlike_iff (hps : ps ≠ []) :
    BeginAlike n ps ↔ ∃ front : List Symbol, front.length = n ∧ ∀ p ∈ ps, front <+: p.body := by
  constructor
  · intro h
    obtain ⟨p, hp⟩ := List.exists_mem_of_ne_nil ps hps
    refine ⟨p.body.take n, ?_, fun q hq => ?_⟩
    · rw [List.length_take, Nat.min_eq_left (h.long p hp)]
    · rw [h.agree p hp q hq]
      exact List.take_prefix n q.body
  · rintro ⟨front, rfl, h⟩
    have htake : ∀ p ∈ ps, p.body.take front.length = front := fun p hp =>
      (List.prefix_iff_eq_take.mp (h p hp)).symm
    exact ⟨fun p hp => (h p hp).length_le, fun p hp q hq => (htake p hp).trans (htake q hq).symm⟩

/-- **Alternatives agree on as many symbols as they share**, and on no more. -/
theorem beginAlike_iff_le (hps : ps ≠ []) : BeginAlike n ps ↔ n ≤ commonPrefixLength ps :=
  (beginAlike_iff hps).trans (le_commonPrefixLength_iff hps).symm

/-- Agreement does not depend on order and repetition. -/
theorem BeginAlike.congr (h : BeginAlike n ps) (hmem : ∀ q ∈ qs, q ∈ ps) : BeginAlike n qs where
  long p hp := h.long p (hmem p hp)
  agree p hp q hq := h.agree p (hmem p hp) q (hmem q hq)

/-- **The length of what alternatives share is the greatest number of symbols on which all of
them agree.** It is the same for every list of the same alternatives, and zero if one of them
is empty. -/
theorem commonPrefixLength_greatest (hps : ps ≠ []) :
    BeginAlike (commonPrefixLength ps) ps
      ∧ (∀ n, BeginAlike n ps → n ≤ commonPrefixLength ps)
      ∧ (∀ qs, (∀ p, p ∈ qs ↔ p ∈ ps) → commonPrefixLength qs = commonPrefixLength ps)
      ∧ (Production.epsilon ∈ ps → commonPrefixLength ps = 0) := by
  have hself : BeginAlike (commonPrefixLength ps) ps := (beginAlike_iff_le hps).mpr (Nat.le_refl _)
  refine ⟨hself, fun n => (beginAlike_iff_le hps).mp, fun qs hmem => ?_, fun hepsilon => ?_⟩
  · have hqs : qs ≠ [] := by
      obtain ⟨p, hp⟩ := List.exists_mem_of_ne_nil ps hps
      exact List.ne_nil_of_mem ((hmem p).mpr hp)
    refine Nat.le_antisymm ((beginAlike_iff_le hps).mp ?_) ((beginAlike_iff_le hqs).mp ?_)
    · exact ((beginAlike_iff_le hqs).mpr (Nat.le_refl _)).congr fun p => (hmem p).mpr
    · exact hself.congr fun p => (hmem p).mp
  · exact Nat.le_zero.mp (hself.long _ hepsilon)

/-- Alternatives of different lengths, one of which occurs twice. -/
def uneven : List Production :=
  [.ofSymbols [.terminal "a", .terminal "b", .terminal "c"],
    .ofSymbols [.terminal "a", .terminal "b"],
    .ofSymbols [.terminal "a", .terminal "b", .nonTerminal "C"],
    .ofSymbols [.terminal "a", .terminal "b"]]

/-- Two symbols are shared, also where another alternative comes first and none occurs twice;
with an empty alternative there is nothing to share. -/
theorem commonPrefixLength_greatest_uneven :
    uneven ≠ [] ∧ BeginAlike 2 uneven ∧ (∀ n, BeginAlike n uneven → n ≤ 2)
      ∧ (∀ p, p ∈ uneven.drop 2 ++ uneven.take 1 ↔ p ∈ uneven)
      ∧ commonPrefixLength (uneven.drop 2 ++ uneven.take 1) = 2
      ∧ Production.epsilon ∈ .epsilon :: uneven ∧ commonPrefixLength (.epsilon :: uneven) = 0 := by
  have hne : uneven ≠ [] := List.cons_ne_nil _ _
  have hsame : ∀ p, p ∈ uneven.drop 2 ++ uneven.take 1 ↔ p ∈ uneven := by
    intro p
    simp only [uneven, List.drop_succ_cons, List.drop_zero, List.take_succ_cons, List.take_zero,
      List.cons_append, List.nil_append, List.mem_cons, List.not_mem_nil, or_false]
    grind
  have hlength : commonPrefixLength uneven = 2 := by decide +kernel
  obtain ⟨hself, hgreatest, hcongr, -⟩ := commonPrefixLength_greatest hne
  rw [hlength] at hself hgreatest
  obtain ⟨-, -, -, hepsilon⟩ :=
    commonPrefixLength_greatest (List.cons_ne_nil Production.epsilon uneven)
  exact ⟨hne, hself, hgreatest, hsame, (hcongr _ hsame).trans hlength, List.mem_cons_self,
    hepsilon List.mem_cons_self⟩

end GrammarWorkbench
