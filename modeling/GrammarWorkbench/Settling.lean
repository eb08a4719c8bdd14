/-!
# Passes until nothing changes

Several analyses improve a value pass by pass and stop after the first pass that
changes nothing. `settle?` does that under a ceiling on the number of passes. The
pass that only finds out that nothing changes counts as well, so a value that is
settled from the start takes one pass.

A higher ceiling never changes an answer, it only turns missing answers into
answers (`settle?_mono`); and what is returned is unchanged by a further pass
(`step_of_settle?`). If every pass that changes something makes the value heavier,
and no value is heavier than a given bound, then the passes come to an end
(`exists_settle?`).
-/

namespace GrammarWorkbench

variable {α : Type} [DecidableEq α]

/-- **The value that passes of `step` settle at, and the number of passes taken**;
nothing, if `limit` passes are not enough. -/
def settle? (step : α → α) : Nat → α → Option (α × Nat)
  | 0, _ => none
  | limit + 1, x =>
    let y := step x
    if y = x then some (x, 1)
    else (settle? step limit y).map fun r => (r.1, r.2 + 1)

theorem settle?_succ (step : α → α) (limit : Nat) (x : α) :
    settle? step (limit + 1) x
      = if step x = x then some (x, 1)
        else (settle? step limit (step x)).map fun r => (r.1, r.2 + 1) := rfl

/-- **A settled value is a fixed point.** -/
theorem step_of_settle? {step : α → α} {limit passes : Nat} {x y : α}
    (h : settle? step limit x = some (y, passes)) : step y = y := by
  induction limit generalizing x passes with
  | zero => simp [settle?] at h
  | succ limit ih =>
    rw [settle?_succ] at h
    split at h
    · next hx =>
      obtain ⟨rfl, _⟩ := Prod.mk.inj (Option.some.inj h)
      exact hx
    · obtain ⟨⟨z, n⟩, hr, hz⟩ := Option.map_eq_some_iff.mp h
      obtain ⟨rfl, _⟩ := Prod.mk.inj hz
      exact ih hr

/-- **A higher ceiling keeps the answer.** -/
theorem settle?_mono {step : α → α} {limit more : Nat} {x : α} {r : α × Nat}
    (h : settle? step limit x = some r) : settle? step (limit + more) x = some r := by
  induction limit generalizing x r with
  | zero => simp [settle?] at h
  | succ limit ih =>
    rw [settle?_succ] at h
    rw [show limit + 1 + more = limit + more + 1 by omega, settle?_succ]
    split at h
    · next hx => rw [if_pos hx, h]
    · next hx =>
      obtain ⟨s, hs, hr⟩ := Option.map_eq_some_iff.mp h
      rw [if_neg hx, ih hs]
      exact congrArg some hr

/-- The passes taken are at least one and at most the ceiling. -/
theorem passes_of_settle? {step : α → α} {limit passes : Nat} {x y : α}
    (h : settle? step limit x = some (y, passes)) : 1 ≤ passes ∧ passes ≤ limit := by
  induction limit generalizing x y passes with
  | zero => simp [settle?] at h
  | succ limit ih =>
    rw [settle?_succ] at h
    split at h
    · obtain ⟨_, rfl⟩ := Prod.mk.inj (Option.some.inj h)
      omega
    · obtain ⟨⟨z, n⟩, hr, hz⟩ := Option.map_eq_some_iff.mp h
      obtain ⟨_, rfl⟩ := Prod.mk.inj hz
      have := ih hr
      omega

/-- The passes taken are a ceiling that is high enough. -/
theorem settle?_at_passes {step : α → α} {limit passes : Nat} {x y : α}
    (h : settle? step limit x = some (y, passes)) : settle? step passes x = some (y, passes) := by
  induction limit generalizing x passes with
  | zero => simp [settle?] at h
  | succ limit ih =>
    rw [settle?_succ] at h
    split at h
    · next hx =>
      obtain ⟨rfl, rfl⟩ := Prod.mk.inj (Option.some.inj h)
      rw [settle?_succ, if_pos hx]
    · next hx =>
      obtain ⟨⟨z, n⟩, hr, hz⟩ := Option.map_eq_some_iff.mp h
      obtain ⟨rfl, rfl⟩ := Prod.mk.inj hz
      rw [settle?_succ, if_neg hx, ih hr]
      rfl

/-- **The ceiling only decides whether there is an answer**: there is one exactly if
the passes that are needed are allowed. -/
theorem settle?_eq_ite {step : α → α} {limit passes : Nat} {x y : α}
    (h : settle? step limit x = some (y, passes)) (limit' : Nat) :
    settle? step limit' x = if passes ≤ limit' then some (y, passes) else none := by
  cases h' : settle? step limit' x with
  | some r =>
    obtain ⟨z, n⟩ := r
    have hz : settle? step (limit' + limit) x = some (z, n) := settle?_mono h'
    rw [Nat.add_comm, settle?_mono h] at hz
    obtain ⟨rfl, rfl⟩ := Prod.mk.inj (Option.some.inj hz)
    rw [if_pos (passes_of_settle? h').2]
  | none =>
    refine (if_neg fun hle => ?_).symm
    obtain ⟨more, rfl⟩ := Nat.exists_eq_add_of_le hle
    rw [settle?_mono (settle?_at_passes h)] at h'
    exact absurd h' (Option.some_ne_none _)

/-- **What every pass keeps holds of the settled value.** -/
theorem inv_of_settle? {P : α → Prop} {step : α → α} (hstep : ∀ x, P x → P (step x))
    {limit passes : Nat} {x y : α} (hx : P x)
    (h : settle? step limit x = some (y, passes)) : P y := by
  induction limit generalizing x passes with
  | zero => simp [settle?] at h
  | succ limit ih =>
    rw [settle?_succ] at h
    split at h
    · obtain ⟨rfl, _⟩ := Prod.mk.inj (Option.some.inj h)
      exact hx
    · obtain ⟨⟨z, n⟩, hr, hz⟩ := Option.map_eq_some_iff.mp h
      obtain ⟨rfl, _⟩ := Prod.mk.inj hz
      exact ih (hstep x hx) hr

/-- **Passes that make a value heavier, up to a bound, come to an end.** -/
theorem exists_settle? {P : α → Prop} {step : α → α} (weight : α → Nat) (bound : Nat)
    (hstep : ∀ x, P x → P (step x)) (hbound : ∀ x, P x → weight x ≤ bound)
    (hgrow : ∀ x, P x → step x ≠ x → weight x < weight (step x)) {limit : Nat} {x : α}
    (hx : P x) (hlimit : bound < weight x + limit) : ∃ r, settle? step limit x = some r := by
  induction limit generalizing x with
  | zero =>
    exact absurd (hbound x hx) (Nat.not_le_of_lt hlimit)
  | succ limit ih =>
    rw [settle?_succ]
    by_cases hsame : step x = x
    · exact ⟨(x, 1), if_pos hsame⟩
    · -- the value got heavier, so one pass less has to be enough
      have hheavier := hgrow x hx hsame
      obtain ⟨r, hr⟩ := ih (hstep x hx) (by omega)
      rw [if_neg hsame, hr]
      exact ⟨_, rfl⟩

end GrammarWorkbench
