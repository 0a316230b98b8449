import Mathlib.Algebra.GroupWithZero.Nat
import Mathlib.Algebra.Order.BigOperators.Group.List

/-!
# Reward indices

A reward index is a log of increments, each with the time at which it happened. A lazy account
keeps an index value and is paid the growth since then; an eager one is paid its weight at the time
of every increment. The lemmas say how the totals move when an increment is added, which is all
that is needed to keep the two in step along a run.
-/

namespace SuwappuRevm.Foundations

/-- Timed increments, newest first. -/
abbrev IndexLog := List (ℕ × ℕ)

/-- The index after all increments. -/
def indexTotal (log : IndexLog) : ℕ := (log.map Prod.snd).sum

/-- The index when a time begins. -/
def indexBefore (log : IndexLog) (time : ℕ) : ℕ :=
  (log.map fun e => if e.1 < time then e.2 else 0).sum

/-- The eager payout of a weight that depends on the time. -/
def eagerTotal (log : IndexLog) (weight : ℕ → ℕ) : ℕ := (log.map fun e => e.2 * weight e.1).sum

variable {log : IndexLog} {time inc a b : ℕ}

/-- An increment raises the index. -/
@[simp] theorem indexTotal_cons : indexTotal ((time, inc) :: log) = inc + indexTotal log := by
  simp [indexTotal]

/-- An increment raises the index at the later times. -/
@[simp] theorem indexBefore_cons :
    indexBefore ((time, inc) :: log) a = (if time < a then inc else 0) + indexBefore log a := by
  simp [indexBefore]

/-- An increment is paid to the weight at its time. -/
@[simp] theorem eagerTotal_cons (weight : ℕ → ℕ) :
    eagerTotal ((time, inc) :: log) weight = inc * weight time + eagerTotal log weight := by
  simp [eagerTotal]

/-- The eager payout depends on the weights at the times of the increments only. -/
theorem eagerTotal_congr {weight weight' : ℕ → ℕ} (h : ∀ e ∈ log, weight e.1 = weight' e.1) :
    eagerTotal log weight = eagerTotal log weight' := by
  refine congrArg List.sum (List.map_congr_left fun e he => ?_)
  rw [h e he]

/-- The index never falls in time. -/
theorem indexBefore_mono (log : IndexLog) (h : a ≤ b) : indexBefore log a ≤ indexBefore log b := by
  induction log with
  | nil => exact le_rfl
  | cons e log ih =>
    rw [indexBefore_cons, indexBefore_cons]
    split_ifs with ha hb <;> omega

/-- At no time is the index above its total. -/
theorem indexBefore_le (log : IndexLog) (a : ℕ) : indexBefore log a ≤ indexTotal log := by
  induction log with
  | nil => exact le_rfl
  | cons e log ih =>
    rw [indexBefore_cons, indexTotal_cons]
    split_ifs <;> omega

/-- After all increments the index is its total. -/
theorem indexBefore_eq_total (h : ∀ e ∈ log, e.1 < a) : indexBefore log a = indexTotal log := by
  induction log with
  | nil => rfl
  | cons e log ih =>
    have hlog := ih fun e he => h e (List.mem_cons_of_mem _ he)
    rw [indexBefore_cons, indexTotal_cons, hlog, if_pos (h e List.mem_cons_self)]

/-- A log goes on from a time when its new increments are not before that time. -/
def GoesOn (time : ℕ) (log log' : IndexLog) : Prop :=
  ∃ new, log' = new ++ log ∧ ∀ e ∈ new, time ≤ e.1

/-- A log goes on with nothing new. -/
theorem GoesOn.refl (time : ℕ) (log : IndexLog) : GoesOn time log log :=
  ⟨[], rfl, fun _ he => absurd he List.not_mem_nil⟩

/-- A log goes on with an increment. -/
theorem GoesOn.cons (time inc : ℕ) (log : IndexLog) : GoesOn time log ((time, inc) :: log) := by
  refine ⟨[(time, inc)], rfl, fun e he => ?_⟩
  rw [List.mem_singleton.mp he]

/-- A log goes on from where it has gone on at a later time. -/
theorem GoesOn.trans {log' log'' : IndexLog} (h : GoesOn a log log') (h' : GoesOn b log' log'')
    (hab : a ≤ b) : GoesOn a log log'' := by
  obtain ⟨new, rfl, hnew⟩ := h
  obtain ⟨new', rfl, hnew'⟩ := h'
  refine ⟨new' ++ new, (List.append_assoc ..).symm, fun e he => ?_⟩
  rcases List.mem_append.mp he with he | he
  · exact hab.trans (hnew' e he)
  · exact hnew e he

/-- The index up to a time from which a log goes on is settled. -/
theorem GoesOn.indexBefore_eq {log' : IndexLog} (h : GoesOn time log log') (ha : a ≤ time) :
    indexBefore log' a = indexBefore log a := by
  obtain ⟨new, rfl, hnew⟩ := h
  have hnone : indexBefore new a = 0 := by
    refine List.sum_eq_zero fun x hx => ?_
    obtain ⟨e, hmem, rfl⟩ := List.mem_map.mp hx
    exact if_neg (not_lt.mpr (ha.trans (hnew e hmem)))
  rw [indexBefore, List.map_append, List.sum_append]
  change indexBefore new a + indexBefore log a = indexBefore log a
  rw [hnone, Nat.zero_add]

/-- The index at a time after a whole log is at least the total of that log. -/
theorem GoesOn.total_le {log' : IndexLog} (h : GoesOn time log log') (hlog : ∀ e ∈ log, e.1 < a) :
    indexTotal log ≤ indexBefore log' a := by
  obtain ⟨new, rfl, -⟩ := h
  rw [← indexBefore_eq_total hlog, indexBefore, indexBefore, List.map_append, List.sum_append]
  exact Nat.le_add_left ..

end SuwappuRevm.Foundations
