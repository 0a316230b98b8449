import Mathlib.Order.MinMax
import Mathlib.Order.Monotone.Basic
import Mathlib.Data.List.Basic
import Mathlib.Data.Nat.Basic

/-!
# High-water marks

A resource grows to the largest size requested so far and each growth is charged the difference of
a monotone cost. The charges telescope: whatever the order of the requests, their sum is the cost
of the peak less the cost of the first mark.
-/

namespace SuwappuRevm.Foundations

variable {α : Type*} [LinearOrder α]

/-- The mark after the requests, starting from `mark`. -/
def peak (mark : α) (requests : List α) : α := requests.foldl max mark

/-- The charges of the requests, each for the growth it causes. -/
def toll (cost : α → ℕ) : α → List α → ℕ
  | _, [] => 0
  | mark, request :: requests =>
    (cost (max mark request) - cost mark) + toll cost (max mark request) requests

/-- No request leaves the mark. -/
@[simp] theorem peak_nil (mark : α) : peak mark [] = mark := rfl

/-- The first request raises the mark before the others. -/
@[simp] theorem peak_cons (mark request : α) (requests : List α) :
    peak mark (request :: requests) = peak (max mark request) requests := rfl

/-- Later requests raise the mark the earlier ones left. -/
theorem peak_append (mark : α) (requests later : List α) :
    peak mark (requests ++ later) = peak (peak mark requests) later :=
  List.foldl_append

/-- The charges telescope to the cost of the peak. -/
theorem toll_add_cost {cost : α → ℕ} (hcost : Monotone cost) (mark : α) (requests : List α) :
    toll cost mark requests + cost mark = cost (peak mark requests) := by
  induction requests generalizing mark with
  | nil => simp [toll]
  | cons request requests ih =>
    have hstep : cost mark ≤ cost (max mark request) := hcost (le_max_left mark request)
    calc toll cost mark (request :: requests) + cost mark
        = toll cost (max mark request) requests + cost (max mark request) := by
          rw [toll]
          omega
      _ = cost (peak mark (request :: requests)) := ih (max mark request)

end SuwappuRevm.Foundations
