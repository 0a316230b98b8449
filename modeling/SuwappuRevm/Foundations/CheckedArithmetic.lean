import Mathlib.Data.Nat.Basic
import Mathlib.Tactic.Ring

/-!
# Checked 256-bit arithmetic

Values are natural numbers; an operation whose exact result does not fit 256 bits, or would be
negative, fails with an error of the caller's choice. Each operation comes with the exact
condition under which it succeeds.
-/

namespace SuwappuRevm.Foundations

variable {ε : Type*}

/-- The number of 256-bit values. -/
def wordBound : ℕ := 2 ^ 256

/-- Addition that fails on overflow. -/
def checkedAdd (e : ε) (a b : ℕ) : Except ε ℕ :=
  if a + b < wordBound then .ok (a + b) else .error e

/-- Subtraction that fails on underflow. -/
def checkedSub (e : ε) (a b : ℕ) : Except ε ℕ :=
  if b ≤ a then .ok (a - b) else .error e

/-- Multiplication that fails on overflow. -/
def checkedMul (e : ε) (a b : ℕ) : Except ε ℕ :=
  if a * b < wordBound then .ok (a * b) else .error e

/-- Multiply, then divide; fails on a zero divisor or when the product overflows. -/
def checkedMulDiv (e : ε) (a b d : ℕ) : Except ε ℕ :=
  if d = 0 then .error e else if a * b < wordBound then .ok (a * b / d) else .error e

/-- Addition clamped at the largest 256-bit value. -/
def saturatingAdd (a b : ℕ) : ℕ := min (a + b) (wordBound - 1)

/-- Checked addition succeeds exactly when the sum fits. -/
@[simp] theorem checkedAdd_eq_ok {e : ε} {a b c : ℕ} :
    checkedAdd e a b = .ok c ↔ a + b < wordBound ∧ c = a + b := by
  rw [checkedAdd]
  split <;> simp_all [eq_comm]

/-- Checked subtraction succeeds exactly when the difference is a natural number. -/
@[simp] theorem checkedSub_eq_ok {e : ε} {a b c : ℕ} :
    checkedSub e a b = .ok c ↔ b ≤ a ∧ c = a - b := by
  rw [checkedSub]
  split <;> simp_all [eq_comm]

/-- Checked multiplication succeeds exactly when the product fits. -/
@[simp] theorem checkedMul_eq_ok {e : ε} {a b c : ℕ} :
    checkedMul e a b = .ok c ↔ a * b < wordBound ∧ c = a * b := by
  rw [checkedMul]
  split <;> simp_all [eq_comm]

/-- Checked multiply-divide succeeds exactly when the divisor is non-zero and the product fits. -/
@[simp] theorem checkedMulDiv_eq_ok {e : ε} {a b d c : ℕ} :
    checkedMulDiv e a b d = .ok c ↔ d ≠ 0 ∧ a * b < wordBound ∧ c = a * b / d := by
  rw [checkedMulDiv]
  split <;> (try split) <;> simp_all [eq_comm]

end SuwappuRevm.Foundations
