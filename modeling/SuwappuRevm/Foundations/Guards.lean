import SuwappuRevm.Foundations.Machine

/-!
# Guarded calls

A call that checks one condition after another fails with the error of the first that holds. Here
the checks are a list, and how a call ends is compared with the first failure in its list.
-/

namespace SuwappuRevm.Foundations

variable {ε : Type*} {A B : Type}

/-- The first check that fails: the error of the first condition that holds. -/
def firstFailure : List (Bool × ε) → Except ε Unit
  | [] => .ok ()
  | (fails, e) :: checks => if fails then .error e else firstFailure checks

/-- How a computation ends, without its value. -/
def outcome (x : Except ε A) : Except ε Unit := x.map fun _ => ()

/-- The rest after a value. -/
theorem outcome_bind {x : Except ε A} {a : A} (h : x = .ok a) (f : A → Except ε B) :
    outcome (x >>= f) = outcome (f a) := by
  rw [h, ok_bind]

/-- What follows without failing does not matter. -/
theorem outcome_bind_ok (x : Except ε A) (f : A → B) :
    outcome (x >>= fun a => .ok (f a)) = outcome x := by
  cases x <;> rfl

/-- A guard is the first check of its list. -/
theorem outcome_failIf {c : Prop} [Decidable c] {e : ε} {f : Unit → Except ε A}
    {checks : List (Bool × ε)} (h : ¬c → outcome (f ()) = firstFailure checks) :
    outcome (failIf c e >>= f) = firstFailure ((decide c, e) :: checks) := by
  by_cases hc : c
  · rw [failIf_of hc, firstFailure, if_pos (decide_eq_true hc)]
    rfl
  · rw [failIf_of_not hc, ok_bind, firstFailure, if_neg (by simpa using hc)]
    exact h hc

/-- A check that cannot fail is skipped. -/
theorem firstFailure_skip {c : Prop} [Decidable c] (h : ¬c) (e : ε) (checks : List (Bool × ε)) :
    firstFailure ((decide c, e) :: checks) = firstFailure checks :=
  if_neg (by simpa using h)

end SuwappuRevm.Foundations
