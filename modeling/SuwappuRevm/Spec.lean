import Mathlib.Data.Nat.Notation

/-!
# Hardforks

The hardforks of the chain in their order of activation, by their discriminants.
-/

namespace SuwappuRevm

/-- `MonadSpecId`. -/
inductive MonadSpecId
  | monadEight
  | monadNine
  | monadNext
  deriving DecidableEq, Repr

/-- The discriminant of a hardfork, by activation order. -/
def MonadSpecId.discriminant : MonadSpecId → ℕ
  | .monadEight => 100
  | .monadNine => 101
  | .monadNext => 102

/-- `is_enabled_in`: a hardfork is enabled when it was activated no later than the active one. -/
def MonadSpecId.isEnabledIn (self other : MonadSpecId) : Bool :=
  self.discriminant ≤ other.discriminant

/-- The first hardfork is enabled in all. -/
@[simp] theorem monadEight_isEnabledIn (spec : MonadSpecId) :
    MonadSpecId.monadEight.isEnabledIn spec = true := by
  cases spec <;> rfl

end SuwappuRevm
