import Mathlib.Data.Nat.Notation

/-!
# Gas meters

The gas meter of an interpreter frame or a precompile call, and the results that end one. A charge
that the remaining gas does not cover is refused and changes nothing.
-/

namespace SuwappuRevm.Foundations

/-- The memory part of a gas meter. -/
structure MemoryGas where
  wordsNum : ℕ := 0
  expansionCost : ℕ := 0
  deriving DecidableEq, Repr

/-- Store the new words and their cost, and give the difference to the old cost unless the cost
went down. -/
def MemoryGas.setWordsNum (gas : MemoryGas) (wordsNum cost : ℕ) : Option ℕ × MemoryGas :=
  (if gas.expansionCost ≤ cost then some (cost - gas.expansionCost) else none,
    ⟨wordsNum, cost⟩)

/-- The gas meter of a frame. -/
structure Gas where
  limit : ℕ
  remaining : ℕ
  memory : MemoryGas := {}
  deriving DecidableEq, Repr

/-- A fresh meter. -/
def Gas.new (limit : ℕ) : Gas := { limit, remaining := limit }

/-- The gas spent so far. -/
def Gas.spent (gas : Gas) : ℕ := gas.limit - gas.remaining

/-- Charge a cost, if the remaining gas covers it. -/
def Gas.recordCost (gas : Gas) (cost : ℕ) : Option Gas :=
  if cost ≤ gas.remaining then some { gas with remaining := gas.remaining - cost } else none

/-- Results that stop a frame. -/
inductive InstructionResult
  | return
  | revert
  | outOfGas
  | precompileOOG
  | memoryOOG
  | memoryLimitOOG
  | invalidOperandOOG
  | stackUnderflow
  | outOfOffset
  | notActivated
  | createInitCodeSizeLimit
  | callNotAllowedInsideStatic
  | stateChangeDuringStaticCall
  | fatalExternalError
  deriving DecidableEq, Repr

/-- A charge within the remaining gas leaves the rest. -/
theorem Gas.recordCost_of_le {gas : Gas} {cost : ℕ} (h : cost ≤ gas.remaining) :
    gas.recordCost cost = some { gas with remaining := gas.remaining - cost } :=
  if_pos h

end SuwappuRevm.Foundations
