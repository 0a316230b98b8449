import SuwappuRevm.Staking.Storage

/-!
# Settlement of a delegator

`pull_delegator_up_to_date` promotes pending stake, compounds the tracks whose epoch has begun
against the accumulator entries of those epochs, and accrues the active stake against the
validator's accumulator. The record and the validator's unclaimed rewards are held in memory and
written once at the end; the reference-counted entries are written on the way.
-/

namespace SuwappuRevm.Staking

open Foundations

/-- `get_activation_epoch`. -/
def Storage.getActivationEpoch (s : Storage) : ℕ :=
  if s.inBoundary then u64Add s.epoch 2 else u64Add s.epoch 1

/-- `is_epoch_active`. -/
def isEpochActive (currentEpoch activeEpoch : ℕ) : Bool :=
  activeEpoch != 0 && decide (activeEpoch ≤ currentEpoch)

/-- `calculate_rewards`. -/
def calculateRewards (stake epochAcc lastAcc : ℕ) : Except PrecompileError ℕ := do
  let diff ← checkedSub internalError epochAcc lastAcc
  checkedMulDiv internalError diff stake unitBias

/-- `increment_accumulator_refcount`; the count is incremented unchecked. -/
def incrementAccumulatorRefcount (s : Storage) (valId : ValId) : Storage :=
  let epoch := s.getActivationEpoch
  let refcount := u64Add (s.accumulators epoch valId).refcount 1
  s.writeAccumulator valId epoch ⟨(s.validators valId).accumulatedRewardPerToken, refcount⟩

/-- `decrement_accumulator_refcount`: the entry's value, `0` without a reference. -/
def decrementAccumulatorRefcount (s : Storage) (epoch : ℕ) (valId : ValId) : ℕ × Storage :=
  let acc := s.accumulators epoch valId
  if acc.refcount = 0 then (0, s)
  else if acc.refcount - 1 = 0 then (acc.value, s.writeAccumulator valId epoch ⟨0, 0⟩)
  else (acc.value, s.writeAccumulator valId epoch ⟨acc.value, acc.refcount - 1⟩)

/-- The part of `apply_compound` on the record: the rewards up to the entry's value, and the
delta track folded into the stake. -/
def compoundRecord (del : Delegator) (epochAcc : ℕ) :
    Except PrecompileError (ℕ × Delegator) := do
  let rewards ← calculateRewards del.stake epochAcc del.accumulatedRewardPerToken
  let stake ← checkedAdd internalError del.stake del.deltaStake
  return (rewards,
    { del with
      accumulatedRewardPerToken := epochAcc
      stake
      deltaStake := del.nextDeltaStake
      nextDeltaStake := 0
      deltaEpoch := del.nextDeltaEpoch
      nextDeltaEpoch := 0 })

/-- `apply_compound`. -/
def applyCompound (s : Storage) (valId : ValId) (del : Delegator) :
    Except PrecompileError (ℕ × Delegator × Storage) := do
  let (epochAcc, s) := decrementAccumulatorRefcount s del.deltaEpoch valId
  let (rewards, del) ← compoundRecord del epochAcc
  return (rewards, del, s)

/-- Credit rewards to a record out of the unclaimed rewards: the check after every evaluation. -/
def rewardInvariant (unclaimedRewards : ℕ) (del : Delegator) (rewards : ℕ) :
    Except PrecompileError (ℕ × Delegator) := do
  failIf (unclaimedRewards < rewards) solvencyError
  let unclaimedRewards ← checkedSub internalError unclaimedRewards rewards
  let credited ← checkedAdd internalError del.rewards rewards
  return (unclaimedRewards, { del with rewards := credited })

/-- What a settlement holds between its steps. -/
structure Settling where
  storage : Storage
  del : Delegator
  unclaimedRewards : ℕ

/-- The promotion of the next track when nothing is pending on the first. -/
def promoteNext (currentEpoch : ℕ) (del : Delegator) : Delegator :=
  if del.deltaEpoch = 0 ∧ del.nextDeltaEpoch ≤ u64Add currentEpoch 1 ∧ del.nextDeltaEpoch ≠ 0 then
    { del with
      deltaStake := del.nextDeltaStake
      nextDeltaStake := 0
      deltaEpoch := del.nextDeltaEpoch
      nextDeltaEpoch := 0 }
  else del

/-- Compound the delta track and credit its rewards. -/
def compoundTrack (valId : ValId) (addr : Address) (x : Settling) :
    Except PrecompileError Settling := do
  let (rewards, del, s) ← applyCompound x.storage valId x.del
  let (unclaimedRewards, del) ← rewardInvariant x.unclaimedRewards del rewards
  return ⟨s.record valId (.settled addr rewards), del, unclaimedRewards⟩

/-- Compound when the track can be. -/
def compoundIf (can : Bool) (valId : ValId) (addr : Address) (x : Settling) :
    Except PrecompileError Settling :=
  if can then compoundTrack valId addr x else .ok x

/-- Accrue rewards for active stake. -/
def accrueActive (valId : ValId) (addr : Address) (x : Settling) :
    Except PrecompileError Settling :=
  if x.del.stake = 0 then .ok x
  else do
    let valAcc := (x.storage.validators valId).accumulatedRewardPerToken
    let rewards ← calculateRewards x.del.stake valAcc x.del.accumulatedRewardPerToken
    let (unclaimedRewards, del) ← rewardInvariant x.unclaimedRewards
      { x.del with accumulatedRewardPerToken := valAcc } rewards
    return ⟨x.storage.record valId (.settled addr rewards), del, unclaimedRewards⟩

/-- `pull_delegator_up_to_date`. Both tracks are checked before any compounding; the boundary
track goes first. -/
def pullDelegatorUpToDate (s : Storage) (valId : ValId) (addr : Address) :
    Except PrecompileError (Delegator × Storage) := do
  let del := promoteNext s.epoch (s.delegators valId addr)
  let canCompound := isEpochActive s.epoch del.deltaEpoch
  let canCompoundBoundary := isEpochActive s.epoch del.nextDeltaEpoch
  let x ← compoundIf canCompoundBoundary valId addr
    ⟨s, del, (s.validators valId).unclaimedRewards⟩
  let x ← compoundIf canCompound valId addr x
  let x ← accrueActive valId addr x
  let s := x.storage.writeValidatorUnclaimedRewards valId x.unclaimedRewards
  return (x.del, s.writeDelegator valId addr x.del)

end SuwappuRevm.Staking
