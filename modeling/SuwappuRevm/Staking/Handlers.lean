import SuwappuRevm.Staking.Delegation

/-!
# User methods of the staking precompile

The handlers of `run_staking_write` on decoded calldata. A handler checks its gas first, returns
its gas cost and output, and any error reverts the call. `transfer` pays the caller out of the
contract's balance.
-/

namespace SuwappuRevm.Staking

open Foundations

/-- What a handler answers, before ABI encoding. -/
inductive Output
  | success
  | validatorId (id : ValId)
  | delegator (del : Delegator)
  | none
  deriving DecidableEq

/-- The state after a successful call, the gas it used and its output. -/
structure Answer where
  storage : Storage
  gasUsed : ℕ
  output : Output

/-- A call to the precompile. The precompile itself sends none; `callerBalance` is the caller's
balance after paying `callValue`. -/
structure Message where
  caller : Address
  gasLimit : ℕ
  callValue : ℕ
  callerBalance : ℕ
  caller_ne : caller ≠ stakingAddress

/-- The gas costs of the methods. -/
structure GasCosts where
  delegate : ℕ
  undelegate : ℕ
  withdraw : ℕ
  compound : ℕ
  claimRewards : ℕ
  addValidator : ℕ
  changeCommission : ℕ
  externalReward : ℕ
  getDelegator : ℕ
  syscallReward : ℕ
  syscallSnapshot : ℕ
  syscallOnEpochChange : ℕ

/-- The `gas` module. -/
def gas : GasCosts where
  delegate := 260850
  undelegate := 147750
  withdraw := 68675
  compound := 289325
  claimRewards := 155375
  addValidator := 505125
  changeCommission := 39475
  externalReward := 66575
  getDelegator := 184900
  syscallReward := 100000
  syscallSnapshot := 500000
  syscallOnEpochChange := 50000

/-- `StakingStorage::transfer` from the staking account to the caller. -/
def transfer (s : Storage) (msg : Message) (amount : ℕ) : Except PrecompileError Storage :=
  if amount = 0 then .ok s
  else do
    failIf (s.balance < amount) (.other "Transfer failed: OutOfFunds")
    failIf (wordBound ≤ msg.callerBalance + amount) (.other "Transfer failed: OverflowPayment")
    return { s with balance := s.balance - amount }

/-- The error of an id no validator has. -/
def unknownValidator : PrecompileError := .other "unknown validator"

/-- `handle_change_commission`. -/
def handleChangeCommission (s : Storage) (msg : Message) (validatorId : ValId) (commission : ℕ) :
    Except PrecompileError Answer := do
  failIf (msg.gasLimit < gas.changeCommission) .outOfGas
  let val := s.validators validatorId
  failIf (¬val.Exists) unknownValidator
  failIf (msg.caller ≠ val.authAddress) (.other "requires auth address")
  failIf (commission > maxCommission) (.other "commission too high")
  let s :=
    if commission ≠ val.commission then
      s.writeValidator validatorId { val with commission }
    else s
  return ⟨s, gas.changeCommission, .success⟩

/-- Pay out or re-delegate: clear the credited rewards of a settled record. -/
def takeRewards (s : Storage) (validatorId : ValId) (addr : Address) (del : Delegator) : Storage :=
  (s.writeDelegator validatorId addr { del with rewards := 0 }).record validatorId
    (.claimed addr del.rewards)

/-- `handle_claim_rewards`. -/
def handleClaimRewards (s : Storage) (msg : Message) (validatorId : ValId) :
    Except PrecompileError Answer := do
  failIf (msg.gasLimit < gas.claimRewards) .outOfGas
  let (del, s) ← pullDelegatorUpToDate s validatorId msg.caller
  if del.rewards = 0 then return ⟨s, gas.claimRewards, .success⟩
  else
    let s ← transfer s msg del.rewards
    return ⟨takeRewards s validatorId msg.caller del, gas.claimRewards, .success⟩

/-- The stake of a validator in the view that rewards use. -/
def Storage.activeStake (s : Storage) (validatorId : ValId) : ℕ :=
  if s.inBoundary then (s.snapshotView validatorId).stake else (s.consensusView validatorId).stake

/-- `handle_external_reward`. -/
def handleExternalReward (s : Storage) (msg : Message) (validatorId : ValId) :
    Except PrecompileError Answer := do
  failIf (msg.gasLimit < gas.externalReward) .outOfGas
  let val := s.validators validatorId
  failIf (¬val.Exists) unknownValidator
  let activeStake := s.activeStake validatorId
  failIf (activeStake = 0) (.other "not in validator set")
  failIf (msg.callValue < minExternalReward) (.other "external reward too small")
  failIf (msg.callValue > maxExternalReward) (.other "external reward too large")
  let rewardAcc ← checkedMulDiv internalError msg.callValue unitBias activeStake
  let newAcc ← checkedAdd internalError val.accumulatedRewardPerToken rewardAcc
  let s := s.writeValidatorAcc validatorId newAcc
  let unclaimed ← checkedAdd internalError val.unclaimedRewards msg.callValue
  let s := s.writeValidatorUnclaimedRewards validatorId unclaimed
  let s := s.record validatorId (.rewarded s.epoch msg.callValue activeStake)
  return ⟨s, gas.externalReward, .success⟩

/-- `handle_delegate`. -/
def handleDelegate (s : Storage) (msg : Message) (validatorId : ValId) :
    Except PrecompileError Answer := do
  failIf (msg.gasLimit < gas.delegate) .outOfGas
  failIf (¬(s.validators validatorId).Exists) unknownValidator
  if msg.callValue = 0 then return ⟨s, gas.delegate, .success⟩
  else
    failIf (msg.callValue < dustThreshold) (.other "delegation is too small")
    let s ← internalDelegate s validatorId msg.caller msg.callValue
    return ⟨s, gas.delegate, .success⟩

/-- `handle_undelegate`. -/
def handleUndelegate (s : Storage) (msg : Message) (validatorId : ValId) (amount : ℕ)
    (withdrawId : WithdrawId) : Except PrecompileError Answer := do
  failIf (msg.gasLimit < gas.undelegate) .outOfGas
  if amount = 0 then return ⟨s, gas.undelegate, .success⟩
  else
    failIf (¬(s.validators validatorId).Exists) unknownValidator
    failIf ((s.withdrawals validatorId msg.caller withdrawId).amount ≠ 0)
      (.other "withdrawal id exists")
    let (del, s) ← pullDelegatorUpToDate s validatorId msg.caller
    failIf (del.stake < amount) (.other "insufficient stake")
    let remaining ← checkedSub internalError del.stake amount
    -- dust collection: a remainder below the threshold leaves with the rest
    let amount := if remaining ≠ 0 ∧ remaining < dustThreshold then del.stake else amount
    let wrAcc := del.accumulatedRewardPerToken
    let left ← checkedSub internalError del.stake amount
    let del := { del with
      stake := left
      accumulatedRewardPerToken := if left = 0 then 0 else del.accumulatedRewardPerToken }
    let val := s.validators validatorId
    let stake ← checkedSub internalError val.stake amount
    let s := s.writeValidatorStake validatorId stake
    let s := (updateValidatorFlagsAfterUndelegate s validatorId { val with stake } del
      msg.caller).2
    let activationEpoch := s.getActivationEpoch
    let s := s.writeWithdrawalRequest validatorId msg.caller withdrawId
      ⟨amount, wrAcc, activationEpoch⟩
    let s := incrementAccumulatorRefcount s validatorId
    let s := s.writeDelegator validatorId msg.caller del
    let s := if del.Exists then s else linkedListRemove s validatorId msg.caller
    let s := s.record validatorId (.undelegated msg.caller amount activationEpoch)
    return ⟨s, gas.undelegate, .success⟩

/-- `handle_withdraw`. -/
def handleWithdraw (s : Storage) (msg : Message) (validatorId : ValId) (withdrawId : WithdrawId) :
    Except PrecompileError Answer := do
  failIf (msg.gasLimit < gas.withdraw) .outOfGas
  let wr := s.withdrawals validatorId msg.caller withdrawId
  failIf (wr.amount = 0) (.other "unknown withdrawal id")
  failIf (¬isEpochActive s.epoch wr.epoch ∨ u64Add wr.epoch withdrawalDelay > s.epoch)
    (.other "withdrawal not ready")
  let (epochAcc, s) := decrementAccumulatorRefcount s wr.epoch validatorId
  let rewards ← calculateRewards wr.amount epochAcc wr.accumulator
  let val := s.validators validatorId
  failIf (val.unclaimedRewards < rewards) solvencyError
  let unclaimed ← checkedSub internalError val.unclaimedRewards rewards
  let s := s.writeValidatorUnclaimedRewards validatorId unclaimed
  let totalPayout ← checkedAdd internalError wr.amount rewards
  let s ← transfer s msg totalPayout
  let s := s.writeWithdrawalRequest validatorId msg.caller withdrawId .zero
  let s := s.record validatorId (.withdrawn msg.caller wr.amount rewards)
  return ⟨s, gas.withdraw, .success⟩

/-- `handle_compound`. -/
def handleCompound (s : Storage) (msg : Message) (validatorId : ValId) :
    Except PrecompileError Answer := do
  failIf (msg.gasLimit < gas.compound) .outOfGas
  let (del, s) ← pullDelegatorUpToDate s validatorId msg.caller
  if del.rewards = 0 then return ⟨s, gas.compound, .success⟩
  else
    let s := takeRewards s validatorId msg.caller del
    let s ← internalDelegate s validatorId msg.caller del.rewards
    return ⟨s, gas.compound, .success⟩

/-- The part of `handle_add_validator` that creates the record, its id and its lookups. -/
def createValidator (s : Storage) (secpPubkey blsPubkey : Bytes) (authAddress : Address)
    (commission : ℕ) : Except PrecompileError (ValId × Storage) := do
  let blsAddr := Address.ofBytes (blsPubkey.take 20)
  failIf (s.valIdSecp authAddress ≠ 0) (.other "validator exists")
  failIf (s.valIdBls blsAddr ≠ 0) (.other "validator exists")
  let newValId := s.lastValId + 1
  let s := { s with
    lastValId := newValId
    valIdSecp := Function.update s.valIdSecp authAddress newValId
    valIdBls := Function.update s.valIdBls blsAddr newValId }
  return (newValId,
    s.writeValidator newValId
      ⟨0, 0, commission, secpPubkey, blsPubkey, authAddress, stakeTooLow, 0⟩)

/-- `handle_add_validator`. Signatures are not verified, and the auth address stands in for the
secp address. -/
def handleAddValidator (s : Storage) (msg : Message) (payload : Bytes) :
    Except PrecompileError Answer := do
  failIf (msg.gasLimit < gas.addValidator) .outOfGas
  failIf (payload.length < 165) invalidInput
  let secpPubkey := payload.take 33
  let blsPubkey := (payload.drop 33).take 48
  let authAddress := Address.ofBytes ((payload.drop 81).take 20)
  let signedStake := beNat ((payload.drop 101).take 32)
  let commission := beNat ((payload.drop 133).take 32)
  failIf (msg.callValue ≠ signedStake) invalidInput
  failIf (msg.callValue < minAuthAddressStake) (.other "insufficient stake")
  failIf (commission > maxCommission) (.other "commission too high")
  let (newValId, s) ← createValidator s secpPubkey blsPubkey authAddress commission
  let s ← internalDelegate s newValId authAddress msg.callValue
  return ⟨s, gas.addValidator, .validatorId newValId⟩

/-- `handle_get_delegator_write`: settles the named delegator and returns the record. -/
def handleGetDelegatorWrite (s : Storage) (msg : Message) (validatorId : ValId)
    (delegator : Address) : Except PrecompileError Answer := do
  failIf (msg.gasLimit < gas.getDelegator) .outOfGas
  let (del, s) ← pullDelegatorUpToDate s validatorId delegator
  return ⟨s, gas.getDelegator, .delegator del⟩

end SuwappuRevm.Staking
