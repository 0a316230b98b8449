import Mathlib.Data.Fintype.Basic
import Mathlib.Data.ZMod.Defs
import Mathlib.Logic.Function.Basic
import SuwappuRevm.Foundations.Machine
import SuwappuRevm.Foundations.Bytes
import SuwappuRevm.Foundations.CheckedArithmetic

/-!
# Storage of the staking precompile

The records behind `StorageReader` and `StakingStorage`, keyed as the storage keys are. A `u256`
amount is a natural number with checked arithmetic, a `u64` epoch a natural number whose additions
wrap, a `u64` validator id and a `u8` withdrawal id elements of `Fin`.

Three fields are not storage slots: `balance` is the balance of the staking account, `received`
everything ever paid or minted to it, and `history` what the emitted logs and the reward
evaluations of each validator say, newest first. The handlers read none but `balance`.
-/

namespace SuwappuRevm.Staking

open Foundations

/-- A `u64` validator id. -/
abbrev ValId := Fin (2 ^ 64)

/-- There is a validator id. -/
instance valIdNeZero : NeZero (2 ^ 64) := ⟨by norm_num⟩

/-- Validator ids are compared by their values. -/
instance valIdLawfulBEq : LawfulBEq ValId := inferInstance

/-- A `u8` withdrawal id. -/
abbrev WithdrawId := Fin 256

/-- There is a withdrawal id. -/
instance withdrawIdNeZero : NeZero 256 := ⟨by norm_num⟩

/-- `PrecompileError`: out of gas, or a message. -/
inductive PrecompileError
  | outOfGas
  | other (message : String)
  deriving Repr, DecidableEq

/-- The error of failed checked arithmetic. -/
def internalError : PrecompileError := .other "internal error"

/-- The error of an unfunded reward. -/
def solvencyError : PrecompileError := .other "solvency error"

/-- Unchecked `u64` addition. -/
def u64Add (a b : ℕ) : ℕ := (a + b) % 2 ^ 64

/-- `MON`, one token. -/
def mon : ℕ := 10 ^ 18

/-- `UNIT_BIAS`, the precision of the accumulators. -/
def unitBias : ℕ := 10 ^ 36

/-- `DUST_THRESHOLD`. -/
def dustThreshold : ℕ := 10 ^ 9

/-- `MAX_COMMISSION`. -/
def maxCommission : ℕ := mon

/-- `MIN_AUTH_ADDRESS_STAKE`. -/
def minAuthAddressStake : ℕ := 10 ^ 23

/-- `ACTIVE_VALIDATOR_STAKE`. -/
def activeValidatorStake : ℕ := 10 ^ 25

/-- `MIN_EXTERNAL_REWARD`. -/
def minExternalReward : ℕ := dustThreshold

/-- `MAX_EXTERNAL_REWARD`. -/
def maxExternalReward : ℕ := 10 ^ 25

/-- `WITHDRAWAL_DELAY`, in epochs. -/
def withdrawalDelay : ℕ := 1

/-- `ACTIVE_VALSET_SIZE`. -/
def activeValsetSize : ℕ := 200

/-- `SYSTEM_ADDRESS`. -/
def systemAddress : Address := 0x6f49a8F621353f12378d0046E7d7e4b9B249DC9e

/-- `STAKING_ADDRESS`. -/
def stakingAddress : Address := 0x1000

/-- The flag words of a validator. -/
abbrev Flags := BitVec 64

/-- `validator_flags::OK`. -/
def flagsOk : Flags := 0

/-- `validator_flags::STAKE_TOO_LOW`. -/
def stakeTooLow : Flags := 1

/-- `validator_flags::WITHDRAWN`. -/
def withdrawn : Flags := 2

/-- `Validator`, the execution view. -/
structure Validator where
  stake : ℕ
  accumulatedRewardPerToken : ℕ
  commission : ℕ
  secpPubkey : Bytes
  blsPubkey : Bytes
  authAddress : Address
  flags : Flags
  unclaimedRewards : ℕ
  deriving DecidableEq

/-- A validator nobody has written. -/
def Validator.zero : Validator :=
  ⟨0, 0, 0, List.replicate 33 0, List.replicate 48 0, 0, 0, 0⟩

/-- `Validator::exists`. -/
def Validator.Exists (val : Validator) : Prop := val.authAddress ≠ 0

instance (val : Validator) : Decidable val.Exists := inferInstanceAs (Decidable (_ ≠ _))

/-- `Delegator`; `deltaEpoch` and `nextDeltaEpoch` are `0` when nothing is pending. -/
structure Delegator where
  stake : ℕ
  accumulatedRewardPerToken : ℕ
  rewards : ℕ
  deltaStake : ℕ
  nextDeltaStake : ℕ
  deltaEpoch : ℕ
  nextDeltaEpoch : ℕ
  deriving DecidableEq

/-- A delegator nobody has written. -/
def Delegator.zero : Delegator := ⟨0, 0, 0, 0, 0, 0, 0⟩

/-- `Delegator::exists`. -/
def Delegator.Exists (del : Delegator) : Prop :=
  del.stake ≠ 0 ∨ del.deltaStake ≠ 0 ∨ del.nextDeltaStake ≠ 0

instance (del : Delegator) : Decidable del.Exists := inferInstanceAs (Decidable (_ ∨ _))

/-- `Delegator::total_stake`, with saturating additions. -/
def Delegator.totalStake (del : Delegator) : ℕ :=
  saturatingAdd (saturatingAdd del.stake del.deltaStake) del.nextDeltaStake

/-- `ListNode`: the pointers of a delegator record into both delegation lists. -/
structure ListNode where
  inext : ValId
  iprev : ValId
  anext : Address
  aprev : Address
  deriving DecidableEq

/-- A node in neither list. -/
def ListNode.zero : ListNode := ⟨0, 0, 0, 0⟩

/-- `ListNode::SENTINEL_VAL_ID`. -/
def sentinelValId : ValId := 2 ^ 64 - 1

/-- `ListNode::SENTINEL_ADDRESS`. -/
def sentinelAddress : Address := 2 ^ 160 - 1

/-- `RefCountedAccumulator`; the count is a `u64`. -/
structure RefCountedAccumulator where
  value : ℕ
  refcount : ℕ
  deriving DecidableEq

/-- `WithdrawalRequest`; it is open when its amount is not zero. -/
structure WithdrawalRequest where
  amount : ℕ
  accumulator : ℕ
  epoch : ℕ
  deriving DecidableEq

/-- A request nobody has opened. -/
def WithdrawalRequest.zero : WithdrawalRequest := ⟨0, 0, 0⟩

/-- `ConsensusView`: stake and commission at a snapshot. -/
structure ConsensusView where
  stake : ℕ
  commission : ℕ
  deriving DecidableEq

/-- A cleared view. -/
def ConsensusView.zero : ConsensusView := ⟨0, 0⟩

/-- A `StorageArray<u64>`: its length slot and its element slots. -/
structure Valset where
  length : ℕ
  slot : ℕ → ValId

/-- The ids an array lists. -/
def Valset.toList (a : Valset) : List ValId := (List.range a.length).map a.slot

/-- What happened to one validator's pool, one entry for each log or reward evaluation. -/
inductive PoolEvent
  | delegated (delegator : Address) (amount activationEpoch : ℕ)
  | undelegated (delegator : Address) (amount activationEpoch : ℕ)
  | rewarded (epoch reward activeStake : ℕ)
  | commission (authAddress : Address) (amount : ℕ)
  | settled (delegator : Address) (rewards : ℕ)
  | withdrawn (delegator : Address) (amount rewards : ℕ)
  | claimed (delegator : Address) (amount : ℕ)
  deriving DecidableEq

/-- The staking account. -/
structure Storage where
  epoch : ℕ
  inBoundary : Bool
  lastValId : ValId
  proposerValId : ValId
  validators : ValId → Validator
  delegators : ValId → Address → Delegator
  listNodes : ValId → Address → ListNode
  withdrawals : ValId → Address → WithdrawId → WithdrawalRequest
  accumulators : ℕ → ValId → RefCountedAccumulator
  consensusView : ValId → ConsensusView
  snapshotView : ValId → ConsensusView
  execution : Valset
  consensus : Valset
  snapshot : Valset
  bitset : ℕ → BitVec 256
  valIdSecp : Address → ValId
  valIdBls : Address → ValId
  balance : ℕ
  received : ℕ
  history : ValId → List PoolEvent

/-- Empty storage. -/
def Storage.empty : Storage where
  epoch := 0
  inBoundary := false
  lastValId := 0
  proposerValId := 0
  validators _ := .zero
  delegators _ _ := .zero
  listNodes _ _ := .zero
  withdrawals _ _ _ := .zero
  accumulators _ _ := ⟨0, 0⟩
  consensusView _ := .zero
  snapshotView _ := .zero
  execution := ⟨0, fun _ => 0⟩
  consensus := ⟨0, fun _ => 0⟩
  snapshot := ⟨0, fun _ => 0⟩
  bitset _ := 0
  valIdSecp _ := 0
  valIdBls _ := 0
  balance := 0
  received := 0
  history _ := []

section Writes

variable (s : Storage) (valId : ValId)

/-- Write a validator record. -/
def Storage.writeValidator (val : Validator) : Storage :=
  { s with validators := Function.update s.validators valId val }

/-- `write_delegator`. -/
def Storage.writeDelegator (addr : Address) (del : Delegator) : Storage :=
  { s with delegators :=
      Function.update s.delegators valId (Function.update (s.delegators valId) addr del) }

/-- `write_list_node`. -/
def Storage.writeListNode (addr : Address) (node : ListNode) : Storage :=
  { s with listNodes :=
      Function.update s.listNodes valId (Function.update (s.listNodes valId) addr node) }

/-- `write_withdrawal_request` and `clear_withdrawal_request`. -/
def Storage.writeWithdrawalRequest (addr : Address) (wid : WithdrawId)
    (request : WithdrawalRequest) : Storage :=
  let requests := Function.update (s.withdrawals valId addr) wid request
  { s with withdrawals :=
      Function.update s.withdrawals valId (Function.update (s.withdrawals valId) addr requests) }

/-- `write_accumulator`. -/
def Storage.writeAccumulator (epoch : ℕ) (acc : RefCountedAccumulator) : Storage :=
  { s with accumulators :=
      Function.update s.accumulators epoch (Function.update (s.accumulators epoch) valId acc) }

/-- `write_validator_stake`. -/
def Storage.writeValidatorStake (stake : ℕ) : Storage :=
  s.writeValidator valId { s.validators valId with stake }

/-- `write_validator_unclaimed_rewards`. -/
def Storage.writeValidatorUnclaimedRewards (unclaimedRewards : ℕ) : Storage :=
  s.writeValidator valId { s.validators valId with unclaimedRewards }

/-- `write_validator_acc`. -/
def Storage.writeValidatorAcc (accumulatedRewardPerToken : ℕ) : Storage :=
  s.writeValidator valId { s.validators valId with accumulatedRewardPerToken }

/-- Add to the history of a validator. -/
def Storage.record (event : PoolEvent) : Storage :=
  { s with history := Function.update s.history valId (event :: s.history valId) }

end Writes

end SuwappuRevm.Staking
