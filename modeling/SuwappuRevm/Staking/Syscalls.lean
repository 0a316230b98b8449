import Mathlib.Data.List.Sort
import SuwappuRevm.Staking.Handlers

/-!
# Syscalls and the staking machine

The three syscalls of the block processor, the dispatch of a decoded call, and the transition of
the whole contract: the value of the call is credited first, the handler runs, and a failed call
reverts to the state before it.
-/

namespace SuwappuRevm.Staking

open Foundations

/-- The error of a caller other than the system address. -/
def unauthorized : PrecompileError := .other "Unauthorized: not system address"

/-- The commission rate in the view that rewards use. -/
def Storage.viewCommission (s : Storage) (validatorId : ValId) : ℕ :=
  if s.inBoundary then (s.snapshotView validatorId).commission
  else (s.consensusView validatorId).commission

/-- The accumulator step of `handle_syscall_reward`: skipped when the delegators' share is zero. -/
def applyRewardAcc (s : Storage) (valId : ValId) (acc delReward activeStake : ℕ) :
    Except PrecompileError Storage :=
  if delReward ≠ 0 ∧ activeStake ≠ 0 then do
    let rewardAcc ← checkedMulDiv internalError delReward unitBias activeStake
    let newAcc ← checkedAdd internalError acc rewardAcc
    return s.writeValidatorAcc valId newAcc
  else .ok s

/-- `handle_syscall_reward` with the resolved block reward. -/
def handleSyscallReward (s : Storage) (msg : Message) (blockAuthor : Address) (blockReward : ℕ) :
    Except PrecompileError Answer := do
  failIf (msg.gasLimit < gas.syscallReward) .outOfGas
  failIf (msg.caller ≠ systemAddress) unauthorized
  let valId := s.valIdSecp blockAuthor
  failIf (valId = 0) (.other "not in validator set")
  let activeStake := s.activeStake valId
  failIf (activeStake = 0) (.other "not in validator set")
  let commissionAmount ← checkedMulDiv internalError blockReward (s.viewCommission valId) mon
  let delReward ← checkedSub internalError blockReward commissionAmount
  let val := s.validators valId
  let authDel := s.delegators valId val.authAddress
  let rewards ← checkedAdd internalError authDel.rewards commissionAmount
  let s := s.writeDelegator valId val.authAddress { authDel with rewards }
  let s := s.record valId (.commission val.authAddress commissionAmount)
  let unclaimed ← checkedAdd internalError val.unclaimedRewards delReward
  let s := s.writeValidatorUnclaimedRewards valId unclaimed
  let s ← applyRewardAcc s valId val.accumulatedRewardPerToken delReward activeStake
  let s := { s with proposerValId := valId }
  let s := s.record valId (.rewarded s.epoch delReward activeStake)
  return ⟨s, gas.syscallReward, .none⟩

/-- Step 1 of the snapshot: clear each old snapshot entry and its view. -/
def clearSnapshotSet (s : Storage) : Storage :=
  (List.range s.snapshot.length).foldl (fun s i =>
    let oldValId := s.snapshot.slot i
    { s with
      snapshotView := Function.update s.snapshotView oldValId .zero
      snapshot := ⟨s.snapshot.length, Function.update s.snapshot.slot i 0⟩ }) s

/-- Step 2: copy the consensus array and views into the snapshot. -/
def copyConsensusSet (s : Storage) (consensusLen : ℕ) : Storage :=
  (List.range consensusLen).foldl (fun s i =>
    let valId := s.consensus.slot i
    { s with
      snapshot := ⟨s.snapshot.length, Function.update s.snapshot.slot i valId⟩
      snapshotView := Function.update s.snapshotView valId (s.consensusView valId) })
    { s with snapshot := ⟨consensusLen, s.snapshot.slot⟩ }

/-- Step 3: clear each old consensus entry and its view. -/
def clearConsensusSet (s : Storage) (consensusLen : ℕ) : Storage :=
  (List.range consensusLen).foldl (fun s i =>
    let oldValId := s.consensus.slot i
    { s with
      consensusView := Function.update s.consensusView oldValId .zero
      consensus := ⟨s.consensus.length, Function.update s.consensus.slot i 0⟩ }) s

/-- Step 4: the flag-free validators of the execution set by stake descending, then id
ascending. -/
def sortedValidators (s : Storage) : List (ValId × ℕ) :=
  let validators := (s.execution.toList.filter fun valId =>
    (s.validators valId).flags = flagsOk).map fun valId => (valId, (s.validators valId).stake)
  validators.insertionSort fun a b => a.2 > b.2 ∨ a.2 = b.2 ∧ a.1 ≤ b.1

/-- Step 5: write the new consensus array and views. -/
def writeConsensusSet (s : Storage) (valIds : List ValId) : Storage :=
  valIds.zipIdx.foldl (fun s e =>
    { s with
      consensus := ⟨s.consensus.length, Function.update s.consensus.slot e.2 e.1⟩
      consensusView := Function.update s.consensusView e.1
        ⟨(s.validators e.1).stake, (s.validators e.1).commission⟩ })
    { s with consensus := ⟨valIds.length, s.consensus.slot⟩ }

/-- The positions of the execution array whose validator has a flag. -/
def removals (s : Storage) : List ℕ :=
  (List.range s.execution.length).filter fun i =>
    (s.validators (s.execution.slot i)).flags ≠ flagsOk

/-- Compact the execution set: remove flagged validators, last position first, moving the last
entry into the gap. -/
def compactExecutionSet (s : Storage) : Storage :=
  (removals s).reverse.foldl (fun s idx =>
    let removedVid := s.execution.slot idx
    let s := removeFromValset s removedVid
    let currentLen := s.execution.length - 1
    let slot :=
      if idx < currentLen then
        Function.update s.execution.slot idx (s.execution.slot currentLen)
      else s.execution.slot
    { s with execution := ⟨currentLen, Function.update slot currentLen 0⟩ }) s

/-- The effect of `handle_syscall_snapshot` once accepted. -/
def takeSnapshot (s : Storage) : Storage :=
  let s := { s with inBoundary := true }
  let consensusLen := s.consensus.length
  let s := clearConsensusSet (copyConsensusSet (clearSnapshotSet s) consensusLen) consensusLen
  let valIds := ((sortedValidators s).take activeValsetSize).map Prod.fst
  compactExecutionSet (writeConsensusSet s valIds)

/-- `handle_syscall_snapshot`. -/
def handleSyscallSnapshot (s : Storage) (msg : Message) : Except PrecompileError Answer := do
  failIf (msg.gasLimit < gas.syscallSnapshot) .outOfGas
  failIf (msg.caller ≠ systemAddress) unauthorized
  failIf s.inBoundary (.other "called snapshot while in boundary")
  return ⟨takeSnapshot s, gas.syscallSnapshot, .none⟩

/-- Set a referenced accumulator entry to the validator's accumulator. -/
def refreshAccumulator (s : Storage) (epoch : ℕ) (valId : ValId) : Storage :=
  let acc := s.accumulators epoch valId
  if 0 < acc.refcount then
    s.writeAccumulator valId epoch
      ⟨(s.validators valId).accumulatedRewardPerToken, acc.refcount⟩
  else s

/-- The loop of `handle_syscall_on_epoch_change` over the snapshot set. -/
def refreshAccumulators (s : Storage) (nextEpoch : ℕ) : Storage :=
  (List.range s.snapshot.length).foldl (fun s i =>
    let valId := s.snapshot.slot i
    refreshAccumulator (refreshAccumulator s nextEpoch valId) (u64Add nextEpoch 1) valId) s

/-- `handle_syscall_on_epoch_change`: any strictly larger `u64` epoch is accepted. -/
def handleSyscallOnEpochChange (s : Storage) (msg : Message) (epoch : Fin (2 ^ 64)) :
    Except PrecompileError Answer := do
  failIf (msg.gasLimit < gas.syscallOnEpochChange) .outOfGas
  failIf (msg.caller ≠ systemAddress) unauthorized
  failIf (epoch.val ≤ s.epoch) (.other "invalid epoch change")
  let s := refreshAccumulators s epoch.val
  return ⟨{ s with inBoundary := false, epoch := epoch.val }, gas.syscallOnEpochChange, .none⟩

/-- The decoded calls of `run_staking_write`. `extendedReward` is the word appended to the
calldata of `syscallReward`, when there is one. -/
inductive StakingCall
  | addValidator (payload : Bytes)
  | delegate (validatorId : ValId)
  | undelegate (validatorId : ValId) (amount : ℕ) (withdrawId : WithdrawId)
  | withdraw (validatorId : ValId) (withdrawId : WithdrawId)
  | compound (validatorId : ValId)
  | claimRewards (validatorId : ValId)
  | changeCommission (validatorId : ValId) (commission : ℕ)
  | externalReward (validatorId : ValId)
  | getDelegator (validatorId : ValId) (delegator : Address)
  | syscallReward (blockAuthor : Address) (extendedReward : Option ℕ)
  | syscallSnapshot
  | syscallOnEpochChange (epoch : Fin (2 ^ 64))

/-- `function_not_payable` before a non-payable handler. -/
def notPayable (msg : Message) (answer : Except PrecompileError Answer) :
    Except PrecompileError Answer := do
  failIf (msg.callValue ≠ 0) (.other "value non-zero")
  answer

/-- The dispatch of `run_staking_write`. -/
def runStakingWrite (s : Storage) (msg : Message) : StakingCall → Except PrecompileError Answer
  | .addValidator payload => handleAddValidator s msg payload
  | .delegate validatorId => handleDelegate s msg validatorId
  | .undelegate validatorId amount withdrawId =>
    notPayable msg (handleUndelegate s msg validatorId amount withdrawId)
  | .withdraw validatorId withdrawId => notPayable msg (handleWithdraw s msg validatorId withdrawId)
  | .compound validatorId => notPayable msg (handleCompound s msg validatorId)
  | .claimRewards validatorId => notPayable msg (handleClaimRewards s msg validatorId)
  | .changeCommission validatorId commission =>
    notPayable msg (handleChangeCommission s msg validatorId commission)
  | .externalReward validatorId => handleExternalReward s msg validatorId
  | .getDelegator validatorId delegator =>
    notPayable msg (handleGetDelegatorWrite s msg validatorId delegator)
  | .syscallReward blockAuthor extendedReward =>
    handleSyscallReward s msg blockAuthor (extendedReward.getD msg.callValue)
  | .syscallSnapshot => notPayable msg (handleSyscallSnapshot s msg)
  | .syscallOnEpochChange epoch => notPayable msg (handleSyscallOnEpochChange s msg epoch)

/-- What a call brings in: its value, or the block reward the system mints with a reward
syscall. -/
def income (msg : Message) : StakingCall → ℕ
  | .syscallReward _ extendedReward => extendedReward.getD msg.callValue
  | _ => msg.callValue

/-- Credit the value that comes with a call. -/
def Storage.credit (s : Storage) (amount : ℕ) : Storage :=
  { s with balance := s.balance + amount, received := s.received + amount }

/-- One call to the contract. -/
def stakingStep (s : Storage) (tx : Message × StakingCall) : Except PrecompileError Storage := do
  let answer ← runStakingWrite (s.credit (income tx.1 tx.2)) tx.1 tx.2
  return answer.storage

section Sample

/-- A user's call with a value. -/
def userMessage (caller : Address) (value : ℕ) (hcaller : caller ≠ stakingAddress) : Message :=
  ⟨caller, 1000000, value, 0, hcaller⟩

/-- The user who opens a validator in the example runs is no reserved address. -/
theorem opener_ne_staking : (7 : Address) ≠ stakingAddress := by decide

/-- Neither is the user who pays its rewards. -/
theorem payer_ne_staking : (9 : Address) ≠ stakingAddress := by decide

/-- A syscall of the block processor. -/
def systemMessage : Message := ⟨systemAddress, 1000000, 0, 0, by decide⟩

/-- The registration of a validator with auth address `7`, active stake and no commission. -/
def samplePayload : Bytes :=
  List.replicate 33 2 ++ List.replicate 48 3 ++ beBytes 20 7 ++ beBytes 32 activeValidatorStake ++
    beBytes 32 0

/-- A validator joins, enters the consensus set, gets a small delegation and an external reward,
and the block processor takes the snapshot of epoch `1`. -/
def openingCalls : List (Message × StakingCall) :=
  [(userMessage 7 activeValidatorStake (by decide), .addValidator samplePayload),
    (systemMessage, .syscallSnapshot),
    (systemMessage, .syscallOnEpochChange 1),
    (userMessage 9 dustThreshold (by decide), .delegate 1),
    (userMessage 9 minExternalReward (by decide), .externalReward 1),
    (systemMessage, .syscallSnapshot)]

/-- The state after the opening calls. -/
def openedState : Storage :=
  (runAll stakingStep (fun _ _ s' => decide (s'.epoch < 2 ^ 63)) .empty openingCalls).getD .empty

/-- All opening calls succeed. -/
theorem openingCalls_run :
    runAll stakingStep (fun _ _ s' => decide (s'.epoch < 2 ^ 63)) .empty openingCalls =
      some openedState := by
  have hsome : (runAll stakingStep (fun _ _ s' => decide (s'.epoch < 2 ^ 63)) .empty
      openingCalls).isSome = true := by decide +kernel
  obtain ⟨s, hs⟩ := Option.isSome_iff_exists.mp hsome
  rw [openedState, hs, Option.getD_some]

/-- The opened state is reachable. -/
theorem openedState_reachable : Reachable stakingStep (fun _ _ _ => True) .empty openedState :=
  reachable_of_runAll (fun _ _ _ _ => trivial) .start openingCalls_run

end Sample

end SuwappuRevm.Staking
