import SuwappuRevm.Staking.Syscalls

/-!
# One validator's pool

A call touches the storage of one validator, so the contract is a family of pools that share a
clock: the epoch and the boundary flag. A pool is what the rewards of one validator depend on:
the accumulator with its reference-counted entries, the delegator records, the withdrawal
requests and the reward views. Lists, flags, keys and the execution set are not part of it.

This module projects storage to pools, with one rule for each kind of write.
-/

namespace SuwappuRevm.Staking

open Foundations

/-- The pool of a validator. -/
@[ext] structure Pool where
  history : List PoolEvent
  stake : ℕ
  acc : ℕ
  unclaimed : ℕ
  delegators : Address → Delegator
  withdrawals : Address → WithdrawId → WithdrawalRequest
  accumulators : ℕ → RefCountedAccumulator
  consensusStake : ℕ
  snapshotStake : ℕ
  inConsensus : Prop
  inSnapshot : Prop

/-- The pool of a validator in storage. -/
def Storage.pool (s : Storage) (valId : ValId) : Pool where
  history := s.history valId
  stake := (s.validators valId).stake
  acc := (s.validators valId).accumulatedRewardPerToken
  unclaimed := (s.validators valId).unclaimedRewards
  delegators := s.delegators valId
  withdrawals := s.withdrawals valId
  accumulators := fun epoch => s.accumulators epoch valId
  consensusStake := (s.consensusView valId).stake
  snapshotStake := (s.snapshotView valId).stake
  inConsensus := valId ∈ s.consensus.toList
  inSnapshot := valId ∈ s.snapshot.toList

namespace Pool

/-- Write a delegator record. -/
def setDelegator (p : Pool) (d : Address) (del : Delegator) : Pool :=
  { p with delegators := Function.update p.delegators d del }

/-- Write a withdrawal request. -/
def setRequest (p : Pool) (d : Address) (w : WithdrawId) (request : WithdrawalRequest) : Pool :=
  let requests := Function.update (p.withdrawals d) w request
  { p with withdrawals := Function.update p.withdrawals d requests }

/-- Write an accumulator entry. -/
def setEntry (p : Pool) (epoch : ℕ) (entry : RefCountedAccumulator) : Pool :=
  { p with accumulators := Function.update p.accumulators epoch entry }

/-- Add to the history. -/
def record (p : Pool) (event : PoolEvent) : Pool := { p with history := event :: p.history }

/-- The value a reference to an entry is settled with. -/
def entryValue (p : Pool) (epoch : ℕ) : ℕ :=
  if (p.accumulators epoch).refcount = 0 then 0 else (p.accumulators epoch).value

/-- An entry with one reference less; the last one clears it. -/
def releaseEntry (acc : RefCountedAccumulator) : RefCountedAccumulator :=
  if acc.refcount = 0 then acc
  else if acc.refcount - 1 = 0 then ⟨0, 0⟩ else ⟨acc.value, acc.refcount - 1⟩

/-- Drop one reference to an entry. -/
def release (p : Pool) (epoch : ℕ) : Pool := p.setEntry epoch (releaseEntry (p.accumulators epoch))

/-- Take one reference to an entry, which snapshots the accumulator. -/
def retain (p : Pool) (epoch : ℕ) : Pool :=
  p.setEntry epoch ⟨p.acc, u64Add (p.accumulators epoch).refcount 1⟩

/-- The stake that rewards are shared among. -/
def view (inBoundary : Bool) (p : Pool) : ℕ :=
  if inBoundary then p.snapshotStake else p.consensusStake

end Pool

section Writes

variable (s : Storage) {v v' : ValId}

/-- Writing a delegator record writes it in the pool. -/
@[simp] theorem pool_writeDelegator (v : ValId) (addr : Address) (del : Delegator) :
    (s.writeDelegator v addr del).pool v = (s.pool v).setDelegator addr del := by
  simp [Storage.pool, Storage.writeDelegator, Pool.setDelegator]

/-- Writing a withdrawal request writes it in the pool. -/
@[simp] theorem pool_writeWithdrawalRequest (v : ValId) (addr : Address) (w : WithdrawId)
    (request : WithdrawalRequest) :
    (s.writeWithdrawalRequest v addr w request).pool v = (s.pool v).setRequest addr w request := by
  simp [Storage.pool, Storage.writeWithdrawalRequest, Pool.setRequest]

/-- Writing an accumulator entry writes it in the pool. -/
@[simp] theorem pool_writeAccumulator (v : ValId) (epoch : ℕ) (acc : RefCountedAccumulator) :
    (s.writeAccumulator v epoch acc).pool v = (s.pool v).setEntry epoch acc := by
  have haccs : (fun k => (s.writeAccumulator v epoch acc).accumulators k v) =
      Function.update (fun k => s.accumulators k v) epoch acc := by
    funext k
    by_cases hk : k = epoch
    · simp [hk, Storage.writeAccumulator]
    · simp [hk, Storage.writeAccumulator]
  simp only [Storage.pool, Pool.setEntry, haccs]
  rfl

/-- Writing a validator's stake writes the pool's. -/
@[simp] theorem pool_writeValidatorStake (v : ValId) (stake : ℕ) :
    (s.writeValidatorStake v stake).pool v = { s.pool v with stake } := by
  simp [Storage.pool, Storage.writeValidatorStake, Storage.writeValidator]

/-- Writing a validator's unclaimed rewards writes the pool's. -/
@[simp] theorem pool_writeValidatorUnclaimedRewards (v : ValId) (unclaimed : ℕ) :
    (s.writeValidatorUnclaimedRewards v unclaimed).pool v = { s.pool v with unclaimed } := by
  simp [Storage.pool, Storage.writeValidatorUnclaimedRewards, Storage.writeValidator]

/-- Writing a validator's accumulator writes the pool's. -/
@[simp] theorem pool_writeValidatorAcc (v : ValId) (acc : ℕ) :
    (s.writeValidatorAcc v acc).pool v = { s.pool v with acc } := by
  simp [Storage.pool, Storage.writeValidatorAcc, Storage.writeValidator]

/-- Recording an event adds it to the pool's history. -/
@[simp] theorem pool_record (v : ValId) (event : PoolEvent) :
    (s.record v event).pool v = (s.pool v).record event := by
  simp [Storage.pool, Storage.record, Pool.record]

end Writes

/-- What a call on one validator leaves alone: the other pools, the clock, the registered ids and
all received value. -/
structure Touches (v : ValId) (s s' : Storage) : Prop where
  pool_of_ne : ∀ v', v' ≠ v → s'.pool v' = s.pool v'
  epoch_eq : s'.epoch = s.epoch
  inBoundary_eq : s'.inBoundary = s.inBoundary
  lastValId_eq : s'.lastValId = s.lastValId
  valIdSecp_eq : s'.valIdSecp = s.valIdSecp
  authAddress_eq : ∀ v', (s'.validators v').authAddress = (s.validators v').authAddress
  received_eq : s'.received = s.received

namespace Touches

variable {v : ValId} {s s' s'' : Storage}

/-- Nothing is touched. -/
theorem refl (v : ValId) (s : Storage) : Touches v s s :=
  ⟨fun _ _ => rfl, rfl, rfl, rfl, rfl, fun _ => rfl, rfl⟩

/-- Two calls on the same validator. -/
theorem trans (h : Touches v s s') (h' : Touches v s' s'') : Touches v s s'' where
  pool_of_ne v' hv := (h'.pool_of_ne v' hv).trans (h.pool_of_ne v' hv)
  epoch_eq := h'.epoch_eq.trans h.epoch_eq
  inBoundary_eq := h'.inBoundary_eq.trans h.inBoundary_eq
  lastValId_eq := h'.lastValId_eq.trans h.lastValId_eq
  valIdSecp_eq := h'.valIdSecp_eq.trans h.valIdSecp_eq
  authAddress_eq v' := (h'.authAddress_eq v').trans (h.authAddress_eq v')
  received_eq := h'.received_eq.trans h.received_eq

/-- A write to a delegator record touches its validator only. -/
theorem writeDelegator (s : Storage) (v : ValId) (addr : Address) (del : Delegator) :
    Touches v s (s.writeDelegator v addr del) :=
  ⟨fun v' hv => by simp [Storage.pool, Storage.writeDelegator, hv], rfl, rfl, rfl, rfl,
    fun _ => rfl, rfl⟩

/-- A write to a withdrawal request touches its validator only. -/
theorem writeWithdrawalRequest (s : Storage) (v : ValId) (addr : Address) (w : WithdrawId)
    (request : WithdrawalRequest) :
    Touches v s (s.writeWithdrawalRequest v addr w request) :=
  ⟨fun v' hv => by simp [Storage.pool, Storage.writeWithdrawalRequest, hv], rfl, rfl, rfl, rfl,
    fun _ => rfl, rfl⟩

/-- A write to an accumulator entry touches its validator only. -/
theorem writeAccumulator (s : Storage) (v : ValId) (epoch : ℕ) (acc : RefCountedAccumulator) :
    Touches v s (s.writeAccumulator v epoch acc) := by
  refine ⟨fun v' hv => ?_, rfl, rfl, rfl, rfl, fun _ => rfl, rfl⟩
  have haccs : (fun k => (s.writeAccumulator v epoch acc).accumulators k v') =
      fun k => s.accumulators k v' := by
    funext k
    by_cases hk : k = epoch
    · simp [hk, Storage.writeAccumulator, hv]
    · simp [hk, Storage.writeAccumulator]
  simp only [Storage.pool, haccs]
  rfl

/-- A write to a validator's record that keeps its auth address. -/
theorem writeValidator (s : Storage) (v : ValId) (val : Validator)
    (hauth : val.authAddress = (s.validators v).authAddress) :
    Touches v s (s.writeValidator v val) := by
  refine ⟨fun v' hv => by simp [Storage.pool, Storage.writeValidator, hv], rfl, rfl, rfl, rfl,
    fun v' => ?_, rfl⟩
  by_cases hv : v' = v
  · simp [hv, Storage.writeValidator, hauth]
  · simp [hv, Storage.writeValidator]

/-- A write to the stake touches its validator only. -/
theorem writeValidatorStake (s : Storage) (v : ValId) (stake : ℕ) :
    Touches v s (s.writeValidatorStake v stake) :=
  writeValidator s v _ rfl

/-- A write to the unclaimed rewards touches their validator only. -/
theorem writeValidatorUnclaimedRewards (s : Storage) (v : ValId) (unclaimed : ℕ) :
    Touches v s (s.writeValidatorUnclaimedRewards v unclaimed) :=
  writeValidator s v _ rfl

/-- A write to the accumulator touches its validator only. -/
theorem writeValidatorAcc (s : Storage) (v : ValId) (acc : ℕ) :
    Touches v s (s.writeValidatorAcc v acc) :=
  writeValidator s v _ rfl

/-- Recording an event touches its validator only. -/
theorem record (s : Storage) (v : ValId) (event : PoolEvent) :
    Touches v s (s.record v event) :=
  ⟨fun v' hv => by simp [Storage.pool, Storage.record, hv], rfl, rfl, rfl, rfl, fun _ => rfl,
    rfl⟩

end Touches

end SuwappuRevm.Staking
