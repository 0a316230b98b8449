import Mathlib.Tactic.FinCases
import SuwappuRevm.Staking.Delegation
import SuwappuRevm.Staking.RawStorage

/-!
# Raw storage is a record store

After any sequence of record writes the raw storage holds, at every key, the encoding of the typed
storage that the same writes lead to, in which every record has a place of its own. Since the
readers decode what was encoded, every read returns what was last written to its record, whatever
was written to the others.
-/

namespace SuwappuRevm.Staking

open Foundations

section Encoding

/-- One of the arrays of ids. -/
def Storage.valset (s : Storage) : ValsetSlots → Valset
  | .execution => s.execution
  | .consensus => s.consensus
  | .snapshot => s.snapshot

/-- Replace one of the arrays of ids. -/
def Storage.setValset (s : Storage) (a : Valset) : ValsetSlots → Storage
  | .execution => { s with execution := a }
  | .consensus => { s with consensus := a }
  | .snapshot => { s with snapshot := a }

/-- Write a view of the consensus set. -/
def Storage.writeConsensusView (s : Storage) (valId : ValId) (view : ConsensusView) : Storage :=
  { s with consensusView := Function.update s.consensusView valId view }

/-- Write a view of the snapshot set. -/
def Storage.writeSnapshotView (s : Storage) (valId : ValId) (view : ConsensusView) : Storage :=
  { s with snapshotView := Function.update s.snapshotView valId view }

/-- The slots of a validator record. -/
def Validator.toSlots (val : Validator) : Fin 8 → Word
  | 0 => wordSlot val.stake
  | 1 => wordSlot val.accumulatedRewardPerToken
  | 2 => wordSlot val.commission
  | 3 => val.keySlot 0
  | 4 => val.keySlot 1
  | 5 => val.keySlot 2
  | 6 => addressFlagsSlot val.authAddress val.flags
  | 7 => wordSlot val.unclaimedRewards

/-- The slots of a delegator record and its list node. -/
def Delegator.toSlots (del : Delegator) (node : ListNode) : Fin 8 → Word
  | 0 => wordSlot del.stake
  | 1 => wordSlot del.accumulatedRewardPerToken
  | 2 => wordSlot del.rewards
  | 3 => wordSlot del.deltaStake
  | 4 => wordSlot del.nextDeltaStake
  | 5 => epochsSlot del.deltaEpoch del.nextDeltaEpoch
  | 6 => node.toSlots.1
  | 7 => node.toSlots.2

/-- The slots of a withdrawal request. -/
def WithdrawalRequest.toSlots (wr : WithdrawalRequest) : Fin 3 → Word
  | 0 => wordSlot wr.amount
  | 1 => wordSlot wr.accumulator
  | 2 => u64Slot wr.epoch

/-- The slots of an accumulator entry. -/
def RefCountedAccumulator.toSlots (acc : RefCountedAccumulator) : Fin 2 → Word
  | 0 => wordSlot acc.value
  | 1 => wordSlot acc.refcount

/-- The slots of a view. -/
def ConsensusView.toSlots (view : ConsensusView) : Fin 2 → Word
  | 0 => wordSlot view.stake
  | 1 => wordSlot view.commission

/-- The slots of an array: its length, then its elements. -/
def Valset.toSlots (a : Valset) (position : Fin (2 ^ 64 + 1)) : Word :=
  if position.val = 0 then u64Slot a.length else u64Slot (a.slot (position - 1))

/-- What each field of the typed storage is encoded as. -/
def Storage.encode (s : Storage) : Slot → Word
  | .epoch => u64Slot s.epoch
  | .inBoundary => if s.inBoundary then packed [1] else 0
  | .lastValId => u64Slot s.lastValId
  | .proposerValId => u64Slot s.proposerValId
  | .valset array position => (s.valset array).toSlots position
  | .consensusView valId slot => (s.consensusView valId).toSlots slot
  | .snapshotView valId slot => (s.snapshotView valId).toSlots slot
  | .valIdSecp address => u64Slot (s.valIdSecp address)
  | .valIdBls address => u64Slot (s.valIdBls address)
  | .bitset bucket => (s.bitset bucket).toFin
  | .validator valId slot => (s.validators valId).toSlots slot
  | .accumulator epoch valId slot => (s.accumulators epoch valId).toSlots slot
  | .delegator valId address slot =>
    (s.delegators valId address).toSlots (s.listNodes valId address) slot
  | .withdrawal valId address wid slot => (s.withdrawals valId address wid).toSlots slot

end Encoding

/-- A write to one record. -/
inductive RecordWrite
  | validatorFull (valId : ValId) (val : Validator)
  | validatorStake (valId : ValId) (stake : ℕ)
  | validatorAcc (valId : ValId) (acc : ℕ)
  | validatorCommission (valId : ValId) (commission : ℕ)
  | validatorUnclaimedRewards (valId : ValId) (rewards : ℕ)
  | validatorFlags (valId : ValId) (val : Validator) (newFlags : Flags)
  | delegator (valId : ValId) (addr : Address) (del : Delegator)
  | listNode (valId : ValId) (addr : Address) (node : ListNode)
  | withdrawalRequest (valId : ValId) (addr : Address) (wid : WithdrawId) (amount acc epoch : ℕ)
  | clearWithdrawalRequest (valId : ValId) (addr : Address) (wid : WithdrawId)
  | accumulator (epoch : Fin (2 ^ 64)) (valId : ValId) (acc : RefCountedAccumulator)
  | consensusStake (valId : ValId) (stake : ℕ)
  | consensusCommission (valId : ValId) (commission : ℕ)
  | snapshotStake (valId : ValId) (stake : ℕ)
  | snapshotCommission (valId : ValId) (commission : ℕ)
  | valIdSecp (address : Address) (valId : ValId)
  | valIdBls (address : Address) (valId : ValId)
  | bitset (valId : ValId) (set : BitVec 256)
  | currentEpoch (epoch : ℕ)
  | boundary (inBoundary : Bool)
  | lastId (valId : ValId)
  | proposerId (valId : ValId)
  | valsetLength (array : ValsetSlots) (length : ℕ)
  | valsetElement (array : ValsetSlots) (i : Fin (2 ^ 64 - 1)) (valId : ValId)

/-- The stores a write makes. -/
def RecordWrite.stores : RecordWrite → Stores
  | .validatorFull valId val => RawStorage.writeValidatorFull valId val
  | .validatorStake valId stake => RawStorage.writeValidatorStake valId stake
  | .validatorAcc valId acc => RawStorage.writeValidatorAcc valId acc
  | .validatorCommission valId commission => RawStorage.writeValidatorCommission valId commission
  | .validatorUnclaimedRewards valId rewards =>
    RawStorage.writeValidatorUnclaimedRewards valId rewards
  | .validatorFlags valId val newFlags => RawStorage.writeValidatorFlags valId val newFlags
  | .delegator valId addr del => RawStorage.writeDelegator valId addr del
  | .listNode valId addr node => RawStorage.writeListNode valId addr node
  | .withdrawalRequest valId addr wid amount acc epoch =>
    RawStorage.writeWithdrawalRequest valId addr wid amount acc epoch
  | .clearWithdrawalRequest valId addr wid => RawStorage.clearWithdrawalRequest valId addr wid
  | .accumulator epoch valId acc => RawStorage.writeAccumulator valId epoch acc
  | .consensusStake valId stake => RawStorage.writeViewStake (.consensusView valId) stake
  | .consensusCommission valId commission =>
    RawStorage.writeViewCommission (.consensusView valId) commission
  | .snapshotStake valId stake => RawStorage.writeViewStake (.snapshotView valId) stake
  | .snapshotCommission valId commission =>
    RawStorage.writeViewCommission (.snapshotView valId) commission
  | .valIdSecp address valId => RawStorage.writeStorageU64 (.valIdSecp address) valId
  | .valIdBls address valId => RawStorage.writeStorageU64 (.valIdBls address) valId
  | .bitset valId set => [(.bitset (bitsetBucket valId), set.toFin)]
  | .currentEpoch epoch => RawStorage.writeStorageU64 .epoch epoch
  | .boundary inBoundary => RawStorage.writeInBoundary inBoundary
  | .lastId valId => RawStorage.writeStorageU64 .lastValId valId
  | .proposerId valId => RawStorage.writeStorageU64 .proposerValId valId
  | .valsetLength array length => RawStorage.writeStorageU64 (.length array) length
  | .valsetElement array i valId => RawStorage.writeStorageU64 (.element array i) valId

/-- What a write does to the records. -/
def RecordWrite.apply (s : Storage) : RecordWrite → Storage
  | .validatorFull valId val => s.writeValidator valId val
  | .validatorStake valId stake => s.writeValidatorStake valId stake
  | .validatorAcc valId acc => s.writeValidatorAcc valId acc
  | .validatorCommission valId commission =>
    s.writeValidator valId { s.validators valId with commission }
  | .validatorUnclaimedRewards valId rewards => s.writeValidatorUnclaimedRewards valId rewards
  | .validatorFlags valId val newFlags => s.writeValidatorFlags valId val newFlags
  | .delegator valId addr del => s.writeDelegator valId addr del
  | .listNode valId addr node => s.writeListNode valId addr node
  | .withdrawalRequest valId addr wid amount acc epoch =>
    s.writeWithdrawalRequest valId addr wid ⟨amount, acc, epoch⟩
  | .clearWithdrawalRequest valId addr wid => s.writeWithdrawalRequest valId addr wid .zero
  | .accumulator epoch valId acc => s.writeAccumulator valId epoch acc
  | .consensusStake valId stake =>
    s.writeConsensusView valId { s.consensusView valId with stake }
  | .consensusCommission valId commission =>
    s.writeConsensusView valId { s.consensusView valId with commission }
  | .snapshotStake valId stake =>
    s.writeSnapshotView valId { s.snapshotView valId with stake }
  | .snapshotCommission valId commission =>
    s.writeSnapshotView valId { s.snapshotView valId with commission }
  | .valIdSecp address valId => { s with valIdSecp := Function.update s.valIdSecp address valId }
  | .valIdBls address valId => { s with valIdBls := Function.update s.valIdBls address valId }
  | .bitset valId set => { s with bitset := Function.update s.bitset (valId.val / 256) set }
  | .currentEpoch epoch => { s with epoch }
  | .boundary inBoundary => { s with inBoundary }
  | .lastId valId => { s with lastValId := valId }
  | .proposerId valId => { s with proposerValId := valId }
  | .valsetLength array length => s.setValset { s.valset array with length } array
  | .valsetElement array i valId =>
    let slot := Function.update (s.valset array).slot i valId
    s.setValset { s.valset array with slot } array

section Steps

variable (s : Storage) (valId : ValId) (addr : Address) (wid : WithdrawId)

section Validators

variable (val : Validator)

/-- Writing a validator record changes its own fields only. -/
theorem encode_writeValidator_off (slot : Slot) (h : ∀ k, slot ≠ .validator valId k) :
    (s.writeValidator valId val).encode slot = s.encode slot := by
  cases slot with
  | validator valId' k =>
    have hne : valId' ≠ valId := by
      rintro rfl
      exact h k rfl
    simp only [Storage.encode, Storage.writeValidator, Function.update_of_ne hne]
  | _ => rfl

/-- And it changes those to the new record. -/
theorem encode_writeValidator (k : Fin 8) :
    (s.writeValidator valId val).encode (.validator valId k) = val.toSlots k := by
  simp only [Storage.encode, Storage.writeValidator, Function.update_self]

/-- A store into one field of a validator record. -/
theorem storeAll_validatorField (k₀ : Fin 8)
    (hkept : ∀ k ≠ k₀, val.toSlots k = (s.validators valId).toSlots k) :
    storeAll s.encode [(.validator valId k₀, val.toSlots k₀)] =
      (s.writeValidator valId val).encode :=
  storeAll_field k₀ (fun _ => rfl) (encode_writeValidator s valId val)
    (encode_writeValidator_off s valId val) hkept

/-- `write_validator_full` writes the record. -/
theorem storeAll_writeValidatorFull :
    storeAll s.encode (RawStorage.writeValidatorFull valId val) =
      (s.writeValidator valId val).encode := by
  apply storeAll_record (fun _ => rfl) (encode_writeValidator s valId val)
    (encode_writeValidator_off s valId val)
  · intro store hstore
    simp only [RawStorage.writeValidatorFull, RawStorage.writeValidatorStake,
      RawStorage.writeValidatorAcc, RawStorage.writeValidatorCommission,
      RawStorage.writeValidatorFlags, RawStorage.writeValidatorUnclaimedRewards,
      RawStorage.writeStorageU256, List.cons_append, List.nil_append, List.mem_cons,
      List.not_mem_nil, or_false] at hstore
    rcases hstore with rfl | rfl | rfl | rfl | rfl | rfl | rfl | rfl
    · exact ⟨0, rfl⟩
    · exact ⟨1, rfl⟩
    · exact ⟨2, rfl⟩
    · exact ⟨3, rfl⟩
    · exact ⟨4, rfl⟩
    · exact ⟨5, rfl⟩
    · exact ⟨6, rfl⟩
    · exact ⟨7, rfl⟩
  · intro k hk
    exfalso
    apply hk
    fin_cases k <;> simp [RawStorage.writeValidatorFull, RawStorage.writeValidatorStake,
      RawStorage.writeValidatorAcc, RawStorage.writeValidatorCommission,
      RawStorage.writeValidatorFlags, RawStorage.writeValidatorUnclaimedRewards,
      RawStorage.writeStorageU256]

end Validators

section Delegators

/-- Writing a delegator record changes its own fields only. -/
theorem encode_writeDelegator_off (del : Delegator) (slot : Slot)
    (h : ∀ k, slot ≠ .delegator valId addr k) :
    (s.writeDelegator valId addr del).encode slot = s.encode slot := by
  cases slot with
  | delegator valId' addr' k =>
    simp only [Storage.encode, Storage.writeDelegator]
    by_cases hvalId : valId' = valId
    · subst hvalId
      have hne : addr' ≠ addr := by
        rintro rfl
        exact h k rfl
      rw [Function.update_self, Function.update_of_ne hne]
    · rw [Function.update_of_ne hvalId]
  | _ => rfl

/-- The fields of a written delegator record, with its list node. -/
theorem encode_writeDelegator (del : Delegator) (k : Fin 8) :
    (s.writeDelegator valId addr del).encode (.delegator valId addr k) =
      del.toSlots (s.listNodes valId addr) k := by
  simp only [Storage.encode, Storage.writeDelegator, Function.update_self]

/-- `write_delegator` writes the record and keeps its list node. -/
theorem storeAll_writeDelegator (del : Delegator) :
    storeAll s.encode (RawStorage.writeDelegator valId addr del) =
      (s.writeDelegator valId addr del).encode := by
  apply storeAll_record (fun _ => rfl) (encode_writeDelegator s valId addr del)
    (encode_writeDelegator_off s valId addr del)
  · intro store hstore
    simp only [RawStorage.writeDelegator, RawStorage.writeStorageU256, List.cons_append,
      List.nil_append, List.mem_cons, List.not_mem_nil, or_false] at hstore
    rcases hstore with rfl | rfl | rfl | rfl | rfl | rfl
    · exact ⟨0, rfl⟩
    · exact ⟨1, rfl⟩
    · exact ⟨2, rfl⟩
    · exact ⟨3, rfl⟩
    · exact ⟨4, rfl⟩
    · exact ⟨5, rfl⟩
  · intro k hk
    simp [RawStorage.writeDelegator, RawStorage.writeStorageU256] at hk
    fin_cases k <;> first | (simp at hk; done) | rfl

/-- Writing a list node changes its own fields only. -/
theorem encode_writeListNode_off (node : ListNode) (slot : Slot)
    (h : ∀ k, slot ≠ .delegator valId addr k) :
    (s.writeListNode valId addr node).encode slot = s.encode slot := by
  cases slot with
  | delegator valId' addr' k =>
    simp only [Storage.encode, Storage.writeListNode]
    by_cases hvalId : valId' = valId
    · subst hvalId
      have hne : addr' ≠ addr := by
        rintro rfl
        exact h k rfl
      rw [Function.update_self, Function.update_of_ne hne]
    · rw [Function.update_of_ne hvalId]
  | _ => rfl

/-- The fields of a written list node, with the delegator record. -/
theorem encode_writeListNode (node : ListNode) (k : Fin 8) :
    (s.writeListNode valId addr node).encode (.delegator valId addr k) =
      (s.delegators valId addr).toSlots node k := by
  simp only [Storage.encode, Storage.writeListNode, Function.update_self]

/-- `write_list_node` writes the node and keeps the delegator record. -/
theorem storeAll_writeListNode (node : ListNode) :
    storeAll s.encode (RawStorage.writeListNode valId addr node) =
      (s.writeListNode valId addr node).encode := by
  apply storeAll_record (fun _ => rfl) (encode_writeListNode s valId addr node)
    (encode_writeListNode_off s valId addr node)
  · intro store hstore
    simp only [RawStorage.writeListNode, List.mem_cons, List.not_mem_nil, or_false] at hstore
    rcases hstore with rfl | rfl
    · exact ⟨6, rfl⟩
    · exact ⟨7, rfl⟩
  · intro k hk
    simp [RawStorage.writeListNode] at hk
    fin_cases k <;> first | (simp at hk; done) | rfl

end Delegators

section Withdrawals

variable (wr : WithdrawalRequest)

/-- Writing a withdrawal request changes its own fields only. -/
theorem encode_writeWithdrawalRequest_off (slot : Slot)
    (h : ∀ k, slot ≠ .withdrawal valId addr wid k) :
    (s.writeWithdrawalRequest valId addr wid wr).encode slot = s.encode slot := by
  cases slot with
  | withdrawal valId' addr' wid' k =>
    simp only [Storage.encode, Storage.writeWithdrawalRequest]
    by_cases hvalId : valId' = valId
    · subst hvalId
      rw [Function.update_self]
      by_cases haddr : addr' = addr
      · subst haddr
        have hne : wid' ≠ wid := by
          rintro rfl
          exact h k rfl
        rw [Function.update_self, Function.update_of_ne hne]
      · rw [Function.update_of_ne haddr]
    · rw [Function.update_of_ne hvalId]
  | _ => rfl

/-- And it changes those to the new request. -/
theorem encode_writeWithdrawalRequest (k : Fin 3) :
    (s.writeWithdrawalRequest valId addr wid wr).encode (.withdrawal valId addr wid k) =
      wr.toSlots k := by
  simp only [Storage.encode, Storage.writeWithdrawalRequest, Function.update_self]

/-- Stores of all fields of a withdrawal request. -/
theorem storeAll_withdrawal :
    storeAll s.encode [(.withdrawal valId addr wid 0, wr.toSlots 0),
        (.withdrawal valId addr wid 1, wr.toSlots 1),
        (.withdrawal valId addr wid 2, wr.toSlots 2)] =
      (s.writeWithdrawalRequest valId addr wid wr).encode := by
  apply storeAll_record (fun _ => rfl) (encode_writeWithdrawalRequest s valId addr wid wr)
    (encode_writeWithdrawalRequest_off s valId addr wid wr)
  · intro store hstore
    simp only [List.mem_cons, List.not_mem_nil, or_false] at hstore
    rcases hstore with rfl | rfl | rfl
    · exact ⟨0, rfl⟩
    · exact ⟨1, rfl⟩
    · exact ⟨2, rfl⟩
  · intro k hk
    exfalso
    apply hk
    fin_cases k <;> simp

/-- `clear_withdrawal_request` writes the empty request; its epoch is zero in any alignment. -/
theorem storeAll_clearWithdrawalRequest :
    storeAll s.encode (RawStorage.clearWithdrawalRequest valId addr wid) =
      (s.writeWithdrawalRequest valId addr wid .zero).encode := by
  have hzero : WithdrawalRequest.zero.toSlots 2 = wordSlot 0 := by decide +kernel
  rw [← storeAll_withdrawal, hzero]
  rfl

end Withdrawals

section Accumulators

variable (epoch : Fin (2 ^ 64)) (acc : RefCountedAccumulator)

/-- Writing an accumulator entry changes its own fields only. -/
theorem encode_writeAccumulator_off (slot : Slot) (h : ∀ k, slot ≠ .accumulator epoch valId k) :
    (s.writeAccumulator valId epoch acc).encode slot = s.encode slot := by
  cases slot with
  | accumulator epoch' valId' k =>
    simp only [Storage.encode, Storage.writeAccumulator]
    by_cases hepoch : epoch' = epoch
    · subst hepoch
      have hne : valId' ≠ valId := by
        rintro rfl
        exact h k rfl
      rw [Function.update_self, Function.update_of_ne hne]
    · rw [Function.update_of_ne (Fin.val_ne_of_ne hepoch)]
  | _ => rfl

/-- And it changes those to the new entry. -/
theorem encode_writeAccumulator (k : Fin 2) :
    (s.writeAccumulator valId epoch acc).encode (.accumulator epoch valId k) = acc.toSlots k := by
  simp only [Storage.encode, Storage.writeAccumulator, Function.update_self]

/-- `write_accumulator` writes the entry. -/
theorem storeAll_writeAccumulator :
    storeAll s.encode (RawStorage.writeAccumulator valId epoch acc) =
      (s.writeAccumulator valId epoch acc).encode := by
  apply storeAll_record (fun _ => rfl) (encode_writeAccumulator s valId epoch acc)
    (encode_writeAccumulator_off s valId epoch acc)
  · intro store hstore
    simp only [RawStorage.writeAccumulator, RawStorage.writeStorageU256, List.cons_append,
      List.nil_append, List.mem_cons, List.not_mem_nil, or_false] at hstore
    rcases hstore with rfl | rfl
    · exact ⟨0, rfl⟩
    · exact ⟨1, rfl⟩
  · intro k hk
    exfalso
    apply hk
    fin_cases k <;> simp [RawStorage.writeAccumulator, RawStorage.writeStorageU256]

end Accumulators

section Views

variable (view : ConsensusView)

/-- A store into one field of a view of the consensus set. -/
theorem storeAll_consensusField (k₀ : Fin 2)
    (hkept : ∀ k ≠ k₀, view.toSlots k = (s.consensusView valId).toSlots k) :
    storeAll s.encode [(.consensusView valId k₀, view.toSlots k₀)] =
      (s.writeConsensusView valId view).encode := by
  have hnew (k : Fin 2) : (s.writeConsensusView valId view).encode (.consensusView valId k) =
      view.toSlots k := by
    simp only [Storage.encode, Storage.writeConsensusView, Function.update_self]
  apply storeAll_field k₀ (fun _ => rfl) hnew _ hkept
  intro slot h
  cases slot with
  | consensusView valId' k =>
    have hne : valId' ≠ valId := by
      rintro rfl
      exact h k rfl
    simp only [Storage.encode, Storage.writeConsensusView, Function.update_of_ne hne]
  | _ => rfl

/-- A store into one field of a view of the snapshot set. -/
theorem storeAll_snapshotField (k₀ : Fin 2)
    (hkept : ∀ k ≠ k₀, view.toSlots k = (s.snapshotView valId).toSlots k) :
    storeAll s.encode [(.snapshotView valId k₀, view.toSlots k₀)] =
      (s.writeSnapshotView valId view).encode := by
  have hnew (k : Fin 2) : (s.writeSnapshotView valId view).encode (.snapshotView valId k) =
      view.toSlots k := by
    simp only [Storage.encode, Storage.writeSnapshotView, Function.update_self]
  apply storeAll_field k₀ (fun _ => rfl) hnew _ hkept
  intro slot h
  cases slot with
  | snapshotView valId' k =>
    have hne : valId' ≠ valId := by
      rintro rfl
      exact h k rfl
    simp only [Storage.encode, Storage.writeSnapshotView, Function.update_of_ne hne]
  | _ => rfl

end Views

section Cells

/-- One entry for one cell. -/
theorem storeAll_cell {s' : Storage} {slot : Slot} {w : Word} (hnew : s'.encode slot = w)
    (hoff : ∀ slot' ≠ slot, s'.encode slot' = s.encode slot') :
    storeAll s.encode [(slot, w)] = s'.encode := by
  apply storeAll_eq
  · intro store hstore
    rw [List.mem_singleton.mp hstore]
    exact hnew
  · intro slot' hslot'
    apply hoff
    rintro rfl
    exact hslot' (List.mem_singleton_self _)

/-- The lookup by secp address. -/
theorem storeAll_valIdSecp :
    storeAll s.encode (RawStorage.writeStorageU64 (.valIdSecp addr) valId) =
      { s with valIdSecp := Function.update s.valIdSecp addr valId }.encode := by
  apply storeAll_cell
  · simp only [Storage.encode, Function.update_self]
  · intro slot h
    cases slot with
    | valIdSecp addr' =>
      have hne : addr' ≠ addr := by
        rintro rfl
        exact h rfl
      simp only [Storage.encode, Function.update_of_ne hne]
    | _ => rfl

/-- The lookup by BLS address. -/
theorem storeAll_valIdBls :
    storeAll s.encode (RawStorage.writeStorageU64 (.valIdBls addr) valId) =
      { s with valIdBls := Function.update s.valIdBls addr valId }.encode := by
  apply storeAll_cell
  · simp only [Storage.encode, Function.update_self]
  · intro slot h
    cases slot with
    | valIdBls addr' =>
      have hne : addr' ≠ addr := by
        rintro rfl
        exact h rfl
      simp only [Storage.encode, Function.update_of_ne hne]
    | _ => rfl

/-- The bucket of an id as a number. -/
theorem bitsetBucket_val : (bitsetBucket valId).val = valId.val / 256 := by
  rw [bitsetBucket, Fin.val_ofNat, Nat.mod_eq_of_lt]
  omega

/-- A bucket of the bitset. -/
theorem storeAll_bitset (set : BitVec 256) :
    storeAll s.encode [(.bitset (bitsetBucket valId), set.toFin)] =
      { s with bitset := Function.update s.bitset (valId.val / 256) set }.encode := by
  apply storeAll_cell
  · simp only [Storage.encode, bitsetBucket_val, Function.update_self]
  · intro slot h
    cases slot with
    | bitset bucket =>
      have hne : bucket.val ≠ valId.val / 256 := by
        rw [← bitsetBucket_val]
        intro heq
        exact h (congrArg Slot.bitset (Fin.ext heq))
      simp only [Storage.encode, Function.update_of_ne hne]
    | _ => rfl

/-- The position of an element as a number. -/
theorem element_position (i : Fin (2 ^ 64 - 1)) :
    (Fin.ofNat (2 ^ 64 + 1) (u64Add 1 i)).val = i.val + 1 := by
  have hi := i.isLt
  rw [Fin.val_ofNat, u64Add]
  omega

/-- The array after a replacement, and the others. -/
theorem valset_setValset (a : Valset) (array array' : ValsetSlots) :
    (s.setValset a array).valset array' = if array' = array then a else s.valset array' := by
  cases array <;> cases array' <;> rfl

/-- A replaced array changes its own slots only. -/
theorem encode_setValset (a : Valset) (array : ValsetSlots) (slot : Slot)
    (h : ∀ position, slot = .valset array position →
      a.toSlots position = (s.valset array).toSlots position) :
    (s.setValset a array).encode slot = s.encode slot := by
  cases slot with
  | valset array' position =>
    simp only [Storage.encode, valset_setValset]
    by_cases harray : array' = array
    · subst harray
      rw [if_pos rfl]
      exact h position rfl
    · rw [if_neg harray]
  | _ => cases array <;> rfl

/-- The length of an array is encoded at its own slot. -/
theorem encode_length (array : ValsetSlots) :
    s.encode (.length array) = u64Slot (s.valset array).length := by
  have hzero : (Fin.ofNat (2 ^ 64 + 1) 0).val = 0 := by
    rw [Fin.val_ofNat, Nat.zero_mod]
  rw [Slot.length, Storage.encode, Valset.toSlots, if_pos hzero]

/-- So is each element. -/
theorem encode_element (array : ValsetSlots) (i : Fin (2 ^ 64 - 1)) :
    s.encode (.element array i) = u64Slot ((s.valset array).slot i) := by
  have hposition := element_position i
  have hne : (Fin.ofNat (2 ^ 64 + 1) (u64Add 1 i)).val ≠ 0 := by
    rw [hposition]
    exact Nat.succ_ne_zero _
  rw [Slot.element, Storage.encode, Valset.toSlots, if_neg hne, hposition, Nat.add_sub_cancel]

/-- The length of an array. -/
theorem storeAll_valsetLength (array : ValsetSlots) (length : ℕ) :
    storeAll s.encode (RawStorage.writeStorageU64 (.length array) length) =
      (s.setValset { s.valset array with length } array).encode := by
  apply storeAll_cell
  · rw [encode_length, valset_setValset, if_pos rfl]
  · intro slot h
    apply encode_setValset
    rintro position rfl
    have hne : position.val ≠ 0 := by
      intro hzero
      apply h
      rw [Slot.length]
      congr 1
      exact Fin.ext (by rw [hzero, Fin.val_ofNat, Nat.zero_mod])
    rw [Valset.toSlots, Valset.toSlots, if_neg hne, if_neg hne]

/-- An element of an array. -/
theorem storeAll_valsetElement (array : ValsetSlots) (i : Fin (2 ^ 64 - 1)) :
    storeAll s.encode (RawStorage.writeStorageU64 (.element array i) valId) =
      (s.setValset { s.valset array with slot := Function.update (s.valset array).slot i valId }
        array).encode := by
  have hposition := element_position i
  apply storeAll_cell
  · simp only [encode_element, valset_setValset, if_pos, Function.update_self]
  · intro slot h
    apply encode_setValset
    rintro position rfl
    rw [Valset.toSlots, Valset.toSlots]
    split
    · rfl
    · next hne =>
      have hother : position.val - 1 ≠ i.val := by
        intro heq
        apply h
        rw [Slot.element]
        congr 1
        apply Fin.ext
        omega
      simp only [Function.update_of_ne hother]

end Cells

/-- What a write stores leads from the encoding of the records before it to the encoding of those
after it. -/
theorem storeAll_encode (write : RecordWrite) :
    storeAll s.encode write.stores = (write.apply s).encode := by
  cases write with
  | validatorFull valId val => exact storeAll_writeValidatorFull s valId val
  | validatorStake valId stake =>
    apply storeAll_validatorField s valId { s.validators valId with stake } 0
    intro k hk
    fin_cases k <;> first | exact absurd rfl hk | rfl
  | validatorAcc valId acc =>
    apply storeAll_validatorField s valId
      { s.validators valId with accumulatedRewardPerToken := acc } 1
    intro k hk
    fin_cases k <;> first | exact absurd rfl hk | rfl
  | validatorCommission valId commission =>
    apply storeAll_validatorField s valId { s.validators valId with commission } 2
    intro k hk
    fin_cases k <;> first | exact absurd rfl hk | rfl
  | validatorUnclaimedRewards valId rewards =>
    apply storeAll_validatorField s valId
      { s.validators valId with unclaimedRewards := rewards } 7
    intro k hk
    fin_cases k <;> first | exact absurd rfl hk | rfl
  | validatorFlags valId val newFlags =>
    apply storeAll_validatorField s valId
      { s.validators valId with authAddress := val.authAddress, flags := newFlags } 6
    intro k hk
    fin_cases k <;> first | exact absurd rfl hk | rfl
  | delegator valId addr del => exact storeAll_writeDelegator s valId addr del
  | listNode valId addr node => exact storeAll_writeListNode s valId addr node
  | withdrawalRequest valId addr wid amount acc epoch =>
    exact storeAll_withdrawal s valId addr wid ⟨amount, acc, epoch⟩
  | clearWithdrawalRequest valId addr wid =>
    exact storeAll_clearWithdrawalRequest s valId addr wid
  | accumulator epoch valId acc => exact storeAll_writeAccumulator s valId epoch acc
  | consensusStake valId stake =>
    apply storeAll_consensusField s valId { s.consensusView valId with stake } 0
    intro k hk
    fin_cases k <;> first | exact absurd rfl hk | rfl
  | consensusCommission valId commission =>
    apply storeAll_consensusField s valId { s.consensusView valId with commission } 1
    intro k hk
    fin_cases k <;> first | exact absurd rfl hk | rfl
  | snapshotStake valId stake =>
    apply storeAll_snapshotField s valId { s.snapshotView valId with stake } 0
    intro k hk
    fin_cases k <;> first | exact absurd rfl hk | rfl
  | snapshotCommission valId commission =>
    apply storeAll_snapshotField s valId { s.snapshotView valId with commission } 1
    intro k hk
    fin_cases k <;> first | exact absurd rfl hk | rfl
  | valIdSecp address valId => exact storeAll_valIdSecp s valId address
  | valIdBls address valId => exact storeAll_valIdBls s valId address
  | bitset valId set => exact storeAll_bitset s valId set
  | currentEpoch | boundary | lastId | proposerId =>
    apply storeAll_cell
    · rfl
    · intro slot h
      cases slot <;> first | exact absurd rfl h | rfl
  | valsetLength array length => exact storeAll_valsetLength s array length
  | valsetElement array i valId => exact storeAll_valsetElement s valId array i

end Steps

section Decoding

/-- The numbers of a validator record fit, and its keys have their lengths. -/
structure Validator.Fits (val : Validator) : Prop where
  stake : val.stake < wordBound
  acc : val.accumulatedRewardPerToken < wordBound
  commission : val.commission < wordBound
  secpPubkey : val.secpPubkey.length = 33
  blsPubkey : val.blsPubkey.length = 48
  unclaimedRewards : val.unclaimedRewards < wordBound

/-- The numbers of a withdrawal request fit. -/
structure WithdrawalRequest.Fits (wr : WithdrawalRequest) : Prop where
  amount : wr.amount < wordBound
  accumulator : wr.accumulator < wordBound
  epoch : wr.epoch < 2 ^ 64

/-- The numbers of an accumulator entry fit. -/
structure RefCountedAccumulator.Fits (acc : RefCountedAccumulator) : Prop where
  value : acc.value < wordBound
  refcount : acc.refcount < 2 ^ 64

/-- The numbers of a view fit. -/
structure ConsensusView.Fits (view : ConsensusView) : Prop where
  stake : view.stake < wordBound
  commission : view.commission < wordBound

/-- A `u256` is read back. -/
theorem wordSlot_val {value : ℕ} (h : value < wordBound) : (wordSlot value).val = value := by
  rw [wordSlot, Fin.val_ofNat]
  exact Nat.mod_eq_of_lt h

/-- A `u64` is read back. -/
theorem u64Slot_read {value : ℕ} (h : value < 2 ^ 64) :
    beNat (byteField (u64Slot value) 0 8) = value := by
  have hfield := byteField_packed [] (beBytes 8 value) [] (by simp)
  rw [List.nil_append, List.append_nil, List.length_nil, beBytes_length] at hfield
  rw [u64Slot, hfield, beNat_beBytes_of_lt]
  exact h

/-- Both epochs of a delegator are read back. -/
theorem epochsSlot_read {deltaEpoch nextDeltaEpoch : ℕ} (h : deltaEpoch < 2 ^ 64)
    (h' : nextDeltaEpoch < 2 ^ 64) :
    beNat (byteField (epochsSlot deltaEpoch nextDeltaEpoch) 0 8) = deltaEpoch ∧
      beNat (byteField (epochsSlot deltaEpoch nextDeltaEpoch) 8 8) = nextDeltaEpoch := by
  have hfirst := byteField_packed [] (beBytes 8 deltaEpoch) (beBytes 8 nextDeltaEpoch) (by simp)
  have hsecond := byteField_packed (beBytes 8 deltaEpoch) (beBytes 8 nextDeltaEpoch) [] (by simp)
  simp only [List.nil_append, List.append_nil, List.length_nil, beBytes_length] at hfirst hsecond
  rw [epochsSlot, hfirst, hsecond, beNat_beBytes_of_lt h, beNat_beBytes_of_lt h']
  exact ⟨rfl, rfl⟩

/-- An address is read back. -/
theorem address_read (address : Address) : Address.ofBytes (beBytes 20 address) = address := by
  have hlt : address.val < 256 ^ 20 := by omega
  apply Fin.ext
  rw [Address.ofBytes, Fin.val_ofNat, beNat_beBytes_of_lt hlt, Nat.mod_eq_of_lt address.isLt]

/-- The auth address and the flags are read back. -/
theorem addressFlagsSlot_read (authAddress : Address) (flags : Flags) :
    Address.ofBytes (byteField (addressFlagsSlot authAddress flags) 0 20) = authAddress ∧
      BitVec.ofNat 64 (beNat (byteField (addressFlagsSlot authAddress flags) 20 8)) = flags := by
  have hlt : flags.toNat < 256 ^ 8 := by
    have hflags := flags.isLt
    omega
  have hfirst := byteField_packed [] (beBytes 20 authAddress) (beBytes 8 flags.toNat) (by simp)
  have hsecond := byteField_packed (beBytes 20 authAddress) (beBytes 8 flags.toNat) [] (by simp)
  simp only [List.nil_append, List.append_nil, List.length_nil, beBytes_length] at hfirst hsecond
  rw [addressFlagsSlot, hfirst, hsecond, address_read, beNat_beBytes_of_lt hlt]
  exact ⟨rfl, BitVec.ofNat_toNat _ _⟩

/-- A list node is read back, the split address included. -/
theorem ListNode.fromSlots_toSlots (node : ListNode) :
    ListNode.fromSlots node.toSlots.1 node.toSlots.2 = node := by
  have hsplit : ((beBytes 20 node.anext).take 16).length = 16 ∧
      ((beBytes 20 node.anext).drop 16).length = 4 := by simp
  have hvalId (v : ValId) : Fin.ofNat (2 ^ 64) (beNat (beBytes 8 v)) = v := by
    have hlt : v.val < 256 ^ 8 := by omega
    rw [beNat_beBytes_of_lt hlt]
    exact Fin.ofNat_val_eq_self v
  have hinext := byteField_packed [] (beBytes 8 node.inext)
    (beBytes 8 node.iprev ++ (beBytes 20 node.anext).take 16) (by simp)
  have hiprev := byteField_packed (beBytes 8 node.inext) (beBytes 8 node.iprev)
    ((beBytes 20 node.anext).take 16) (by simp)
  have hhigh := byteField_packed (beBytes 8 node.inext ++ beBytes 8 node.iprev)
    ((beBytes 20 node.anext).take 16) [] (by simp)
  have hlow := byteField_packed [] ((beBytes 20 node.anext).drop 16) (beBytes 20 node.aprev)
    (by simp)
  have haprev := byteField_packed ((beBytes 20 node.anext).drop 16) (beBytes 20 node.aprev) []
    (by simp)
  simp only [List.nil_append, List.append_nil, List.length_nil, List.length_append,
    beBytes_length, hsplit, List.append_assoc] at hinext hiprev hhigh hlow haprev
  simp only [ListNode.fromSlots, ListNode.toSlots, List.append_assoc]
  rw [hinext, hiprev, hhigh, hlow, haprev, List.take_append_drop, hvalId, hvalId, address_read,
    address_read]

/-- The keys are read back from their three slots. -/
theorem Validator.keys_read {val : Validator} (h : val.Fits) :
    ((val.keySlot 0).toBytes ++ (val.keySlot 1).toBytes ++ (val.keySlot 2).toBytes).take 33 =
        val.secpPubkey ∧
      (((val.keySlot 0).toBytes ++ (val.keySlot 1).toBytes ++ (val.keySlot 2).toBytes).drop
        33).take 48 = val.blsPubkey := by
  have hlength : (val.secpPubkey ++ val.blsPubkey ++ List.replicate 15 0).length = 96 := by
    simp [h.secpPubkey, h.blsPubkey]
  have hslot (i : ℕ) (hi : i < 3) : (val.keySlot i).toBytes =
      ((val.secpPubkey ++ val.blsPubkey ++ List.replicate 15 0).drop (32 * i)).take 32 := by
    apply Word.toBytes_ofBytes
    rw [List.length_take, List.length_drop, hlength]
    omega
  have hconcat : (val.keySlot 0).toBytes ++ (val.keySlot 1).toBytes ++ (val.keySlot 2).toBytes =
      val.secpPubkey ++ (val.blsPubkey ++ List.replicate 15 0) := by
    rw [hslot 0 (by simp), hslot 1 (by simp), hslot 2 (by simp), Nat.mul_zero, List.drop_zero,
      ← List.take_add, ← List.take_add, List.take_of_length_le hlength.le,
      List.append_assoc]
  rw [hconcat]
  constructor
  · rw [← h.secpPubkey, List.take_left]
  · rw [← h.secpPubkey, List.drop_left, ← h.blsPubkey, List.take_left]

/-- Every record fits the words it is stored in. -/
structure Storage.Fits (s : Storage) : Prop where
  epoch : s.epoch < 2 ^ 64
  validators : ∀ v, (s.validators v).Fits
  delegators : ∀ v d, (s.delegators v d).Fits
  withdrawals : ∀ v d w, (s.withdrawals v d w).Fits
  accumulators : ∀ epoch v, (s.accumulators epoch v).Fits
  consensusView : ∀ v, (s.consensusView v).Fits
  snapshotView : ∀ v, (s.snapshotView v).Fits
  valsets : ∀ array, (s.valset array).length < 2 ^ 64

/-- What the readers return from loads, record by record. -/
structure ReadsBack (sload : Slot → Word) (s : Storage) : Prop where
  epoch : RawStorage.readEpoch sload = s.epoch
  inBoundary : RawStorage.readInBoundary sload = s.inBoundary
  epochInfo : RawStorage.readEpochInfo sload = (s.epoch, s.inBoundary)
  lastValId : RawStorage.readU64 sload .lastValId = s.lastValId
  proposerValId : RawStorage.readU64 sload .proposerValId = s.proposerValId
  validator : ∀ v, RawStorage.readValidator sload v = s.validators v
  delegator : ∀ v d, RawStorage.readDelegator sload v d = s.delegators v d
  listNode : ∀ v d, RawStorage.readListNode sload v d = s.listNodes v d
  withdrawalRequest : ∀ v d w, RawStorage.readWithdrawalRequest sload v d w = s.withdrawals v d w
  accumulator : ∀ (epoch : Fin (2 ^ 64)) (v : ValId),
    RawStorage.readAccumulator sload v epoch = s.accumulators epoch v
  consensusView : ∀ v, RawStorage.readView sload (.consensusView v) = s.consensusView v
  snapshotView : ∀ v, RawStorage.readView sload (.snapshotView v) = s.snapshotView v
  valIdSecp : ∀ d, RawStorage.readU64 sload (.valIdSecp d) = s.valIdSecp d
  valIdBls : ∀ d, RawStorage.readU64 sload (.valIdBls d) = s.valIdBls d
  bitset : ∀ v : ValId,
    BitVec.ofNat 256 (RawStorage.readU256 sload (.bitset (bitsetBucket v))) =
      s.bitset (v.val / 256)
  valsetLength : ∀ array, RawStorage.readU64 sload (.length array) = (s.valset array).length
  valsetElement : ∀ (array : ValsetSlots) (i : Fin (2 ^ 64 - 1)),
    RawStorage.readU64 sload (.element array i) = (s.valset array).slot i

section Records

variable {s : Storage}

/-- The boundary flag is read back. -/
theorem readInBoundary_encode : RawStorage.readInBoundary s.encode = s.inBoundary := by
  have hset : packed [1] ≠ 0 := by decide +kernel
  cases hflag : s.inBoundary with
  | true => simp [RawStorage.readInBoundary, Storage.encode, hflag, hset]
  | false => simp [RawStorage.readInBoundary, Storage.encode, hflag]

/-- Validator records are read back. -/
theorem readValidator_encode {v : ValId} (h : (s.validators v).Fits) :
    RawStorage.readValidator s.encode v = s.validators v := by
  obtain ⟨hsecp, hbls⟩ := Validator.keys_read h
  obtain ⟨hauth, hflags⟩ := addressFlagsSlot_read (s.validators v).authAddress
    (s.validators v).flags
  simp only [RawStorage.readValidator, RawStorage.readU256, Storage.encode, Validator.toSlots,
    wordSlot_val h.stake, wordSlot_val h.acc, wordSlot_val h.commission,
    wordSlot_val h.unclaimedRewards, hsecp, hbls, hauth, hflags]

/-- Delegator records are read back. -/
theorem readDelegator_encode {v : ValId} {d : Address} (h : (s.delegators v d).Fits) :
    RawStorage.readDelegator s.encode v d = s.delegators v d := by
  obtain ⟨hdelta, hnext⟩ := epochsSlot_read h.deltaEpoch h.nextDeltaEpoch
  simp only [RawStorage.readDelegator, RawStorage.readU256, Storage.encode, Delegator.toSlots,
    wordSlot_val h.stake, wordSlot_val h.acc, wordSlot_val h.rewards, wordSlot_val h.deltaStake,
    wordSlot_val h.nextDeltaStake, hdelta, hnext]

/-- Withdrawal requests are read back. -/
theorem readWithdrawalRequest_encode {v : ValId} {d : Address} {w : WithdrawId}
    (h : (s.withdrawals v d w).Fits) :
    RawStorage.readWithdrawalRequest s.encode v d w = s.withdrawals v d w := by
  simp only [RawStorage.readWithdrawalRequest, RawStorage.readU256, Storage.encode,
    WithdrawalRequest.toSlots, wordSlot_val h.amount, wordSlot_val h.accumulator,
    u64Slot_read h.epoch]

/-- Accumulator entries are read back, the count from its lowest limb. -/
theorem readAccumulator_encode {epoch : Fin (2 ^ 64)} {v : ValId}
    (h : (s.accumulators epoch v).Fits) :
    RawStorage.readAccumulator s.encode v epoch = s.accumulators epoch v := by
  have hbound : 2 ^ 64 < wordBound := by decide +kernel
  simp only [RawStorage.readAccumulator, RawStorage.readU256, Storage.encode,
    RefCountedAccumulator.toSlots, wordSlot_val h.value, wordSlot_val (h.refcount.trans hbound),
    Nat.mod_eq_of_lt h.refcount]

/-- Views are read back. -/
theorem readView_toSlots {view : ConsensusView} (h : view.Fits) {sload : Slot → Word}
    {slots : Fin 2 → Slot} (hslots : ∀ k, sload (slots k) = view.toSlots k) :
    RawStorage.readView sload slots = view := by
  simp only [RawStorage.readView, RawStorage.readU256, hslots, ConsensusView.toSlots,
    wordSlot_val h.stake, wordSlot_val h.commission]

/-- Buckets of the bitset are read back. -/
theorem readBucket_encode (v : ValId) :
    BitVec.ofNat 256 (RawStorage.readU256 s.encode (.bitset (bitsetBucket v))) =
      s.bitset (v.val / 256) := by
  rw [RawStorage.readU256, Storage.encode, bitsetBucket_val]
  exact BitVec.ofNat_toNat _ _

/-- A `u64` is read back from its slot. -/
theorem readU64_encode {slot : Slot} {value : ℕ} (hslot : s.encode slot = u64Slot value)
    (h : value < 2 ^ 64) : RawStorage.readU64 s.encode slot = value := by
  rw [RawStorage.readU64, hslot]
  exact u64Slot_read h

/-- The readers decode what was encoded. -/
theorem readsBack_encode (h : s.Fits) : ReadsBack s.encode s := by
  have hepoch : RawStorage.readU64 s.encode .epoch = s.epoch := readU64_encode rfl h.epoch
  constructor
  case epoch => exact hepoch
  case inBoundary => exact readInBoundary_encode
  case epochInfo =>
    have hinfo (sload : Slot → Word) : RawStorage.readEpochInfo sload =
        (RawStorage.readEpoch sload, RawStorage.readInBoundary sload) := rfl
    rw [hinfo, readInBoundary_encode, RawStorage.readEpoch, hepoch]
  case lastValId => exact readU64_encode rfl s.lastValId.isLt
  case proposerValId => exact readU64_encode rfl s.proposerValId.isLt
  case validator => exact fun v => readValidator_encode (h.validators v)
  case delegator => exact fun v d => readDelegator_encode (h.delegators v d)
  case listNode => exact fun v d => ListNode.fromSlots_toSlots (s.listNodes v d)
  case withdrawalRequest =>
    exact fun v d w => readWithdrawalRequest_encode (h.withdrawals v d w)
  case accumulator => exact fun epoch v => readAccumulator_encode (h.accumulators epoch v)
  case consensusView => exact fun v => readView_toSlots (h.consensusView v) fun _ => rfl
  case snapshotView => exact fun v => readView_toSlots (h.snapshotView v) fun _ => rfl
  case valIdSecp => exact fun d => readU64_encode rfl (s.valIdSecp d).isLt
  case valIdBls => exact fun d => readU64_encode rfl (s.valIdBls d).isLt
  case bitset => exact readBucket_encode
  case valsetLength =>
    exact fun array => readU64_encode (encode_length s array) (h.valsets array)
  case valsetElement =>
    exact fun array i => readU64_encode (encode_element s array i) ((s.valset array).slot i).isLt

end Records

end Decoding

section Runs

/-- The values that a write is given are of their types. -/
def RecordWrite.Fits : RecordWrite → Prop
  | .validatorFull _ val => val.Fits
  | .validatorStake _ value | .validatorAcc _ value | .validatorCommission _ value
  | .validatorUnclaimedRewards _ value | .consensusStake _ value | .consensusCommission _ value
  | .snapshotStake _ value | .snapshotCommission _ value => value < wordBound
  | .delegator _ _ del => del.Fits
  | .withdrawalRequest _ _ _ amount acc epoch => WithdrawalRequest.Fits ⟨amount, acc, epoch⟩
  | .accumulator _ _ acc => acc.Fits
  | .currentEpoch value | .valsetLength _ value => value < 2 ^ 64
  | _ => True

/-- Replacing one value by one that fits keeps a family fitting. -/
theorem fits_update {ι β : Type*} [DecidableEq ι] {P : β → Prop} {f : ι → β} {i : ι} {b : β}
    (hf : ∀ j, P (f j)) (hb : P b) (j : ι) : P (Function.update f i b j) := by
  by_cases hj : j = i
  · rw [hj, Function.update_self]
    exact hb
  · rw [Function.update_of_ne hj]
    exact hf j

section Keep

variable {s : Storage} (hs : s.Fits)
include hs

/-- A validator in range can be written. -/
theorem Storage.Fits.writeValidator (valId : ValId) {val : Validator} (h : val.Fits) :
    (s.writeValidator valId val).Fits :=
  { hs with validators := fits_update hs.validators h }

/-- A delegator record in range can be written. -/
theorem Storage.Fits.writeDelegator (valId : ValId) (addr : Address) {del : Delegator}
    (h : del.Fits) : (s.writeDelegator valId addr del).Fits := by
  refine { hs with delegators := ?_ }
  apply fits_update (P := fun records : Address → Delegator => ∀ d, (records d).Fits) hs.delegators
  exact fits_update (hs.delegators valId) h

/-- A withdrawal request in range can be written. -/
theorem Storage.Fits.writeWithdrawalRequest (valId : ValId) (addr : Address) (wid : WithdrawId)
    {wr : WithdrawalRequest} (h : wr.Fits) :
    (s.writeWithdrawalRequest valId addr wid wr).Fits := by
  refine { hs with withdrawals := ?_ }
  apply fits_update (P := fun requests : Address → WithdrawId → WithdrawalRequest =>
    ∀ d w, (requests d w).Fits) hs.withdrawals
  apply fits_update (P := fun requests : WithdrawId → WithdrawalRequest =>
    ∀ w, (requests w).Fits) (hs.withdrawals valId)
  exact fits_update (hs.withdrawals valId addr) h

/-- An accumulator entry in range can be written. -/
theorem Storage.Fits.writeAccumulator (valId : ValId) (epoch : ℕ) {acc : RefCountedAccumulator}
    (h : acc.Fits) : (s.writeAccumulator valId epoch acc).Fits := by
  refine { hs with accumulators := ?_ }
  apply fits_update (P := fun entries : ValId → RefCountedAccumulator =>
    ∀ v, (entries v).Fits) hs.accumulators
  exact fits_update (hs.accumulators epoch) h

/-- A consensus view in range can be written. -/
theorem Storage.Fits.writeConsensusView (valId : ValId) {view : ConsensusView} (h : view.Fits) :
    (s.writeConsensusView valId view).Fits :=
  { hs with consensusView := fits_update hs.consensusView h }

/-- A snapshot view in range can be written. -/
theorem Storage.Fits.writeSnapshotView (valId : ValId) {view : ConsensusView} (h : view.Fits) :
    (s.writeSnapshotView valId view).Fits :=
  { hs with snapshotView := fits_update hs.snapshotView h }

/-- A validator set whose length is a machine word can be written. -/
theorem Storage.Fits.setValset (a : Valset) (h : a.length < 2 ^ 64) (array : ValsetSlots) :
    (s.setValset a array).Fits := by
  have hvalsets (array' : ValsetSlots) : ((s.setValset a array).valset array').length < 2 ^ 64 := by
    rw [valset_setValset]
    split
    · exact h
    · exact hs.valsets array'
  cases array with
  | execution => exact { hs with valsets := hvalsets }
  | consensus => exact { hs with valsets := hvalsets }
  | snapshot => exact { hs with valsets := hvalsets }

/-- Writes of fitting values keep every record fitting. -/
theorem RecordWrite.apply_fits {write : RecordWrite} (h : write.Fits) : (write.apply s).Fits := by
  cases write with
  | validatorFull valId val => exact hs.writeValidator valId h
  | validatorStake valId stake =>
    exact hs.writeValidator valId { hs.validators valId with stake := h }
  | validatorAcc valId acc =>
    exact hs.writeValidator valId { hs.validators valId with acc := h }
  | validatorCommission valId commission =>
    exact hs.writeValidator valId { hs.validators valId with commission := h }
  | validatorUnclaimedRewards valId rewards =>
    exact hs.writeValidator valId { hs.validators valId with unclaimedRewards := h }
  | validatorFlags valId val newFlags =>
    have hval := hs.validators valId
    exact hs.writeValidator valId ⟨hval.stake, hval.acc, hval.commission, hval.secpPubkey,
      hval.blsPubkey, hval.unclaimedRewards⟩
  | delegator valId addr del => exact hs.writeDelegator valId addr h
  | withdrawalRequest valId addr wid amount acc epoch =>
    exact hs.writeWithdrawalRequest valId addr wid h
  | clearWithdrawalRequest valId addr wid =>
    exact hs.writeWithdrawalRequest valId addr wid
      ⟨wordBound_pos, wordBound_pos, Nat.two_pow_pos 64⟩
  | accumulator epoch valId acc => exact hs.writeAccumulator valId epoch h
  | consensusStake valId stake =>
    exact hs.writeConsensusView valId { hs.consensusView valId with stake := h }
  | consensusCommission valId commission =>
    exact hs.writeConsensusView valId { hs.consensusView valId with commission := h }
  | snapshotStake valId stake =>
    exact hs.writeSnapshotView valId { hs.snapshotView valId with stake := h }
  | snapshotCommission valId commission =>
    exact hs.writeSnapshotView valId { hs.snapshotView valId with commission := h }
  | valsetLength array length => exact hs.setValset { s.valset array with length } h array
  | valsetElement array i valId =>
    exact hs.setValset { s.valset array with slot := Function.update (s.valset array).slot i valId }
      (hs.valsets array) array
  | currentEpoch epoch => exact { hs with epoch := h }
  | listNode | valIdSecp | valIdBls | bitset | boundary | lastId | proposerId => exact { hs with }

end Keep

/-- Writes into raw storage, in order. -/
def RawStorage.run (raw : RawStorage) (writes : List RecordWrite) : RawStorage :=
  writes.foldl (fun raw write => raw.perform write.stores) raw

/-- The same writes to the records. -/
def Storage.run (s : Storage) (writes : List RecordWrite) : Storage :=
  writes.foldl RecordWrite.apply s

/-- Writes keep the raw storage an encoding of the records, and the records fitting. -/
theorem run_encode {raw : RawStorage} {s : Storage} {writes : List RecordWrite}
    (hraw : raw.sload = s.encode) (hs : s.Fits) (hwrites : ∀ write ∈ writes, write.Fits) :
    (raw.run writes).sload = (s.run writes).encode ∧ (s.run writes).Fits := by
  induction writes generalizing raw s with
  | nil => exact ⟨hraw, hs⟩
  | cons write writes ih =>
    rw [List.forall_mem_cons] at hwrites
    apply ih
    · rw [RawStorage.perform_sload, hraw, storeAll_encode]
    · exact RecordWrite.apply_fits hs hwrites.1
    · exact hwrites.2

/-- Empty storage is the encoding of empty records. -/
theorem empty_encode : RawStorage.sload (fun _ => 0) = Storage.empty.encode := by
  have hu64 : u64Slot 0 = 0 := by decide +kernel
  have hvalidator : ∀ k, Validator.zero.toSlots k = 0 := by decide +kernel
  have hdelegator : ∀ k, Delegator.zero.toSlots .zero k = 0 := by decide +kernel
  have hwithdrawal : ∀ k, WithdrawalRequest.zero.toSlots k = 0 := by decide +kernel
  have haccumulator : ∀ k, RefCountedAccumulator.toSlots ⟨0, 0⟩ k = 0 := by decide +kernel
  have hview : ∀ k, ConsensusView.zero.toSlots k = 0 := by decide +kernel
  funext slot
  symm
  cases slot with
  | epoch | lastValId | proposerValId | valIdSecp | valIdBls => exact hu64
  | inBoundary | bitset => rfl
  | valset array position =>
    rw [Storage.encode, Valset.toSlots]
    cases array <;> split <;> exact hu64
  | consensusView valId slot | snapshotView valId slot => exact hview slot
  | validator valId slot => exact hvalidator slot
  | accumulator epoch valId slot => exact haccumulator slot
  | delegator valId addr slot => exact hdelegator slot
  | withdrawal valId addr wid slot => exact hwithdrawal slot

/-- Empty records fit. -/
theorem empty_fits : Storage.empty.Fits where
  epoch := Nat.two_pow_pos 64
  validators _ := ⟨wordBound_pos, wordBound_pos, wordBound_pos, rfl, rfl, wordBound_pos⟩
  delegators _ _ := Delegator.zero_fits
  withdrawals _ _ _ := ⟨wordBound_pos, wordBound_pos, Nat.two_pow_pos 64⟩
  accumulators _ _ := ⟨wordBound_pos, Nat.two_pow_pos 64⟩
  consensusView _ := ⟨wordBound_pos, wordBound_pos⟩
  snapshotView _ := ⟨wordBound_pos, wordBound_pos⟩
  valsets array := by cases array <;> exact Nat.two_pow_pos 64

/-- No two fields share a key, and after any writes every reader returns what was last written to
its record, whatever was written to the others. -/
theorem raw_storage_faithful (writes : List RecordWrite) (hfits : ∀ write ∈ writes, write.Fits) :
    Function.Injective Slot.word ∧
      ReadsBack (RawStorage.run (fun _ => 0) writes).sload (Storage.empty.run writes) := by
  obtain ⟨hrun, hrecords⟩ := run_encode empty_encode empty_fits hfits
  rw [hrun]
  exact ⟨Slot.word_injective, readsBack_encode hrecords⟩

/-- Writes to a validator, its flags, a delegator and both kinds of sentinel node. -/
def sampleWrites : List RecordWrite :=
  [.validatorFull 1 { Validator.zero with stake := activeValidatorStake, authAddress := 7 },
    .delegator 1 7 ⟨activeValidatorStake, 1, 2, 3, 4, 5, 6⟩,
    .listNode sentinelValId 7 ⟨1, 0, 0, 0⟩,
    .listNode 1 sentinelAddress ⟨0, 0, 7, 0⟩,
    .validatorFlags 1 { Validator.zero with authAddress := 7 } withdrawn,
    .accumulator 3 1 ⟨10, 2⟩]

/-- The sample writes are read back from the flat storage. -/
theorem raw_storage_faithful_sample : Function.Injective Slot.word ∧
    ReadsBack (RawStorage.run (fun _ => 0) sampleWrites).sload
      (Storage.empty.run sampleWrites) := by
  have hword : activeValidatorStake < wordBound ∧ 10 < wordBound := by decide +kernel
  obtain ⟨hstake, hten⟩ := hword
  have hsmall (n : ℕ) (hn : n ≤ 10) : n < wordBound := hn.trans_lt hten
  apply raw_storage_faithful
  simp only [sampleWrites, List.forall_mem_cons]
  refine ⟨?_, ?_, trivial, trivial, trivial, ?_, by simp⟩
  · exact ⟨hstake, wordBound_pos, wordBound_pos, rfl, rfl, wordBound_pos⟩
  · exact ⟨hstake, hsmall 1 (by simp), hsmall 2 (by simp), hsmall 3 (by simp),
      hsmall 4 (by simp), by simp, by simp⟩
  · exact ⟨hten, by simp⟩

end Runs

end SuwappuRevm.Staking
