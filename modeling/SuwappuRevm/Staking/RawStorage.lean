import SuwappuRevm.Foundations.FlatStore
import SuwappuRevm.Foundations.PackedWords
import SuwappuRevm.Staking.Ranges
import SuwappuRevm.Staking.StorageKeys

/-!
# Records in raw storage

The account's storage is a function from 256-bit keys to 256-bit words. The write helpers store the
fields of a record at its keys, several of them packed into one word, and the readers load and
unpack them. The readers exist three times: those of the write path, those of the getters over the
journal, and those of the getters over a storage reader, which differ from the second in nothing
but where they load from.
-/

namespace SuwappuRevm.Staking

open Foundations

/-- There is a bucket of the bitset. -/
instance bucketNeZero : NeZero (2 ^ 56) := ⟨by norm_num⟩

/-- The key of a field as a word. -/
def Slot.word (slot : Slot) : Word := Fin.ofNat (2 ^ 256) slot.key

/-- Keys are within the width of a word. -/
theorem Slot.key_lt (slot : Slot) : slot.key < 2 ^ 256 := by
  have hnamespace : slot.namespaceValue ≤ 12 := by
    rcases slot with _ | _ | _ | _ | ⟨_ | _ | _, _⟩ | _ | _ | _ | _ | _ | _ | _ | _ | _ <;>
      simp [namespaceValue]
  have hoffset := slot.offset_lt
  rw [slot.key_eq]
  omega

/-- No two fields share a key. -/
theorem Slot.word_injective : Function.Injective Slot.word := by
  intro a b h
  have hkeys := congrArg Fin.val h
  rw [word, word, Fin.val_ofNat, Fin.val_ofNat, Nat.mod_eq_of_lt a.key_lt,
    Nat.mod_eq_of_lt b.key_lt] at hkeys
  exact Slot.key_injective hkeys

/-- The raw storage of the account. -/
abbrev RawStorage := Word → Word

/-- The stores that a write helper makes, in order. -/
abbrev Stores := List (Slot × Word)

/-- `sload`. -/
def RawStorage.sload (raw : RawStorage) (slot : Slot) : Word := raw slot.word

/-- A sequence of `sstore`s. -/
def RawStorage.perform (raw : RawStorage) (stores : Stores) : RawStorage :=
  storeAll raw (stores.map (Prod.map Slot.word id))

/-- Storing at the keys of fields stores those fields. -/
theorem RawStorage.perform_sload (raw : RawStorage) (stores : Stores) :
    (raw.perform stores).sload = storeAll raw.sload stores :=
  storeAll_comp Slot.word_injective raw stores

/-- The `u256` slot of a value. -/
def wordSlot (value : ℕ) : Word := Fin.ofNat (2 ^ 256) value

/-- The slot of a `u64`, left-aligned. -/
def u64Slot (value : ℕ) : Word := packed (beBytes 8 value)

/-- The slot of the length of an array. -/
def Slot.length (array : ValsetSlots) : Slot := .valset array (Fin.ofNat (2 ^ 64 + 1) 0)

/-- The slot of an element of an array; the position is computed as a `u64`. -/
def Slot.element (array : ValsetSlots) (i : Fin (2 ^ 64 - 1)) : Slot :=
  .valset array (Fin.ofNat (2 ^ 64 + 1) (u64Add 1 i))

/-- The bucket of a validator in the bitset. -/
def bitsetBucket (valId : ValId) : Fin (2 ^ 56) := Fin.ofNat (2 ^ 56) (valId.val / 256)

section Packing

/-- The slots of both keys: 81 bytes in three words. -/
def Validator.keySlot (val : Validator) (i : ℕ) : Word :=
  Word.ofBytes (((val.secpPubkey ++ val.blsPubkey ++ List.replicate 15 0).drop (32 * i)).take 32)

/-- The slot of the auth address and the flags. -/
def addressFlagsSlot (authAddress : Address) (flags : Flags) : Word :=
  packed (beBytes 20 authAddress ++ beBytes 8 flags.toNat)

/-- The slot of both epochs of a delegator. -/
def epochsSlot (deltaEpoch nextDeltaEpoch : ℕ) : Word :=
  packed (beBytes 8 deltaEpoch ++ beBytes 8 nextDeltaEpoch)

/-- `ListNode::to_slots`; the next address is split between the slots. -/
def ListNode.toSlots (node : ListNode) : Word × Word :=
  (packed (beBytes 8 node.inext ++ beBytes 8 node.iprev ++ (beBytes 20 node.anext).take 16),
    packed ((beBytes 20 node.anext).drop 16 ++ beBytes 20 node.aprev))

/-- `ListNode::from_slots`. -/
def ListNode.fromSlots (slot6 slot7 : Word) : ListNode where
  inext := Fin.ofNat (2 ^ 64) (beNat (byteField slot6 0 8))
  iprev := Fin.ofNat (2 ^ 64) (beNat (byteField slot6 8 8))
  anext := Address.ofBytes (byteField slot6 16 16 ++ byteField slot7 0 4)
  aprev := Address.ofBytes (byteField slot7 4 20)

end Packing

namespace RawStorage

section Writers

variable (valId : ValId) (addr : Address)

/-- `write_storage_u256`. -/
def writeStorageU256 (slot : Slot) (value : ℕ) : Stores := [(slot, wordSlot value)]

/-- `write_storage_u64`. -/
def writeStorageU64 (slot : Slot) (value : ℕ) : Stores := [(slot, u64Slot value)]

/-- `write_validator_stake`. -/
def writeValidatorStake (stake : ℕ) : Stores := writeStorageU256 (.validator valId 0) stake

/-- `write_validator_acc`. -/
def writeValidatorAcc (acc : ℕ) : Stores := writeStorageU256 (.validator valId 1) acc

/-- `write_validator_commission`. -/
def writeValidatorCommission (commission : ℕ) : Stores :=
  writeStorageU256 (.validator valId 2) commission

/-- `write_validator_unclaimed_rewards`. -/
def writeValidatorUnclaimedRewards (rewards : ℕ) : Stores :=
  writeStorageU256 (.validator valId 7) rewards

/-- `write_validator_flags`; the auth address is that of the record it is given. -/
def writeValidatorFlags (val : Validator) (newFlags : Flags) : Stores :=
  [(.validator valId 6, addressFlagsSlot val.authAddress newFlags)]

/-- `write_validator_full`. -/
def writeValidatorFull (val : Validator) : Stores :=
  writeValidatorStake valId val.stake ++ writeValidatorAcc valId val.accumulatedRewardPerToken ++
    writeValidatorCommission valId val.commission ++
    [(.validator valId 3, val.keySlot 0), (.validator valId 4, val.keySlot 1),
      (.validator valId 5, val.keySlot 2)] ++
    writeValidatorFlags valId val val.flags ++
    writeValidatorUnclaimedRewards valId val.unclaimedRewards

/-- `write_delegator`. -/
def writeDelegator (del : Delegator) : Stores :=
  writeStorageU256 (.delegator valId addr 0) del.stake ++
    writeStorageU256 (.delegator valId addr 1) del.accumulatedRewardPerToken ++
    writeStorageU256 (.delegator valId addr 2) del.rewards ++
    writeStorageU256 (.delegator valId addr 3) del.deltaStake ++
    writeStorageU256 (.delegator valId addr 4) del.nextDeltaStake ++
    [(.delegator valId addr 5, epochsSlot del.deltaEpoch del.nextDeltaEpoch)]

/-- `write_list_node`. -/
def writeListNode (node : ListNode) : Stores :=
  [(.delegator valId addr 6, node.toSlots.1), (.delegator valId addr 7, node.toSlots.2)]

/-- `write_withdrawal_request`. -/
def writeWithdrawalRequest (wid : WithdrawId) (amount acc epoch : ℕ) : Stores :=
  writeStorageU256 (.withdrawal valId addr wid 0) amount ++
    writeStorageU256 (.withdrawal valId addr wid 1) acc ++
    writeStorageU64 (.withdrawal valId addr wid 2) epoch

/-- `clear_withdrawal_request`. -/
def clearWithdrawalRequest (wid : WithdrawId) : Stores :=
  writeStorageU256 (.withdrawal valId addr wid 0) 0 ++
    writeStorageU256 (.withdrawal valId addr wid 1) 0 ++
    writeStorageU256 (.withdrawal valId addr wid 2) 0

/-- `write_accumulator`; the count is stored as a `u256`. -/
def writeAccumulator (epoch : Fin (2 ^ 64)) (acc : RefCountedAccumulator) : Stores :=
  writeStorageU256 (.accumulator epoch valId 0) acc.value ++
    writeStorageU256 (.accumulator epoch valId 1) acc.refcount

/-- The write of the stake of a view. -/
def writeViewStake (view : Fin 2 → Slot) (stake : ℕ) : Stores := writeStorageU256 (view 0) stake

/-- The write of the commission of a view. -/
def writeViewCommission (view : Fin 2 → Slot) (commission : ℕ) : Stores :=
  writeStorageU256 (view 1) commission

/-- The write of the boundary flag: byte `0` of the slot. -/
def writeInBoundary (inBoundary : Bool) : Stores :=
  [(.inBoundary, if inBoundary then packed [1] else 0)]

end Writers

section Readers

variable (sload : Slot → Word) (valId : ValId) (addr : Address)

/-- `read_u256`, `read_storage_u256`. -/
def readU256 (slot : Slot) : ℕ := (sload slot).val

/-- `read_u64`, `read_storage_u64`. -/
def readU64 (slot : Slot) : ℕ := beNat (byteField (sload slot) 0 8)

/-- `read_epoch`. -/
def readEpoch : ℕ := readU64 sload .epoch

/-- `read_in_boundary`. -/
def readInBoundary : Bool := decide (sload .inBoundary ≠ 0)

/-- `read_epoch_info`, for the getters. -/
def readEpochInfo : ℕ × Bool := (readU64 sload .epoch, decide (sload .inBoundary ≠ 0))

/-- `read_validator`. -/
def readValidator : Validator :=
  let keysConcat := (sload (.validator valId 3)).toBytes ++ (sload (.validator valId 4)).toBytes ++
    (sload (.validator valId 5)).toBytes
  let addressFlagsRaw := sload (.validator valId 6)
  { stake := readU256 sload (.validator valId 0)
    accumulatedRewardPerToken := readU256 sload (.validator valId 1)
    commission := readU256 sload (.validator valId 2)
    secpPubkey := keysConcat.take 33
    blsPubkey := (keysConcat.drop 33).take 48
    authAddress := Address.ofBytes (byteField addressFlagsRaw 0 20)
    flags := BitVec.ofNat 64 (beNat (byteField addressFlagsRaw 20 8))
    unclaimedRewards := readU256 sload (.validator valId 7) }

/-- `read_delegator`. -/
def readDelegator : Delegator :=
  let epochsRaw := sload (.delegator valId addr 5)
  { stake := readU256 sload (.delegator valId addr 0)
    accumulatedRewardPerToken := readU256 sload (.delegator valId addr 1)
    rewards := readU256 sload (.delegator valId addr 2)
    deltaStake := readU256 sload (.delegator valId addr 3)
    nextDeltaStake := readU256 sload (.delegator valId addr 4)
    deltaEpoch := beNat (byteField epochsRaw 0 8)
    nextDeltaEpoch := beNat (byteField epochsRaw 8 8) }

/-- `read_list_node`. -/
def readListNode : ListNode :=
  ListNode.fromSlots (sload (.delegator valId addr 6)) (sload (.delegator valId addr 7))

/-- `read_withdrawal_request`; the write path reads the same slots in `handle_withdraw`. -/
def readWithdrawalRequest (wid : WithdrawId) : WithdrawalRequest where
  amount := readU256 sload (.withdrawal valId addr wid 0)
  accumulator := readU256 sload (.withdrawal valId addr wid 1)
  epoch := beNat (byteField (sload (.withdrawal valId addr wid 2)) 0 8)

/-- The stake and the commission of a view, read one by one. -/
def readView (view : Fin 2 → Slot) : ConsensusView where
  stake := readU256 sload (view 0)
  commission := readU256 sload (view 1)

/-- `read_accumulator`; the count is the lowest limb. -/
def readAccumulator (epoch : Fin (2 ^ 64)) : RefCountedAccumulator where
  value := readU256 sload (.accumulator epoch valId 0)
  refcount := readU256 sload (.accumulator epoch valId 1) % 2 ^ 64

end Readers

end RawStorage

end SuwappuRevm.Staking
