import SuwappuRevm.Staking.Settlement

/-!
# Delegation lists, execution set and flags

The two intrusive doubly linked lists threaded through the delegator records, the execution set
with its bitset, the status flags, and `internal_delegate`, which all paths that add stake share.
-/

namespace SuwappuRevm.Staking

open Foundations

/-- The error of rejected arguments. -/
def invalidInput : PrecompileError := .other "invalid input"

/-- `linked_list_insert_address`: into the validator's delegator list. -/
def linkedListInsertAddress (s : Storage) (valId : ValId) (ptr : Address) :
    Except PrecompileError Storage := do
  failIf (ptr = 0 ∨ ptr = sentinelAddress) invalidInput
  let thisNode := s.listNodes valId ptr
  if thisNode.aprev ≠ 0 then return s
  else
    let sentinel := s.listNodes valId sentinelAddress
    let nextPtr := sentinel.anext
    let s :=
      if nextPtr ≠ 0 then
        s.writeListNode valId nextPtr { s.listNodes valId nextPtr with aprev := ptr }
      else s
    let s := s.writeListNode valId ptr { thisNode with aprev := sentinelAddress, anext := nextPtr }
    return s.writeListNode valId sentinelAddress { sentinel with anext := ptr }

/-- `linked_list_insert_val_id`: into the delegator's validator list. -/
def linkedListInsertValId (s : Storage) (valId : ValId) (delegator : Address) :
    Except PrecompileError Storage := do
  failIf (valId = 0 ∨ valId = sentinelValId) invalidInput
  let thisNode := s.listNodes valId delegator
  if thisNode.iprev ≠ 0 then return s
  else
    let sentinel := s.listNodes sentinelValId delegator
    let nextPtr := sentinel.inext
    let s :=
      if nextPtr ≠ 0 then
        s.writeListNode nextPtr delegator { s.listNodes nextPtr delegator with iprev := valId }
      else s
    let s := s.writeListNode valId delegator
      { thisNode with iprev := sentinelValId, inext := nextPtr }
    return s.writeListNode sentinelValId delegator { sentinel with inext := valId }

/-- `linked_list_insert`. -/
def linkedListInsert (s : Storage) (valId : ValId) (delegator : Address) :
    Except PrecompileError Storage := do
  let s ← linkedListInsertAddress s valId delegator
  linkedListInsertValId s valId delegator

/-- `linked_list_remove_address`. -/
def linkedListRemoveAddress (s : Storage) (valId : ValId) (ptr : Address) : Storage :=
  let thisNode := s.listNodes valId ptr
  if thisNode.aprev = 0 then s
  else
    let prevPtr := thisNode.aprev
    let nextPtr := thisNode.anext
    let s := s.writeListNode valId prevPtr { s.listNodes valId prevPtr with anext := nextPtr }
    let s :=
      if nextPtr ≠ 0 then
        s.writeListNode valId nextPtr { s.listNodes valId nextPtr with aprev := prevPtr }
      else s
    s.writeListNode valId ptr { thisNode with aprev := 0, anext := 0 }

/-- `linked_list_remove_val_id`. -/
def linkedListRemoveValId (s : Storage) (valId : ValId) (delegator : Address) : Storage :=
  let thisNode := s.listNodes valId delegator
  if thisNode.iprev = 0 then s
  else
    let prevPtr := thisNode.iprev
    let nextPtr := thisNode.inext
    let s := s.writeListNode prevPtr delegator
      { s.listNodes prevPtr delegator with inext := nextPtr }
    let s :=
      if nextPtr ≠ 0 then
        s.writeListNode nextPtr delegator { s.listNodes nextPtr delegator with iprev := prevPtr }
      else s
    s.writeListNode valId delegator { thisNode with iprev := 0, inext := 0 }

/-- `linked_list_remove`. -/
def linkedListRemove (s : Storage) (valId : ValId) (delegator : Address) : Storage :=
  linkedListRemoveValId (linkedListRemoveAddress s valId delegator) valId delegator

/-- The bit of a validator in its bitset bucket. -/
def bitMask (valId : ValId) : BitVec 256 := 1#256 <<< (valId.val % 256)

/-- `add_to_valset`: also says whether the validator is new in the execution set. -/
def addToValset (s : Storage) (valId : ValId) : Bool × Storage :=
  let bucket := valId.val / 256
  let set := s.bitset bucket
  let inserted := set &&& bitMask valId = 0
  let s := { s with bitset := Function.update s.bitset bucket (set ||| bitMask valId) }
  if inserted then
    let len := s.execution.length
    let slot := Function.update s.execution.slot len valId
    (true, { s with execution := ⟨u64Add len 1, slot⟩ })
  else (false, s)

/-- `remove_from_valset`. -/
def removeFromValset (s : Storage) (valId : ValId) : Storage :=
  let bucket := valId.val / 256
  { s with bitset := Function.update s.bitset bucket (s.bitset bucket &&& ~~~bitMask valId) }

/-- `write_validator_flags`: the auth address in the same slot is that of `val`. -/
def Storage.writeValidatorFlags (s : Storage) (valId : ValId) (val : Validator) (flags : Flags) :
    Storage :=
  s.writeValidator valId { s.validators valId with authAddress := val.authAddress, flags }

/-- `update_validator_flags_after_delegate`. -/
def updateValidatorFlagsAfterDelegate (s : Storage) (valId : ValId) (val : Validator)
    (del : Delegator) (caller : Address) : Flags × Storage :=
  let flags := val.flags
  let flags := if activeValidatorStake ≤ val.stake then flags &&& ~~~stakeTooLow else flags
  let flags :=
    if caller = val.authAddress ∧ minAuthAddressStake ≤ del.totalStake then
      flags &&& ~~~withdrawn
    else flags
  if flags ≠ val.flags then (flags, s.writeValidatorFlags valId val flags) else (flags, s)

/-- `update_validator_flags_after_undelegate`. -/
def updateValidatorFlagsAfterUndelegate (s : Storage) (valId : ValId) (val : Validator)
    (del : Delegator) (caller : Address) : Flags × Storage :=
  let flags := val.flags
  let flags := if val.stake < activeValidatorStake then flags ||| stakeTooLow else flags
  let flags :=
    if caller = val.authAddress ∧ del.totalStake < minAuthAddressStake then flags ||| withdrawn
    else flags
  if flags ≠ val.flags then (flags, s.writeValidatorFlags valId val flags) else (flags, s)

/-- The track a delegation goes to: the record with the amount added, and whether the track was
empty and so needs an accumulator reference. -/
def addPending (inBoundary : Bool) (activationEpoch amount : ℕ) (del : Delegator) :
    Except PrecompileError (Bool × Delegator) :=
  if inBoundary then do
    let nextDeltaStake ← checkedAdd internalError del.nextDeltaStake amount
    return (del.nextDeltaEpoch == 0, { del with nextDeltaStake, nextDeltaEpoch := activationEpoch })
  else do
    let deltaStake ← checkedAdd internalError del.deltaStake amount
    return (del.deltaEpoch == 0, { del with deltaStake, deltaEpoch := activationEpoch })

/-- Take an accumulator reference when needed. -/
def incrementIf (need : Bool) (s : Storage) (valId : ValId) : Storage :=
  if need then incrementAccumulatorRefcount s valId else s

/-- Enter the execution set when no flag is set. -/
def addToValsetIf (flags : Flags) (s : Storage) (valId : ValId) : Storage :=
  if flags = flagsOk then (addToValset s valId).2 else s

/-- The part of `internal_delegate` on the settled record and the validator's stake. -/
def addDelegation (s : Storage) (valId : ValId) (caller : Address) (amount : ℕ)
    (del : Delegator) : Except PrecompileError (Delegator × Storage) := do
  let (needAcc, del) ← addPending s.inBoundary s.getActivationEpoch amount del
  let s := incrementIf needAcc (s.writeDelegator valId caller del) valId
  let stake ← checkedAdd internalError (s.validators valId).stake amount
  return (del, s.writeValidatorStake valId stake)

/-- The part of `internal_delegate` on flags, execution set and lists. -/
def enlist (s : Storage) (valId : ValId) (caller : Address) (del : Delegator) :
    Except PrecompileError Storage := do
  let (flags, s) := updateValidatorFlagsAfterDelegate s valId (s.validators valId) del caller
  linkedListInsert (addToValsetIf flags s valId) valId caller

/-- `internal_delegate`. -/
def internalDelegate (s : Storage) (valId : ValId) (caller : Address) (amount : ℕ) :
    Except PrecompileError Storage := do
  let (del, s) ← pullDelegatorUpToDate s valId caller
  let (del, s) ← addDelegation s valId caller amount del
  let s ← enlist s valId caller del
  return s.record valId (.delegated caller amount s.getActivationEpoch)

end SuwappuRevm.Staking
