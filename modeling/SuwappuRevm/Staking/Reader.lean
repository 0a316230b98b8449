import SuwappuRevm.Staking.Dispatch
import SuwappuRevm.Staking.Ranges

/-!
# The reader entry point

`run_staking_with_reader` answers the getters over a plain storage reader, with its own copies of
the dispatcher, the handlers and the traversals. The copies agree with those behind the precompile,
except for one method: the precompile settles a delegator before it answers `getDelegator`, and a
reader cannot.
-/

namespace SuwappuRevm.Staking

open Foundations

section Traversals

variable (s : Storage)

/-- The loop of `traverse_validators_for_delegator_reader`, with room for so many more entries. -/
def validatorLoopReader (delegator : Address) :
    ℕ → ValId → ListNode → List ValId → ValId × List ValId
  | 0, currentPtr, _, results => (currentPtr, results)
  | room + 1, currentPtr, currentNode, results =>
    if currentPtr = 0 then (currentPtr, results)
    else
      let next := currentNode.inext
      let currentNode := if next ≠ 0 ∧ 0 < room then s.listNodes next delegator else currentNode
      validatorLoopReader delegator room next currentNode (results ++ [currentPtr])

/-- `traverse_validators_for_delegator_reader`. -/
def traverseValidatorsForDelegatorReader (delegator : Address) (startValId : ValId)
    (limit : ℕ) : Page ValId ValId :=
  let ptr :=
    if startValId = 0 then (s.listNodes sentinelValId delegator).inext else startValId
  if ptr = 0 then ⟨true, 0, []⟩
  else
    let firstNode := s.listNodes ptr delegator
    if firstNode.iprev = 0 then ⟨true, ptr, []⟩
    else
      let (currentPtr, results) := validatorLoopReader s delegator limit ptr firstNode []
      ⟨decide (currentPtr = 0), currentPtr, results⟩

/-- The loop of `traverse_delegators_for_validator_reader`, with room for so many more entries. -/
def delegatorLoopReader (valId : ValId) :
    ℕ → Address → ListNode → List Address → Address × List Address
  | 0, currentPtr, _, results => (currentPtr, results)
  | room + 1, currentPtr, currentNode, results =>
    if currentPtr = 0 then (currentPtr, results)
    else
      let next := currentNode.anext
      let currentNode := if next ≠ 0 ∧ 0 < room then s.listNodes valId next else currentNode
      delegatorLoopReader valId room next currentNode (results ++ [currentPtr])

/-- `traverse_delegators_for_validator_reader`. -/
def traverseDelegatorsForValidatorReader (valId : ValId) (startDelegator : Address)
    (limit : ℕ) : Page Address Address :=
  let ptr :=
    if startDelegator = 0 then (s.listNodes valId sentinelAddress).anext else startDelegator
  if ptr = 0 then ⟨true, 0, []⟩
  else
    let firstNode := s.listNodes valId ptr
    if firstNode.aprev = 0 then ⟨true, ptr, []⟩
    else
      let (currentPtr, results) := delegatorLoopReader s valId limit ptr firstNode []
      ⟨decide (currentPtr = 0), currentPtr, results⟩

/-- The copy of the validator loop takes the same steps. -/
theorem validatorLoopReader_eq (delegator : Address) (room : ℕ) (ptr : ValId) (node : ListNode)
    (results : List ValId) :
    validatorLoopReader s delegator room ptr node results =
      traverseLoop validatorLinks (fun valId => s.listNodes valId delegator) 0 room ptr node
        results := by
  induction room generalizing ptr node results with
  | zero => rfl
  | succ room ih =>
    rw [validatorLoopReader, traverseLoop]
    split
    · rfl
    · exact ih _ _ _

/-- So does the copy of the delegator loop. -/
theorem delegatorLoopReader_eq (valId : ValId) (room : ℕ) (ptr : Address) (node : ListNode)
    (results : List Address) :
    delegatorLoopReader s valId room ptr node results =
      traverseLoop delegatorLinks (fun addr => s.listNodes valId addr) 0 room ptr node
        results := by
  induction room generalizing ptr node results with
  | zero => rfl
  | succ room ih =>
    rw [delegatorLoopReader, traverseLoop]
    split
    · rfl
    · exact ih _ _ _

/-- The two traversals of a delegator's validators give the same page. -/
theorem traverseValidatorsForDelegatorReader_eq (delegator : Address) (startValId : ValId)
    (limit : ℕ) : traverseValidatorsForDelegatorReader s delegator startValId limit =
      traverseValidatorsForDelegator s delegator startValId limit := by
  simp only [traverseValidatorsForDelegatorReader, traverseValidatorsForDelegator, traverse,
    validatorLoopReader_eq]
  rfl

/-- The two traversals of a validator's delegators give the same page. -/
theorem traverseDelegatorsForValidatorReader_eq (valId : ValId) (startDelegator : Address)
    (limit : ℕ) : traverseDelegatorsForValidatorReader s valId startDelegator limit =
      traverseDelegatorsForValidator s valId startDelegator limit := by
  simp only [traverseDelegatorsForValidatorReader, traverseDelegatorsForValidator, traverse,
    delegatorLoopReader_eq]
  rfl

end Traversals

section Handlers

variable (codec : Codec) (s : Storage) (input : Bytes) (gasLimit : ℕ)

/-- `handle_get_epoch_reader`. -/
def handleGetEpochReader : ViewAnswer := do
  failIf (gasLimit < getEpochGas) .outOfGas
  return (getEpochGas, codec.encodeEpoch s.epoch s.inBoundary)

/-- `handle_get_proposer_val_id_reader`. -/
def handleGetProposerValIdReader : ViewAnswer := do
  failIf (gasLimit < getProposerValIdGas) .outOfGas
  return (getProposerValIdGas, codec.encodeU64 s.proposerValId)

/-- `handle_get_validator_reader`. -/
def handleGetValidatorReader : ViewAnswer := do
  failIf (gasLimit < getValidatorGas) .outOfGas
  let valId ← codec.call .getValidator input
  return (getValidatorGas, codec.encodeValidator (s.validators valId) (s.consensusView valId)
    (s.snapshotView valId))

/-- `handle_get_delegator_reader`. -/
def handleGetDelegatorReader : ViewAnswer := do
  failIf (gasLimit < gas.getDelegator) .outOfGas
  let args ← codec.call .getDelegator input
  return (gas.getDelegator, codec.encodeDelegator (s.delegators args.1 args.2))

/-- `handle_get_withdrawal_request_reader`. -/
def handleGetWithdrawalRequestReader : ViewAnswer := do
  failIf (gasLimit < getWithdrawalRequestGas) .outOfGas
  let args ← codec.call .getWithdrawalRequest input
  return (getWithdrawalRequestGas,
    codec.encodeWithdrawalRequest (s.withdrawals args.1 args.2.1 args.2.2))

/-- `handle_get_validator_set_reader`. -/
def handleGetValidatorSetReader (array : Valset) : ViewAnswer := do
  failIf (gasLimit < getterGas) .outOfGas
  let startIndex ← codec.call .getConsensusValidatorSet input
  let remaining := array.length - startIndex.val
  let count := min remaining maxValidatorsPerCall
  let valIds := (List.range count).map fun i => array.word (u32Add (u32Add 1 startIndex.val) i)
  let nextIndex := u32Add startIndex.val count
  return (getterGas,
    codec.encodeValidatorSet ⟨decide (array.length ≤ nextIndex), nextIndex, valIds⟩)

/-- `handle_get_delegations_reader`. -/
def handleGetDelegationsReader : ViewAnswer := do
  failIf (gasLimit < getterGas) .outOfGas
  let args ← codec.call .getDelegations input
  return (getterGas, codec.encodeDelegations
    (traverseValidatorsForDelegatorReader s args.1 args.2 linkedListPagination))

/-- `handle_get_delegators_reader`. -/
def handleGetDelegatorsReader : ViewAnswer := do
  failIf (gasLimit < getterGas) .outOfGas
  let args ← codec.call .getDelegators input
  return (getterGas, codec.encodeDelegators
    (traverseDelegatorsForValidatorReader s args.1 args.2 linkedListPagination))

/-- The dispatch of `run_staking_with_reader`. -/
def readerHandler (callValue : ℕ) : Method → Option ViewAnswer
  | .getEpoch => some (viewNotPayable callValue (handleGetEpochReader codec s gasLimit))
  | .getProposerValId =>
    some (viewNotPayable callValue (handleGetProposerValIdReader codec s gasLimit))
  | .getValidator =>
    some (viewNotPayable callValue (handleGetValidatorReader codec s input gasLimit))
  | .getDelegator =>
    some (viewNotPayable callValue (handleGetDelegatorReader codec s input gasLimit))
  | .getWithdrawalRequest =>
    some (viewNotPayable callValue (handleGetWithdrawalRequestReader codec s input gasLimit))
  | .getConsensusValidatorSet => some (viewNotPayable callValue
      (handleGetValidatorSetReader codec input gasLimit s.consensus))
  | .getSnapshotValidatorSet => some (viewNotPayable callValue
      (handleGetValidatorSetReader codec input gasLimit s.snapshot))
  | .getExecutionValidatorSet => some (viewNotPayable callValue
      (handleGetValidatorSetReader codec input gasLimit s.execution))
  | .getDelegations =>
    some (viewNotPayable callValue (handleGetDelegationsReader codec s input gasLimit))
  | .getDelegators =>
    some (viewNotPayable callValue (handleGetDelegatorsReader codec s input gasLimit))
  | _ => none

/-- `run_staking_with_reader`. -/
def runStakingWithReader (callValue : ℕ) : InterpreterResult :=
  match (methodOf input).bind (readerHandler codec s input gasLimit callValue) with
  | none => fallbackResult gasLimit
  | some answer => convertResult codec gasLimit answer

end Handlers

section Copies

variable (codec : Codec) (s : Storage) (input : Bytes) (gasLimit : ℕ)

/-- The gas check that a decoded handler repeats has passed already. -/
theorem onInput_check {A B : Type} {gasLimit cost : ℕ} {call : Except PrecompileError A}
    {handler : A → Except PrecompileError B} {rest : A → Except PrecompileError B}
    (h : ∀ args, ¬gasLimit < cost → handler args = rest args) :
    onInput gasLimit cost call handler = onInput gasLimit cost call rest := by
  unfold onInput
  by_cases hgas : gasLimit < cost
  · rw [failIf_of hgas]
    rfl
  · rw [failIf_of_not hgas]
    apply bind_congr
    intro _
    apply bind_congr
    intro args
    exact h args hgas

/-- The reader answers for a validator set as the precompile does. -/
theorem handleGetValidatorSetReader_eq (array : Valset) :
    handleGetValidatorSetReader codec input gasLimit array =
      handleGetValidatorSetImpl codec input gasLimit array := by
  symm
  apply onInput_check
  intro startIndex hgas
  rw [handleGetValidatorSet, failIf_of_not hgas]
  rfl

/-- The reader answers `getDelegations` as the precompile does. -/
theorem handleGetDelegationsReader_eq :
    handleGetDelegationsReader codec s input gasLimit =
      handleGetDelegationsInput codec s input gasLimit := by
  symm
  apply onInput_check
  intro args hgas
  rw [handleGetDelegations, failIf_of_not hgas, traverseValidatorsForDelegatorReader_eq]
  rfl

/-- The reader answers `getDelegators` as the precompile does. -/
theorem handleGetDelegatorsReader_eq :
    handleGetDelegatorsReader codec s input gasLimit =
      handleGetDelegatorsInput codec s input gasLimit := by
  symm
  apply onInput_check
  intro args hgas
  rw [handleGetDelegators, failIf_of_not hgas, traverseDelegatorsForValidatorReader_eq]
  rfl

/-- Every view answers through the reader as through the context. -/
theorem readerHandler_eq (msg : Message) (m : Method) :
    readerHandler codec s input msg.gasLimit msg.callValue m =
      viewHandler codec s msg input m := by
  cases m with
  | getEpoch | getProposerValId | getValidator | getDelegator | getWithdrawalRequest
  | addValidator | delegate | undelegate | withdraw | compound | claimRewards
  | changeCommission | externalReward | syscallOnEpochChange | syscallReward
  | syscallSnapshot => rfl
  | getConsensusValidatorSet | getSnapshotValidatorSet | getExecutionValidatorSet =>
    rw [readerHandler, viewHandler, handleGetValidatorSetReader_eq]
  | getDelegations => rw [readerHandler, viewHandler, handleGetDelegationsReader_eq]
  | getDelegators => rw [readerHandler, viewHandler, handleGetDelegatorsReader_eq]

end Copies

end SuwappuRevm.Staking
