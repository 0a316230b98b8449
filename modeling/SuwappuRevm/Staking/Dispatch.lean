import SuwappuRevm.Foundations.GasMeter
import SuwappuRevm.Staking.Getters

/-!
# Dispatch of raw calls

`run_staking_precompile` on raw calldata: the rejection of call schemes, the routing by selector,
gas and decoding before the handlers, and the conversion of their answers into results. The ABI
codec and the texts of errors are not part of the repository and are parameters. A call that does
not return is reverted with all it wrote.
-/

namespace SuwappuRevm.Staking

open Foundations

/-- The methods of the interface. -/
inductive Method
  | getEpoch
  | getProposerValId
  | getValidator
  | getDelegator
  | getWithdrawalRequest
  | getConsensusValidatorSet
  | getSnapshotValidatorSet
  | getExecutionValidatorSet
  | getDelegations
  | getDelegators
  | addValidator
  | delegate
  | undelegate
  | withdraw
  | compound
  | claimRewards
  | changeCommission
  | externalReward
  | syscallOnEpochChange
  | syscallReward
  | syscallSnapshot
  deriving DecidableEq, Repr

/-- The selector of a method, from the hash of its signature. -/
def Method.selector : Method → ℕ
  | .getEpoch => 0x757991a8
  | .getProposerValId => 0xfbacb0be
  | .getValidator => 0x2b6d639a
  | .getDelegator => 0x573c1ce0
  | .getWithdrawalRequest => 0x56fa2045
  | .getConsensusValidatorSet => 0xfb29b729
  | .getSnapshotValidatorSet => 0xde66a368
  | .getExecutionValidatorSet => 0x7cb074df
  | .getDelegations => 0x4fd66050
  | .getDelegators => 0xa0843a26
  | .addValidator => 0xf145204c
  | .delegate => 0x84994fec
  | .undelegate => 0x5cf41514
  | .withdraw => 0xaed2ee73
  | .compound => 0xb34fea67
  | .claimRewards => 0xa76e2ca5
  | .changeCommission => 0x9bdcc3c8
  | .externalReward => 0xe4b3303b
  | .syscallOnEpochChange => 0x1d4e9f02
  | .syscallReward => 0x791bdcf3
  | .syscallSnapshot => 0x157eeb21

/-- All methods. -/
def Method.all : List Method :=
  [.getEpoch, .getProposerValId, .getValidator, .getDelegator, .getWithdrawalRequest,
    .getConsensusValidatorSet, .getSnapshotValidatorSet, .getExecutionValidatorSet,
    .getDelegations, .getDelegators, .addValidator, .delegate, .undelegate, .withdraw, .compound,
    .claimRewards, .changeCommission, .externalReward, .syscallOnEpochChange, .syscallReward,
    .syscallSnapshot]

/-- The method that calldata selects, if it is long enough and its selector is known. -/
def methodOf (input : Bytes) : Option Method :=
  if input.length < 4 then none
  else Method.all.find? fun m => m.selector = beNat (input.take 4)

/-- `is_write_selector`: user calls, syscalls and the mutating getter. -/
def Method.isWrite : Method → Bool
  | .getEpoch | .getProposerValId | .getValidator | .getWithdrawalRequest
  | .getConsensusValidatorSet | .getSnapshotValidatorSet | .getExecutionValidatorSet
  | .getDelegations | .getDelegators => false
  | _ => true

/-- `GET_EPOCH` of the `gas` module. -/
def getEpochGas : ℕ := 200

/-- `GET_PROPOSER_VAL_ID` of the `gas` module. -/
def getProposerValIdGas : ℕ := 100

/-- `GET_VALIDATOR` of the `gas` module. -/
def getValidatorGas : ℕ := 97200

/-- `GET_WITHDRAWAL_REQUEST` of the `gas` module. -/
def getWithdrawalRequestGas : ℕ := 24300

/-- `FALLBACK` of the `gas` module, for calldata that selects no method. -/
def fallbackGas : ℕ := 40000

/-- The tabulated cost of a method. -/
def Method.cost : Method → ℕ
  | .getEpoch => getEpochGas
  | .getProposerValId => getProposerValIdGas
  | .getValidator => getValidatorGas
  | .getDelegator => gas.getDelegator
  | .getWithdrawalRequest => getWithdrawalRequestGas
  | .getConsensusValidatorSet | .getSnapshotValidatorSet | .getExecutionValidatorSet
  | .getDelegations | .getDelegators => getterGas
  | .addValidator => gas.addValidator
  | .delegate => gas.delegate
  | .undelegate => gas.undelegate
  | .withdraw => gas.withdraw
  | .compound => gas.compound
  | .claimRewards => gas.claimRewards
  | .changeCommission => gas.changeCommission
  | .externalReward => gas.externalReward
  | .syscallOnEpochChange => gas.syscallOnEpochChange
  | .syscallReward => gas.syscallReward
  | .syscallSnapshot => gas.syscallSnapshot

/-- The decoded arguments of a method, as far as its handler reads them. -/
def Method.Args : Method → Type
  | .getEpoch | .getProposerValId | .syscallSnapshot => Unit
  | .getValidator | .delegate | .compound | .claimRewards | .externalReward => ValId
  | .getDelegator | .getDelegators => ValId × Address
  | .getWithdrawalRequest => ValId × Address × WithdrawId
  | .getConsensusValidatorSet | .getSnapshotValidatorSet | .getExecutionValidatorSet =>
    Fin (2 ^ 32)
  | .getDelegations => Address × ValId
  | .addValidator => Bytes
  | .undelegate => ValId × ℕ × WithdrawId
  | .withdraw => ValId × WithdrawId
  | .changeCommission => ValId × ℕ
  | .syscallReward => Address
  | .syscallOnEpochChange => Fin (2 ^ 64)

/-- The ABI codec, by the types it decodes and encodes, the calldata it makes of the system calls,
and the texts of errors. -/
structure Codec where
  decode : (m : Method) → Bytes → Except String m.Args
  encodeSyscallReward : Address → Bytes
  encodeSyscallSnapshot : Bytes
  encodeSyscallOnEpochChange : Fin (2 ^ 64) → Bytes
  encodeBool : Bool → Bytes
  encodeU64 : ValId → Bytes
  encodeEpoch : ℕ → Bool → Bytes
  encodeValidator : Validator → ConsensusView → ConsensusView → Bytes
  encodeDelegator : Delegator → Bytes
  encodeWithdrawalRequest : WithdrawalRequest → Bytes
  encodeValidatorSet : Page ℕ ValId → Bytes
  encodeDelegations : Page ValId ValId → Bytes
  encodeDelegators : Page Address Address → Bytes
  errorText : PrecompileError → Bytes

/-- Decode the arguments behind the selector. -/
def Codec.call (codec : Codec) (m : Method) (input : Bytes) : Except PrecompileError m.Args :=
  match codec.decode m (input.drop 4) with
  | .ok args => .ok args
  | .error e => .error (.other ("Invalid input: " ++ e))

/-- The encoded output of a write method; syscalls have none. -/
def Codec.output (codec : Codec) : Output → Bytes
  | .success => codec.encodeBool true
  | .validatorId id => codec.encodeU64 id
  | .delegator del => codec.encodeDelegator del
  | .none => []

/-- `CallScheme`. -/
inductive CallScheme
  | call
  | callCode
  | delegateCall
  | staticCall
  deriving DecidableEq, Repr

/-- `CallInputs`: the message with where and how it is sent and its calldata. -/
structure CallInputs extends Message where
  bytecodeAddress : Address
  scheme : CallScheme
  isStatic : Bool
  input : Bytes

/-- `InterpreterResult`. -/
structure InterpreterResult where
  result : InstructionResult
  gas : Gas
  output : Bytes
  deriving DecidableEq, Repr

/-- A handler on raw calldata: it checks its gas, decodes, and only then looks at the state. -/
def onInput {A B : Type} (gasLimit cost : ℕ) (call : Except PrecompileError A)
    (handler : A → Except PrecompileError B) : Except PrecompileError B := do
  failIf (gasLimit < cost) .outOfGas
  let args ← call
  handler args

/-- A syscall on raw calldata also checks its caller before it decodes. -/
def onSyscallInput {A B : Type} (msg : Message) (cost : ℕ) (call : Except PrecompileError A)
    (handler : A → Except PrecompileError B) : Except PrecompileError B := do
  failIf (msg.gasLimit < cost) .outOfGas
  failIf (msg.caller ≠ systemAddress) unauthorized
  let args ← call
  handler args

/-- The word appended to the calldata of `syscallReward`, when it is long enough. -/
def extendedReward (input : Bytes) : Option ℕ :=
  if 68 ≤ input.length then some (beNat ((input.drop 36).take 32)) else none

/-- The dispatch of `run_staking_write` on raw calldata; views are not among its methods. -/
def writeHandler (codec : Codec) (s : Storage) (msg : Message) (input : Bytes) :
    Method → Option (Except PrecompileError Answer)
  | .delegate => some (onInput msg.gasLimit gas.delegate (codec.call .delegate input)
      fun validatorId => handleDelegate s msg validatorId)
  | .addValidator => some (onInput msg.gasLimit gas.addValidator (codec.call .addValidator input)
      fun payload => handleAddValidator s msg payload)
  | .externalReward => some (onInput msg.gasLimit gas.externalReward
      (codec.call .externalReward input) fun validatorId => handleExternalReward s msg validatorId)
  | .changeCommission => some (notPayable msg (onInput msg.gasLimit gas.changeCommission
      (codec.call .changeCommission input) fun args =>
        handleChangeCommission s msg args.1 args.2))
  | .claimRewards => some (notPayable msg (onInput msg.gasLimit gas.claimRewards
      (codec.call .claimRewards input) fun validatorId => handleClaimRewards s msg validatorId))
  | .undelegate => some (notPayable msg (onInput msg.gasLimit gas.undelegate
      (codec.call .undelegate input) fun args =>
        handleUndelegate s msg args.1 args.2.1 args.2.2))
  | .withdraw => some (notPayable msg (onInput msg.gasLimit gas.withdraw
      (codec.call .withdraw input) fun args => handleWithdraw s msg args.1 args.2))
  | .compound => some (notPayable msg (onInput msg.gasLimit gas.compound
      (codec.call .compound input) fun validatorId => handleCompound s msg validatorId))
  | .syscallReward => some (onSyscallInput msg gas.syscallReward (codec.call .syscallReward input)
      fun blockAuthor =>
        handleSyscallReward s msg blockAuthor ((extendedReward input).getD msg.callValue))
  | .syscallSnapshot => some (notPayable msg (handleSyscallSnapshot s msg))
  | .syscallOnEpochChange => some (notPayable msg (onSyscallInput msg gas.syscallOnEpochChange
      (codec.call .syscallOnEpochChange input) fun epoch =>
        handleSyscallOnEpochChange s msg epoch))
  | .getDelegator => some (notPayable msg (onInput msg.gasLimit gas.getDelegator
      (codec.call .getDelegator input) fun args => handleGetDelegatorWrite s msg args.1 args.2))
  | _ => none

/-- The encoded answer of a view: the gas it uses and its output. -/
abbrev ViewAnswer := Except PrecompileError (ℕ × Bytes)

/-- `handle_get_epoch`. -/
def handleGetEpoch (codec : Codec) (s : Storage) (gasLimit : ℕ) : ViewAnswer := do
  failIf (gasLimit < getEpochGas) .outOfGas
  return (getEpochGas, codec.encodeEpoch s.epoch s.inBoundary)

/-- `handle_get_proposer_val_id`. -/
def handleGetProposerValId (codec : Codec) (s : Storage) (gasLimit : ℕ) : ViewAnswer := do
  failIf (gasLimit < getProposerValIdGas) .outOfGas
  return (getProposerValIdGas, codec.encodeU64 s.proposerValId)

/-- `handle_get_validator`. -/
def handleGetValidator (codec : Codec) (s : Storage) (input : Bytes) (gasLimit : ℕ) :
    ViewAnswer := do
  failIf (gasLimit < getValidatorGas) .outOfGas
  let valId ← codec.call .getValidator input
  return (getValidatorGas, codec.encodeValidator (s.validators valId) (s.consensusView valId)
    (s.snapshotView valId))

/-- `handle_get_delegator`, the plain read that the dispatch routes around. -/
def handleGetDelegator (codec : Codec) (s : Storage) (input : Bytes) (gasLimit : ℕ) :
    ViewAnswer := do
  failIf (gasLimit < gas.getDelegator) .outOfGas
  let args ← codec.call .getDelegator input
  return (gas.getDelegator, codec.encodeDelegator (s.delegators args.1 args.2))

/-- `handle_get_withdrawal_request`. -/
def handleGetWithdrawalRequest (codec : Codec) (s : Storage) (input : Bytes) (gasLimit : ℕ) :
    ViewAnswer := do
  failIf (gasLimit < getWithdrawalRequestGas) .outOfGas
  let args ← codec.call .getWithdrawalRequest input
  return (getWithdrawalRequestGas,
    codec.encodeWithdrawalRequest (s.withdrawals args.1 args.2.1 args.2.2))

/-- `handle_get_validator_set_impl`; every set is decoded and priced as the consensus set. -/
def handleGetValidatorSetImpl (codec : Codec) (input : Bytes) (gasLimit : ℕ) (array : Valset) :
    ViewAnswer := onInput gasLimit getterGas (codec.call .getConsensusValidatorSet input)
  fun startIndex => do
    let (gasCost, page) ← handleGetValidatorSet array gasLimit startIndex.val
    return (gasCost, codec.encodeValidatorSet page)

/-- `handle_get_delegations` on raw calldata. -/
def handleGetDelegationsInput (codec : Codec) (s : Storage) (input : Bytes) (gasLimit : ℕ) :
    ViewAnswer := onInput gasLimit getterGas (codec.call .getDelegations input)
  fun args => do
    let (gasCost, page) ← handleGetDelegations s gasLimit args.1 args.2
    return (gasCost, codec.encodeDelegations page)

/-- `handle_get_delegators` on raw calldata. -/
def handleGetDelegatorsInput (codec : Codec) (s : Storage) (input : Bytes) (gasLimit : ℕ) :
    ViewAnswer := onInput gasLimit getterGas (codec.call .getDelegators input)
  fun args => do
    let (gasCost, page) ← handleGetDelegators s gasLimit args.1 args.2
    return (gasCost, codec.encodeDelegators page)

/-- `function_not_payable` before a view. -/
def viewNotPayable (callValue : ℕ) (answer : ViewAnswer) : ViewAnswer := do
  failIf (callValue ≠ 0) (.other "value non-zero")
  answer

/-- The read dispatch of `run_staking_precompile`. -/
def viewHandler (codec : Codec) (s : Storage) (msg : Message) (input : Bytes) :
    Method → Option ViewAnswer
  | .getEpoch => some (viewNotPayable msg.callValue (handleGetEpoch codec s msg.gasLimit))
  | .getProposerValId =>
    some (viewNotPayable msg.callValue (handleGetProposerValId codec s msg.gasLimit))
  | .getValidator =>
    some (viewNotPayable msg.callValue (handleGetValidator codec s input msg.gasLimit))
  | .getDelegator =>
    some (viewNotPayable msg.callValue (handleGetDelegator codec s input msg.gasLimit))
  | .getWithdrawalRequest =>
    some (viewNotPayable msg.callValue (handleGetWithdrawalRequest codec s input msg.gasLimit))
  | .getConsensusValidatorSet => some (viewNotPayable msg.callValue
      (handleGetValidatorSetImpl codec input msg.gasLimit s.consensus))
  | .getSnapshotValidatorSet => some (viewNotPayable msg.callValue
      (handleGetValidatorSetImpl codec input msg.gasLimit s.snapshot))
  | .getExecutionValidatorSet => some (viewNotPayable msg.callValue
      (handleGetValidatorSetImpl codec input msg.gasLimit s.execution))
  | .getDelegations =>
    some (viewNotPayable msg.callValue (handleGetDelegationsInput codec s input msg.gasLimit))
  | .getDelegators =>
    some (viewNotPayable msg.callValue (handleGetDelegatorsInput codec s input msg.gasLimit))
  | _ => none

/-- A meter with all its gas consumed. -/
def consumedGas (gasLimit : ℕ) : Gas := ⟨gasLimit, 0, {}⟩

/-- `fallback_result` and its copy `reader_fallback_result`. -/
def fallbackResult (gasLimit : ℕ) : InterpreterResult :=
  if gasLimit < fallbackGas then ⟨.precompileOOG, .new gasLimit, []⟩
  else ⟨.revert, consumedGas gasLimit, "method not supported".toUTF8.toList⟩

/-- The result of an answer: the gas used is charged, an error consumes all gas. -/
def convertResult (codec : Codec) (gasLimit : ℕ) : ViewAnswer → InterpreterResult
  | .ok (gasUsed, output) =>
    match (Gas.new gasLimit).recordCost gasUsed with
    | some gas => ⟨.return, gas, output⟩
    | none => ⟨.precompileOOG, .new gasLimit, output⟩
  | .error e => ⟨if e = .outOfGas then .precompileOOG else .revert, consumedGas gasLimit,
      codec.errorText e⟩

/-- The gas used and the encoded output of a write method. -/
def Codec.answer (codec : Codec) : Except PrecompileError Answer → ViewAnswer
  | .ok answer => .ok (answer.gasUsed, codec.output answer.output)
  | .error e => .error e

/-- The state after a call: what the handler wrote if the call returns, else what was before. -/
def settleState (s : Storage) (result : InstructionResult) :
    Except PrecompileError Answer → Storage
  | .ok answer => if result = .return then answer.storage else s
  | .error _ => s

/-- `run_staking_write` on raw calldata. -/
def runStakingWriteInput (codec : Codec) (s : Storage) (msg : Message) (input : Bytes) :
    InterpreterResult × Storage :=
  match (methodOf input).bind (writeHandler codec s msg input) with
  | none => (fallbackResult msg.gasLimit, s)
  | some answer =>
    let result := convertResult codec msg.gasLimit (codec.answer answer)
    (result, settleState s result.result answer)

/-- `run_staking_precompile`, in the state in which the call's value has been paid. -/
def runStakingPrecompile (codec : Codec) (s : Storage) (inputs : CallInputs) :
    Option (InterpreterResult × Storage) :=
  if inputs.bytecodeAddress ≠ stakingAddress then none
  else if inputs.scheme ≠ .call ∨ inputs.isStatic then
    some (⟨.revert, .new inputs.gasLimit, []⟩, s)
  else match methodOf inputs.input with
    | none => some (fallbackResult inputs.gasLimit, s)
    | some m =>
      if m.isWrite then some (runStakingWriteInput codec s inputs.toMessage inputs.input)
      else match viewHandler codec s inputs.toMessage inputs.input m with
        | none => some (fallbackResult inputs.gasLimit, s)
        | some answer => some (convertResult codec inputs.gasLimit answer, s)

section Sample

/-- A word of calldata. -/
def abiWord (input : Bytes) (i : ℕ) : Except String ℕ :=
  if 32 * (i + 1) ≤ input.length then .ok (beNat ((input.drop (32 * i)).take 32))
  else .error "buffer overrun while deserializing"

/-- Words in a row. -/
def abiWords (words : List ℕ) : Bytes := words.flatMap (beBytes 32)

/-- A byte string, after its length and padded to words. -/
def abiBytes (bytes : Bytes) : Bytes :=
  beBytes 32 bytes.length ++ bytes ++ List.replicate ((32 - bytes.length % 32) % 32) 0

/-- The byte string at the offset that a word gives. -/
def abiBytesAt (input : Bytes) (i : ℕ) : Except String Bytes := do
  let offset ← abiWord input i
  let len ← abiWord (input.drop offset) 0
  if (input.drop (offset + 32)).length < len then .error "buffer overrun while deserializing"
  else .ok ((input.drop (offset + 32)).take len)

/-- The codec of the interface. -/
def wordCodec : Codec where
  decode
    | .getEpoch, _ | .getProposerValId, _ | .syscallSnapshot, _ => .ok ()
    | .getValidator, input | .delegate, input | .compound, input | .claimRewards, input
    | .externalReward, input => do return Fin.ofNat (2 ^ 64) (← abiWord input 0)
    | .getDelegator, input | .getDelegators, input => do
      return (Fin.ofNat (2 ^ 64) (← abiWord input 0), Fin.ofNat (2 ^ 160) (← abiWord input 1))
    | .getWithdrawalRequest, input => do
      return (Fin.ofNat (2 ^ 64) (← abiWord input 0), Fin.ofNat (2 ^ 160) (← abiWord input 1),
        Fin.ofNat 256 (← abiWord input 2))
    | .getConsensusValidatorSet, input | .getSnapshotValidatorSet, input
    | .getExecutionValidatorSet, input => do return Fin.ofNat (2 ^ 32) (← abiWord input 0)
    | .getDelegations, input => do
      return (Fin.ofNat (2 ^ 160) (← abiWord input 0), Fin.ofNat (2 ^ 64) (← abiWord input 1))
    | .addValidator, input => abiBytesAt input 0
    | .undelegate, input => do
      return (Fin.ofNat (2 ^ 64) (← abiWord input 0), ← abiWord input 1,
        Fin.ofNat 256 (← abiWord input 2))
    | .withdraw, input => do
      return (Fin.ofNat (2 ^ 64) (← abiWord input 0), Fin.ofNat 256 (← abiWord input 1))
    | .changeCommission, input => do
      return (Fin.ofNat (2 ^ 64) (← abiWord input 0), ← abiWord input 1)
    | .syscallReward, input => do return Fin.ofNat (2 ^ 160) (← abiWord input 0)
    | .syscallOnEpochChange, input => do return Fin.ofNat (2 ^ 64) (← abiWord input 0)
  encodeSyscallReward blockAuthor :=
    beBytes 4 Method.syscallReward.selector ++ abiWords [blockAuthor.val]
  encodeSyscallSnapshot := beBytes 4 Method.syscallSnapshot.selector
  encodeSyscallOnEpochChange epoch :=
    beBytes 4 Method.syscallOnEpochChange.selector ++ abiWords [epoch.val]
  encodeBool b := abiWords [b.toNat]
  encodeU64 id := abiWords [id.val]
  encodeEpoch epoch inBoundary := abiWords [epoch, inBoundary.toNat]
  encodeValidator val consensus snapshot := abiWords [val.authAddress.val, val.flags.toNat,
    val.stake, val.accumulatedRewardPerToken, val.commission, val.unclaimedRewards,
    consensus.stake, consensus.commission, snapshot.stake, snapshot.commission,
    384, 384 + (abiBytes val.secpPubkey).length] ++ abiBytes val.secpPubkey ++
      abiBytes val.blsPubkey
  encodeDelegator del := abiWords [del.stake, del.accumulatedRewardPerToken, del.rewards,
    del.deltaStake, del.nextDeltaStake, del.deltaEpoch, del.nextDeltaEpoch]
  encodeWithdrawalRequest wr := abiWords [wr.amount, wr.accumulator, wr.epoch]
  encodeValidatorSet page := abiWords ([page.isDone.toNat, page.next, 96, page.entries.length] ++
    page.entries.map Fin.val)
  encodeDelegations page := abiWords ([page.isDone.toNat, page.next.val, 96,
    page.entries.length] ++ page.entries.map Fin.val)
  encodeDelegators page := abiWords ([page.isDone.toNat, page.next.val, 96,
    page.entries.length] ++ page.entries.map Fin.val)
  errorText
    | .outOfGas => "out of gas".toUTF8.toList
    | .other message => message.toUTF8.toList

/-- A call of `getEpoch` with some gas. -/
def epochCall (scheme : CallScheme) (isStatic : Bool) : CallInputs where
  toMessage := ⟨7, 100000, 0, 0, opener_ne_staking⟩
  bytecodeAddress := stakingAddress
  scheme := scheme
  isStatic := isStatic
  input := beBytes 4 0x757991a8

end Sample

end SuwappuRevm.Staking
