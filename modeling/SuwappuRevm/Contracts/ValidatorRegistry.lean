import Mathlib.Data.Finset.Card
import Mathlib.Data.Fintype.Basic
import SuwappuRevm.Foundations.Machine
import SuwappuRevm.Foundations.Bytes
import SuwappuRevm.Foundations.CheckedArithmetic

/-!
# The validator registry contract

`SuwappuDagValidatorRegistry` keeps, for each finalized epoch, the stake of every validator key
hash. An epoch's set is proposed, approved by `threshold` of the fixed signers, held for
`timelockDelay` seconds and then executed by anyone. Solidity's checked arithmetic is explicit:
an overflow is the error `panic`, and every error rolls the call back.

Events are not modelled: nothing in the contract reads them. `keccak256` is a parameter.
-/

namespace SuwappuRevm.Contracts

open Foundations

/-- The reverts of the registry with the data they carry. -/
inductive RegistryError
  | notSigner
  | duplicateSigner
  | zeroSigner
  | invalidThreshold
  | lengthMismatch
  | epochOutOfSequence (expected got : ℕ)
  | proposalNotFound
  | proposalAlreadyExists
  | alreadyApproved
  | notApproved
  | alreadyExecuted
  | timelockNotElapsed (readyAt nowTs : ℕ)
  | quorumNotReached
  | panic
  deriving Repr, DecidableEq

/-- What the constructor fixes: the immutables and the signer set. -/
structure Deployment where
  networkId : ℕ
  threshold : ℕ
  timelockDelay : ℕ
  signers : List Address
  isSigner : Address → Bool

/-- A proposal; `readyAt` is `0` until `threshold` approvals are reached. -/
structure Proposal where
  epoch : ℕ
  pkHashes : List Word
  stakes : List ℕ
  approvalCount : ℕ
  readyAt : ℕ
  executed : Bool
  approved : Address → Bool

/-- The storage of a proposal nobody has written to. -/
def Proposal.blank : Proposal := ⟨0, [], [], 0, 0, false, fun _ => false⟩

/-- The mutable storage of the registry. -/
structure Registry where
  genesisSet : Bool
  currentEpoch : ℕ
  stakeByEpoch : ℕ → Word → ℕ
  totalStakeByEpoch : ℕ → ℕ
  proposals : Word → Proposal
  proposalExists : Word → Bool

/-- Storage right after deployment. -/
def Registry.initial : Registry :=
  ⟨false, 0, fun _ _ => 0, fun _ => 0, fun _ => Proposal.blank, fun _ => false⟩

/-- The constructor's loop: push each signer, refusing the zero address and repetitions. -/
def addSigners : List Address → Deployment → Except RegistryError Deployment
  | [], d => .ok d
  | s :: rest, d => do
    failIf (s = 0) .zeroSigner
    failIf (d.isSigner s) .duplicateSigner
    addSigners rest
      { d with signers := d.signers ++ [s], isSigner := Function.update d.isSigner s true }

/-- The constructor. -/
def construct (signers_ : List Address) (threshold_ networkId_ timelockDelay_ : ℕ) :
    Except RegistryError Deployment := do
  failIf (threshold_ = 0 ∨ threshold_ > signers_.length) .invalidThreshold
  addSigners signers_ ⟨networkId_, threshold_, timelockDelay_, [], fun _ => false⟩

/-- The epoch a proposal must name: genesis first, then the successor of the current one. -/
def Registry.expectedEpoch (r : Registry) : Except RegistryError ℕ :=
  if r.genesisSet then checkedAdd .panic r.currentEpoch 1 else .ok 0

/-- `_approve`: record the sender's approval and start the timelock at the threshold. -/
def approveInternal (d : Deployment) (blockTimestamp : ℕ) (msgSender : Address) (p : Proposal) :
    Except RegistryError Proposal := do
  let approvalCount ← checkedAdd .panic p.approvalCount 1
  let p := { p with approved := Function.update p.approved msgSender true, approvalCount }
  if approvalCount = d.threshold ∧ p.readyAt = 0 then
    let readyAt ← checkedAdd .panic blockTimestamp d.timelockDelay
    return { p with readyAt }
  else
    return p

/-- `abi.encode(epoch, pkHashes, stakes)`: three head words, then both arrays. -/
def abiEncodeProposal (epoch : ℕ) (pkHashes : List Word) (stakes : List ℕ) : Bytes :=
  beBytes 32 epoch ++ beBytes 32 96 ++ beBytes 32 (128 + 32 * pkHashes.length) ++
    beBytes 32 pkHashes.length ++ pkHashes.flatMap Word.toBytes ++
    beBytes 32 stakes.length ++ stakes.flatMap (beBytes 32)

section Calls

variable (keccak256 : Bytes → Word)

/-- `proposeEpochTransition`: returns the identifier and the new storage. -/
def proposeEpochTransition (d : Deployment) (r : Registry) (blockTimestamp : ℕ)
    (msgSender : Address) (epoch : ℕ) (pkHashes : List Word) (stakes : List ℕ) :
    Except RegistryError (Word × Registry) := do
  failIf (¬d.isSigner msgSender) .notSigner
  let expected ← r.expectedEpoch
  failIf (epoch ≠ expected) (.epochOutOfSequence expected epoch)
  failIf (pkHashes.length ≠ stakes.length) .lengthMismatch
  let proposalId := keccak256 (abiEncodeProposal epoch pkHashes stakes)
  failIf (r.proposalExists proposalId) .proposalAlreadyExists
  let p := { r.proposals proposalId with epoch, pkHashes, stakes }
  let p ← approveInternal d blockTimestamp msgSender p
  return (proposalId,
    { r with proposals := Function.update r.proposals proposalId p
             proposalExists := Function.update r.proposalExists proposalId true })

/-- `approveEpochTransition`. -/
def approveEpochTransition (d : Deployment) (r : Registry) (blockTimestamp : ℕ)
    (msgSender : Address) (proposalId : Word) : Except RegistryError Registry := do
  failIf (¬d.isSigner msgSender) .notSigner
  failIf (¬r.proposalExists proposalId) .proposalNotFound
  let p := r.proposals proposalId
  failIf (p.executed) .alreadyExecuted
  failIf (p.approved msgSender) .alreadyApproved
  let p ← approveInternal d blockTimestamp msgSender p
  return { r with proposals := Function.update r.proposals proposalId p }

/-- `revokeApproval`: dropping below the threshold resets the timelock. -/
def revokeApproval (d : Deployment) (r : Registry) (msgSender : Address) (proposalId : Word) :
    Except RegistryError Registry := do
  failIf (¬d.isSigner msgSender) .notSigner
  failIf (¬r.proposalExists proposalId) .proposalNotFound
  let p := r.proposals proposalId
  failIf (p.executed) .alreadyExecuted
  failIf (¬p.approved msgSender) .notApproved
  let approvalCount ← checkedSub .panic p.approvalCount 1
  let p := { p with approved := Function.update p.approved msgSender false, approvalCount }
  let p := if approvalCount < d.threshold then { p with readyAt := 0 } else p
  return { r with proposals := Function.update r.proposals proposalId p }

/-- The finalizing loop: write each stake and add it to the running total. Reading past the end
of `stakes` panics. -/
def finalizeStakes : List Word → List ℕ → (Word → ℕ) → ℕ →
    Except RegistryError ((Word → ℕ) × ℕ)
  | [], _, stakeOf, total => .ok (stakeOf, total)
  | _ :: _, [], _, _ => .error .panic
  | h :: pkHashes, s :: stakes, stakeOf, total => do
    let total ← checkedAdd .panic total s
    finalizeStakes pkHashes stakes (Function.update stakeOf h s) total

/-- `executeEpochTransition`: permissionless once the timelock has elapsed. -/
def executeEpochTransition (r : Registry) (blockTimestamp : ℕ) (proposalId : Word) :
    Except RegistryError Registry := do
  failIf (¬r.proposalExists proposalId) .proposalNotFound
  let p := r.proposals proposalId
  failIf (p.executed) .alreadyExecuted
  failIf (p.readyAt = 0) .quorumNotReached
  failIf (blockTimestamp < p.readyAt) (.timelockNotElapsed p.readyAt blockTimestamp)
  let expected ← r.expectedEpoch
  failIf (p.epoch ≠ expected) (.epochOutOfSequence expected p.epoch)
  let (stakeOf, total) ← finalizeStakes p.pkHashes p.stakes (r.stakeByEpoch p.epoch) 0
  return { r with
    stakeByEpoch := Function.update r.stakeByEpoch p.epoch stakeOf
    totalStakeByEpoch := Function.update r.totalStakeByEpoch p.epoch total
    currentEpoch := p.epoch
    genesisSet := true
    proposals := Function.update r.proposals proposalId { p with executed := true } }

/-- `quorumThreshold`: `⌊2·total/3⌋ + 1`, in checked arithmetic. -/
def Registry.quorumThreshold (r : Registry) (epoch : ℕ) : Except RegistryError ℕ := do
  let doubled ← checkedMul .panic (r.totalStakeByEpoch epoch) 2
  checkedAdd .panic (doubled / 3) 1

/-- `stakeAt`. -/
def Registry.stakeAt (r : Registry) (epoch : ℕ) (pkHash : Word) : ℕ := r.stakeByEpoch epoch pkHash

/-- The state-changing calls of the registry. -/
inductive RegistryCall
  | propose (epoch : ℕ) (pkHashes : List Word) (stakes : List ℕ)
  | approve (proposalId : Word)
  | revoke (proposalId : Word)
  | execute (proposalId : Word)
  deriving Repr, DecidableEq

/-- A call with its sender and the timestamp of its block. -/
structure RegistryTx where
  timestamp : ℕ
  sender : Address
  call : RegistryCall
  deriving Repr, DecidableEq

/-- One transaction on the registry. -/
def registryStep (d : Deployment) (r : Registry) (tx : RegistryTx) :
    Except RegistryError Registry :=
  match tx.call with
  | .propose epoch pkHashes stakes =>
    (proposeEpochTransition keccak256 d r tx.timestamp tx.sender epoch pkHashes stakes).map Prod.snd
  | .approve proposalId => approveEpochTransition d r tx.timestamp tx.sender proposalId
  | .revoke proposalId => revokeApproval d r tx.sender proposalId
  | .execute proposalId => executeEpochTransition r tx.timestamp proposalId

end Calls

end SuwappuRevm.Contracts
