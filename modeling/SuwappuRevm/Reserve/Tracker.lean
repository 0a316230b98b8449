import SuwappuRevm.Foundations.Bytes
import SuwappuRevm.Spec
import SuwappuRevm.Staking.Storage
import Mathlib.Data.Finset.Basic

/-!
# The reserve-balance tracker

The tracker keeps, for the current transaction, the balance below which each account it has looked
at may not fall, and the set of accounts that are below. It is told of debits, credits, code
changes and reverted checkpoints, and looks at an account only then.
-/

namespace SuwappuRevm.Reserve

open Foundations
open Staking (stakingAddress)

section Accounts

/-- `Bytecode`: plain code, or the designator of an EIP-7702 delegation. -/
inductive Bytecode
  | legacy (bytes : Bytes)
  | eip7702 (delegated : Address)
  deriving DecidableEq

/-- `Bytecode::is_eip7702`. -/
def Bytecode.isEip7702 : Bytecode → Bool
  | .legacy _ => false
  | .eip7702 _ => true

/-- `Bytecode::original_bytes`. -/
def Bytecode.originalBytes : Bytecode → Bytes
  | .legacy bytes => bytes
  | .eip7702 delegated => [0xef, 0x01, 0x00] ++ beBytes 20 delegated.val

/-- `AccountInfo`; the code is absent while it has not been loaded. -/
structure AccountInfo where
  balance : ℕ
  codeHash : Word
  code : Option Bytecode

/-- `Account`: the current and the pre-transaction data, and its status flags. A journal can serve
several transactions, and the mark of a self-destructed account stays in it: `selfdestructedBefore`
is the mark that an earlier transaction has left. -/
structure Account where
  info : AccountInfo
  originalInfo : AccountInfo
  selfdestructedBefore : Bool
  isSelfdestructedLocally : Bool
  isCreatedLocally : Bool

/-- `Account::is_selfdestructed`: in this transaction or in an earlier one of the journal. -/
def Account.isSelfdestructed (acc : Account) : Bool :=
  acc.isSelfdestructedLocally || acc.selfdestructedBefore

/-- `EvmState`: the accounts that the transaction has loaded. One that the journal keeps from an
earlier transaction is not among them until it is loaded again. -/
abbrev EvmState := Address → Option Account

end Accounts

section Chain

/-- `MonadChainContext`. -/
structure MonadChainContext where
  parentSendersAndAuthorities : List Address
  grandparentSendersAndAuthorities : List Address
  currentBlockSenders : List Address
  currentBlockAuthorities : List (List Address)
  currentTxIndex : ℕ
  maxReserveBalance : ℕ

/-- The default context: nobody has sent, and ten tokens of reserve. -/
def MonadChainContext.default : MonadChainContext := ⟨[], [], [], [], 0, 10000000000000000000⟩

/-- `sender_can_dip`. -/
def MonadChainContext.senderCanDip (chain : MonadChainContext) (sender : Address)
    (senderIsDelegated : Bool) : Bool :=
  !senderIsDelegated &&
    !(chain.grandparentSendersAndAuthorities.contains sender ||
      chain.parentSendersAndAuthorities.contains sender) &&
    !(chain.currentBlockSenders.take chain.currentTxIndex).contains sender &&
    !(chain.currentBlockAuthorities.take (chain.currentTxIndex + 1)).any (·.contains sender)

end Chain

/-- `ReserveBalanceInit`. -/
structure ReserveBalanceInit where
  chain : MonadChainContext
  spec : MonadSpecId
  sender : Address
  effectiveGasPrice : ℕ
  gasLimit : ℕ
  senderIsDelegated : Bool
  senderAccount : Option Account

/-- `ReserveBalanceTracker`. A threshold of `none` is one that no balance reaches. -/
structure ReserveBalanceTracker where
  trackingEnabled : Bool
  chain : MonadChainContext
  useRecentCodeHash : Bool
  sender : Address
  senderGasFees : ℕ
  senderCanDip : Bool
  allowInitSelfdestructExemption : Bool
  violationThresholds : Address → Option (Option ℕ)
  failed : Finset Address

/-- `is_smart_contract_code`. -/
def isSmartContractCode (code : Bytecode) : Bool :=
  !code.originalBytes.isEmpty && !code.isEip7702

namespace ReserveBalanceTracker

/-- `ReserveBalanceTracker::default`. -/
def default : ReserveBalanceTracker where
  trackingEnabled := false
  chain := MonadChainContext.default
  useRecentCodeHash := false
  sender := 0
  senderGasFees := 0
  senderCanDip := false
  allowInitSelfdestructExemption := false
  violationThresholds _ := none
  failed := ∅

/-- `has_violation`. -/
def hasViolation (t : ReserveBalanceTracker) : Bool := t.failed ≠ ∅

/-- Drop an account from the failed set. -/
def pass (t : ReserveBalanceTracker) (a : Address) : ReserveBalanceTracker :=
  { t with failed := t.failed.erase a }

/-- Add an account to the failed set. -/
def fail (t : ReserveBalanceTracker) (a : Address) : ReserveBalanceTracker :=
  { t with failed := insert a t.failed }

/-- Store or drop the threshold of an account. -/
def setThreshold (t : ReserveBalanceTracker) (a : Address) (threshold : Option (Option ℕ)) :
    ReserveBalanceTracker :=
  { t with violationThresholds := Function.update t.violationThresholds a threshold }

/-- `is_subject_account`. -/
def isSubjectAccount (t : ReserveBalanceTracker) (account : Account) (a : Address) : Bool :=
  if a = stakingAddress then false
  else
    let effectiveCodeHash :=
      if t.useRecentCodeHash then account.info.codeHash else account.originalInfo.codeHash
    if effectiveCodeHash = 0 ∨ effectiveCodeHash = keccakEmpty then true
    else (account.info.code.or account.originalInfo.code).any Bytecode.isEip7702

/-- `pretx_reserve`. -/
def pretxReserve (t : ReserveBalanceTracker) (account : Account) : ℕ :=
  min t.chain.maxReserveBalance account.originalInfo.balance

/-- `compute_violation_threshold`. -/
def computeViolationThreshold (t : ReserveBalanceTracker) (account : Account) (a : Address) :
    Option ℕ :=
  if !t.isSubjectAccount account a then some 0
  else
    let reserve := t.pretxReserve account
    if a = t.sender then
      if t.senderCanDip then some 0
      else if t.senderGasFees ≤ reserve then some (reserve - t.senderGasFees)
      else none
    else some reserve

/-- The last part of `update_loaded_account`: compare the balance with the threshold. -/
def judge (t : ReserveBalanceTracker) (balance : ℕ) (a : Address) :
    Option ℕ → ReserveBalanceTracker
  | none => t.fail a
  | some threshold => if threshold = 0 ∨ balance ≥ threshold then t.pass a else t.fail a

/-- `update_loaded_account`. -/
def updateLoadedAccount (t : ReserveBalanceTracker) (account : Option Account) (a : Address) :
    ReserveBalanceTracker :=
  if !t.trackingEnabled then t
  else
    match account with
    | none => (t.pass a).setThreshold a none
    | some account =>
      if t.allowInitSelfdestructExemption && account.isSelfdestructed &&
          account.isCreatedLocally then
        (t.pass a).setThreshold a (some (some 0))
      else
        match t.violationThresholds a with
        | some threshold => t.judge account.info.balance a threshold
        | none =>
          let threshold := t.computeViolationThreshold account a
          (t.setThreshold a (some threshold)).judge account.info.balance a threshold

/-- The first part of `init`: the cleared tracker with the data of the transaction. -/
def start (i : ReserveBalanceInit) : ReserveBalanceTracker :=
  { default with
    trackingEnabled := true
    chain := i.chain
    useRecentCodeHash := MonadSpecId.monadEight.isEnabledIn i.spec
    sender := i.sender
    allowInitSelfdestructExemption := MonadSpecId.monadNine.isEnabledIn i.spec
    senderGasFees := i.effectiveGasPrice * i.gasLimit
    senderCanDip := i.chain.senderCanDip i.sender i.senderIsDelegated }

/-- `init`. -/
def init (i : ReserveBalanceInit) : ReserveBalanceTracker :=
  (start i).updateLoadedAccount i.senderAccount i.sender

/-- `on_debit`. -/
def onDebit (t : ReserveBalanceTracker) (account : Option Account) (a : Address) :
    ReserveBalanceTracker :=
  t.updateLoadedAccount account a

/-- `on_credit`: only a failing account is looked at again. -/
def onCredit (t : ReserveBalanceTracker) (account : Option Account) (a : Address) :
    ReserveBalanceTracker :=
  if a ∈ t.failed then t.updateLoadedAccount account a else t

/-- `on_set_code`. -/
def onSetCode (t : ReserveBalanceTracker) (account : Option Account) (a : Address)
    (code : Bytecode) : ReserveBalanceTracker :=
  if !t.trackingEnabled || !t.useRecentCodeHash then t
  else if isSmartContractCode code then (t.setThreshold a (some (some 0))).pass a
  else (t.setThreshold a none).updateLoadedAccount account a

/-- `on_checkpoint_revert`: every reverted account is looked at afresh. -/
def onCheckpointRevert (t : ReserveBalanceTracker) (reverted : List Address) (state : EvmState) :
    ReserveBalanceTracker :=
  if !t.trackingEnabled then t
  else reverted.foldl (fun t a => (t.setThreshold a none).updateLoadedAccount (state a) a) t

end ReserveBalanceTracker

end SuwappuRevm.Reserve
