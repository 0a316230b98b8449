import SuwappuRevm.Reserve.Tracker

/-!
# The Monad journal

`MonadJournal` wraps the journal of the EVM library and tells the tracker of what it does. What the
library's operations do to the loaded accounts is a relation here, as loose as the tracker allows:
a load may bring in accounts and codes, a transfer moves balance, and a revert changes accounts
that the reverted entries name and no others. `codeOf` gives the code behind a code hash.
-/

namespace SuwappuRevm.Reserve

open Foundations

section Entries

/-- `JournalEntry`, by the accounts an entry names. -/
inductive JournalEntry
  | accountWarmed (address : Address)
  | accountTouched (address : Address)
  | balanceChange (address : Address)
  | nonceChange (address : Address)
  | nonceBump (address : Address)
  | accountCreated (address : Address)
  | storageChanged (address : Address)
  | storageWarmed (address : Address)
  | transientStorageChange (address : Address)
  | codeChange (address : Address)
  | balanceTransfer (src dst : Address)
  | accountDestroyed (address target : Address)
  deriving DecidableEq

/-- `reverted_addresses_from_entry`. -/
def revertedAddressesFromEntry : JournalEntry → List Address
  | .accountWarmed address => [address]
  | .accountTouched address => [address]
  | .balanceChange address => [address]
  | .nonceChange address => [address]
  | .nonceBump address => [address]
  | .accountCreated address => [address]
  | .storageChanged address => [address]
  | .storageWarmed address => [address]
  | .transientStorageChange address => [address]
  | .codeChange address => [address]
  | .balanceTransfer src dst => [src, dst]
  | .accountDestroyed address target => [address, target]

/-- The library's journal: the loaded accounts, and what was done to them. -/
structure JournalInner where
  state : EvmState
  journal : List JournalEntry

/-- The accounts that a revert to a journal index is about. -/
def JournalInner.reverted (inner : JournalInner) (journalI : ℕ) : List Address :=
  (inner.journal.drop journalI).flatMap revertedAddressesFromEntry

/-- The operations of one transaction. -/
inductive JournalOp
  | loadAccount (address : Address) (loadCode : Bool)
  | transfer (src dst : Address) (balance : ℕ)
  | transferLoaded (src dst : Address) (balance : ℕ)
  | balanceIncr (address : Address) (balance : ℕ)
  | selfdestruct (address target : Address)
  | createAccountCheckpoint (caller address : Address) (balance : ℕ)
  | setCodeWithHash (address : Address) (code : Bytecode) (hash : Word)
  | checkpoint
  | checkpointCommit
  | checkpointRevert (journalI : ℕ)

end Entries

section Updates

/-- Change a loaded account. -/
def modifyAccount (st : EvmState) (a : Address) (f : Account → Account) : EvmState :=
  Function.update st a ((st a).map f)

/-- The account with another balance. -/
def Account.withBalance (acc : Account) (balance : ℕ) : Account :=
  { acc with info := { acc.info with balance := balance } }

/-- The account with another code. -/
def Account.withCode (acc : Account) (hash : Word) (code : Option Bytecode) : Account :=
  { acc with info := { acc.info with codeHash := hash, code := code } }

/-- An account that a contract creation takes over. -/
def Account.created (acc : Account) : Account :=
  { acc.withCode acc.info.codeHash none with isCreatedLocally := true }

/-- A self-destructed account, which keeps nothing. -/
def Account.destroyed (acc : Account) : Account :=
  { acc.withBalance 0 with isSelfdestructedLocally := true }

/-- Move balance between loaded accounts. -/
def moveBalance (st : EvmState) (src dst : Address) (balance : ℕ) : EvmState :=
  let paid := modifyAccount st src fun acc => acc.withBalance (acc.info.balance - balance)
  modifyAccount paid dst fun acc => acc.withBalance (acc.info.balance + balance)

/-- Self-destruction moves the balance to another target; an account created in the transaction
also loses its own and is marked. -/
def destroyAccount (st : EvmState) (a target : Address) (acc : Account) : EvmState :=
  let paid := if a = target then st else moveBalance st a target acc.info.balance
  if acc.isCreatedLocally then modifyAccount paid a Account.destroyed else paid

end Updates

section Library

variable (codeOf : Word → Bytecode)

/-- The codes that are loaded are those behind the hashes, and a code that is not is behind the
hash the account had before the transaction. -/
structure Account.Truthful (acc : Account) : Prop where
  code : ∀ code, acc.info.code = some code → codeOf acc.info.codeHash = code
  originalCode : ∀ code, acc.originalInfo.code = some code →
    codeOf acc.originalInfo.codeHash = code
  unloaded : acc.info.code = none → acc.info.codeHash = 0 ∨ acc.info.codeHash = keccakEmpty ∨
    acc.info.codeHash = acc.originalInfo.codeHash

/-- An account as the database has it, or as an earlier transaction of the journal has left it. -/
structure Account.Fresh (acc : Account) : Prop where
  balance : acc.info.balance = acc.originalInfo.balance
  codeHash : acc.info.codeHash = acc.originalInfo.codeHash
  isSelfdestructedLocally : acc.isSelfdestructedLocally = false
  isCreatedLocally : acc.isCreatedLocally = false

/-- What loading does to one account: it may bring in the account or its code. -/
def LoadsTo : Option Account → Option Account → Prop
  | none, none => True
  | none, some acc => acc.Fresh ∧ acc.Truthful codeOf
  | some acc, some acc' => acc'.Truthful codeOf ∧
      acc' = acc.withCode acc.info.codeHash acc'.info.code ∧
      (acc.info.code ≠ none → acc'.info.code = acc.info.code)
  | some _, none => False

/-- What loading does to the state. -/
def Loads (st st' : EvmState) : Prop := ∀ a, LoadsTo codeOf (st a) (st' a)

/-- What a revert does to an account that a reverted entry names. It may take marks back that the
transaction has set, and sets none. -/
def RevertsTo : Option Account → Option Account → Prop
  | none, none => True
  | some acc, some acc' => acc'.Truthful codeOf ∧ acc'.originalInfo = acc.originalInfo ∧
      acc'.selfdestructedBefore = acc.selfdestructedBefore ∧
      (acc'.isSelfdestructedLocally = true → acc.isSelfdestructedLocally = true) ∧
      (acc'.isCreatedLocally = true → acc.isCreatedLocally = true)
  | _, _ => False

/-- What the library's operations do when they succeed. -/
inductive Applies (s : JournalInner) : JournalOp → JournalInner → Prop
  | loadAccount (address : Address) (loadCode : Bool) (s' : JournalInner)
      (hload : Loads codeOf s.state s'.state) (hentries : s.journal <+: s'.journal) :
      Applies s (.loadAccount address loadCode) s'
  | transfer (src dst : Address) (balance : ℕ) (mid : EvmState) (s' : JournalInner)
      (hload : Loads codeOf s.state mid) (payer : Account) (hsrc : mid src = some payer)
      (hdst : mid dst ≠ none) (hfunds : balance ≤ payer.info.balance)
      (hstate : s'.state = moveBalance mid src dst balance) (hentries : s.journal <+: s'.journal) :
      Applies s (.transfer src dst balance) s'
  | transferLoaded (src dst : Address) (balance : ℕ) (s' : JournalInner) (payer : Account)
      (hsrc : s.state src = some payer) (hdst : s.state dst ≠ none)
      (hfunds : balance ≤ payer.info.balance)
      (hstate : s'.state = moveBalance s.state src dst balance)
      (hentries : s.journal <+: s'.journal) : Applies s (.transferLoaded src dst balance) s'
  | balanceIncr (address : Address) (balance : ℕ) (mid : EvmState) (s' : JournalInner)
      (hload : Loads codeOf s.state mid) (hloaded : mid address ≠ none)
      (hstate : s'.state = modifyAccount mid address fun acc =>
        acc.withBalance (acc.info.balance + balance)) (hentries : s.journal <+: s'.journal) :
      Applies s (.balanceIncr address balance) s'
  | selfdestruct (address target : Address) (mid : EvmState) (s' : JournalInner)
      (hload : Loads codeOf s.state mid) (acc : Account) (hloaded : mid address = some acc)
      (htarget : mid target ≠ none) (hstate : s'.state = destroyAccount mid address target acc)
      (hentries : s.journal <+: s'.journal) : Applies s (.selfdestruct address target) s'
  | createAccountCheckpoint (caller address : Address) (balance : ℕ) (s' : JournalInner)
      (payer acc : Account) (hcaller : s.state caller = some payer)
      (hfunds : balance ≤ payer.info.balance) (hloaded : s.state address = some acc)
      (hempty : acc.info.codeHash = 0 ∨ acc.info.codeHash = keccakEmpty)
      (hstate : s'.state = modifyAccount (moveBalance s.state caller address balance) address
        Account.created) (hentries : s.journal <+: s'.journal) :
      Applies s (.createAccountCheckpoint caller address balance) s'
  | setCodeWithHash (address : Address) (code : Bytecode) (hash : Word) (s' : JournalInner)
      (hloaded : s.state address ≠ none) (hhash : codeOf hash = code)
      (hstate : s'.state = modifyAccount s.state address fun acc => acc.withCode hash (some code))
      (hentries : s.journal <+: s'.journal) : Applies s (.setCodeWithHash address code hash) s'
  | checkpoint : Applies s .checkpoint s
  | checkpointCommit : Applies s .checkpointCommit s
  | checkpointRevert (journalI : ℕ) (s' : JournalInner)
      (hnamed : ∀ a ∈ s.reverted journalI, RevertsTo codeOf (s.state a) (s'.state a))
      (hother : ∀ a ∉ s.reverted journalI, s'.state a = s.state a)
      (hentries : s'.journal = s.journal.take journalI) :
      Applies s (.checkpointRevert journalI) s'

/-- What the library's operations do when they fail: accounts may have been loaded. -/
structure Fails (s s' : JournalInner) : Prop where
  load : Loads codeOf s.state s'.state
  entries : s.journal <+: s'.journal

end Library

section Wrapper

open ReserveBalanceTracker

/-- `MonadJournal`. -/
structure MonadJournal where
  inner : JournalInner
  reserveBalance : ReserveBalanceTracker

/-- `on_transfer`. -/
def onTransfer (t : ReserveBalanceTracker) (state : EvmState) (src dst : Address) :
    ReserveBalanceTracker :=
  (t.onDebit (state src) src).onCredit (state dst) dst

/-- What the wrapper tells the tracker after an operation that succeeded. -/
def tracked (t : ReserveBalanceTracker) (s : JournalInner) (op : JournalOp) (s' : JournalInner) :
    ReserveBalanceTracker :=
  match op with
  | .loadAccount _ _ => t
  | .transfer src dst _ => onTransfer t s'.state src dst
  | .transferLoaded src dst _ => onTransfer t s'.state src dst
  | .balanceIncr address _ => t.onCredit (s'.state address) address
  | .selfdestruct address target => onTransfer t s'.state address target
  | .createAccountCheckpoint caller address _ => onTransfer t s'.state caller address
  | .setCodeWithHash address code _ => t.onSetCode (s'.state address) address code
  | .checkpoint => t
  | .checkpointCommit => t
  | .checkpointRevert journalI => t.onCheckpointRevert (s.reverted journalI) s'.state

/-- A step of the journal. -/
inductive MonadJournal.Step (codeOf : Word → Bytecode) (j : MonadJournal) (op : JournalOp) :
    MonadJournal → Prop
  | applies (s' : JournalInner) (h : Applies codeOf j.inner op s') :
      Step codeOf j op ⟨s', tracked j.reserveBalance j.inner op s'⟩
  | fails (s' : JournalInner) (h : Fails codeOf j.inner s') :
      Step codeOf j op ⟨s', j.reserveBalance⟩

end Wrapper

end SuwappuRevm.Reserve
