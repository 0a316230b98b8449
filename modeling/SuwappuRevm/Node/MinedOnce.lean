import SuwappuRevm.Node.SendSpec
import Mathlib.Data.Set.Function

/-!
# Each transaction is mined at most once

The block counter of a new node counts its accepted submissions, up to the range of the counter.
An accepted submission uses up a nonce of its sender, and nonces never go down, so the transaction
it was read from is not accepted again in any form. Its receipt and its stored transaction stand
under the hash of its bytes from then on, since no other accepted bytes have that hash, and a
rejected submission leaves nothing behind.
-/

namespace SuwappuRevm.Node

open Foundations

variable {lib : Libraries}

/-- What the node relies on from `transact_commit`: with the nonce check on, a transaction is
applied only at its sender's nonce, which it uses up, no account's nonce goes down, and an error
commits nothing. -/
structure Libraries.Lawful (lib : Libraries) : Prop where
  nonceChecked : ∀ ctx tx result, ctx.cfg.disableNonceCheck = false →
    (lib.transactCommit ctx tx).1 = .ok result → ctx.db.getNonce tx.caller = tx.nonce
  nonceUsed : ∀ ctx tx result, ctx.cfg.disableNonceCheck = false →
    (lib.transactCommit ctx tx).1 = .ok result →
      tx.nonce.toNat < ((lib.transactCommit ctx tx).2.db.getNonce tx.caller).toNat
  nonceGrows : ∀ ctx tx result, ctx.cfg.disableNonceCheck = false →
    (lib.transactCommit ctx tx).1 = .ok result →
      ∀ a, (ctx.db.getNonce a).toNat ≤ ((lib.transactCommit ctx tx).2.db.getNonce a).toNat
  nothingOnError : ∀ ctx tx cause, (lib.transactCommit ctx tx).1 = .error cause →
    InMemoryDB.SameView ctx.db (lib.transactCommit ctx tx).2.db

section Steps

/-- The counter, the two maps and every value of the database are as before. -/
structure Untouched (s s' : NodeState) : Prop where
  blockNumber : s'.blockNumber = s.blockNumber
  receipts : s'.receipts = s.receipts
  transactions : s'.transactions = s.transactions
  view : InMemoryDB.SameView s.db s'.db

/-- A rejected submission leaves nothing behind. -/
theorem untouched_of_error (hlaws : lib.Lawful) {s s' : NodeState} {raw : Bytes} {e : String}
    (h : sendRawTransaction lib raw s = .error e s') : Untouched s s' := by
  rcases sendRawTransaction_eq_error h with rfl | ⟨sender, fields, cause, hcause, rfl⟩
  · exact ⟨rfl, rfl, rfl, InMemoryDB.SameView.refl _⟩
  · exact ⟨rfl, rfl, rfl, hlaws.nothingOnError _ _ cause hcause⟩

/-- The account and the number of it that the bytes of a submission name. -/
def names (lib : Libraries) (raw : Bytes) (sender : Address) (n : ℕ) : Prop :=
  ∃ envelope fields, lib.Reads raw envelope sender fields ∧ fields.nonce.toNat = n

/-- The nonce of an account, as a number. -/
def nonceOf (s : NodeState) (a : Address) : ℕ := (s.db.getNonce a).toNat

/-- Accepted submissions use up the nonces they name. -/
theorem node_usesUp (hlaws : lib.Lawful) : (node lib).UsesUp (names lib) nonceOf where
  current := by
    rintro s raw sender _ haccepted ⟨envelope, fields, hreads, rfl⟩
    obtain ⟨hash, hsend⟩ := node_accepts haccepted
    obtain ⟨_, _, _, result, hmines, -, -⟩ := sendRawTransaction_eq_ok.mp hsend
    obtain ⟨-, rfl, rfl⟩ := hreads.unique hmines.reads
    exact congrArg UInt64.toNat (hlaws.nonceChecked _ _ result rfl hmines.executed)
  moved := by
    rintro s raw sender _ haccepted ⟨envelope, fields, hreads, rfl⟩
    obtain ⟨hash, hsend⟩ := node_accepts haccepted
    obtain ⟨_, _, _, result, hmines, -, hnext⟩ := sendRawTransaction_eq_ok.mp hsend
    obtain ⟨-, rfl, rfl⟩ := hreads.unique hmines.reads
    rw [hnext]
    exact hlaws.nonceUsed _ _ result rfl hmines.executed
  grows := by
    intro s raw a
    by_cases haccepted : (node lib).accepts s raw
    · obtain ⟨hash, hsend⟩ := node_accepts haccepted
      obtain ⟨_, sender, fields, result, hmines, -, hnext⟩ := sendRawTransaction_eq_ok.mp hsend
      rw [hnext]
      exact hlaws.nonceGrows _ _ result rfl hmines.executed a
    · obtain ⟨e, hsend⟩ := node_rejects haccepted
      rw [nonceOf, nonceOf, (untouched_of_error hlaws hsend).view.nonce]

/-- The block counter counts the accepted submissions. -/
theorem node_tallies (lib : Libraries) :
    (node lib).Tallies (2 ^ 64) fun s => s.blockNumber.toNat where
  accepted := by
    intro s raw haccepted
    obtain ⟨hash, hsend⟩ := node_accepts haccepted
    obtain ⟨_, _, _, _, -, -, hnext⟩ := sendRawTransaction_eq_ok.mp hsend
    rw [hnext]
    exact UInt64.toNat_add s.blockNumber 1
  refused := by
    intro s raw hrefused
    obtain ⟨e, hsend⟩ := node_rejects hrefused
    rw [sendRawTransaction_error_record hsend]
    rfl

/-- A submission writes under its own hash only, and only when it is accepted. -/
theorem node_next_entries {s : NodeState} {raw : Bytes} {hash : Word}
    (hother : (node lib).accepts s raw → lib.keccak256 raw ≠ hash) :
    ((node lib).next s raw).receipts hash = s.receipts hash ∧
      ((node lib).next s raw).transactions hash = s.transactions hash := by
  by_cases haccepted : (node lib).accepts s raw
  · obtain ⟨_, hsend⟩ := node_accepts haccepted
    obtain ⟨_, sender, fields, result, -, -, hnext⟩ := sendRawTransaction_eq_ok.mp hsend
    rw [hnext]
    have hne : hash ≠ lib.keccak256 raw := (hother haccepted).symm
    exact ⟨Function.update_of_ne hne _ _, Function.update_of_ne hne _ _⟩
  · obtain ⟨e, hsend⟩ := node_rejects haccepted
    rw [sendRawTransaction_error_record hsend]
    exact ⟨rfl, rfl⟩

end Steps

section Runs

/-- The state of a new node after some submissions. -/
def stateAfter (lib : Libraries) (chainId : UInt64) (raws : List Bytes) : NodeState :=
  (node lib).after (NodeState.new chainId) raws

/-- The submissions of a sequence that a new node accepts. -/
def acceptedCount (lib : Libraries) (chainId : UInt64) (raws : List Bytes) : ℕ :=
  (node lib).acceptedCount (NodeState.new chainId) raws

/-- The receipt and the stored transaction of an executed transaction are found under a hash. -/
structure Recorded (lib : Libraries) (s : NodeState) (hash : Word) (blockNumber : UInt64)
    (sender : Address) (fields : TxFields) (result : ExecutionResult) : Prop where
  receipt : s.receipts hash =
    some (receiptOf hash (blockHashOf lib blockNumber) blockNumber sender fields result)
  transaction : s.transactions hash =
    some (storedTxOf hash (blockHashOf lib blockNumber) blockNumber sender fields)

/-- A mined transaction is recorded with the number of its block. -/
theorem recorded_minedState (s : NodeState) (raw : Bytes) (sender : Address) (fields : TxFields)
    (result : ExecutionResult) :
    Recorded lib (minedState lib s raw sender fields result) (lib.keccak256 raw)
      (s.blockNumber + 1) sender fields result :=
  ⟨Function.update_self _ _ _, Function.update_self _ _ _⟩

/-- The record stays while no accepted submission has the same hash. -/
theorem Recorded.after {s : NodeState} {hash : Word} {blockNumber : UInt64} {sender : Address}
    {fields : TxFields} {result : ExecutionResult} {more : List Bytes}
    (h : Recorded lib s hash blockNumber sender fields result)
    (hother : ∀ before raw rest, more = before ++ raw :: rest →
      (node lib).accepts ((node lib).after s before) raw → lib.keccak256 raw ≠ hash) :
    Recorded lib ((node lib).after s more) hash blockNumber sender fields result := by
  have hreceipts := (node lib).after_kept (f := fun s => s.receipts hash) (s := s)
    fun before raw rest hmore => (node_next_entries (hother before raw rest hmore)).1
  have htransactions := (node lib).after_kept (f := fun s => s.transactions hash) (s := s)
    fun before raw rest hmore => (node_next_entries (hother before raw rest hmore)).2
  exact ⟨hreceipts.trans h.receipt, htransactions.trans h.transaction⟩

/-- What the node does with a sequence of submissions. -/
structure MinedOnce (lib : Libraries) (chainId : UInt64) (raws : List Bytes) : Prop where
  /-- The counter holds the number of accepted submissions, up to its range. -/
  counted : (stateAfter lib chainId raws).blockNumber.toNat =
    acceptedCount lib chainId raws % 2 ^ 64
  /-- An accepted submission is executed once, and recorded from then on. -/
  mined : ∀ before raw rest hash s', raws = before ++ raw :: rest →
    sendRawTransaction lib raw (stateAfter lib chainId before) = .ok hash s' →
    ∃ envelope sender fields result,
      Mines lib (stateAfter lib chainId before) raw envelope sender fields result ∧
      s'.db = (execute lib (stateAfter lib chainId before) sender fields).2.db ∧
      hash = lib.keccak256 raw ∧
      s'.blockNumber = (stateAfter lib chainId before).blockNumber + 1 ∧
      ∀ more, more <+: rest → Recorded lib (stateAfter lib chainId (before ++ raw :: more)) hash
        s'.blockNumber sender fields result
  /-- No two accepted submissions read as one sender's transactions with one nonce. -/
  once : ∀ before raw between raw' rest, raws = before ++ raw :: (between ++ raw' :: rest) →
    (node lib).accepts (stateAfter lib chainId before) raw →
    (node lib).accepts (stateAfter lib chainId (before ++ raw :: between)) raw' →
    ∀ envelope sender fields envelope' sender' fields',
      lib.Reads raw envelope sender fields → lib.Reads raw' envelope' sender' fields' →
      ¬(sender' = sender ∧ fields'.nonce = fields.nonce)
  /-- A rejected submission leaves nothing behind. -/
  rejected : ∀ before raw rest e s', raws = before ++ raw :: rest →
    sendRawTransaction lib raw (stateAfter lib chainId before) = .error e s' →
    Untouched (stateAfter lib chainId before) s'

/-- The counter of a new node after some submissions. -/
theorem stateAfter_blockNumber (lib : Libraries) (chainId : UInt64) (raws : List Bytes) :
    (stateAfter lib chainId raws).blockNumber.toNat =
      acceptedCount lib chainId raws % 2 ^ 64 := by
  have hstart : (NodeState.new chainId).blockNumber.toNat < 2 ^ 64 := UInt64.toNat_lt _
  have hcount := (node_tallies lib).after_eq hstart raws
  have hzero : (NodeState.new chainId).blockNumber.toNat = 0 := rfl
  rw [hzero, Nat.zero_add] at hcount
  exact hcount

/-- The state after more submissions. -/
theorem stateAfter_append (lib : Libraries) (chainId : UInt64) (before : List Bytes) (raw : Bytes)
    (more : List Bytes) :
    stateAfter lib chainId (before ++ raw :: more) =
      (node lib).after ((node lib).next (stateAfter lib chainId before) raw) more :=
  (node lib).after_append _ _ _

/-- Two accepted submissions of a sequence read as different transactions. -/
theorem not_accepts_again (hlaws : lib.Lawful) {s : NodeState} {raw raw' : Bytes}
    {between : List Bytes} (haccepted : (node lib).accepts s raw)
    (hagain : (node lib).accepts ((node lib).after ((node lib).next s raw) between) raw')
    {envelope envelope' : TxEnvelope} {sender sender' : Address} {fields fields' : TxFields}
    (hreads : lib.Reads raw envelope sender fields)
    (hreads' : lib.Reads raw' envelope' sender' fields') :
    ¬(sender' = sender ∧ fields'.nonce = fields.nonce) := by
  rintro ⟨rfl, hnonce⟩
  have hnames : names lib raw sender' fields.nonce.toNat := ⟨envelope, fields, hreads, rfl⟩
  have hnames' : names lib raw' sender' fields.nonce.toNat :=
    ⟨envelope', fields', hreads', by rw [hnonce]⟩
  exact (node_usesUp hlaws).not_accepts_later haccepted hnames hnames' between hagain

/-- Whatever is submitted to a new node, each transaction is mined at most once and a rejected
submission leaves no trace. -/
theorem node_mines_once (hlaws : lib.Lawful) (chainId : UInt64) (raws : List Bytes)
    (hhash : Set.InjOn lib.keccak256 {raw | raw ∈ raws}) : MinedOnce lib chainId raws where
  counted := stateAfter_blockNumber lib chainId raws
  mined := by
    rintro before raw rest hash s' rfl hsend
    obtain ⟨haccepted, hnext⟩ := node_of_ok hsend
    obtain ⟨envelope, sender, fields, result, hmines, rfl, rfl⟩ :=
      sendRawTransaction_eq_ok.mp hsend
    refine ⟨envelope, sender, fields, result, hmines, rfl, rfl, rfl, ?_⟩
    rintro more ⟨tail, rfl⟩
    rw [stateAfter_append, hnext]
    apply (recorded_minedState _ raw sender fields result).after
    -- an accepted submission with this hash would be these bytes again
    rintro earlier raw' later rfl hagain hsame
    have hbytes : raw' = raw := hhash (by simp) (by simp) hsame
    rw [hbytes, ← hnext] at hagain
    exact not_accepts_again hlaws haccepted hagain hmines.reads hmines.reads ⟨rfl, rfl⟩
  once := by
    rintro before raw between raw' rest rfl haccepted hagain envelope sender fields envelope'
      sender' fields' hreads hreads'
    rw [stateAfter_append] at hagain
    exact not_accepts_again hlaws haccepted hagain hreads hreads'
  rejected := by
    rintro before raw rest e s' - hsend
    exact untouched_of_error hlaws hsend

section EmptyCalls

/-- The EVM on empty calls: the nonce is checked and used up and the basic gas is spent. -/
def commitEmptyCall (ctx : MonadContext) (tx : TxEnv) :
    Except String ExecutionResult × MonadContext :=
  if tx.kind ≠ .create ∧ tx.value = 0 ∧ tx.data = [] ∧ tx.gasPrice = 0 ∧ tx.gasLimit = 21000 ∧
      ctx.db.getNonce tx.caller = tx.nonce ∧ tx.nonce.toNat + 1 < 2 ^ 64 then
    let info : AccountInfo := ⟨ctx.db.getBalance tx.caller, tx.nonce + 1, keccakEmpty⟩
    (.ok (.success 21000 (.call [])), { ctx with db := ctx.db.insertAccountInfo tx.caller info })
  else (.error "Transaction(NonceTooLow)", ctx)

/-- The nonces after an account was written. -/
theorem getNonce_insertAccountInfo (db : InMemoryDB) (a b : Address) (info : AccountInfo) :
    (db.insertAccountInfo a info).getNonce b = if b = a then info.nonce else db.getNonce b := by
  by_cases hb : b = a
  · simp [InMemoryDB.getNonce, InMemoryDB.insertAccountInfo, hb]
  · simp [InMemoryDB.getNonce, InMemoryDB.insertAccountInfo, hb]

/-- What a call that succeeds has checked, and the nonces it leaves. -/
theorem commitEmptyCall_eq_ok {ctx : MonadContext} {tx : TxEnv} {result : ExecutionResult}
    (h : (commitEmptyCall ctx tx).1 = .ok result) :
    ctx.db.getNonce tx.caller = tx.nonce ∧ tx.nonce.toNat + 1 < 2 ^ 64 ∧
      ∀ a, (commitEmptyCall ctx tx).2.db.getNonce a =
        if a = tx.caller then tx.nonce + 1 else ctx.db.getNonce a := by
  rw [commitEmptyCall] at h ⊢
  split at h
  next hvalid =>
    rw [if_pos hvalid]
    obtain ⟨-, -, -, -, -, hnonce, hroom⟩ := hvalid
    exact ⟨hnonce, hroom, fun a => getNonce_insertAccountInfo _ _ _ _⟩
  next => cases h

/-- A nonce with room above it goes up by one. -/
theorem nonce_succ {n : UInt64} (h : n.toNat + 1 < 2 ^ 64) : (n + 1).toNat = n.toNat + 1 := by
  rw [UInt64.toNat_add]
  exact Nat.mod_eq_of_lt h

/-- Libraries whose EVM knows the empty calls keep the laws. -/
theorem lawful_of_emptyCalls (h : lib.transactCommit = commitEmptyCall) : lib.Lawful where
  nonceChecked := by
    intro ctx tx result _ hok
    rw [h] at hok
    exact (commitEmptyCall_eq_ok hok).1
  nonceUsed := by
    intro ctx tx result _ hok
    rw [h] at hok ⊢
    obtain ⟨-, hroom, hnext⟩ := commitEmptyCall_eq_ok hok
    rw [hnext, if_pos rfl, nonce_succ hroom]
    exact Nat.lt_succ_self _
  nonceGrows := by
    intro ctx tx result _ hok a
    rw [h] at hok ⊢
    obtain ⟨hnonce, hroom, hnext⟩ := commitEmptyCall_eq_ok hok
    rw [hnext]
    split
    next hcaller =>
      rw [hcaller, hnonce, nonce_succ hroom]
      exact Nat.le_succ _
    next => exact le_rfl
  nothingOnError := by
    intro ctx tx cause herror
    rw [h] at herror ⊢
    rw [commitEmptyCall] at herror ⊢
    split at herror
    next => cases herror
    next hinvalid =>
      rw [if_neg hinvalid]
      exact InMemoryDB.SameView.refl _

/-- The signature of the call by the key of the first development account. -/
def emptyCallSignature : Signature where
  r := 0x87d07da10fd67e2fefc1dae4eeb7e1f91b7c6582041cef7f6873c67b977ff043
  s := 0x5156c1ac294e3ab9d83646a640c498ad54cc38cba996c8243666123d89db01b3
  yParity := false

/-- The second development account. -/
def emptyCallTarget : Address := 0x70997970C51812dc3A010C7d01b50e0d17dc79C8

/-- An empty call of the second development account by the first, signed for chain 31337. -/
def emptyCall : TxEnvelope := .eip1559 {
  tx := {
    chainId := 31337
    nonce := 0
    gasLimit := 21000
    maxFeePerGas := 0
    maxPriorityFeePerGas := 0
    toKind := .call emptyCallTarget
    value := 0
    accessList := []
    input := [] }
  signature := emptyCallSignature }

/-- Its canonical encoding: the type byte, then the list of chain, nonce, fees, gas limit, target,
value, data, access list and signature. -/
def emptyCallBytes : Bytes :=
  [0x02, 0xf8, 0x64, 0x82, 0x7a, 0x69, 0x80, 0x80, 0x80, 0x82, 0x52, 0x08, 0x94] ++
    addressBytes emptyCallTarget ++ [0x80, 0x80, 0xc0, 0x80, 0xa0] ++
    Word.toBytes emptyCallSignature.r ++ [0xa0] ++ Word.toBytes emptyCallSignature.s

/-- The same in the network form, behind the header of an RLP string. -/
def wrappedCallBytes : Bytes := 0xb8 :: 0x67 :: emptyCallBytes

/-- The libraries on these bytes, alone and with others after them, and on the number of the first
block. -/
def emptyCallLibraries : Libraries where
  decode raw :=
    if emptyCallBytes <+: raw then .ok (emptyCall, raw.drop 103)
    else if wrappedCallBytes <+: raw then .ok (emptyCall, raw.drop 105)
    else .error "input too short"
  encode2718 _ := emptyCallBytes
  recoverSigner _ := .ok 0xf39Fd6e51aad88F6F4ce6aB8827279cffFb92266
  keccak256 raw :=
    if raw = emptyCallBytes then
      0x234bf6a9587e6246ee786179353067432d6b2e157553fbd2cbd9ac6fbb735c3a
    else if raw = wrappedCallBytes then
      0xb29b45ec3cff6a4591921fcd6863fe8d4a8a3c1fc34ced70a7c7346a0f7c25e3
    else if raw = emptyCallBytes ++ [0] then
      0x38714718507b60a3c8208fe92313bbc32e457844caaef45f448ac8ded382ee52
    else if raw = leBytes 8 1 then
      0x30f692b256e24009bcb34d0ee84da73c298afacc0924e01105e2eb0f01a87fe2
    else keccakEmpty
  transactCommit := commitEmptyCall

/-- The call, the call again and no bytes at all: the call is mined once. -/
theorem node_mines_once_emptyCall :
    MinedOnce emptyCallLibraries 31337 [emptyCallBytes, emptyCallBytes, []] ∧
      acceptedCount emptyCallLibraries 31337 [emptyCallBytes, emptyCallBytes, []] = 1 := by
  have hhash : Set.InjOn emptyCallLibraries.keccak256
      {raw | raw ∈ [emptyCallBytes, emptyCallBytes, []]} := by
    have hall : ∀ raw ∈ [emptyCallBytes, []], ∀ raw' ∈ [emptyCallBytes, []],
        emptyCallLibraries.keccak256 raw = emptyCallLibraries.keccak256 raw' → raw = raw' := by
      decide +kernel
    intro raw hraw raw' hraw'
    exact hall raw (by simpa using hraw) raw' (by simpa using hraw')
  exact ⟨node_mines_once (lawful_of_emptyCalls rfl) 31337 _ hhash, by decide +kernel⟩

end EmptyCalls

section LongRun

/-- Libraries in which nine bytes are a call: its nonce and its sender, zero or one. -/
def shortCalls : Libraries where
  decode raw := .ok (.legacy {
    tx := {
      chainId := none
      nonce := UInt64.ofNat (beNat (raw.take 8))
      gasPrice := 0
      gasLimit := 21000
      toKind := .call emptyCallTarget
      value := 0
      input := [] }
    signature := ⟨Fin.ofNat (2 ^ 256) (beNat (raw.drop 8)), 0, false⟩ }, [])
  encode2718 _ := []
  recoverSigner
    | .legacy signed => .ok (Fin.ofNat (2 ^ 160) signed.signature.r.val)
    | _ => .error "unsupported transaction type"
  keccak256 := Word.ofBytes
  transactCommit := commitEmptyCall

/-- The `k`-th call when the two senders take turns. -/
def shortCall (k : ℕ) : Bytes := beBytes 8 (k / 2) ++ beBytes 1 (k % 2)

/-- The first `n` calls. -/
def shortRun (n : ℕ) : List Bytes := (List.range n).map shortCall

/-- The sender of the `k`-th call. -/
def turn (k : ℕ) : Address := Fin.ofNat (2 ^ 160) (k % 2)

/-- What a call reads as. -/
theorem shortCall_reads {k : ℕ} (hk : k < 2 ^ 64) : ∃ envelope fields,
    shortCalls.Reads (shortCall k) envelope (turn k) fields ∧ txEnv (turn k) fields =
      ⟨turn k, .call emptyCallTarget, UInt64.ofNat (k / 2), 21000, 0, 0, [], none⟩ := by
  have hnonce : beNat ((shortCall k).take 8) = k / 2 := by
    rw [shortCall, List.take_left' (beBytes_length 8 _), beNat_beBytes_of_lt (by omega)]
  have hsender : beNat ((shortCall k).drop 8) = k % 2 := by
    rw [shortCall, List.drop_left' (beBytes_length 8 _), beNat_beBytes_of_lt (by omega)]
  refine ⟨_, _, ⟨⟨[], rfl⟩, ?_, rfl⟩, ?_⟩
  · show Except.ok (Fin.ofNat (2 ^ 160) (Fin.ofNat (2 ^ 256) _).val) = _
    rw [hsender, Fin.val_ofNat, Nat.mod_eq_of_lt (by omega : k % 2 < 2 ^ 256)]
    rfl
  · rw [txEnv, hnonce, alloyU256ToRevm_eq]
    rfl

/-- Both senders have used up the nonces of their calls. -/
def TookTurns (s : NodeState) (k : ℕ) : Prop :=
  nonceOf s (turn 0) = (k + 1) / 2 ∧ nonceOf s (turn 1) = k / 2

/-- The senders take turns. -/
theorem turn_cases (k : ℕ) : k % 2 = 0 ∧ turn k = turn 0 ∨ k % 2 = 1 ∧ turn k = turn 1 := by
  rcases Nat.mod_two_eq_zero_or_one k with heven | hodd
  · exact .inl ⟨heven, by rw [turn, heven, turn]⟩
  · exact .inr ⟨hodd, by rw [turn, hodd, turn]⟩

/-- The nonce of the sender whose turn it is. -/
theorem TookTurns.nonce_eq {s : NodeState} {k : ℕ} (h : TookTurns s k) :
    nonceOf s (turn k) = k / 2 := by
  rcases turn_cases k with ⟨heven, hturn⟩ | ⟨hodd, hturn⟩
  · rw [hturn, h.1]
    omega
  · rw [hturn, h.2]

/-- One more nonce of the sender is used up. -/
theorem TookTurns.succ {s s' : NodeState} {k : ℕ} (h : TookTurns s k)
    (hnext : ∀ a, nonceOf s' a = if a = turn k then k / 2 + 1 else nonceOf s a) :
    TookTurns s' (k + 1) := by
  have hdistinct : turn 0 ≠ turn 1 := by decide
  rcases turn_cases k with ⟨heven, hturn⟩ | ⟨hodd, hturn⟩
  · rw [hturn] at hnext
    constructor
    · rw [hnext, if_pos rfl]
      omega
    · rw [hnext, if_neg hdistinct.symm, h.2]
      omega
  · rw [hturn] at hnext
    constructor
    · rw [hnext, if_neg hdistinct, h.1]
      omega
    · rw [hnext, if_pos rfl]
      omega

/-- The next call of the turn is accepted. -/
theorem TookTurns.step {s : NodeState} {k : ℕ} (h : TookTurns s k) (hk : k < 2 ^ 64) :
    (node shortCalls).accepts s (shortCall k) ∧
      TookTurns ((node shortCalls).next s (shortCall k)) (k + 1) := by
  obtain ⟨envelope, fields, hreads, htx⟩ := shortCall_reads hk
  have hchain : fields.chainIdOpt = none := congrArg TxEnv.chainId htx
  have hword : (UInt64.ofNat (k / 2)).toNat = k / 2 := by
    rw [UInt64.toNat_ofNat']
    exact Nat.mod_eq_of_lt (by omega)
  have hnonce : s.db.getNonce (turn k) = UInt64.ofNat (k / 2) := by
    apply UInt64.toNat_inj.mp
    rw [hword]
    exact h.nonce_eq
  have hroom : (UInt64.ofNat (k / 2)).toNat + 1 < 2 ^ 64 := by
    rw [hword]
    omega
  have hrun : (execute shortCalls s (turn k) fields).1 =
      .ok (.success 21000 (.call [])) := by
    rw [execute, htx]
    show (commitEmptyCall _ _).1 = _
    rw [commitEmptyCall, if_pos ⟨TxKind.noConfusion, rfl, rfl, rfl, rfl, hnonce, hroom⟩]
  have hmines : Mines shortCalls s (shortCall k) envelope _ fields _ :=
    ⟨hreads, by simp [hchain], hrun⟩
  obtain ⟨haccepted, hnext⟩ := node_of_ok (sendRawTransaction_eq_ok.mpr
    ⟨envelope, _, fields, _, hmines, rfl, rfl⟩)
  have htxNonce : (txEnv (turn k) fields).nonce = UInt64.ofNat (k / 2) := congrArg TxEnv.nonce htx
  obtain ⟨-, -, hleft⟩ := commitEmptyCall_eq_ok hrun
  refine ⟨haccepted, h.succ ?_⟩
  intro a
  rw [hnext]
  show ((commitEmptyCall _ _).2.db.getNonce a).toNat = _
  rw [hleft a, htxNonce]
  split
  next hcaller =>
    have hturn : a = turn k := hcaller
    rw [if_pos hturn, nonce_succ hroom, hword]
  next hcaller =>
    have hturn : a ≠ turn k := hcaller
    rw [if_neg hturn]
    rfl

/-- Every call of the run is accepted. -/
theorem shortRun_accepted {n : ℕ} (hn : n ≤ 2 ^ 64) :
    TookTurns (stateAfter shortCalls 1 (shortRun n)) n ∧
      acceptedCount shortCalls 1 (shortRun n) = n := by
  induction n with
  | zero => exact ⟨⟨by decide +kernel, by decide +kernel⟩, rfl⟩
  | succ n ih =>
    obtain ⟨hturns, hcount⟩ := ih (by omega)
    obtain ⟨haccepted, hnext⟩ := hturns.step (by omega)
    have hrun : shortRun (n + 1) = shortRun n ++ [shortCall n] := by
      rw [shortRun, List.range_succ, List.map_append]
      rfl
    rw [hrun, stateAfter, acceptedCount, Intake.after_concat, Intake.acceptedCount_concat]
    refine ⟨hnext, ?_⟩
    rw [← stateAfter, ← acceptedCount, if_pos haccepted, hcount]

/-- The counter is back at zero after `2 ^ 64` accepted submissions. -/
theorem block_number_wraps : shortCalls.Lawful ∧
    (stateAfter shortCalls 1 (shortRun (2 ^ 64))).blockNumber.toNat ≠
      acceptedCount shortCalls 1 (shortRun (2 ^ 64)) := by
  refine ⟨lawful_of_emptyCalls rfl, ?_⟩
  obtain ⟨-, hcount⟩ := shortRun_accepted le_rfl
  rw [stateAfter_blockNumber, hcount]
  decide

end LongRun

end Runs

end SuwappuRevm.Node
