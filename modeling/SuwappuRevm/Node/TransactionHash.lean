import SuwappuRevm.Node.MinedOnce

/-!
# The hash of a submission

`send_raw_transaction` hashes all the bytes it is given, and runs the transaction that the decoder
reads from the front of them. The two agree on the bytes that are the canonical encoding of what
they decode to. Everything else that reads as the same transaction, the network form with its
string header or the encoding with more bytes after it, is run the same way and recorded under a
hash that nobody computes from the transaction.
-/

namespace SuwappuRevm.Node

open Foundations

variable {lib : Libraries}

section Receipts

/-- Every receipt states the hash it is stored under. -/
def ReceiptsNameHashes (s : NodeState) : Prop :=
  ∀ hash receipt, s.receipts hash = some receipt →
    receipt.transactionHash = hexData (Word.toBytes hash)

/-- A receipt states the hash it was made for. -/
@[simp] theorem receiptOf_transactionHash (txHash blockHash : Word) (blockNumber : UInt64)
    (sender : Address) (fields : TxFields) (result : ExecutionResult) :
    (receiptOf txHash blockHash blockNumber sender fields result).transactionHash =
      hexData (Word.toBytes txHash) := rfl

/-- A submission keeps the receipts under the hashes they state. -/
theorem ReceiptsNameHashes.next {s : NodeState} (h : ReceiptsNameHashes s) (raw : Bytes) :
    ReceiptsNameHashes ((node lib).next s raw) := by
  intro hash receipt hstored
  by_cases haccepted : (node lib).accepts s raw
  · obtain ⟨_, hsend⟩ := node_accepts haccepted
    obtain ⟨_, sender, fields, result, -, -, hnext⟩ := sendRawTransaction_eq_ok.mp hsend
    by_cases hown : hash = lib.keccak256 raw
    · rw [hnext, hown, (recorded_minedState s raw sender fields result).receipt] at hstored
      cases hstored
      rw [receiptOf_transactionHash, hown]
    · rw [(node_next_entries fun _ => Ne.symm hown).1] at hstored
      exact h hash receipt hstored
  · rw [(node_next_entries fun hno => absurd hno haccepted).1] at hstored
    exact h hash receipt hstored

/-- Receipts state their hashes in every state of a node. -/
theorem stateAfter_receiptsNameHashes (chainId : UInt64) (raws : List Bytes) :
    ReceiptsNameHashes (stateAfter lib chainId raws) := by
  apply (node lib).after_invariant (fun _ raw h => h.next raw)
  intro hash receipt hstored
  cases hstored

/-- A receipt is found under one hash only. -/
theorem ReceiptsNameHashes.unique {s : NodeState} (h : ReceiptsNameHashes s) {hash hash' : Word}
    {receipt : Receipt} (hstored : s.receipts hash = some receipt)
    (hstored' : s.receipts hash' = some receipt) : hash = hash' := by
  have htext := (h hash receipt hstored).symm.trans (h hash' receipt hstored')
  exact Word.toBytes_injective (hexData_injective htext)

end Receipts

section Readings

/-- Two submissions that read as one transaction are run alike: the second is accepted where the
first is, with the same database and the same block, and only the hash is its own. -/
theorem sendRawTransaction_same_reading {s s' : NodeState} {raw raw' : Bytes} {hash : Word}
    {envelope : TxEnvelope} {rest rest' : Bytes} (hdecode : lib.decode raw = .ok (envelope, rest))
    (hdecode' : lib.decode raw' = .ok (envelope, rest'))
    (hsend : sendRawTransaction lib raw s = .ok hash s') :
    ∃ s'', sendRawTransaction lib raw' s = .ok (lib.keccak256 raw') s'' ∧
      s''.db = s'.db ∧ s''.blockNumber = s'.blockNumber := by
  obtain ⟨_, sender, fields, result, ⟨hreads, hchain, hexecuted⟩, -, rfl⟩ :=
    sendRawTransaction_eq_ok.mp hsend
  obtain ⟨rest'', hdecoded⟩ := hreads.decoded
  rw [hdecode] at hdecoded
  cases hdecoded
  have hreads' : lib.Reads raw' envelope sender fields :=
    ⟨⟨rest', hdecode'⟩, hreads.recovered, hreads.extracted⟩
  exact ⟨minedState lib s raw' sender fields result, sendRawTransaction_eq_ok.mpr
    ⟨envelope, sender, fields, result, ⟨hreads', hchain, hexecuted⟩, rfl, rfl⟩, rfl, rfl⟩

end Readings

section Canonical

/-- An accepted submission's receipt is found under the hash that was returned. -/
theorem sendRawTransaction_receipt {s s' : NodeState} {raw : Bytes} {hash : Word}
    (hsend : sendRawTransaction lib raw s = .ok hash s') :
    ∃ receipt, s'.receipts hash = some receipt := by
  obtain ⟨_, sender, fields, result, -, rfl, rfl⟩ := sendRawTransaction_eq_ok.mp hsend
  exact ⟨_, (recorded_minedState s raw sender fields result).receipt⟩

/-- The hash of an accepted submission is the hash of the canonical encoding of its transaction,
and its receipt is found there, exactly when the submitted bytes are that encoding; submissions of
one transaction get one hash exactly when they are the same bytes. -/
theorem hash_canonical_iff {inputs : Set Bytes} (hhash : Set.InjOn lib.keccak256 inputs)
    (chainId : UInt64) (raws : List Bytes) {raw rest : Bytes} {envelope : TxEnvelope} {hash : Word}
    {s' : NodeState} (_ : lib.decode raw = .ok (envelope, rest)) (hraw : raw ∈ inputs)
    (hencoding : lib.encode2718 envelope ∈ inputs)
    (hsend : sendRawTransaction lib raw (stateAfter lib chainId raws) = .ok hash s') :
    (hash = lib.keccak256 (lib.encode2718 envelope) ↔ raw = lib.encode2718 envelope) ∧
    ((∃ receipt, s'.receipts hash = some receipt ∧
        s'.receipts (lib.keccak256 (lib.encode2718 envelope)) = some receipt) ↔
      raw = lib.encode2718 envelope) ∧
    ∀ raw' ∈ inputs, ∀ rest' t t' hash', lib.decode raw' = .ok (envelope, rest') →
      sendRawTransaction lib raw' t = .ok hash' t' → (hash' = hash ↔ raw' = raw) := by
  have hown : hash = lib.keccak256 raw := by
    obtain ⟨_, _, _, _, -, hown, -⟩ := sendRawTransaction_eq_ok.mp hsend
    exact hown
  have hcanonical : hash = lib.keccak256 (lib.encode2718 envelope) ↔
      raw = lib.encode2718 envelope := by
    rw [hown]
    exact hhash.eq_iff hraw hencoding
  refine ⟨hcanonical, ?_, ?_⟩
  · rw [← hcanonical]
    constructor
    · rintro ⟨receipt, hstored, hfound⟩
      have hnames : ReceiptsNameHashes s' := by
        rw [← (node_of_ok hsend).2]
        exact (stateAfter_receiptsNameHashes chainId raws).next raw
      exact hnames.unique hstored hfound
    · intro hsame
      obtain ⟨receipt, hstored⟩ := sendRawTransaction_receipt hsend
      exact ⟨receipt, hstored, hsame ▸ hstored⟩
  · intro raw' hraw' rest' t t' hash' _ hsend'
    obtain ⟨_, _, _, _, -, hown', -⟩ := sendRawTransaction_eq_ok.mp hsend'
    rw [hown, hown']
    exact hhash.eq_iff hraw' hraw

/-- The empty call is accepted in both of its forms. -/
theorem emptyCall_accepted :
    (node emptyCallLibraries).accepts (NodeState.new 31337) emptyCallBytes ∧
      (node emptyCallLibraries).accepts (NodeState.new 31337) wrappedCallBytes := by
  decide +kernel

/-- The canonical bytes of the empty call are recorded under their own hash. -/
theorem hash_canonical_iff_emptyCall : ∃ hash s',
    sendRawTransaction emptyCallLibraries emptyCallBytes (NodeState.new 31337) = .ok hash s' ∧
      hash = emptyCallLibraries.keccak256 (emptyCallLibraries.encode2718 emptyCall) ∧
      ∃ receipt, s'.receipts hash = some receipt ∧
        s'.receipts (emptyCallLibraries.keccak256 (emptyCallLibraries.encode2718 emptyCall)) =
          some receipt := by
  obtain ⟨hash, hsend⟩ := node_accepts emptyCall_accepted.1
  have hdecode : emptyCallLibraries.decode emptyCallBytes =
      .ok (emptyCall, emptyCallBytes.drop 103) := by simp [emptyCallLibraries]
  have hhash : Set.InjOn emptyCallLibraries.keccak256 {emptyCallBytes, wrappedCallBytes} := by
    have hne : emptyCallLibraries.keccak256 emptyCallBytes ≠
        emptyCallLibraries.keccak256 wrappedCallBytes := by decide +kernel
    exact Set.injOn_pair.mpr fun hsame => absurd hsame hne
  have hbare : emptyCallBytes ∈ ({emptyCallBytes, wrappedCallBytes} : Set Bytes) :=
    Set.mem_insert _ _
  obtain ⟨hcanonical, hfound, -⟩ :=
    hash_canonical_iff hhash 31337 [] hdecode hbare hbare hsend
  exact ⟨hash, _, hsend, hcanonical.mpr rfl, hfound.mpr rfl⟩

/-- The network form of the empty call is accepted and reads as the call, but is recorded under
another hash than its canonical bytes, and no receipt is found under the hash of these. -/
theorem wrapped_hash_not_canonical : ∃ hash s',
    sendRawTransaction emptyCallLibraries wrappedCallBytes (NodeState.new 31337) = .ok hash s' ∧
      emptyCallLibraries.decode wrappedCallBytes = .ok (emptyCall, []) ∧
      hash ≠ emptyCallLibraries.keccak256 (emptyCallLibraries.encode2718 emptyCall) ∧
      s'.receipts (emptyCallLibraries.keccak256 (emptyCallLibraries.encode2718 emptyCall)) =
        none := by
  obtain ⟨hash, hsend⟩ := node_accepts emptyCall_accepted.2
  have hhashes : emptyCallLibraries.keccak256 wrappedCallBytes ≠
      emptyCallLibraries.keccak256 (emptyCallLibraries.encode2718 emptyCall) := by decide +kernel
  have hdecode : emptyCallLibraries.decode wrappedCallBytes = .ok (emptyCall, []) := by
    have hbare : ¬emptyCallBytes <+: wrappedCallBytes := by decide +kernel
    have hrest : wrappedCallBytes.drop 105 = [] := by decide +kernel
    simp [emptyCallLibraries, hbare, hrest]
  refine ⟨hash, _, hsend, hdecode, ?_, ?_⟩
  · obtain ⟨_, _, _, _, -, hown, -⟩ := sendRawTransaction_eq_ok.mp hsend
    rw [hown]
    exact hhashes
  · exact (node_next_entries fun _ => hhashes).1

end Canonical

end SuwappuRevm.Node
