import SuwappuRevm.Node.MinedOnce

/-!
# The ledger of a node

What a node has taken up is a ledger: an accepted submission appends its transaction under the hash
of its bytes, and nothing else changes the ledger. The counter and the maps of the node are the
ledger's length and its lookups, since no transaction is mined twice.
-/

namespace SuwappuRevm.Node

open Foundations

variable {lib : Libraries}

section Entries

/-- What the ledger has on an accepted submission. -/
structure LedgerEntry where
  hash : Word
  sender : Address
  fields : TxFields
  result : ExecutionResult

/-- The entry that a submission appends: it is read, its chain is the node's, and the EVM has run
it. -/
def minedEntry (lib : Libraries) (s : NodeState) (raw : Bytes) : Option LedgerEntry := do
  let (envelope, _) ← (lib.decode raw).toOption
  let sender ← (lib.recoverSigner envelope).toOption
  let fields ← (extractTxFields envelope).toOption
  (checkChainId fields.chainIdOpt s.chainId).toOption
  let result ← (execute lib s sender fields).1.toOption
  return ⟨lib.keccak256 raw, sender, fields, result⟩

/-- The ledger after some submissions to a node. -/
def ledgerOf (lib : Libraries) : NodeState → List Bytes → List LedgerEntry
  | _, [] => []
  | s, raw :: raws =>
    (minedEntry lib s raw).toList ++ ledgerOf lib (afterSubmission lib s raw) raws

/-- The entry under a hash, with the number of its block. -/
def ledgerFind (ledger : List LedgerEntry) (hash : Word) : Option (LedgerEntry × UInt64) :=
  (ledger.zipIdx.find? fun e => e.1.hash = hash).map fun e => (e.1, UInt64.ofNat (e.2 + 1))

/-- The receipt that the ledger has under a hash. -/
def ledgerReceipt (lib : Libraries) (ledger : List LedgerEntry) (hash : Word) : Option Receipt :=
  (ledgerFind ledger hash).map fun (entry, number) =>
    receiptOf hash (blockHashOf lib number) number entry.sender entry.fields entry.result

/-- The transaction that the ledger has under a hash. -/
def ledgerTransaction (lib : Libraries) (ledger : List LedgerEntry) (hash : Word) :
    Option StoredTx :=
  (ledgerFind ledger hash).map fun (entry, number) =>
    storedTxOf hash (blockHashOf lib number) number entry.sender entry.fields

/-- An entry is made exactly of a submission that is mined. -/
theorem minedEntry_eq_some {s : NodeState} {raw : Bytes} {entry : LedgerEntry} :
    minedEntry lib s raw = some entry ↔ entry.hash = lib.keccak256 raw ∧
      ∃ envelope, Mines lib s raw envelope entry.sender entry.fields entry.result := by
  have htoOption {A : Type} {x : Except String A} {a : A} : x.toOption = some a ↔ x = .ok a := by
    cases x with
    | error e => exact iff_of_false nofun nofun
    | ok b => exact ⟨fun h => congrArg Except.ok (Option.some.inj h),
        fun h => congrArg some (Except.ok.inj h)⟩
  simp only [minedEntry, Option.bind_eq_bind, Option.bind_eq_some_iff, htoOption]
  constructor
  · rintro ⟨⟨envelope, rest⟩, hdecode, sender, hsender, fields, hfields, _, hchain, result, hresult,
      hentry⟩
    cases hentry
    exact ⟨rfl, envelope, ⟨⟨rest, hdecode⟩, hsender, hfields⟩, checkChainId_eq_ok.mp hchain,
      hresult⟩
  · rintro ⟨hhash, envelope, ⟨⟨rest, hdecode⟩, hsender, hfields⟩, hchain, hresult⟩
    refine ⟨⟨envelope, rest⟩, hdecode, _, hsender, _, hfields, ⟨⟩, checkChainId_eq_ok.mpr hchain,
      _, hresult, ?_⟩
    rw [← hhash]
    rfl

/-- An accepted submission has an entry under the hash it returns. -/
theorem minedEntry_of_ok {s s' : NodeState} {raw : Bytes} {hash : Word}
    (h : sendRawTransaction lib raw s = .ok hash s') :
    ∃ entry, minedEntry lib s raw = some entry ∧ entry.hash = hash := by
  obtain ⟨envelope, sender, fields, result, hmines, rfl, -⟩ := sendRawTransaction_eq_ok.mp h
  exact ⟨⟨lib.keccak256 raw, sender, fields, result⟩,
    minedEntry_eq_some.mpr ⟨rfl, envelope, hmines⟩, rfl⟩

/-- A rejected submission has no entry. -/
theorem minedEntry_of_error {s s' : NodeState} {raw : Bytes} {e : String}
    (h : sendRawTransaction lib raw s = .error e s') : minedEntry lib s raw = none := by
  refine Option.eq_none_iff_forall_ne_some.mpr fun entry hentry => ?_
  obtain ⟨-, envelope, hmines⟩ := minedEntry_eq_some.mp hentry
  have hsend := sendRawTransaction_eq_ok.mpr ⟨envelope, _, _, _, hmines, rfl, rfl⟩
  rw [h] at hsend
  cases hsend

/-- A hash that no entry has is not found. -/
theorem ledgerFind_eq_none {ledger : List LedgerEntry} {hash : Word} :
    ledgerFind ledger hash = none ↔ hash ∉ ledger.map LedgerEntry.hash := by
  rw [ledgerFind, Option.map_eq_none_iff, List.find?_eq_none, List.mem_map]
  constructor
  · rintro h ⟨entry, hmem, rfl⟩
    obtain ⟨n, hn, hget⟩ := List.getElem_of_mem hmem
    have hpair : (entry, n) ∈ ledger.zipIdx := by
      rw [List.mem_zipIdx_iff_getElem?, List.getElem?_eq_getElem hn, hget]
    exact h _ hpair (decide_eq_true rfl)
  · rintro h ⟨entry, n⟩ hpair hhash
    rw [List.mem_zipIdx_iff_getElem?] at hpair
    exact h ⟨entry, List.mem_of_getElem? hpair, of_decide_eq_true hhash⟩

/-- What has been appended is found from then on. -/
theorem ledgerFind_of_mem {ledger : List LedgerEntry} {entry : LedgerEntry}
    (hmem : entry ∈ ledger) : ∃ found, ledgerFind ledger entry.hash = some found := by
  refine Option.ne_none_iff_exists'.mp fun hnone => ?_
  exact ledgerFind_eq_none.mp hnone (List.mem_map_of_mem hmem)

/-- The last entry is found when no other has its hash. -/
theorem ledgerFind_concat (ledger : List LedgerEntry) (entry : LedgerEntry) (hash : Word) :
    ledgerFind (ledger ++ [entry]) hash = (ledgerFind ledger hash).or
      (if entry.hash = hash then some (entry, UInt64.ofNat (ledger.length + 1)) else none) := by
  rw [ledgerFind, ledgerFind, List.zipIdx_append, List.find?_append]
  cases ledger.zipIdx.find? fun e => e.1.hash = hash with
  | some found => rfl
  | none =>
    rw [Option.none_or, Nat.zero_add]
    by_cases hhash : entry.hash = hash <;> simp [hhash]

end Entries

section Agreement

/-- The node agrees with a ledger: its counter and its maps are the ledger's, and each entry is what
some submitted bytes read as, of a nonce that is used up. -/
structure Books (lib : Libraries) (submitted : Set Bytes) (ledger : List LedgerEntry)
    (s : NodeState) : Prop where
  blockNumber : s.blockNumber = UInt64.ofNat ledger.length
  receipts : ∀ hash, s.receipts hash = ledgerReceipt lib ledger hash
  transactions : ∀ hash, s.transactions hash = ledgerTransaction lib ledger hash
  distinct : (ledger.map LedgerEntry.hash).Nodup
  read : ∀ entry ∈ ledger, ∃ raw ∈ submitted, ∃ envelope,
    lib.Reads raw envelope entry.sender entry.fields ∧ entry.hash = lib.keccak256 raw
  used : ∀ entry ∈ ledger, entry.fields.nonce.toNat < nonceOf s entry.sender

/-- A new node has an empty ledger. -/
theorem books_new (lib : Libraries) (submitted : Set Bytes) (chainId : UInt64) :
    Books lib submitted [] (NodeState.new chainId) :=
  ⟨rfl, fun _ => rfl, fun _ => rfl, List.nodup_nil, nofun, nofun⟩

variable {submitted : Set Bytes} {ledger : List LedgerEntry} {s : NodeState} {raw : Bytes}

/-- Bytes that are mined now have not been mined before. -/
theorem Books.fresh (h : Books lib submitted ledger s) (hlaws : lib.Lawful)
    (hhash : Set.InjOn lib.keccak256 submitted) (hraw : raw ∈ submitted) {envelope : TxEnvelope}
    {sender : Address} {fields : TxFields} {result : ExecutionResult}
    (hmines : Mines lib s raw envelope sender fields result) :
    lib.keccak256 raw ∉ ledger.map LedgerEntry.hash := by
  intro hmem
  obtain ⟨entry, hentry, hsame⟩ := List.mem_map.mp hmem
  obtain ⟨raw', hraw', envelope', hreads, hown⟩ := h.read entry hentry
  obtain rfl : raw' = raw := hhash hraw' hraw (hown.symm.trans hsame)
  obtain ⟨-, hsender, hfields⟩ := hmines.reads.unique hreads
  have hused := h.used entry hentry
  have hnow : nonceOf s sender = fields.nonce.toNat :=
    congrArg UInt64.toNat (hlaws.nonceChecked _ _ result rfl hmines.executed)
  rw [hsender, hfields, hnow] at hused
  exact lt_irrefl _ hused

/-- An accepted submission appends its entry. -/
theorem Books.accept (h : Books lib submitted ledger s) (hlaws : lib.Lawful)
    (hhash : Set.InjOn lib.keccak256 submitted) (hraw : raw ∈ submitted) {envelope : TxEnvelope}
    {sender : Address} {fields : TxFields} {result : ExecutionResult}
    (hmines : Mines lib s raw envelope sender fields result) :
    Books lib submitted (ledger ++ [⟨lib.keccak256 raw, sender, fields, result⟩])
      (minedState lib s raw sender fields result) := by
  have hfresh := h.fresh hlaws hhash hraw hmines
  have hnumber : s.blockNumber + 1 = UInt64.ofNat (ledger.length + 1) := by
    rw [h.blockNumber, UInt64.ofNat_add]
    rfl
  have hfind (hash : Word) : ledgerFind
      (ledger ++ [⟨lib.keccak256 raw, sender, fields, result⟩]) hash =
        if hash = lib.keccak256 raw then
          some (⟨lib.keccak256 raw, sender, fields, result⟩, s.blockNumber + 1)
        else ledgerFind ledger hash := by
    rw [ledgerFind_concat, hnumber]
    by_cases hown : hash = lib.keccak256 raw
    · rw [if_pos hown, hown, ledgerFind_eq_none.mpr hfresh, Option.none_or, if_pos rfl]
    · rw [if_neg hown, if_neg (Ne.symm hown), Option.or_none]
  have hsend := sendRawTransaction_eq_ok.mpr ⟨envelope, sender, fields, result, hmines, rfl, rfl⟩
  obtain ⟨haccepted, hnext⟩ := node_of_ok hsend
  have hnames : names lib raw sender fields.nonce.toNat := ⟨envelope, fields, hmines.reads, rfl⟩
  refine ⟨?_, fun hash => ?_, fun hash => ?_, ?_, ?_, ?_⟩
  · rw [List.length_append, List.length_singleton, ← hnumber]
    rfl
  · rw [ledgerReceipt, hfind]
    by_cases hown : hash = lib.keccak256 raw
    · rw [if_pos hown, hown]
      exact (recorded_minedState s raw sender fields result).receipt
    · rw [if_neg hown]
      exact (Function.update_of_ne hown _ _).trans (h.receipts hash)
  · rw [ledgerTransaction, hfind]
    by_cases hown : hash = lib.keccak256 raw
    · rw [if_pos hown, hown]
      exact (recorded_minedState s raw sender fields result).transaction
    · rw [if_neg hown]
      exact (Function.update_of_ne hown _ _).trans (h.transactions hash)
  · rw [List.map_append, List.map_singleton, ← List.concat_eq_append]
    exact h.distinct.concat hfresh
  · intro entry hmem
    rcases List.mem_append.mp hmem with hold | hnew
    · exact h.read entry hold
    · rw [List.mem_singleton.mp hnew]
      exact ⟨raw, hraw, envelope, hmines.reads, rfl⟩
  · intro entry hmem
    rw [← hnext]
    rcases List.mem_append.mp hmem with hold | hnew
    · exact (h.used entry hold).trans_le ((node_usesUp hlaws).grows s raw entry.sender)
    · rw [List.mem_singleton.mp hnew]
      exact (node_usesUp hlaws).moved s raw sender _ haccepted hnames

/-- A rejected submission leaves the ledger. -/
theorem Books.reject (h : Books lib submitted ledger s) (hlaws : lib.Lawful) {e : String}
    {s' : NodeState} (hsend : sendRawTransaction lib raw s = .error e s') :
    Books lib submitted ledger s' := by
  have huntouched := untouched_of_error hlaws hsend
  have hnonce (a : Address) : nonceOf s' a = nonceOf s a := by
    rw [nonceOf, nonceOf, huntouched.view.nonce]
  exact ⟨huntouched.blockNumber.trans h.blockNumber,
    fun hash => (congrFun huntouched.receipts hash).trans (h.receipts hash),
    fun hash => (congrFun huntouched.transactions hash).trans (h.transactions hash),
    h.distinct, h.read, fun entry hmem => (hnonce entry.sender).symm ▸ h.used entry hmem⟩

/-- One more submission. -/
theorem ledgerOf_concat (lib : Libraries) (s : NodeState) (raws : List Bytes) (raw : Bytes) :
    ledgerOf lib s (raws ++ [raw]) =
      ledgerOf lib s raws ++ (minedEntry lib ((node lib).after s raws) raw).toList := by
  induction raws generalizing s with
  | nil =>
    rw [List.nil_append, ledgerOf, ledgerOf, ledgerOf, List.append_nil]
    rfl
  | cons first raws ih =>
    rw [List.cons_append, ledgerOf, ledgerOf, ih, List.append_assoc]
    rfl

/-- Run lemma: the node agrees with the ledger of its submissions. -/
theorem books_ledgerOf (hlaws : lib.Lawful) (hhash : Set.InjOn lib.keccak256 submitted)
    (chainId : UInt64) {raws : List Bytes} (hraws : ∀ raw ∈ raws, raw ∈ submitted) :
    Books lib submitted (ledgerOf lib (NodeState.new chainId) raws)
      (stateAfter lib chainId raws) := by
  induction raws using List.reverseRecOn with
  | nil => exact books_new lib submitted chainId
  | append_singleton raws raw ih =>
    obtain ⟨hraws, hraw⟩ := List.forall_mem_append.mp hraws
    have hraw := hraw raw (List.mem_singleton_self raw)
    rw [ledgerOf_concat, stateAfter, Intake.after_concat]
    change Books lib submitted (_ ++ (minedEntry lib (stateAfter lib chainId raws) raw).toList)
      ((node lib).next (stateAfter lib chainId raws) raw)
    cases hsend : sendRawTransaction lib raw (stateAfter lib chainId raws) with
    | ok hash s' =>
      obtain ⟨-, hnext⟩ := node_of_ok hsend
      obtain ⟨envelope, sender, fields, result, hmines, -, rfl⟩ :=
        sendRawTransaction_eq_ok.mp hsend
      have hentry : minedEntry lib (stateAfter lib chainId raws) raw =
          some ⟨lib.keccak256 raw, sender, fields, result⟩ :=
        minedEntry_eq_some.mpr ⟨rfl, envelope, hmines⟩
      rw [hnext, hentry]
      exact (ih hraws).accept hlaws hhash hraw hmines
    | error e s' =>
      obtain ⟨-, hnext⟩ := node_of_error hsend
      rw [hnext, minedEntry_of_error hsend, Option.toList_none, List.append_nil]
      exact (ih hraws).reject hlaws hsend

end Agreement

end SuwappuRevm.Node
