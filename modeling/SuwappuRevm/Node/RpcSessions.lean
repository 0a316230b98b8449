import SuwappuRevm.Node.Ledger
import SuwappuRevm.Node.Rpc

/-!
# Sessions with the server

However the requests of any number of clients interleave, the server is as good as one that serves
them one after the other, in the order in which they first lock the state. What it answers to
submissions and to queries about transactions comes from a ledger: each accepted submission appends
its transaction under a new hash, and a query finds under a hash what has been appended before it.
-/

namespace SuwappuRevm.Node

open Foundations Task

variable {lib : Libraries} {text : TextLibraries}

section Serial

variable (lib) in
/-- The stored hashes of blocks are those made from their numbers. -/
def BlockHashesSound (s : NodeState) : Prop :=
  ∀ n hash, s.blockHashes n = some hash → hash = blockHashOf lib n

/-- The answer about a block depends on its number only. -/
theorem BlockHashesSound.getBlock_eq {s : NodeState} (h : BlockHashesSound lib s) (n : UInt64) :
    getBlock lib s n = blockValue n (blockHashOf lib n) := by
  rw [getBlock]
  cases hstored : s.blockHashes n with
  | none => rfl
  | some hash => rw [h n hash hstored, Option.getD_some]

/-- A submission stores the hash of its block at most. -/
theorem BlockHashesSound.next {s : NodeState} (h : BlockHashesSound lib s) (raw : Bytes) :
    BlockHashesSound lib (afterSubmission lib s raw) := by
  intro n hash hstored
  rw [afterSubmission] at hstored
  cases hsend : sendRawTransaction lib raw s with
  | error e s' =>
    rw [hsend, sendRawTransaction_error_record hsend] at hstored
    exact h n hash hstored
  | ok txHash s' =>
    obtain ⟨_, sender, fields, result, -, -, rfl⟩ := sendRawTransaction_eq_ok.mp hsend
    rw [hsend] at hstored
    change Function.update s.blockHashes (s.blockNumber + 1)
      (some (blockHashOf lib (s.blockNumber + 1))) n = some hash at hstored
    by_cases hn : n = s.blockNumber + 1
    · subst hn
      rw [Function.update_self] at hstored
      exact (Option.some.inj hstored).symm
    · rw [Function.update_of_ne hn] at hstored
      exact h n hash hstored

/-- A new node has no blocks. -/
theorem blockHashesSound_new (chainId : UInt64) : BlockHashesSound lib (NodeState.new chainId) :=
  fun _ _ hstored => nomatch hstored

/-- A parameter that does not parse is answered without the state. -/
theorem linear_withParam {A : Type} {I : NodeState → Prop} {id : Value} {param : Except String A}
    {handler : A → Task NodeState RpcResponse} (h : ∀ a, (handler a).Linear I) :
    (withParam id param handler).Linear I := by
  cases param with
  | ok a => exact h a
  | error e => exact linear_done _

/-- The first section of every request settles its answer. -/
theorem rpcHandler_linear (lib : Libraries) (text : TextLibraries) (request : RpcRequest) :
    (rpcHandler lib text request).Linear (BlockHashesSound lib) := by
  rw [rpcHandler, dispatch.eq_def]
  split
  · exact linear_query fun _ _ => ⟨_, .done⟩
  · exact linear_query fun _ _ => ⟨_, .done⟩
  · exact linear_query fun _ _ => ⟨_, .done⟩
  · exact linear_done _
  · exact linear_done _
  · exact linear_withParam fun _ => linear_query fun _ _ => ⟨_, .done⟩
  · exact linear_withParam fun _ => linear_query fun _ _ => ⟨_, .done⟩
  · exact linear_withParam fun _ => linear_query fun _ _ => ⟨_, .done⟩
  · exact linear_withParam fun _ => linear_query fun _ _ => ⟨_, .done⟩
  · exact linear_withParam fun _ => linear_query fun _ _ => ⟨_, .done⟩
  · exact linear_withParam fun raw => linear_locked (fun s hs => hs.next raw) _
  · exact linear_withParam fun _ => linear_query fun _ _ => ⟨_, .done⟩
  · exact linear_withParam fun _ => linear_query fun _ _ => ⟨_, .done⟩
  · -- between the two readings only the number counts
    exact linear_query fun _ _ => ⟨_, settled_query (fun _ hs => hs.getBlock_eq _) .done⟩
  · exact linear_done _

/-- A parameter that does not parse needs no section. -/
theorem within_withParam {A : Type} {k : ℕ} {id : Value} {param : Except String A}
    {handler : A → Task NodeState RpcResponse} (h : ∀ a, (handler a).Within k) :
    (withParam id param handler).Within k := by
  cases param with
  | ok a => exact h a
  | error e => cases k <;> trivial

/-- Every request takes two sections at most. -/
theorem rpcHandler_within (lib : Libraries) (text : TextLibraries) (request : RpcRequest) :
    (rpcHandler lib text request).Within 2 := by
  rw [rpcHandler, dispatch.eq_def]
  split
  · exact fun _ => trivial
  · exact fun _ => trivial
  · exact fun _ => trivial
  · trivial
  · trivial
  · exact within_withParam fun _ _ => trivial
  · exact within_withParam fun _ _ => trivial
  · exact within_withParam fun _ _ => trivial
  · exact within_withParam fun _ _ => trivial
  · exact within_withParam fun _ _ => trivial
  · exact within_withParam fun _ _ => trivial
  · exact within_withParam fun _ _ => trivial
  · exact within_withParam fun _ _ => trivial
  · exact fun _ _ => trivial
  · trivial

/-- The server is serial. Whatever requests come in and however their sections interleave, the
state of a new node is the one after the same requests one after the other, in the order of their
first sections; every answer is the one that its request gets there; and a request that has no
answer yet has it after its next section. -/
theorem rpc_serialized (lib : Libraries) (text : TextLibraries) (chainId : UInt64)
    (events : List (ServiceEvent RpcRequest)) :
    let handler := rpcHandler lib text
    let c := serve handler (NodeState.new chainId) events
    c.state = serialState handler (NodeState.new chainId) c.taken ∧
      (∀ n response, c.answer n = some response →
        serialAnswer handler (NodeState.new chainId) c.taken n = some response) ∧
      ∀ n, n < c.taken.length →
        ∃ response, (c.next handler (.resume n)).answer n = some response := by
  have hserial := serve_serial (rpcHandler_linear lib text) (blockHashesSound_new chainId) events
  have hwithin := serve_within (rpcHandler_within lib text) (NodeState.new chainId) events
  exact ⟨hserial.state, fun n response => hserial.answer_eq,
    fun n hn => Service.answered_by_next hwithin hn⟩

end Serial

section Sessions

/-- The bytes that a request submits. -/
def submission (text : TextLibraries) (request : RpcRequest) : Option Bytes :=
  if request.method = "eth_sendRawTransaction" then
    (submittedBytes text request.paramsOrEmpty).toOption
  else none

/-- A parameter that does not parse leaves the state. -/
theorem withParam_state {A : Type} {id : Value} {param : Except String A}
    {handler : A → Task NodeState RpcResponse} {s : NodeState}
    (h : ∀ a, ((handler a).run s).2 = s) : ((withParam id param handler).run s).2 = s := by
  cases param with
  | ok a => exact h a
  | error e => rfl

/-- Only the submission in a request moves the state. -/
theorem rpcHandler_state (lib : Libraries) (text : TextLibraries) (s : NodeState)
    (request : RpcRequest) : ((rpcHandler lib text request).run s).2 =
      (submission text request).elim s (afterSubmission lib s) := by
  by_cases hmethod : request.method = "eth_sendRawTransaction"
  · rw [rpcHandler, submission, if_pos hmethod, hmethod, dispatch]
    cases submittedBytes text request.paramsOrEmpty <;> rfl
  · rw [submission, if_neg hmethod, Option.elim_none, rpcHandler, dispatch.eq_def]
    split
    · rfl
    · rfl
    · rfl
    · rfl
    · rfl
    · exact withParam_state fun _ => rfl
    · exact withParam_state fun _ => rfl
    · exact withParam_state fun _ => rfl
    · exact withParam_state fun _ => rfl
    · exact withParam_state fun _ => rfl
    next hsend => exact absurd hsend hmethod
    · exact withParam_state fun _ => rfl
    · exact withParam_state fun _ => rfl
    · rfl
    · rfl

/-- Requests one after the other take a new node where their submissions take it. -/
theorem serialState_rpcHandler (lib : Libraries) (text : TextLibraries) (chainId : UInt64)
    (requests : List RpcRequest) :
    serialState (rpcHandler lib text) (NodeState.new chainId) requests =
      stateAfter lib chainId (requests.filterMap (submission text)) := by
  induction requests using List.reverseRecOn with
  | nil => rfl
  | append_singleton requests request ih =>
    rw [serialState_concat, rpcHandler_state, ih, List.filterMap_append, stateAfter, stateAfter,
      Intake.after_append]
    cases hsubmission : submission text request with
    | none => rw [List.filterMap_cons_none hsubmission]; rfl
    | some raw => rw [List.filterMap_cons_some hsubmission]; rfl

/-- The ledger that a request meets when the requests are served one after the other. -/
def ledgerBefore (lib : Libraries) (text : TextLibraries) (chainId : UInt64)
    (requests : List RpcRequest) (n : ℕ) : List LedgerEntry :=
  ledgerOf lib (NodeState.new chainId) ((requests.take n).filterMap (submission text))

/-- A request appends the entry of its submission, if there is one. -/
theorem ledgerBefore_succ {chainId : UInt64} {requests : List RpcRequest} {n : ℕ}
    {request : RpcRequest} (hn : requests[n]? = some request) :
    ledgerBefore lib text chainId requests (n + 1) =
      ledgerBefore lib text chainId requests n ++ ((submission text request).bind
        (minedEntry lib (serialState (rpcHandler lib text) (NodeState.new chainId)
          (requests.take n)))).toList := by
  rw [ledgerBefore, ledgerBefore, List.take_add_one, hn, List.filterMap_append,
    serialState_rpcHandler]
  cases hsubmission : submission text request with
  | none =>
    rw [Option.toList_some, List.filterMap_cons_none hsubmission]
    simp
  | some raw =>
    rw [Option.toList_some, List.filterMap_cons_some hsubmission, List.filterMap_nil,
      ledgerOf_concat]
    rfl

/-- What the answers of a service are made from: a ledger that each request finds as the requests
before it have left it. -/
structure AnswersFrom (lib : Libraries) (text : TextLibraries)
    (c : Service NodeState RpcRequest RpcResponse) (ledger : ℕ → List LedgerEntry) : Prop where
  /-- Entries are appended, under new hashes. -/
  appends : ∀ n, ledger n <+: ledger (n + 1) ∧ ((ledger n).map LedgerEntry.hash).Nodup
  /-- Only submissions append. -/
  queries : ∀ n request, c.taken[n]? = some request → request.method ≠ "eth_sendRawTransaction" →
    ledger (n + 1) = ledger n
  /-- A submission is answered with the hash of the entry it appends, or an error. -/
  submissions : ∀ n request response, c.taken[n]? = some request → c.answer n = some response →
    request.method = "eth_sendRawTransaction" →
    (∃ entry, ledger (n + 1) = ledger n ++ [entry] ∧
      response.result = some (.string (hexData (Word.toBytes entry.hash)))) ∨
    (ledger (n + 1) = ledger n ∧ response.result = none)
  /-- The number of the block counts the entries, up to its range. -/
  blockNumber : ∀ n request response, c.taken[n]? = some request → c.answer n = some response →
    request.method = "eth_blockNumber" →
    response.result = some (.string (hexQuantity ((ledger n).length % 2 ^ 64)))
  /-- A receipt is the ledger's, or there is none. -/
  receipts : ∀ n request response hash, c.taken[n]? = some request → c.answer n = some response →
    request.method = "eth_getTransactionReceipt" →
    parseHash text request.paramsOrEmpty 0 = .ok hash →
    response.result = some ((ledgerReceipt lib (ledger n) hash).elim .null receiptValue)
  /-- A transaction is the ledger's, or there is none. -/
  transactions : ∀ n request response hash, c.taken[n]? = some request →
    c.answer n = some response → request.method = "eth_getTransactionByHash" →
    parseHash text request.paramsOrEmpty 0 = .ok hash →
    response.result = some ((ledgerTransaction lib (ledger n) hash).elim .null storedTxValue)

/-- The bytes that the requests of some events submit. -/
def submittedIn (text : TextLibraries) (events : List (ServiceEvent RpcRequest)) : Set Bytes :=
  {raw | ∃ request, ServiceEvent.start request ∈ events ∧ submission text request = some raw}

variable {chainId : UInt64} {events : List (ServiceEvent RpcRequest)}

/-- The requests of a service come from its events. -/
theorem start_of_taken {c : Service NodeState RpcRequest RpcResponse}
    (hc : c = serve (rpcHandler lib text) (NodeState.new chainId) events) {request : RpcRequest}
    (hmem : request ∈ c.taken) : ServiceEvent.start request ∈ events := by
  rw [hc, serve_taken, List.mem_filterMap] at hmem
  obtain ⟨event, hevent, hrequest⟩ := hmem
  cases event with
  | start request' =>
    cases hrequest
    exact hevent
  | resume n => cases hrequest

/-- Before each request the node agrees with the ledger. -/
theorem books_before (hlaws : lib.Lawful)
    (hhash : Set.InjOn lib.keccak256 (submittedIn text events))
    {c : Service NodeState RpcRequest RpcResponse}
    (hc : c = serve (rpcHandler lib text) (NodeState.new chainId) events) (n : ℕ) :
    Books lib (submittedIn text events) (ledgerBefore lib text chainId c.taken n)
      (serialState (rpcHandler lib text) (NodeState.new chainId) (c.taken.take n)) := by
  rw [serialState_rpcHandler]
  refine books_ledgerOf hlaws hhash chainId fun raw hraw => ?_
  obtain ⟨request, hrequest, hsubmission⟩ := List.mem_filterMap.mp hraw
  exact ⟨request, start_of_taken hc (List.mem_of_mem_take hrequest), hsubmission⟩

/-- What a request is answered, when it is answered. -/
theorem answer_eq_run {c : Service NodeState RpcRequest RpcResponse}
    (hc : c = serve (rpcHandler lib text) (NodeState.new chainId) events) {n : ℕ}
    {request : RpcRequest} {response : RpcResponse} (hrequest : c.taken[n]? = some request)
    (hanswer : c.answer n = some response) :
    response = ((rpcHandler lib text request).run
      (serialState (rpcHandler lib text) (NodeState.new chainId) (c.taken.take n))).1 := by
  have hserial := serve_serial (rpcHandler_linear lib text) (blockHashesSound_new chainId) events
  rw [← hc] at hserial
  have hserialAnswer := hserial.answer_eq hanswer
  rw [serialAnswer, hrequest, Option.map_some] at hserialAnswer
  exact (Option.some.inj hserialAnswer).symm

/-- The ledger only grows. -/
theorem ledgerBefore_grows (lib : Libraries) (text : TextLibraries) (chainId : UInt64)
    (requests : List RpcRequest) {m n : ℕ} (hmn : m ≤ n) :
    ledgerBefore lib text chainId requests m <+: ledgerBefore lib text chainId requests n := by
  induction n, hmn using Nat.le_induction with
  | base => exact List.prefix_rfl
  | succ n hmn ih =>
    refine ih.trans ?_
    cases hrequest : requests[n]? with
    | none =>
      have hend := List.getElem?_eq_none_iff.mp hrequest
      rw [ledgerBefore, ledgerBefore, List.take_of_length_le hend,
        List.take_of_length_le (hend.trans (Nat.le_succ n))]
    | some request =>
      rw [ledgerBefore_succ hrequest]
      exact List.prefix_append _ _

section Answered

variable {c : Service NodeState RpcRequest RpcResponse} {n : ℕ} {request : RpcRequest}
  {response : RpcResponse} {hash : Word}

/-- A submission is answered with the hash of the entry it appends, or appends nothing. -/
theorem submission_answer
    (hc : c = serve (rpcHandler lib text) (NodeState.new chainId) events)
    (hrequest : c.taken[n]? = some request) (hanswer : c.answer n = some response)
    (hmethod : request.method = "eth_sendRawTransaction") :
    let ledger := ledgerBefore lib text chainId c.taken
    (∃ entry, ledger (n + 1) = ledger n ++ [entry] ∧
      response.result = some (.string (hexData (Word.toBytes entry.hash)))) ∨
    (ledger (n + 1) = ledger n ∧ response.result = none) := by
  dsimp only
  rw [answer_eq_run hc hrequest hanswer, rpcHandler, hmethod, dispatch,
    ledgerBefore_succ hrequest, submission, if_pos hmethod]
  cases hraw : submittedBytes text request.paramsOrEmpty with
  | error e => exact .inr ⟨List.append_nil _, rfl⟩
  | ok raw =>
    change (∃ entry, _ ++ (minedEntry lib _ raw).toList = _ ++ [entry] ∧
      (submissionResponse lib _ raw _).result = _) ∨ (_ ++ (minedEntry lib _ raw).toList = _ ∧
        (submissionResponse lib _ raw _).result = none)
    rw [submissionResponse]
    cases hsend : sendRawTransaction lib raw
      (serialState (rpcHandler lib text) (NodeState.new chainId) (c.taken.take n)) with
    | ok hash s' =>
      obtain ⟨entry, hentry, rfl⟩ := minedEntry_of_ok hsend
      exact .inl ⟨entry, by rw [hentry, Option.toList_some], rfl⟩
    | error e s' =>
      refine .inr ⟨?_, rfl⟩
      rw [minedEntry_of_error hsend, Option.toList_none, List.append_nil]

/-- The number of the block is answered from the ledger. -/
theorem blockNumber_answer (hlaws : lib.Lawful)
    (hhash : Set.InjOn lib.keccak256 (submittedIn text events))
    (hc : c = serve (rpcHandler lib text) (NodeState.new chainId) events)
    (hrequest : c.taken[n]? = some request) (hanswer : c.answer n = some response)
    (hmethod : request.method = "eth_blockNumber") :
    response.result = some (.string (hexQuantity
      ((ledgerBefore lib text chainId c.taken n).length % 2 ^ 64))) := by
  rw [answer_eq_run hc hrequest hanswer, rpcHandler, hmethod, dispatch]
  have hcount := congrArg UInt64.toNat (books_before hlaws hhash hc n).blockNumber
  rw [UInt64.toNat_ofNat'] at hcount
  exact congrArg (fun k => some (Value.string (hexQuantity k))) hcount

/-- A query for a receipt is answered from the ledger. -/
theorem receipt_answer (hlaws : lib.Lawful)
    (hhash : Set.InjOn lib.keccak256 (submittedIn text events))
    (hc : c = serve (rpcHandler lib text) (NodeState.new chainId) events)
    (hrequest : c.taken[n]? = some request) (hanswer : c.answer n = some response)
    (hmethod : request.method = "eth_getTransactionReceipt")
    (hparse : parseHash text request.paramsOrEmpty 0 = .ok hash) :
    response.result = some ((ledgerReceipt lib
      (ledgerBefore lib text chainId c.taken n) hash).elim .null receiptValue) := by
  rw [answer_eq_run hc hrequest hanswer, rpcHandler, hmethod, dispatch, hparse]
  exact congrArg (fun r => some (Option.elim r .null receiptValue))
    ((books_before hlaws hhash hc n).receipts hash)

/-- A query for a transaction is answered from the ledger. -/
theorem transaction_answer (hlaws : lib.Lawful)
    (hhash : Set.InjOn lib.keccak256 (submittedIn text events))
    (hc : c = serve (rpcHandler lib text) (NodeState.new chainId) events)
    (hrequest : c.taken[n]? = some request) (hanswer : c.answer n = some response)
    (hmethod : request.method = "eth_getTransactionByHash")
    (hparse : parseHash text request.paramsOrEmpty 0 = .ok hash) :
    response.result = some ((ledgerTransaction lib
      (ledgerBefore lib text chainId c.taken n) hash).elim .null storedTxValue) := by
  rw [answer_eq_run hc hrequest hanswer, rpcHandler, hmethod, dispatch, hparse]
  exact congrArg (fun t => some (Option.elim t .null storedTxValue))
    ((books_before hlaws hhash hc n).transactions hash)

end Answered

/-- The server refines an append-only ledger. Whatever requests come in and however they interleave,
a submission is answered with a hash exactly when it appends an entry, under that hash, which no
other entry has; no other request appends; and the block number, the receipts and the transactions
that later requests are answered are the ledger's as they find it. -/
theorem rpc_answers_from_ledger (lib : Libraries) (hlaws : lib.Lawful) (text : TextLibraries)
    (chainId : UInt64) (events : List (ServiceEvent RpcRequest))
    (hhash : Set.InjOn lib.keccak256 (submittedIn text events)) :
    let c := serve (rpcHandler lib text) (NodeState.new chainId) events
    AnswersFrom lib text c (ledgerBefore lib text chainId c.taken) where
  appends n := ⟨ledgerBefore_grows lib text chainId _ (Nat.le_succ n),
    (books_before hlaws hhash rfl n).distinct⟩
  queries := by
    intro n request hrequest hmethod
    rw [ledgerBefore_succ hrequest, submission, if_neg hmethod]
    exact List.append_nil _
  submissions _ _ _ hrequest hanswer hmethod := submission_answer rfl hrequest hanswer hmethod
  blockNumber _ _ _ hrequest hanswer hmethod :=
    blockNumber_answer hlaws hhash rfl hrequest hanswer hmethod
  receipts _ _ _ _ hrequest hanswer hmethod hparse :=
    receipt_answer hlaws hhash rfl hrequest hanswer hmethod hparse
  transactions _ _ _ _ hrequest hanswer hmethod hparse :=
    transaction_answer hlaws hhash rfl hrequest hanswer hmethod hparse

/-- The answers of a service can be sent back to it. -/
structure RoundTrips (lib : Libraries) (c : Service NodeState RpcRequest RpcResponse) : Prop where
  /-- The text that answers a submission finds the receipt and the transaction that state it. -/
  hashes : ∀ m n request request' response response' hash, m < n → c.taken[m]? = some request →
    c.taken[n]? = some request' → request.method = "eth_sendRawTransaction" →
    c.answer m = some response → response.result = some (.string hash) →
    (request'.paramsOrEmpty.getIdx 0).bind Value.asStr = some hash →
    c.answer n = some response' →
    (request'.method = "eth_getTransactionReceipt" → ∃ receipt : Receipt,
      response'.result = some (receiptValue receipt) ∧ receipt.transactionHash = hash) ∧
    (request'.method = "eth_getTransactionByHash" → ∃ tx : StoredTx,
      response'.result = some (storedTxValue tx) ∧ tx.hash = hash)
  /-- The text of a block number finds the block with that number, under the hash that receipts
  state for it. -/
  blocks : ∀ n request response number, c.taken[n]? = some request →
    c.answer n = some response → request.method = "eth_getBlockByNumber" →
    (request.paramsOrEmpty.getIdx 0).bind Value.asStr = some (hexQuantity number.toNat) →
    response.result = some (blockValue number (blockHashOf lib number))

/-- Whatever the server answers can be sent back to it. In every service, the hash that answers a
submission finds its receipt and its transaction in all later queries, and the text of a block
number finds the block under the hash that the receipts of the block state. -/
theorem rpc_round_trips (lib : Libraries) (hlaws : lib.Lawful) (text : TextLibraries)
    (hdecode : ∀ bytes, text.hexDecode (hexEncode bytes) = .ok bytes) (chainId : UInt64)
    (events : List (ServiceEvent RpcRequest))
    (hhash : Set.InjOn lib.keccak256 (submittedIn text events)) :
    RoundTrips lib (serve (rpcHandler lib text) (NodeState.new chainId) events) where
  hashes := by
    intro m n request request' response response' hash hmn hm hn hmethod hanswer hresult hparam
      hanswer'
    rcases submission_answer rfl hm hanswer hmethod with ⟨entry, happend, hentry⟩ | ⟨-, hnone⟩
    · obtain rfl : hexData (Word.toBytes entry.hash) = hash := by
        rw [hresult] at hentry
        exact (Value.string.inj (Option.some.inj hentry)).symm
      -- the entry is still there when the query comes
      have hmem := (ledgerBefore_grows lib text chainId _ (Nat.succ_le_of_lt hmn)).subset
        (happend ▸ List.mem_append_right _ (List.mem_singleton_self entry))
      obtain ⟨found, hfound⟩ := ledgerFind_of_mem hmem
      have hparse := parseHash_hexData hdecode hparam
      refine ⟨fun hreceipt => ?_, fun htransaction => ?_⟩
      · rw [receipt_answer hlaws hhash rfl hn hanswer' hreceipt hparse, ledgerReceipt, hfound]
        exact ⟨_, rfl, rfl⟩
      · rw [transaction_answer hlaws hhash rfl hn hanswer' htransaction hparse, ledgerTransaction,
          hfound]
        exact ⟨_, rfl, rfl⟩
    · rw [hresult] at hnone
      cases hnone
  blocks := by
    intro n request response number hn hanswer hmethod hparam
    have hsound := serialState_invariant (rpcHandler_linear lib text)
      (blockHashesSound_new chainId) ((serve (rpcHandler lib text) (NodeState.new chainId)
        events).taken.take n)
    rw [answer_eq_run rfl hn hanswer, rpcHandler, hmethod, dispatch, ← hsound.getBlock_eq number]
    exact congrArg (fun k => some (getBlock lib _ k)) (parseBlockTag_hexQuantity _ hparam)

end Sessions

section Sample

/-- The bytes that pairs of digits write. -/
def hexPairs : List Char → Except String Bytes
  | high :: low :: rest =>
    match hexDigit high, hexDigit low with
    | some h, some l => (hexPairs rest).map fun bytes => UInt8.ofNat (16 * h + l) :: bytes
    | _, _ => .error "Invalid character"
  | [_] => .error "Odd number of digits"
  | [] => .ok []

/-- Library functions on plain texts. -/
def plainText : TextLibraries where
  parseAddress s := (hexPairs (stripHexPrefix s).toList).bind fun bytes =>
    if bytes.length = 20 then .ok (Fin.ofNat (2 ^ 160) (beNat bytes))
    else .error "invalid string length"
  hexDecode s := hexPairs s.toList
  parseU256 s := match hexNumber s.toList with
    | some n => if n < 2 ^ 256 then .ok (Fin.ofNat (2 ^ 256) n) else .error "number too large"
    | none => .error "invalid digit"
  debug := String.quote

/-- Written bytes are decoded again. -/
theorem plainText_decodes (bytes : Bytes) : plainText.hexDecode (hexEncode bytes) = .ok bytes := by
  rw [hexEncode]
  change hexPairs (String.ofList _).toList = .ok bytes
  rw [String.toList_ofList]
  induction bytes with
  | nil => rfl
  | cons b bytes ih =>
    have hb : b.toNat < 256 := b.toNat_lt
    have hbyte : 16 * (b.toNat / 16) + b.toNat % 16 = b.toNat := Nat.div_add_mod _ _
    rw [List.flatMap_cons, List.cons_append, List.cons_append, List.nil_append, hexPairs,
      hexDigit_digitChar (by omega), hexDigit_digitChar (by omega), ih]
    dsimp only [Except.map]
    rw [hbyte, UInt8.ofNat_toNat]

/-- The submission of some bytes. -/
def sendRequest (raw : Bytes) : RpcRequest :=
  ⟨some (.number "1"), "eth_sendRawTransaction", some (.array [.string (hexData raw)])⟩

/-- A query for the receipt of a hash. -/
def receiptRequest (hash : Word) : RpcRequest :=
  ⟨some (.number "2"), "eth_getTransactionReceipt",
    some (.array [.string (hexData (Word.toBytes hash))])⟩

/-- The empty call is submitted, and its receipt is asked for. -/
def emptyCallEvents : List (ServiceEvent RpcRequest) :=
  [.start (sendRequest emptyCallBytes),
    .start (receiptRequest (emptyCallLibraries.keccak256 emptyCallBytes))]

/-- What the request submits. -/
theorem submission_sendRequest (raw : Bytes) :
    submission plainText (sendRequest raw) = some raw := by
  rw [submission, if_pos (show (sendRequest raw).method = "eth_sendRawTransaction" from rfl)]
  change (decodeHexInput plainText (hexData raw)).toOption = some raw
  rw [decodeHexInput, hexData, stripHexPrefix_append, plainText_decodes]
  rfl

/-- The events submit only the empty call. -/
theorem submittedIn_emptyCallEvents {raw : Bytes}
    (h : raw ∈ submittedIn plainText emptyCallEvents) : raw = emptyCallBytes := by
  obtain ⟨request, hstart, hsubmission⟩ := h
  rcases List.mem_cons.mp hstart with hsend | hquery
  · cases hsend
    rw [submission_sendRequest] at hsubmission
    exact (Option.some.inj hsubmission).symm
  · cases List.mem_singleton.mp hquery
    rw [submission, if_neg (by decide)] at hsubmission
    cases hsubmission

/-- So no two submissions of the events have one hash. -/
theorem injOn_emptyCallEvents :
    Set.InjOn emptyCallLibraries.keccak256 (submittedIn plainText emptyCallEvents) :=
  fun _ hraw _ hraw' _ =>
    (submittedIn_emptyCallEvents hraw).trans (submittedIn_emptyCallEvents hraw').symm

/-- The service of the two requests. -/
def emptyCallService : Service NodeState RpcRequest RpcResponse :=
  serve (rpcHandler emptyCallLibraries plainText) (NodeState.new 31337) emptyCallEvents

/-- The submission of the empty call appends to the ledger. -/
theorem rpc_answers_from_ledger_emptyCall :
    AnswersFrom emptyCallLibraries plainText emptyCallService
      (ledgerBefore emptyCallLibraries plainText 31337 emptyCallService.taken) ∧
    (ledgerBefore emptyCallLibraries plainText 31337 emptyCallService.taken 1).length = 1 := by
  refine ⟨rpc_answers_from_ledger emptyCallLibraries (lawful_of_emptyCalls rfl) plainText 31337
    emptyCallEvents injOn_emptyCallEvents, ?_⟩
  have hrequest : emptyCallService.taken[0]? = some (sendRequest emptyCallBytes) := by
    rw [emptyCallService, serve_taken]
    rfl
  have hmined : (minedEntry emptyCallLibraries (NodeState.new 31337) emptyCallBytes).isSome =
      true := by decide +kernel
  obtain ⟨entry, hentry⟩ := Option.isSome_iff_exists.mp hmined
  rw [ledgerBefore_succ hrequest, submission_sendRequest, Option.bind_some, List.take_zero]
  change (_ ++ (minedEntry emptyCallLibraries (NodeState.new 31337) emptyCallBytes).toList).length =
    1
  rw [hentry]
  rfl

/-- The answers to the two requests can be sent back. -/
theorem rpc_round_trips_emptyCall : RoundTrips emptyCallLibraries emptyCallService :=
  rpc_round_trips emptyCallLibraries (lawful_of_emptyCalls rfl) plainText plainText_decodes 31337
    emptyCallEvents injOn_emptyCallEvents

end Sample

end SuwappuRevm.Node
