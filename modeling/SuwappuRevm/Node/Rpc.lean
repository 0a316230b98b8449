import SuwappuRevm.Foundations.Interleaving
import SuwappuRevm.Node.SendSpec

/-!
# The JSON-RPC server

A request is parsed and dispatched by its method, and each method of the node that it calls locks
the state once. Most requests lock it once; the one for a block first reads the current number and
then the block, and other requests may come between. A call is executed on a copy of the database.
The parsing of addresses, of hexadecimal bytes and of 256-bit numbers, and the quoted form of a
text come from libraries and are parameters.
-/

namespace SuwappuRevm.Node

open Foundations Task

section Json

/-- `serde_json::Value`; a number is kept as its text. -/
inductive Value
  | null
  | bool (b : Bool)
  | number (text : String)
  | string (text : String)
  | array (items : List Value)
  | object (fields : List (String × Value))

/-- `Value::get` with an index. -/
def Value.getIdx : Value → ℕ → Option Value
  | .array items, idx => items[idx]?
  | _, _ => none

/-- `Value::get` with a key. -/
def Value.getKey : Value → String → Option Value
  | .object fields, key => fields.lookup key
  | _, _ => none

/-- `Value::as_str`. -/
def Value.asStr : Value → Option String
  | .string text => some text
  | _ => none

/-- An optional text. -/
def Value.ofText (text : Option String) : Value := text.elim .null .string

/-- `RpcRequest`; the version is never read. -/
structure RpcRequest where
  id : Option Value
  method : String
  params : Option Value

/-- `RpcError`. -/
structure RpcError where
  code : ℤ
  message : String

/-- `RpcResponse`. -/
structure RpcResponse where
  id : Value
  result : Option Value
  error : Option RpcError

/-- `RpcResponse::ok`. -/
def RpcResponse.ok (id result : Value) : RpcResponse := ⟨id, some result, none⟩

/-- `RpcResponse::err`. -/
def RpcResponse.err (id : Value) (code : ℤ) (msg : String) : RpcResponse :=
  ⟨id, none, some ⟨code, msg⟩⟩

/-- The parameters that a request is dispatched with. -/
def RpcRequest.paramsOrEmpty (req : RpcRequest) : Value := req.params.getD (.array [])

end Json

/-- The library functions: `Address::from_str`, `hex::decode` and `U256::from_str_radix`, which
give the text of their error, and the debug form of a text. -/
structure TextLibraries where
  parseAddress : String → Except String Address
  hexDecode : String → Except String Bytes
  parseU256 : String → Except String Word
  debug : String → String

section Parsers

/-- `strip_prefix("0x")`, or the text as it is. -/
def stripHexPrefix (s : String) : String :=
  match s.toList with
  | '0' :: 'x' :: rest => String.ofList rest
  | _ => s

/-- `to_digit(16)`. -/
def hexDigit (c : Char) : Option ℕ :=
  if '0' ≤ c ∧ c ≤ '9' then some (c.toNat - 48)
  else if 'a' ≤ c ∧ c ≤ 'f' then some (c.toNat - 87)
  else if 'A' ≤ c ∧ c ≤ 'F' then some (c.toNat - 55)
  else none

/-- The number that some digits write. -/
def hexNumber (digits : List Char) : Option ℕ :=
  digits.foldlM (fun n c => (hexDigit c).map fun digit => n * 16 + digit) 0

/-- `u64::from_str_radix(_, 16)`, which allows a plus before the digits. -/
def u64FromStrRadix (s : String) : Option UInt64 :=
  let digits := match s.toList with
    | '+' :: c :: rest => c :: rest
    | chars => chars
  if digits = [] then none
  else (hexNumber digits).bind fun n => if n < 2 ^ 64 then some (UInt64.ofNat n) else none

variable (text : TextLibraries)

/-- `parse_address`. -/
def parseAddress (params : Value) (idx : ℕ) : Except String Address :=
  match (params.getIdx idx).bind Value.asStr with
  | none => .error ("missing param[" ++ toString idx ++ "] (address)")
  | some s => (text.parseAddress s).mapError fun e =>
    "invalid address " ++ text.debug s ++ ": " ++ e

/-- `parse_hash`. -/
def parseHash (params : Value) (idx : ℕ) : Except String Word :=
  match (params.getIdx idx).bind Value.asStr with
  | none => .error ("missing param[" ++ toString idx ++ "] (hash)")
  | some s => do
    let bytes ← (text.hexDecode (stripHexPrefix s)).mapError fun e =>
      "invalid hash " ++ text.debug s ++ ": " ++ e
    failIf (bytes.length ≠ 32) ("hash must be 32 bytes, got " ++ toString bytes.length)
    return Word.ofBytes bytes

/-- `parse_block_tag`. -/
def parseBlockTag (params : Value) (idx : ℕ) (current : UInt64) : UInt64 :=
  match (params.getIdx idx).bind Value.asStr with
  | none => current
  | some s =>
    if s = "latest" ∨ s = "pending" ∨ s = "safe" ∨ s = "finalized" then current
    else if s = "earliest" then 0
    else (u64FromStrRadix (stripHexPrefix s)).getD current

/-- `decode_hex_input`. -/
def decodeHexInput (s : String) : Except String Bytes :=
  (text.hexDecode (stripHexPrefix s)).mapError fun e => "invalid hex: " ++ e

/-- `parse_u256_hex`. -/
def parseU256Hex (s : String) : Except String Word :=
  let digits := stripHexPrefix s
  (text.parseU256 digits).mapError fun e => "invalid U256 hex " ++ text.debug digits ++ ": " ++ e

/-- What `parse_call_object` returns. -/
structure CallObject where
  caller : Option Address
  callee : Option Address
  data : Bytes
  value : Word

/-- `parse_call_object`. Addresses that do not parse count as missing; data and value do not. -/
def parseCallObject (params : Value) : Except String CallObject := do
  let obj ← match params.getIdx 0 with
    | none => .error "missing call object"
    | some obj => .ok obj
  let caller := ((obj.getKey "from").bind Value.asStr).bind fun s => (text.parseAddress s).toOption
  let callee := ((obj.getKey "to").bind Value.asStr).bind fun s =>
    if s = "0x" ∨ s = "" then none else (text.parseAddress s).toOption
  let data ← match ((obj.getKey "data").or (obj.getKey "input")).bind Value.asStr with
    | none => .ok []
    | some s => decodeHexInput text s
  let value ← match (obj.getKey "value").bind Value.asStr with
    | none => .ok 0
    | some s => parseU256Hex text s
  return ⟨caller, callee, data, value⟩

end Parsers

section Answers

variable (lib : Libraries)

/-- `Receipt` as JSON. -/
def receiptValue (r : Receipt) : Value := .object [
  ("status", .string r.status),
  ("gasUsed", .string r.gasUsed),
  ("contractAddress", .ofText r.contractAddress),
  ("blockNumber", .string r.blockNumber),
  ("transactionHash", .string r.transactionHash),
  ("transactionIndex", .string r.transactionIndex),
  ("blockHash", .string r.blockHash),
  ("logs", .array (r.logs.map .string)),
  ("from", .string r.sender),
  ("to", .ofText r.toAddr),
  ("cumulativeGasUsed", .string r.cumulativeGasUsed),
  ("logsBloom", .string r.logsBloom),
  ("type", .string r.type),
  ("effectiveGasPrice", .string r.effectiveGasPrice)]

/-- `StoredTx` as JSON. -/
def storedTxValue (t : StoredTx) : Value := .object [
  ("hash", .string t.hash),
  ("nonce", .string t.nonce),
  ("blockHash", .string t.blockHash),
  ("blockNumber", .string t.blockNumber),
  ("transactionIndex", .string t.transactionIndex),
  ("from", .string t.sender),
  ("to", .ofText t.toAddr),
  ("value", .string t.value),
  ("gas", .string t.gas),
  ("gasPrice", .string t.gasPrice),
  ("input", .string t.input),
  ("chainId", .ofText t.chainId),
  ("type", .string t.type)]

/-- The root of an empty trie, in the texts of `get_block`. -/
def emptyRoot : Value :=
  .string "0x56e81f171bcc55a6ff8345e692c0f86e5b48e01b996cadc001622fb5e363b421"

/-- The JSON of `get_block` for a number and a hash. -/
def blockValue (number : UInt64) (hash : Word) : Value := .object [
  ("number", .string (hexQuantity number.toNat)),
  ("hash", .string (hexData (Word.toBytes hash))),
  ("parentHash", .string ("0x" ++ String.ofList (List.replicate 64 '0'))),
  ("nonce", .string "0x0000000000000000"),
  ("sha3Uncles", .string "0x1dcc4de8dec75d7aab85b567b6ccd41ad312451b948a7413f0a142fd40d49347"),
  ("logsBloom", .string ("0x" ++ String.ofList (List.replicate 512 '0'))),
  ("transactionsRoot", emptyRoot),
  ("stateRoot", emptyRoot),
  ("receiptsRoot", emptyRoot),
  ("miner", .string "0x0000000000000000000000000000000000000000"),
  ("difficulty", .string "0x0"),
  ("totalDifficulty", .string "0x0"),
  ("extraData", .string "0x"),
  ("size", .string "0x200"),
  ("gasLimit", .string (hexQuantity blockGasLimit.toNat)),
  ("gasUsed", .string "0x0"),
  ("timestamp", .string "0x0"),
  ("transactions", .array []),
  ("uncles", .array []),
  ("baseFeePerGas", .string "0x0")]

/-- `get_block`: the stored hash of a block, or the one made from its number. -/
def getBlock (s : NodeState) (number : UInt64) : Value :=
  blockValue number ((s.blockHashes number).getD (blockHashOf lib number))

/-- `DEFAULT_GAS_LIMIT`. -/
def defaultGasLimit : UInt64 := 30000000

/-- The context of a call, on a copy of the database: no check is on. -/
def callContext (db : InMemoryDB) (chainId : UInt64) : MonadContext :=
  let ctx := monadContextWithDb db
  { ctx with
    block := { ctx.block with
      gasLimit := blockGasLimit
      basefee := 0 }
    cfg := {
      chainId := chainId
      txChainIdCheck := false
      disableNonceCheck := true
      disableBalanceCheck := true
      disableBlockGasLimit := true
      disableBaseFee := true } }

/-- The EVM transaction of a call; the builder's chain is the main one. -/
def callEnv (call : CallObject) (gasLimit : UInt64) : TxEnv where
  caller := call.caller.getD 0
  kind := txKind call.callee
  nonce := 0
  gasLimit := gasLimit
  gasPrice := 0
  value := alloyU256ToRevm call.value
  data := call.data
  chainId := some 1

/-- The run of a call. The context that it leaves is dropped. -/
def callResult (db : InMemoryDB) (chainId : UInt64) (call : CallObject) (gasLimit : UInt64) :
    Except String ExecutionResult :=
  (lib.transactCommit (callContext db chainId) (callEnv call gasLimit)).1

/-- The bytes of an output. -/
def Output.bytes : Output → Bytes
  | .call bytes => bytes
  | .create bytes _ => bytes

/-- What `eth_call` and `estimate_gas` answer, by what they make of a success. -/
def callAnswer {A : Type} (success : UInt64 → Output → A) :
    Except String ExecutionResult → Except String A
  | .ok (.success gasUsed output) => .ok (success gasUsed output)
  | .ok (.revert _ output) => .error ("execution reverted: 0x" ++ hexEncode output)
  | .ok (.halt _ reason) => .error ("execution halted: " ++ reason)
  | .error e => .error ("evm error: " ++ e)

/-- `eth_call`, on the copy of the database. -/
def ethCall (db : InMemoryDB) (chainId : UInt64) (call : CallObject) (gasLimit : Option UInt64) :
    Except String Bytes :=
  callAnswer (fun _ output => output.bytes)
    (callResult lib db chainId call (gasLimit.getD defaultGasLimit))

/-- The estimate from the gas used: a fifth more, within 64 bits and up to the cap. -/
def estimateOf (gasUsed : UInt64) : UInt64 :=
  min (UInt64.ofNat (gasUsed.toNat * 12 / 10)) defaultGasLimit

/-- `estimate_gas`, on the copy of the database. -/
def estimateGas (db : InMemoryDB) (chainId : UInt64) (call : CallObject) : Except String UInt64 :=
  callAnswer (fun gasUsed _ => estimateOf gasUsed)
    (callResult lib db chainId call defaultGasLimit)

end Answers

section Dispatch

variable (lib : Libraries) (text : TextLibraries)

/-- What a submission answers. -/
def submissionResponse (id : Value) (raw : Bytes) (s : NodeState) : RpcResponse :=
  match sendRawTransaction lib raw s with
  | .ok hash _ => .ok id (.string (hexData (Word.toBytes hash)))
  | .error e _ => .err id (-32000) e

/-- The bytes that a submission carries; a missing text is an empty one. -/
def submittedBytes (params : Value) : Except String Bytes :=
  decodeHexInput text (((params.getIdx 0).bind Value.asStr).getD "")

/-- Go on with a parsed parameter. -/
def withParam {A : Type} (id : Value) (param : Except String A)
    (handler : A → Task NodeState RpcResponse) : Task NodeState RpcResponse :=
  match param with
  | .ok a => handler a
  | .error e => .done (.err id (-32602) e)

/-- The result of a call or its error. -/
def callResponse {A : Type} (id : Value) (value : A → Value) : Except String A → RpcResponse
  | .ok a => .ok id (value a)
  | .error e => .err id 3 e

/-- `dispatch`, by the times it locks the state. -/
def dispatch (id : Value) (method : String) (params : Value) : Task NodeState RpcResponse :=
  match method with
  | "eth_chainId" => query NodeState.chainId fun chainId =>
    .done (.ok id (.string (hexQuantity chainId.toNat)))
  | "net_version" => query NodeState.chainId fun chainId =>
    .done (.ok id (.string (toString chainId.toNat)))
  | "eth_blockNumber" => query NodeState.blockNumber fun blockNumber =>
    .done (.ok id (.string (hexQuantity blockNumber.toNat)))
  | "eth_gasPrice" => .done (.ok id (.string "0x0"))
  | "eth_maxPriorityFeePerGas" => .done (.ok id (.string "0x0"))
  | "eth_getBalance" => withParam id (parseAddress text params 0) fun a =>
    query (fun s => s.db.getBalance a) fun bal => .done (.ok id (.string (hexQuantity bal.val)))
  | "eth_getTransactionCount" => withParam id (parseAddress text params 0) fun a =>
    query (fun s => s.db.getNonce a) fun nonce => .done (.ok id (.string (hexQuantity nonce.toNat)))
  | "eth_getCode" => withParam id (parseAddress text params 0) fun a =>
    query (fun s => s.db.getCode a) fun code => .done (.ok id (.string (hexData code)))
  | "eth_call" => withParam id (parseCallObject text params) fun call =>
    query (fun s => (s.db, s.chainId)) fun snap => .done (callResponse id
      (fun out => .string (hexData out)) (ethCall lib snap.1 snap.2 call none))
  | "eth_estimateGas" => withParam id (parseCallObject text params) fun call =>
    query (fun s => (s.db, s.chainId)) fun snap => .done (callResponse id
      (fun gas => .string (hexQuantity gas.toNat)) (estimateGas lib snap.1 snap.2 call))
  | "eth_sendRawTransaction" => withParam id (submittedBytes text params) fun raw =>
    .locked (fun s => afterSubmission lib s raw) fun s => .done (submissionResponse lib id raw s)
  | "eth_getTransactionReceipt" => withParam id (parseHash text params 0) fun h =>
    query (fun s => s.receipts h) fun r => .done (.ok id (r.elim .null receiptValue))
  | "eth_getTransactionByHash" => withParam id (parseHash text params 0) fun h =>
    query (fun s => s.transactions h) fun t => .done (.ok id (t.elim .null storedTxValue))
  | "eth_getBlockByNumber" => query NodeState.blockNumber fun current =>
    query (fun s => getBlock lib s (parseBlockTag params 0 current)) fun block =>
      .done (.ok id block)
  | other => .done (.err id (-32601) ("method not found: " ++ other))

/-- `rpc_handler`: a missing id is null and missing parameters are none. -/
def rpcHandler (req : RpcRequest) : Task NodeState RpcResponse :=
  dispatch lib text (req.id.getD .null) req.method req.paramsOrEmpty

end Dispatch

section RoundTrips

variable {text : TextLibraries} {params : Value}

/-- The prefix is taken off again. -/
theorem stripHexPrefix_append (s : String) : stripHexPrefix ("0x" ++ s) = s := by
  have hchars : ("0x" ++ s).toList = '0' :: 'x' :: s.toList := by
    rw [String.toList_append]
    rfl
  rw [stripHexPrefix, hchars]
  exact String.ofList_toList

/-- A text that starts with the prefix is no other text. -/
theorem hexQuantity_ne (n : ℕ) {s : String} (hs : s.toList.head? ≠ some '0') :
    hexQuantity n ≠ s := by
  rintro rfl
  rw [hexQuantity, String.toList_append] at hs
  exact hs rfl

/-- A digit is read as it is written. -/
theorem hexDigit_digitChar {n : ℕ} (hn : n < 16) : hexDigit (Nat.digitChar n) = some n := by
  have hall : ∀ k : Fin 16, hexDigit (Nat.digitChar k) = some k.val := by decide
  exact hall ⟨n, hn⟩

/-- The digits of a number are read as the number. -/
theorem hexNumber_toDigits (n : ℕ) : hexNumber (Nat.toDigits 16 n) = some n := by
  induction n using Nat.strong_induction_on with
  | _ n ih =>
    rcases Nat.lt_or_ge n 16 with hlt | hge
    · rw [Nat.toDigits_of_lt_base hlt, hexNumber, List.foldlM_cons, hexDigit_digitChar hlt]
      simp
    · have hquot := ih (n / 16) (Nat.div_lt_self (by omega) (by decide))
      rw [hexNumber] at hquot
      rw [Nat.toDigits_of_base_le (by decide) hge, hexNumber, List.foldlM_append, hquot]
      simp [hexDigit_digitChar (Nat.mod_lt n (by decide : 0 < 16)), Nat.div_add_mod' n 16]

/-- A written 64-bit number is parsed back. -/
theorem u64FromStrRadix_lowerHex (n : UInt64) : u64FromStrRadix (lowerHex n.toNat) = some n := by
  have hdigits := hexNumber_toDigits n.toNat
  have hchars : (lowerHex n.toNat).toList = Nat.toDigits 16 n.toNat := String.toList_ofList
  have hne : Nat.toDigits 16 n.toNat ≠ [] := Nat.toDigits_ne_nil
  rw [u64FromStrRadix, hchars]
  have hplain : (match Nat.toDigits 16 n.toNat with
      | '+' :: c :: rest => c :: rest
      | chars => chars) = Nat.toDigits 16 n.toNat := by
    split
    next c rest hplus =>
      -- a plus is no digit
      rw [hplus] at hdigits
      cases hdigits
    next => rfl
  rw [hplain]
  simp [hne, hdigits, UInt64.toNat_lt n]

/-- The text of a block number names the block. -/
theorem parseBlockTag_hexQuantity {number : UInt64} (current : UInt64)
    (hparam : (params.getIdx 0).bind Value.asStr = some (hexQuantity number.toNat)) :
    parseBlockTag params 0 current = number := by
  rw [parseBlockTag, hparam]
  dsimp only
  rw [if_neg, if_neg, hexQuantity, stripHexPrefix_append, u64FromStrRadix_lowerHex,
    Option.getD_some]
  · exact hexQuantity_ne _ (by decide)
  · rintro (h | h | h | h)
    · exact hexQuantity_ne _ (by decide) h
    · exact hexQuantity_ne _ (by decide) h
    · exact hexQuantity_ne _ (by decide) h
    · exact hexQuantity_ne _ (by decide) h

/-- The text of a hash names the hash, when written bytes are decoded again. -/
theorem parseHash_hexData (hdecode : ∀ bytes, text.hexDecode (hexEncode bytes) = .ok bytes)
    {hash : Word}
    (hparam : (params.getIdx 0).bind Value.asStr = some (hexData (Word.toBytes hash))) :
    parseHash text params 0 = .ok hash := by
  have hlength : (Word.toBytes hash).length = 32 := beBytes_length 32 hash.val
  rw [parseHash, hparam]
  dsimp only
  rw [hexData, stripHexPrefix_append, hdecode]
  dsimp only [Except.mapError]
  rw [ok_bind, failIf_of_not (not_not.mpr hlength), ok_bind, Word.ofBytes_toBytes]
  rfl

end RoundTrips

end SuwappuRevm.Node
