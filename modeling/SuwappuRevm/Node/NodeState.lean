import SuwappuRevm.Foundations.StateInvariant
import SuwappuRevm.Node.TxEnvelope
import Mathlib.Logic.Function.Basic

/-!
# The dev node and `send_raw_transaction`

`SuwappuNode` owns an in-memory database, a block counter and the maps its queries read. A raw
transaction is decoded, checked and run by the EVM, which is given the database and gives it back;
one accepted transaction is one block. The decoder, the signature recovery, the hash and the EVM
come from libraries and are parameters.
-/

namespace SuwappuRevm.Node

open Foundations

/-- `AccountInfo`. -/
structure AccountInfo where
  balance : Word
  nonce : UInt64
  codeHash : Word

/-- `DbAccount`; a slot that is missing from the map reads as zero. -/
structure DbAccount where
  info : AccountInfo
  storage : Word → Word

/-- `InMemoryDB`: the cached accounts, and the codes by their hash. -/
structure InMemoryDB where
  accounts : Address → Option DbAccount
  contracts : Word → Option Bytes

namespace InMemoryDB

/-- `InMemoryDB::default`. -/
def empty : InMemoryDB where
  accounts _ := none
  contracts hash := if hash = keccakEmpty ∨ hash = 0 then some [] else none

/-- `insert_account_info`, for accounts without code. -/
def insertAccountInfo (db : InMemoryDB) (a : Address) (info : AccountInfo) : InMemoryDB :=
  let storage := ((db.accounts a).map DbAccount.storage).getD fun _ => 0
  { db with accounts := Function.update db.accounts a (some ⟨info, storage⟩) }

/-- The lookup of `get_balance`. -/
def getBalance (db : InMemoryDB) (a : Address) : Word :=
  ((db.accounts a).map fun account => account.info.balance).getD 0

/-- The lookup of `get_nonce`. -/
def getNonce (db : InMemoryDB) (a : Address) : UInt64 :=
  ((db.accounts a).map fun account => account.info.nonce).getD 0

/-- The lookup of `get_code`. -/
def getCode (db : InMemoryDB) (a : Address) : Bytes :=
  ((db.accounts a).bind fun account =>
    if account.info.codeHash = keccakEmpty then none
    else db.contracts account.info.codeHash).getD []

/-- The storage value the EVM reads. -/
def getStorage (db : InMemoryDB) (a : Address) (slot : Word) : Word :=
  ((db.accounts a).map fun account => account.storage slot).getD 0

/-- Two databases in which every balance, nonce, code and storage value is the same. -/
structure SameView (db db' : InMemoryDB) : Prop where
  balance : ∀ a, db'.getBalance a = db.getBalance a
  nonce : ∀ a, db'.getNonce a = db.getNonce a
  code : ∀ a, db'.getCode a = db.getCode a
  storage : ∀ a slot, db'.getStorage a slot = db.getStorage a slot

/-- A database is seen as it is. -/
theorem SameView.refl (db : InMemoryDB) : SameView db db :=
  ⟨fun _ => rfl, fun _ => rfl, fun _ => rfl, fun _ _ => rfl⟩

end InMemoryDB

section Evm

/-- The fields of `BlockEnv` that the node sets. -/
structure BlockEnv where
  number : Word
  gasLimit : UInt64
  basefee : UInt64

/-- The fields of the configuration that the node sets for one or the other kind of call. -/
structure CfgEnv where
  chainId : UInt64
  txChainIdCheck : Bool
  disableNonceCheck : Bool
  disableBalanceCheck : Bool
  disableBlockGasLimit : Bool
  disableBaseFee : Bool

/-- `MonadContext`: what the EVM runs on. -/
structure MonadContext where
  db : InMemoryDB
  block : BlockEnv
  cfg : CfgEnv

/-- `monad_context_with_db`: the default block and configuration, with all checks on. -/
def monadContextWithDb (db : InMemoryDB) : MonadContext where
  db := db
  block := ⟨0, 18446744073709551615, 0⟩
  cfg := ⟨1, true, false, false, false, false⟩

/-- The fields of `TxEnv` that the node sets. -/
structure TxEnv where
  caller : Address
  kind : TxKind
  nonce : UInt64
  gasLimit : UInt64
  gasPrice : BitVec 128
  value : Word
  data : Bytes
  chainId : Option UInt64
  deriving DecidableEq

/-- `Output`. -/
inductive Output
  | call (bytes : Bytes)
  | create (bytes : Bytes) (address : Option Address)

/-- `ExecutionResult`. -/
inductive ExecutionResult
  | success (gasUsed : UInt64) (output : Output)
  | revert (gasUsed : UInt64) (output : Bytes)
  | halt (gasUsed : UInt64) (reason : String)

end Evm

/-- The library functions: `TxEnvelope::decode` with the bytes it leaves in its buffer,
`encode_2718`, `recover_signer`, `keccak256`, and `transact_commit`, which returns the result with
the context it leaves. -/
structure Libraries where
  decode : Bytes → Except String (TxEnvelope × Bytes)
  encode2718 : TxEnvelope → Bytes
  recoverSigner : TxEnvelope → Except String Address
  keccak256 : Bytes → Word
  transactCommit : MonadContext → TxEnv → Except String ExecutionResult × MonadContext

/-- `Receipt`. Logs are always empty. -/
structure Receipt where
  status : String
  gasUsed : String
  contractAddress : Option String
  blockNumber : String
  transactionHash : String
  transactionIndex : String
  blockHash : String
  logs : List String
  sender : String
  toAddr : Option String
  cumulativeGasUsed : String
  logsBloom : String
  type : String
  effectiveGasPrice : String
  deriving DecidableEq

/-- `StoredTx`. -/
structure StoredTx where
  hash : String
  nonce : String
  blockHash : String
  blockNumber : String
  transactionIndex : String
  sender : String
  toAddr : Option String
  value : String
  gas : String
  gasPrice : String
  input : String
  chainId : Option String
  type : String
  deriving DecidableEq

/-- `NodeState`. -/
structure NodeState where
  db : InMemoryDB
  blockNumber : UInt64
  chainId : UInt64
  receipts : Word → Option Receipt
  transactions : Word → Option StoredTx
  blockHashes : UInt64 → Option Word

/-- `BLOCK_GAS_LIMIT`. -/
def blockGasLimit : UInt64 := 1000000000

/-- `PREFUND_WEI`. -/
def prefundWei : Word := 10000 * 1000000000000000000

/-- `DEV_ACCOUNTS`. -/
def devAccounts : List Address :=
  [0xf39Fd6e51aad88F6F4ce6aB8827279cffFb92266, 0x70997970C51812dc3A010C7d01b50e0d17dc79C8,
    0x3C44CdDdB6a900fa2b585dd299e03d12FA4293BC, 0x90F79bf6EB2c4f870365E785982E1f101E93b906,
    0x15d34AAf54267DB7D7c367839AAf71A00a2C6A65, 0x9965507D1a55bcC2695C58ba16FB37d819B0A4dc,
    0x976EA74026E726554dB657fA54763abd0C3a0aa9, 0x14dC79964da2C08b23698B3D3cc7Ca32193d9955,
    0x23618e81E3f5cdF7f54C3d65f7FBc0aBf5B21E8f, 0xa0Ee7A142d267C1f36714E4a8F75612F20a79720]

/-- `NodeState::new`. -/
def NodeState.new (chainId : UInt64) : NodeState where
  db := devAccounts.foldl (fun db a => db.insertAccountInfo a ⟨prefundWei, 0, keccakEmpty⟩)
    InMemoryDB.empty
  blockNumber := 0
  chainId := chainId
  receipts _ := none
  transactions _ := none
  blockHashes _ := none

section Helpers

/-- The little-endian bytes of a number. -/
def leBytes (len n : ℕ) : Bytes := (beBytes len n).reverse

/-- `alloy_u256_to_revm`: through the little-endian bytes. -/
def alloyU256ToRevm (v : Word) : Word := Word.ofBytes (leBytes 32 v.val).reverse

/-- The conversion keeps the value. -/
@[simp] theorem alloyU256ToRevm_eq (v : Word) : alloyU256ToRevm v = v := by
  rw [alloyU256ToRevm, leBytes, List.reverse_reverse]
  exact Word.ofBytes_toBytes v

/-- The kind of the transaction: a call when there is an address. -/
def txKind : Option Address → TxKind
  | some a => .call a
  | none => .create

/-- The EVM transaction that the node builds from an envelope's fields. -/
def txEnv (sender : Address) (fields : TxFields) : TxEnv where
  caller := sender
  kind := txKind fields.toAlloy
  nonce := fields.nonce
  gasLimit := fields.gasLimit
  gasPrice := fields.gasPrice
  value := alloyU256ToRevm fields.valueAlloy
  data := fields.input
  chainId := fields.chainIdOpt

/-- The context that the node builds around the database it took out of its state. The nonce and
balance checks stay on. -/
def nodeContext (db : InMemoryDB) (blockNumber chainId : UInt64) : MonadContext :=
  let ctx := monadContextWithDb db
  { ctx with
    block := { ctx.block with
      gasLimit := blockGasLimit
      basefee := 0
      number := Fin.ofNat (2 ^ 256) blockNumber.toNat }
    cfg := { ctx.cfg with
      disableBaseFee := true
      chainId := chainId } }

/-- Status, gas used and created contract, as the receipt shows them. -/
def outcome : ExecutionResult → UInt8 × UInt64 × Option Address
  | .success gasUsed (.create _ (some a)) => (1, gasUsed, some a)
  | .success gasUsed _ => (1, gasUsed, none)
  | .revert gasUsed _ => (0, gasUsed, none)
  | .halt gasUsed _ => (0, gasUsed, none)

/-- The receipt of an executed transaction. -/
def receiptOf (txHash blockHash : Word) (blockNumber : UInt64) (sender : Address)
    (fields : TxFields) (result : ExecutionResult) : Receipt :=
  let (status, gasUsed, contractAddr) := outcome result
  { status := hexQuantity status.toNat
    gasUsed := hexQuantity gasUsed.toNat
    contractAddress := contractAddr.map fun a => hexData (addressBytes a)
    blockNumber := hexQuantity blockNumber.toNat
    transactionHash := hexData (Word.toBytes txHash)
    transactionIndex := "0x0"
    blockHash := hexData (Word.toBytes blockHash)
    logs := []
    sender := hexData (addressBytes sender)
    toAddr := fields.toAlloy.map fun a => hexData (addressBytes a)
    cumulativeGasUsed := hexQuantity gasUsed.toNat
    logsBloom := "0x" ++ String.ofList (List.replicate 512 '0')
    type := hexQuantity fields.txType.toNat
    effectiveGasPrice := hexQuantity fields.gasPrice.toNat }

/-- The stored form of an executed transaction. -/
def storedTxOf (txHash blockHash : Word) (blockNumber : UInt64) (sender : Address)
    (fields : TxFields) : StoredTx where
  hash := hexData (Word.toBytes txHash)
  nonce := hexQuantity fields.nonce.toNat
  blockHash := hexData (Word.toBytes blockHash)
  blockNumber := hexQuantity blockNumber.toNat
  transactionIndex := "0x0"
  sender := hexData (addressBytes sender)
  toAddr := fields.toAlloy.map fun a => hexData (addressBytes a)
  value := hexQuantity fields.valueAlloy.val
  gas := hexQuantity fields.gasLimit.toNat
  gasPrice := hexQuantity fields.gasPrice.toNat
  input := hexData fields.input
  chainId := fields.chainIdOpt.map fun c => hexQuantity c.toNat
  type := hexQuantity fields.txType.toNat

/-- Stop with a library's error after the text of the stage it comes from. -/
def orFail {α : Type} (stage : String) : Except String α → EStateM String NodeState α
  | .ok a => pure a
  | .error e => throw (stage ++ e)

/-- The chain id check, which transactions that name no chain skip. -/
def checkChainId (chainIdOpt : Option UInt64) (chainId : UInt64) : Except String Unit :=
  match chainIdOpt with
  | none => .ok ()
  | some cid => failIf (cid ≠ chainId)
      ("chain id mismatch: tx=" ++ toString cid.toNat ++ " node=" ++ toString chainId.toNat)

end Helpers

section Send

variable (lib : Libraries)

/-- The hash of a block, which is made from its number alone. -/
def blockHashOf (blockNumber : UInt64) : Word := lib.keccak256 (leBytes 8 blockNumber.toNat)

/-- Advance the block and record the transaction. -/
def NodeState.mine (s : NodeState) (txHash : Word) (sender : Address) (fields : TxFields)
    (result : ExecutionResult) : NodeState :=
  let blockNumber := s.blockNumber + 1
  let blockHash := blockHashOf lib blockNumber
  let receipt := receiptOf txHash blockHash blockNumber sender fields result
  let storedTx := storedTxOf txHash blockHash blockNumber sender fields
  { s with
    blockNumber := blockNumber
    receipts := Function.update s.receipts txHash (some receipt)
    transactions := Function.update s.transactions txHash (some storedTx)
    blockHashes := Function.update s.blockHashes blockNumber (some blockHash) }

/-- `send_raw_transaction`. An error after the EVM ran leaves with the database already back in
the state. -/
def sendRawTransaction (raw : Bytes) : EStateM String NodeState Word := do
  let (envelope, _) ← orFail "RLP decode error: " (lib.decode raw)
  let sender ← orFail "sender recovery failed: " (lib.recoverSigner envelope)
  let txHash := lib.keccak256 raw
  let fields ← orFail "" (extractTxFields envelope)
  let state ← get
  orFail "" (checkChainId fields.chainIdOpt state.chainId)
  let blockNumber := state.blockNumber + 1
  -- the database leaves the state, which holds an empty one while the EVM runs
  set { state with db := InMemoryDB.empty }
  let ctx := nodeContext state.db blockNumber state.chainId
  let (execResult, evm) := lib.transactCommit ctx (txEnv sender fields)
  modify fun s => { s with db := evm.db }
  let result ← orFail "transaction validation failed: " execResult
  modify fun s => s.mine lib txHash sender fields result
  return txHash

end Send

end SuwappuRevm.Node
