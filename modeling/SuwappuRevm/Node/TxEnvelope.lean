import SuwappuRevm.Foundations.Bytes
import SuwappuRevm.Foundations.Machine

/-!
# Signed transactions as the dev node reads them

The envelopes that come out of the decoder and `extract_tx_fields`, which maps the three kinds the
node runs to one record and refuses the others, and the hexadecimal texts the node answers with.
-/

namespace SuwappuRevm.Node

open Foundations

/-- `TxKind`: a call to an address or a contract creation. -/
inductive TxKind
  | call (a : Address)
  | create
  deriving DecidableEq

/-- The called address, `None` for a creation. -/
def TxKind.toAddress : TxKind → Option Address
  | .call a => some a
  | .create => none

/-- The secp256k1 signature of a transaction. -/
structure Signature where
  r : Word
  s : Word
  yParity : Bool
  deriving DecidableEq

/-- `Signed`: a transaction and its signature. -/
structure Signed (T : Type) where
  tx : T
  signature : Signature
  deriving DecidableEq

/-- `TxLegacy`. -/
structure TxLegacy where
  chainId : Option UInt64
  nonce : UInt64
  gasPrice : BitVec 128
  gasLimit : UInt64
  toKind : TxKind
  value : Word
  input : Bytes
  deriving DecidableEq

/-- `TxEip2930`. -/
structure TxEip2930 where
  chainId : UInt64
  nonce : UInt64
  gasPrice : BitVec 128
  gasLimit : UInt64
  toKind : TxKind
  value : Word
  accessList : List (Address × List Word)
  input : Bytes
  deriving DecidableEq

/-- `TxEip1559`. -/
structure TxEip1559 where
  chainId : UInt64
  nonce : UInt64
  gasLimit : UInt64
  maxFeePerGas : BitVec 128
  maxPriorityFeePerGas : BitVec 128
  toKind : TxKind
  value : Word
  accessList : List (Address × List Word)
  input : Bytes
  deriving DecidableEq

/-- `TxEnvelope`. The node reads nothing of the last two kinds, which are kept as their bytes. -/
inductive TxEnvelope
  | legacy (signed : Signed TxLegacy)
  | eip2930 (signed : Signed TxEip2930)
  | eip1559 (signed : Signed TxEip1559)
  | eip4844 (signed : Signed Bytes)
  | eip7702 (signed : Signed Bytes)
  deriving DecidableEq

/-- `TxFields`: what the node takes from an envelope. -/
structure TxFields where
  nonce : UInt64
  gasLimit : UInt64
  gasPrice : BitVec 128
  toAlloy : Option Address
  valueAlloy : Word
  input : Bytes
  txType : UInt8
  chainIdOpt : Option UInt64

/-- `extract_tx_fields`: the price of a fee-market transaction is its `max_fee_per_gas`. -/
def extractTxFields : TxEnvelope → Except String TxFields
  | .legacy ⟨tx, _⟩ => .ok {
      nonce := tx.nonce
      gasLimit := tx.gasLimit
      gasPrice := tx.gasPrice
      toAlloy := tx.toKind.toAddress
      valueAlloy := tx.value
      input := tx.input
      txType := 0
      chainIdOpt := tx.chainId }
  | .eip2930 ⟨tx, _⟩ => .ok {
      nonce := tx.nonce
      gasLimit := tx.gasLimit
      gasPrice := tx.gasPrice
      toAlloy := tx.toKind.toAddress
      valueAlloy := tx.value
      input := tx.input
      txType := 1
      chainIdOpt := some tx.chainId }
  | .eip1559 ⟨tx, _⟩ => .ok {
      nonce := tx.nonce
      gasLimit := tx.gasLimit
      gasPrice := tx.maxFeePerGas
      toAlloy := tx.toKind.toAddress
      valueAlloy := tx.value
      input := tx.input
      txType := 2
      chainIdOpt := some tx.chainId }
  | .eip4844 _ => .error "blob transactions (EIP-4844) are not supported by the dev node"
  | .eip7702 _ => .error "unsupported transaction type"

section Texts

/-- `hex::encode`: two lower-case digits for each byte. -/
def hexEncode (bytes : Bytes) : String :=
  String.ofList (bytes.flatMap fun b =>
    [Nat.digitChar (b.toNat / 16), Nat.digitChar (b.toNat % 16)])

/-- The digits that the format `x` writes for a number. -/
def lowerHex (n : ℕ) : String := String.ofList (Nat.toDigits 16 n)

/-- A number as the node answers it. -/
def hexQuantity (n : ℕ) : String := "0x" ++ lowerHex n

/-- Bytes as the node answers them. -/
def hexData (bytes : Bytes) : String := "0x" ++ hexEncode bytes

/-- The 20 bytes of an address. -/
def addressBytes (a : Address) : Bytes := beBytes 20 a.val

/-- A digit stands for one value below sixteen. -/
theorem digitChar_inj {a b : ℕ} (ha : a < 16) (hb : b < 16)
    (h : Nat.digitChar a = Nat.digitChar b) : a = b := by
  have hall : ∀ x y : Fin 16, Nat.digitChar x = Nat.digitChar y → x = y := by decide
  exact congrArg Fin.val (hall ⟨a, ha⟩ ⟨b, hb⟩ h)

/-- The text of some bytes determines them. -/
theorem hexEncode_injective : Function.Injective hexEncode := by
  intro bytes bytes' h
  have hchars := String.ofList_injective h
  induction bytes generalizing bytes' with
  | nil =>
    cases bytes' with
    | nil => rfl
    | cons b' bytes' => cases hchars
  | cons b bytes ih =>
    cases bytes' with
    | nil => cases hchars
    | cons b' bytes' =>
      simp only [List.flatMap_cons, List.cons_append, List.nil_append, List.cons.injEq] at hchars
      obtain ⟨hhigh, hlow, hrest⟩ := hchars
      have hb : b.toNat < 256 := b.toNat_lt
      have hb' : b'.toNat < 256 := b'.toNat_lt
      have hquot := digitChar_inj (by omega) (by omega) hhigh
      have hrem := digitChar_inj (by omega) (by omega) hlow
      have hbyte : b = b' := UInt8.toNat_inj.mp (by omega)
      rw [hbyte, ih (congrArg String.ofList hrest) hrest]

/-- The answered text of some bytes determines them. -/
theorem hexData_injective : Function.Injective hexData := by
  intro bytes bytes' h
  apply hexEncode_injective
  apply String.toList_injective
  have hchars := congrArg String.toList h
  rw [hexData, hexData, String.toList_append, String.toList_append] at hchars
  exact List.append_cancel_left hchars

end Texts

end SuwappuRevm.Node
