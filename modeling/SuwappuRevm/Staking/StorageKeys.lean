import Mathlib.Logic.Function.Basic
import SuwappuRevm.Staking.Storage

/-!
# The storage keys of the records

All records live in one flat space of 256-bit keys. A key starts with a namespace byte, then come
the identifiers of the record, and the slot of a field is added at the low end. No two fields share
a key, so a write to the key of a field changes no other one.
-/

namespace SuwappuRevm.Staking

open Foundations

/-- One of the three arrays of ids, by its base key. -/
inductive ValsetSlots
  | execution
  | consensus
  | snapshot
  deriving DecidableEq

/-- The first byte of an array's base key. -/
def ValsetSlots.namespaceByte : ValsetSlots → UInt8
  | .execution => 0x01
  | .consensus => 0x02
  | .snapshot => 0x03

/-- The fields of the storage, by what identifies them. Position `0` of an array is its length. -/
inductive Slot
  | epoch
  | inBoundary
  | lastValId
  | proposerValId
  | valset (array : ValsetSlots) (position : Fin (2 ^ 64 + 1))
  | consensusView (valId : ValId) (slot : Fin 2)
  | snapshotView (valId : ValId) (slot : Fin 2)
  | valIdSecp (address : Address)
  | valIdBls (address : Address)
  | bitset (bucket : Fin (2 ^ 56))
  | validator (valId : ValId) (slot : Fin 8)
  | accumulator (activeEpoch : Fin (2 ^ 64)) (valId : ValId) (slot : Fin 2)
  | delegator (valId : ValId) (address : Address) (slot : Fin 8)
  | withdrawal (valId : ValId) (address : Address) (withdrawalId : WithdrawId) (slot : Fin 3)
  deriving DecidableEq

/-- A key from its namespace byte, its identifiers padded to 32 bytes, and the added slot. -/
def storageKey (namespaceByte : UInt8) (identifiers : Bytes) (slot : ℕ) : ℕ :=
  beNat (namespaceByte :: (identifiers ++ List.replicate (31 - identifiers.length) 0)) + slot

/-- The key functions and fixed slots of `storage.rs`. -/
def Slot.key : Slot → ℕ
  | .epoch => 1
  | .inBoundary => 2
  | .lastValId => 3
  | .proposerValId => 4
  | .valset array position => storageKey array.namespaceByte [] position
  | .consensusView valId slot => storageKey 0x04 (beBytes 8 valId) slot
  | .snapshotView valId slot => storageKey 0x05 (beBytes 8 valId) slot
  | .valIdSecp address => storageKey 0x06 (beBytes 20 address) 0
  | .valIdBls address => storageKey 0x07 (beBytes 20 address) 0
  | .bitset bucket => storageKey 0x08 (beBytes 8 bucket) 0
  | .validator valId slot => storageKey 0x09 (beBytes 8 valId) slot
  | .accumulator activeEpoch valId slot =>
    storageKey 0x0A (beBytes 8 activeEpoch ++ beBytes 8 valId) slot
  | .delegator valId address slot => storageKey 0x0B (beBytes 8 valId ++ beBytes 20 address) slot
  | .withdrawal valId address withdrawalId slot =>
    storageKey 0x0C (beBytes 8 valId ++ beBytes 20 address ++ beBytes 1 withdrawalId) slot

/-- A key as a number: namespace, identifiers and slot at their places. -/
theorem storageKey_eq {namespaceByte : UInt8} {identifiers : Bytes} {slot n value pad : ℕ}
    (hnamespace : namespaceByte.toNat = n) (hvalue : beNat identifiers = value)
    (hpad : identifiers.length + pad = 31) :
    storageKey namespaceByte identifiers slot = n * 256 ^ 31 + (value * 256 ^ pad + slot) := by
  have hsingle : beNat [namespaceByte] = n := by simp [beNat, hnamespace]
  have hlength : 31 - identifiers.length = pad := by omega
  rw [storageKey, ← List.singleton_append, beNat_append, beNat_append, beNat_replicate, hsingle,
    hvalue, List.length_append, List.length_replicate, hlength, hpad, Nat.add_zero, Nat.add_assoc]

/-- The namespace of a field. -/
def Slot.namespaceValue : Slot → ℕ
  | .epoch | .inBoundary | .lastValId | .proposerValId => 0
  | .valset .execution _ => 1
  | .valset .consensus _ => 2
  | .valset .snapshot _ => 3
  | .consensusView .. => 4
  | .snapshotView .. => 5
  | .valIdSecp _ => 6
  | .valIdBls _ => 7
  | .bitset _ => 8
  | .validator .. => 9
  | .accumulator .. => 10
  | .delegator .. => 11
  | .withdrawal .. => 12

/-- A key below its namespace byte. -/
def Slot.offset : Slot → ℕ
  | .epoch => 1
  | .inBoundary => 2
  | .lastValId => 3
  | .proposerValId => 4
  | .valset _ position => 0 * 256 ^ 31 + position
  | .consensusView valId slot | .snapshotView valId slot => valId * 256 ^ 23 + slot
  | .valIdSecp address | .valIdBls address => address * 256 ^ 11 + 0
  | .bitset bucket => bucket * 256 ^ 23 + 0
  | .validator valId slot => valId * 256 ^ 23 + slot
  | .accumulator activeEpoch valId slot => (activeEpoch * 256 ^ 8 + valId) * 256 ^ 15 + slot
  | .delegator valId address slot => (valId * 256 ^ 20 + address) * 256 ^ 3 + slot
  | .withdrawal valId address withdrawalId slot =>
    ((valId * 256 ^ 20 + address) * 256 ^ 1 + withdrawalId) * 256 ^ 2 + slot

/-- The bytes of the identifiers decode to them. -/
theorem identifiers_decode (v : ValId) (d : Address) (w : WithdrawId) :
    beNat (beBytes 8 v) = v ∧ beNat (beBytes 20 d) = d ∧
      beNat (beBytes 8 v ++ beBytes 20 d) = v * 256 ^ 20 + d ∧
      beNat (beBytes 8 v ++ beBytes 20 d ++ beBytes 1 w) = (v * 256 ^ 20 + d) * 256 ^ 1 + w := by
  have hv : beNat (beBytes 8 v) = v := beNat_beBytes_of_lt (by omega)
  have hd : beNat (beBytes 20 d) = d := beNat_beBytes_of_lt (by omega)
  have hw : beNat (beBytes 1 w) = w := beNat_beBytes_of_lt (by omega)
  refine ⟨hv, hd, ?_, ?_⟩
  · rw [beNat_append, hv, hd, beBytes_length]
  · rw [beNat_append, beNat_append, hv, hd, hw, beBytes_length, beBytes_length]

/-- A key is its namespace and its offset. -/
theorem Slot.key_eq (slot : Slot) : slot.key = slot.namespaceValue * 256 ^ 31 + slot.offset := by
  cases slot with
  | epoch | inBoundary | lastValId | proposerValId => simp [key, namespaceValue, offset]
  | valset array position =>
    cases array <;> exact storageKey_eq rfl rfl rfl
  | consensusView valId slot | snapshotView valId slot | validator valId slot =>
    exact storageKey_eq rfl (identifiers_decode valId 0 0).1 (by rw [beBytes_length])
  | valIdSecp address | valIdBls address =>
    exact storageKey_eq rfl (identifiers_decode 0 address 0).2.1 (by rw [beBytes_length])
  | bitset bucket =>
    have hbucket : beNat (beBytes 8 bucket) = bucket := beNat_beBytes_of_lt (by omega)
    exact storageKey_eq rfl hbucket (by rw [beBytes_length])
  | accumulator activeEpoch valId slot =>
    have hdecode : beNat (beBytes 8 activeEpoch ++ beBytes 8 valId) =
        activeEpoch * 256 ^ 8 + valId := by
      rw [beNat_append, (identifiers_decode activeEpoch 0 0).1, (identifiers_decode valId 0 0).1,
        beBytes_length]
    exact storageKey_eq rfl hdecode (by rw [List.length_append, beBytes_length, beBytes_length])
  | delegator valId address slot =>
    exact storageKey_eq rfl (identifiers_decode valId address 0).2.2.1
      (by rw [List.length_append, beBytes_length, beBytes_length])
  | withdrawal valId address withdrawalId slot =>
    exact storageKey_eq rfl (identifiers_decode valId address withdrawalId).2.2.2
      (by rw [List.length_append, List.length_append, beBytes_length, beBytes_length,
        beBytes_length])

/-- An offset leaves the namespace byte alone. -/
theorem Slot.offset_lt (slot : Slot) : slot.offset < 256 ^ 31 := by
  cases slot <;> simp only [offset] <;> omega

/-- No two fields share a key. -/
theorem Slot.key_injective : Function.Injective Slot.key := by
  intro a b h
  rw [a.key_eq, b.key_eq] at h
  have hna := a.offset_lt
  have hnb := b.offset_lt
  have hnamespace : a.namespaceValue = b.namespaceValue := by omega
  have hoffset : a.offset = b.offset := by omega
  rcases a with _ | _ | _ | _ | ⟨_ | _ | _, pa⟩ | ⟨va, sa⟩ | ⟨va, sa⟩ | da | da | ka | ⟨va, sa⟩ |
      ⟨ea, va, sa⟩ | ⟨va, da, sa⟩ | ⟨va, da, wa, sa⟩ <;>
    rcases b with _ | _ | _ | _ | ⟨_ | _ | _, pb⟩ | ⟨vb, sb⟩ | ⟨vb, sb⟩ | db | db | kb | ⟨vb, sb⟩ |
      ⟨eb, vb, sb⟩ | ⟨vb, db, sb⟩ | ⟨vb, db, wb, sb⟩ <;>
    first
    | exact absurd hnamespace (by simp only [namespaceValue]; decide)
    | rfl
    | exact absurd hoffset (by simp only [offset]; decide)
    | simp only [offset] at hoffset
      simp only [Fin.ext_iff, valset.injEq, consensusView.injEq, snapshotView.injEq,
        valIdSecp.injEq, valIdBls.injEq, bitset.injEq, validator.injEq, accumulator.injEq,
        delegator.injEq, withdrawal.injEq, true_and]
      omega

end SuwappuRevm.Staking
