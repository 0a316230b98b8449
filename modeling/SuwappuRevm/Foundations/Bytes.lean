import Mathlib.Data.List.Basic
import Mathlib.Data.Fintype.Basic
import Mathlib.Tactic.Ring

/-!
# Big-endian byte strings

Fixed-width big-endian encodings of natural numbers, their decoding, and 32-byte words seen
both as numbers and as bytes. Decoding is a left inverse of encoding below the width's bound,
so packed preimages that differ in one field differ as byte strings.
-/

namespace SuwappuRevm.Foundations

/-- A byte string. -/
abbrev Bytes := List UInt8

/-- The low `len` bytes of `n`, most significant first. -/
def beBytes : (len : ℕ) → ℕ → Bytes
  | 0, _ => []
  | len + 1, n => beBytes len (n / 256) ++ [UInt8.ofNat (n % 256)]

/-- The number whose big-endian bytes are given. -/
def beNat (bytes : Bytes) : ℕ := bytes.foldl (fun acc b => acc * 256 + b.toNat) 0

/-- The width is the length of the encoding. -/
@[simp] theorem beBytes_length (len n : ℕ) : (beBytes len n).length = len := by
  induction len generalizing n with
  | zero => rfl
  | succ len ih => simp [beBytes, ih]

/-- The last byte has weight one. -/
theorem beNat_concat (bytes : Bytes) (b : UInt8) :
    beNat (bytes ++ [b]) = beNat bytes * 256 + b.toNat := by
  simp [beNat, List.foldl_append]

/-- Decoding recovers the number up to the width. -/
theorem beNat_beBytes (len n : ℕ) : beNat (beBytes len n) = n % 256 ^ len := by
  induction len generalizing n with
  | zero => simp [beBytes, beNat, Nat.mod_one]
  | succ len ih =>
    have hbyte : (UInt8.ofNat (n % 256)).toNat = n % 256 := by
      rw [UInt8.toNat_ofNat']
      exact Nat.mod_eq_of_lt (Nat.mod_lt n (by decide))
    rw [beBytes, beNat_concat, ih, hbyte, pow_succ', Nat.mod_mul]
    ring

/-- Encoding and decoding a number that fits its width. -/
theorem beNat_beBytes_of_lt {len n : ℕ} (h : n < 256 ^ len) : beNat (beBytes len n) = n := by
  rw [beNat_beBytes, Nat.mod_eq_of_lt h]

/-- Decoding a longer string from a decoded start. -/
theorem beNat_append (a b : Bytes) : beNat (a ++ b) = beNat a * 256 ^ b.length + beNat b := by
  induction b using List.reverseRecOn with
  | nil => simp [beNat]
  | append_singleton b x ih =>
    rw [← List.append_assoc, beNat_concat, ih, beNat_concat, List.length_append,
      List.length_singleton, pow_succ]
    ring

/-- Padding decodes to zero. -/
theorem beNat_replicate (n : ℕ) : beNat (List.replicate n 0) = 0 := by
  induction n with
  | zero => rfl
  | succ n ih => rw [List.replicate_succ', beNat_concat, ih]; rfl

/-- Encoding recovers the bytes at their own width. -/
theorem beBytes_beNat (bytes : Bytes) : beBytes bytes.length (beNat bytes) = bytes := by
  induction bytes using List.reverseRecOn with
  | nil => rfl
  | append_singleton bytes b ih =>
    have hb : b.toNat < 256 := b.toNat_lt
    have hhigh : (beNat bytes * 256 + b.toNat) / 256 = beNat bytes := by omega
    have hlow : (beNat bytes * 256 + b.toNat) % 256 = b.toNat := by omega
    rw [List.length_append, List.length_singleton, beNat_concat, beBytes, hhigh, hlow, ih,
      UInt8.ofNat_toNat]

/-- The number is within the width. -/
theorem beNat_lt (bytes : Bytes) : beNat bytes < 256 ^ bytes.length := by
  have hdecode := beNat_beBytes bytes.length (beNat bytes)
  rw [beBytes_beNat] at hdecode
  rw [hdecode]
  exact Nat.mod_lt _ (Nat.pow_pos (by decide))

/-- Strings of one length that stand for the same number are the same. -/
theorem beNat_inj {bytes bytes' : Bytes} (hlength : bytes.length = bytes'.length) :
    beNat bytes = beNat bytes' ↔ bytes = bytes' := by
  constructor
  · intro h
    rw [← beBytes_beNat bytes, ← beBytes_beNat bytes', h, hlength]
  · rintro rfl
    rfl

/-- A 32-byte word: a `bytes32` or `uint256` value of the contracts. -/
abbrev Word := Fin (2 ^ 256)

/-- There is a word. -/
instance wordNeZero : NeZero (2 ^ 256) := ⟨by norm_num⟩

/-- The 32 big-endian bytes of a word. -/
def Word.toBytes (w : Word) : Bytes := beBytes 32 w.val

/-- Read a word from bytes, keeping the last 32 of a longer string. -/
def Word.ofBytes (bytes : Bytes) : Word := Fin.ofNat (2 ^ 256) (beNat bytes)

/-- A word occupies 32 bytes. -/
@[simp] theorem Word.toBytes_length (w : Word) : (Word.toBytes w).length = 32 :=
  beBytes_length 32 w.val

/-- Reading back the bytes of a word gives the word. -/
@[simp] theorem Word.ofBytes_toBytes (w : Word) : Word.ofBytes (Word.toBytes w) = w := by
  apply Fin.ext
  have hwidth : (256 : ℕ) ^ 32 = 2 ^ 256 := by norm_num
  rw [Word.ofBytes, Word.toBytes, Fin.val_ofNat, beNat_beBytes, hwidth, Nat.mod_mod,
    Nat.mod_eq_of_lt w.isLt]

/-- Distinct words have distinct bytes. -/
theorem Word.toBytes_injective : Function.Injective Word.toBytes := fun a b h => by
  rw [← Word.ofBytes_toBytes a, h, Word.ofBytes_toBytes b]

/-- `KECCAK_EMPTY`: the hash of no code. -/
def keccakEmpty : Word := 0xc5d2460186f7233c927e7db2dcc703c0e500b653ca82273b7bfad8045d85a470

/-- A 20-byte account address. -/
abbrev Address := Fin (2 ^ 160)

/-- There is an address. -/
instance addressNeZero : NeZero (2 ^ 160) := ⟨by norm_num⟩

/-- Read an address from its big-endian bytes. -/
def Address.ofBytes (bytes : Bytes) : Address := Fin.ofNat (2 ^ 160) (beNat bytes)

/-- Different strings of 20 bytes are different addresses. -/
theorem Address.ofBytes_inj {bytes bytes' : Bytes} (hlength : bytes.length = 20)
    (hlength' : bytes'.length = 20) :
    Address.ofBytes bytes = Address.ofBytes bytes' ↔ bytes = bytes' := by
  have hwidth : (256 : ℕ) ^ 20 = 2 ^ 160 := by norm_num
  have hlt := beNat_lt bytes
  have hlt' := beNat_lt bytes'
  rw [hlength, hwidth] at hlt
  rw [hlength', hwidth] at hlt'
  rw [Address.ofBytes, Address.ofBytes, Fin.ext_iff, Fin.val_ofNat, Fin.val_ofNat,
    Nat.mod_eq_of_lt hlt, Nat.mod_eq_of_lt hlt', beNat_inj (hlength.trans hlength'.symm)]

end SuwappuRevm.Foundations
