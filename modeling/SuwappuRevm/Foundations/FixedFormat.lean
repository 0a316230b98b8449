import Mathlib.Data.Fin.Tuple.Basic
import Mathlib.Logic.Equiv.Fin.Basic
import SuwappuRevm.Foundations.Bytes

/-!
# Fixed-width formats

A format writes every value as a string of one width, and every string of that width is the string
of exactly one value. Formats compose: two in a row, an array of one, and a format up to a bijection
of its values. Reading is total, so that it can be the reading of a program that has checked the
length before.
-/

namespace SuwappuRevm.Foundations

/-- A format with strings of one width over the symbols `σ`. -/
structure FixedFormat (σ α : Type) where
  width : ℕ
  encode : α → List σ
  decode : List σ → α
  length_encode : ∀ a, (encode a).length = width
  decode_encode : ∀ a, decode (encode a) = a
  encode_decode : ∀ s, s.length = width → encode (decode s) = s

namespace FixedFormat

section Laws

variable {σ α : Type} (f : FixedFormat σ α)

attribute [simp] length_encode decode_encode

/-- Values with one string are one value. -/
theorem encode_injective : Function.Injective f.encode :=
  Function.LeftInverse.injective f.decode_encode

/-- A string is that of a value exactly when it has the width and reads as the value. -/
theorem eq_encode_iff {s : List σ} {a : α} :
    s = f.encode a ↔ s.length = f.width ∧ f.decode s = a := by
  constructor
  · rintro rfl
    exact ⟨f.length_encode a, f.decode_encode a⟩
  · rintro ⟨hlength, rfl⟩
    exact (f.encode_decode s hlength).symm

end Laws

section Composition

variable {σ α β : Type}

/-- One format after another. -/
def pair (f : FixedFormat σ α) (g : FixedFormat σ β) : FixedFormat σ (α × β) where
  width := f.width + g.width
  encode v := f.encode v.1 ++ g.encode v.2
  decode s := (f.decode (s.take f.width), g.decode (s.drop f.width))
  length_encode v := by rw [List.length_append, f.length_encode, g.length_encode]
  decode_encode v := by
    rw [List.take_left' (f.length_encode v.1), List.drop_left' (f.length_encode v.1),
      f.decode_encode, g.decode_encode]
  encode_decode s hs := by
    have htake : (s.take f.width).length = f.width := by
      rw [List.length_take, hs]
      exact Nat.min_eq_left (Nat.le_add_right _ _)
    have hdrop : (s.drop f.width).length = g.width := by
      rw [List.length_drop, hs]
      exact Nat.add_sub_cancel_left _ _
    rw [f.encode_decode _ htake, g.encode_decode _ hdrop, List.take_append_drop]

/-- A format of the values that correspond to those of another. -/
def map (f : FixedFormat σ α) (e : α ≃ β) : FixedFormat σ β where
  width := f.width
  encode b := f.encode (e.symm b)
  decode s := e (f.decode s)
  length_encode b := f.length_encode _
  decode_encode b := by rw [f.decode_encode, e.apply_symm_apply]
  encode_decode s hs := by rw [e.symm_apply_apply, f.encode_decode s hs]

/-- The format with its strings backwards. -/
def reverse (f : FixedFormat σ α) : FixedFormat σ α where
  width := f.width
  encode a := (f.encode a).reverse
  decode s := f.decode s.reverse
  length_encode a := by rw [List.length_reverse, f.length_encode]
  decode_encode a := by rw [List.reverse_reverse, f.decode_encode]
  encode_decode s hs := by
    rw [f.encode_decode _ (List.length_reverse.trans hs), List.reverse_reverse]

/-- Nothing, as the empty string. -/
def nothing (σ : Type) : FixedFormat σ (Fin 0 → α) where
  width := 0
  encode _ := []
  decode _ := Fin.elim0
  length_encode _ := rfl
  decode_encode _ := Subsingleton.elim _ _
  encode_decode _ hs := (List.eq_nil_of_length_eq_zero hs).symm

/-- So many values of one format in a row. -/
def array (f : FixedFormat σ α) : (n : ℕ) → FixedFormat σ (Fin n → α)
  | 0 => nothing σ
  | n + 1 => (f.pair (f.array n)).map (Fin.consEquiv fun _ => α)

/-- The width of an array. -/
@[simp] theorem array_width (f : FixedFormat σ α) (n : ℕ) : (f.array n).width = n * f.width := by
  induction n with
  | zero => exact (Nat.zero_mul _).symm
  | succ n ih =>
    change f.width + (f.array n).width = _
    rw [ih, Nat.succ_mul, Nat.add_comm]

/-- An element of an array is read from its own place. -/
theorem array_decode (f : FixedFormat σ α) {n : ℕ} (s : List σ) (i : Fin n) :
    (f.array n).decode s i = f.decode ((s.drop (i * f.width)).take f.width) := by
  induction n generalizing s with
  | zero => exact i.elim0
  | succ n ih =>
    refine Fin.cases ?_ (fun j => ?_) i
    · simp [array, pair, map, Fin.consEquiv]
    · change (f.array n).decode (s.drop f.width) j = _
      rw [ih, List.drop_drop, Fin.val_succ, Nat.succ_mul, Nat.add_comm]

/-- A single symbol. -/
def symbol (σ : Type) [Inhabited σ] : FixedFormat σ σ where
  width := 1
  encode a := [a]
  decode s := s.headD default
  length_encode _ := rfl
  decode_encode _ := rfl
  encode_decode s hs := by
    obtain ⟨a, rfl⟩ := List.length_eq_one_iff.mp hs
    rfl

end Composition

/-- Numbers below `256 ^ len`, most significant byte first. -/
def be (len : ℕ) : FixedFormat UInt8 (Fin (256 ^ len)) where
  width := len
  encode n := beBytes len n.val
  decode s := Fin.ofNat (256 ^ len) (beNat s)
  length_encode n := beBytes_length len n.val
  decode_encode n := by
    rw [beNat_beBytes_of_lt n.isLt]
    exact Fin.ofNat_val_eq_self n
  encode_decode s hs := by
    have hlt := beNat_lt s
    rw [hs] at hlt
    rw [Fin.val_ofNat, Nat.mod_eq_of_lt hlt, ← hs, beBytes_beNat]

/-- Numbers below `256 ^ len`, least significant byte first. -/
def le (len : ℕ) : FixedFormat UInt8 (Fin (256 ^ len)) := (be len).reverse

end FixedFormat

end SuwappuRevm.Foundations
