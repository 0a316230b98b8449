import SuwappuRevm.Foundations.Bytes

/-!
# Fields packed into words

Several fields share a 32-byte word: their bytes come one after another from the high end, and the
rest of the word is zero. Each field is read back from its place.
-/

namespace SuwappuRevm.Foundations

/-- The word with the given bytes from its high end on. -/
def packed (bytes : Bytes) : Word :=
  Word.ofBytes (bytes ++ List.replicate (32 - bytes.length) 0)

/-- The bytes of a word from a place on. -/
def byteField (w : Word) (start len : ℕ) : Bytes := ((Word.toBytes w).drop start).take len

/-- Reading 32 bytes as a word keeps them. -/
theorem Word.toBytes_ofBytes {bytes : Bytes} (h : bytes.length = 32) :
    Word.toBytes (Word.ofBytes bytes) = bytes := by
  have hwidth : (256 : ℕ) ^ 32 = 2 ^ 256 := by norm_num
  have hlt := beNat_lt bytes
  rw [h, hwidth] at hlt
  rw [Word.toBytes, Word.ofBytes, Fin.val_ofNat, Nat.mod_eq_of_lt hlt, ← h, beBytes_beNat]

/-- The bytes of a packed word. -/
theorem toBytes_packed {bytes : Bytes} (h : bytes.length ≤ 32) :
    Word.toBytes (packed bytes) = bytes ++ List.replicate (32 - bytes.length) 0 := by
  apply Word.toBytes_ofBytes
  rw [List.length_append, List.length_replicate]
  omega

/-- A field is read back from behind the fields before it. -/
theorem byteField_packed (before field after : Bytes)
    (h : before.length + field.length + after.length ≤ 32) :
    byteField (packed (before ++ field ++ after)) before.length field.length = field := by
  have hfits : (before ++ field ++ after).length ≤ 32 := by
    rw [List.length_append, List.length_append]
    exact h
  rw [byteField, toBytes_packed hfits, List.append_assoc, List.append_assoc, List.drop_left,
    List.take_left]

end SuwappuRevm.Foundations
