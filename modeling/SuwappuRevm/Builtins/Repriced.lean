import Mathlib.Data.List.GetD
import SuwappuRevm.Contracts.HeaderOracle
import SuwappuRevm.Foundations.FixedFormat

/-!
# The repriced precompiles

The precompiles that Monad runs with costs of its own, on raw input. The cryptography behind them is
a parameter; what they read from their input, what they refuse and what they charge is theirs. Each
of them accepts exactly the strings of its format.
-/

namespace SuwappuRevm.Builtins

open Foundations
open Contracts (PrecompileOutput)

/-- A `u32`. -/
abbrev U32 := Fin (256 ^ 4)

/-- A `u64`. -/
abbrev U64 := Fin (256 ^ 8)

/-- `PrecompileError`, with one case for the errors that only the library raises. -/
inductive PrecompileError
  | outOfGas
  | blake2WrongLength
  | blake2WrongFinalIndicatorFlag
  | blobInvalidInputLength
  | blobMismatchedVersion
  | library (text : String)
  deriving DecidableEq

/-- `PrecompileResult`. -/
abbrev PrecompileResult := Except PrecompileError PrecompileOutput

/-- What the libraries provide: `right_pad::<128>`, the `crypto` provider, the functions of
`kzg_point_evaluation`, the curve precompiles with their costs as arguments, `P256VERIFY`, and the
signature check and the hash of the two precompiles that the header oracle calls. -/
structure Library where
  rightPad : Bytes → Bytes
  secp256k1Ecrecover : (sig : Bytes) → (recid : ℕ) → (msg : Bytes) → Option Bytes
  blake2Compress : (rounds : U32) → (h : Fin 8 → U64) → (m : Fin 16 → U64) → (t : Fin 2 → U64) →
    (f : Bool) → Fin 8 → U64
  kzgToVersionedHash : Bytes → Bytes
  verifyKzgProof : (z y commitment proof : Bytes) → Except PrecompileError Unit
  kzgReturnValue : Bytes
  runAdd : (input : Bytes) → (gasCost gasLimit : ℕ) → PrecompileResult
  runMul : (input : Bytes) → (gasCost gasLimit : ℕ) → PrecompileResult
  runPair : (input : Bytes) → (pairPerPointCost pairBaseCost gasLimit : ℕ) → PrecompileResult
  p256Verify : (input : Bytes) → (gasLimit : ℕ) → PrecompileResult
  mldsaVerify : Bytes → Word
  blake3Hash : Bytes → Word

section Costs

/-- `MONAD_ECRECOVER_GAS`. -/
def monadEcrecoverGas : ℕ := 6000

/-- `MONAD_EC_ADD_GAS`. -/
def monadEcAddGas : ℕ := 300

/-- `MONAD_EC_MUL_GAS`. -/
def monadEcMulGas : ℕ := 30000

/-- `MONAD_EC_PAIRING_BASE_GAS`. -/
def monadEcPairingBaseGas : ℕ := 225000

/-- `MONAD_EC_PAIRING_PER_POINT_GAS`. -/
def monadEcPairingPerPointGas : ℕ := 170000

/-- `MONAD_BLAKE2F_ROUND_GAS`. -/
def monadBlake2fRoundGas : ℕ := 2

/-- `MONAD_POINT_EVALUATION_GAS`. -/
def monadPointEvaluationGas : ℕ := 200000

end Costs

section Runs

variable (lib : Library)

/-- The bytes `start..start + len` of an input. -/
def slice (input : Bytes) (start len : ℕ) : Bytes := (input.drop start).take len

/-- `u32::from_be_bytes`. -/
def u32FromBeBytes (bytes : Bytes) : U32 := Fin.ofNat (256 ^ 4) (beNat bytes)

/-- `u64::from_le_bytes`. -/
def u64FromLeBytes (bytes : Bytes) : U64 := Fin.ofNat (256 ^ 8) (beNat bytes.reverse)

/-- `u64::to_le_bytes`. -/
def u64ToLeBytes (n : U64) : Bytes := (beBytes 8 n.val).reverse

/-- The recovery id of an `ecrecover` input is a word equal to 27 or 28. -/
def RecidChecked (input : Bytes) : Prop :=
  (slice input 32 31).all (· == 0) = true ∧ (input.getD 63 0 = 27 ∨ input.getD 63 0 = 28)

/-- The recovery id is checked by looking at its bytes. -/
instance (input : Bytes) : Decidable (RecidChecked input) := inferInstanceAs (Decidable (_ ∧ _))

/-- `monad_ecrecover_run`. -/
def monadEcrecoverRun (input : Bytes) (gasLimit : ℕ) : PrecompileResult := do
  failIf (monadEcrecoverGas > gasLimit) .outOfGas
  let input := lib.rightPad input
  if ¬RecidChecked input then
    return ⟨monadEcrecoverGas, []⟩
  else
    let msg := slice input 0 32
    let recid := (input.getD 63 0).toNat - 27
    let sig := slice input 64 64
    return ⟨monadEcrecoverGas, (lib.secp256k1Ecrecover sig recid msg).getD []⟩

/-- `monad_ec_add_run`. -/
def monadEcAddRun (input : Bytes) (gasLimit : ℕ) : PrecompileResult :=
  lib.runAdd input monadEcAddGas gasLimit

/-- `monad_ec_mul_run`. -/
def monadEcMulRun (input : Bytes) (gasLimit : ℕ) : PrecompileResult :=
  lib.runMul input monadEcMulGas gasLimit

/-- `monad_ec_pairing_run`. -/
def monadEcPairingRun (input : Bytes) (gasLimit : ℕ) : PrecompileResult :=
  lib.runPair input monadEcPairingPerPointGas monadEcPairingBaseGas gasLimit

/-- The final block flag of `monad_blake2f_run`. -/
def finalBlockFlag : UInt8 → Except PrecompileError Bool
  | 0 => .ok false
  | 1 => .ok true
  | _ => .error .blake2WrongFinalIndicatorFlag

/-- The output of `monad_blake2f_run`. -/
def stateBytes (h : Fin 8 → U64) : Bytes := (List.ofFn fun i => u64ToLeBytes (h i)).flatten

/-- `monad_blake2f_run`. -/
def monadBlake2fRun (input : Bytes) (gasLimit : ℕ) : PrecompileResult := do
  failIf (input.length ≠ 213) .blake2WrongLength
  let rounds := u32FromBeBytes (slice input 0 4)
  let gasUsed := rounds.val * monadBlake2fRoundGas
  failIf (gasUsed > gasLimit) .outOfGas
  let f ← finalBlockFlag (input.getD 212 0)
  let h : Fin 8 → U64 := fun i => u64FromLeBytes (slice input (4 + i * 8) 8)
  let m : Fin 16 → U64 := fun i => u64FromLeBytes (slice input (68 + i * 8) 8)
  let t : Fin 2 → U64 := fun i => u64FromLeBytes (slice input (196 + i * 8) 8)
  return ⟨gasUsed, stateBytes (lib.blake2Compress rounds h m t f)⟩

/-- `monad_point_evaluation_run`. -/
def monadPointEvaluationRun (input : Bytes) (gasLimit : ℕ) : PrecompileResult := do
  failIf (gasLimit < monadPointEvaluationGas) .outOfGas
  failIf (input.length ≠ 192) .blobInvalidInputLength
  let versionedHash := slice input 0 32
  let commitment := slice input 96 48
  failIf (lib.kzgToVersionedHash commitment ≠ versionedHash) .blobMismatchedVersion
  let z := slice input 32 32
  let y := slice input 64 32
  let proof := slice input 144 48
  lib.verifyKzgProof z y commitment proof
  return ⟨monadPointEvaluationGas, lib.kzgReturnValue⟩

end Runs

section Formats

/-- A request for rounds of the compression function. -/
structure Blake2Request where
  rounds : U32
  h : Fin 8 → U64
  m : Fin 16 → U64
  t : Fin 2 → U64
  f : Bool

/-- The 213 bytes of a request, with any last byte. -/
def blake2Format :
    FixedFormat UInt8 (U32 × (Fin 8 → U64) × (Fin 16 → U64) × (Fin 2 → U64) × UInt8) :=
  (FixedFormat.be 4).pair (((FixedFormat.le 8).array 8).pair (((FixedFormat.le 8).array 16).pair
    (((FixedFormat.le 8).array 2).pair (FixedFormat.symbol UInt8))))

/-- The last byte of a request. -/
def flagByte (f : Bool) : UInt8 := if f then 1 else 0

/-- The bytes of a request. -/
def Blake2Request.encode (r : Blake2Request) : Bytes :=
  blake2Format.encode (r.rounds, r.h, r.m, r.t, flagByte r.f)

/-- The flag is read back from its byte, and from no other. -/
theorem finalBlockFlag_eq_ok {b : UInt8} {f : Bool} :
    finalBlockFlag b = .ok f ↔ b = flagByte f := by
  constructor
  · intro h
    unfold finalBlockFlag at h
    split at h <;> cases h <;> rfl
  · rintro rfl
    cases f <;> rfl

/-- The bytes say which request it is. -/
theorem Blake2Request.encode_injective : Function.Injective Blake2Request.encode := by
  rintro ⟨rounds, h, m, t, f⟩ ⟨rounds', h', m', t', f'⟩ hencode
  have hfields := blake2Format.encode_injective hencode
  simp only [Prod.mk.injEq] at hfields
  obtain ⟨rfl, rfl, rfl, rfl, hflag⟩ := hfields
  obtain rfl : f = f' := by
    have hread := finalBlockFlag_eq_ok.mpr hflag
    rw [finalBlockFlag_eq_ok.mpr rfl] at hread
    exact Except.ok.inj hread
  rfl

/-- A slice of a slice. -/
theorem slice_slice (input : Bytes) {start len start' len' : ℕ} (h : start' + len' ≤ len) :
    slice (slice input start len) start' len' = slice input (start + start') len' := by
  rw [slice, slice, slice, List.drop_take, List.take_take, List.drop_drop,
    Nat.min_eq_left (by omega)]

/-- An array of `u64`s from a position on. -/
theorem array_decode_slice {n : ℕ} (input : Bytes) (start : ℕ) (i : Fin n) :
    ((FixedFormat.le 8).array n).decode (slice input start (n * 8)) i =
      u64FromLeBytes (slice input (start + i * 8) 8) := by
  have hfits : i.val * 8 + 8 ≤ n * 8 := by omega
  rw [FixedFormat.array_decode]
  exact congrArg u64FromLeBytes (slice_slice input hfits)

/-- The parts of an input are where the code reads them. -/
theorem blake2Format_decode (input : Bytes) : blake2Format.decode input =
    (u32FromBeBytes (slice input 0 4),
      fun i : Fin 8 => u64FromLeBytes (slice input (4 + i * 8) 8),
      fun i : Fin 16 => u64FromLeBytes (slice input (68 + i * 8) 8),
      fun i : Fin 2 => u64FromLeBytes (slice input (196 + i * 8) 8), input.getD 212 0) := by
  have hm : (input.drop 4).drop 64 = input.drop 68 := List.drop_drop
  have ht : ((input.drop 4).drop 64).drop 128 = input.drop 196 := by rw [hm, List.drop_drop]
  have hflag : (((input.drop 4).drop 64).drop 128).drop 16 = input.drop 212 := by
    rw [ht, List.drop_drop]
  have hbyte : (input.drop 212).headD default = input.getD 212 0 := by
    rw [List.headD_eq_head?_getD, List.head?_drop]
    rfl
  refine Prod.ext rfl (Prod.ext (funext fun i => ?_) (Prod.ext (funext fun i => ?_)
    (Prod.ext (funext fun i => ?_) ?_)))
  · exact array_decode_slice input 4 i
  · exact (congrArg (fun s => ((FixedFormat.le 8).array 16).decode (s.take 128) i) hm).trans
      (array_decode_slice input 68 i)
  · exact (congrArg (fun s => ((FixedFormat.le 8).array 2).decode (s.take 16) i) ht).trans
      (array_decode_slice input 196 i)
  · exact (congrArg (·.headD default) hflag).trans hbyte

variable {lib : Library} {input : Bytes} {gasLimit : ℕ} {out : PrecompileOutput}

/-- The compression precompile answers exactly the requests whose rounds the gas covers. -/
theorem monadBlake2fRun_eq_ok : monadBlake2fRun lib input gasLimit = .ok out ↔
    ∃ r : Blake2Request, input = r.encode ∧ r.rounds.val * monadBlake2fRoundGas ≤ gasLimit ∧
      out = ⟨r.rounds.val * monadBlake2fRoundGas,
        stateBytes (lib.blake2Compress r.rounds r.h r.m r.t r.f)⟩ := by
  have hread (r : Blake2Request) : input = r.encode ↔ input.length = 213 ∧
      u32FromBeBytes (slice input 0 4) = r.rounds ∧
      (fun i : Fin 8 => u64FromLeBytes (slice input (4 + i * 8) 8)) = r.h ∧
      (fun i : Fin 16 => u64FromLeBytes (slice input (68 + i * 8) 8)) = r.m ∧
      (fun i : Fin 2 => u64FromLeBytes (slice input (196 + i * 8) 8)) = r.t ∧
      input.getD 212 0 = flagByte r.f := by
    rw [Blake2Request.encode, FixedFormat.eq_encode_iff, blake2Format_decode]
    simp only [Prod.mk.injEq]
    rfl
  simp only [hread]
  rw [monadBlake2fRun, bind_eq_ok]
  constructor
  · rintro ⟨_, hlength, h⟩
    obtain ⟨_, hgas, h⟩ := bind_eq_ok.mp h
    obtain ⟨f, hflag, h⟩ := bind_eq_ok.mp h
    refine ⟨⟨_, _, _, _, f⟩, ⟨not_not.mp (failIf_eq_ok.mp hlength), rfl, rfl, rfl, rfl,
      finalBlockFlag_eq_ok.mp hflag⟩, not_lt.mp (failIf_eq_ok.mp hgas), (pure_eq_ok.mp h).symm⟩
  · rintro ⟨⟨rounds, h, m, t, f⟩, ⟨hlength, rfl, rfl, rfl, rfl, hflag⟩, hgas, rfl⟩
    refine ⟨(), failIf_of_not (not_not.mpr hlength), bind_eq_ok.mpr ⟨(), failIf_of_not
      (not_lt.mpr hgas), bind_eq_ok.mpr ⟨f, finalBlockFlag_eq_ok.mpr hflag, rfl⟩⟩⟩

/-- A string of the length is made of its slices. -/
theorem slice_append_slice (input : Bytes) (start len len' : ℕ) :
    slice input start len ++ slice input (start + len) len' = slice input start (len + len') := by
  rw [slice, slice, slice, List.take_add, List.drop_drop]

/-- The start of a string. -/
theorem slice_start {a : Bytes} {n : ℕ} (h : a.length = n) (rest : Bytes) :
    slice (a ++ rest) 0 n = a :=
  List.take_left' h

/-- A slice after the start of a string is one of the rest. -/
theorem slice_skip {a : Bytes} {n : ℕ} (h : a.length = n) (rest : Bytes) (start len : ℕ) :
    slice (a ++ rest) (n + start) len = slice rest start len := by
  rw [slice, ← List.drop_drop, List.drop_left' h, slice]

/-- The point evaluation precompile answers exactly, for its gas, the versioned hash of a commitment
followed by a point, a value, the commitment and a proof that the library accepts. -/
theorem monadPointEvaluationRun_eq_ok : monadPointEvaluationRun lib input gasLimit = .ok out ↔
    monadPointEvaluationGas ≤ gasLimit ∧ (∃ z y commitment proof : Bytes,
      z.length = 32 ∧ y.length = 32 ∧ commitment.length = 48 ∧ proof.length = 48 ∧
      (lib.kzgToVersionedHash commitment).length = 32 ∧
      input = lib.kzgToVersionedHash commitment ++ (z ++ (y ++ (commitment ++ proof))) ∧
      lib.verifyKzgProof z y commitment proof = .ok ()) ∧
    out = ⟨monadPointEvaluationGas, lib.kzgReturnValue⟩ := by
  rw [monadPointEvaluationRun, bind_eq_ok]
  constructor
  · rintro ⟨_, hgas, h⟩
    obtain ⟨_, hlength, h⟩ := bind_eq_ok.mp h
    obtain ⟨_, hversion, h⟩ := bind_eq_ok.mp h
    obtain ⟨_, hverified, h⟩ := bind_eq_ok.mp h
    have hlength := not_not.mp (failIf_eq_ok.mp hlength)
    have hversion := not_not.mp (failIf_eq_ok.mp hversion)
    have hslice {start len : ℕ} (h : start + len ≤ 192) : (slice input start len).length = len := by
      rw [slice, List.length_take, List.length_drop, hlength]
      omega
    refine ⟨not_lt.mp (failIf_eq_ok.mp hgas), ⟨_, _, _, _, hslice (by decide), hslice (by decide),
      hslice (by decide), hslice (by decide), ?_, ?_, hverified⟩, (pure_eq_ok.mp h).symm⟩
    · rw [hversion]
      exact hslice (by decide)
    · rw [hversion, slice_append_slice, slice_append_slice, slice_append_slice, slice_append_slice]
      exact (List.take_of_length_le hlength.le).symm
  · rintro ⟨hgas, ⟨z, y, commitment, proof, hz, hy, hcommitment, hproof, hhash, rfl, hverified⟩,
      rfl⟩
    have hlength : (lib.kzgToVersionedHash commitment ++
        (z ++ (y ++ (commitment ++ proof)))).length = 192 := by
      simp only [List.length_append, hhash, hz, hy, hcommitment, hproof]
    have hversion := slice_start hhash (z ++ (y ++ (commitment ++ proof)))
    have hpoint := (slice_skip hhash _ 0 32).trans (slice_start hz (y ++ (commitment ++ proof)))
    have hvalue := (slice_skip hhash _ (32 + 0) 32).trans
      ((slice_skip hz _ 0 32).trans (slice_start hy (commitment ++ proof)))
    have hcommitted := (slice_skip hhash _ (32 + (32 + 0)) 48).trans
      ((slice_skip hz _ (32 + 0) 48).trans
        ((slice_skip hy _ 0 48).trans (slice_start hcommitment proof)))
    have hproven := (slice_skip hhash _ (32 + (32 + (48 + 0))) 48).trans
      ((slice_skip hz _ (32 + (48 + 0)) 48).trans ((slice_skip hy _ (48 + 0) 48).trans
        ((slice_skip hcommitment proof 0 48).trans (List.take_of_length_le hproof.le))))
    refine ⟨(), failIf_of_not (not_lt.mpr hgas), bind_eq_ok.mpr ⟨(), failIf_of_not
      (not_not.mpr hlength), bind_eq_ok.mpr ⟨(), failIf_of_not (not_not.mpr ?_), ?_⟩⟩⟩
    · exact (congrArg lib.kzgToVersionedHash hcommitted).trans hversion.symm
    · refine bind_eq_ok.mpr ⟨(), ?_, rfl⟩
      rw [← hverified]
      exact congr (congr (congr (congrArg _ hpoint) hvalue) hcommitted) hproven

/-- A padded input asks for the signer of a message: it is the message, a recovery id as a word and
the signature. -/
structure AsksSigner (padded msg : Bytes) (recid : ℕ) (sig : Bytes) : Prop where
  msg_length : msg.length = 32
  recid_le : recid ≤ 1
  sig_length : sig.length = 64
  padded_eq : padded = msg ++ (beBytes 32 (27 + recid) ++ sig)

/-- An input that passes the check asks for the signer of what the code reads. -/
theorem asksSigner_of_checked {padded : Bytes} (hlength : padded.length = 128)
    (h : RecidChecked padded) : AsksSigner padded (slice padded 0 32)
      ((padded.getD 63 0).toNat - 27) (slice padded 64 64) := by
  obtain ⟨hzeros, hv⟩ := h
  have hslice {start len : ℕ} (h : start + len ≤ 128) : (slice padded start len).length = len := by
    rw [slice, List.length_take, List.length_drop, hlength]
    omega
  have hpadding : slice padded 32 31 = List.replicate 31 0 := by
    rw [List.eq_replicate_iff, and_iff_right (hslice (by decide))]
    simpa using hzeros
  have hlast : slice padded 63 1 = [padded.getD 63 0] := by
    rw [slice, List.getD_eq_getElem?_getD, List.take_one, List.head?_drop,
      List.getElem?_eq_getElem (by omega)]
    rfl
  have hword : slice padded 32 32 = beBytes 32 (27 + ((padded.getD 63 0).toNat - 27)) := by
    rw [← slice_append_slice padded 32 31 1, hpadding, hlast]
    rcases hv with hv | hv <;> rw [hv] <;> rfl
  refine ⟨hslice (by decide), ?_, hslice (by decide), ?_⟩
  · rcases hv with hv | hv <;> rw [hv] <;> decide
  · rw [← hword, slice_append_slice, slice_append_slice]
    exact (List.take_of_length_le hlength.le).symm

/-- An input that asks passes the check, and the code reads what it asks. -/
theorem AsksSigner.checked {padded msg sig : Bytes} {recid : ℕ}
    (h : AsksSigner padded msg recid sig) : RecidChecked padded ∧ slice padded 0 32 = msg ∧
      (padded.getD 63 0).toNat - 27 = recid ∧ slice padded 64 64 = sig := by
  obtain ⟨hmsg, hrecid, hsig, rfl⟩ := h
  have hword : beBytes 32 (27 + recid) ++ sig =
      List.replicate 31 0 ++ ([UInt8.ofNat (27 + recid)] ++ sig) := by
    obtain rfl | rfl : recid = 0 ∨ recid = 1 := by omega
    · rfl
    · rfl
  have hsign : slice (msg ++ (beBytes 32 (27 + recid) ++ sig)) (32 + (32 + 0)) 64 = sig :=
    (slice_skip hmsg _ (32 + 0) 64).trans ((slice_skip (beBytes_length 32 _) sig 0 64).trans
      (List.take_of_length_le hsig.le))
  have hmessage := slice_start hmsg (beBytes 32 (27 + recid) ++ sig)
  have hzeros := slice_skip hmsg (beBytes 32 (27 + recid) ++ sig) 0 31
  rw [hword, slice_start List.length_replicate, ← hword] at hzeros
  have hbyte : (msg ++ (beBytes 32 (27 + recid) ++ sig)).getD 63 0 = UInt8.ofNat (27 + recid) := by
    rw [List.getD_append_right _ _ _ _ (by omega), hmsg, hword,
      List.getD_append_right _ _ _ _ (by simp)]
    rfl
  rw [RecidChecked, hzeros, hbyte]
  refine ⟨⟨by decide, ?_⟩, hmessage, ?_, hsign⟩
  · obtain rfl | rfl : recid = 0 ∨ recid = 1 := by omega
    · exact .inl rfl
    · exact .inr rfl
  · obtain rfl | rfl : recid = 0 ∨ recid = 1 := by omega
    · rfl
    · rfl

/-- The signer precompile answers every input for its gas: with the signer the library finds when
the padded input asks for one, and with nothing otherwise. -/
theorem monadEcrecoverRun_eq_ok (hpad : (lib.rightPad input).length = 128) :
    monadEcrecoverRun lib input gasLimit = .ok out ↔
      monadEcrecoverGas ≤ gasLimit ∧ out.gasUsed = monadEcrecoverGas ∧
        ((∃ msg recid sig, AsksSigner (lib.rightPad input) msg recid sig ∧
            out.bytes = (lib.secp256k1Ecrecover sig recid msg).getD []) ∨
          (∀ msg recid sig, ¬AsksSigner (lib.rightPad input) msg recid sig) ∧ out.bytes = []) := by
  rw [monadEcrecoverRun]
  by_cases hgas : monadEcrecoverGas ≤ gasLimit
  swap
  · rw [failIf_of (not_le.mp hgas), error_bind]
    exact iff_of_false nofun fun h => hgas h.1
  rw [failIf_of_not (not_lt.mpr hgas), ok_bind, and_iff_right hgas]
  dsimp only
  by_cases hchecked : RecidChecked (lib.rightPad input)
  · have hasks := asksSigner_of_checked hpad hchecked
    rw [if_neg (not_not.mpr hchecked), pure_eq_ok]
    constructor
    · rintro rfl
      exact ⟨rfl, .inl ⟨_, _, _, hasks, rfl⟩⟩
    · rintro ⟨hused, ⟨msg, recid, sig, hasks', hbytes⟩ | ⟨hnone, -⟩⟩
      · obtain ⟨-, rfl, rfl, rfl⟩ := hasks'.checked
        cases out
        cases hused
        cases hbytes
        rfl
      · exact absurd hasks (hnone _ _ _)
  · have hnone : ∀ msg recid sig, ¬AsksSigner (lib.rightPad input) msg recid sig :=
      fun _ _ _ hasks => hchecked hasks.checked.1
    rw [if_pos hchecked, pure_eq_ok]
    constructor
    · rintro rfl
      exact ⟨rfl, .inr ⟨hnone, rfl⟩⟩
    · rintro ⟨hused, ⟨msg, recid, sig, hasks, -⟩ | ⟨-, hbytes⟩⟩
      · exact absurd hasks (hnone _ _ _)
      · cases out
        cases hused
        cases hbytes
        rfl

/-- What the repriced precompiles accept. For every input and gas limit: the compression precompile
answers exactly the encodings of a request, each of which stands for one request, for two gas a
round; the point evaluation precompile exactly the versioned hash of a commitment followed by what
the library verifies with it; and the signer precompile every input, with the signer that the
library finds or with nothing. -/
theorem repriced_formats (lib : Library) (hpad : ∀ input, (lib.rightPad input).length = 128)
    (input : Bytes) (gasLimit : ℕ) (out : PrecompileOutput) :
    (monadBlake2fRun lib input gasLimit = .ok out ↔ ∃ r : Blake2Request, input = r.encode ∧
      r.rounds.val * monadBlake2fRoundGas ≤ gasLimit ∧
      out = ⟨r.rounds.val * monadBlake2fRoundGas,
        stateBytes (lib.blake2Compress r.rounds r.h r.m r.t r.f)⟩) ∧
    Function.Injective Blake2Request.encode ∧
    (monadPointEvaluationRun lib input gasLimit = .ok out ↔
      monadPointEvaluationGas ≤ gasLimit ∧ (∃ z y commitment proof : Bytes,
        z.length = 32 ∧ y.length = 32 ∧ commitment.length = 48 ∧ proof.length = 48 ∧
        (lib.kzgToVersionedHash commitment).length = 32 ∧
        input = lib.kzgToVersionedHash commitment ++ (z ++ (y ++ (commitment ++ proof))) ∧
        lib.verifyKzgProof z y commitment proof = .ok ()) ∧
      out = ⟨monadPointEvaluationGas, lib.kzgReturnValue⟩) ∧
    (monadEcrecoverRun lib input gasLimit = .ok out ↔
      monadEcrecoverGas ≤ gasLimit ∧ out.gasUsed = monadEcrecoverGas ∧
        ((∃ msg recid sig, AsksSigner (lib.rightPad input) msg recid sig ∧
            out.bytes = (lib.secp256k1Ecrecover sig recid msg).getD []) ∨
          (∀ msg recid sig, ¬AsksSigner (lib.rightPad input) msg recid sig) ∧ out.bytes = [])) :=
  ⟨monadBlake2fRun_eq_ok, Blake2Request.encode_injective, monadPointEvaluationRun_eq_ok,
    monadEcrecoverRun_eq_ok (hpad input)⟩

/-- A library whose compression keeps the state and whose other functions find nothing. -/
def idleLibrary : Library where
  rightPad input := (input ++ List.replicate 128 0).take 128
  secp256k1Ecrecover _ _ _ := none
  blake2Compress _ h _ _ _ := h
  kzgToVersionedHash _ := []
  verifyKzgProof _ _ _ _ := .error (.library "kzg proof")
  kzgReturnValue := []
  runAdd _ _ _ := .error .outOfGas
  runMul _ _ _ := .error .outOfGas
  runPair _ _ _ _ := .error .outOfGas
  p256Verify _ _ := .error .outOfGas
  mldsaVerify _ := 0
  blake3Hash _ := 0

/-- Twelve rounds of that compression cost 24 gas and give the state back. -/
theorem repriced_formats_rounds :
    monadBlake2fRun idleLibrary
      (Blake2Request.encode ⟨12, fun _ => 7, fun _ => 0, fun _ => 0, true⟩) 24 =
      .ok ⟨24, stateBytes fun _ => 7⟩ := by
  have hpad : ∀ input, (idleLibrary.rightPad input).length = 128 := by
    intro input
    simp [idleLibrary]
  exact (repriced_formats idleLibrary hpad _ 24 _).1.mpr ⟨_, rfl, le_rfl, rfl⟩

end Formats

end SuwappuRevm.Builtins
