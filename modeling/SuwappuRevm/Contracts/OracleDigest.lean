import SuwappuRevm.Contracts.OracleQuorum

/-!
# What a counted signature is over

The oracle packs key, signature and digest without lengths and the precompile splits the packed
bytes again at fixed offsets. For a 1952-byte key both agree exactly when the submitted signature
has 3309 bytes; otherwise the boundary between signature and message shifts and the precompile
verifies a message other than the digest.
-/

namespace SuwappuRevm.Contracts

open Foundations

/-- Length of an ML-DSA-65 public key. -/
def mldsaPubkeyBytes : ℕ := 1952

/-- Length of an ML-DSA-65 signature. -/
def mldsaSignatureBytes : ℕ := 3309

/-- What the documentation of the precompile says of it: the input is a key, a signature and a
message, without padding, and the last byte of the answer is 1 exactly on a valid signature.
`valid` is ML-DSA-65 verification, whose signatures have one length. -/
structure SplitsInput (mldsaVerify : Bytes → Word) (valid : Bytes → Bytes → Bytes → Prop) :
    Prop where
  answer_iff : ∀ input, (mldsaVerify input).toBytes[31]? = some 1 ↔
    mldsaPubkeyBytes + mldsaSignatureBytes ≤ input.length ∧
      valid (input.take mldsaPubkeyBytes)
        ((input.drop mldsaPubkeyBytes).take mldsaSignatureBytes)
        (input.drop (mldsaPubkeyBytes + mldsaSignatureBytes))
  signature_length : ∀ pubkey sig msg, valid pubkey sig msg → sig.length = mldsaSignatureBytes

/-- Behind a key of the right length the split sees the signature field and the digest. -/
theorem accepts_iff_split {crypto : Crypto} {valid : Bytes → Bytes → Bytes → Prop}
    (hverify : SplitsInput crypto.mldsaVerify valid) {digest : Word} {pubkey sig : Bytes}
    (hkey : pubkey.length = mldsaPubkeyBytes) :
    accepts crypto digest pubkey sig = true ↔
      mldsaSignatureBytes ≤ (sig ++ digest.toBytes).length ∧
        valid pubkey ((sig ++ digest.toBytes).take mldsaSignatureBytes)
          ((sig ++ digest.toBytes).drop mldsaSignatureBytes) := by
  have hdrop : (pubkey ++ (sig ++ digest.toBytes)).drop mldsaPubkeyBytes =
      sig ++ digest.toBytes := List.drop_left' hkey
  have hlength : (pubkey ++ (sig ++ digest.toBytes)).length =
      mldsaPubkeyBytes + (sig ++ digest.toBytes).length := by
    rw [List.length_append, hkey]
  rw [accepts, beq_iff_eq, List.append_assoc, hverify.answer_iff, List.take_left' hkey, hdrop,
    ← List.drop_drop, hdrop, hlength, Nat.add_le_add_iff_left]

/-- A signature of the right length leaves exactly the digest as the message. -/
theorem split_of_signature_length {digest : Word} {sig : Bytes}
    (hsig : sig.length = mldsaSignatureBytes) :
    (sig ++ digest.toBytes).take mldsaSignatureBytes = sig ∧
      (sig ++ digest.toBytes).drop mldsaSignatureBytes = digest.toBytes :=
  ⟨List.take_left' hsig, List.drop_left' hsig⟩

section Counted

variable (crypto : Crypto)

/-- The entries whose stake the loop adds before it ends or reverts. -/
def addedEntries (r : Registry) (gas : ForwardedGas) (epoch : ℕ) (digest : Word) :
    ℕ → Word → ℕ → List (Bytes × Bytes) → List (Bytes × Bytes)
  | _, _, _, [] => []
  | i, lastHash, sigStake, (pubkey, sig) :: rest =>
    match countSignature crypto r gas epoch digest i lastHash sigStake pubkey sig with
    | .error _ => []
    | .ok (valid, sigStake) =>
      let added := addedEntries r gas epoch digest (i + 1) (crypto.keccak256 pubkey) sigStake rest
      if valid then (pubkey, sig) :: added else added

/-- The entries whose stake a call of `submitHeader` adds, whether or not it reverts later. -/
def submitAdded (d : Deployment) (r : Registry) (o : Oracle) (gas : ForwardedGas)
    (blockNumber : ℕ) (stateRoot : Word) (epoch : ℕ) (pubkeys sigs : List Bytes) :
    List (Bytes × Bytes) :=
  if pubkeys.length ≠ sigs.length then []
  else
    match headerDigest crypto d o gas blockNumber stateRoot with
    | .error _ => []
    | .ok digest => addedEntries crypto r gas epoch digest 0 0 0 (pubkeys.zip sigs)

/-- The loop adds only entries the precompile accepts. -/
theorem accepts_of_mem_addedEntries {r : Registry} {gas : ForwardedGas} {epoch : ℕ}
    {digest : Word} {entries : List (Bytes × Bytes)} {i : ℕ} {lastHash : Word} {sigStake : ℕ}
    {e : Bytes × Bytes}
    (h : e ∈ addedEntries crypto r gas epoch digest i lastHash sigStake entries) :
    accepts crypto digest e.1 e.2 = true := by
  induction entries generalizing i lastHash sigStake with
  | nil => simp [addedEntries] at h
  | cons entry rest ih =>
    obtain ⟨pubkey, sig⟩ := entry
    unfold addedEntries at h
    split at h
    next => simp at h
    next valid next hentry =>
      obtain ⟨-, haccepts, -⟩ := countSignature_spec crypto hentry
      split at h
      next hvalid =>
        rcases List.mem_cons.mp h with rfl | htail
        · rw [← haccepts, hvalid]
        · exact ih htail
      next => exact ih h

/-- A call adds only entries the precompile accepts over the header digest. -/
theorem accepts_of_mem_submitAdded {d : Deployment} {r : Registry} {o : Oracle}
    {gas : ForwardedGas} {blockNumber : ℕ} {stateRoot : Word} {epoch : ℕ}
    {pubkeys sigs : List Bytes} {e : Bytes × Bytes}
    (h : e ∈ submitAdded crypto d r o gas blockNumber stateRoot epoch pubkeys sigs) :
    accepts crypto (digestOf crypto d.networkId o.address blockNumber stateRoot) e.1 e.2 =
      true := by
  unfold submitAdded at h
  split at h
  next => simp at h
  next =>
    split at h
    next => simp at h
    next digest hdigest =>
      rw [← headerDigest_spec crypto hdigest]
      exact accepts_of_mem_addedEntries crypto h

end Counted

/-- For every call of `submitHeader` and every entry with a 1952-byte key whose stake it adds,
the submitted signature is a valid one by that key over exactly the header digest if and only if
it is 3309 bytes long. -/
theorem added_signature_over_digest_iff {crypto : Crypto} {valid : Bytes → Bytes → Bytes → Prop}
    (hverify : SplitsInput crypto.mldsaVerify valid) (d : Deployment) (r : Registry) (o : Oracle)
    (gas : ForwardedGas) (blockNumber : ℕ) (stateRoot : Word) (epoch : ℕ)
    (pubkeys sigs : List Bytes) {pubkey sig : Bytes}
    (hadded : (pubkey, sig) ∈
      submitAdded crypto d r o gas blockNumber stateRoot epoch pubkeys sigs)
    (hkey : pubkey.length = mldsaPubkeyBytes) :
    valid pubkey sig (digestOf crypto d.networkId o.address blockNumber stateRoot).toBytes ↔
      sig.length = mldsaSignatureBytes := by
  constructor
  · intro hvalid
    exact hverify.signature_length _ _ _ hvalid
  · intro hlength
    have haccepts := accepts_of_mem_submitAdded crypto hadded
    have hsplit := ((accepts_iff_split hverify hkey).mp haccepts).2
    rwa [(split_of_signature_length hlength).1, (split_of_signature_length hlength).2] at hsplit

/-- A 1952-byte key. -/
def sampleKey : Bytes := List.replicate 1952 1

/-- A 3309-byte signature. -/
def sampleSignature : Bytes := List.replicate 3309 2

/-- The key has signed one message. -/
def sampleValid (signed : Bytes) (pubkey sig msg : Bytes) : Bool :=
  pubkey == sampleKey && sig == sampleSignature && msg == signed

/-- Stand-ins that run, with a precompile that splits its input as documented. -/
def splittingCrypto (valid : Bytes → Bytes → Bytes → Bool) : Crypto where
  keccak256 bytes := Word.ofBytes (1 :: bytes)
  blake3Hash bytes := Word.ofBytes bytes
  mldsaVerify input :=
    if 5261 ≤ input.length ∧
      valid (input.take 1952) ((input.drop 1952).take 3309) (input.drop 5261) then 1 else 0

/-- The stand-in meets the documented behaviour. -/
theorem splittingCrypto_splits {valid : Bytes → Bytes → Bytes → Bool}
    (hlength : ∀ pubkey sig msg, valid pubkey sig msg = true → sig.length = 3309) :
    SplitsInput (splittingCrypto valid).mldsaVerify fun pubkey sig msg =>
      valid pubkey sig msg = true where
  answer_iff input := by
    simp only [splittingCrypto, mldsaPubkeyBytes, mldsaSignatureBytes]
    have hone : (1 : Word).toBytes[31]? = some 1 := by decide +kernel
    have hzero : (0 : Word).toBytes[31]? ≠ some 1 := by decide +kernel
    split
    next h => exact ⟨fun _ => h, fun _ => hone⟩
    next h => exact ⟨fun h0 => absurd h0 hzero, fun hsplit => absurd hsplit h⟩
  signature_length := hlength

/-- The only signature of the sample key has the right length. -/
theorem sampleValid_length (signed pubkey sig msg : Bytes)
    (h : sampleValid signed pubkey sig msg = true) : sig.length = 3309 := by
  simp only [sampleValid, Bool.and_eq_true, beq_iff_eq] at h
  rw [h.1.2, sampleSignature, List.length_replicate]

/-- The registry after an execution that gives the sample key the whole stake of epoch 0. -/
def sampleKeyRegistry (crypto : Crypto) : Registry :=
  let hash := crypto.keccak256 sampleKey
  registryAt crypto.keccak256 sampleDeployment
    [⟨5, 1, .propose 0 [hash] [1]⟩,
     ⟨6, 1, .execute (crypto.keccak256 (abiEncodeProposal 0 [hash] [1]))⟩] 2

/-- A 3309-byte signature over the digest is counted and is over exactly the digest. -/
theorem added_signature_over_digest_iff_sample :
    sampleValid (Word.toBytes 9) sampleKey sampleSignature
        (digestOf (splittingCrypto (sampleValid (Word.toBytes 9))) 1 77 4 9).toBytes = true ↔
      sampleSignature.length = 3309 :=
  added_signature_over_digest_iff
    (splittingCrypto_splits (sampleValid_length (Word.toBytes 9))) sampleDeployment
    (sampleKeyRegistry (splittingCrypto (sampleValid (Word.toBytes 9)))) sampleOracle
    ⟨1000, fun _ => 20000⟩ 4 9 0 [sampleKey] [sampleSignature] (by decide +kernel)
    (by decide +kernel)

/-- Stand-ins in which the key's only signature is over the 33-byte message `5 ‖ 9`. -/
def shiftedCrypto : Crypto := splittingCrypto (sampleValid (5 :: Word.toBytes 9))

/-- Moving the byte 5 to the end of the signature field stores root 9 with a signature that is
not over the digest. -/
theorem shifted_signature_counted :
    SplitsInput shiftedCrypto.mldsaVerify
        (fun pubkey sig msg => sampleValid (5 :: Word.toBytes 9) pubkey sig msg = true) ∧
      0 < (sampleKeyRegistry shiftedCrypto).stakeAt 0 (shiftedCrypto.keccak256 sampleKey) ∧
      sampleKey.length = mldsaPubkeyBytes ∧
      (submitHeader shiftedCrypto sampleDeployment (sampleKeyRegistry shiftedCrypto)
        sampleOracle ⟨1000, fun _ => 20000⟩ 4 9 0 [sampleKey]
        [sampleSignature ++ [5]]).isOk = true ∧
      (sampleKey, sampleSignature ++ [5]) ∈
        submitAdded shiftedCrypto sampleDeployment (sampleKeyRegistry shiftedCrypto)
          sampleOracle ⟨1000, fun _ => 20000⟩ 4 9 0 [sampleKey]
          [sampleSignature ++ [5]] ∧
      ¬sampleValid (5 :: Word.toBytes 9) sampleKey (sampleSignature ++ [5])
        (digestOf shiftedCrypto 1 77 4 9).toBytes = true :=
  ⟨splittingCrypto_splits (sampleValid_length (5 :: Word.toBytes 9)), by decide +kernel,
    by decide +kernel, by decide +kernel, by decide +kernel, by decide +kernel⟩

end SuwappuRevm.Contracts
