import SuwappuRevm.Contracts.HeaderOracle
import SuwappuRevm.Contracts.RegistryEpochs

/-!
# Quorum soundness of the oracle

The signature loop demands strictly increasing key hashes, so the accepted hashes are distinct
and their stakes are distinct cells of the epoch's ledger. With the registry's totals covering
that ledger, a header is stored only on strictly more than two thirds of a finalized epoch.
-/

namespace SuwappuRevm.Contracts

open Foundations

section Acceptance

variable (crypto : Crypto)

/-- The precompile accepts this key and signature for the digest. -/
def accepts (digest : Word) (pubkey sig : Bytes) : Bool :=
  (crypto.mldsaVerify (pubkey ++ sig ++ digest.toBytes)).toBytes[31]? == some 1

/-- The key hashes of the accepted entries, in order of submission. -/
def acceptedHashes (digest : Word) (entries : List (Bytes × Bytes)) : List Word :=
  (entries.filter fun e => accepts crypto digest e.1 e.2).map fun e => crypto.keccak256 e.1

/-- The BLAKE3 digest of a header of this deployment. -/
def digestOf (networkId : ℕ) (oracle : Address) (blockNumber : ℕ) (stateRoot : Word) : Word :=
  crypto.blake3Hash (headerPreimage crypto networkId oracle blockNumber stateRoot)

/-- A digest call that returns gives the BLAKE3 hash of the preimage. -/
theorem headerDigest_spec {d : Deployment} {o : Oracle} {gas : ForwardedGas} {blockNumber : ℕ}
    {stateRoot digest : Word}
    (h : headerDigest crypto d o gas blockNumber stateRoot = .ok digest) :
    digest = digestOf crypto d.networkId o.address blockNumber stateRoot := by
  simp only [headerDigest, staticcall, suwappuBlake3Run] at h
  by_cases hgas : suwappuBlake3BaseGas + suwappuBlake3WordGas *
      (((headerPreimage crypto d.networkId o.address blockNumber stateRoot).length + 31) / 32) >
        gas.blake3
  · simp [failIf, hgas, bind, Except.bind] at h
  · simp only [failIf, hgas, if_false, bind, Except.bind, pure, Except.pure] at h
    simpa [digestOf, eq_comm] using h

/-- A verification call that returns says whether the precompile accepts. -/
theorem signatureValid_spec {gas : ℕ} {pubkey sig : Bytes} {digest : Word} {valid : Bool}
    (h : signatureValid crypto gas pubkey sig digest = .ok valid) :
    valid = accepts crypto digest pubkey sig := by
  simp only [signatureValid, staticcall, suwappuMldsa65VerifyRun] at h
  by_cases hgas : suwappuMldsa65VerifyGas > gas
  · simp [failIf, hgas, bind, Except.bind] at h
  · simp only [failIf, hgas, if_false, bind, Except.bind, pure, Except.pure] at h
    simpa [accepts, eq_comm] using h

/-- One entry must exceed the last hash and adds its stake exactly when it is accepted. -/
theorem countSignature_spec {r : Registry} {gas : ForwardedGas} {epoch : ℕ} {digest : Word}
    {i : ℕ} {lastHash : Word} {sigStake next : ℕ} {pubkey sig : Bytes} {valid : Bool}
    (h : countSignature crypto r gas epoch digest i lastHash sigStake pubkey sig =
      .ok (valid, next)) :
    lastHash < crypto.keccak256 pubkey ∧ valid = accepts crypto digest pubkey sig ∧
      next = sigStake + if valid then r.stakeAt epoch (crypto.keccak256 pubkey) else 0 := by
  simp only [countSignature, bind_eq_ok, failIf_eq_ok, not_le, pure_eq_ok, Prod.mk.injEq] at h
  obtain ⟨-, hsorted, _, hvalid, _, hnext, rfl, rfl⟩ := h
  refine ⟨hsorted, signatureValid_spec crypto hvalid, ?_⟩
  unfold addStake at hnext
  split at hnext
  next hv => rw [(checkedAdd_eq_ok.mp hnext).2, if_pos hv]
  next hv =>
    cases hnext
    rw [if_neg hv, Nat.add_zero]

/-- The loop passes only strictly increasing hashes and adds exactly the accepted stakes. -/
theorem countSignatures_spec {r : Registry} {gas : ForwardedGas} {epoch : ℕ} {digest : Word}
    {entries : List (Bytes × Bytes)} {i : ℕ} {lastHash : Word} {sigStake total : ℕ}
    (h : countSignatures crypto r gas epoch digest i lastHash sigStake entries = .ok total) :
    (lastHash :: entries.map fun e => crypto.keccak256 e.1).Pairwise (· < ·) ∧
      total = sigStake +
        ((acceptedHashes crypto digest entries).map (r.stakeAt epoch)).sum := by
  induction entries generalizing i lastHash sigStake with
  | nil =>
    cases h
    simp [acceptedHashes]
  | cons entry rest ih =>
    obtain ⟨pubkey, sig⟩ := entry
    simp only [countSignatures, bind_eq_ok] at h
    obtain ⟨⟨valid, next⟩, hentry, hrest⟩ := h
    obtain ⟨hsorted, haccepts, hnext⟩ := countSignature_spec crypto hentry
    obtain ⟨hpairwise, htotal⟩ := ih hrest
    refine ⟨List.Pairwise.cons ?_ hpairwise, ?_⟩
    · intro hash hmem
      rcases List.mem_cons.mp hmem with rfl | htail
      · exact hsorted
      · exact hsorted.trans (List.rel_of_pairwise_cons hpairwise htail)
    · rw [htotal, hnext]
      cases valid with
      | true => simp [acceptedHashes, ← haccepts, Nat.add_assoc]
      | false => simp [acceptedHashes, ← haccepts]

/-- Accepted hashes are distinct. -/
theorem acceptedHashes_nodup {digest lastHash : Word} {entries : List (Bytes × Bytes)}
    (h : (lastHash :: entries.map fun e => crypto.keccak256 e.1).Pairwise (· < ·)) :
    (acceptedHashes crypto digest entries).Nodup := by
  have hsorted : (entries.map fun e => crypto.keccak256 e.1).Pairwise (· < ·) :=
    List.Pairwise.of_cons h
  have hsub : (acceptedHashes crypto digest entries).Sublist
      (entries.map fun e => crypto.keccak256 e.1) := List.filter_sublist.map _
  exact (hsorted.sublist hsub).imp fun hlt => ne_of_lt hlt

end Acceptance

/-- The threshold is `⌊2·total/3⌋ + 1`. -/
theorem quorumThreshold_spec {r : Registry} {epoch needed : ℕ}
    (h : r.quorumThreshold epoch = .ok needed) :
    needed = r.totalStakeByEpoch epoch * 2 / 3 + 1 := by
  simp only [Registry.quorumThreshold, bind_eq_ok, checkedMul_eq_ok, checkedAdd_eq_ok] at h
  obtain ⟨-, ⟨-, rfl⟩, -, rfl⟩ := h
  rfl

/-- Store a header's root: the only effect of a submission. -/
def Oracle.store (o : Oracle) (blockNumber : ℕ) (stateRoot : Word) : Oracle :=
  let roots := Function.update (o.headerStateRoot o.chainId) blockNumber stateRoot
  { o with headerStateRoot := Function.update o.headerStateRoot o.chainId roots }

/-- The storage after a submission, cell by cell. -/
theorem Oracle.store_headerStateRoot (o : Oracle) (blockNumber : ℕ) (stateRoot : Word)
    (chain block : ℕ) :
    (o.store blockNumber stateRoot).headerStateRoot chain block =
      if chain = o.chainId ∧ block = blockNumber then stateRoot
      else o.headerStateRoot chain block := by
  unfold Oracle.store
  by_cases hchain : chain = o.chainId
  · subst hchain
    by_cases hblock : block = blockNumber
    · simp [hblock]
    · simp [hblock, Function.update_of_ne]
  · simp [hchain, Function.update_of_ne]

/-- What a successful submission has established. -/
theorem submitHeader_spec {crypto : Crypto} {d : Deployment} {r : Registry} {o o' : Oracle}
    {gas : ForwardedGas} {blockNumber : ℕ} {stateRoot : Word} {epoch : ℕ}
    {pubkeys sigs : List Bytes}
    (h : submitHeader crypto d r o gas blockNumber stateRoot epoch pubkeys sigs = .ok o') :
    ∃ hashes, hashes = acceptedHashes crypto
        (digestOf crypto d.networkId o.address blockNumber stateRoot) (pubkeys.zip sigs) ∧
      hashes.Nodup ∧
      r.totalStakeByEpoch epoch * 2 / 3 + 1 ≤ (hashes.map (r.stakeAt epoch)).sum ∧
      o' = o.store blockNumber stateRoot := by
  simp only [submitHeader, bind_eq_ok, failIf_eq_ok, pure_eq_ok, mapError_eq_ok, not_lt] at h
  obtain ⟨-, -, digest, hdigest, sigStake, hcount, needed, hneeded, -, hquorum, rfl⟩ := h
  obtain ⟨hpairwise, hstake⟩ := countSignatures_spec crypto hcount
  obtain rfl := headerDigest_spec crypto hdigest
  refine ⟨_, rfl, acceptedHashes_nodup crypto hpairwise, ?_, rfl⟩
  rwa [← quorumThreshold_spec hneeded, ← Nat.zero_add (List.sum _), ← hstake]

/-- Distinct hashes never count more than the epoch's total. -/
theorem acceptedStake_le_total {r : Registry} (hr : r.EpochsSound) (epoch : ℕ) {hashes : List Word}
    (h : hashes.Nodup) :
    (hashes.map (r.stakeAt epoch)).sum ≤ r.totalStakeByEpoch epoch := by
  rw [← List.sum_toFinset _ h]
  exact (Finset.sum_le_sum_of_subset (Finset.subset_univ _)).trans (hr.covered epoch)

/-- Hashes that carry stake at an epoch finalize that epoch. -/
theorem finalized_of_stake {r : Registry} (hr : r.EpochsSound) {epoch : ℕ} {hashes : List Word}
    (h : 1 ≤ (hashes.map (r.stakeAt epoch)).sum) : r.Finalized epoch := by
  by_contra hnot
  have hzero : ∀ pkHash, r.stakeAt epoch pkHash = 0 := (hr.empty epoch hnot).1
  have hsum : (hashes.map (r.stakeAt epoch)).sum = 0 := by
    simp [List.sum_eq_zero_iff, hzero]
  omega

/-- A successful submission of the pair is a successful submission to the oracle. -/
theorem bridgeStep_submit {crypto : Crypto} {d : Deployment} {s s' : Bridge} {gas : ForwardedGas}
    {blockNumber : ℕ} {stateRoot : Word} {epoch : ℕ} {pubkeys sigs : List Bytes}
    (h : bridgeStep crypto d s (.submit gas blockNumber stateRoot epoch pubkeys sigs) = .ok s') :
    ∃ o', submitHeader crypto d s.registry s.oracle gas blockNumber stateRoot epoch pubkeys sigs =
      .ok o' ∧ s' = { s with oracle := o' } := by
  simp only [bridgeStep, bind_eq_ok, pure_eq_ok] at h
  obtain ⟨o', hsubmit, rfl⟩ := h
  exact ⟨o', hsubmit, rfl⟩

/-- Quorum soundness. From every registry state a run of its calls reaches and every oracle
storage: a submission that succeeds has accepted keys with pairwise distinct hashes whose stakes
at a finalized epoch sum to at least one unit, to at most the epoch's total and to strictly more
than two thirds of it, and writes that one root and nothing else. One that reverts changes
nothing. -/
theorem submitHeader_quorum_sound (crypto : Crypto) (d : Deployment) (txs : List RegistryTx)
    (n : ℕ) (o : Oracle) (gas : ForwardedGas) (blockNumber : ℕ) (stateRoot : Word) (epoch : ℕ)
    (pubkeys sigs : List Bytes) :
    let s : Bridge := ⟨registryAt crypto.keccak256 d txs n, o⟩
    let call := BridgeCall.submit gas blockNumber stateRoot epoch pubkeys sigs
    let hashes := acceptedHashes crypto
      (digestOf crypto d.networkId o.address blockNumber stateRoot) (pubkeys.zip sigs)
    let signed := (hashes.map (s.registry.stakeAt epoch)).sum
    (∀ s', bridgeStep crypto d s call = .ok s' →
      hashes.Nodup ∧ 2 * s.registry.totalStakeByEpoch epoch < 3 * signed ∧ 1 ≤ signed ∧
        signed ≤ s.registry.totalStakeByEpoch epoch ∧ s.registry.Finalized epoch ∧
        s'.registry = s.registry ∧ s'.oracle.address = o.address ∧
        s'.oracle.chainId = o.chainId ∧
        ∀ chain block, s'.oracle.headerStateRoot chain block =
          if chain = o.chainId ∧ block = blockNumber then stateRoot
          else o.headerStateRoot chain block) ∧
    (∀ e, bridgeStep crypto d s call = .error e → perform (bridgeStep crypto d) s call = s) := by
  intro s call hashes signed
  have hsound := registryAt_epochsSound crypto.keccak256 d txs n
  refine ⟨?_, fun e h => perform_of_error h⟩
  intro s' h
  obtain ⟨o', hsubmit, rfl⟩ := bridgeStep_submit h
  obtain ⟨_, rfl, hnodup, hquorum, rfl⟩ := submitHeader_spec hsubmit
  have hpos : 1 ≤ signed := (Nat.le_add_left 1 _).trans hquorum
  exact ⟨hnodup, two_thirds_lt_of_threshold_le hquorum, hpos,
    acceptedStake_le_total hsound epoch hnodup, finalized_of_stake hsound hpos, rfl, rfl, rfl,
    o.store_headerStateRoot blockNumber stateRoot⟩

/-- Stand-ins that run: the hashes read their input as a number and a signature is the byte 7. -/
def sampleCrypto : Crypto where
  keccak256 bytes := Word.ofBytes (1 :: bytes)
  blake3Hash bytes := Word.ofBytes bytes
  mldsaVerify input := if input[1]? = some 7 then 1 else 0

/-- One signer with threshold one and a delay of one second. -/
def sampleDeployment : Deployment := ⟨1, 1, 1, [1], Function.update (fun _ => false) 1 true⟩

/-- A freshly deployed oracle for chain 1. -/
def sampleOracle : Oracle := ⟨77, 1, fun _ _ => 0⟩

/-- The keys `[1]` and `[2]` enter epoch 0 with stakes 3 and 1. -/
def sampleGenesis : List RegistryTx :=
  [⟨5, 1, .propose 0 [257, 258] [3, 1]⟩,
   ⟨6, 1, .execute (sampleCrypto.keccak256 (abiEncodeProposal 0 [257, 258] [3, 1]))⟩]

/-- The first key's signature alone stores root 9 for block 4; the second one is invalid. -/
theorem submitHeader_quorum_sound_sample :
    ∃ s', bridgeStep sampleCrypto sampleDeployment
        ⟨registryAt sampleCrypto.keccak256 sampleDeployment sampleGenesis 2, sampleOracle⟩
        (.submit ⟨1000, fun _ => 20000⟩ 4 9 0 [[1], [2]] [[7], [8]]) = .ok s' ∧
      s'.oracle.headerStateRoot 1 4 = 9 := by
  have hok : (bridgeStep sampleCrypto sampleDeployment
      ⟨registryAt sampleCrypto.keccak256 sampleDeployment sampleGenesis 2, sampleOracle⟩
      (.submit ⟨1000, fun _ => 20000⟩ 4 9 0 [[1], [2]] [[7], [8]])).isOk = true := by
    decide +kernel
  obtain ⟨s', hs⟩ := exists_of_isOk hok
  have hstore := ((submitHeader_quorum_sound sampleCrypto sampleDeployment sampleGenesis 2
    sampleOracle ⟨1000, fun _ => 20000⟩ 4 9 0 [[1], [2]] [[7], [8]]).1 s'
    hs).2.2.2.2.2.2.2.2 1 4
  exact ⟨s', hs, hstore⟩

end SuwappuRevm.Contracts
