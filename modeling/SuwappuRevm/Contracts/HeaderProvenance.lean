import Mathlib.Data.Finset.Sort
import SuwappuRevm.Contracts.OracleFinality
import SuwappuRevm.Contracts.RegistryTotals
import SuwappuRevm.Foundations.Simulation

/-!
# Where a stored header comes from

A run of the two contracts is a run of the registry when its submissions are left out. So a root in
the oracle goes back to one submission, which more than two thirds of the stake of its epoch have
signed, and the epoch to one execution, of lists that one call has proposed and a quorum has
approved for the delay. Conversely signatures of more than two thirds of an epoch can always be
submitted.
-/

namespace SuwappuRevm.Contracts

open Foundations

section Provenance

variable (crypto : Crypto) {d : Deployment} (o : Oracle) (calls : List BridgeCall)

/-- The registry's transaction of the pair, if it is one. -/
def BridgeCall.registryTx : BridgeCall → Option RegistryTx
  | .registry tx => some tx
  | .submit .. => none

/-- The registry's transactions among those of a run. -/
def registryTxs : List RegistryTx := calls.filterMap BridgeCall.registryTx

/-- How many of the first transactions of a run are the registry's. -/
def registryCount (n : ℕ) : ℕ := ((calls.take n).filterMap BridgeCall.registryTx).length

variable {crypto o calls}

/-- A submission leaves the registry alone, and any other transaction is one of the registry. -/
theorem perform_registry (s : Bridge) (call : BridgeCall) :
    (perform (bridgeStep crypto d) s call).registry =
      call.registryTx.elim s.registry fun tx =>
        perform (registryStep crypto.keccak256 d) s.registry tx := by
  cases call with
  | registry tx =>
    dsimp only [BridgeCall.registryTx, Option.elim]
    rcases hresult : registryStep crypto.keccak256 d s.registry tx with e | r'
    · have hstep : bridgeStep crypto d s (.registry tx) = .error (.registry e) := by
        rw [bridgeStep, hresult]
        rfl
      rw [perform_of_error hstep, perform_of_error hresult]
    · have hstep : bridgeStep crypto d s (.registry tx) = .ok { s with registry := r' } := by
        rw [bridgeStep, hresult]
        rfl
      rw [perform_of_ok hstep, perform_of_ok hresult]
  | submit gas blockNumber stateRoot epoch pubkeys sigs =>
    rcases hresult : bridgeStep crypto d s (.submit gas blockNumber stateRoot epoch pubkeys sigs)
      with e | s'
    · rw [perform_of_error hresult]
      rfl
    · rw [perform_of_ok hresult]
      obtain ⟨o', -, rfl⟩ := bridgeStep_submit hresult
      rfl

/-- The registry of a run is the registry of the run of its own transactions. -/
theorem bridgeAt_registry (n : ℕ) : (bridgeAt crypto d o calls n).registry =
    registryAt crypto.keccak256 d (registryTxs calls) (registryCount calls n) :=
  stateAt_project Bridge.registry BridgeCall.registryTx perform_registry _ calls n

/-- A root that reads non-zero has been stored by the last submission that stored one for its
block. -/
theorem stored_by_last (hfresh : ∀ chain block, o.headerStateRoot chain block = 0)
    {n blockNumber : ℕ} {root : Word} (hne : root ≠ 0)
    (hroot : (bridgeAt crypto d o calls n).oracle.headerStateRoot o.chainId blockNumber = root) :
    ∃ i epoch, i < n ∧ StoresAt crypto d o calls i blockNumber root epoch ∧
      ∀ m root' epoch', i < m → m < n → ¬StoresAt crypto d o calls m blockNumber root' epoch' := by
  induction n with
  | zero =>
    rw [bridgeAt, stateAt_zero] at hroot
    exact absurd ((hfresh _ _).symm.trans hroot).symm hne
  | succ n ih =>
    by_cases hstores : ∃ root' epoch', StoresAt crypto d o calls n blockNumber root' epoch'
    · obtain ⟨root', epoch, hstores⟩ := hstores
      obtain rfl : root' = root := hstores.root_succ.symm.trans hroot
      exact ⟨n, epoch, Nat.lt_succ_self n, hstores, fun m _ _ hnm hmn => by omega⟩
    · have hsame := (bridgeAt_succ_root n blockNumber).resolve_right hstores
      obtain ⟨i, epoch, hin, hstored, hlast⟩ := ih (hsame ▸ hroot)
      refine ⟨i, epoch, hin.trans (Nat.lt_succ_self n), hstored, fun m root' epoch' him hmn => ?_⟩
      rcases Nat.lt_succ_iff_lt_or_eq.mp hmn with hlt | rfl
      · exact hlast m root' epoch' him hlt
      · exact fun h => hstores ⟨root', epoch', h⟩

/-- A finalized epoch of a run goes back to one execution, long enough after a quorum for lists that
one call has proposed, and those lists are what the registry has on the epoch. -/
theorem finalized_provenance {keccak256 : Bytes → Word} (hd : d.WellFormed) {txs : List RegistryTx}
    {n epoch : ℕ} (hfin : (registryAt keccak256 d txs n).Finalized epoch) :
    ∃ e, ∃ he : e < txs.length, e < n ∧ ∃ proposalId pkHashes stakes,
      ExecutesAt keccak256 d txs e proposalId ∧
      (∃ k, k < e ∧ ProposesAt keccak256 d txs k proposalId epoch pkHashes stakes) ∧
      (∃ j, ∃ hj : j < txs.length, j < e ∧ txs[j].timestamp + d.timelockDelay ≤ txs[e].timestamp ∧
        ∀ m, j < m → m ≤ e → d.threshold ≤ (approvalsInForce keccak256 d txs m proposalId).card) ∧
      (∀ pkHash, (registryAt keccak256 d txs n).stakeAt epoch pkHash =
        writeEntries (fun _ => 0) (pkHashes.zip stakes) pkHash) ∧
      pkHashes = (pkHashes.zip stakes).map Prod.fst ∧
      (registryAt keccak256 d txs n).totalStakeByEpoch epoch = stakes.sum := by
  obtain ⟨e, hen, proposalId, hexecutes, hepoch⟩ := (finalized_iff_finalizesAt n epoch).mp hfin
  obtain ⟨hstakeAt, htotal, hkeys, -⟩ := hexecutes.registered hen hepoch
  obtain ⟨hexists, -, -, -⟩ := hexecutes.spec
  obtain ⟨k, epoch', pkHashes, stakes, hke, hproposes, hlists⟩ := proposed_before hexists
  obtain ⟨hepoch', hpkHashes, hstakes⟩ := hlists e hke le_rfl
  obtain rfl : epoch' = epoch := hepoch'.symm.trans hepoch
  rw [hpkHashes, hstakes] at hstakeAt hkeys
  rw [hstakes] at htotal
  have hlater := hexecutes
  obtain ⟨he, hcall, hstep⟩ := hlater
  rw [registryStep, hcall] at hstep
  obtain ⟨-, -, hready, htime, -, -⟩ := executeEpochTransition_spec hstep
  obtain ⟨j, hj, hje, hset, hstood⟩ := quorum_stands_since_ready hd txs e he.le proposalId hready
  simp only [← approvalsInForce_eq] at hstood
  exact ⟨e, he, hen, proposalId, pkHashes, stakes, hexecutes, ⟨k, hke, hproposes⟩,
    ⟨j, hj, hje, hset ▸ htime, hstood⟩, hstakeAt, hkeys, htotal⟩

/-- Where a stored root comes from. In every run of the two contracts a root that the oracle reads
as non-zero has been stored by the last submission for its block, whose epoch one earlier execution
has finalized from lists that one call has proposed and that a quorum of signers has approved
without interruption for the delay; and keys of those lists, with more than two thirds of the listed
stakes, have signatures over the root. -/
theorem stored_root_provenance (crypto : Crypto) {signers_ : List Address}
    {threshold_ networkId_ timelockDelay_ : ℕ} {d : Deployment}
    (hd : construct signers_ threshold_ networkId_ timelockDelay_ = .ok d) {o : Oracle}
    (hfresh : ∀ chain block, o.headerStateRoot chain block = 0) (calls : List BridgeCall)
    {n blockNumber : ℕ} {root : Word} (hne : root ≠ 0)
    (hroot : (bridgeAt crypto d o calls n).oracle.headerStateRoot o.chainId blockNumber = root) :
    let txs := registryTxs calls
    ∃ i epoch, i < n ∧ StoresAt crypto d o calls i blockNumber root epoch ∧
      (∀ m root' epoch', i < m → m < n →
        ¬StoresAt crypto d o calls m blockNumber root' epoch') ∧
      ∃ e, ∃ he : e < txs.length, e < registryCount calls i ∧ ∃ proposalId pkHashes stakes,
        ExecutesAt crypto.keccak256 d txs e proposalId ∧
        (∃ k, k < e ∧ ProposesAt crypto.keccak256 d txs k proposalId epoch pkHashes stakes) ∧
        (∃ j, ∃ hj : j < txs.length, j < e ∧ txs[j].timestamp + timelockDelay_ ≤ txs[e].timestamp ∧
          ∀ m, j < m → m ≤ e → threshold_ ≤ (signers_.toFinset.filter
            (InForce crypto.keccak256 d txs m proposalId)).card) ∧
        ∃ signed : Finset Word, (∀ pkHash ∈ signed, pkHash ∈ pkHashes ∧
            SignsHeader crypto d o.address blockNumber root pkHash) ∧
          2 * stakes.sum <
            3 * ∑ pkHash ∈ signed, writeEntries (fun _ => 0) (pkHashes.zip stakes) pkHash := by
  obtain ⟨hwf, rfl, rfl, rfl⟩ := construct_spec hd
  dsimp only
  obtain ⟨i, epoch, hin, hstored, hlast⟩ := stored_by_last hfresh hne hroot
  obtain ⟨hfin, accepted, hsigned, hquorum⟩ := storesAt_quorum le_rfl hstored
  simp only [bridgeAt_registry] at hfin hquorum
  obtain ⟨e, he, hei, proposalId, pkHashes, stakes, hexecutes, hproposes, hdelayed, hstakeAt, hkeys,
    htotal⟩ := finalized_provenance hwf hfin
  refine ⟨i, epoch, hin, hstored, hlast, e, he, hei, proposalId, pkHashes, stakes, hexecutes,
    hproposes, hdelayed, accepted.filter (· ∈ pkHashes), fun pkHash hmem => ?_, ?_⟩
  · obtain ⟨haccepted, hlisted⟩ := Finset.mem_filter.mp hmem
    exact ⟨hlisted, hsigned pkHash haccepted⟩
  · rw [htotal] at hquorum
    refine hquorum.trans_eq (congrArg (3 * ·) ?_)
    -- keys outside the lists have no stake at the epoch
    rw [Finset.sum_filter]
    refine Finset.sum_congr rfl fun pkHash _ => ?_
    split
    · exact hstakeAt pkHash
    next hlisted =>
      rw [hstakeAt pkHash, writeEntries_of_notMem]
      rwa [← hkeys]

/-- The root that the first key has signed in `twoEpochs` comes from the first proposal. -/
theorem stored_root_provenance_sample :
    ∃ d, construct [1] 1 1 1 = .ok d ∧ ∃ i epoch, i < 3 ∧
      StoresAt finalityCrypto d sampleOracle twoEpochs i 4 9 epoch := by
  have hd : construct [1] 1 1 1 = .ok sampleDeployment := rfl
  obtain ⟨i, epoch, hi, hstored, -⟩ := stored_root_provenance finalityCrypto hd
    (fun _ _ => rfl) twoEpochs (show (9 : Word) ≠ 0 by decide +kernel)
    (show (bridgeAt finalityCrypto sampleDeployment sampleOracle twoEpochs
      3).oracle.headerStateRoot sampleOracle.chainId 4 = 9 by decide +kernel)
  exact ⟨_, hd, i, epoch, hi, hstored⟩

end Provenance

section Acceptance

variable {crypto : Crypto} {d : Deployment}

/-- The verification precompile answers when it is given its price, and else returns nothing. -/
theorem staticcall_mldsa (mldsaVerify : Bytes → Word) (input : Bytes) (gas : ℕ) :
    staticcall (suwappuMldsa65VerifyRun mldsaVerify) input gas =
      if suwappuMldsa65VerifyGas > gas then (false, [])
      else (true, (mldsaVerify input).toBytes) := by
  rw [staticcall, suwappuMldsa65VerifyRun]
  by_cases hgas : suwappuMldsa65VerifyGas > gas
  · rw [failIf_of hgas, if_pos hgas]
    rfl
  · rw [failIf_of_not hgas, if_neg hgas]
    rfl

/-- The digest precompile answers when it is given its price, and else returns nothing. -/
theorem staticcall_blake3 (blake3Hash : Bytes → Word) (input : Bytes) (gas : ℕ) :
    staticcall (suwappuBlake3Run blake3Hash) input gas =
      if suwappuBlake3BaseGas + suwappuBlake3WordGas * ((input.length + 31) / 32) > gas then
        (false, []) else (true, (blake3Hash input).toBytes) := by
  rw [staticcall, suwappuBlake3Run]
  by_cases hgas : suwappuBlake3BaseGas + suwappuBlake3WordGas * ((input.length + 31) / 32) > gas
  · rw [failIf_of hgas, if_pos hgas]
    rfl
  · rw [failIf_of_not hgas, if_neg hgas]
    rfl

/-- A verification call with its gas answers. -/
theorem signatureValid_ok_iff {gas : ℕ} {pubkey sig : Bytes} {digest : Word} {valid : Bool} :
    signatureValid crypto gas pubkey sig digest = .ok valid ↔
      suwappuMldsa65VerifyGas ≤ gas ∧ valid = accepts crypto digest pubkey sig := by
  rw [signatureValid, staticcall_mldsa]
  by_cases hgas : suwappuMldsa65VerifyGas > gas
  · rw [if_pos hgas]
    dsimp only
    rw [failIf_of (by decide), error_bind]
    constructor
    · intro h
      cases h
    · exact fun h => absurd hgas (not_lt.mpr h.1)
  · rw [if_neg hgas]
    dsimp only
    rw [failIf_of_not (by simp), ok_bind, pure_eq_ok]
    exact ⟨fun h => ⟨not_lt.mp hgas, h.symm⟩, fun h => h.2.symm⟩

/-- The digest call with its gas answers. -/
theorem headerDigest_ok_iff {o : Oracle} {gas : ForwardedGas} {blockNumber : ℕ}
    {stateRoot digest : Word} :
    headerDigest crypto d o gas blockNumber stateRoot = .ok digest ↔
      suwappuBlake3BaseGas + suwappuBlake3WordGas * 5 ≤ gas.blake3 ∧
        digest = digestOf crypto d.networkId o.address blockNumber stateRoot := by
  have hwords : ((headerPreimage crypto d.networkId o.address blockNumber stateRoot).length + 31) /
      32 = 5 := by
    simp only [headerPreimage, List.length_append, beBytes_length, Word.toBytes_length]
  rw [headerDigest]
  dsimp only
  rw [staticcall_blake3, hwords]
  by_cases hgas : suwappuBlake3BaseGas + suwappuBlake3WordGas * 5 > gas.blake3
  · rw [if_pos hgas]
    dsimp only
    rw [failIf_of (by decide), error_bind]
    constructor
    · intro h
      cases h
    · exact fun h => absurd hgas (not_lt.mpr h.1)
  · rw [if_neg hgas]
    dsimp only
    rw [failIf_of_not (by simp), ok_bind, pure_eq_ok, Word.ofBytes_toBytes]
    exact ⟨fun h => ⟨not_lt.mp hgas, h.symm⟩, fun h => h.2.symm⟩

/-- The accepted stake of some entries is that of the first and of the rest. -/
theorem acceptedStake_cons (weight : Word → ℕ) (digest : Word) (pubkey sig : Bytes)
    (rest : List (Bytes × Bytes)) :
    ((acceptedHashes crypto digest ((pubkey, sig) :: rest)).map weight).sum =
      (if accepts crypto digest pubkey sig then weight (crypto.keccak256 pubkey) else 0) +
        ((acceptedHashes crypto digest rest).map weight).sum := by
  by_cases haccepts : accepts crypto digest pubkey sig = true
  · simp [acceptedHashes, haccepts]
  · simp [acceptedHashes, haccepts]

/-- An entry passes exactly when its hash increases and its verification has its gas, given that
the stake it adds fits a word. -/
theorem countSignature_ok_iff {r : Registry} {gas : ForwardedGas} {epoch : ℕ} {digest : Word}
    {i : ℕ} {lastHash : Word} {sigStake next : ℕ} {pubkey sig : Bytes} {valid : Bool}
    (hfits : sigStake + (if accepts crypto digest pubkey sig then
      r.stakeAt epoch (crypto.keccak256 pubkey) else 0) < wordBound) :
    countSignature crypto r gas epoch digest i lastHash sigStake pubkey sig = .ok (valid, next) ↔
      lastHash < crypto.keccak256 pubkey ∧ suwappuMldsa65VerifyGas ≤ gas.mldsa i ∧
        valid = accepts crypto digest pubkey sig ∧
        next = sigStake + if valid then r.stakeAt epoch (crypto.keccak256 pubkey) else 0 := by
  constructor
  · intro h
    obtain ⟨hsorted, hvalid, hnext⟩ := countSignature_spec crypto h
    simp only [countSignature, bind_eq_ok, signatureValid_ok_iff] at h
    obtain ⟨-, -, _, ⟨hgas, -⟩, -⟩ := h
    exact ⟨hsorted, hgas, hvalid, hnext⟩
  · rintro ⟨hsorted, hgas, hvalid, hnext⟩
    rw [← hvalid] at hfits
    simp only [countSignature, bind_eq_ok, failIf_eq_ok, signatureValid_ok_iff, pure_eq_ok,
      Prod.mk.injEq]
    refine ⟨(), not_le.mpr hsorted, valid, ⟨hgas, hvalid⟩, next, ?_, rfl, rfl⟩
    rw [addStake]
    split at hfits
    next hv =>
      rw [if_pos hv, checkedAdd_eq_ok, hnext, if_pos hv]
      exact ⟨hfits, rfl⟩
    next hv => rw [if_neg hv, hnext, if_neg hv, Nat.add_zero]

/-- The signature loop ends exactly when the hashes increase and each verification has its gas,
given that the accepted stakes fit a word. -/
theorem countSignatures_ok_iff {r : Registry} {epoch : ℕ} {digest : Word}
    {entries : List (Bytes × Bytes)} {lastHash : Word} {sigStake : ℕ} (gas : ForwardedGas) (i : ℕ)
    (hfits : (lastHash :: entries.map fun e => crypto.keccak256 e.1).Pairwise (· < ·) →
      sigStake + ((acceptedHashes crypto digest entries).map (r.stakeAt epoch)).sum < wordBound) :
    (∃ total, countSignatures crypto r gas epoch digest i lastHash sigStake entries = .ok total) ↔
      (lastHash :: entries.map fun e => crypto.keccak256 e.1).Pairwise (· < ·) ∧
        ∀ j, j < entries.length → suwappuMldsa65VerifyGas ≤ gas.mldsa (i + j) := by
  induction entries generalizing i lastHash sigStake with
  | nil => simp [countSignatures]
  | cons entry rest ih =>
    obtain ⟨pubkey, sig⟩ := entry
    -- the loop goes on from the next index when this entry passes
    have hstep : (∃ total, countSignatures crypto r gas epoch digest i lastHash sigStake
        ((pubkey, sig) :: rest) = .ok total) ↔
        ∃ valid next, countSignature crypto r gas epoch digest i lastHash sigStake pubkey sig =
          .ok (valid, next) ∧ ∃ total, countSignatures crypto r gas epoch digest (i + 1)
            (crypto.keccak256 pubkey) next rest = .ok total := by
      simp only [countSignatures, bind_eq_ok]
      constructor
      · rintro ⟨total, ⟨valid, next⟩, hentry, hrest⟩
        exact ⟨valid, next, hentry, total, hrest⟩
      · rintro ⟨valid, next, hentry, total, hrest⟩
        exact ⟨total, (valid, next), hentry, hrest⟩
    have hgas : (∀ j, j < ((pubkey, sig) :: rest).length →
        suwappuMldsa65VerifyGas ≤ gas.mldsa (i + j)) ↔
        suwappuMldsa65VerifyGas ≤ gas.mldsa i ∧ ∀ j, j < rest.length →
          suwappuMldsa65VerifyGas ≤ gas.mldsa (i + 1 + j) := by
      constructor
      · exact fun h => ⟨h 0 (Nat.succ_pos _), fun j hj =>
          (Nat.add_right_comm i 1 j).symm ▸ h (j + 1) (Nat.succ_lt_succ hj)⟩
      · rintro ⟨hfirst, hrest⟩ j hj
        cases j with
        | zero => exact hfirst
        | succ j => exact (Nat.add_right_comm i 1 j) ▸ hrest j (Nat.lt_of_succ_lt_succ hj)
    rw [hstep, hgas]
    have hpairwise : (lastHash ::
        ((pubkey, sig) :: rest).map fun e => crypto.keccak256 e.1).Pairwise (· < ·) ↔
      lastHash < crypto.keccak256 pubkey ∧
          (crypto.keccak256 pubkey :: rest.map fun e => crypto.keccak256 e.1).Pairwise (· < ·) := by
      rw [List.map_cons, List.pairwise_cons_cons_iff_of_trans]
    rw [hpairwise] at hfits ⊢
    rw [acceptedStake_cons, ← Nat.add_assoc] at hfits
    constructor
    · rintro ⟨valid, next, hentry, hrest⟩
      obtain ⟨hlast, hvalid, hnext⟩ := countSignature_spec crypto hentry
      simp only [countSignature, bind_eq_ok, signatureValid_ok_iff] at hentry
      obtain ⟨-, -, _, ⟨hfirst, -⟩, -⟩ := hentry
      rw [hvalid] at hnext
      rw [← hnext] at hfits
      obtain ⟨hsorted, hothers⟩ := (ih _ fun hsorted => hfits ⟨hlast, hsorted⟩).mp hrest
      exact ⟨⟨hlast, hsorted⟩, hfirst, hothers⟩
    · rintro ⟨⟨hlast, hsorted⟩, hfirst, hothers⟩
      have hsum := hfits ⟨hlast, hsorted⟩
      exact ⟨_, _, (countSignature_ok_iff ((Nat.le_add_right _ _).trans_lt hsum)).mpr
        ⟨hlast, hfirst, rfl, rfl⟩, (ih _ fun _ => hsum).mpr ⟨hsorted, hothers⟩⟩

/-- The keys of the entries are the submitted keys. -/
theorem keys_of_zip (crypto : Crypto) {pubkeys sigs : List Bytes}
    (hlength : pubkeys.length = sigs.length) :
    (pubkeys.zip sigs).map (fun e => crypto.keccak256 e.1) = pubkeys.map crypto.keccak256 :=
  List.map_map.symm.trans (congrArg _ (List.map_fst_zip hlength.le))

/-- A submission succeeds exactly when the lists match, the digest and every verification have their
gas, the hashes increase from above zero, the threshold can be computed, and the accepted stake
reaches it. -/
theorem submitHeader_ok_iff {r : Registry} (hr : r.EpochsSound) {o : Oracle} {gas : ForwardedGas}
    {blockNumber : ℕ} {stateRoot : Word} {epoch : ℕ} {pubkeys sigs : List Bytes} :
    (submitHeader crypto d r o gas blockNumber stateRoot epoch pubkeys sigs).isOk = true ↔
      pubkeys.length = sigs.length ∧
        suwappuBlake3BaseGas + suwappuBlake3WordGas * 5 ≤ gas.blake3 ∧
        (∀ j, j < pubkeys.length → suwappuMldsa65VerifyGas ≤ gas.mldsa j) ∧
        (0 :: pubkeys.map crypto.keccak256).Pairwise (· < ·) ∧
        r.totalStakeByEpoch epoch * 2 < wordBound ∧
        r.totalStakeByEpoch epoch * 2 / 3 + 1 ≤ ((acceptedHashes crypto
          (digestOf crypto d.networkId o.address blockNumber stateRoot)
          (pubkeys.zip sigs)).map (r.stakeAt epoch)).sum := by
  have hcount (hlength : pubkeys.length = sigs.length) (hdouble :
      r.totalStakeByEpoch epoch * 2 < wordBound) :
      (∃ total, countSignatures crypto r gas epoch
          (digestOf crypto d.networkId o.address blockNumber stateRoot) 0 0 0 (pubkeys.zip sigs) =
            .ok total) ↔
        (0 :: pubkeys.map crypto.keccak256).Pairwise (· < ·) ∧
          ∀ j, j < pubkeys.length → suwappuMldsa65VerifyGas ≤ gas.mldsa j := by
    have hfits (digest : Word)
        (hsorted : (0 :: (pubkeys.zip sigs).map fun e => crypto.keccak256 e.1).Pairwise (· < ·)) :
        0 + ((acceptedHashes crypto digest (pubkeys.zip sigs)).map (r.stakeAt epoch)).sum <
          wordBound := by
      have hnodup : (acceptedHashes crypto digest (pubkeys.zip sigs)).Nodup :=
        acceptedHashes_nodup crypto hsorted
      have hle := acceptedStake_le_total hr epoch hnodup
      omega
    have hloop := countSignatures_ok_iff gas 0 (hfits (digestOf crypto d.networkId o.address
      blockNumber stateRoot))
    rw [keys_of_zip crypto hlength, List.length_zip, ← hlength, Nat.min_self] at hloop
    simpa only [Nat.zero_add] using hloop
  constructor
  · intro h
    obtain ⟨o', h⟩ := exists_of_isOk h
    obtain ⟨_, rfl, -, hquorum, -⟩ := submitHeader_spec h
    simp only [submitHeader, bind_eq_ok, failIf_eq_ok, mapError_eq_ok, headerDigest_ok_iff,
      quorumThreshold_eq_ok, ne_eq, Decidable.not_not] at h
    obtain ⟨-, hlength, _, ⟨hgas, rfl⟩, total, htotal, _, ⟨hdouble, -⟩, -⟩ := h
    obtain ⟨hsorted, hothers⟩ := (hcount hlength hdouble).mp ⟨total, htotal⟩
    exact ⟨hlength, hgas, hothers, hsorted, hdouble, hquorum⟩
  · rintro ⟨hlength, hgas, hothers, hsorted, hdouble, hquorum⟩
    obtain ⟨total, htotal⟩ := (hcount hlength hdouble).mpr ⟨hsorted, hothers⟩
    obtain ⟨-, hstake⟩ := countSignatures_spec crypto htotal
    rw [Nat.zero_add] at hstake
    rw [submitHeader, failIf_of_not (not_not.mpr hlength), ok_bind,
      headerDigest_ok_iff.mpr ⟨hgas, rfl⟩, ok_bind, htotal, ok_bind,
      quorumThreshold_eq_ok.mpr ⟨hdouble, rfl⟩]
    dsimp only [Except.mapError]
    rw [ok_bind, failIf_of_not (not_lt.mpr (hstake ▸ hquorum))]
    rfl

/-- Signers put in the order of their hashes are what the loop accepts of their signatures. -/
theorem acceptedHashes_of_signers {o : Oracle} {blockNumber : ℕ} {root : Word} {signers : List Word}
    (hsigned : ∀ pkHash ∈ signers, SignsHeader crypto d o.address blockNumber root pkHash) :
    ∃ pubkeys sigs : List Bytes, pubkeys.length = sigs.length ∧
      pubkeys.map crypto.keccak256 = signers ∧
      acceptedHashes crypto (digestOf crypto d.networkId o.address blockNumber root)
        (pubkeys.zip sigs) = signers := by
  induction signers with
  | nil => exact ⟨[], [], rfl, rfl, rfl⟩
  | cons pkHash signers ih =>
    obtain ⟨hfirst, hrest⟩ := List.forall_mem_cons.mp hsigned
    obtain ⟨pubkey, sig, hkey, haccepts⟩ := hfirst
    obtain ⟨pubkeys, sigs, hlength, hkeys, haccepted⟩ := ih hrest
    refine ⟨pubkey :: pubkeys, sig :: sigs, congrArg Nat.succ hlength, ?_, ?_⟩
    · rw [List.map_cons, hkey, hkeys]
    · rw [acceptedHashes] at haccepted ⊢
      rw [List.zip_cons_cons, List.filter_cons, if_pos haccepts, List.map_cons, haccepted, hkey]

/-- A header can be stored exactly when signatures of more than two thirds of its epoch exist. At
any position of a run some submission of a root for a block under an epoch succeeds if and only if
the doubled total of the epoch fits a word and some keys, none with the hash zero, have signatures
over the root and more than two thirds of the total. -/
theorem header_storable_iff (crypto : Crypto) (d : Deployment) (o : Oracle)
    (calls : List BridgeCall) (n blockNumber : ℕ) (root : Word) (epoch : ℕ) :
    let r := (bridgeAt crypto d o calls n).registry
    (∃ gas pubkeys sigs, (bridgeStep crypto d (bridgeAt crypto d o calls n)
        (.submit gas blockNumber root epoch pubkeys sigs)).isOk = true) ↔
      2 * r.totalStakeByEpoch epoch < 2 ^ 256 ∧ ∃ signed : Finset Word, 0 ∉ signed ∧
        (∀ pkHash ∈ signed, SignsHeader crypto d o.address blockNumber root pkHash) ∧
        2 * r.totalStakeByEpoch epoch < 3 * ∑ pkHash ∈ signed, r.stakeAt epoch pkHash := by
  intro r
  have hsound : r.EpochsSound := (bridgeAt_sound n).1
  have haddress : (bridgeAt crypto d o calls n).oracle.address = o.address := (bridgeAt_sound n).2.1
  have hword : wordBound = 2 ^ 256 := rfl
  have hstep (gas : ForwardedGas) (pubkeys sigs : List Bytes) :
      (bridgeStep crypto d (bridgeAt crypto d o calls n)
          (.submit gas blockNumber root epoch pubkeys sigs)).isOk = true ↔
        (submitHeader crypto d r (bridgeAt crypto d o calls n).oracle gas blockNumber root epoch
          pubkeys sigs).isOk = true := by
    rw [bridgeStep]
    cases submitHeader crypto d r (bridgeAt crypto d o calls n).oracle gas blockNumber root epoch
      pubkeys sigs <;> exact Iff.rfl
  simp only [hstep, submitHeader_ok_iff hsound]
  constructor
  · rintro ⟨gas, pubkeys, sigs, hlength, -, -, hsorted, hdouble, hquorum⟩
    rw [← keys_of_zip crypto hlength] at hsorted
    rw [haddress] at hquorum
    have hmem (pkHash : Word) (hmem : pkHash ∈ (acceptedHashes crypto (digestOf crypto d.networkId
        o.address blockNumber root) (pubkeys.zip sigs)).toFinset) :
        ∃ e ∈ pubkeys.zip sigs, crypto.keccak256 e.1 = pkHash ∧
          accepts crypto (digestOf crypto d.networkId o.address blockNumber root) e.1 e.2 =
            true := by
      rw [List.mem_toFinset, acceptedHashes] at hmem
      obtain ⟨e, he, hkey⟩ := List.mem_map.mp hmem
      exact ⟨e, (List.mem_filter.mp he).1, hkey, (List.mem_filter.mp he).2⟩
    refine ⟨hword ▸ Nat.mul_comm 2 _ ▸ hdouble, (acceptedHashes crypto (digestOf crypto d.networkId
      o.address blockNumber root) (pubkeys.zip sigs)).toFinset, fun hzero => ?_,
      fun pkHash haccepted => ?_, ?_⟩
    · obtain ⟨e, he, hkey, -⟩ := hmem 0 hzero
      have hlt := List.rel_of_pairwise_cons hsorted (List.mem_map_of_mem he)
      exact absurd hkey hlt.ne'
    · obtain ⟨e, -, hkey, haccepts⟩ := hmem pkHash haccepted
      exact ⟨e.1, e.2, hkey, haccepts⟩
    · rw [List.sum_toFinset _ (acceptedHashes_nodup crypto hsorted)]
      exact two_thirds_lt_of_threshold_le hquorum
  · rintro ⟨hdouble, signed, hzero, hsigned, hquorum⟩
    have hsorted (pkHash : Word) (hmem : pkHash ∈ signed.sort) :
        SignsHeader crypto d o.address blockNumber root pkHash :=
      hsigned pkHash ((Finset.mem_sort _).mp hmem)
    obtain ⟨pubkeys, sigs, hlength, hkeys, haccepted⟩ := acceptedHashes_of_signers hsorted
    refine ⟨⟨_, fun _ => suwappuMldsa65VerifyGas⟩, pubkeys, sigs, hlength, le_rfl,
      fun _ _ => le_rfl, ?_, ?_, ?_⟩
    · rw [hkeys, List.pairwise_cons]
      refine ⟨fun pkHash hmem => ?_, (Finset.sortedLT_sort signed).pairwise⟩
      have hne : pkHash ≠ 0 := fun h => hzero (h ▸ (Finset.mem_sort _).mp hmem)
      exact Fin.pos_iff_ne_zero.mpr hne
    · rw [hword]
      omega
    · rw [haddress, haccepted, ← List.sum_toFinset _ (Finset.sort_nodup _ _), Finset.sort_toFinset]
      change _ ≤ ∑ pkHash ∈ signed, r.stakeAt epoch pkHash
      omega

end Acceptance

end SuwappuRevm.Contracts
