import SuwappuRevm.Contracts.RegistryHistory

/-!
# Totals of the registry

An execution adds every listed stake to the total of its epoch, while a later entry for a key
replaces the stake of an earlier one. So the total is the sum over the distinct keys exactly when
all replaced stakes are zero, and the threshold, which doubles the total in checked arithmetic, can
be asked for exactly when the doubled total fits a word.
-/

namespace SuwappuRevm.Contracts

open Foundations

variable {keccak256 : Bytes → Word} {d : Deployment} {txs : List RegistryTx}

/-- The total of an epoch is the sum of the stakes of some keys, and if that sum is positive, all
of them together reach the threshold. -/
def Registry.TotalReachable (r : Registry) (epoch : ℕ) (pkHashes : List Word) : Prop :=
  r.totalStakeByEpoch epoch = ∑ pkHash ∈ pkHashes.toFinset, r.stakeAt epoch pkHash ∧
    (0 < ∑ pkHash ∈ pkHashes.toFinset, r.stakeAt epoch pkHash →
      ∃ threshold, r.quorumThreshold epoch = .ok threshold ∧
        threshold ≤ ∑ pkHash ∈ pkHashes.toFinset, r.stakeAt epoch pkHash)

/-- A threshold is returned exactly when the doubled total fits a word. -/
theorem quorumThreshold_eq_ok {r : Registry} {epoch threshold : ℕ} :
    r.quorumThreshold epoch = .ok threshold ↔
      r.totalStakeByEpoch epoch * 2 < wordBound ∧
        threshold = r.totalStakeByEpoch epoch * 2 / 3 + 1 := by
  have hword : 3 < wordBound := by decide
  simp only [Registry.quorumThreshold, bind_eq_ok, checkedMul_eq_ok, checkedAdd_eq_ok]
  constructor
  · rintro ⟨_, ⟨hfits, hdoubled⟩, _, hthreshold⟩
    rw [hdoubled] at hthreshold
    exact ⟨hfits, hthreshold⟩
  · rintro ⟨hfits, hthreshold⟩
    exact ⟨_, ⟨hfits, rfl⟩, by omega, hthreshold⟩

/-- What an execution has registered is there ever after: the listed stakes, written in order over
zeros, and their sum as the total. The two lists are of one length. -/
theorem ExecutesAt.registered {i n epoch : ℕ} {proposalId : Word}
    (h : ExecutesAt keccak256 d txs i proposalId) (hin : i < n)
    (hepoch : ((registryAt keccak256 d txs i).proposals proposalId).epoch = epoch) :
    let p := (registryAt keccak256 d txs i).proposals proposalId
    (∀ pkHash, (registryAt keccak256 d txs n).stakeAt epoch pkHash =
        writeEntries (fun _ => 0) (p.pkHashes.zip p.stakes) pkHash) ∧
      (registryAt keccak256 d txs n).totalStakeByEpoch epoch = p.stakes.sum ∧
      p.pkHashes = (p.pkHashes.zip p.stakes).map Prod.fst ∧
      (p.pkHashes.zip p.stakes).map Prod.snd = p.stakes := by
  obtain ⟨hexists, -, hexpected, hresult⟩ := h.spec
  obtain ⟨j, e, pkHashes, stakes, hji, hproposes, hlists⟩ := proposed_before hexists
  obtain ⟨-, hkeys, hstakes⟩ := hlists i hji le_rfl
  obtain ⟨_, _, _, hpropose⟩ := hproposes
  obtain ⟨-, -, hlength, -⟩ := proposeEpochTransition_spec hpropose
  rw [← hkeys, ← hstakes] at hlength
  have hfresh := ((registryAt_epochsSound keccak256 d txs i).empty _
    (expectedEpoch_not_finalized hexpected)).1
  have hfin : (registryAt keccak256 d txs (i + 1)).Finalized epoch :=
    (h.finalized_iff epoch).mpr (.inr hepoch)
  obtain ⟨-, hstakeStays, htotalStays⟩ := finalized_stays hfin (Nat.succ_le_of_lt hin)
  have hsnd : (((registryAt keccak256 d txs i).proposals proposalId).pkHashes.zip
      ((registryAt keccak256 d txs i).proposals proposalId).stakes).map Prod.snd =
        ((registryAt keccak256 d txs i).proposals proposalId).stakes :=
    List.map_snd_zip (le_of_eq hlength.symm)
  refine ⟨fun pkHash => ?_, ?_, (List.map_fst_zip (le_of_eq hlength)).symm, hsnd⟩
  · have hzero : (registryAt keccak256 d txs i).stakeByEpoch
        ((registryAt keccak256 d txs i).proposals proposalId).epoch = fun _ => 0 := funext hfresh
    rw [Registry.stakeAt, hstakeStays, hresult, ← hepoch]
    dsimp only
    rw [Function.update_self, hzero]
  · rw [htotalStays, hresult, ← hepoch]
    dsimp only
    rw [Function.update_self, hsnd]

/-- Registered totals and registered stakes. Every finalized epoch has been finalized by one
execution, and its total is the sum over the distinct keys of the executed proposal, within reach of
all of them, exactly when every stake that a later entry for the same key replaces is zero and the
doubled sum of the listed stakes fits a word. -/
theorem total_reachable_iff (keccak256 : Bytes → Word) (d : Deployment) (txs : List RegistryTx)
    (n epoch : ℕ) (hset : (registryAt keccak256 d txs n).genesisSet = true)
    (hle : epoch ≤ (registryAt keccak256 d txs n).currentEpoch) :
    ∃ i proposalId, i < n ∧ ExecutesAt keccak256 d txs i proposalId ∧
      let p := (registryAt keccak256 d txs i).proposals proposalId
      p.epoch = epoch ∧ ((registryAt keccak256 d txs n).TotalReachable epoch p.pkHashes ↔
        (p.pkHashes.zip p.stakes).Pairwise (fun e e' => e.1 = e'.1 → e.2 = 0) ∧
          p.stakes.sum * 2 < 2 ^ 256) := by
  obtain ⟨i, hin, proposalId, hexecutes, hepoch⟩ :=
    (finalized_iff_finalizesAt n epoch).mp ⟨hset, hle⟩
  refine ⟨i, proposalId, hin, hexecutes, hepoch, ?_⟩
  obtain ⟨hstakeAt, htotal, hkeys, hstakes⟩ := hexecutes.registered hin hepoch
  generalize (registryAt keccak256 d txs i).proposals proposalId = p at *
  have hsum : ∑ pkHash ∈ p.pkHashes.toFinset,
      (registryAt keccak256 d txs n).stakeAt epoch pkHash =
        ∑ pkHash ∈ ((p.pkHashes.zip p.stakes).map Prod.fst).toFinset,
          writeEntries (fun _ => 0) (p.pkHashes.zip p.stakes) pkHash := by
    refine Finset.sum_congr (congrArg List.toFinset hkeys) ?_
    exact fun pkHash _ => hstakeAt pkHash
  have hiff := sum_written_eq_iff (fun _ => 0) (p.pkHashes.zip p.stakes)
  have hword : wordBound = 2 ^ 256 := rfl
  rw [hstakes] at hiff
  rw [← hiff, Registry.TotalReachable, hsum, htotal]
  simp only [quorumThreshold_eq_ok, htotal]
  constructor
  · rintro ⟨htotal, hreach⟩
    refine ⟨htotal.symm, ?_⟩
    rcases Nat.eq_zero_or_pos p.stakes.sum with hzero | hpos
    · rw [hzero]
      decide
    · obtain ⟨-, ⟨hfits, -⟩, -⟩ := hreach (htotal ▸ hpos)
      exact hword ▸ hfits
  · rintro ⟨hsame, hfits⟩
    refine ⟨hsame.symm, fun hpos => ⟨_, ⟨hword ▸ hfits, rfl⟩, ?_⟩⟩
    omega

/-- Genesis with one key listed twice, proposed, approved and executed as in `genesisRun`. -/
def repeatedKeyRun : List RegistryTx :=
  [⟨5, 1, .propose 0 [3, 3] [100, 50]⟩, ⟨7, 2, .approve 9⟩, ⟨17, 4, .execute 9⟩]

/-- After that run the total is 150 and the threshold 101, while the only key has a stake of 50. -/
theorem repeatedKeyRun_out_of_reach : ∃ d, construct [1, 2] 2 1 10 = .ok d ∧
    let r := registryAt (fun _ => 9) d repeatedKeyRun 3
    r.genesisSet = true ∧ 0 ≤ r.currentEpoch ∧ (r.proposals 9).executed = true ∧
      (r.proposals 9).epoch = 0 ∧ (r.proposals 9).pkHashes = [3, 3] ∧
      r.totalStakeByEpoch 0 = 150 ∧ r.stakeAt 0 3 = 50 ∧ r.quorumThreshold 0 = .ok 101 ∧
      ¬r.TotalReachable 0 (r.proposals 9).pkHashes := by
  have hd : construct [1, 2] 2 1 10 = .ok ⟨1, 2, 10, [1, 2],
      Function.update (Function.update (fun _ => false) 1 true) 2 true⟩ := rfl
  have hvalues : let r := registryAt (fun _ => 9) ⟨1, 2, 10, [1, 2],
      Function.update (Function.update (fun _ => false) 1 true) 2 true⟩ repeatedKeyRun 3
      r.genesisSet = true ∧ 0 ≤ r.currentEpoch ∧ (r.proposals 9).executed = true ∧
        (r.proposals 9).epoch = 0 ∧ (r.proposals 9).pkHashes = [3, 3] ∧
        r.totalStakeByEpoch 0 = 150 ∧ r.stakeAt 0 3 = 50 ∧ r.quorumThreshold 0 = .ok 101 := by
    decide +kernel
  obtain ⟨hset, hepoch, hexecuted, hproposed, hkeys, htotal, hstake, hthreshold⟩ := hvalues
  refine ⟨_, hd, hset, hepoch, hexecuted, hproposed, hkeys, htotal, hstake, hthreshold, ?_⟩
  rintro ⟨hsum, -⟩
  have hdistinct : ([3, 3] : List Word).toFinset = {3} := by decide
  rw [htotal, hkeys, hdistinct, Finset.sum_singleton, hstake] at hsum
  cases hsum

/-- The genesis run without a repeated key registers what it totals. -/
theorem total_reachable_iff_genesis : ∃ d, construct [1, 2] 2 1 10 = .ok d ∧
    ∃ i proposalId, i < 3 ∧ ExecutesAt (fun _ => 9) d genesisRun i proposalId := by
  have hset : (registryAt (fun _ => 9) ⟨1, 2, 10, [1, 2],
      Function.update (Function.update (fun _ => false) 1 true) 2 true⟩ genesisRun 3).genesisSet =
      true := by decide +kernel
  obtain ⟨i, proposalId, hi, hexecutes, -⟩ :=
    total_reachable_iff (fun _ => 9) _ genesisRun 3 0 hset (Nat.zero_le _)
  exact ⟨_, rfl, i, proposalId, hi, hexecutes⟩

end SuwappuRevm.Contracts
