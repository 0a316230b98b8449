import Mathlib.Data.Fintype.BigOperators
import SuwappuRevm.Contracts.RegistryTimelock

/-!
# Finalized epochs of the registry

An epoch is finalized when genesis is set and the epoch is at most the current one. Stakes and
totals of other epochs are zero, a finalized epoch is never written again, and an epoch's total
covers the stakes of its distinct key hashes, also when the executed proposal repeats a key.
-/

namespace SuwappuRevm.Contracts

open Foundations

/-- The epochs whose validator set has been executed. -/
def Registry.Finalized (r : Registry) (epoch : ℕ) : Prop :=
  r.genesisSet = true ∧ epoch ≤ r.currentEpoch

/-- Unfinalized epochs are empty and totals cover the registered stakes. -/
structure Registry.EpochsSound (r : Registry) : Prop where
  empty : ∀ epoch, ¬r.Finalized epoch →
    (∀ pkHash, r.stakeByEpoch epoch pkHash = 0) ∧ r.totalStakeByEpoch epoch = 0
  covered : ∀ epoch, ∑ pkHash, r.stakeByEpoch epoch pkHash ≤ r.totalStakeByEpoch epoch

/-- Storage right after deployment has no epoch. -/
theorem initial_epochsSound : Registry.initial.EpochsSound where
  empty _ _ := ⟨fun _ => rfl, rfl⟩
  covered _ := by simp [Registry.initial]

/-- The epoch a proposal must name is never finalized yet. -/
theorem expectedEpoch_not_finalized {r : Registry} {epoch : ℕ} (h : r.expectedEpoch = .ok epoch) :
    ¬r.Finalized epoch := by
  rintro ⟨hset, hle⟩
  rcases expectedEpoch_spec h with ⟨hunset, -⟩ | ⟨-, rfl⟩
  · rw [hset] at hunset
    cases hunset
  · omega

variable {keccak256 : Bytes → Word} {d : Deployment}

/-- Only an execution touches the epoch data. -/
theorem registryStep_epochs {r r' : Registry} {tx : RegistryTx}
    (h : registryStep keccak256 d r tx = .ok r') :
    (r'.genesisSet = r.genesisSet ∧ r'.currentEpoch = r.currentEpoch ∧
        r'.stakeByEpoch = r.stakeByEpoch ∧ r'.totalStakeByEpoch = r.totalStakeByEpoch) ∨
      ∃ epoch entries, r.expectedEpoch = .ok epoch ∧ r'.genesisSet = true ∧
        r'.currentEpoch = epoch ∧
        r'.stakeByEpoch =
          Function.update r.stakeByEpoch epoch (writeEntries (r.stakeByEpoch epoch) entries) ∧
        r'.totalStakeByEpoch =
          Function.update r.totalStakeByEpoch epoch (entries.map Prod.snd).sum := by
  rcases registryStep_cases h with ⟨epoch, pkHashes, stakes, id, -, h⟩ | ⟨id, -, h⟩ |
    ⟨id, -, h⟩ | ⟨id, -, h⟩
  · obtain ⟨-, -, -, -, p', -, rfl⟩ := proposeEpochTransition_spec h
    exact Or.inl ⟨rfl, rfl, rfl, rfl⟩
  · obtain ⟨-, -, -, -, p', -, rfl⟩ := approveEpochTransition_spec h
    exact Or.inl ⟨rfl, rfl, rfl, rfl⟩
  · obtain ⟨-, -, -, -, -, p', readyAt, rfl, -, -⟩ := revokeApproval_spec h
    exact Or.inl ⟨rfl, rfl, rfl, rfl⟩
  · obtain ⟨-, -, -, -, hexpected, rfl⟩ := executeEpochTransition_spec h
    exact Or.inr ⟨_, _, hexpected, rfl, rfl, rfl, rfl⟩

/-- Step lemma: every successful transaction keeps the epoch data sound. -/
theorem registryStep_epochsSound {r r' : Registry} {tx : RegistryTx} (hr : r.EpochsSound)
    (h : registryStep keccak256 d r tx = .ok r') : r'.EpochsSound := by
  rcases registryStep_epochs h with ⟨hset, hcur, hstake, htotal⟩ |
    ⟨epoch, entries, hexpected, hset, hcur, hstake, htotal⟩
  · constructor
    · intro epoch hnot
      rw [hstake, htotal]
      refine hr.empty epoch fun hfin => hnot ?_
      rwa [Registry.Finalized, hset, hcur]
    · intro epoch
      rw [hstake, htotal]
      exact hr.covered epoch
  · have hfresh := hr.empty epoch (expectedEpoch_not_finalized hexpected)
    constructor
    · intro other hnot
      have hother : other ≠ epoch := by
        rintro rfl
        exact hnot ⟨hset, le_of_eq hcur.symm⟩
      have hbefore : ¬r.Finalized other := by
        rintro ⟨hset', hle⟩
        refine hnot ⟨hset, ?_⟩
        rcases expectedEpoch_spec hexpected with ⟨hunset, -⟩ | ⟨-, rfl⟩
        · rw [hset'] at hunset
          cases hunset
        · omega
      rw [hstake, htotal, Function.update_of_ne hother, Function.update_of_ne hother]
      exact hr.empty other hbefore
    · intro other
      rw [hstake, htotal]
      by_cases hother : other = epoch
      · subst hother
        rw [Function.update_self, Function.update_self]
        have hsum := sum_writeEntries_le (r.stakeByEpoch other) entries
        have hzero : ∑ pkHash, r.stakeByEpoch other pkHash = 0 :=
          Finset.sum_eq_zero fun pkHash _ => hfresh.1 pkHash
        omega
      · rw [Function.update_of_ne hother, Function.update_of_ne hother]
        exact hr.covered other

/-- Step lemma: a finalized epoch stays finalized with its stakes and total. -/
theorem registryStep_finalized {r r' : Registry} {tx : RegistryTx} {epoch : ℕ}
    (hfin : r.Finalized epoch) (h : registryStep keccak256 d r tx = .ok r') :
    r'.Finalized epoch ∧ r'.stakeByEpoch epoch = r.stakeByEpoch epoch ∧
      r'.totalStakeByEpoch epoch = r.totalStakeByEpoch epoch := by
  rcases registryStep_epochs h with ⟨hset, hcur, hstake, htotal⟩ |
    ⟨next, entries, hexpected, hset, hcur, hstake, htotal⟩
  · rw [Registry.Finalized, hset, hcur, hstake, htotal]
    exact ⟨hfin, rfl, rfl⟩
  · have hne : epoch ≠ next := by
      rintro rfl
      exact expectedEpoch_not_finalized hexpected hfin
    rw [hstake, htotal, Function.update_of_ne hne, Function.update_of_ne hne]
    refine ⟨⟨hset, ?_⟩, rfl, rfl⟩
    rcases expectedEpoch_spec hexpected with ⟨hunset, -⟩ | ⟨-, hnext⟩
    · rw [hfin.1] at hunset
      cases hunset
    · have := hfin.2
      omega

/-- Run lemma: the epoch data are sound at every position. -/
theorem registryAt_epochsSound (keccak256 : Bytes → Word) (d : Deployment)
    (txs : List RegistryTx) (n : ℕ) : (registryAt keccak256 d txs n).EpochsSound :=
  stateAt_induction (fun r => r.EpochsSound) 0 (by rw [stateAt_zero]; exact initial_epochsSound)
    (fun _ _ _ _ hr h => registryStep_epochsSound hr h) n (Nat.zero_le n)

end SuwappuRevm.Contracts
