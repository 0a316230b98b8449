import Mathlib.Data.List.Nodup
import SuwappuRevm.Contracts.ValidatorRegistry
import SuwappuRevm.Foundations.FiniteSums

/-!
# What one registry call can do

One inversion lemma for each function of the contract, guards included. Later proofs use these
and never unfold a call. The constructor's result is a well-formed deployment.
-/

namespace SuwappuRevm.Contracts

open Foundations

/-- The facts the constructor establishes about the immutables. -/
structure Deployment.WellFormed (d : Deployment) : Prop where
  signers_nodup : d.signers.Nodup
  isSigner_iff : ∀ a, d.isSigner a = true ↔ a ∈ d.signers
  threshold_pos : 0 < d.threshold
  threshold_le : d.threshold ≤ d.signers.length

/-- The signer loop keeps the signer list duplicate-free and in step with `isSigner`. -/
theorem addSigners_spec (signers_ : List Address) (d d' : Deployment)
    (hnodup : d.signers.Nodup) (hiff : ∀ a, d.isSigner a = true ↔ a ∈ d.signers)
    (h : addSigners signers_ d = .ok d') :
    d'.signers = d.signers ++ signers_ ∧ d'.signers.Nodup ∧
      (∀ a, d'.isSigner a = true ↔ a ∈ d'.signers) ∧ d'.threshold = d.threshold ∧
      d'.timelockDelay = d.timelockDelay := by
  induction signers_ generalizing d with
  | nil =>
    cases h
    exact ⟨(List.append_nil _).symm, hnodup, hiff, rfl, rfl⟩
  | cons s rest ih =>
    simp only [addSigners, bind_eq_ok, failIf_eq_ok] at h
    obtain ⟨-, -, -, hfresh, h⟩ := h
    have hs : s ∉ d.signers := fun hmem => hfresh ((hiff s).mpr hmem)
    have hnodup' : (d.signers ++ [s]).Nodup := by
      simp only [List.nodup_append, hnodup, List.nodup_singleton, true_and]
      intro a ha b hb hab
      rw [List.mem_singleton.mp hb] at hab
      exact hs (hab ▸ ha)
    have hiff' (a : Address) :
        Function.update d.isSigner s true a = true ↔ a ∈ d.signers ++ [s] := by
      by_cases ha : a = s
      · simp [ha]
      · simp [ha, Function.update_of_ne, hiff a]
    obtain ⟨hlist, hrest⟩ := ih _ hnodup' hiff' h
    refine ⟨?_, hrest⟩
    rw [hlist, List.append_assoc]
    rfl

/-- The constructor keeps its arguments and refuses ill-formed signer sets. -/
theorem construct_spec {signers_ : List Address} {threshold_ networkId_ timelockDelay_ : ℕ}
    {d : Deployment} (h : construct signers_ threshold_ networkId_ timelockDelay_ = .ok d) :
    d.WellFormed ∧ d.signers = signers_ ∧ d.threshold = threshold_ ∧
      d.timelockDelay = timelockDelay_ := by
  simp only [construct, bind_eq_ok, failIf_eq_ok, not_or, Nat.not_lt] at h
  obtain ⟨-, ⟨hpos, hle⟩, h⟩ := h
  obtain ⟨hlist, hnodup, hiff, hthreshold, hdelay⟩ :=
    addSigners_spec signers_ _ d List.nodup_nil (fun a => by simp) h
  rw [List.nil_append] at hlist
  refine ⟨⟨hnodup, hiff, ?_, ?_⟩, hlist, hthreshold, hdelay⟩
  · rw [hthreshold]
    exact Nat.pos_of_ne_zero hpos
  · rw [hthreshold, hlist]
    exact hle

/-- `_approve` records one more approval; only reaching the threshold sets `readyAt`. -/
theorem approveInternal_spec {d : Deployment} {blockTimestamp : ℕ} {msgSender : Address}
    {p p' : Proposal} (h : approveInternal d blockTimestamp msgSender p = .ok p') :
    ∃ readyAt, p' = { p with
        approved := Function.update p.approved msgSender true
        approvalCount := p.approvalCount + 1
        readyAt } ∧
      (readyAt = p.readyAt ∨
        p.approvalCount + 1 = d.threshold ∧ readyAt = blockTimestamp + d.timelockDelay) := by
  simp only [approveInternal, bind_eq_ok, checkedAdd_eq_ok] at h
  obtain ⟨count, ⟨-, rfl⟩, h⟩ := h
  split at h
  next hready =>
    simp only [bind_eq_ok, checkedAdd_eq_ok, pure_eq_ok] at h
    obtain ⟨readyAt, ⟨-, rfl⟩, rfl⟩ := h
    exact ⟨_, rfl, Or.inr ⟨hready.1, rfl⟩⟩
  next =>
    rw [pure_eq_ok] at h
    exact ⟨p.readyAt, h.symm, Or.inl rfl⟩

/-- The finalizing loop writes the listed stakes in order and totals all of them. -/
theorem finalizeStakes_spec (pkHashes : List Word) (stakes : List ℕ) (stakeOf stakeOf' : Word → ℕ)
    (total total' : ℕ) (h : finalizeStakes pkHashes stakes stakeOf total = .ok (stakeOf', total')) :
    stakeOf' = writeEntries stakeOf (pkHashes.zip stakes) ∧
      total' = total + ((pkHashes.zip stakes).map Prod.snd).sum := by
  induction pkHashes generalizing stakes stakeOf total with
  | nil =>
    cases h
    simp [writeEntries]
  | cons key pkHashes ih =>
    cases stakes with
    | nil => cases h
    | cons stake stakes =>
      simp only [finalizeStakes, bind_eq_ok, checkedAdd_eq_ok] at h
      obtain ⟨-, ⟨-, rfl⟩, h⟩ := h
      obtain ⟨hstakes, htotal⟩ := ih stakes _ _ h
      refine ⟨hstakes, ?_⟩
      rw [htotal, List.zip_cons_cons, List.map_cons, List.sum_cons, Nat.add_assoc]

/-- The expected epoch is `0` before genesis and the successor of the current one after. -/
theorem expectedEpoch_spec {r : Registry} {epoch : ℕ} (h : r.expectedEpoch = .ok epoch) :
    (r.genesisSet = false ∧ epoch = 0) ∨ (r.genesisSet = true ∧ epoch = r.currentEpoch + 1) := by
  unfold Registry.expectedEpoch at h
  split at h
  next hset =>
    rw [checkedAdd_eq_ok] at h
    exact Or.inr ⟨hset, h.2⟩
  next hset =>
    cases h
    exact Or.inl ⟨by simpa using hset, rfl⟩

variable {keccak256 : Bytes → Word} {d : Deployment} {r r' : Registry}

/-- A successful proposal is a fresh identifier for the expected epoch, already approved by its
proposer. -/
theorem proposeEpochTransition_spec {blockTimestamp : ℕ} {msgSender : Address} {epoch : ℕ}
    {pkHashes : List Word} {stakes : List ℕ} {proposalId : Word}
    (h : proposeEpochTransition keccak256 d r blockTimestamp msgSender epoch pkHashes stakes =
      .ok (proposalId, r')) :
    d.isSigner msgSender = true ∧ r.expectedEpoch = .ok epoch ∧
      pkHashes.length = stakes.length ∧ r.proposalExists proposalId = false ∧
      ∃ p', approveInternal d blockTimestamp msgSender
          { r.proposals proposalId with epoch, pkHashes, stakes } = .ok p' ∧
        r' = { r with proposals := Function.update r.proposals proposalId p'
                      proposalExists := Function.update r.proposalExists proposalId true } := by
  simp only [proposeEpochTransition, bind_eq_ok, failIf_eq_ok, pure_eq_ok, Decidable.not_not,
    Bool.not_eq_true, Bool.not_eq_false, ne_eq] at h
  obtain ⟨-, hsigner, expected, hexpected, -, hepoch, -, hlength, -, hfresh, p', happrove, hr⟩ := h
  cases hr
  exact ⟨hsigner, hepoch ▸ hexpected, hlength, hfresh, p', happrove, rfl⟩

/-- A proposal's identifier is the hash of what it proposes. -/
theorem proposeEpochTransition_id {blockTimestamp : ℕ} {msgSender : Address} {epoch : ℕ}
    {pkHashes : List Word} {stakes : List ℕ} {proposalId : Word}
    (h : proposeEpochTransition keccak256 d r blockTimestamp msgSender epoch pkHashes stakes =
      .ok (proposalId, r')) :
    proposalId = keccak256 (abiEncodeProposal epoch pkHashes stakes) := by
  simp only [proposeEpochTransition, bind_eq_ok, failIf_eq_ok, pure_eq_ok] at h
  obtain ⟨-, -, expected, -, -, -, -, -, -, -, p', -, hresult⟩ := h
  exact (congrArg Prod.fst hresult).symm

/-- A successful approval comes from a signer who had not approved this open proposal. -/
theorem approveEpochTransition_spec {blockTimestamp : ℕ} {msgSender : Address} {proposalId : Word}
    (h : approveEpochTransition d r blockTimestamp msgSender proposalId = .ok r') :
    d.isSigner msgSender = true ∧ r.proposalExists proposalId = true ∧
      (r.proposals proposalId).executed = false ∧
      (r.proposals proposalId).approved msgSender = false ∧
      ∃ p', approveInternal d blockTimestamp msgSender (r.proposals proposalId) = .ok p' ∧
        r' = { r with proposals := Function.update r.proposals proposalId p' } := by
  simp only [approveEpochTransition, bind_eq_ok, failIf_eq_ok, pure_eq_ok, Bool.not_eq_true,
    Bool.not_eq_false] at h
  obtain ⟨-, hsigner, -, hexists, -, hopen, -, hnew, p', happrove, rfl⟩ := h
  exact ⟨hsigner, hexists, hopen, hnew, p', happrove, rfl⟩

/-- A successful revocation withdraws a standing approval of an open proposal and resets the
timelock when the threshold is lost. -/
theorem revokeApproval_spec {msgSender : Address} {proposalId : Word}
    (h : revokeApproval d r msgSender proposalId = .ok r') :
    d.isSigner msgSender = true ∧ r.proposalExists proposalId = true ∧
      (r.proposals proposalId).executed = false ∧
      (r.proposals proposalId).approved msgSender = true ∧
      1 ≤ (r.proposals proposalId).approvalCount ∧
      ∃ p' readyAt, r' = { r with proposals := Function.update r.proposals proposalId p' } ∧
        p' = { r.proposals proposalId with
          approved := Function.update (r.proposals proposalId).approved msgSender false
          approvalCount := (r.proposals proposalId).approvalCount - 1
          readyAt } ∧
        (readyAt = 0 ∨ readyAt = (r.proposals proposalId).readyAt ∧
          d.threshold ≤ (r.proposals proposalId).approvalCount - 1) := by
  simp only [revokeApproval, bind_eq_ok, failIf_eq_ok, pure_eq_ok, Bool.not_eq_true,
    Bool.not_eq_false, checkedSub_eq_ok] at h
  obtain ⟨-, hsigner, -, hexists, -, hopen, -, hstanding, count, ⟨hpos, rfl⟩, rfl⟩ := h
  refine ⟨hsigner, hexists, hopen, hstanding, hpos, ?_⟩
  split
  next => exact ⟨_, 0, rfl, rfl, Or.inl rfl⟩
  next hquorum => exact ⟨_, _, rfl, rfl, Or.inr ⟨rfl, Nat.le_of_not_lt hquorum⟩⟩

/-- A successful execution is of an open, ready proposal for the expected epoch, past its delay,
and finalizes exactly that epoch from the proposal's lists. -/
theorem executeEpochTransition_spec {blockTimestamp : ℕ} {proposalId : Word}
    (h : executeEpochTransition r blockTimestamp proposalId = .ok r') :
    r.proposalExists proposalId = true ∧ (r.proposals proposalId).executed = false ∧
      (r.proposals proposalId).readyAt ≠ 0 ∧
      (r.proposals proposalId).readyAt ≤ blockTimestamp ∧
      r.expectedEpoch = .ok (r.proposals proposalId).epoch ∧
      r' = { r with
        stakeByEpoch := Function.update r.stakeByEpoch (r.proposals proposalId).epoch
          (writeEntries (r.stakeByEpoch (r.proposals proposalId).epoch)
            ((r.proposals proposalId).pkHashes.zip (r.proposals proposalId).stakes))
        totalStakeByEpoch := Function.update r.totalStakeByEpoch (r.proposals proposalId).epoch
          (((r.proposals proposalId).pkHashes.zip (r.proposals proposalId).stakes).map
            Prod.snd).sum
        currentEpoch := (r.proposals proposalId).epoch
        genesisSet := true
        proposals := Function.update r.proposals proposalId
          { r.proposals proposalId with executed := true } } := by
  simp only [executeEpochTransition, bind_eq_ok, failIf_eq_ok, pure_eq_ok, Decidable.not_not,
    Bool.not_eq_true, Bool.not_eq_false, ne_eq, Nat.not_lt] at h
  obtain ⟨-, hexists, -, hopen, -, hready, -, htime, expected, hexpected, -, hepoch,
    ⟨stakeOf, total⟩, hloop, rfl⟩ := h
  obtain ⟨hstakes, htotal⟩ := finalizeStakes_spec _ _ _ _ _ _ hloop
  rw [Nat.zero_add] at htotal
  subst hstakes htotal hepoch
  exact ⟨hexists, hopen, hready, htime, hexpected, rfl⟩

/-- One transaction is one of the four calls. -/
theorem registryStep_cases {tx : RegistryTx} (h : registryStep keccak256 d r tx = .ok r') :
    (∃ epoch pkHashes stakes proposalId, tx.call = .propose epoch pkHashes stakes ∧
        proposeEpochTransition keccak256 d r tx.timestamp tx.sender epoch pkHashes stakes =
          .ok (proposalId, r')) ∨
      (∃ proposalId, tx.call = .approve proposalId ∧
        approveEpochTransition d r tx.timestamp tx.sender proposalId = .ok r') ∨
      (∃ proposalId, tx.call = .revoke proposalId ∧
        revokeApproval d r tx.sender proposalId = .ok r') ∨
      (∃ proposalId, tx.call = .execute proposalId ∧
        executeEpochTransition r tx.timestamp proposalId = .ok r') := by
  unfold registryStep at h
  cases hcall : tx.call with
  | propose epoch pkHashes stakes =>
    rw [hcall] at h
    obtain ⟨⟨proposalId, r''⟩, hpropose, rfl⟩ := map_eq_ok.mp h
    exact Or.inl ⟨epoch, pkHashes, stakes, proposalId, rfl, hpropose⟩
  | approve proposalId =>
    rw [hcall] at h
    exact Or.inr (Or.inl ⟨proposalId, rfl, h⟩)
  | revoke proposalId =>
    rw [hcall] at h
    exact Or.inr (Or.inr (Or.inl ⟨proposalId, rfl, h⟩))
  | execute proposalId =>
    rw [hcall] at h
    exact Or.inr (Or.inr (Or.inr ⟨proposalId, rfl, h⟩))

end SuwappuRevm.Contracts
