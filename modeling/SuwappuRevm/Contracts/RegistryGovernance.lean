import SuwappuRevm.Contracts.RegistryHistory

/-!
# Governance of the registry

At every position of a run the timelock of a proposal is what the approvals in force make it: zero
without a quorum, and else the delay after the call that has completed the quorum. So whether an
execution succeeds is decided by the approvals and the clock.
-/

namespace SuwappuRevm.Contracts

open Foundations

section Timing

variable {keccak256 : Bytes → Word} {d : Deployment}

/-- After `n` calls the approvals of a proposal that are in force reach the threshold. -/
def Quorum (keccak256 : Bytes → Word) (d : Deployment) (txs : List RegistryTx) (n : ℕ)
    (proposalId : Word) : Prop :=
  d.threshold ≤ (approvalsInForce keccak256 d txs n proposalId).card

/-- A proposal is timed exactly when it has its quorum, and its lists are those of a call. -/
structure Proposal.Timely (d : Deployment) (p : Proposal) : Prop where
  ready_iff : p.readyAt ≠ 0 ↔ d.threshold ≤ p.approvalCount
  epoch_lt : p.epoch < wordBound
  length_eq : p.pkHashes.length = p.stakes.length

/-- Every proposal is timely. -/
def Registry.Timely (d : Deployment) (r : Registry) : Prop :=
  ∀ proposalId, (r.proposals proposalId).Timely d

/-- Storage right after deployment is timely. -/
theorem initial_timely (hd : d.WellFormed) : Registry.initial.Timely d := fun _ =>
  ⟨⟨fun h => absurd rfl h, fun h => absurd (hd.threshold_pos.trans_le h) (lt_irrefl 0)⟩,
    show 0 < wordBound by decide, rfl⟩

/-- `_approve` starts the timelock when it completes a quorum that is not timed. -/
theorem approveInternal_eq {blockTimestamp : ℕ} {msgSender : Address} {p p' : Proposal}
    (h : approveInternal d blockTimestamp msgSender p = .ok p') :
    p' = { p with
      approved := Function.update p.approved msgSender true
      approvalCount := p.approvalCount + 1
      readyAt := if p.approvalCount + 1 = d.threshold ∧ p.readyAt = 0 then
        blockTimestamp + d.timelockDelay else p.readyAt } := by
  simp only [approveInternal, bind_eq_ok, checkedAdd_eq_ok] at h
  obtain ⟨count, ⟨-, rfl⟩, h⟩ := h
  split at h
  next hready =>
    simp only [bind_eq_ok, checkedAdd_eq_ok, pure_eq_ok] at h
    obtain ⟨readyAt, ⟨-, rfl⟩, rfl⟩ := h
    rw [if_pos hready]
  next hready =>
    rw [pure_eq_ok] at h
    rw [if_neg hready, h]

/-- How a call moves the timelock of a proposal: not at all, to zero, or from zero to the delay
after the call. -/
inductive Retimed (d : Deployment) (timestamp : ℕ) (p p' : Proposal) : Prop
  | kept (h : p'.readyAt = p.readyAt)
  | cleared (h : p'.readyAt = 0)
  | started (hbefore : p.readyAt = 0) (h : p'.readyAt = timestamp + d.timelockDelay)

/-- `_approve` keeps a proposal timely. -/
theorem approveInternal_timely {blockTimestamp : ℕ} {msgSender : Address} {p p' : Proposal}
    (hp : p.Timely d) (htime : 0 < blockTimestamp + d.timelockDelay)
    (h : approveInternal d blockTimestamp msgSender p = .ok p') :
    p'.Timely d ∧ Retimed d blockTimestamp p p' := by
  obtain rfl := approveInternal_eq h
  have hready := hp.ready_iff
  by_cases hstart : p.approvalCount + 1 = d.threshold ∧ p.readyAt = 0
  · rw [if_pos hstart]
    refine ⟨⟨?_, hp.epoch_lt, hp.length_eq⟩, .started hstart.2 rfl⟩
    dsimp only
    omega
  · rw [if_neg hstart]
    refine ⟨⟨?_, hp.epoch_lt, hp.length_eq⟩, .kept rfl⟩
    dsimp only
    omega

/-- A revocation resets the timelock exactly when it loses the quorum. -/
theorem revokeApproval_readyAt {r r' : Registry} {msgSender : Address} {proposalId : Word}
    (h : revokeApproval d r msgSender proposalId = .ok r') :
    (r'.proposals proposalId).readyAt =
      if (r'.proposals proposalId).approvalCount < d.threshold then 0
      else (r.proposals proposalId).readyAt := by
  simp only [revokeApproval, bind_eq_ok, failIf_eq_ok, pure_eq_ok, checkedSub_eq_ok] at h
  obtain ⟨-, -, -, -, -, -, -, -, count, -, rfl⟩ := h
  simp only [Function.update_self]
  split <;> rfl

/-- A transaction keeps the registry timely and moves each timelock in one of the three ways. -/
theorem registryStep_timely (hd : d.WellFormed) {r r' : Registry} {tx : RegistryTx}
    (hr : r.Sound d) (ht : r.Timely d) (htime : 0 < tx.timestamp + d.timelockDelay)
    (h : registryStep keccak256 d r tx = .ok r') :
    r'.Timely d ∧ ∀ proposalId, Retimed d tx.timestamp (r.proposals proposalId)
      (r'.proposals proposalId) := by
  have hone {id : Word} {p' : Proposal}
      (hproposals : r'.proposals = Function.update r.proposals id p')
      (hp : p'.Timely d ∧ Retimed d tx.timestamp (r.proposals id) p') :
      r'.Timely d ∧ ∀ proposalId, Retimed d tx.timestamp (r.proposals proposalId)
        (r'.proposals proposalId) := by
    unfold Registry.Timely
    rw [hproposals, ← forall_and]
    intro proposalId
    by_cases hid : proposalId = id
    · subst hid
      rw [Function.update_self]
      exact hp
    · rw [Function.update_of_ne hid]
      exact ⟨ht proposalId, .kept rfl⟩
  rcases registryStep_cases h with ⟨epoch, pkHashes, stakes, id, -, h⟩ | ⟨id, -, h⟩ |
    ⟨id, -, h⟩ | ⟨id, -, h⟩
  · obtain ⟨-, hexpected, hlength, hfresh, p', happrove, rfl⟩ := proposeEpochTransition_spec h
    have hepoch : epoch < wordBound := by
      unfold Registry.expectedEpoch at hexpected
      split at hexpected
      · obtain ⟨hlt, rfl⟩ := checkedAdd_eq_ok.mp hexpected
        exact hlt
      · cases hexpected
        decide
    have hblank : ({ r.proposals id with epoch, pkHashes, stakes } : Proposal).Timely d := by
      rw [hr.blank id hfresh]
      exact ⟨((initial_timely hd) id).ready_iff, hepoch, hlength⟩
    obtain ⟨htimely, hretimed⟩ := approveInternal_timely hblank htime happrove
    refine hone rfl ⟨htimely, ?_⟩
    cases hretimed with
    | kept h => exact .kept h
    | cleared h => exact .cleared h
    | started hbefore h => exact .started hbefore h
  · obtain ⟨-, -, -, -, p', happrove, rfl⟩ := approveEpochTransition_spec h
    exact hone rfl (approveInternal_timely (ht id) htime happrove)
  · have hreset := revokeApproval_readyAt h
    obtain ⟨-, -, -, -, -, p', readyAt, rfl, rfl, -⟩ := revokeApproval_spec h
    simp only [Function.update_self] at hreset
    have hready := (ht id).ready_iff
    refine hone rfl ⟨⟨?_, (ht id).epoch_lt, (ht id).length_eq⟩, ?_⟩
    · dsimp only
      rw [hreset]
      split <;> omega
    · split at hreset
      · exact .cleared hreset
      · exact .kept hreset
  · obtain ⟨-, -, -, -, -, rfl⟩ := executeEpochTransition_spec h
    exact hone rfl ⟨⟨(ht id).ready_iff, (ht id).epoch_lt, (ht id).length_eq⟩, .kept rfl⟩

end Timing

section Execution

variable {keccak256 : Bytes → Word} {d : Deployment} {txs : List RegistryTx}

/-- Run lemma: every position of a run is timely. -/
theorem registryAt_timely (keccak256 : Bytes → Word) (hd : d.WellFormed)
    (htime : ∀ tx ∈ txs, 0 < tx.timestamp + d.timelockDelay) (n : ℕ) :
    (registryAt keccak256 d txs n).Timely d := by
  have hstart : (registryAt keccak256 d txs 0).Timely d := by
    rw [registryAt, stateAt_zero]
    exact initial_timely hd
  suffices h : (registryAt keccak256 d txs n).Sound d ∧ (registryAt keccak256 d txs n).Timely d
    from h.2
  exact stateAt_induction (fun r => r.Sound d ∧ r.Timely d) 0
    ⟨registryAt_sound keccak256 hd txs 0, hstart⟩
    (fun k hk _ _ hr h => ⟨registryStep_sound hd hr.1 h,
      (registryStep_timely hd hr.1 hr.2 (htime _ (List.getElem_mem hk)) h).1⟩) n (Nat.zero_le n)

variable (keccak256 d txs) in
/-- A call completes the quorum of a proposal, and the quorum stands from then on up to a
position. -/
structure QuorumSince (proposalId : Word) (j n : ℕ) : Prop where
  lt : j < n
  before : ¬Quorum keccak256 d txs j proposalId
  since : ∀ m, j < m → m ≤ n → Quorum keccak256 d txs m proposalId

/-- A proposal is timed exactly when it has its quorum. -/
theorem readyAt_ne_zero_iff (keccak256 : Bytes → Word) (hd : d.WellFormed)
    (htime : ∀ tx ∈ txs, 0 < tx.timestamp + d.timelockDelay) (n : ℕ) (proposalId : Word) :
    ((registryAt keccak256 d txs n).proposals proposalId).readyAt ≠ 0 ↔
      Quorum keccak256 d txs n proposalId := by
  rw [(registryAt_timely keccak256 hd htime n proposalId).ready_iff, Quorum, approvalsInForce_eq,
    ((registryAt_sound keccak256 hd txs n).proposal proposalId).count_eq]

/-- A quorum has been completed by one call, and its timelock is the delay after that call. -/
theorem quorumSince_of_quorum (hd : d.WellFormed)
    (htime : ∀ tx ∈ txs, 0 < tx.timestamp + d.timelockDelay) {n : ℕ} (hn : n ≤ txs.length)
    {proposalId : Word} (h : Quorum keccak256 d txs n proposalId) :
    ∃ j, ∃ hj : j < txs.length, QuorumSince keccak256 d txs proposalId j n ∧
      ((registryAt keccak256 d txs n).proposals proposalId).readyAt =
        txs[j].timestamp + d.timelockDelay := by
  induction n with
  | zero =>
    refine absurd ?_ ((readyAt_ne_zero_iff keccak256 hd htime 0 proposalId).mpr h)
    rw [registryAt, stateAt_zero]
    rfl
  | succ n ih =>
    have hready := (readyAt_ne_zero_iff keccak256 hd htime (n + 1) proposalId).mpr h
    have hretimed : Retimed d txs[n].timestamp ((registryAt keccak256 d txs n).proposals proposalId)
        ((registryAt keccak256 d txs (n + 1)).proposals proposalId) := by
      rcases registryAt_moves keccak256 d hn with hstep | ⟨-, hstay⟩
      · exact (registryStep_timely hd (registryAt_sound keccak256 hd txs n)
          (registryAt_timely keccak256 hd htime n) (htime _ (List.getElem_mem hn)) hstep).2 _
      · rw [hstay]
        exact .kept rfl
    by_cases hbefore : Quorum keccak256 d txs n proposalId
    · -- the quorum stood before the call, so the call has kept its timelock
      obtain ⟨j, hj, hsince, hset⟩ := ih (by omega) hbefore
      have hold := (readyAt_ne_zero_iff keccak256 hd htime n proposalId).mpr hbefore
      refine ⟨j, hj, ⟨hsince.lt.trans (Nat.lt_succ_self n), hsince.before, fun m hjm hmn => ?_⟩,
        ?_⟩
      · rcases Nat.lt_or_eq_of_le hmn with hlt | rfl
        · exact hsince.since m hjm (by omega)
        · exact h
      · cases hretimed with
        | kept hkept => exact hkept.trans hset
        | cleared hcleared => exact absurd hcleared hready
        | started hzero hstarted => exact absurd hzero hold
    · -- the call completes the quorum
      have hzero : ((registryAt keccak256 d txs n).proposals proposalId).readyAt = 0 := by
        by_contra hne
        exact hbefore ((readyAt_ne_zero_iff keccak256 hd htime n proposalId).mp hne)
      refine ⟨n, hn, ⟨Nat.lt_succ_self n, hbefore, fun m hnm hmn => ?_⟩, ?_⟩
      · obtain rfl : m = n + 1 := by omega
        exact h
      · cases hretimed with
        | kept hkept => exact absurd (hkept.trans hzero) hready
        | cleared hcleared => exact absurd hcleared hready
        | started hzero hstarted => exact hstarted

/-- Only one call can have completed the quorum that stands. -/
theorem QuorumSince.unique {proposalId : Word} {j j' n : ℕ}
    (h : QuorumSince keccak256 d txs proposalId j n)
    (h' : QuorumSince keccak256 d txs proposalId j' n) : j = j' := by
  rcases Nat.lt_trichotomy j j' with hlt | heq | hlt
  · exact absurd (h.since j' hlt h'.lt.le) h'.before
  · exact heq
  · exact absurd (h'.since j hlt h.lt.le) h.before

/-- The finalizing loop over lists of one length ends exactly when the running total fits. -/
theorem finalizeStakes_ok_iff {pkHashes : List Word} {stakes : List ℕ} {stakeOf : Word → ℕ}
    {total : ℕ} (hlength : pkHashes.length = stakes.length) (htotal : total < wordBound) :
    (∃ result, finalizeStakes pkHashes stakes stakeOf total = .ok result) ↔
      total + stakes.sum < wordBound := by
  induction pkHashes generalizing stakes stakeOf total with
  | nil =>
    obtain rfl := List.length_eq_zero_iff.mp hlength.symm
    simpa [finalizeStakes] using htotal
  | cons key pkHashes ih =>
    cases stakes with
    | nil => cases hlength
    | cons stake stakes =>
      rw [List.sum_cons, ← Nat.add_assoc]
      by_cases hfits : total + stake < wordBound
      · rw [finalizeStakes, checkedAdd, if_pos hfits, ok_bind]
        exact ih (Nat.succ.inj hlength) hfits
      · rw [finalizeStakes, checkedAdd, if_neg hfits, error_bind]
        constructor
        · rintro ⟨_, h⟩
          cases h
        · omega

/-- The expected epoch is computed exactly when it fits a word. -/
theorem expectedEpoch_eq_ok {r : Registry} {epoch : ℕ} (hepoch : epoch < wordBound) :
    r.expectedEpoch = .ok epoch ↔ epoch = if r.genesisSet then r.currentEpoch + 1 else 0 := by
  unfold Registry.expectedEpoch
  split
  · rw [checkedAdd_eq_ok]
    exact ⟨fun h => h.2, fun h => ⟨h ▸ hepoch, h⟩⟩
  · exact ⟨fun h => by cases h; rfl, fun h => h ▸ rfl⟩

/-- An execution of a proposal with lists of one length succeeds exactly when the guards pass and
the total fits. -/
theorem executeEpochTransition_ok_iff {r : Registry} {blockTimestamp : ℕ} {proposalId : Word}
    (hp : (r.proposals proposalId).Timely d) :
    (executeEpochTransition r blockTimestamp proposalId).isOk = true ↔
      r.proposalExists proposalId = true ∧ (r.proposals proposalId).executed = false ∧
        (r.proposals proposalId).readyAt ≠ 0 ∧
        (r.proposals proposalId).readyAt ≤ blockTimestamp ∧
        ((r.proposals proposalId).epoch = if r.genesisSet then r.currentEpoch + 1 else 0) ∧
        (r.proposals proposalId).stakes.sum < wordBound := by
  have hloop : (∃ result, finalizeStakes _ _ (r.stakeByEpoch (r.proposals proposalId).epoch) 0 =
      .ok result) ↔ _ := finalizeStakes_ok_iff hp.length_eq (show 0 < wordBound by decide)
  rw [Nat.zero_add] at hloop
  rw [← hloop, ← expectedEpoch_eq_ok hp.epoch_lt]
  constructor
  · intro h
    obtain ⟨r', h⟩ := exists_of_isOk h
    simp only [executeEpochTransition, bind_eq_ok, failIf_eq_ok, Decidable.not_not,
      Bool.not_eq_true, Bool.not_eq_false, ne_eq, Nat.not_lt] at h
    obtain ⟨-, hexists, -, hopen, -, hready, -, htime, expected, hexpected, -, hepoch,
      result, hresult, -⟩ := h
    exact ⟨hexists, hopen, hready, htime, hepoch ▸ hexpected, result, hresult⟩
  · rintro ⟨hexists, hopen, hready, htime, hexpected, ⟨stakeOf, total⟩, hresult⟩
    rw [executeEpochTransition, failIf_of_not (by simp [hexists]), ok_bind]
    dsimp only
    rw [failIf_of_not (by simp [hopen]), ok_bind, failIf_of_not hready, ok_bind,
      failIf_of_not (not_lt.mpr htime), ok_bind, hexpected, ok_bind,
      failIf_of_not (fun h => h rfl), ok_bind, hresult]
    rfl

/-- When an execution succeeds. At any position of a run, anyone's call executes a proposal exactly
when it is open and for the next epoch, its stakes add up to a word, and the call that has completed
the quorum standing now lies at least the delay back. -/
theorem execution_succeeds_iff (keccak256 : Bytes → Word) {signers_ : List Address}
    {threshold_ networkId_ timelockDelay_ : ℕ} {d : Deployment}
    (hd : construct signers_ threshold_ networkId_ timelockDelay_ = .ok d)
    (txs : List RegistryTx) (htime : ∀ tx ∈ txs, 0 < tx.timestamp + timelockDelay_) (i : ℕ)
    (hi : i < txs.length) (proposalId : Word) (hcall : txs[i].call = .execute proposalId) :
    let r := registryAt keccak256 d txs i
    let p := r.proposals proposalId
    (registryStep keccak256 d r txs[i]).isOk = true ↔
      p.executed = false ∧ (p.epoch = if r.genesisSet then r.currentEpoch + 1 else 0) ∧
        p.stakes.sum < 2 ^ 256 ∧
        ∃ j, ∃ hj : j < txs.length, txs[j].timestamp + timelockDelay_ ≤ txs[i].timestamp ∧
          QuorumSince keccak256 d txs proposalId j i := by
  obtain ⟨hwf, rfl, rfl, rfl⟩ := construct_spec hd
  have hready := readyAt_ne_zero_iff keccak256 hwf htime i proposalId
  dsimp only
  rw [registryStep, hcall]
  dsimp only
  rw [executeEpochTransition_ok_iff (registryAt_timely keccak256 hwf htime i proposalId)]
  constructor
  · rintro ⟨-, hopen, hset, hpast, hepoch, hsum⟩
    obtain ⟨j, hj, hsince, hreadyAt⟩ := quorumSince_of_quorum hwf htime hi.le (hready.mp hset)
    exact ⟨hopen, hepoch, hsum, j, hj, hreadyAt ▸ hpast, hsince⟩
  · rintro ⟨hopen, hepoch, hsum, j, hj, hpast, hsince⟩
    have hquorum := hsince.since i hsince.lt le_rfl
    obtain ⟨j', hj', hsince', hreadyAt⟩ := quorumSince_of_quorum hwf htime hi.le hquorum
    obtain rfl := hsince.unique hsince'
    refine ⟨?_, hopen, hready.mpr hquorum, hreadyAt ▸ hpast, hepoch, hsum⟩
    by_contra hfresh
    have hblank := (registryAt_sound keccak256 hwf txs i).blank proposalId (by simpa using hfresh)
    exact hready.mpr hquorum (by rw [hblank]; rfl)

/-- The execution of the genesis run succeeds, so call 1 has completed its quorum. -/
theorem execution_succeeds_iff_genesis : ∃ d, construct [1, 2] 2 1 10 = .ok d ∧
    ∃ j, ∃ hj : j < genesisRun.length, genesisRun[j].timestamp + 10 ≤ 17 ∧
      QuorumSince (fun _ => 9) d genesisRun 9 j 2 := by
  have hd : construct [1, 2] 2 1 10 = .ok ⟨1, 2, 10, [1, 2],
      Function.update (Function.update (fun _ => false) 1 true) 2 true⟩ := rfl
  have hok : (registryStep (fun _ => 9) ⟨1, 2, 10, [1, 2],
      Function.update (Function.update (fun _ => false) 1 true) 2 true⟩
      (registryAt (fun _ => 9) ⟨1, 2, 10, [1, 2],
        Function.update (Function.update (fun _ => false) 1 true) 2 true⟩ genesisRun 2)
      genesisRun[2]).isOk = true := by decide +kernel
  obtain ⟨-, -, -, j, hj, hpast, hsince⟩ := (execution_succeeds_iff (fun _ => 9) hd genesisRun
    (by decide) 2 (by decide) 9 rfl).mp hok
  exact ⟨_, hd, j, hj, hpast, hsince⟩

end Execution

end SuwappuRevm.Contracts
