import SuwappuRevm.Contracts.RegistryGovernance

/-!
# Liveness of the registry

A proposal is open and for the next epoch until its epoch is finalized, and an approval stands until
its signer revokes it or the proposal is executed. So a quorum of signers that keeps its approvals
finalizes the epoch of the proposal, whatever everyone else calls in between.
-/

namespace SuwappuRevm.Contracts

open Foundations

variable {keccak256 : Bytes → Word} {d : Deployment} {txs : List RegistryTx}

/-- A pending proposal is open and for the next epoch; any other is for a finalized epoch. -/
def Registry.Pending (r : Registry) : Prop :=
  ∀ proposalId, r.proposalExists proposalId = true →
    r.Finalized (r.proposals proposalId).epoch ∨ (r.proposals proposalId).executed = false ∧
      (r.proposals proposalId).epoch = if r.genesisSet then r.currentEpoch + 1 else 0

/-- A transaction that leaves the epochs alone keeps what is pending. -/
theorem pending_of_same_epochs {r r' : Registry} (hr : r.Pending)
    (hset : r'.genesisSet = r.genesisSet) (hcurrent : r'.currentEpoch = r.currentEpoch)
    (hp : ∀ proposalId, r'.proposalExists proposalId = true →
      r.proposalExists proposalId = true ∧
        (r'.proposals proposalId).executed = (r.proposals proposalId).executed ∧
        (r'.proposals proposalId).epoch = (r.proposals proposalId).epoch ∨
      (r'.proposals proposalId).executed = false ∧
        (r'.proposals proposalId).epoch = if r.genesisSet then r.currentEpoch + 1 else 0) :
    r'.Pending := by
  intro proposalId hexists
  rw [Registry.Finalized, hset, hcurrent]
  rcases hp proposalId hexists with ⟨hbefore, hexecuted, hepoch⟩ | hfresh
  · rw [hexecuted, hepoch]
    exact hr proposalId hbefore
  · exact .inr hfresh

/-- Step lemma: a transaction keeps every proposal pending or for a finalized epoch. -/
theorem registryStep_pending {r r' : Registry} {tx : RegistryTx} (hsound : r.Sound d)
    (hr : r.Pending) (h : registryStep keccak256 d r tx = .ok r') : r'.Pending := by
  have hfinalized (epoch : ℕ) (hfin : r.Finalized epoch) : r'.Finalized epoch :=
    (registryStep_finalized hfin h).1
  rcases registryStep_cases h with ⟨epoch, pkHashes, stakes, id, -, h⟩ | ⟨id, -, h⟩ |
    ⟨id, -, h⟩ | ⟨id, -, h⟩
  · obtain ⟨-, hexpected, -, hfresh, p', happrove, rfl⟩ := proposeEpochTransition_spec h
    obtain rfl := approveInternal_eq happrove
    refine pending_of_same_epochs hr rfl rfl fun proposalId hexists => ?_
    by_cases hid : proposalId = id
    · subst hid
      right
      simp only [Function.update_self]
      refine ⟨by rw [hsound.blank _ hfresh]; rfl, ?_⟩
      rcases expectedEpoch_spec hexpected with ⟨hunset, rfl⟩ | ⟨hset, rfl⟩
      · rw [hunset]
        rfl
      · rw [hset]
        rfl
    · refine .inl ⟨?_, by simp only [Function.update_of_ne hid, and_self]⟩
      simpa only [Function.update_of_ne hid] using hexists
  · obtain ⟨-, -, -, -, p', happrove, rfl⟩ := approveEpochTransition_spec h
    obtain rfl := approveInternal_eq happrove
    refine pending_of_same_epochs hr rfl rfl fun proposalId hexists => .inl ⟨hexists, ?_⟩
    by_cases hid : proposalId = id
    · subst hid
      simp only [Function.update_self, and_self]
    · simp only [Function.update_of_ne hid, and_self]
  · obtain ⟨-, -, -, -, -, p', readyAt, rfl, rfl, -⟩ := revokeApproval_spec h
    refine pending_of_same_epochs hr rfl rfl fun proposalId hexists => .inl ⟨hexists, ?_⟩
    by_cases hid : proposalId = id
    · subst hid
      simp only [Function.update_self, and_self]
    · simp only [Function.update_of_ne hid, and_self]
  · obtain ⟨-, -, -, -, hexpected, rfl⟩ := executeEpochTransition_spec h
    intro proposalId hexists
    left
    by_cases hid : proposalId = id
    · subst hid
      simp only [Function.update_self]
      exact ⟨rfl, le_rfl⟩
    · simp only [Function.update_of_ne hid]
      rcases hr proposalId hexists with hfin | ⟨-, hepoch⟩
      · exact hfinalized _ hfin
      · refine ⟨rfl, hepoch.trans_le ?_⟩
        rcases expectedEpoch_spec hexpected with ⟨hunset, hzero⟩ | ⟨hset, hnext⟩
        · rw [hunset]
          exact Nat.zero_le _
        · rw [hset]
          exact hnext.ge

/-- Run lemma: at every position each proposal is pending or for a finalized epoch. -/
theorem registryAt_pending (keccak256 : Bytes → Word) (hd : d.WellFormed) (txs : List RegistryTx)
    (n : ℕ) : (registryAt keccak256 d txs n).Pending := by
  have hstart : (registryAt keccak256 d txs 0).Pending := by
    rw [registryAt, stateAt_zero]
    intro proposalId hexists
    cases hexists
  suffices h : (registryAt keccak256 d txs n).Sound d ∧ (registryAt keccak256 d txs n).Pending
    from h.2
  exact stateAt_induction (fun r => r.Sound d ∧ r.Pending) 0
    ⟨registryAt_sound keccak256 hd txs 0, hstart⟩
    (fun _ _ _ _ hr h => ⟨registryStep_sound hd hr.1 h, registryStep_pending hr.1 hr.2 h⟩)
    n (Nat.zero_le n)

/-- An existing proposal keeps its epoch and its stakes. -/
theorem proposal_stays {n m : ℕ} {proposalId : Word}
    (hexists : (registryAt keccak256 d txs n).proposalExists proposalId = true) (hnm : n ≤ m) :
    (registryAt keccak256 d txs m).proposalExists proposalId = true ∧
      ((registryAt keccak256 d txs m).proposals proposalId).epoch =
        ((registryAt keccak256 d txs n).proposals proposalId).epoch := by
  refine stateAt_induction (fun r : Registry => r.proposalExists proposalId = true ∧
    (r.proposals proposalId).epoch = ((registryAt keccak256 d txs n).proposals proposalId).epoch) n
    ⟨hexists, rfl⟩ (fun k _ r' _ hr hstep => ?_) m hnm
  rcases registryStep_lists hstep proposalId with ⟨hsame, hepoch, -, -⟩ |
    ⟨_, _, _, -, hfresh, -⟩
  · exact ⟨hsame.trans hr.1, hepoch.trans hr.2⟩
  · have hthere : (stateAt (registryStep keccak256 d) Registry.initial txs k).proposalExists
      proposalId = true := hr.1
    rw [hthere] at hfresh
    cases hfresh

variable (keccak256 d txs) in
/-- A call by which a signer approves a proposal: it proposes it, or approves it once proposed. -/
def ApprovesAt (k : ℕ) (proposalId : Word) (signer : Address) : Prop :=
  ∃ hk : k < txs.length, txs[k].sender = signer ∧
    ((∃ epoch pkHashes stakes, ProposesAt keccak256 d txs k proposalId epoch pkHashes stakes) ∨
      (registryAt keccak256 d txs k).proposalExists proposalId = true ∧
        txs[k].call = .approve proposalId)

variable (txs) in
/-- A call by which a signer revokes its approval of a proposal. -/
def RevokesAt (k : ℕ) (proposalId : Word) (signer : Address) : Prop :=
  ∃ hk : k < txs.length, txs[k].sender = signer ∧ txs[k].call = .revoke proposalId

/-- There are fewer signers than words. -/
theorem approvalCount_fits (hd : d.WellFormed) (n : ℕ) (proposalId : Word) :
    ((registryAt keccak256 d txs n).proposals proposalId).approvalCount + 1 < wordBound := by
  rw [((registryAt_sound keccak256 hd txs n).proposal proposalId).count_eq]
  have hcard := Finset.card_le_univ
    (approvers d ((registryAt keccak256 d txs n).proposals proposalId))
  rw [Fintype.card_fin] at hcard
  have hword : 2 ^ 160 + 1 < wordBound := by decide +kernel
  omega

/-- A signer that has not approved an open proposal can approve it. -/
theorem approveEpochTransition_ok {r : Registry} {blockTimestamp : ℕ} {msgSender : Address}
    {proposalId : Word} (hsigner : d.isSigner msgSender = true)
    (hexists : r.proposalExists proposalId = true)
    (hopen : (r.proposals proposalId).executed = false)
    (hnew : (r.proposals proposalId).approved msgSender = false)
    (hcount : (r.proposals proposalId).approvalCount + 1 < wordBound)
    (hfits : blockTimestamp + d.timelockDelay < wordBound) :
    (approveEpochTransition d r blockTimestamp msgSender proposalId).isOk = true := by
  rw [approveEpochTransition, failIf_of_not (by simp [hsigner]), ok_bind,
    failIf_of_not (by simp [hexists]), ok_bind]
  dsimp only
  rw [failIf_of_not (by simp [hopen]), ok_bind, failIf_of_not (by simp [hnew]), ok_bind,
    approveInternal, checkedAdd, if_pos hcount, ok_bind]
  dsimp only
  split
  · rw [checkedAdd, if_pos hfits]
    rfl
  · rfl

/-- After a signer's approving call the proposal exists, and either it had been executed before or
the signer's approval is in force. -/
theorem ApprovesAt.spec (hd : d.WellFormed) {k : ℕ} {proposalId : Word} {signer : Address}
    (h : ApprovesAt keccak256 d txs k proposalId signer) (hsigner : signer ∈ d.signers)
    (hfits : ∀ hk : k < txs.length, txs[k].timestamp + d.timelockDelay < wordBound) :
    (registryAt keccak256 d txs (k + 1)).proposalExists proposalId = true ∧
      ((registryAt keccak256 d txs k).proposalExists proposalId = true ∧
          ((registryAt keccak256 d txs k).proposals proposalId).executed = true ∨
        InForce keccak256 d txs (k + 1) proposalId signer) := by
  obtain ⟨hk, rfl, ⟨epoch, pkHashes, stakes, _, hcall, _, hpropose⟩ | ⟨hexists, hcall⟩⟩ := h
  · have hid := proposeEpochTransition_id hpropose
    have hgrants : GrantsAt keccak256 d txs proposalId txs[k].sender k := by
      refine ⟨hk, rfl, by rw [hcall, hid]; rfl, ?_⟩
      rw [registryStep, hcall]
      dsimp only
      rw [hpropose]
      rfl
    obtain ⟨-, -, -, -, p', -, hresult⟩ := proposeEpochTransition_spec hpropose
    refine ⟨?_, .inr (onSince_succ.mpr (.inl hgrants))⟩
    rw [hresult]
    exact Function.update_self ..
  · refine ⟨(proposal_stays hexists (Nat.le_succ k)).1, ?_⟩
    rcases hopen : ((registryAt keccak256 d txs k).proposals proposalId).executed with _ | _
    · right
      rcases hnew : ((registryAt keccak256 d txs k).proposals proposalId).approved
          txs[k].sender with _ | _
      · refine onSince_succ.mpr (.inl ⟨hk, rfl, by rw [hcall]; rfl, ?_⟩)
        rw [registryStep, hcall]
        exact approveEpochTransition_ok ((hd.isSigner_iff _).mpr hsigner) hexists hopen hnew
          (approvalCount_fits hd k proposalId) (hfits hk)
      · refine onSince_succ.mpr (.inr ⟨(inForce_iff ..).mpr hnew, ?_⟩)
        rintro ⟨_, -, hrevoke, -⟩
        rw [hcall] at hrevoke
        cases hrevoke
    · exact .inl ⟨hexists, rfl⟩

/-- An approval stands up to a position when its signer does not revoke it before. -/
theorem approval_stands {k n : ℕ} {proposalId : Word} {signer : Address}
    (happroved : InForce keccak256 d txs k proposalId signer)
    (hkn : k ≤ n) (hkeeps : ∀ m, k ≤ m → m < n → ¬RevokesAt txs m proposalId signer) :
    InForce keccak256 d txs n proposalId signer := by
  refine OnSince.stands happroved hkn fun m hkm hmn hwithdraws => ?_
  obtain ⟨hm, hsender, hrevoke, -⟩ := hwithdraws
  exact hkeeps m hkm hmn ⟨hm, hsender, hrevoke⟩

/-- Signers that have approved a proposal by a position, unless it is for a finalized epoch, make up
its quorum from there to the position up to which none of them revokes. -/
theorem quorum_stands (hd : d.WellFormed) {a i : ℕ} {proposalId : Word}
    {supporters : Finset Address} (hsigners : ∀ signer ∈ supporters, signer ∈ d.signers)
    (hquorum : d.threshold ≤ supporters.card)
    (hfits : ∀ k (hk : k < txs.length), k < a → txs[k].timestamp + d.timelockDelay < wordBound)
    (happroves : ∀ signer ∈ supporters, ∃ k, k < a ∧
      ApprovesAt keccak256 d txs k proposalId signer ∧
      ∀ m, k < m → m < i → ¬RevokesAt txs m proposalId signer) :
    (registryAt keccak256 d txs a).proposalExists proposalId = true ∧
      ((registryAt keccak256 d txs a).Finalized
          ((registryAt keccak256 d txs a).proposals proposalId).epoch ∨
        ∀ n, a ≤ n → n ≤ i →
          Quorum keccak256 d txs n proposalId) := by
  have hspec (signer : Address) (hmem : signer ∈ supporters) :
      (registryAt keccak256 d txs a).proposalExists proposalId = true ∧
        ((registryAt keccak256 d txs a).Finalized
            ((registryAt keccak256 d txs a).proposals proposalId).epoch ∨
          ∀ n, a ≤ n → n ≤ i → InForce keccak256 d txs n proposalId signer) := by
    obtain ⟨k, hka, happrovesAt, hkeeps⟩ := happroves signer hmem
    obtain ⟨hexists, houtcome⟩ :=
      happrovesAt.spec hd (hsigners signer hmem) (fun hk => hfits k hk hka)
    refine ⟨(proposal_stays hexists (Nat.succ_le_of_lt hka)).1, ?_⟩
    rcases houtcome with ⟨hthere, hexecuted⟩ | happroved
    · left
      rw [(proposal_stays hthere hka.le).2]
      rcases registryAt_pending keccak256 hd txs k proposalId hthere with hfin | ⟨hopen, -⟩
      · exact (finalized_stays hfin hka.le).1
      · rw [hexecuted] at hopen
        cases hopen
    · refine .inr fun n han hni => approval_stands happroved (by omega) fun m hkm hmn => ?_
      exact hkeeps m (by omega) (by omega)
  have hnonempty : supporters.Nonempty := Finset.card_pos.mp (hd.threshold_pos.trans_le hquorum)
  obtain ⟨first, hfirst⟩ := hnonempty
  refine ⟨(hspec first hfirst).1, ?_⟩
  by_cases hfin : (registryAt keccak256 d txs a).Finalized
    ((registryAt keccak256 d txs a).proposals proposalId).epoch
  · exact .inl hfin
  · refine .inr fun n han hni => hquorum.trans (Finset.card_le_card fun signer hmem => ?_)
    rw [approvalsInForce, Finset.mem_filter, List.mem_toFinset]
    exact ⟨hsigners signer hmem, ((hspec signer hmem).2.resolve_left hfin) n han hni⟩

/-- A quorum finalizes its epoch. In every run of calls by any senders: when a quorum of signers
have made their approving calls for a proposal and revoke none of them, nothing that the other
signers or anyone else call in between keeps an execution after the delay from leaving the epoch of
the proposal finalized. -/
theorem quorum_finalizes (keccak256 : Bytes → Word) {signers_ : List Address}
    {threshold_ networkId_ timelockDelay_ : ℕ} {d : Deployment}
    (hd : construct signers_ threshold_ networkId_ timelockDelay_ = .ok d)
    (txs : List RegistryTx) (htime : ∀ tx ∈ txs, 0 < tx.timestamp + timelockDelay_)
    (proposalId : Word) (supporters : Finset Address)
    (hsigners : ∀ signer ∈ supporters, signer ∈ signers_) (hquorum : threshold_ ≤ supporters.card)
    (a i : ℕ) (hai : a ≤ i) (hi : i < txs.length) (hcall : txs[i].call = .execute proposalId)
    (hword : txs[i].timestamp < 2 ^ 256)
    (hdelay : ∀ k (hk : k < txs.length), k < a →
      txs[k].timestamp + timelockDelay_ ≤ txs[i].timestamp)
    (happroves : ∀ signer ∈ supporters, ∃ k, k < a ∧
      ApprovesAt keccak256 d txs k proposalId signer ∧
      ∀ m, k < m → m < i → ¬RevokesAt txs m proposalId signer)
    (hsum : ((registryAt keccak256 d txs i).proposals proposalId).stakes.sum < 2 ^ 256) :
    (registryAt keccak256 d txs (i + 1)).Finalized
      ((registryAt keccak256 d txs i).proposals proposalId).epoch := by
  obtain ⟨hwf, rfl, rfl, rfl⟩ := construct_spec hd
  obtain ⟨hexists, houtcome⟩ := quorum_stands hwf hsigners hquorum
    (fun k hk hka => (hdelay k hk hka).trans_lt hword) happroves
  obtain ⟨hthere, hepoch⟩ := proposal_stays hexists hai
  by_cases hfin : (registryAt keccak256 d txs i).Finalized
      ((registryAt keccak256 d txs i).proposals proposalId).epoch
  · exact (finalized_stays hfin (Nat.le_succ i)).1
  have hstands := houtcome.resolve_left fun h => hfin (hepoch ▸ (finalized_stays h hai).1)
  obtain ⟨hopen, hnext⟩ :=
    (registryAt_pending keccak256 hwf txs i proposalId hthere).resolve_left hfin
  have hnow := hstands i hai le_rfl
  obtain ⟨j, hj, hsince, hready⟩ := quorumSince_of_quorum hwf htime hi.le hnow
  -- the quorum has stood from `a` on, so the call that completed it is older than the delay
  have hja : j < a := by
    by_contra hle
    exact hsince.before (hstands j (not_lt.mp hle) hsince.lt.le)
  obtain ⟨r', hstep⟩ := exists_of_isOk ((executeEpochTransition_ok_iff
    (registryAt_timely keccak256 hwf htime i proposalId)).mpr ⟨hthere, hopen,
      (readyAt_ne_zero_iff keccak256 hwf htime i proposalId).mpr hnow, hready ▸ hdelay j hj hja,
      hnext, hsum⟩)
  have hexecutes : ExecutesAt keccak256 d txs i proposalId := by
    have hstep' : registryStep keccak256 d (registryAt keccak256 d txs i) txs[i] = .ok r' := by
      rw [registryStep, hcall]
      exact hstep
    have hsucc : registryAt keccak256 d txs (i + 1) = r' :=
      (stateAt_succ _ _ txs i hi).trans (perform_of_ok hstep')
    exact ⟨hi, hcall, hsucc ▸ hstep'⟩
  exact (hexecutes.finalized_iff _).mpr (.inr rfl)

/-- In the genesis run both signers support the proposal, so its execution finalizes epoch `0`. -/
theorem quorum_finalizes_genesis : ∃ d, construct [1, 2] 2 1 10 = .ok d ∧
    (registryAt (fun _ => 9) d genesisRun 3).Finalized
      ((registryAt (fun _ => 9) d genesisRun 2).proposals 9).epoch := by
  have hd : construct [1, 2] 2 1 10 = .ok ⟨1, 2, 10, [1, 2],
      Function.update (Function.update (fun _ => false) 1 true) 2 true⟩ := rfl
  have hnever (m : ℕ) (signer : Address) : ¬RevokesAt genesisRun m 9 signer := by
    rintro ⟨hm, -, hrevoke⟩
    have hcalls : ∀ tx ∈ genesisRun, tx.call ≠ .revoke 9 := by decide
    exact hcalls _ (List.getElem_mem hm) hrevoke
  refine ⟨_, hd, quorum_finalizes (fun _ => 9) hd genesisRun (by decide) 9 {1, 2} (by simp)
    (by decide +kernel) 2 2 le_rfl (by decide) rfl (by decide +kernel) ?_ ?_ (by decide +kernel)⟩
  · exact fun k hk _ => (show ∀ k (hk : k < genesisRun.length), k < 2 →
      genesisRun[k].timestamp + 10 ≤ genesisRun[2].timestamp by decide) k hk ‹_›
  · intro signer hsigner
    rcases Finset.mem_insert.mp hsigner with rfl | hsecond
    · exact ⟨0, by decide, ⟨by decide, rfl, .inl ⟨0, [3], [100], by decide, rfl, rfl, rfl⟩⟩,
        fun m _ _ => hnever m _⟩
    · obtain rfl := Finset.mem_singleton.mp hsecond
      exact ⟨1, by decide, ⟨by decide, rfl, .inr ⟨by decide +kernel, rfl⟩⟩, fun m _ _ => hnever m _⟩

end SuwappuRevm.Contracts
