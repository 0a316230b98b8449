import SuwappuRevm.Contracts.RegistryCalls

/-!
# Multisig and timelock of the registry

The approval counter of every proposal is the number of signers whose approval is in force, and
a non-zero `readyAt` always stands on a quorum. A call either keeps a proposal's `readyAt`,
clears it, or sets it to its own timestamp plus the delay. An execution therefore looks back to
one call, at least `timelockDelay` earlier, since which the quorum has never been interrupted.

Positions of a run are its moments: two calls of one block are two moments. No ordering of the
timestamps is needed.
-/

namespace SuwappuRevm.Contracts

open Foundations

/-- The signers that the storage of `p` has as approving. -/
def approvers (d : Deployment) (p : Proposal) : Finset Address :=
  d.signers.toFinset.filter fun a => p.approved a = true

/-- A new approval adds its signer. -/
theorem approvers_approve {d : Deployment} {p p' : Proposal} {a : Address}
    (ha : a ∈ d.signers) (hnew : p.approved a = false)
    (h : p'.approved = Function.update p.approved a true) :
    (approvers d p').card = (approvers d p).card + 1 := by
  have hinsert : approvers d p' = insert a (approvers d p) := by
    ext b
    rw [approvers, approvers, h]
    by_cases hb : b = a
    · simp [hb, ha]
    · simp [hb, Function.update_of_ne]
  rw [hinsert, Finset.card_insert_of_notMem]
  simp [approvers, hnew]

/-- A revoked approval removes its signer. -/
theorem approvers_revoke {d : Deployment} {p p' : Proposal} {a : Address}
    (ha : a ∈ d.signers) (hstanding : p.approved a = true)
    (h : p'.approved = Function.update p.approved a false) :
    (approvers d p').card = (approvers d p).card - 1 := by
  have herase : approvers d p' = (approvers d p).erase a := by
    ext b
    rw [approvers, approvers, h]
    by_cases hb : b = a
    · simp [hb]
    · simp [hb, Function.update_of_ne]
  rw [herase, Finset.card_erase_of_mem]
  simp [approvers, ha, hstanding]

/-- A proposal's counter and timelock agree with the approvals in force. -/
structure Proposal.Sound (d : Deployment) (p : Proposal) : Prop where
  count_eq : p.approvalCount = (approvers d p).card
  quorum_of_ready : p.readyAt ≠ 0 → d.threshold ≤ p.approvalCount

/-- Every proposal is sound and unproposed identifiers are blank. -/
structure Registry.Sound (d : Deployment) (r : Registry) : Prop where
  proposal : ∀ proposalId, (r.proposals proposalId).Sound d
  blank : ∀ proposalId, r.proposalExists proposalId = false →
    r.proposals proposalId = Proposal.blank

/-- Storage right after deployment is sound. -/
theorem initial_sound (d : Deployment) : Registry.initial.Sound d where
  proposal _ := ⟨by simp [Registry.initial, Proposal.blank, approvers],
    fun h => absurd rfl h⟩
  blank _ _ := rfl

/-- `_approve` keeps a proposal sound. -/
theorem approveInternal_sound {d : Deployment} {blockTimestamp : ℕ} {msgSender : Address}
    {p p' : Proposal} (hp : p.Sound d) (ha : msgSender ∈ d.signers)
    (hnew : p.approved msgSender = false)
    (h : approveInternal d blockTimestamp msgSender p = .ok p') : p'.Sound d := by
  obtain ⟨readyAt, rfl, hready⟩ := approveInternal_spec h
  have hcard : (approvers d { p with
      approved := Function.update p.approved msgSender true
      approvalCount := p.approvalCount + 1
      readyAt }).card = (approvers d p).card + 1 :=
    approvers_approve ha hnew rfl
  refine ⟨by rw [hcard, ← hp.count_eq], fun hne => ?_⟩
  rcases hready with hkept | ⟨hreached, -⟩
  · exact (hp.quorum_of_ready (hkept ▸ hne)).trans (Nat.le_succ _)
  · exact le_of_eq hreached.symm

/-- Rewriting one existing proposal soundly keeps the registry sound. -/
theorem sound_update {d : Deployment} {r r' : Registry} {proposalId : Word} {p' : Proposal}
    (hr : r.Sound d) (hp : p'.Sound d) (hexists : r'.proposalExists proposalId = true)
    (hsame : ∀ other, other ≠ proposalId → r'.proposalExists other = r.proposalExists other)
    (h : r'.proposals = Function.update r.proposals proposalId p') : r'.Sound d := by
  constructor
  · intro other
    rw [h]
    by_cases ho : other = proposalId
    · rw [ho, Function.update_self]
      exact hp
    · rw [Function.update_of_ne ho]
      exact hr.proposal other
  · intro other hfresh
    have ho : other ≠ proposalId := by
      rintro rfl
      rw [hexists] at hfresh
      cases hfresh
    rw [h, Function.update_of_ne ho]
    exact hr.blank other (hsame other ho ▸ hfresh)

variable {keccak256 : Bytes → Word} {d : Deployment}

/-- Step lemma: every successful transaction keeps the registry sound. -/
theorem registryStep_sound (hd : d.WellFormed) {r r' : Registry} {tx : RegistryTx}
    (hr : r.Sound d) (h : registryStep keccak256 d r tx = .ok r') : r'.Sound d := by
  rcases registryStep_cases h with ⟨epoch, pkHashes, stakes, id, -, h⟩ | ⟨id, -, h⟩ |
    ⟨id, -, h⟩ | ⟨id, -, h⟩
  · obtain ⟨hsigner, -, -, hfresh, p', happrove, rfl⟩ := proposeEpochTransition_spec h
    have hblank : ({ r.proposals id with epoch, pkHashes, stakes } : Proposal).Sound d := by
      rw [hr.blank id hfresh]
      exact ⟨by simp [Proposal.blank, approvers], fun hne => absurd rfl hne⟩
    have hp' := approveInternal_sound hblank ((hd.isSigner_iff _).mp hsigner)
      (by rw [hr.blank id hfresh]; rfl) happrove
    exact sound_update hr hp' (Function.update_self ..)
      (fun other ho => Function.update_of_ne ho ..) rfl
  · obtain ⟨hsigner, hexists, -, hnew, p', happrove, rfl⟩ := approveEpochTransition_spec h
    have hp' := approveInternal_sound (hr.proposal id) ((hd.isSigner_iff _).mp hsigner) hnew
      happrove
    exact sound_update hr hp' hexists (fun _ _ => rfl) rfl
  · obtain ⟨hsigner, hexists, -, hstanding, -, p', readyAt, rfl, hp, hready⟩ :=
      revokeApproval_spec h
    have hcard : (approvers d p').card = (approvers d (r.proposals id)).card - 1 :=
      approvers_revoke ((hd.isSigner_iff _).mp hsigner) hstanding (by rw [hp])
    have hp' : p'.Sound d := by
      refine ⟨by rw [hcard, ← (hr.proposal id).count_eq, hp], fun hne => ?_⟩
      rcases hready with hreset | ⟨-, hquorum⟩
      · exact absurd hreset (by rwa [hp] at hne)
      · rwa [hp]
    exact sound_update hr hp' hexists (fun _ _ => rfl) rfl
  · obtain ⟨hexists, -, -, -, -, rfl⟩ := executeEpochTransition_spec h
    have hp : ({ r.proposals id with executed := true } : Proposal).Sound d :=
      ⟨(hr.proposal id).count_eq, (hr.proposal id).quorum_of_ready⟩
    exact sound_update hr hp hexists (fun _ _ => rfl) rfl

/-- A transaction keeps a proposal's `readyAt`, clears it, or sets it to its own timestamp plus
the delay. -/
theorem registryStep_readyAt {r r' : Registry} {tx : RegistryTx} (hr : r.Sound d)
    (h : registryStep keccak256 d r tx = .ok r') (proposalId : Word) :
    (r'.proposals proposalId).readyAt = 0 ∨
      (r'.proposals proposalId).readyAt = (r.proposals proposalId).readyAt ∨
      (r'.proposals proposalId).readyAt = tx.timestamp + d.timelockDelay := by
  have hother {id : Word} {p' : Proposal} (hproposals : r'.proposals =
      Function.update r.proposals id p') (hne : proposalId ≠ id) :
      (r'.proposals proposalId).readyAt = (r.proposals proposalId).readyAt := by
    rw [hproposals, Function.update_of_ne hne]
  rcases registryStep_cases h with ⟨epoch, pkHashes, stakes, id, -, h⟩ | ⟨id, -, h⟩ |
    ⟨id, -, h⟩ | ⟨id, -, h⟩
  · obtain ⟨-, -, -, hfresh, p', happrove, rfl⟩ := proposeEpochTransition_spec h
    by_cases hid : proposalId = id
    · subst hid
      obtain ⟨readyAt, rfl, hready⟩ := approveInternal_spec happrove
      simp only [Function.update_self]
      rcases hready with hkept | ⟨-, hset⟩
      · left
        rw [hkept, hr.blank _ hfresh]
        rfl
      · exact Or.inr (Or.inr hset)
    · exact Or.inr (Or.inl (hother rfl hid))
  · obtain ⟨-, -, -, -, p', happrove, rfl⟩ := approveEpochTransition_spec h
    by_cases hid : proposalId = id
    · subst hid
      obtain ⟨readyAt, rfl, hready⟩ := approveInternal_spec happrove
      simp only [Function.update_self]
      rcases hready with hkept | ⟨-, hset⟩
      · exact Or.inr (Or.inl hkept)
      · exact Or.inr (Or.inr hset)
    · exact Or.inr (Or.inl (hother rfl hid))
  · obtain ⟨-, -, -, -, -, p', readyAt, rfl, rfl, hready⟩ := revokeApproval_spec h
    by_cases hid : proposalId = id
    · subst hid
      simp only [Function.update_self]
      rcases hready with hreset | ⟨hkept, -⟩
      · exact Or.inl hreset
      · exact Or.inr (Or.inl hkept)
    · exact Or.inr (Or.inl (hother rfl hid))
  · obtain ⟨-, -, -, -, -, rfl⟩ := executeEpochTransition_spec h
    right
    left
    by_cases hid : proposalId = id
    · subst hid
      simp only [Function.update_self]
    · exact hother rfl hid

/-- The registry after the first `n` transactions of a run from deployment. -/
def registryAt (keccak256 : Bytes → Word) (d : Deployment) (txs : List RegistryTx) (n : ℕ) :
    Registry :=
  stateAt (registryStep keccak256 d) Registry.initial txs n

/-- Run lemma: every position of a run is sound. -/
theorem registryAt_sound (keccak256 : Bytes → Word) (hd : d.WellFormed) (txs : List RegistryTx)
    (n : ℕ) :
    (registryAt keccak256 d txs n).Sound d :=
  stateAt_induction (fun r => r.Sound d) 0 (by rw [stateAt_zero]; exact initial_sound d)
    (fun _ _ _ _ hr h => registryStep_sound hd hr h) n (Nat.zero_le n)

/-- A non-zero `readyAt` was set by one call of the run, and the quorum has stood ever since. -/
theorem quorum_stands_since_ready (hd : d.WellFormed) (txs : List RegistryTx) (n : ℕ)
    (hn : n ≤ txs.length) (proposalId : Word)
    (hready : ((registryAt keccak256 d txs n).proposals proposalId).readyAt ≠ 0) :
    ∃ j, ∃ hj : j < txs.length, j < n ∧
      txs[j].timestamp + d.timelockDelay =
        ((registryAt keccak256 d txs n).proposals proposalId).readyAt ∧
      ∀ m, j < m → m ≤ n →
        d.threshold ≤ (approvers d ((registryAt keccak256 d txs m).proposals
          proposalId)).card := by
  induction n with
  | zero => exact absurd (by simp [registryAt, Registry.initial, Proposal.blank]) hready
  | succ n ih =>
    have hn' : n < txs.length := by omega
    have hnow : d.threshold ≤ (approvers d ((registryAt keccak256 d txs (n + 1)).proposals
        proposalId)).card := by
      have hsound := (registryAt_sound keccak256 hd txs (n + 1)).proposal proposalId
      exact hsound.count_eq ▸ hsound.quorum_of_ready hready
    -- the quorum of the last position joins the ones that already stood
    have hextend {j : ℕ} (hstood : ∀ m, j < m → m ≤ n → d.threshold ≤ (approvers d
        ((registryAt keccak256 d txs m).proposals proposalId)).card) :
        ∀ m, j < m → m ≤ n + 1 → d.threshold ≤ (approvers d
          ((registryAt keccak256 d txs m).proposals proposalId)).card := by
      intro m hjm hmn
      rcases Nat.lt_or_eq_of_le hmn with hlt | rfl
      · exact hstood m hjm (by omega)
      · exact hnow
    have hkept (heq : ((registryAt keccak256 d txs (n + 1)).proposals proposalId).readyAt =
        ((registryAt keccak256 d txs n).proposals proposalId).readyAt) :
        ∃ j, ∃ hj : j < txs.length, j < n + 1 ∧
          txs[j].timestamp + d.timelockDelay =
            ((registryAt keccak256 d txs (n + 1)).proposals proposalId).readyAt ∧
          ∀ m, j < m → m ≤ n + 1 → d.threshold ≤ (approvers d
            ((registryAt keccak256 d txs m).proposals proposalId)).card := by
      obtain ⟨j, hj, hjn, htime, hstood⟩ := ih (by omega) (heq ▸ hready)
      exact ⟨j, hj, by omega, by rw [htime, heq], hextend hstood⟩
    have hstep := stateAt_succ (registryStep keccak256 d) Registry.initial txs n hn'
    rcases perform_cases (registryStep keccak256 d) (registryAt keccak256 d txs n) txs[n]
      with hok | hstay
    · have hat : registryStep keccak256 d (registryAt keccak256 d txs n) txs[n] =
          .ok (registryAt keccak256 d txs (n + 1)) := by
        rw [hok]
        exact congrArg Except.ok hstep.symm
      rcases registryStep_readyAt (registryAt_sound keccak256 hd txs n) hat proposalId with
        h0 | hsame | hset
      · exact absurd h0 hready
      · exact hkept hsame
      · exact ⟨n, hn', Nat.lt_succ_self n, hset.symm, hextend (fun m hm hmn => by omega)⟩
    · refine hkept ?_
      have hat : registryAt keccak256 d txs (n + 1) = registryAt keccak256 d txs n :=
        hstep.trans hstay
      rw [hat]

section Approvals

variable (keccak256 : Bytes → Word) (d : Deployment) (txs : List RegistryTx)

/-- The proposal that a call approves for its sender when it succeeds. -/
def RegistryCall.granted : RegistryCall → Option Word
  | .propose epoch pkHashes stakes => some (keccak256 (abiEncodeProposal epoch pkHashes stakes))
  | .approve proposalId => some proposalId
  | .revoke _ => none
  | .execute _ => none

/-- A signer approves a proposal by a call of a run that succeeds. -/
def GrantsAt (proposalId : Word) (signer : Address) (k : ℕ) : Prop :=
  ∃ hk : k < txs.length, txs[k].sender = signer ∧ txs[k].call.granted keccak256 = some proposalId ∧
    (registryStep keccak256 d (registryAt keccak256 d txs k) txs[k]).isOk = true

/-- A signer revokes its approval of a proposal by a call of a run that succeeds. -/
def WithdrawsAt (proposalId : Word) (signer : Address) (k : ℕ) : Prop :=
  ∃ hk : k < txs.length, txs[k].sender = signer ∧ txs[k].call = .revoke proposalId ∧
    (registryStep keccak256 d (registryAt keccak256 d txs k) txs[k]).isOk = true

/-- The run decides who approves when. -/
instance (proposalId : Word) (signer : Address) :
    DecidablePred (GrantsAt keccak256 d txs proposalId signer) := fun k =>
  inferInstanceAs (Decidable (∃ hk : k < txs.length, txs[k].sender = signer ∧
    txs[k].call.granted keccak256 = some proposalId ∧
    (registryStep keccak256 d (registryAt keccak256 d txs k) txs[k]).isOk = true))

/-- The run decides who revokes when. -/
instance (proposalId : Word) (signer : Address) :
    DecidablePred (WithdrawsAt keccak256 d txs proposalId signer) := fun k =>
  inferInstanceAs (Decidable (∃ hk : k < txs.length, txs[k].sender = signer ∧
    txs[k].call = .revoke proposalId ∧
    (registryStep keccak256 d (registryAt keccak256 d txs k) txs[k]).isOk = true))

/-- After `n` calls a signer's approval of a proposal is in force: it has approved it, and has not
revoked that since. -/
def InForce (n : ℕ) (proposalId : Word) (signer : Address) : Prop :=
  OnSince (GrantsAt keccak256 d txs proposalId signer)
    (WithdrawsAt keccak256 d txs proposalId signer) n

/-- The run decides which approvals are in force. -/
instance (n : ℕ) (proposalId : Word) : DecidablePred (InForce keccak256 d txs n proposalId) :=
  fun signer => inferInstanceAs (Decidable (OnSince (GrantsAt keccak256 d txs proposalId signer)
    (WithdrawsAt keccak256 d txs proposalId signer) n))

/-- The signers whose approval of a proposal is in force after `n` calls. -/
def approvalsInForce (n : ℕ) (proposalId : Word) : Finset Address :=
  d.signers.toFinset.filter (InForce keccak256 d txs n proposalId)

end Approvals

/-- What a call does to an approval: its sender approves, or revokes, or it stays as it was. -/
theorem registryStep_approved {r r' : Registry} {tx : RegistryTx}
    (h : registryStep keccak256 d r tx = .ok r') (proposalId : Word) (signer : Address) :
    (r'.proposals proposalId).approved signer = true ↔
      (tx.sender = signer ∧ tx.call.granted keccak256 = some proposalId) ∨
        (r.proposals proposalId).approved signer = true ∧
          ¬(tx.sender = signer ∧ tx.call = .revoke proposalId) := by
  -- an approval of the proposal with the identifier `id`
  have hgrant {id : Word} {p p' : Proposal} (hcall : tx.call.granted keccak256 = some id)
      (happrove : approveInternal d tx.timestamp tx.sender p = .ok p')
      (hp : p.approved = (r.proposals id).approved)
      (hproposals : r'.proposals = Function.update r.proposals id p') :
      (r'.proposals proposalId).approved signer = true ↔
        (tx.sender = signer ∧ tx.call.granted keccak256 = some proposalId) ∨
          (r.proposals proposalId).approved signer = true ∧
            ¬(tx.sender = signer ∧ tx.call = .revoke proposalId) := by
    obtain ⟨readyAt, rfl, -⟩ := approveInternal_spec happrove
    have hrevoke : tx.call ≠ .revoke proposalId := by
      intro hrevoke
      rw [hrevoke] at hcall
      cases hcall
    rw [hproposals, hcall]
    by_cases hid : proposalId = id
    · subst hid
      by_cases hsigner : signer = tx.sender
      · simp [hsigner]
      · simp [hsigner, Ne.symm hsigner, hrevoke, hp]
    · simp [Function.update_of_ne hid, Ne.symm hid, hrevoke]
  rcases registryStep_cases h with ⟨epoch, pkHashes, stakes, id, hcall, h⟩ | ⟨id, hcall, h⟩ |
    ⟨id, hcall, h⟩ | ⟨id, hcall, h⟩
  · have hid := proposeEpochTransition_id h
    obtain ⟨-, -, -, -, p', happrove, rfl⟩ := proposeEpochTransition_spec h
    exact hgrant (by rw [hcall, hid]; rfl) happrove rfl rfl
  · obtain ⟨-, -, -, -, p', happrove, rfl⟩ := approveEpochTransition_spec h
    exact hgrant (by rw [hcall]; rfl) happrove rfl rfl
  · obtain ⟨-, -, -, -, -, p', readyAt, rfl, rfl, -⟩ := revokeApproval_spec h
    rw [hcall]
    by_cases hid : proposalId = id
    · subst hid
      by_cases hsigner : signer = tx.sender
      · simp [hsigner, RegistryCall.granted]
      · simp [hsigner, Ne.symm hsigner, RegistryCall.granted]
    · simp [Function.update_of_ne hid, Ne.symm hid, RegistryCall.granted]
  · obtain ⟨-, -, -, -, -, rfl⟩ := executeEpochTransition_spec h
    rw [hcall]
    by_cases hid : proposalId = id
    · subst hid
      simp [RegistryCall.granted]
    · simp [Function.update_of_ne hid, RegistryCall.granted]

/-- A call between two positions either fails, and nothing moves, or is a step. -/
theorem registryAt_moves (keccak256 : Bytes → Word) (d : Deployment) {txs : List RegistryTx} {n : ℕ}
    (hn : n < txs.length) :
    registryStep keccak256 d (registryAt keccak256 d txs n) txs[n] =
        .ok (registryAt keccak256 d txs (n + 1)) ∨
      (registryStep keccak256 d (registryAt keccak256 d txs n) txs[n]).isOk = false ∧
        registryAt keccak256 d txs (n + 1) = registryAt keccak256 d txs n := by
  have hsucc : registryAt keccak256 d txs (n + 1) = perform (registryStep keccak256 d)
    (registryAt keccak256 d txs n) txs[n] := stateAt_succ _ _ txs n hn
  rw [hsucc]
  rcases hresult : registryStep keccak256 d (registryAt keccak256 d txs n) txs[n] with e | r'
  · exact .inr ⟨rfl, perform_of_error hresult⟩
  · exact .inl (by rw [perform_of_ok hresult])

/-- Run lemma: an approval is in force exactly when the storage has it. -/
theorem inForce_iff (keccak256 : Bytes → Word) (d : Deployment) (txs : List RegistryTx) (n : ℕ)
    (proposalId : Word) (signer : Address) : InForce keccak256 d txs n proposalId signer ↔
      ((registryAt keccak256 d txs n).proposals proposalId).approved signer = true := by
  induction n with
  | zero =>
    rw [registryAt, stateAt_zero]
    exact iff_of_false not_onSince_zero Bool.false_ne_true
  | succ n ih =>
    rw [InForce] at ih ⊢
    rw [onSince_succ, ih]
    by_cases hn : n < txs.length
    · rcases registryAt_moves keccak256 d hn with hstep | ⟨hfails, hstay⟩
      · rw [registryStep_approved hstep proposalId signer]
        simp [GrantsAt, WithdrawsAt, hn, hstep, Except.isOk, Except.toBool]
      · simp [GrantsAt, WithdrawsAt, hn, hfails, hstay]
    · have hend := stateAt_of_length_le (registryStep keccak256 d) Registry.initial txs
      have hsame : registryAt keccak256 d txs (n + 1) = registryAt keccak256 d txs n :=
        (hend (n + 1) (by omega)).trans (hend n (by omega)).symm
      simp [GrantsAt, WithdrawsAt, hn, hsame]

/-- The signers whose approval is in force are those that the storage has as approving. -/
theorem approvalsInForce_eq (keccak256 : Bytes → Word) (d : Deployment) (txs : List RegistryTx)
    (n : ℕ) (proposalId : Word) : approvalsInForce keccak256 d txs n proposalId =
      approvers d ((registryAt keccak256 d txs n).proposals proposalId) :=
  Finset.filter_congr fun signer _ => inForce_iff keccak256 d txs n proposalId signer

/-- Multisig and timelock. For every deployment the constructor accepts and every run of calls
by any senders: at every position each proposal's counter is the number of distinct signers
whose approval is in force, and a successful execution at position `i` has a call at position
`j`, at least the delay earlier, such that at every position after `j` up to the execution at
least `threshold_` signers' approvals of that proposal were in force. -/
theorem registry_multisig_timelock (keccak256 : Bytes → Word) {signers_ : List Address}
    {threshold_ networkId_ timelockDelay_ : ℕ} {d : Deployment}
    (hd : construct signers_ threshold_ networkId_ timelockDelay_ = .ok d)
    (txs : List RegistryTx) :
    (∀ n proposalId, ((registryAt keccak256 d txs n).proposals proposalId).approvalCount =
      (signers_.toFinset.filter (InForce keccak256 d txs n proposalId)).card) ∧
    ∀ (i : ℕ) (hi : i < txs.length) (proposalId : Word), txs[i].call = .execute proposalId →
      (registryStep keccak256 d (registryAt keccak256 d txs i) txs[i]).isOk = true →
      ∃ j, ∃ hj : j < i, txs[j].timestamp + timelockDelay_ ≤ txs[i].timestamp ∧
        ∀ m, j < m → m ≤ i →
          threshold_ ≤ (signers_.toFinset.filter (InForce keccak256 d txs m proposalId)).card := by
  obtain ⟨hwf, rfl, rfl, rfl⟩ := construct_spec hd
  have hforce (n : ℕ) (proposalId : Word) :
      d.signers.toFinset.filter (InForce keccak256 d txs n proposalId) =
        approvers d ((registryAt keccak256 d txs n).proposals proposalId) :=
    approvalsInForce_eq keccak256 d txs n proposalId
  simp only [hforce]
  refine ⟨fun n proposalId =>
    ((registryAt_sound keccak256 hwf txs n).proposal proposalId).count_eq, ?_⟩
  intro i hi proposalId hcall hok
  obtain ⟨r', hstep⟩ := exists_of_isOk hok
  rw [registryStep, hcall] at hstep
  obtain ⟨-, -, hready, htime, -, -⟩ := executeEpochTransition_spec hstep
  obtain ⟨j, hj, hji, hset, hstood⟩ :=
    quorum_stands_since_ready hwf txs i (Nat.le_of_lt hi) proposalId hready
  exact ⟨j, hji, hset ▸ htime, hstood⟩

/-- Two signers propose and approve genesis at times 5 and 7 and anyone executes it at 17. -/
def genesisRun : List RegistryTx :=
  [⟨5, 1, .propose 0 [3] [100]⟩, ⟨7, 2, .approve 9⟩, ⟨17, 4, .execute 9⟩]

/-- The first signer revokes at time 9, in vain again at 10, and approves again at 12. The execution
at 17 comes too early, the one at 22 does not. -/
def revokingRun : List RegistryTx :=
  [⟨5, 1, .propose 0 [3] [100]⟩, ⟨7, 2, .approve 9⟩, ⟨9, 1, .revoke 9⟩, ⟨10, 1, .revoke 9⟩,
    ⟨12, 1, .approve 9⟩, ⟨17, 4, .execute 9⟩, ⟨22, 4, .execute 9⟩]

/-- What the constructor makes of two signers, a threshold of two and a delay of ten. -/
def twoSigners : Deployment :=
  ⟨1, 2, 10, [1, 2], Function.update (Function.update (fun _ => false) 1 true) 2 true⟩

/-- The first signer's approval is not in force between its revocation and its second approval, and
the execution that succeeds looks back to the second approval at least. -/
theorem revokingRun_timelocked :
    ¬InForce (fun _ => 9) twoSigners revokingRun 4 9 1 ∧
      (registryStep (fun _ => 9) twoSigners (registryAt (fun _ => 9) twoSigners revokingRun 5)
        ⟨17, 4, .execute 9⟩).isOk = false ∧
      ∃ j, j < 6 ∧ 4 ≤ j ∧ ∀ m, j < m → m ≤ 6 →
        2 ≤ ([1, 2].toFinset.filter (InForce (fun _ => 9) twoSigners revokingRun m 9)).card := by
  have hd : construct [1, 2] 2 1 10 = .ok twoSigners := rfl
  have hok : (registryStep (fun _ => 9) twoSigners (registryAt (fun _ => 9) twoSigners revokingRun
      6) revokingRun[6]).isOk = true := by decide +kernel
  obtain ⟨hcount, hexecution⟩ := registry_multisig_timelock (fun _ => 9) hd revokingRun
  obtain ⟨j, hj, -, hstood⟩ := hexecution 6 (by decide) 9 rfl hok
  refine ⟨by decide +kernel, by decide +kernel, j, hj, ?_, hstood⟩
  -- at position 4 one approval is in force
  by_contra hlt
  have hfour := hcount 4 9 ▸ hstood 4 (by omega) (by decide)
  revert hfour
  decide +kernel

end SuwappuRevm.Contracts
