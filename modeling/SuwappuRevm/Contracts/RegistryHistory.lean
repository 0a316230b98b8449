import SuwappuRevm.Contracts.RegistryEpochs

/-!
# The epoch history of the registry

Many proposals for one epoch can be pending, approved or past their delay. The sequence check at
execution lets exactly one of them finalize the epoch, and what it has written stays. The executed
lists are those of the one call that proposed the identifier, so they are what the signers approved.
-/

namespace SuwappuRevm.Contracts

open Foundations

variable (keccak256 : Bytes → Word) (d : Deployment) (txs : List RegistryTx)

/-- A call of a run executes a proposal. -/
def ExecutesAt (i : ℕ) (proposalId : Word) : Prop :=
  ∃ hi : i < txs.length, txs[i].call = .execute proposalId ∧
    registryStep keccak256 d (registryAt keccak256 d txs i) txs[i] =
      .ok (registryAt keccak256 d txs (i + 1))

/-- A call of a run finalizes an epoch: it executes a proposal for it. -/
def FinalizesAt (i epoch : ℕ) : Prop :=
  ∃ proposalId, ExecutesAt keccak256 d txs i proposalId ∧
    ((registryAt keccak256 d txs i).proposals proposalId).epoch = epoch

/-- A call of a run proposes lists for an epoch under an identifier that was free. -/
def ProposesAt (j : ℕ) (proposalId : Word) (epoch : ℕ) (pkHashes : List Word)
    (stakes : List ℕ) : Prop :=
  ∃ hj : j < txs.length, txs[j].call = .propose epoch pkHashes stakes ∧
    (registryAt keccak256 d txs j).proposalExists proposalId = false ∧
    proposeEpochTransition keccak256 d (registryAt keccak256 d txs j) txs[j].timestamp
      txs[j].sender epoch pkHashes stakes = .ok (proposalId, registryAt keccak256 d txs (j + 1))

variable {keccak256 d txs}

/-- What an execution has done. -/
theorem ExecutesAt.spec {i : ℕ} {proposalId : Word} (h : ExecutesAt keccak256 d txs i proposalId) :
    let r := registryAt keccak256 d txs i
    let p := r.proposals proposalId
    r.proposalExists proposalId = true ∧ p.readyAt ≠ 0 ∧ r.expectedEpoch = .ok p.epoch ∧
      registryAt keccak256 d txs (i + 1) = { r with
        stakeByEpoch := Function.update r.stakeByEpoch p.epoch
          (writeEntries (r.stakeByEpoch p.epoch) (p.pkHashes.zip p.stakes))
        totalStakeByEpoch := Function.update r.totalStakeByEpoch p.epoch
          ((p.pkHashes.zip p.stakes).map Prod.snd).sum
        currentEpoch := p.epoch
        genesisSet := true
        proposals := Function.update r.proposals proposalId { p with executed := true } } := by
  obtain ⟨hi, hcall, hstep⟩ := h
  rw [registryStep, hcall] at hstep
  obtain ⟨hexists, -, hready, -, hexpected, hresult⟩ := executeEpochTransition_spec hstep
  exact ⟨hexists, hready, hexpected, hresult⟩

/-- A call that does not execute leaves the epochs alone. -/
theorem registryAt_succ (n : ℕ) : (∃ proposalId, ExecutesAt keccak256 d txs n proposalId) ∨
    (∀ proposalId, ¬ExecutesAt keccak256 d txs n proposalId) ∧
      ∀ epoch, (registryAt keccak256 d txs (n + 1)).Finalized epoch ↔
        (registryAt keccak256 d txs n).Finalized epoch := by
  by_cases hexecutes : ∃ proposalId, ExecutesAt keccak256 d txs n proposalId
  · exact .inl hexecutes
  · refine .inr ⟨fun proposalId h => hexecutes ⟨proposalId, h⟩, ?_⟩
    by_cases hn : n < txs.length
    · have hsucc : registryAt keccak256 d txs (n + 1) = perform (registryStep keccak256 d)
        (registryAt keccak256 d txs n) txs[n] := stateAt_succ _ _ txs n hn
      rcases hresult : registryStep keccak256 d (registryAt keccak256 d txs n) txs[n] with e | r'
      · rw [perform_of_error hresult] at hsucc
        rw [hsucc]
        exact fun _ => Iff.rfl
      · rw [perform_of_ok hresult] at hsucc
        rcases registryStep_cases hresult with ⟨_, _, _, id, -, h⟩ | ⟨id, -, h⟩ | ⟨id, -, h⟩ |
          ⟨id, hcall, h⟩
        · obtain ⟨-, -, -, -, p', -, rfl⟩ := proposeEpochTransition_spec h
          rw [hsucc]
          exact fun _ => Iff.rfl
        · obtain ⟨-, -, -, -, p', -, rfl⟩ := approveEpochTransition_spec h
          rw [hsucc]
          exact fun _ => Iff.rfl
        · obtain ⟨-, -, -, -, -, p', readyAt, rfl, -, -⟩ := revokeApproval_spec h
          rw [hsucc]
          exact fun _ => Iff.rfl
        · exact absurd ⟨id, hn, hcall, by rw [hresult, hsucc]⟩ hexecutes
    · have hend := stateAt_of_length_le (registryStep keccak256 d) Registry.initial txs
      have hsame : registryAt keccak256 d txs (n + 1) = registryAt keccak256 d txs n :=
        (hend (n + 1) (by omega)).trans (hend n (by omega)).symm
      rw [hsame]
      exact fun _ => Iff.rfl

/-- An execution finalizes the next epoch. -/
theorem ExecutesAt.finalized_iff {i : ℕ} {proposalId : Word}
    (h : ExecutesAt keccak256 d txs i proposalId) (epoch : ℕ) :
    (registryAt keccak256 d txs (i + 1)).Finalized epoch ↔
      (registryAt keccak256 d txs i).Finalized epoch ∨
        ((registryAt keccak256 d txs i).proposals proposalId).epoch = epoch := by
  obtain ⟨-, -, hexpected, hresult⟩ := h.spec
  rw [hresult]
  unfold Registry.Finalized
  dsimp only
  rcases expectedEpoch_spec hexpected with ⟨hunset, hzero⟩ | ⟨hset, hnext⟩
  · rw [hunset, hzero]
    simp [eq_comm]
  · rw [hset, hnext]
    simp only [true_and]
    omega

/-- The finalized epochs are those that some call so far has finalized. -/
theorem finalized_iff_finalizesAt (n epoch : ℕ) :
    (registryAt keccak256 d txs n).Finalized epoch ↔
      ∃ i, i < n ∧ FinalizesAt keccak256 d txs i epoch := by
  induction n with
  | zero =>
    have hstart : registryAt keccak256 d txs 0 = .initial := stateAt_zero ..
    rw [hstart]
    simp [Registry.Finalized, Registry.initial]
  | succ n ih =>
    have hsplit : (∃ i, i < n + 1 ∧ FinalizesAt keccak256 d txs i epoch) ↔
        (∃ i, i < n ∧ FinalizesAt keccak256 d txs i epoch) ∨
          FinalizesAt keccak256 d txs n epoch := by
      constructor
      · rintro ⟨i, hi, h⟩
        rcases Nat.lt_succ_iff_lt_or_eq.mp hi with hlt | rfl
        · exact .inl ⟨i, hlt, h⟩
        · exact .inr h
      · rintro (⟨i, hi, h⟩ | h)
        · exact ⟨i, hi.trans (Nat.lt_succ_self n), h⟩
        · exact ⟨n, Nat.lt_succ_self n, h⟩
    rw [hsplit, ← ih]
    have hsucc : (∃ proposalId, ExecutesAt keccak256 d txs n proposalId) ∨
        (∀ proposalId, ¬ExecutesAt keccak256 d txs n proposalId) ∧
          ∀ epoch, (registryAt keccak256 d txs (n + 1)).Finalized epoch ↔
            (registryAt keccak256 d txs n).Finalized epoch := registryAt_succ n
    rcases hsucc with ⟨proposalId, hexecutes⟩ | ⟨hnone, hsame⟩
    · rw [hexecutes.finalized_iff epoch]
      refine or_congr_right ⟨fun h => ⟨proposalId, hexecutes, h⟩, ?_⟩
      rintro ⟨other, hother, h⟩
      obtain ⟨_, hcall, _⟩ := hexecutes
      obtain ⟨_, hcall', _⟩ := hother
      rw [hcall] at hcall'
      cases hcall'
      exact h
    · rw [hsame epoch]
      refine ⟨.inl, fun h => h.resolve_right ?_⟩
      rintro ⟨proposalId, hexecutes, -⟩
      exact hnone proposalId hexecutes

/-- A finalized epoch stays finalized with its stakes and total. -/
theorem finalized_stays {n m epoch : ℕ} (hfin : (registryAt keccak256 d txs n).Finalized epoch)
    (hnm : n ≤ m) : (registryAt keccak256 d txs m).Finalized epoch ∧
      (registryAt keccak256 d txs m).stakeByEpoch epoch =
        (registryAt keccak256 d txs n).stakeByEpoch epoch ∧
      (registryAt keccak256 d txs m).totalStakeByEpoch epoch =
        (registryAt keccak256 d txs n).totalStakeByEpoch epoch := by
  refine stateAt_induction (fun r : Registry => r.Finalized epoch ∧
    r.stakeByEpoch epoch = (registryAt keccak256 d txs n).stakeByEpoch epoch ∧
    r.totalStakeByEpoch epoch = (registryAt keccak256 d txs n).totalStakeByEpoch epoch) n
    ⟨hfin, rfl, rfl⟩ (fun k hk r' _ hr hstep => ?_) m hnm
  obtain ⟨hfin', hstake, htotal⟩ := registryStep_finalized hr.1 hstep
  exact ⟨hfin', hstake.trans hr.2.1, htotal.trans hr.2.2⟩

/-- An epoch is finalized once. -/
theorem finalizesAt_unique {i j epoch : ℕ} (hi : FinalizesAt keccak256 d txs i epoch)
    (hj : FinalizesAt keccak256 d txs j epoch) : i = j := by
  have hnever {i j : ℕ} (hi : FinalizesAt keccak256 d txs i epoch)
      (hj : FinalizesAt keccak256 d txs j epoch) : ¬i < j := by
    intro hlt
    have hfin := (finalized_iff_finalizesAt j epoch).mpr ⟨i, hlt, hi⟩
    obtain ⟨proposalId, hexecutes, rfl⟩ := hj
    obtain ⟨-, -, hexpected, -⟩ := hexecutes.spec
    exact expectedEpoch_not_finalized hexpected hfin
  exact le_antisymm (not_lt.mp (hnever hj hi)) (not_lt.mp (hnever hi hj))

/-- A step keeps the lists of a proposal, or proposes them under a free identifier. -/
theorem registryStep_lists {r r' : Registry} {tx : RegistryTx}
    (h : registryStep keccak256 d r tx = .ok r') (proposalId : Word) :
    (r'.proposalExists proposalId = r.proposalExists proposalId ∧
      (r'.proposals proposalId).epoch = (r.proposals proposalId).epoch ∧
      (r'.proposals proposalId).pkHashes = (r.proposals proposalId).pkHashes ∧
      (r'.proposals proposalId).stakes = (r.proposals proposalId).stakes) ∨
    ∃ epoch pkHashes stakes, tx.call = .propose epoch pkHashes stakes ∧
      r.proposalExists proposalId = false ∧
      proposeEpochTransition keccak256 d r tx.timestamp tx.sender epoch pkHashes stakes =
        .ok (proposalId, r') ∧
      (r'.proposals proposalId).epoch = epoch ∧ (r'.proposals proposalId).pkHashes = pkHashes ∧
      (r'.proposals proposalId).stakes = stakes := by
  have hother {id : Word} {p' : Proposal}
      (hproposals : r'.proposals = Function.update r.proposals id p')
      (hexists : r'.proposalExists proposalId = r.proposalExists proposalId)
      (hp : p'.epoch = (r.proposals id).epoch ∧ p'.pkHashes = (r.proposals id).pkHashes ∧
        p'.stakes = (r.proposals id).stakes) :
      r'.proposalExists proposalId = r.proposalExists proposalId ∧
        (r'.proposals proposalId).epoch = (r.proposals proposalId).epoch ∧
        (r'.proposals proposalId).pkHashes = (r.proposals proposalId).pkHashes ∧
        (r'.proposals proposalId).stakes = (r.proposals proposalId).stakes := by
    rw [hproposals]
    by_cases hid : proposalId = id
    · subst hid
      rw [Function.update_self]
      exact ⟨hexists, hp⟩
    · rw [Function.update_of_ne hid]
      exact ⟨hexists, rfl, rfl, rfl⟩
  rcases registryStep_cases h with ⟨epoch, pkHashes, stakes, id, hcall, h⟩ | ⟨id, -, h⟩ |
    ⟨id, -, h⟩ | ⟨id, -, h⟩
  · obtain ⟨-, -, -, hfresh, p', happrove, hresult⟩ := proposeEpochTransition_spec h
    obtain ⟨readyAt, rfl, -⟩ := approveInternal_spec happrove
    by_cases hid : proposalId = id
    · subst hid
      have hp : r'.proposals proposalId = _ :=
        (congrFun (congrArg Registry.proposals hresult) proposalId).trans (Function.update_self ..)
      refine .inr ⟨epoch, pkHashes, stakes, hcall, hfresh, h, ?_⟩
      rw [hp]
      exact ⟨rfl, rfl, rfl⟩
    · left
      subst hresult
      dsimp only
      rw [Function.update_of_ne hid, Function.update_of_ne hid]
      exact ⟨rfl, rfl, rfl, rfl⟩
  · obtain ⟨-, -, -, -, p', happrove, rfl⟩ := approveEpochTransition_spec h
    obtain ⟨readyAt, rfl, -⟩ := approveInternal_spec happrove
    exact .inl (hother rfl rfl ⟨rfl, rfl, rfl⟩)
  · obtain ⟨-, -, -, -, -, p', readyAt, rfl, rfl, -⟩ := revokeApproval_spec h
    exact .inl (hother rfl rfl ⟨rfl, rfl, rfl⟩)
  · obtain ⟨-, -, -, -, -, rfl⟩ := executeEpochTransition_spec h
    exact .inl (hother rfl rfl ⟨rfl, rfl, rfl⟩)

/-- An existing proposal has the lists that one earlier call has proposed, and has had them since
then. -/
theorem proposed_before {n : ℕ} {proposalId : Word}
    (hexists : (registryAt keccak256 d txs n).proposalExists proposalId = true) :
    ∃ j epoch pkHashes stakes, j < n ∧
      ProposesAt keccak256 d txs j proposalId epoch pkHashes stakes ∧
      ∀ m, j < m → m ≤ n → ((registryAt keccak256 d txs m).proposals proposalId).epoch = epoch ∧
        ((registryAt keccak256 d txs m).proposals proposalId).pkHashes = pkHashes ∧
        ((registryAt keccak256 d txs m).proposals proposalId).stakes = stakes := by
  induction n with
  | zero =>
    have hstart : registryAt keccak256 d txs 0 = .initial := stateAt_zero ..
    rw [hstart] at hexists
    cases hexists
  | succ n ih =>
    have hkept (hsame : (registryAt keccak256 d txs (n + 1)).proposalExists proposalId =
          (registryAt keccak256 d txs n).proposalExists proposalId ∧
        ((registryAt keccak256 d txs (n + 1)).proposals proposalId).epoch =
          ((registryAt keccak256 d txs n).proposals proposalId).epoch ∧
        ((registryAt keccak256 d txs (n + 1)).proposals proposalId).pkHashes =
          ((registryAt keccak256 d txs n).proposals proposalId).pkHashes ∧
        ((registryAt keccak256 d txs (n + 1)).proposals proposalId).stakes =
          ((registryAt keccak256 d txs n).proposals proposalId).stakes) :
        ∃ j epoch pkHashes stakes, j < n + 1 ∧
          ProposesAt keccak256 d txs j proposalId epoch pkHashes stakes ∧
          ∀ m, j < m → m ≤ n + 1 →
            ((registryAt keccak256 d txs m).proposals proposalId).epoch = epoch ∧
            ((registryAt keccak256 d txs m).proposals proposalId).pkHashes = pkHashes ∧
            ((registryAt keccak256 d txs m).proposals proposalId).stakes = stakes := by
      obtain ⟨hexists', hepoch, hkeys, hstakes⟩ := hsame
      obtain ⟨j, epoch, pkHashes, stakes, hj, hproposes, hlists⟩ := ih (hexists' ▸ hexists)
      refine ⟨j, epoch, pkHashes, stakes, by omega, hproposes, fun m hjm hmn => ?_⟩
      rcases Nat.lt_or_eq_of_le hmn with hlt | rfl
      · exact hlists m hjm (by omega)
      · rw [hepoch, hkeys, hstakes]
        exact hlists n hj le_rfl
    by_cases hn : n < txs.length
    · have hsucc : registryAt keccak256 d txs (n + 1) = perform (registryStep keccak256 d)
        (registryAt keccak256 d txs n) txs[n] := stateAt_succ _ _ txs n hn
      rcases hresult : registryStep keccak256 d (registryAt keccak256 d txs n) txs[n] with e | r'
      · rw [perform_of_error hresult] at hsucc
        exact hkept (by rw [hsucc]; exact ⟨rfl, rfl, rfl, rfl⟩)
      · rw [perform_of_ok hresult] at hsucc
        rcases registryStep_lists hresult proposalId with hsame |
          ⟨epoch, pkHashes, stakes, hcall, hfresh, hproposes, hlists⟩
        · exact hkept (hsucc ▸ hsame)
        · refine ⟨n, epoch, pkHashes, stakes, Nat.lt_succ_self n,
            ⟨hn, hcall, hfresh, by rw [hproposes, hsucc]⟩, fun m hnm hmn => ?_⟩
          obtain rfl : m = n + 1 := by omega
          rw [hsucc]
          exact hlists
    · have hend := stateAt_of_length_le (registryStep keccak256 d) Registry.initial txs
      have hsame : registryAt keccak256 d txs (n + 1) = registryAt keccak256 d txs n :=
        (hend (n + 1) (by omega)).trans (hend n (by omega)).symm
      exact hkept (by rw [hsame]; exact ⟨rfl, rfl, rfl, rfl⟩)

/-- The epoch history is sequential and append-only. In every run of calls by any senders the
finalized epochs are those up to the current one, each by one execution; an execution is of the
lists that one call proposed under its identifier and that a quorum of signers approves now; and
the stakes and the threshold of a finalized epoch never change. -/
theorem epoch_history_append_only (keccak256 : Bytes → Word) {signers_ : List Address}
    {threshold_ networkId_ timelockDelay_ : ℕ} {d : Deployment}
    (hd : construct signers_ threshold_ networkId_ timelockDelay_ = .ok d)
    (txs : List RegistryTx) (n : ℕ) :
    let r := registryAt keccak256 d txs n
    (∀ epoch, (∃ i, i < n ∧ FinalizesAt keccak256 d txs i epoch) ↔
      r.genesisSet = true ∧ epoch ≤ r.currentEpoch) ∧
    (∀ i j epoch, FinalizesAt keccak256 d txs i epoch → FinalizesAt keccak256 d txs j epoch →
      i = j) ∧
    (∀ proposalId, ExecutesAt keccak256 d txs n proposalId →
      ∃ j epoch pkHashes stakes, j < n ∧
        ProposesAt keccak256 d txs j proposalId epoch pkHashes stakes ∧
        (∀ m, j < m → m ≤ n → ((registryAt keccak256 d txs m).proposals proposalId).epoch = epoch ∧
          ((registryAt keccak256 d txs m).proposals proposalId).pkHashes = pkHashes ∧
          ((registryAt keccak256 d txs m).proposals proposalId).stakes = stakes) ∧
        threshold_ ≤ (signers_.toFinset.filter (InForce keccak256 d txs n proposalId)).card ∧
        ∀ pkHash, (registryAt keccak256 d txs (n + 1)).stakeAt epoch pkHash =
          writeEntries (fun _ => 0) (pkHashes.zip stakes) pkHash) ∧
    ∀ epoch, r.genesisSet = true → epoch ≤ r.currentEpoch → ∀ m, n ≤ m →
      (∀ pkHash, (registryAt keccak256 d txs m).stakeAt epoch pkHash = r.stakeAt epoch pkHash) ∧
      (registryAt keccak256 d txs m).quorumThreshold epoch = r.quorumThreshold epoch := by
  obtain ⟨hwf, rfl, rfl, rfl⟩ := construct_spec hd
  refine ⟨fun epoch => (finalized_iff_finalizesAt n epoch).symm,
    fun i j epoch => finalizesAt_unique, fun proposalId hexecutes => ?_,
    fun epoch hset hle m hnm => ?_⟩
  · obtain ⟨hexists, hready, hexpected, hresult⟩ := hexecutes.spec
    obtain ⟨j, epoch, pkHashes, stakes, hj, hproposes, hlists⟩ := proposed_before hexists
    obtain ⟨hepoch, hkeys, hstakes⟩ := hlists n hj le_rfl
    have hsound := (registryAt_sound keccak256 hwf txs n).proposal proposalId
    refine ⟨j, epoch, pkHashes, stakes, hj, hproposes, hlists, ?_, fun pkHash => ?_⟩
    · have hforce : d.signers.toFinset.filter (InForce keccak256 d txs n proposalId) = _ :=
        approvalsInForce_eq keccak256 d txs n proposalId
      rw [hforce]
      exact (hsound.quorum_of_ready hready).trans hsound.count_eq.le
    · have hempty := ((registryAt_epochsSound keccak256 d txs n).empty epoch
        (hepoch ▸ expectedEpoch_not_finalized hexpected)).1
      have hzero : (registryAt keccak256 d txs n).stakeByEpoch epoch = fun _ => 0 := funext hempty
      rw [Registry.stakeAt, hresult, hepoch, hkeys, hstakes]
      dsimp only
      rw [Function.update_self, hzero]
  · obtain ⟨-, hstake, htotal⟩ := finalized_stays ⟨hset, hle⟩ hnm
    refine ⟨fun pkHash => congrFun hstake pkHash, ?_⟩
    rw [Registry.quorumThreshold, Registry.quorumThreshold, htotal]

/-- In a run that executes genesis, epoch `0` has been finalized by one of its calls. -/
theorem epoch_history_append_only_genesis : ∃ d, construct [1, 2] 2 1 10 = .ok d ∧
    ∃ i, i < 3 ∧ FinalizesAt (fun _ => 9) d genesisRun i 0 := by
  have hd : construct [1, 2] 2 1 10 = .ok ⟨1, 2, 10, [1, 2],
      Function.update (Function.update (fun _ => false) 1 true) 2 true⟩ := rfl
  have hset : (registryAt (fun _ => 9) ⟨1, 2, 10, [1, 2],
      Function.update (Function.update (fun _ => false) 1 true) 2 true⟩ genesisRun 3).genesisSet =
      true := by decide +kernel
  exact ⟨_, hd, ((epoch_history_append_only (fun _ => 9) hd genesisRun 3).1 0).mpr
    ⟨hset, Nat.zero_le _⟩⟩

end SuwappuRevm.Contracts
