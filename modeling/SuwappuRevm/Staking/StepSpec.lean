import SuwappuRevm.Staking.SyscallSpec

/-!
# What one call does

A successful call runs one pool, takes a snapshot, or changes the epoch. This is the only module
that looks at all handlers: the invariants of the contract are proved from `StakingEffect`, and
those of one validator from `Pool.Evolves`.
-/

namespace SuwappuRevm.Staking

open Foundations

/-- The state after an accepted epoch change. -/
def changeEpoch (s : Storage) (next : ℕ) : Storage :=
  { refreshAccumulators s next with inBoundary := false, epoch := next }

/-- How a successful call with an income writes a state credited with it. -/
inductive StakingWrite (income : ℕ) (s s' : Storage) : Prop
  | onPool (v : ValId) (i o : ℕ) (hcall : PoolCall v income i o s s')
  | created (v : ValId) (s₁ : Storage) (secpPubkey blsPubkey : Bytes) (authAddress : Address)
      (commission : ℕ)
      (hcreate : createValidator s secpPubkey blsPubkey authAddress commission = .ok (v, s₁))
      (hsentinel : v ≠ sentinelValId) (htouches : Touches v s₁ s')
      (hbalance : s'.balance = s₁.balance)
      (hrun : s₁.InOrder v → (s₁.pool v).Run s₁.epoch s₁.inBoundary income 0 (s'.pool v))
  | snapshot (hincome : income = 0) (hboundary : s.inBoundary = false) (htake : s' = takeSnapshot s)
  | epochChange (next : Fin (2 ^ 64)) (hincome : income = 0) (hlt : s.epoch < next)
      (hchange : s' = changeEpoch s next)

/-- `handle_add_validator` creates a validator and joins its auth address. -/
theorem handleAddValidator_spec {s : Storage} {msg : Message} {payload : Bytes} {answer : Answer}
    (h : handleAddValidator s msg payload = .ok answer) :
    StakingWrite msg.callValue s answer.storage := by
  simp only [handleAddValidator, bind_eq_ok, failIf_eq_ok, not_not, pure_eq_ok] at h
  obtain ⟨-, -, -, -, -, hvalue, -, hmin, -, -, ⟨v, s₁⟩, hcreate, s₂, hdelegate, rfl⟩ := h
  have hne : msg.callValue ≠ 0 := by
    have hpos : minAuthAddressStake ≠ 0 := by decide
    omega
  obtain ⟨hsentinel, htouches, hbalance, hrun⟩ := internalDelegate_spec hne hdelegate
  exact .created v s₁ _ _ _ _ hcreate hsentinel htouches hbalance hrun

/-- A non-payable handler runs without value. -/
theorem notPayable_eq_ok {msg : Message} {result : Except PrecompileError Answer}
    {answer : Answer} (h : notPayable msg result = .ok answer) :
    msg.callValue = 0 ∧ result = .ok answer := by
  simp only [notPayable, bind_eq_ok, failIf_eq_ok, not_not] at h
  obtain ⟨-, hvalue, h⟩ := h
  exact ⟨hvalue, h⟩

/-- A call without value on one pool. -/
theorem PoolCall.write {s s' : Storage} {msg : Message} {v : ValId} {i o : ℕ}
    (h : PoolCall v 0 i o s s') (hvalue : msg.callValue = 0) :
    StakingWrite msg.callValue s s' := by
  rw [hvalue]
  exact .onPool v i o h

/-- An accepted snapshot is taken outside the boundary, by the system. -/
theorem handleSyscallSnapshot_eq_ok {s : Storage} {msg : Message} {answer : Answer}
    (h : handleSyscallSnapshot s msg = .ok answer) :
    msg.caller = systemAddress ∧ s.inBoundary = false ∧ answer.storage = takeSnapshot s := by
  simp only [handleSyscallSnapshot, bind_eq_ok, failIf_eq_ok, not_not, pure_eq_ok] at h
  obtain ⟨-, -, -, hcaller, -, hboundary, rfl⟩ := h
  exact ⟨hcaller, Bool.eq_false_of_not_eq_true hboundary, rfl⟩

/-- An accepted epoch change goes to a later epoch, by the system. -/
theorem handleSyscallOnEpochChange_eq_ok {s : Storage} {msg : Message} {next : Fin (2 ^ 64)}
    {answer : Answer} (h : handleSyscallOnEpochChange s msg next = .ok answer) :
    msg.caller = systemAddress ∧ s.epoch < next ∧ answer.storage = changeEpoch s next := by
  simp only [handleSyscallOnEpochChange, bind_eq_ok, failIf_eq_ok, not_not, pure_eq_ok] at h
  obtain ⟨-, -, -, hcaller, -, hlt, rfl⟩ := h
  exact ⟨hcaller, not_le.mp hlt, rfl⟩

/-- The dispatch: every successful call writes in one of the four ways. -/
theorem runStakingWrite_spec {s : Storage} {msg : Message} {call : StakingCall} {answer : Answer}
    (h : runStakingWrite s msg call = .ok answer) :
    StakingWrite (income msg call) s answer.storage := by
  cases call with
  | addValidator payload => exact handleAddValidator_spec h
  | delegate v => exact .onPool v _ _ (handleDelegate_spec h)
  | undelegate v amount w =>
    obtain ⟨hvalue, h⟩ := notPayable_eq_ok h
    exact (handleUndelegate_spec h).write hvalue
  | withdraw v w =>
    obtain ⟨hvalue, h⟩ := notPayable_eq_ok h
    obtain ⟨o, hcall⟩ := handleWithdraw_spec h
    exact hcall.write hvalue
  | compound v =>
    obtain ⟨hvalue, h⟩ := notPayable_eq_ok h
    obtain ⟨i, o, hcall⟩ := handleCompound_spec h
    exact hcall.write hvalue
  | claimRewards v =>
    obtain ⟨hvalue, h⟩ := notPayable_eq_ok h
    obtain ⟨o, hcall⟩ := handleClaimRewards_spec h
    exact hcall.write hvalue
  | changeCommission v commission =>
    obtain ⟨hvalue, h⟩ := notPayable_eq_ok h
    exact (handleChangeCommission_spec h).write hvalue
  | externalReward v => exact .onPool v _ _ (handleExternalReward_spec h)
  | getDelegator v d =>
    obtain ⟨hvalue, h⟩ := notPayable_eq_ok h
    exact (handleGetDelegatorWrite_spec h).write hvalue
  | syscallReward author reward => exact .onPool _ _ _ (handleSyscallReward_spec h)
  | syscallSnapshot =>
    obtain ⟨hvalue, h⟩ := notPayable_eq_ok h
    obtain ⟨-, hboundary, htake⟩ := handleSyscallSnapshot_eq_ok h
    exact .snapshot hvalue hboundary htake
  | syscallOnEpochChange next =>
    obtain ⟨hvalue, h⟩ := notPayable_eq_ok h
    obtain ⟨-, hlt, hchange⟩ := handleSyscallOnEpochChange_eq_ok h
    exact .epochChange next hvalue hlt hchange

/-- The epoch never goes back. -/
theorem stakingStep_epoch_le {s s' : Storage} {tx : Message × StakingCall}
    (h : stakingStep s tx = .ok s') : s.epoch ≤ s'.epoch := by
  simp only [stakingStep, bind_eq_ok, pure_eq_ok] at h
  obtain ⟨answer, h, rfl⟩ := h
  cases runStakingWrite_spec h with
  | onPool v i o hcall => exact hcall.touches.epoch_eq.ge
  | created v s₁ secpPubkey blsPubkey authAddress commission hcreate hsentinel htouches =>
    simp only [createValidator, bind_eq_ok, pure_eq_ok, Prod.mk.injEq] at hcreate
    obtain ⟨-, -, -, -, -, rfl⟩ := hcreate
    exact htouches.epoch_eq.ge
  | snapshot hincome hboundary htake =>
    rw [htake, (takeSnapshot_sameLedger _).epoch_eq]
    exact le_rfl
  | epochChange next hincome hlt hchange => exact hchange ▸ hlt.le

/-- A user call or a reward: a run on one pool with the accounting of the balance. -/
structure PoolStep (income : ℕ) (s s' : Storage) (v : ValId) (i o : ℕ) : Prop where
  pool_of_ne : ∀ v', v' ≠ v → s'.pool v' = s.pool v'
  epoch_eq : s'.epoch = s.epoch
  inBoundary_eq : s'.inBoundary = s.inBoundary
  received_eq : s'.received = s.received + income
  balance_eq : s'.balance + o = s.balance + i
  income_le : i ≤ income + o
  run : (s.pool v).Run s.epoch s.inBoundary i o (s'.pool v)

/-- What a successful call with an income does to the pools. -/
inductive StakingEffect (income : ℕ) (s s' : Storage) : Prop
  | onPool (v : ValId) (i o : ℕ) (hstep : PoolStep income s s' v i o)
  | snapshot (hincome : income = 0) (hboundary : s.inBoundary = false) (htake : s' = takeSnapshot s)
  | epochChange (next : Fin (2 ^ 64)) (hincome : income = 0) (hlt : s.epoch < next)
      (hchange : s' = changeEpoch s next)

/-- Crediting nothing changes nothing. -/
theorem Storage.credit_zero (s : Storage) : s.credit 0 = s := rfl

/-- Crediting keeps the ids registered. -/
theorem Registered.credit {s : Storage} (hs : Registered s) (income : ℕ) :
    Registered (s.credit income) :=
  ⟨hs.1, hs.2, hs.3⟩

/-- A snapshot keeps a pool fresh. -/
theorem Pool.Fresh.snapshotTo {p p' : Pool} (h : p.Fresh) (hsnap : p.SnapshotTo p') : p'.Fresh where
  stake_eq := hsnap.stake_eq.trans h.stake_eq
  acc_eq := hsnap.acc_eq.trans h.acc_eq
  unclaimed_eq := hsnap.unclaimed_eq.trans h.unclaimed_eq
  delegators_eq d := hsnap.delegators_eq ▸ h.delegators_eq d
  withdrawals_eq d w := hsnap.withdrawals_eq ▸ h.withdrawals_eq d w
  consensusStake_eq := by
    by_cases hmem : p'.inConsensus
    · exact (hsnap.consensusStake_of_mem hmem).trans h.stake_eq
    · rcases hsnap.consensusStake_of_not_mem hmem with hzero | ⟨hsame, -⟩
      · exact hzero
      · exact hsame.trans h.consensusStake_eq
  snapshotStake_eq := by
    by_cases hmem : p.inConsensus
    · exact (hsnap.snapshotStake_of_mem hmem).trans h.consensusStake_eq
    · rcases hsnap.snapshotStake_of_not_mem hmem with hzero | ⟨hsame, -⟩
      · exact hzero
      · exact hsame.trans h.snapshotStake_eq

/-- A snapshot keeps the ids registered. -/
theorem takeSnapshot_registered {s : Storage} (hs : Registered s) :
    Registered (takeSnapshot s) := by
  obtain ⟨-, -, hlast, hvalidators, -, -⟩ := takeSnapshot_sameLedger s
  refine ⟨?_, fun v hv => ?_, fun v hv => ?_⟩
  · rw [hlast]
    exact hs.lastValId_ne
  · rw [hlast] at hv
    rw [hvalidators]
    exact hs.authAddress_eq v hv
  · rw [hlast] at hv
    exact (hs.fresh v hv).snapshotTo (takeSnapshot_pool s v)

/-- An epoch change keeps a pool fresh. -/
theorem changeEpoch_fresh {s : Storage} {v : ValId} (hfresh : (s.pool v).Fresh) (next : ℕ) :
    ((changeEpoch s next).pool v).Fresh := by
  obtain ⟨hrefresh, hskip⟩ := (refreshAccumulators_spec s next).2 v
  change ((refreshAccumulators s next).pool v).Fresh
  by_cases hmem : (s.pool v).inSnapshot
  · rw [hrefresh hmem]
    exact ⟨hfresh.1, hfresh.2, hfresh.3, hfresh.4, hfresh.5, hfresh.6, hfresh.7⟩
  · rw [hskip hmem]
    exact hfresh

/-- An epoch change keeps the ids registered. -/
theorem changeEpoch_registered {s : Storage} (hs : Registered s) (next : ℕ) :
    Registered (changeEpoch s next) := by
  obtain ⟨⟨-, -, hlast, hvalidators, -, -⟩, -⟩ := refreshAccumulators_spec s next
  refine ⟨?_, fun v hv => ?_, fun v hv => ?_⟩
  · rw [changeEpoch, hlast]
    exact hs.lastValId_ne
  · rw [changeEpoch, hlast] at hv
    rw [changeEpoch, hvalidators]
    exact hs.authAddress_eq v hv
  · rw [changeEpoch, hlast] at hv
    exact changeEpoch_fresh (hs.fresh v hv) next

/-- An accepted call has one of the three effects and keeps the ids registered. -/
theorem stakingStep_effect {s s' : Storage} {tx : Message × StakingCall} (hs : Registered s)
    (horder : ∀ v, s.InOrder v) (h : stakingStep s tx = .ok s') :
    Registered s' ∧ StakingEffect (income tx.1 tx.2) s s' := by
  simp only [stakingStep, bind_eq_ok, pure_eq_ok] at h
  obtain ⟨answer, h, rfl⟩ := h
  cases runStakingWrite_spec h with
  | onPool v i o hcall =>
    have hbalance := hcall.balance_eq
    change _ = s.balance + income tx.1 tx.2 + i at hbalance
    exact ⟨hcall.registered (horder v) (hs.credit _), .onPool v i o
      ⟨hcall.touches.pool_of_ne, hcall.touches.epoch_eq, hcall.touches.inBoundary_eq,
        hcall.touches.received_eq, by omega, hcall.income_le, hcall.run (horder v)⟩⟩
  | created v s₁ secpPubkey blsPubkey authAddress commission hcreate hsentinel htouches hbalance₂
      hrun =>
    obtain ⟨hval, hlast, hpool, hauth, hepoch, hboundary, hreceived, hbalance⟩ :=
      createValidator_spec (hs.credit _) hcreate
    have horder₁ : s₁.InOrder v := by
      unfold Storage.InOrder
      rw [hpool, hepoch, hboundary]
      exact horder v
    have hrun := hrun horder₁
    rw [hpool, hepoch, hboundary] at hrun
    change v.val = s.lastValId.val + 1 at hval
    -- an id above the new one was above the last one
    have habove {v' : ValId} (hv : answer.storage.lastValId < v') : v' ≠ v ∧ s.lastValId < v' := by
      rw [htouches.lastValId_eq, hlast, Fin.lt_def] at hv
      exact ⟨fun heq => absurd hv (by rw [heq]; exact lt_irrefl _), by rw [Fin.lt_def]; omega⟩
    refine ⟨⟨?_, fun v' hv => ?_, fun v' hv => ?_⟩, .onPool v _ 0
      ⟨fun v' hne => (htouches.pool_of_ne v' hne).trans (hpool v'), htouches.epoch_eq.trans hepoch,
        htouches.inBoundary_eq.trans hboundary, htouches.received_eq.trans hreceived,
        hbalance₂.trans hbalance, le_rfl, hrun⟩⟩
    · rw [htouches.lastValId_eq, hlast]
      exact hsentinel
    · rw [htouches.authAddress_eq, hauth v' (habove hv).1]
      exact hs.authAddress_eq v' (habove hv).2
    · rw [htouches.pool_of_ne v' (habove hv).1, hpool]
      exact hs.fresh v' (habove hv).2
  | snapshot hincome hboundary htake =>
    rw [hincome, Storage.credit_zero] at htake
    rw [hincome]
    exact ⟨htake ▸ takeSnapshot_registered hs, .snapshot rfl hboundary htake⟩
  | epochChange next hincome hlt hchange =>
    rw [hincome, Storage.credit_zero] at hchange
    rw [hincome]
    exact ⟨hchange ▸ changeEpoch_registered hs next, .epochChange next rfl hlt hchange⟩

/-- What one call does to one pool and its clock. -/
inductive Pool.Evolves (cur : ℕ) (b : Bool) (p : Pool) : ℕ → Bool → Pool → Prop
  | idle : Evolves cur b p cur b p
  | run {i o : ℕ} {p' : Pool} (hrun : p.Run cur b i o p') : Evolves cur b p cur b p'
  | snapshot {p' : Pool} (hboundary : b = false) (hsnap : p.SnapshotTo p') :
      Evolves cur b p cur true p'
  | refresh (next : ℕ) (hlt : cur < next) (hbound : next < 2 ^ 64) (hmem : p.inSnapshot) :
      Evolves cur b p next false (p.refreshed next (u64Add next 1))
  | skip (next : ℕ) (hlt : cur < next) (hbound : next < 2 ^ 64) (hmem : ¬p.inSnapshot) :
      Evolves cur b p next false p

/-- Every pool evolves by every effect. -/
theorem StakingEffect.evolves {income : ℕ} {s s' : Storage} (h : StakingEffect income s s')
    (v : ValId) :
    (s.pool v).Evolves s.epoch s.inBoundary s'.epoch s'.inBoundary (s'.pool v) := by
  cases h with
  | onPool v' i o hstep =>
    rw [hstep.epoch_eq, hstep.inBoundary_eq]
    by_cases hv : v = v'
    · subst hv
      exact .run hstep.run
    · rw [hstep.pool_of_ne v hv]
      exact .idle
  | snapshot hincome hboundary htake =>
    have hledger := takeSnapshot_sameLedger s
    rw [htake, hledger.epoch_eq, hledger.inBoundary_eq]
    exact .snapshot hboundary (takeSnapshot_pool s v)
  | epochChange next hincome hlt hchange =>
    obtain ⟨hrefresh, hskip⟩ := (refreshAccumulators_spec s next).2 v
    have hpool : s'.pool v = (refreshAccumulators s next).pool v := by rw [hchange]; rfl
    have hepoch : s'.epoch = next := by rw [hchange]; rfl
    have hboundary : s'.inBoundary = false := by rw [hchange]; rfl
    rw [hpool, hepoch, hboundary]
    by_cases hmem : (s.pool v).inSnapshot
    · rw [hrefresh hmem]
      exact .refresh next hlt next.isLt hmem
    · rw [hskip hmem]
      exact .skip next hlt next.isLt hmem

/-- A later epoch leaves nothing pending two ahead. -/
theorem Pool.EpochsOk.later {cur next : ℕ} {b : Bool} {p : Pool} (hp : p.EpochsOk cur b)
    (hlt : cur < next) : p.EpochsOk next false := by
  intro d
  obtain ⟨hdelta, hnext, -, horder⟩ := hp d
  exact ⟨by omega, by omega, fun h => by omega, horder⟩

/-- Pending epochs stay in order. -/
theorem Pool.Evolves.epochsOk {cur cur' : ℕ} {b b' : Bool} {p p' : Pool} (hcur : cur + 1 < 2 ^ 64)
    (hp : p.EpochsOk cur b) (h : p.Evolves cur b cur' b' p') : p'.EpochsOk cur' b' := by
  cases h with
  | idle => exact hp
  | run hrun => exact hrun.epochsOk hcur hp
  | snapshot hboundary hsnap =>
    subst hboundary
    intro d
    rw [hsnap.delegators_eq]
    obtain ⟨hdelta, hnext, htwo, horder⟩ := hp d
    exact ⟨hdelta, hnext, fun h => absurd (htwo h).1 (by simp), horder⟩
  | refresh next hlt => exact fun d => hp.later hlt d
  | skip next hlt => exact hp.later hlt

section Reachable

variable {guard : Storage → Message × StakingCall → Storage → Prop} {s : Storage}

/-- In every reachable state whose epoch is below its last value, ids are registered and the
pending epochs are in order. -/
theorem reachable_inOrder (h : Reachable stakingStep guard .empty s) (hcur : s.epoch + 1 < 2 ^ 64) :
    Registered s ∧ ∀ v, s.InOrder v := by
  refine h.invariant (fun s => s.epoch + 1 < 2 ^ 64 → Registered s ∧ ∀ v, s.InOrder v) ?_ ?_ hcur
  · intro hcur
    refine ⟨⟨by decide, fun _ _ => rfl, fun v _ => ?_⟩, fun v => ⟨hcur, fun d => ?_⟩⟩
    · exact ⟨rfl, rfl, rfl, fun _ => rfl, fun _ _ => rfl, rfl, rfl⟩
    · exact ⟨Nat.zero_le _, Nat.zero_le _, fun h => absurd (show 0 = 2 from h) (by decide),
        fun h => absurd rfl h⟩
  · intro s tx s' ih hstep _ hcur
    have hle := stakingStep_epoch_le hstep
    obtain ⟨hs, horder⟩ := ih (by omega)
    obtain ⟨hs', heffect⟩ := stakingStep_effect hs horder hstep
    exact ⟨hs', fun v => ⟨hcur, (heffect.evolves v).epochsOk (horder v).1 (horder v).2⟩⟩

/-- Pool rule: what every evolution of a pool preserves holds for every pool in every reachable
state. -/
theorem reachable_pool (motive : ℕ → Bool → Pool → Prop)
    (hinit : ∀ v, motive 0 false (Storage.empty.pool v))
    (hstep : ∀ s tx s' v, guard s tx s' → stakingStep s tx = .ok s' → s.InOrder v →
      motive s.epoch s.inBoundary (s.pool v) →
      (s.pool v).Evolves s.epoch s.inBoundary s'.epoch s'.inBoundary (s'.pool v) →
      motive s'.epoch s'.inBoundary (s'.pool v))
    (h : Reachable stakingStep guard .empty s) (hcur : s.epoch + 1 < 2 ^ 64) (v : ValId) :
    motive s.epoch s.inBoundary (s.pool v) := by
  induction h with
  | start => exact hinit v
  | @call s s' tx hreach hs hg ih =>
    have hle := stakingStep_epoch_le hs
    obtain ⟨hreg, horder⟩ := reachable_inOrder hreach (by omega)
    obtain ⟨-, heffect⟩ := stakingStep_effect hreg horder hs
    exact hstep s tx s' v hg hs (horder v) (ih (by omega)) (heffect.evolves v)

end Reachable

end SuwappuRevm.Staking
