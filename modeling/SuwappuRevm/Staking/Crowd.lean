import SuwappuRevm.Staking.RosterSteps
import SuwappuRevm.Staking.SettlementProgress

/-!
# A crowd of delegators

Reference counts are `u64` words that are incremented unchecked. A crowd that delegates in one
epoch brings the count of the next epoch's entry round to zero, at a small fraction of the value
that the bounds allow. Settlements and withdrawals of that epoch then read the value zero.
-/

namespace SuwappuRevm.Staking

open Foundations Finset

section Silent

namespace Pool

variable {cur : ℕ} {b : Bool} {p p' : Pool} {i o : ℕ}

/-- An account that no event names has a record and requests nobody has written. -/
def SilentZero (p : Pool) : Prop :=
  ∀ d, (∀ e ∈ p.history, e.account ≠ some d) →
    p.delegators d = .zero ∧ ∀ w, p.withdrawals d w = .zero

/-- A step that writes what belongs to the account it names. -/
theorem SilentZero.write (hp : p.SilentZero) (d : Address) {event : PoolEvent}
    (haccount : event.account = some d) (hhistory : p'.history = event :: p.history)
    (hoff : ∀ d', d' ≠ d →
      p'.delegators d' = p.delegators d' ∧ p'.withdrawals d' = p.withdrawals d') :
    p'.SilentZero := by
  intro d' hsilent
  rw [hhistory] at hsilent
  have hne : d' ≠ d := by
    rintro rfl
    exact hsilent event List.mem_cons_self haccount
  obtain ⟨hrecord, hrequests⟩ := hoff d' hne
  rw [hrecord, hrequests]
  exact hp d' fun e he => hsilent e (List.mem_cons_of_mem _ he)

/-- A step that writes nothing of any account. -/
theorem SilentZero.keep (hp : p.SilentZero) (hhistory : p.history ⊆ p'.history)
    (hdelegators : p'.delegators = p.delegators) (hwithdrawals : p'.withdrawals = p.withdrawals) :
    p'.SilentZero := by
  intro d hsilent
  rw [hdelegators, hwithdrawals]
  exact hp d fun e he => hsilent e (hhistory he)

/-- Quiet steps write nothing of an account that no event names. -/
theorem Quiet.silentZero (hp : p.SilentZero) (h : p.Quiet cur b i o p') : p'.SilentZero := by
  cases h with
  | promote d hdelta hnext hle =>
    intro d' hsilent
    obtain ⟨hrecord, hrequests⟩ := hp d' hsilent
    have hne : d' ≠ d := by
      rintro rfl
      exact hnext (by rw [hrecord]; rfl)
    exact ⟨(Function.update_of_ne hne ..).trans hrecord, hrequests⟩
  | compound d => exact hp.write d rfl rfl fun _ hd => ⟨Function.update_of_ne hd .., rfl⟩
  | accrue d => exact hp.write d rfl rfl fun _ hd => ⟨Function.update_of_ne hd .., rfl⟩
  | take d => exact hp.write d rfl rfl fun _ hd => ⟨Function.update_of_ne hd .., rfl⟩
  | pay d => exact hp.write d rfl rfl fun _ hd => ⟨rfl, Function.update_of_ne hd ..⟩
  | commission d => exact hp.write d rfl rfl fun _ hd => ⟨Function.update_of_ne hd .., rfl⟩
  | reward => exact hp.keep (List.subset_cons_self ..) rfl rfl

/-- Entering steps write nothing of an account that no event names. -/
theorem Enter.silentZero (hp : p.SilentZero) (h : p.Enter cur b i p') : p'.SilentZero := by
  cases h with
  | join d => exact hp.write d rfl rfl fun _ hd => ⟨Function.update_of_ne hd .., rfl⟩
  | leave d =>
    exact hp.write d rfl rfl fun _ hd =>
      ⟨Function.update_of_ne hd .., Function.update_of_ne hd ..⟩

/-- Quiet runs write nothing of an account that no event names. -/
theorem QuietRun.silentZero (hp : p.SilentZero) (h : p.QuietRun cur b i o p') : p'.SilentZero :=
  h.preserves SilentZero (fun _ _ _ _ hp hstep => hstep.silentZero hp) hp

/-- Evolutions write nothing of an account that no event names. -/
theorem Evolves.silentZero {cur' : ℕ} {b' : Bool} (hp : p.SilentZero)
    (h : p.Evolves cur b cur' b' p') : p'.SilentZero := by
  cases h with
  | idle => exact hp
  | run hrun =>
    cases hrun with
    | quiet hrun => exact hrun.silentZero hp
    | enter hrun hstep => exact hstep.silentZero (hrun.silentZero hp)
  | snapshot hboundary hsnap =>
    exact hp.keep (by rw [hsnap.history_eq]; exact List.Subset.refl _) hsnap.delegators_eq
      hsnap.withdrawals_eq
  | refresh => exact hp.keep (List.Subset.refl _) rfl rfl
  | skip => exact hp

end Pool

/-- In every reachable state an account that no event names has a record and requests nobody has
written. -/
theorem reachable_silentZero {guard : Storage → Message × StakingCall → Storage → Prop}
    {s : Storage} (h : Reachable stakingStep guard .empty s) (hcur : s.epoch + 1 < 2 ^ 64)
    (v : ValId) : (s.pool v).SilentZero :=
  reachable_pool (fun _ _ p => p.SilentZero) (fun _ _ _ => ⟨rfl, fun _ => rfl⟩)
    (fun _ _ _ _ _ _ _ hp hevolves => hevolves.silentZero hp) h hcur v

end Silent

/-- The members of a crowd; no address among them is reserved. -/
def crowd (n : Fin (2 ^ 64)) : Address := ⟨2 ^ 100 + n, by omega⟩

/-- What a member delegates: the first a lot, the others the least amount. -/
def crowdStake (n : Fin (2 ^ 64)) : ℕ := if n = 0 then 10 ^ 26 else dustThreshold

/-- Members have addresses of their own. -/
theorem crowd_injective {n m : Fin (2 ^ 64)} (h : crowd n = crowd m) : n = m := by
  have hval : 2 ^ 100 + n.val = 2 ^ 100 + m.val := congrArg Fin.val h
  omega

/-- A member's delegation. -/
def crowdCall (n : Fin (2 ^ 64)) : Message × StakingCall :=
  (userMessage (crowd n) (crowdStake n) (by
    intro h
    have hval : 2 ^ 100 + n.val = 0x1000 := congrArg Fin.val h
    omega), .delegate 1)

/-- Before the crowd: a validator enters the consensus set and gets the greatest external
reward. -/
def crowdOpening : List (Message × StakingCall) :=
  [(userMessage 7 activeValidatorStake opener_ne_staking, .addValidator samplePayload),
    (systemMessage, .syscallSnapshot),
    (systemMessage, .syscallOnEpochChange 1),
    (userMessage 9 maxExternalReward payer_ne_staking, .externalReward 1)]

/-- Then its auth address undelegates a little. -/
def crowdUndelegate : Message × StakingCall :=
  (userMessage 7 0 opener_ne_staking, .undelegate 1 dustThreshold 0)

/-- Then the validator gets the greatest external reward again. -/
def crowdReward : Message × StakingCall :=
  (userMessage 9 maxExternalReward payer_ne_staking, .externalReward 1)

/-- The calls after the undelegation are orderly, and none withdraws. -/
def CrowdGuard (s : Storage) (tx : Message × StakingCall) (s' : Storage) : Prop :=
  Orderly s tx s' ∧ ∀ v w, tx.2 ≠ .withdraw v w

/-- A record nobody has written settles to itself. -/
theorem pullDelegatorUpToDate_zero {s : Storage} {v : ValId} {d : Address}
    (h : s.delegators v d = .zero) : ∃ s', pullDelegatorUpToDate s v d = .ok (.zero, s') ∧
      Touches v s s' ∧ s'.pool v = s.pool v ∧ s'.validators v = s.validators v := by
  refine ⟨(s.writeValidatorUnclaimedRewards v (s.validators v).unclaimedRewards).writeDelegator v d
    .zero, ?_, (Touches.writeValidatorUnclaimedRewards ..).trans (.writeDelegator ..), ?_, ?_⟩
  · simp [pullDelegatorUpToDate, h, promoteNext, Delegator.zero, isEpochActive, compoundIf,
      accrueActive]
    rfl
  · rw [pool_writeDelegator, pool_writeValidatorUnclaimedRewards, ← h]
    simp [Pool.setDelegator, Storage.pool]
  · simp [Storage.writeDelegator, Storage.writeValidatorUnclaimedRewards, Storage.writeValidator]

/-- A bound on all value once `n` members of the crowd have delegated. -/
def crowdBound (n : ℕ) : ℕ := 10 ^ 26 + 10 ^ 26 * min n 1 + n * dustThreshold

/-- The state `s₀` before the undelegation and the state `s₁` after it. -/
structure CrowdStart (s₀ s₁ : Storage) : Prop where
  reachable : Reachable stakingStep Orderly .empty s₀
  epoch_eq : s₀.epoch = 1
  inBoundary_eq : s₀.inBoundary = false
  step : stakingStep s₀ crowdUndelegate = .ok s₁
  orderly : Orderly s₀ crowdUndelegate s₁

/-- The state after `n` members of the crowd have delegated. -/
structure Crowded (s₁ : Storage) (n : ℕ) (s : Storage) : Prop where
  after : Reachable stakingStep CrowdGuard s₁ s
  epoch_eq : s.epoch = 1
  inBoundary_eq : s.inBoundary = false
  exists_validator : (s.validators 1).Exists
  inConsensus : (s.pool 1).inConsensus
  acc_eq : (s.pool 1).acc = 2 * unitBias
  unclaimed_eq : (s.pool 1).unclaimed = maxExternalReward
  stake_le : (s.pool 1).stake ≤ crowdBound n
  received_le : s.received ≤ crowdBound n
  record_eq : ∀ m, (s.pool 1).delegators (crowd m) =
    if m.val < n then ⟨0, 0, 0, crowdStake m, 0, 2, 0⟩ else .zero
  request_eq : (s.pool 1).withdrawals 7 0 = ⟨dustThreshold, unitBias, 2⟩
  refcount_eq : ((s.pool 1).accumulators 2).refcount = (n + 1) % 2 ^ 64
  log_eq : (s.pool 1).log = [(1, unitBias), (1, unitBias)]
  events_eq : ∀ m, ∀ e ∈ (s.pool 1).history, e.account = some (crowd m) →
    e = .delegated (crowd m) (crowdStake m) 2
  requests_eq : ∀ m w, (s.pool 1).withdrawals (crowd m) w = .zero

/-- A crowd comes after its start. -/
theorem CrowdStart.reachable_after {s₀ s₁ s : Storage} (h : CrowdStart s₀ s₁)
    (hafter : Reachable stakingStep CrowdGuard s₁ s) : Reachable stakingStep Orderly .empty s :=
  (Reachable.call _ h.reachable h.step h.orderly).trans (hafter.mono fun _ _ _ hg => hg.1)

/-- The opening leaves nobody of the crowd in the pool. -/
theorem exists_crowdStart : ∃ s₀ s₁ s, CrowdStart s₀ s₁ ∧ Crowded s₁ 0 s := by
  have hall : ((runAll stakingStep orderlyCheck .empty crowdOpening).bind fun s₀ =>
      (runAll stakingStep orderlyCheck s₀ [crowdUndelegate]).bind fun s₁ =>
        (runAll stakingStep orderlyCheck s₁ [crowdReward]).map fun s =>
          decide ((s₀.epoch = 1 ∧ s₀.inBoundary = false) ∧ s.epoch = 1 ∧ s.inBoundary = false ∧
            (s.validators 1).Exists ∧ (1 : ValId) ∈ s.consensus.toList ∧
            (s.pool 1).acc = 2 * unitBias ∧ (s.pool 1).unclaimed = maxExternalReward ∧
            (s.pool 1).stake ≤ 10 ^ 26 ∧ s.received ≤ 10 ^ 26 ∧
            (s.pool 1).withdrawals 7 0 = ⟨dustThreshold, unitBias, 2⟩ ∧
            ((s.pool 1).accumulators 2).refcount = 1 ∧
            (s.pool 1).log = [(1, unitBias), (1, unitBias)] ∧
            ∀ e ∈ (s.pool 1).history, e.account = some 7 ∨ e.account = none)) = some true := by
    decide +kernel
  obtain ⟨s₀, hrun₀, hall⟩ := Option.bind_eq_some_iff.mp hall
  obtain ⟨s₁, hrun₁, hall⟩ := Option.bind_eq_some_iff.mp hall
  obtain ⟨s, hrun, hall⟩ := Option.map_eq_some_iff.mp hall
  obtain ⟨⟨hepoch₀, hboundary₀⟩, hepoch, hboundary, hexists, hmem, hacc, hunclaimed, hstake,
    hreceived, hrequest, hcount, hlog, hnames⟩ := of_decide_eq_true hall
  obtain ⟨hstep₁, horderly₁⟩ := runAll_single hrun₁
  obtain ⟨hstep, horderly⟩ := runAll_single hrun
  have hstart : CrowdStart s₀ s₁ := ⟨reachable_of_runAll
    (fun _ _ _ hcheck => orderly_of_check hcheck) .start hrun₀, hepoch₀, hboundary₀, hstep₁,
    orderly_of_check horderly₁⟩
  have hafter : Reachable stakingStep CrowdGuard s₁ s :=
    .call _ .start hstep ⟨orderly_of_check horderly, by intro v w h; cases h⟩
  have hsilent (m : Fin (2 ^ 64)) : ∀ e ∈ (s.pool 1).history, e.account ≠ some (crowd m) := by
    intro e he haccount
    rcases hnames e he with h | h
    · rw [h] at haccount
      have hval : 7 = 2 ^ 100 + m.val := congrArg Fin.val (Option.some.inj haccount)
      omega
    · rw [h] at haccount
      cases haccount
  have hzero (m : Fin (2 ^ 64)) :=
    reachable_silentZero (hstart.reachable_after hafter) (by omega) 1 (crowd m) (hsilent m)
  refine ⟨s₀, s₁, s, hstart, hafter, hepoch, hboundary, hexists, hmem, hacc, hunclaimed, hstake,
    hreceived, fun m => ?_, hrequest, hcount, hlog,
    fun m e he haccount => absurd haccount (hsilent m e he), fun m => (hzero m).2⟩
  rw [if_neg (Nat.not_lt_zero _)]
  exact (hzero m).1

/-- No member has a reserved address. -/
theorem crowd_not_reserved (m : Fin (2 ^ 64)) : ¬(crowd m = 0 ∨ crowd m = sentinelAddress) := by
  have hsentinel : sentinelAddress.val = 2 ^ 160 - 1 := by decide +kernel
  have hval : (crowd m).val = 2 ^ 100 + m.val := rfl
  rintro (h | h)
  · have hzero : (crowd m).val = 0 := congrArg Fin.val h
    omega
  · have hlast : (crowd m).val = sentinelAddress.val := congrArg Fin.val h
    omega

/-- A member puts in something worth a delegation. -/
theorem crowdStake_bounds (m : Fin (2 ^ 64)) :
    dustThreshold ≤ crowdStake m ∧ crowdStake m ≤ 10 ^ 26 := by
  unfold crowdStake dustThreshold
  split <;> omega

/-- A member's delegation keeps to the bound, which is well below the limits. -/
theorem crowdBound_add (m : Fin (2 ^ 64)) :
    crowdBound m + crowdStake m ≤ crowdBound (m + 1) ∧ crowdBound (m + 1) < 2 ^ 100 := by
  have hm := m.isLt
  unfold crowdBound crowdStake dustThreshold
  split
  next hzero =>
    subst hzero
    decide
  next hne =>
    have hpos : m.val ≠ 0 := fun h => hne (Fin.ext h)
    omega

/-- The next member of the crowd delegates. -/
theorem Crowded.delegates {s₁ s : Storage} {m : Fin (2 ^ 64)} (h : Crowded s₁ m s) :
    ∃ s', stakingStep s (crowdCall m) = .ok s' ∧
      s'.pool 1 = (s.pool 1).join false 2 (crowd m) (crowdStake m) ∧
      Touches 1 (s.credit (crowdStake m)) s' := by
  obtain ⟨hdust, hmost⟩ := crowdStake_bounds m
  obtain ⟨hadd, hbound⟩ := crowdBound_add m
  have hdustValue : dustThreshold = 10 ^ 9 := rfl
  have hword : 2 ^ 250 < wordBound := by decide +kernel
  have hzero : (s.credit (crowdStake m)).delegators 1 (crowd m) = .zero :=
    (h.record_eq m).trans (if_neg (lt_irrefl _))
  obtain ⟨s₁, hpull, htouches, hpool, hvalidators⟩ :=
    pullDelegatorUpToDate_zero hzero
  have hstake : (s₁.validators 1).stake + crowdStake m < wordBound := by
    have hle := h.stake_le
    have hsame : (s₁.validators 1).stake = (s.pool 1).stake := by rw [hvalidators]; rfl
    omega
  obtain ⟨s', hdelegate⟩ := internalDelegate_succeeds hpull (crowd_not_reserved m) (by decide)
    (show 0 + crowdStake m < wordBound by omega) (show 0 + crowdStake m < wordBound by omega)
    hstake
  refine ⟨s', ?_, ?_, internalDelegate_touches hdelegate⟩
  · have hexists : ((s.credit (crowdStake m)).validators 1).Exists := h.exists_validator
    have hlimit : ¬1000000 < gas.delegate := by decide
    have hgas : ¬(crowdCall m).1.gasLimit < gas.delegate := hlimit
    have hvalue : (crowdCall m).1.callValue = crowdStake m := rfl
    have hincome : income (crowdCall m).1 (crowdCall m).2 = crowdStake m := rfl
    have hhandle : handleDelegate (s.credit (crowdStake m)) (crowdCall m).1 1 =
        .ok ⟨s', gas.delegate, .success⟩ := by
      rw [handleDelegate, failIf_of_not hgas, ok_bind, failIf_of_not (not_not.mpr hexists), ok_bind,
        hvalue, if_neg (by omega), failIf_of_not (not_lt.mpr hdust), ok_bind]
      change (internalDelegate (s.credit (crowdStake m)) 1 (crowd m) (crowdStake m) >>= _) = _
      rw [hdelegate]
      rfl
    rw [stakingStep, hincome]
    change (handleDelegate (s.credit (crowdStake m)) (crowdCall m).1 1 >>= _) = _
    rw [hhandle]
    rfl
  · have hsettled : (s.pool 1).pulled s.epoch (crowd m) = s.pool 1 :=
      Pool.pulled_of_zero ((h.record_eq m).trans (if_neg (lt_irrefl _))) s.epoch
    have hact : activationEpoch s.epoch s.inBoundary = 2 := by
      rw [h.epoch_eq, h.inBoundary_eq]
      decide
    rw [internalDelegate_pool hdelegate]
    change ((s.pool 1).pulled s.epoch (crowd m)).join s.inBoundary
      (activationEpoch s.epoch s.inBoundary) (crowd m) (crowdStake m) = _
    rw [hsettled, hact, h.inBoundary_eq]

/-- The state after one more member has delegated. -/
theorem Crowded.succ {s₁ s : Storage} {m : Fin (2 ^ 64)} (h : Crowded s₁ m s) :
    ∃ s', Crowded s₁ (m + 1 : ℕ) s' := by
  obtain ⟨s', hstep, hpool, htouches⟩ := h.delegates
  obtain ⟨hadd, hbound⟩ := crowdBound_add m
  have hepoch : s'.epoch = s.epoch := htouches.epoch_eq
  have hreceived : s'.received = s.received + crowdStake m := htouches.received_eq
  have hrefcount : ((s'.pool 1).accumulators 2).refcount =
      u64Add ((s.pool 1).accumulators 2).refcount 1 := by
    have hneed : ((s.pool 1).delegators (crowd m)).trackEpoch false = 0 := by
      rw [h.record_eq m, if_neg (lt_irrefl _)]
      rfl
    rw [hpool]
    have haccs : ((s.pool 1).join false 2 (crowd m) (crowdStake m)).accumulators =
        if ((s.pool 1).delegators (crowd m)).trackEpoch false = 0 then
          ((s.pool 1).retain 2).accumulators else (s.pool 1).accumulators := rfl
    rw [haccs, if_pos hneed, Pool.retain, Pool.setEntry]
    dsimp only
    rw [Function.update_self]
  refine ⟨s', .call _ h.after hstep ⟨⟨?_, ?_, fun hlt => ?_⟩, by intro v w h; cases h⟩,
    hepoch.trans h.epoch_eq, htouches.inBoundary_eq.trans h.inBoundary_eq, ?_, ?_, ?_, ?_, ?_, ?_,
    fun m' => ?_, ?_, ?_, ?_, fun m' e he haccount => ?_, fun m' => ?_⟩
  · rw [hepoch, h.epoch_eq]
    decide
  · have hle := h.received_le
    rw [hreceived]
    omega
  · omega
  · exact (htouches.authAddress_eq 1).trans_ne h.exists_validator
  · rw [hpool]
    exact h.inConsensus
  · rw [hpool]
    exact h.acc_eq
  · rw [hpool]
    exact h.unclaimed_eq
  · have hle := h.stake_le
    rw [hpool]
    change (s.pool 1).stake + crowdStake m ≤ _
    omega
  · have hle := h.received_le
    rw [hreceived]
    omega
  · rw [hpool]
    change Function.update (s.pool 1).delegators (crowd m)
      (((s.pool 1).delegators (crowd m)).addTo false 2 (crowdStake m)) (crowd m') = _
    by_cases hm' : m' = m
    · subst hm'
      rw [Function.update_self, h.record_eq m', if_neg (lt_irrefl _), if_pos (Nat.lt_succ_self _)]
      simp [Delegator.addTo, Delegator.zero]
    · have hne : crowd m' ≠ crowd m := fun heq => hm' (crowd_injective heq)
      rw [Function.update_of_ne hne, h.record_eq m']
      have hval : m'.val ≠ m.val := fun heq => hm' (Fin.ext heq)
      have hiff : m'.val < m.val + 1 ↔ m'.val < m.val := by omega
      simp only [hiff]
  · rw [hpool]
    exact h.request_eq
  · rw [hrefcount, h.refcount_eq, u64Add]
    omega
  · rw [hpool]
    exact h.log_eq
  · rw [hpool] at he
    rcases List.mem_cons.mp he with rfl | he
    · obtain rfl := crowd_injective (Option.some.inj haccount)
      rfl
    · exact h.events_eq m' e he haccount
  · rw [hpool]
    exact h.requests_eq m'

/-- Any number of members can delegate. -/
theorem exists_crowded {n : ℕ} (hn : n ≤ 2 ^ 64) :
    ∃ s₀ s₁ s, CrowdStart s₀ s₁ ∧ Crowded s₁ n s := by
  obtain ⟨s₀, s₁, s, hstart, hzero⟩ := exists_crowdStart
  refine ⟨s₀, s₁, ?_⟩
  induction n with
  | zero => exact ⟨s, hstart, hzero⟩
  | succ n ih =>
    obtain ⟨s, -, h⟩ := ih (by omega)
    have hmember : Crowded s₁ (⟨n, by omega⟩ : Fin (2 ^ 64)) s := h
    obtain ⟨s', hsucc⟩ := hmember.succ
    exact ⟨s', hstart, hsucc⟩

section NextEpoch

variable {s : Storage}

/-- The block processor's snapshot goes through outside the boundary. -/
theorem snapshot_succeeds (hboundary : s.inBoundary = false) :
    stakingStep s (systemMessage, .syscallSnapshot) = .ok (takeSnapshot s) := by
  have hvalue : ¬systemMessage.callValue ≠ 0 := by decide
  have hgas : ¬systemMessage.gasLimit < gas.syscallSnapshot := by decide
  have hcaller : ¬systemMessage.caller ≠ systemAddress := not_not.mpr rfl
  have hincome : income systemMessage .syscallSnapshot = 0 := rfl
  rw [stakingStep, hincome, Storage.credit_zero, runStakingWrite, notPayable, failIf_of_not hvalue,
    ok_bind, handleSyscallSnapshot, failIf_of_not hgas, ok_bind, failIf_of_not hcaller, ok_bind,
    failIf_of_not (by rw [hboundary]; decide)]
  rfl

/-- The block processor's epoch change goes through for any later epoch. -/
theorem epochChange_succeeds {next : Fin (2 ^ 64)} (hlt : s.epoch < next) :
    stakingStep s (systemMessage, .syscallOnEpochChange next) = .ok (changeEpoch s next) := by
  have hvalue : ¬systemMessage.callValue ≠ 0 := by decide
  have hgas : ¬systemMessage.gasLimit < gas.syscallOnEpochChange := by decide
  have hcaller : ¬systemMessage.caller ≠ systemAddress := not_not.mpr rfl
  have hincome : income systemMessage (.syscallOnEpochChange next) = 0 := rfl
  rw [stakingStep, hincome, Storage.credit_zero, runStakingWrite, notPayable, failIf_of_not hvalue,
    ok_bind, handleSyscallOnEpochChange, failIf_of_not hgas, ok_bind, failIf_of_not hcaller,
    ok_bind, failIf_of_not (not_le.mpr hlt)]
  rfl

/-- A snapshot and an epoch change: the entries of the next epoch hold the accumulator when the
validator is in the consensus set, those of earlier epochs and all accounts stay. -/
structure NextEpoch (s s' : Storage) : Prop where
  epoch_eq : s'.epoch = s.epoch + 1
  inBoundary_eq : s'.inBoundary = false
  history_eq : ∀ v, (s'.pool v).history = (s.pool v).history
  acc_eq : ∀ v, (s'.pool v).acc = (s.pool v).acc
  unclaimed_eq : ∀ v, (s'.pool v).unclaimed = (s.pool v).unclaimed
  delegators_eq : ∀ v, (s'.pool v).delegators = (s.pool v).delegators
  withdrawals_eq : ∀ v, (s'.pool v).withdrawals = (s.pool v).withdrawals
  entry_next : ∀ v, (s.pool v).inConsensus → (s'.pool v).accumulators (s.epoch + 1) =
    ((s.pool v).accumulators (s.epoch + 1)).refreshed (s.pool v).acc
  entry_le : ∀ v k, k ≤ s.epoch → (s'.pool v).accumulators k = (s.pool v).accumulators k

/-- Any orderly run goes on to the next epoch. -/
theorem exists_nextEpoch {init : Storage} (h : Reachable stakingStep CrowdGuard init s)
    (hreceived : s.received < 2 ^ 128) (hepoch : s.epoch + 1 < 2 ^ 63)
    (hboundary : s.inBoundary = false) :
    ∃ s', Reachable stakingStep CrowdGuard init s' ∧ s'.received = s.received ∧ NextEpoch s s' := by
  have hledger := takeSnapshot_sameLedger s
  have hsnap := takeSnapshot_pool s
  have hsnapshot := snapshot_succeeds hboundary
  generalize takeSnapshot s = t at *
  have hepoch₁ : t.epoch = s.epoch := hledger.epoch_eq
  have hboundary₁ : t.inBoundary = true := hledger.inBoundary_eq
  have hreceived₁ : t.received = s.received := hledger.received_eq
  have hreach₁ : Reachable stakingStep CrowdGuard init t :=
    .call _ h hsnapshot ⟨⟨by omega, by omega, by omega⟩, by intro v w h; cases h⟩
  obtain ⟨hsame, hrefresh⟩ := refreshAccumulators_spec t (s.epoch + 1)
  have hreceived₂ : (changeEpoch t (s.epoch + 1)).received = t.received := hsame.received_eq
  have hlt : t.epoch < (⟨s.epoch + 1, by omega⟩ : Fin (2 ^ 64)) := by
    rw [hepoch₁]
    exact Nat.lt_succ_self _
  have hreach₂ : Reachable stakingStep CrowdGuard init (changeEpoch t (s.epoch + 1)) :=
    .call _ hreach₁ (epochChange_succeeds hlt)
      ⟨⟨hepoch, by omega, fun _ => ⟨by rw [hepoch₁]; rfl, hboundary₁⟩⟩, by intro v w h; cases h⟩
  have hpool (v : ValId) : (changeEpoch t (s.epoch + 1)).pool v =
      if v ∈ t.snapshot.toList then (t.pool v).refreshed (s.epoch + 1) (u64Add (s.epoch + 1) 1)
      else t.pool v := by
    split
    next hmem => exact (hrefresh v).1 hmem
    next hmem => exact (hrefresh v).2 hmem
  have hkeeps {A : Type} (f : Pool → A) (v : ValId) (hsnap : f (t.pool v) = f (s.pool v))
      (hf : ∀ p k k', f (Pool.refreshed p k k') = f p) :
      f ((changeEpoch t (s.epoch + 1)).pool v) = f (s.pool v) := by
    rw [hpool]
    split
    · rw [hf, hsnap]
    · exact hsnap
  refine ⟨_, hreach₂, hreceived₂.trans hreceived₁, rfl, rfl,
    fun v => hkeeps Pool.history v (hsnap v).history_eq fun _ _ _ => rfl,
    fun v => hkeeps Pool.acc v (hsnap v).acc_eq fun _ _ _ => rfl,
    fun v => hkeeps Pool.unclaimed v (hsnap v).unclaimed_eq fun _ _ _ => rfl,
    fun v => hkeeps Pool.delegators v (hsnap v).delegators_eq fun _ _ _ => rfl,
    fun v => hkeeps Pool.withdrawals v (hsnap v).withdrawals_eq fun _ _ _ => rfl,
    fun v hmem => ?_, fun v k hk => ?_⟩
  · have hin : v ∈ t.snapshot.toList := (hsnap v).inSnapshot_iff.mpr hmem
    rw [hpool, if_pos hin]
    change (if s.epoch + 1 = s.epoch + 1 ∨ _ then _ else _) = _
    rw [if_pos (.inl rfl), (hsnap v).accumulators_eq, (hsnap v).acc_eq]
  · rw [hpool]
    split
    · have hother : ¬(k = s.epoch + 1 ∨ k = u64Add (s.epoch + 1) 1) := by
        rw [u64Add_one (by omega)]
        omega
      rw [Pool.refreshed_of_ne _ hother, (hsnap v).accumulators_eq]
    · rw [(hsnap v).accumulators_eq]

end NextEpoch

/-- A new record whose delegation has begun to earn settles with the entry of its epoch: it is
credited the growth of the accumulator since then. -/
theorem pullDelegatorUpToDate_pending {s : Storage} {v : ValId} {d : Address} {x k : ℕ}
    {del : Delegator} (hrecord : s.delegators v d = ⟨0, 0, 0, x, 0, k, 0⟩) (hx : x ≠ 0)
    (hfits : x < wordBound) (hk : k ≠ 0) (hle : k ≤ s.epoch) :
    (∃ s', pullDelegatorUpToDate s v d = .ok (del, s')) ↔
      (s.pool v).entryValue k ≤ (s.pool v).acc ∧
      ((s.pool v).acc - (s.pool v).entryValue k) * x < wordBound ∧
      rewardShare x (s.pool v).acc ((s.pool v).entryValue k) ≤ (s.pool v).unclaimed ∧
      rewardShare x (s.pool v).acc ((s.pool v).entryValue k) < wordBound ∧
      del = ⟨x, (s.pool v).acc, rewardShare x (s.pool v).acc ((s.pool v).entryValue k), 0, 0, 0,
        0⟩ := by
  have hpromote : promoteNext s.epoch (s.delegators v d) = ⟨0, 0, 0, x, 0, k, 0⟩ := by
    rw [hrecord, promoteNext, if_neg fun h => hk h.1]
  have hactive : isEpochActive s.epoch k = true := isEpochActive_iff.mpr ⟨hk, hle⟩
  have hinactive : isEpochActive s.epoch 0 = false := rfl
  have hword : 0 < wordBound := by decide +kernel
  obtain ⟨-, hpool, -, -, -⟩ := decrement_pool s k v
  have hacc : ((decrementAccumulatorRefcount s k v).2.pool v).acc = (s.pool v).acc := by
    rw [hpool]
    rfl
  have hshare (value : ℕ) : rewardShare 0 value 0 = 0 := by simp [rewardShare]
  have hcompound (y : Settling) :
      compoundTrack v d ⟨s, ⟨0, 0, 0, x, 0, k, 0⟩, (s.validators v).unclaimedRewards⟩ = .ok y ↔
        y = ⟨(decrementAccumulatorRefcount s k v).2.record v (.settled d 0),
          ⟨x, (s.pool v).entryValue k, 0, 0, 0, 0, 0⟩, (s.pool v).unclaimed⟩ := by
    rw [compoundTrack_eq_ok]
    simp only [hshare, Nat.mul_zero, Nat.zero_add, Nat.sub_zero, Nat.zero_le, hword, hfits,
      true_and, Delegator.compounded, Delegator.shiftNext, Nat.add_zero]
    rfl
  have haccrue (y : Settling) : accrueActive v d ⟨(decrementAccumulatorRefcount s k v).2.record v
      (.settled d 0), ⟨x, (s.pool v).entryValue k, 0, 0, 0, 0, 0⟩, (s.pool v).unclaimed⟩ = .ok y ↔
        _ := accrueActive_eq_ok hx
  simp only [pool_record, Pool.record, hacc, Nat.zero_add] at haccrue
  unfold pullDelegatorUpToDate
  rw [hpromote]
  dsimp only
  rw [hactive, hinactive]
  simp only [compoundIf, Bool.false_eq_true, if_false, if_true, ok_bind, bind_eq_ok, pure_eq_ok,
    Prod.mk.injEq, hcompound, exists_eq_left, haccrue]
  constructor
  · rintro ⟨s', y, ⟨hle, hmul, hsolvent, hsum, rfl⟩, rfl, -⟩
    exact ⟨hle, hmul, hsolvent, hsum, by simp [Delegator.accrued]⟩
  · rintro ⟨hle, hmul, hsolvent, hsum, rfl⟩
    exact ⟨_, _, ⟨hle, hmul, hsolvent, hsum, rfl⟩, by simp [Delegator.accrued], rfl⟩

/-- The state at the beginning of epoch `2`, when the delegations of `n` members begin to earn. -/
structure Gathered (s₁ : Storage) (n : ℕ) (s : Storage) : Prop where
  after : Reachable stakingStep CrowdGuard s₁ s
  received_lt : s.received < 2 ^ 128
  epoch_eq : s.epoch = 2
  inBoundary_eq : s.inBoundary = false
  acc_eq : (s.pool 1).acc = 2 * unitBias
  unclaimed_eq : (s.pool 1).unclaimed = maxExternalReward
  record_eq : ∀ m, m.val < n → s.delegators 1 (crowd m) = ⟨0, 0, 0, crowdStake m, 0, 2, 0⟩
  request_eq : (s.pool 1).withdrawals 7 0 = ⟨dustThreshold, unitBias, 2⟩
  refcount_eq : ((s.pool 1).accumulators 2).refcount = (n + 1) % 2 ^ 64
  entryValue_eq : (s.pool 1).entryValue 2 = if (n + 1) % 2 ^ 64 = 0 then 0 else 2 * unitBias
  log_eq : (s.pool 1).log = [(1, unitBias), (1, unitBias)]
  events_eq : ∀ m, ∀ e ∈ (s.pool 1).history, e.account = some (crowd m) →
    e = .delegated (crowd m) (crowdStake m) 2
  requests_eq : ∀ m w, (s.pool 1).withdrawals (crowd m) w = .zero

/-- The delegations of any number of members begin to earn. -/
theorem exists_gathered {n : ℕ} (hn : n ≤ 2 ^ 64) :
    ∃ s₀ s₁ s, CrowdStart s₀ s₁ ∧ Gathered s₁ n s := by
  obtain ⟨s₀, s₁, s, hstart, h⟩ := exists_crowded hn
  have hreceived : s.received < 2 ^ 128 := by
    have hle := h.received_le
    have hdust : dustThreshold = 10 ^ 9 := rfl
    unfold crowdBound at hle
    rw [hdust] at hle
    omega
  obtain ⟨s', hafter, hsame, hnext⟩ := exists_nextEpoch h.after hreceived
    (by rw [h.epoch_eq]; decide) h.inBoundary_eq
  have hepoch := h.epoch_eq
  have hentry := hnext.entry_next 1 h.inConsensus
  rw [hepoch] at hentry
  have hrefcount : ((s'.pool 1).accumulators 2).refcount = (n + 1) % 2 ^ 64 := by
    rw [hentry, RefCountedAccumulator.refreshed_refcount, h.refcount_eq]
  have hlog : (s'.pool 1).log = (s.pool 1).log := by
    rw [Pool.log, hnext.history_eq]
    rfl
  refine ⟨s₀, s₁, s', hstart, hafter, hsame ▸ hreceived, by rw [hnext.epoch_eq, hepoch],
    hnext.inBoundary_eq,
    (hnext.acc_eq 1).trans h.acc_eq, (hnext.unclaimed_eq 1).trans h.unclaimed_eq, fun m hm => ?_,
    ?_, hrefcount, ?_, hlog.trans h.log_eq, fun m e he => ?_, fun m w => ?_⟩
  · have hrecord := congrFun (hnext.delegators_eq 1) (crowd m)
    rw [h.record_eq m, if_pos hm] at hrecord
    exact hrecord
  · rw [hnext.withdrawals_eq 1]
    exact h.request_eq
  · rw [Pool.entryValue, hrefcount]
    by_cases hzero : (n + 1) % 2 ^ 64 = 0
    · rw [if_pos hzero, if_pos hzero]
    · have hold : ((s.pool 1).accumulators 2).refcount ≠ 0 := by
        rw [h.refcount_eq]
        exact hzero
      rw [if_neg hzero, if_neg hzero, hentry, RefCountedAccumulator.refreshed,
        if_pos (Nat.pos_of_ne_zero hold), h.acc_eq]
  · rw [hnext.history_eq] at he
    exact h.events_eq m e he
  · rw [hnext.withdrawals_eq]
    exact h.requests_eq m w

/-- A crowd whose references come round to zero is settled with the accumulator itself, so the
first member is owed more than all unclaimed rewards, and its settlement fails. -/
theorem crowd_uncovered : ∃ s, Reachable stakingStep Orderly .empty s ∧
    ¬CoversRewards s 1 := by
  obtain ⟨s₀, s₁, s, hstart, h⟩ := exists_gathered (show 2 ^ 64 - 1 ≤ 2 ^ 64 by omega)
  refine ⟨s, hstart.reachable_after h.after, fun hcovers => ?_⟩
  obtain ⟨⟨del, s'⟩, hpull⟩ := exists_of_isOk (hcovers.settles (crowd 0))
  have hentry := h.entryValue_eq
  rw [if_pos (by decide)] at hentry
  have hrecord := h.record_eq 0 (by decide)
  obtain ⟨-, -, hsolvent, -, -⟩ := (pullDelegatorUpToDate_pending hrecord (by decide)
    (by decide +kernel) (by decide) (by rw [h.epoch_eq])).mp ⟨s', hpull⟩
  rw [hentry, h.acc_eq, h.unclaimed_eq] at hsolvent
  exact absurd hsolvent (by decide +kernel)

end SuwappuRevm.Staking
