import SuwappuRevm.Staking.Crowd
import SuwappuRevm.Staking.Operations

/-!
# Runs with further settlements

Two runs that make the same calls, but for settlements of one account that only the second makes,
stay side by side: every other call succeeds in both or in neither, and the account trails by at
most one unit of rewards for each further settlement. References that come round to zero break
this, since the first settlement then clears the entry that the next one reads.
-/

namespace SuwappuRevm.Staking

open Foundations

section Side

variable {v : ValId} {d : Address} {k : ℕ} {s t s' : Storage} {tx : Message × StakingCall}

/-- What a successful call brings in has been received. -/
theorem stakingStep_received (hreg : Registered s) (horder : ∀ v, s.InOrder v)
    (h : stakingStep s tx = .ok s') : s'.received = s.received + income tx.1 tx.2 := by
  obtain ⟨-, heffect⟩ := stakingStep_effect hreg horder h
  cases heffect with
  | onPool v i o hstep => exact hstep.received_eq
  | snapshot hincome hboundary htake =>
    rw [htake, hincome]
    exact (takeSnapshot_sameLedger s).received_eq
  | epochChange next hincome hlt hchange =>
    rw [hchange, hincome]
    exact (refreshAccumulators_spec s next).1.received_eq

/-- A failing call is an attempt that would not bring in too much. -/
def ValueBounded (s : Storage) (tx : Message × StakingCall) : Prop :=
  s.received + income tx.1 tx.2 < 2 ^ 128

/-- A `getDelegator` call is the settlement. -/
theorem settleStep_eq_ok {msg : Message} : stakingStep s (msg, .getDelegator v d) = .ok s' ↔
    msg.callValue = 0 ∧ gas.getDelegator ≤ msg.gasLimit ∧
      ∃ del, pullDelegatorUpToDate s v d = .ok (del, s') := by
  have hincome : income msg (.getDelegator v d) = msg.callValue := rfl
  simp only [stakingStep, bind_eq_ok, pure_eq_ok, hincome, runStakingWrite, notPayable,
    failIf_eq_ok, ne_eq, not_not, handleGetDelegatorWrite, not_lt]
  constructor
  · rintro ⟨answer, ⟨-, hvalue, -, hgas, ⟨del, u⟩, hpull, rfl⟩, rfl⟩
    rw [hvalue, Storage.credit_zero] at hpull
    exact ⟨hvalue, hgas, del, hpull⟩
  · rintro ⟨hvalue, hgas, del, hpull⟩
    rw [hvalue, Storage.credit_zero]
    exact ⟨⟨s', gas.getDelegator, .delegator del⟩, ⟨(), rfl, (), hgas, (del, s'), hpull, rfl⟩, rfl⟩

/-- A settlement is orderly where the state before it is in range. -/
theorem orderly_settleStep {msg : Message} {del : Delegator} (hepoch : s.epoch < 2 ^ 63)
    (hreceived : s.received < 2 ^ 128) (h : pullDelegatorUpToDate s v d = .ok (del, s')) :
    Orderly s (msg, .getDelegator v d) s' := by
  obtain ⟨htouches, -, -⟩ := pullDelegatorUpToDate_touches h
  rw [Orderly, htouches.epoch_eq, htouches.received_eq]
  exact ⟨hepoch, hreceived, fun hlt => absurd hlt (lt_irrefl _)⟩

/-- Two states of runs that differ in settlements of one account. -/
structure Shadows (v : ValId) (d : Address) (k : ℕ) (s t : Storage) : Prop where
  left : Reachable stakingStep OrderlyCounted .empty s
  right : Reachable stakingStep OrderlyCounted .empty t
  shell : SameShell v s t
  beside : (s.pool v).Beside s.epoch d k (t.pool v)

namespace Shadows

/-- A state is beside itself. -/
theorem refl (h : Reachable stakingStep OrderlyCounted .empty s) (v : ValId) (d : Address) :
    Shadows v d 0 s s :=
  ⟨h, h, .refl v s, fun _ _ => rfl, rfl, (Delegator.Near.refl 0 _).trails⟩

/-- Such states are twins, also with the value of a call. -/
theorem twins (h : Shadows v d k s t) (amount : ℕ) :
    Twins v d (s.credit amount) (t.credit amount) where
  shell := h.shell.credit amount
  delegators_eq := h.beside.off
  log_eq := h.beside.log_eq
  epoch_lt := by
    have hepoch := (reachable_solvent h.left v).1
    change s.epoch + 2 < 2 ^ 64
    omega
  solvent_left v' := (reachable_solvent h.left v').2
  solvent_right v' := (reachable_solvent h.right v').2

/-- Ids are registered and epochs in order in every state of an orderly run. -/
theorem registered (h : Reachable stakingStep OrderlyCounted .empty s) :
    Registered s ∧ ∀ v, s.InOrder v := by
  have hepoch := (reachable_solvent h 0).1
  exact reachable_inOrder h (by omega)

/-- The second state refers to no entry more often. -/
theorem references_le (hshell : SameShell v s t)
    (hb : (s.pool v).Beside s.epoch d k (t.pool v)) (v' : ValId) (e : ℕ) :
    (t.pool v').references e ≤ (s.pool v').references e := by
  by_cases hv : v' = v
  · subst hv
    refine Finset.sum_le_sum fun c _ => ?_
    have hrequests : (t.pool v').withdrawals = (s.pool v').withdrawals :=
      congrFun hshell.withdrawals_eq.symm v'
    rw [Pool.referencesOf, Pool.referencesOf, hrequests]
    refine Nat.add_le_add_right ?_ _
    by_cases hc : c = d
    · rw [hc]
      exact hb.trails.references_le e
    · rw [hb.off c hc]
  · rw [hshell.pool_eq hv]

/-- A call of others that succeeds does so on both sides. -/
theorem call (h : Shadows v d k s t) (hothers : OfOthers d tx) (hs : stakingStep s tx = .ok s')
    (hguard : OrderlyCounted s tx s') :
    ∃ t', stakingStep t tx = .ok t' ∧ OrderlyCounted t tx t' ∧ Shadows v d k s' t' := by
  obtain ⟨hreg, horder⟩ := registered h.left
  obtain ⟨hreg', -⟩ := registered h.right
  have hreceived := stakingStep_received hreg horder hs
  have hvalue : income tx.1 tx.2 < 2 ^ 128 := by
    have hbound := hguard.1.2.1
    omega
  have htwins := h.twins (income tx.1 tx.2)
  have hstep := hs
  simp only [stakingStep, bind_eq_ok, pure_eq_ok] at hs
  obtain ⟨answer, hs, rfl⟩ := hs
  obtain ⟨answer', ht, hshell⟩ := htwins.runStakingWrite (hreg.credit _) (hreg'.credit _) hothers
    hvalue answer hs
  have hb : (answer.storage.pool v).Beside answer.storage.epoch d k (answer'.storage.pool v) :=
    runStakingWrite_beside htwins h.beside (hreg.credit _) (hreg'.credit _) hothers hs ht
  have hshell : SameShell v answer.storage answer'.storage := hshell
  have hstep' : stakingStep t tx = .ok answer'.storage := by
    simp only [stakingStep, bind_eq_ok, pure_eq_ok]
    exact ⟨answer', ht, rfl⟩
  have hguard' : OrderlyCounted t tx answer'.storage := by
    obtain ⟨⟨hepoch, hreceived, hnext⟩, hcount⟩ := hguard
    rw [hshell.epoch_eq] at hepoch hnext
    rw [hshell.received_eq] at hreceived
    rw [h.shell.epoch_eq, h.shell.inBoundary_eq] at hnext
    exact ⟨⟨hepoch, hreceived, hnext⟩, fun v' e =>
      (references_le hshell hb v' e).trans_lt (hcount v' e)⟩
  exact ⟨answer'.storage, hstep', hguard', .call tx h.left hstep hguard,
    .call tx h.right hstep' hguard', hshell, hb⟩

/-- A call of others that fails does so on both sides. -/
theorem revert (h : Shadows v d k s t) (hothers : OfOthers d tx) {e : PrecompileError}
    (hs : stakingStep s tx = .error e) (hvalue : ValueBounded s tx) :
    (∃ e', stakingStep t tx = .error e') ∧ ValueBounded t tx := by
  have hbound : income tx.1 tx.2 < 2 ^ 128 := by
    unfold ValueBounded at hvalue
    omega
  refine ⟨?_, by rwa [ValueBounded, ← h.shell.received_eq]⟩
  cases ht : stakingStep t tx with
  | error e' => exact ⟨e', rfl⟩
  | ok t' =>
    simp only [stakingStep, bind_eq_ok, pure_eq_ok] at ht
    obtain ⟨answer, ht, -⟩ := ht
    obtain ⟨answer', hback, -⟩ := (h.twins _).symm.runStakingWrite
      ((registered h.right).1.credit _) ((registered h.left).1.credit _) hothers hbound answer ht
    rw [stakingStep, hback] at hs
    cases hs

/-- A settlement of the account alone on the second side costs one more unit. -/
theorem settle (h : Shadows v d k s t) {msg : Message} (hvalue : msg.callValue = 0)
    (hgas : gas.getDelegator ≤ msg.gasLimit) :
    ∃ t', stakingStep t (msg, .getDelegator v d) = .ok t' ∧
      OrderlyCounted t (msg, .getDelegator v d) t' ∧ Shadows v d (k + 1) s t' := by
  obtain ⟨hepoch, hp⟩ := reachable_solvent h.right v
  obtain ⟨del, t', hpull, -⟩ := pullDelegatorUpToDate_succeeds (by omega) hp d
  obtain ⟨htouches, -, hself⟩ := pullDelegatorUpToDate_touches hpull
  have hpool := pullDelegatorUpToDate_pool hpull
  have hrewrites := (t.pool v).pulled_rewrites t.epoch d
  have hrecord := hp.sound.pulled_record (by omega) hp.epochs d
  rw [← hpool] at hrewrites hrecord
  have hlast : (t.delegators v d).accumulatedRewardPerToken ≤ indexTotal (t.pool v).log := by
    rw [← hp.sound.acc_eq]
    exact (hp.sound.ordered d).last_le
  have hb : (s.pool v).Beside s.epoch d (k + 1) (t'.pool v) := by
    refine ⟨fun c hc => ?_, ?_, ?_⟩
    · rw [hrewrites.off c hc]
      exact h.beside.off c hc
    · rw [hrewrites.log_eq]
      exact h.beside.log_eq
    · rw [hrecord, ← h.beside.log_eq, ← h.shell.epoch_eq]
      have hr := hp.epochs d
      have htimes := hp.sound.times
      rw [← h.shell.epoch_eq] at hr htimes
      rw [← h.beside.log_eq] at hlast htimes
      exact h.beside.trails.cut hr htimes hlast
  have hshell : SameShell v s t' :=
    h.shell.trans (show SameShell v t t' from (pullDelegatorUpToDate_shell hpull).symm)
  have hstep : stakingStep t (msg, .getDelegator v d) = .ok t' :=
    settleStep_eq_ok.mpr ⟨hvalue, hgas, del, hpull⟩
  have hreceived := h.right.invariant (fun s => s.received < 2 ^ 128) (by decide)
    fun _ _ _ _ _ hg => hg.1.2.1
  have hguard : OrderlyCounted t (msg, .getDelegator v d) t' :=
    ⟨orderly_settleStep hepoch hreceived hpull, fun v' e =>
      (references_le hshell hb v' e).trans_lt (reachable_references_lt h.left v' e)⟩
  exact ⟨t', hstep, hguard, h.left, .call _ h.right hstep hguard, hshell, hb⟩

/-- The second side may trail by more. -/
theorem mono {k' : ℕ} (h : Shadows v d k s t) (hle : k ≤ k') : Shadows v d k' s t :=
  ⟨h.left, h.right, h.shell, h.beside.off, h.beside.log_eq, h.beside.trails.mono hle⟩

/-- The final settlements differ in no more than the rewards. -/
theorem near (h : Shadows v d k s t) : ∃ del s' del' t',
    pullDelegatorUpToDate s v d = .ok (del, s') ∧
      pullDelegatorUpToDate t v d = .ok (del', t') ∧ Delegator.Near k del del' := by
  obtain ⟨hepoch, hp⟩ := reachable_solvent h.left v
  obtain ⟨hepoch', hq⟩ := reachable_solvent h.right v
  obtain ⟨del, s', hs, -⟩ := pullDelegatorUpToDate_succeeds (by omega) hp d
  obtain ⟨del', t', ht, -⟩ := pullDelegatorUpToDate_succeeds (by omega) hq d
  refine ⟨del, s', del', t', hs, ht, ?_⟩
  rw [← pullDelegatorUpToDate_record hs, ← pullDelegatorUpToDate_record ht,
    hp.sound.pulled_record (by omega) hp.epochs, hq.sound.pulled_record (by omega) hq.epochs,
    ← h.shell.epoch_eq, ← h.beside.log_eq]
  exact h.beside.trails.near s.epoch (s.pool v).log le_rfl (by omega) (.refl ..)

end Shadows

end Side

section Harmless

/-- A `getDelegator` call, from anybody, that settles an account. -/
def Settles (v : ValId) (d : Address) (tx : Message × StakingCall) : Prop :=
  ∃ msg : Message, msg.callValue = 0 ∧ tx = (msg, .getDelegator v d)

/-- What settlements of an account can do from a state on: a second one in a row changes nothing
that is stored, and `n` further ones in a stretch of calls by others leave the account, once it is
settled at last, as it would be, but for at most `n` units of rewards. -/
structure SettlesHarmlessly (guard : Storage → Message × StakingCall → Storage → Prop)
    (s : Storage) (v : ValId) (d : Address) : Prop where
  twice : ∃ del s₁ history, pullDelegatorUpToDate s v d = .ok (del, s₁) ∧
    pullDelegatorUpToDate s₁ v d = .ok (del, { s₁ with history := history })
  stretch : ∀ calls calls' n s', (∀ tx ∈ calls, OfOthers d tx) →
    Inserted (Settles v d) n calls calls' → Runs stakingStep guard ValueBounded s calls s' →
      ∃ t', Runs stakingStep guard ValueBounded s calls' t' ∧
        ∃ del s₁ del' t₁, pullDelegatorUpToDate s' v d = .ok (del, s₁) ∧
          pullDelegatorUpToDate t' v d = .ok (del', t₁) ∧ Delegator.Near n del del'

variable {v : ValId} {d : Address} {k : ℕ} {s t : Storage} {tx : Message × StakingCall}

/-- An inserted settlement goes through or changes nothing. -/
theorem Shadows.insert (h : Shadows v d k s t) (htx : Settles v d tx) :
    (∃ t', stakingStep t tx = .ok t' ∧ OrderlyCounted t tx t' ∧ Shadows v d (k + 1) s t') ∨
      (∃ e, stakingStep t tx = .error e) ∧ ValueBounded t tx ∧ Shadows v d (k + 1) s t := by
  obtain ⟨msg, hvalue, rfl⟩ := htx
  by_cases hgas : gas.getDelegator ≤ msg.gasLimit
  · exact .inl (h.settle hvalue hgas)
  · refine .inr ⟨⟨.outOfGas, ?_⟩, ?_, h.mono (Nat.le_add_right ..)⟩
    · rw [stakingStep, runStakingWrite, notPayable, failIf_of_not (not_not.mpr hvalue), ok_bind,
        handleGetDelegatorWrite, failIf_of (not_le.mp hgas)]
      rfl
    · have hincome : income msg (.getDelegator v d) = 0 := hvalue
      rw [ValueBounded, hincome]
      exact h.right.invariant (fun s => s.received < 2 ^ 128) (by decide)
        fun _ _ _ _ _ hg => hg.1.2.1

/-- Settlement is idempotent and cannot be used to grief: in every orderly run with countable
references a second settlement in a row changes nothing, and every further settlement of an account
by anybody costs its owner at most one unit of rewards. -/
theorem settlement_harmless (h : Reachable stakingStep OrderlyCounted .empty s) (v : ValId)
    (d : Address) : SettlesHarmlessly OrderlyCounted s v d where
  twice := by
    obtain ⟨hepoch, hp⟩ := reachable_solvent h v
    have hcur : s.epoch + 1 < 2 ^ 64 := by omega
    obtain ⟨del, s₁, hpull, -⟩ := pullDelegatorUpToDate_succeeds (by omega) hp d
    obtain ⟨htouches, -, hself⟩ := pullDelegatorUpToDate_touches hpull
    have hrest := pullDelegatorUpToDate_leaves_atRest hcur (hp.epochs d) hpull
    have hsolvent := ((pullDelegatorUpToDate_spec hcur (hp.epochs d) hpull).1.solvent (by omega) hp)
    have hfits : (s₁.delegators v d).rewards < wordBound := by
      have hle := Pool.held_le (s₁.pool v) d
      have hheld : (s₁.delegators v d).rewards ≤ Pool.held ((s₁.pool v).delegators d) :=
        Nat.le_add_left ..
      have hbound := hsolvent.bound
      have hword : (2 : ℕ) ^ 128 < wordBound := by decide
      omega
    obtain ⟨history, hagain⟩ := pullDelegatorUpToDate_atRest
      (by rw [htouches.epoch_eq]; exact hcur) hrest hfits
    rw [hself] at hagain
    exact ⟨del, s₁, history, hpull, hagain⟩
  stretch calls calls' n s' hothers hinserted hrun := by
    have hrule := @Runs.insert Storage (Message × StakingCall) PrecompileError stakingStep
      OrderlyCounted ValueBounded (Shadows v d) (OfOthers d) (Settles v d)
      (fun _ _ _ _ _ hrel hothers hstep hguard => hrel.call hothers hstep hguard)
      (fun _ _ _ _ _ hrel hothers hstep hvalue => hrel.revert hothers hstep hvalue)
      (fun _ _ _ _ hrel htx => hrel.insert htx)
    obtain ⟨t', hruns, hlast⟩ := hrule hinserted hothers hrun (.refl h v d)
    rw [Nat.zero_add] at hlast
    exact ⟨t', hruns, hlast.near⟩

/-- Settlements of a small delegation are harmless in the opened state. -/
theorem settlement_harmless_opened : SettlesHarmlessly OrderlyCounted openedState 1 9 :=
  settlement_harmless openedState_orderlyCounted 1 9

end Harmless

section Griefed

variable {p : Pool} {cur x k : ℕ} {d : Address}

/-- What a settlement of a new record whose delegation has begun to earn does to its pool: it drops
the reference to the entry of its epoch. -/
theorem Pool.pulled_pending (hrecord : p.delegators d = ⟨0, 0, 0, x, 0, k, 0⟩) (hk : k ≠ 0)
    (hle : k ≤ cur) : (p.pulled cur d).accumulators = (p.release k).accumulators := by
  have hkept : promoteNext cur (p.delegators d) = p.delegators d := by
    rw [hrecord, promoteNext, if_neg fun h => hk h.1]
  have hsame : p.promoted cur d = p := by
    rw [promoted, hkept, setDelegator, Function.update_eq_self]
  have hactive : isEpochActive cur k = true := isEpochActive_iff.mpr ⟨hk, hle⟩
  have hinactive : isEpochActive cur 0 = false := rfl
  have haccrued (q : Pool) : (q.accrued d).accumulators = q.accumulators := by
    unfold accrued
    split <;> rfl
  rw [pulled, haccrued, hsame, hrecord]
  dsimp only
  rw [hactive, hinactive]
  change (p.release (p.delegators d).deltaEpoch).accumulators = _
  rw [hrecord]

variable {s s' s₁ : Storage} {m m' : Fin (2 ^ 64)} {del : Delegator}

namespace Gathered

variable (h : Gathered s₁ (2 ^ 64) s)

include h

/-- The members but the first wait for the entry of epoch `2`. -/
theorem waiting (hm : m ≠ 0) :
    (s.pool 1).delegators (crowd m) = ⟨0, 0, 0, dustThreshold, 0, 2, 0⟩ := by
  have hrecord := h.record_eq m m.isLt
  rw [crowdStake, if_neg hm] at hrecord
  exact hrecord

/-- The first settlement of a member credits nothing. -/
theorem settles (hm : m ≠ 0) : ∃ s', pullDelegatorUpToDate s 1 (crowd m) =
    .ok (⟨dustThreshold, 2 * unitBias, 0, 0, 0, 0, 0⟩, s') := by
  have hentry := h.entryValue_eq
  rw [if_neg (by norm_num)] at hentry
  refine (pullDelegatorUpToDate_pending (h.waiting hm) (by decide) (by decide +kernel)
    (by decide) (by rw [h.epoch_eq])).mpr ?_
  rw [hentry, h.acc_eq, rewardShare_self, Nat.sub_self, Nat.zero_mul]
  exact ⟨le_rfl, by decide +kernel, Nat.zero_le _, by decide +kernel, rfl⟩

/-- It clears the entry for the others. -/
theorem clears (hm : m ≠ 0) (hm' : m' ≠ 0) (hne : m' ≠ m)
    (hpull : pullDelegatorUpToDate s 1 (crowd m) = .ok (del, s')) :
    s'.epoch = 2 ∧ (s'.pool 1).acc = 2 * unitBias ∧ (s'.pool 1).entryValue 2 = 0 ∧
      (s'.pool 1).delegators (crowd m') = ⟨0, 0, 0, dustThreshold, 0, 2, 0⟩ := by
  obtain ⟨htouches, -, -⟩ := pullDelegatorUpToDate_touches hpull
  have hupkeep := (s.pool 1).pulled_upkeep s.epoch (crowd m)
  have hcount := h.refcount_eq
  have hdropped := Pool.pulled_pending (h.waiting hm) (by decide) (le_refl 2)
  rw [show (2 ^ 64 + 1) % 2 ^ 64 = 1 by norm_num] at hcount
  rw [pullDelegatorUpToDate_pool hpull]
  refine ⟨htouches.epoch_eq.trans h.epoch_eq, hupkeep.acc_eq.trans h.acc_eq, ?_, ?_⟩
  · have hentry : ((s.pool 1).pulled 2 (crowd m)).accumulators 2 = ⟨0, 0⟩ := by
      have hreleased : ((s.pool 1).release 2).accumulators 2 =
          Pool.releaseEntry ((s.pool 1).accumulators 2) := by
        simp only [Pool.release, Pool.setEntry, Function.update_self]
      rw [hdropped, hreleased, Pool.releaseEntry, hcount]
      rfl
    rw [Pool.entryValue, h.epoch_eq, hentry]
    rfl
  · rw [hupkeep.off _ fun heq => hne (crowd_injective heq)]
    exact h.waiting hm'

/-- A member settled after that is credited the whole accumulator. -/
theorem settles_cleared (hm : m ≠ 0) (hm' : m' ≠ 0) (hne : m' ≠ m)
    (hpull : pullDelegatorUpToDate s 1 (crowd m) = .ok (del, s')) :
    ∃ s'', pullDelegatorUpToDate s' 1 (crowd m') =
      .ok (⟨dustThreshold, 2 * unitBias, 2 * dustThreshold, 0, 0, 0, 0⟩, s'') := by
  obtain ⟨hepoch, hacc, hentry, hrecord⟩ := h.clears hm hm' hne hpull
  obtain ⟨u, hfirst⟩ := h.settles hm
  obtain ⟨rfl, rfl⟩ := Prod.mk.inj (Except.ok.inj (hpull.symm.trans hfirst))
  have hpulled := pullDelegatorUpToDate_record hpull
  have hunclaimed : (s'.pool 1).unclaimed = maxExternalReward := by
    rw [pullDelegatorUpToDate_pool hpull, Pool.pulled_unclaimed, Pool.newRewards, hpulled,
      Nat.zero_sub, Nat.sub_zero, h.unclaimed_eq]
  refine (pullDelegatorUpToDate_pending hrecord (by decide) (by decide +kernel) (by decide)
    (by rw [hepoch])).mpr ?_
  rw [hentry, hacc, hunclaimed]
  decide +kernel

end Gathered

/-- A member settled before is credited nothing. -/
theorem pullDelegatorUpToDate_settled (hepoch : s.epoch = 2)
    (hacc : (s.pool 1).acc = 2 * unitBias)
    (hrecord : (s.pool 1).delegators (crowd m) = ⟨dustThreshold, 2 * unitBias, 0, 0, 0, 0, 0⟩)
    (hpull : pullDelegatorUpToDate s 1 (crowd m) = .ok (del, s')) : del.rewards = 0 := by
  have hrest : (s.pool 1).AtRest s.epoch (crowd m) := by
    refine ⟨?_, fun _ => ?_⟩
    · rw [hrecord]
      exact ⟨.inl rfl, .inl rfl⟩
    · rw [hrecord, hacc]
  rw [← pullDelegatorUpToDate_record hpull,
    hrest.pulled_delegators (by rw [hepoch]; decide), hrecord]

/-- In a crowd that counts one reference where there are `2 ^ 64 + 1`, the settlement of one member
clears the entry of all: another one that has not been settled before is credited the whole
accumulator, one that has is credited nothing. -/
theorem crowd_settlement_griefs : ¬∀ s v d, Reachable stakingStep Orderly .empty s →
    SettlesHarmlessly Orderly s v d := by
  intro hall
  obtain ⟨s₀, s₁, s, hstart, h⟩ := exists_gathered (le_refl (2 ^ 64))
  have hreach := hstart.reachable_after h.after
  have hvalue : (userMessage 9 0 payer_ne_staking).callValue = 0 := rfl
  have hgas : gas.getDelegator ≤ (userMessage 9 0 payer_ne_staking).gasLimit := by decide
  have horderly {d : Address} {u : Storage} {del : Delegator}
      (hpull : pullDelegatorUpToDate s 1 d = .ok (del, u)) :
      Orderly s (userMessage 9 0 payer_ne_staking, .getDelegator 1 d) u :=
    orderly_settleStep (by rw [h.epoch_eq]; decide) h.received_lt hpull
  -- without a further settlement, the second member reads a cleared entry
  obtain ⟨s', hfirst⟩ := h.settles (m := 1) (by decide)
  have hrun : Runs stakingStep Orderly ValueBounded s
      [(userMessage 9 0 payer_ne_staking, .getDelegator 1 (crowd 1))] s' :=
    .call (settleStep_eq_ok.mpr ⟨hvalue, hgas, _, hfirst⟩) (horderly hfirst) (.nil s')
  have hothers : ∀ tx ∈ [(userMessage 9 0 payer_ne_staking, StakingCall.getDelegator 1 (crowd 1))],
      OfOthers (crowd 2) tx := by
    intro tx htx
    rw [List.mem_singleton.mp htx]
    exact show (9 : Address) ≠ crowd 2 by decide
  obtain ⟨t', hruns, del, u, del', u', hu, hu', hnear⟩ := (hall s 1 (crowd 2) hreach).stretch _ _ 1
    s' hothers (.insert ⟨userMessage 9 0 payer_ne_staking, hvalue, rfl⟩ (.keep _ .nil)) hrun
  have hother : (2 : Fin (2 ^ 64)) ≠ 0 := by decide
  obtain ⟨u₁, hsecond⟩ := h.settles_cleared (by decide) hother (by decide) hfirst
  obtain ⟨rfl, rfl⟩ := Prod.mk.inj (Except.ok.inj (hu.symm.trans hsecond))
  -- with one, it has been settled before
  have hnone : del'.rewards = 0 := by
    obtain ⟨t, hsecond⟩ := h.settles (m := 2) (by decide)
    have hstep := settleStep_eq_ok.mpr ⟨hvalue, hgas, _, hsecond⟩
    obtain ⟨htouches, -, hself⟩ := pullDelegatorUpToDate_touches hsecond
    have hacc₁ : (t.pool 1).acc = 2 * unitBias := by
      rw [pullDelegatorUpToDate_pool hsecond, (Pool.pulled_upkeep ..).acc_eq, h.acc_eq]
    have hepoch₁ : t.epoch = 2 := htouches.epoch_eq.trans h.epoch_eq
    cases hruns with
    | revert hfail => rw [hstep] at hfail; cases hfail
    | call hok hguard hrest =>
      obtain rfl := Except.ok.inj (hstep.symm.trans hok)
      cases hrest with
      | revert hfail hbounded hnil =>
        cases hnil
        exact pullDelegatorUpToDate_settled hepoch₁ hacc₁ hself hu'
      | call hlast hguard hnil =>
        cases hnil
        obtain ⟨-, -, del₁, hlast⟩ := settleStep_eq_ok.mp hlast
        obtain ⟨htouches', -, -⟩ := pullDelegatorUpToDate_touches hlast
        have hupkeep := (t.pool 1).pulled_upkeep t.epoch (crowd 1)
        rw [← pullDelegatorUpToDate_pool hlast] at hupkeep
        refine pullDelegatorUpToDate_settled (htouches'.epoch_eq.trans hepoch₁)
          (hupkeep.acc_eq.trans hacc₁) ?_ hu'
        exact (hupkeep.off _ fun heq => absurd (crowd_injective heq) (by decide)).trans hself
  have hle : 2 * dustThreshold ≤ del'.rewards + 1 := hnear.le_add
  rw [hnone] at hle
  exact absurd hle (by decide)

end Griefed

end SuwappuRevm.Staking
