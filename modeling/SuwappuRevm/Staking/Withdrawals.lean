import SuwappuRevm.Staking.Crowd
import SuwappuRevm.Staking.Ownership

/-!
# Withdrawal requests are paid once

An open request is written by nobody: its id is taken, and a withdrawal is the only call that
closes it. The epoch of the request and the withdrawal delay keep it from being paid early. From
then on the entry of its epoch is alive and the unclaimed rewards cover it, so it is paid whenever
its owner asks, and once.
-/

namespace SuwappuRevm.Staking

open Foundations Finset

section Requests

variable {s s' : Storage} {msg : Message} {call : StakingCall} {answer : Answer}

/-- A claim leaves all requests alone. -/
theorem Pool.claimed_withdrawals (p : Pool) (cur : ℕ) (c : Address) :
    (p.claimed cur c).withdrawals = p.withdrawals := by
  unfold claimed
  dsimp only
  split <;> exact (p.pulled_upkeep cur c).withdrawals_eq

/-- A compounding leaves all requests alone. -/
theorem Pool.restaked_withdrawals (p : Pool) (cur : ℕ) (b : Bool) (c : Address) :
    (p.restaked cur b c).withdrawals = p.withdrawals := by
  have hupkeep := p.pulled_upkeep cur c
  unfold restaked
  dsimp only
  split
  · exact hupkeep.withdrawals_eq
  · exact (((p.pulled cur c).take c).pulled_upkeep cur c).withdrawals_eq.trans
      hupkeep.withdrawals_eq

/-- An undelegation leaves the other requests of its caller alone. -/
theorem Pool.undelegated_other (p : Pool) (cur : ℕ) (b : Bool) (c : Address) (amount : ℕ)
    {w w' : WithdrawId} (hw : w ≠ w') :
    (p.undelegated cur b c amount w').withdrawals c w = p.withdrawals c w := by
  have hrow : (p.undelegated cur b c amount w').withdrawals c =
      Function.update ((p.pulled cur c).withdrawals c) w' _ := Function.update_self ..
  rw [hrow, Function.update_of_ne hw, (p.pulled_upkeep cur c).withdrawals_eq]

/-- What a call can do to a request: its owner opens it when it is not open, or withdraws it. -/
theorem runStakingWrite_requests (hreg : Registered s)
    (h : runStakingWrite s msg call = .ok answer) (v : ValId) (d : Address) (w : WithdrawId) :
    answer.storage.withdrawals v d w = s.withdrawals v d w ∨
      d = msg.caller ∧ (∃ amount, amount ≠ 0 ∧ call = .undelegate v amount w ∧
        (s.withdrawals v d w).amount = 0) ∨
      d = msg.caller ∧ call = .withdraw v w ∧ answer.storage.withdrawals v d w = .zero := by
  have hof {v' : ValId} (htouches : Touches v' s answer.storage)
      (hsame : v = v' → (answer.storage.pool v).withdrawals = (s.pool v).withdrawals) :
      answer.storage.withdrawals v d w = s.withdrawals v d w := by
    have hrow : (answer.storage.pool v).withdrawals = (s.pool v).withdrawals := by
      by_cases hv : v = v'
      · exact hsame hv
      · rw [htouches.pool_of_ne v hv]
    exact congrFun (congrFun hrow d) w
  by_cases hd : d = msg.caller
  swap
  · exact .inl (congrFun (runStakingWrite_spares hreg h hd v).withdrawals_eq w)
  cases call with
  | addValidator payload =>
    obtain ⟨v', s₁, _, _, auth, _, hcreate, -, -, hdelegate⟩ := handleAddValidator_creates h
    obtain ⟨-, -, hpool, -⟩ := createValidator_spec hreg hcreate
    have hrow : (answer.storage.pool v).withdrawals = (s.pool v).withdrawals := by
      by_cases hv : v = v'
      · subst hv
        rw [internalDelegate_pool hdelegate, hpool]
        exact (Pool.pulled_upkeep ..).withdrawals_eq
      · rw [(internalDelegate_touches hdelegate).pool_of_ne v hv, hpool]
    exact .inl (congrFun (congrFun hrow d) w)
  | delegate v' =>
    refine .inl (hof (handleDelegate_spec h).touches ?_)
    rintro rfl
    rw [handleDelegate_pool h]
    split
    · rfl
    · exact (Pool.pulled_upkeep ..).withdrawals_eq
  | undelegate v' amount w' =>
    obtain ⟨-, h⟩ := notPayable_eq_ok h
    by_cases hamount : amount = 0
    · refine .inl (hof (handleUndelegate_spec h).touches ?_)
      rintro rfl
      rw [handleUndelegate_pool h, if_pos hamount]
    by_cases hsame : v = v' ∧ w = w'
    · obtain ⟨rfl, rfl⟩ := hsame
      obtain ⟨-, hfree, -⟩ := handleUndelegate_leave hamount h
      exact .inr (.inl ⟨hd, amount, hamount, rfl, hd ▸ hfree⟩)
    · left
      by_cases hv : v = v'
      · subst hv
        have hw : w ≠ w' := fun heq => hsame ⟨rfl, heq⟩
        change (answer.storage.pool v).withdrawals d w = _
        rw [handleUndelegate_pool h, if_neg hamount, hd]
        exact Pool.undelegated_other _ _ _ _ _ hw
      · exact hof (handleUndelegate_spec h).touches fun heq => absurd heq hv
  | withdraw v' w' =>
    obtain ⟨-, h⟩ := notPayable_eq_ok h
    obtain ⟨-, -, -, -, -, -, htouches, -, hpool⟩ := handleWithdraw_pay h
    by_cases hv : v = v'
    · subst hv
      have hrow : answer.storage.withdrawals v d =
          Function.update (s.withdrawals v d) w' .zero := by
        change (answer.storage.pool v).withdrawals d = _
        rw [hpool, hd]
        exact Function.update_self ..
      rw [hrow]
      by_cases hw : w = w'
      · subst hw
        exact .inr (.inr ⟨hd, rfl, Function.update_self ..⟩)
      · exact .inl (Function.update_of_ne hw ..)
    · exact .inl (hof htouches fun heq => absurd heq hv)
  | compound v' =>
    obtain ⟨-, h⟩ := notPayable_eq_ok h
    obtain ⟨i, o, hcall⟩ := handleCompound_spec h
    refine .inl (hof hcall.touches ?_)
    rintro rfl
    rw [handleCompound_pool h]
    exact Pool.restaked_withdrawals ..
  | claimRewards v' =>
    obtain ⟨-, h⟩ := notPayable_eq_ok h
    obtain ⟨o, hcall⟩ := handleClaimRewards_spec h
    refine .inl (hof hcall.touches ?_)
    rintro rfl
    rw [handleClaimRewards_pool h]
    exact Pool.claimed_withdrawals ..
  | changeCommission v' commission =>
    obtain ⟨-, h⟩ := notPayable_eq_ok h
    obtain ⟨-, -, hpools, -⟩ := handleChangeCommission_roster h
    exact .inl (congrFun (congrFun (congrArg Pool.withdrawals (hpools v)) d) w)
  | externalReward v' =>
    obtain ⟨-, -, htouches, -, hpool⟩ := handleExternalReward_reward h
    refine .inl (hof htouches ?_)
    rintro rfl
    rw [hpool]
    rfl
  | getDelegator v' d' =>
    obtain ⟨-, h⟩ := notPayable_eq_ok h
    refine .inl (hof (handleGetDelegatorWrite_spec h).touches ?_)
    rintro rfl
    rw [handleGetDelegatorWrite_pool h]
    exact (Pool.pulled_upkeep ..).withdrawals_eq
  | syscallReward author reward =>
    obtain ⟨-, -, -, htouches, -, hpool⟩ := handleSyscallReward_reward h
    refine .inl (hof htouches ?_)
    rintro rfl
    rw [hpool]
    rfl
  | syscallSnapshot =>
    obtain ⟨-, -, htake⟩ := handleSyscallSnapshot_eq_ok (notPayable_eq_ok h).2
    have hrow : (answer.storage.pool v).withdrawals = (s.pool v).withdrawals := by
      rw [htake]
      exact (takeSnapshot_pool s v).withdrawals_eq
    exact .inl (congrFun (congrFun hrow d) w)
  | syscallOnEpochChange next =>
    obtain ⟨-, -, hchange⟩ := handleSyscallOnEpochChange_eq_ok (notPayable_eq_ok h).2
    obtain ⟨hrefresh, hskip⟩ := (refreshAccumulators_spec s next).2 v
    have hrow : ((refreshAccumulators s next).pool v).withdrawals = (s.pool v).withdrawals := by
      by_cases hmem : (s.pool v).inSnapshot
      · rw [hrefresh hmem]
        rfl
      · rw [hskip hmem]
    left
    rw [hchange]
    exact congrFun (congrFun hrow d) w

/-- An open request stays as it is until its owner withdraws it. -/
theorem stakingStep_keeps_request {tx : Message × StakingCall} {v : ValId} {d : Address}
    {w : WithdrawId} (hreg : Registered s) (h : stakingStep s tx = .ok s')
    (hopen : (s.withdrawals v d w).amount ≠ 0) (htx : ¬(tx.1.caller = d ∧ tx.2 = .withdraw v w)) :
    s'.withdrawals v d w = s.withdrawals v d w := by
  simp only [stakingStep, bind_eq_ok, pure_eq_ok] at h
  obtain ⟨answer, hrun, rfl⟩ := h
  rcases runStakingWrite_requests (hreg.credit _) hrun v d w with hsame | ⟨-, -, -, -, hclosed⟩ |
    ⟨hd, hcall, -⟩
  · exact hsame
  · exact absurd hclosed hopen
  · exact absurd ⟨hd.symm, hcall⟩ htx

/-- A closed request stays closed until its owner undelegates under its id. -/
theorem stakingStep_keeps_closed {tx : Message × StakingCall} {v : ValId} {d : Address}
    {w : WithdrawId} (hreg : Registered s) (h : stakingStep s tx = .ok s')
    (hclosed : (s.withdrawals v d w).amount = 0)
    (htx : ¬(tx.1.caller = d ∧ ∃ amount, amount ≠ 0 ∧ tx.2 = .undelegate v amount w)) :
    (s'.withdrawals v d w).amount = 0 := by
  simp only [stakingStep, bind_eq_ok, pure_eq_ok] at h
  obtain ⟨answer, hrun, rfl⟩ := h
  rcases runStakingWrite_requests (hreg.credit _) hrun v d w with hsame |
    ⟨hd, amount, hamount, hcall, -⟩ | ⟨-, -, hzero⟩
  · rw [hsame]
    exact hclosed
  · exact absurd ⟨hd.symm, amount, hamount, hcall⟩ htx
  · rw [hzero]
    rfl

end Requests

section Opening

variable {s : Storage} {msg : Message} {v : ValId} {w : WithdrawId} {answer : Answer}

/-- A settled record with active stake has the accumulator as its last value. -/
theorem Pool.pulled_last (p : Pool) (cur : ℕ) (d : Address)
    (hstake : ((p.pulled cur d).delegators d).stake ≠ 0) :
    ((p.pulled cur d).delegators d).accumulatedRewardPerToken = (p.pulled cur d).acc := by
  have hlast (q : Pool) (hq : ((q.accrued d).delegators d).stake ≠ 0) :
      ((q.accrued d).delegators d).accumulatedRewardPerToken = (q.accrued d).acc := by
    by_cases hzero : (q.delegators d).stake = 0
    · rw [accrued, if_pos hzero] at hq
      exact absurd hzero hq
    · have hrecord (rewards : ℕ) : (q.accrue d rewards).delegators d =
          (q.delegators d).accrued q.acc rewards := Function.update_self ..
      rw [accrued, if_neg hzero, hrecord]
      rfl
  exact hlast _ hstake

/-- What an undelegation records: an amount, the accumulator and the activation epoch. -/
theorem handleUndelegate_opens {amount : ℕ} (hamount : amount ≠ 0)
    (h : handleUndelegate s msg v amount w = .ok answer) :
    ∃ a, a ≠ 0 ∧ answer.storage.withdrawals v msg.caller w =
      ⟨a, (answer.storage.pool v).acc, activationEpoch s.epoch s.inBoundary⟩ := by
  obtain ⟨-, -, del, s₁, hpull, hle, -⟩ := handleUndelegate_leave hamount h
  have hpool := handleUndelegate_pool h
  have hrecord := pullDelegatorUpToDate_record hpull
  rw [if_neg hamount, Pool.undelegated, hrecord] at hpool
  have hpositive : leaving del.stake amount ≠ 0 := leaving_ne_zero hamount
  have hlast := (s.pool v).pulled_last s.epoch msg.caller (by rw [hrecord]; omega)
  refine ⟨leaving del.stake amount, hpositive, ?_⟩
  have hacc : (answer.storage.pool v).acc = ((s.pool v).pulled s.epoch msg.caller).acc := by
    rw [hpool]
    rfl
  have hrow : answer.storage.withdrawals v msg.caller w = ⟨leaving del.stake amount,
      (((s.pool v).pulled s.epoch msg.caller).delegators msg.caller).accumulatedRewardPerToken,
      activationEpoch s.epoch s.inBoundary⟩ := by
    change (answer.storage.pool v).withdrawals msg.caller w = _
    rw [hpool]
    simp [Pool.leave, Pool.record, Pool.setDelegator, Pool.setRequest]
  rw [hrow, hlast, hacc]

/-- A payment within the balance to a caller whose balance can take it goes through. -/
theorem transfer_succeeds {amount : ℕ} (hfunds : amount ≤ s.balance)
    (hfits : msg.callerBalance + amount < wordBound) :
    transfer s msg amount = .ok (s.payOut amount) := by
  unfold transfer
  split
  next hzero =>
    subst hzero
    rfl
  next =>
    rw [failIf_of_not (not_lt.mpr hfunds), ok_bind, failIf_of_not (not_le.mpr hfits)]
    rfl

end Opening

section Payment

variable (guard : Storage → Message × StakingCall → Storage → Prop) (v : ValId) (d : Address)
  (w : WithdrawId)

/-- Calls among which a request is not withdrawn. -/
def NotWithdrawing (s : Storage) (tx : Message × StakingCall) (s' : Storage) : Prop :=
  guard s tx s' ∧ ¬(tx.1.caller = d ∧ tx.2 = .withdraw v w)

/-- Calls among which a request is not opened. -/
def NotOpening (s : Storage) (tx : Message × StakingCall) (s' : Storage) : Prop :=
  guard s tx s' ∧ ¬(tx.1.caller = d ∧ ∃ amount, amount ≠ 0 ∧ tx.2 = .undelegate v amount w)

/-- The first epoch in which a request that is opened now can be withdrawn. -/
def Storage.readyEpoch (s : Storage) : ℕ := s.epoch + if s.inBoundary then 3 else 2

/-- What a request opened by the call into `s₁` is paid at `t`: its amount, and its share of the
growth of the reward index from then on until its epoch begins. -/
def payout (s₁ t : Storage) : ℕ :=
  (s₁.withdrawals v d w).amount + rewardShare (s₁.withdrawals v d w).amount
    ((t.pool v).indexAt (s₁.withdrawals v d w).epoch) (s₁.pool v).acc

/-- A request that an undelegation at `s` has opened in `s₁` is kept by all calls but its
withdrawal, is not paid before it is ready, is paid whenever it is withdrawn from then on, and is
not paid again until it is opened again. -/
structure PaidOnce (s s₁ : Storage) : Prop where
  opened : (s₁.withdrawals v d w).amount ≠ 0
  kept : ∀ t, Reachable stakingStep (NotWithdrawing guard v d w) s₁ t →
    t.withdrawals v d w = s₁.withdrawals v d w
  early : ∀ t, Reachable stakingStep (NotWithdrawing guard v d w) s₁ t → t.epoch < s.readyEpoch →
    ∀ msg : Message, msg.caller = d → (stakingStep t (msg, .withdraw v w)).isOk = false
  ready : ∀ t, Reachable stakingStep (NotWithdrawing guard v d w) s₁ t → s.readyEpoch ≤ t.epoch →
    ∀ msg : Message, msg.caller = d → msg.callValue = 0 → gas.withdraw ≤ msg.gasLimit →
      msg.callerBalance + payout v d w s₁ t < 2 ^ 256 →
      ∃ t', stakingStep t (msg, .withdraw v w) = .ok t' ∧
        t'.balance + payout v d w s₁ t = t.balance
  once : ∀ t, Reachable stakingStep (NotWithdrawing guard v d w) s₁ t →
    ∀ msg t', msg.caller = d → guard t (msg, .withdraw v w) t' →
      stakingStep t (msg, .withdraw v w) = .ok t' →
      ∀ u, Reachable stakingStep (NotOpening guard v d w) t' u →
        ∀ msg : Message, msg.caller = d → (stakingStep u (msg, .withdraw v w)).isOk = false

end Payment

section Paid

variable {guard : Storage → Message × StakingCall → Storage → Prop} {s s₁ t t' : Storage}
  {msg : Message} {v : ValId} {d : Address} {w : WithdrawId}

/-- A withdrawal call without value is the handler. -/
theorem withdrawStep_eq_ok : stakingStep t (msg, .withdraw v w) = .ok t' ↔
    msg.callValue = 0 ∧ ∃ answer, handleWithdraw t msg v w = .ok answer ∧ answer.storage = t' := by
  have hincome : income msg (.withdraw v w) = msg.callValue := rfl
  simp only [stakingStep, bind_eq_ok, pure_eq_ok, hincome, runStakingWrite, notPayable,
    failIf_eq_ok, ne_eq, not_not]
  constructor
  · rintro ⟨answer, ⟨-, hvalue, hrun⟩, rfl⟩
    rw [hvalue, Storage.credit_zero] at hrun
    exact ⟨hvalue, answer, hrun, rfl⟩
  · rintro ⟨hvalue, answer, hrun, rfl⟩
    rw [hvalue, Storage.credit_zero]
    exact ⟨answer, ⟨(), rfl, hrun⟩, rfl⟩

/-- A call that cannot succeed fails. -/
theorem isOk_eq_false {A : Type} {x : Except PrecompileError A} (h : ∀ a, x ≠ .ok a) :
    x.isOk = false := by
  cases x with
  | error e => rfl
  | ok a => exact absurd rfl (h a)

/-- Run lemma: an open request stays as it is in every run in which it is not withdrawn. -/
theorem reachable_keeps_request (hguard : ∀ s tx s', guard s tx s' → s'.epoch < 2 ^ 63)
    (h₁ : Reachable stakingStep guard .empty s₁) (hopen : (s₁.withdrawals v d w).amount ≠ 0)
    (ht : Reachable stakingStep (NotWithdrawing guard v d w) s₁ t) :
    t.withdrawals v d w = s₁.withdrawals v d w := by
  induction ht with
  | start => rfl
  | @call t t' tx hreach hs hg ih =>
    have hall := h₁.trans (hreach.mono fun _ _ _ hg => hg.1)
    have hepoch := reachable_epoch_lt hguard hall
    obtain ⟨hreg, -⟩ := reachable_inOrder hall (by omega)
    exact (stakingStep_keeps_request hreg hs (ih ▸ hopen) hg.2).trans ih

/-- Run lemma: a closed request stays closed in every run in which it is not opened. -/
theorem reachable_keeps_closed (hguard : ∀ s tx s', guard s tx s' → s'.epoch < 2 ^ 63)
    (h₁ : Reachable stakingStep guard .empty s₁) (hclosed : (s₁.withdrawals v d w).amount = 0)
    (ht : Reachable stakingStep (NotOpening guard v d w) s₁ t) :
    (t.withdrawals v d w).amount = 0 := by
  induction ht with
  | start => exact hclosed
  | @call t t' tx hreach hs hg ih =>
    have hall := h₁.trans (hreach.mono fun _ _ _ hg => hg.1)
    have hepoch := reachable_epoch_lt hguard hall
    obtain ⟨hreg, -⟩ := reachable_inOrder hall (by omega)
    exact stakingStep_keeps_closed hreg hs ih hg.2

/-- A withdrawal closes its request. -/
theorem withdrawStep_closes (h : stakingStep t (msg, .withdraw v w) = .ok t') :
    t'.withdrawals v msg.caller w = .zero := by
  obtain ⟨-, answer, hrun, rfl⟩ := withdrawStep_eq_ok.mp h
  obtain ⟨-, -, -, -, -, -, -, -, hpool⟩ := handleWithdraw_pay hrun
  change (answer.storage.pool v).withdrawals msg.caller w = _
  rw [hpool]
  simp [Pool.withdrawn, Pool.pay, Pool.record, Pool.setRequest]

/-- A solvent contract pays a ready request whose epoch has an index. -/
theorem withdrawStep_pays (hp : (t.pool v).Solvent t.epoch t.inBoundary)
    (hfunds : (t.pool v).liabilities ≤ t.balance) (hvalue : msg.callValue = 0)
    (hgas : gas.withdraw ≤ msg.gasLimit)
    (hready : (t.withdrawals v msg.caller w).Ready t.epoch)
    (hfits : msg.callerBalance + ((t.withdrawals v msg.caller w).amount +
      readyRewards t v msg.caller w) < wordBound) :
    ∃ t', stakingStep t (msg, .withdraw v w) = .ok t' ∧
      t'.balance + ((t.withdrawals v msg.caller w).amount + readyRewards t v msg.caller w) =
        t.balance := by
  obtain ⟨hamount, hepoch, hle⟩ := hready
  obtain ⟨-, hindex, -, hcover, -⟩ :=
    hp.sound.request_share hp.bound hamount (le_of_add_le_left hle)
  have hrewards : readyRewards t v msg.caller w ≤ (t.pool v).unclaimed := by
    have hvalue : (t.accumulators (t.withdrawals v msg.caller w).epoch v).value =
      (t.pool v).indexAt (t.withdrawals v msg.caller w).epoch := hindex
    rw [readyRewards, hvalue]
    exact Pool.rewardShare_le hcover
  have hrow := cell_le_sum (fun w => (t.withdrawals v msg.caller w).amount) w
  have hall := cell_le_sum (fun d => ∑ w, (t.withdrawals v d w).amount) msg.caller
  have hliabilities : (t.pool v).liabilities = (t.pool v).unclaimed +
    ∑ d, Pool.held (t.delegators v d) + ∑ d, ∑ w, (t.withdrawals v d w).amount := rfl
  have hbalance : (withdrawing t v msg.caller w).balance = t.balance := by
    obtain ⟨-, -, -, hsame, -⟩ := decrement_pool t (t.withdrawals v msg.caller w).epoch v
    exact hsame
  have htransfer := transfer_succeeds (hbalance ▸ hfunds.trans' (by omega)) hfits
  have hhandle : handleWithdraw t msg v w = .ok
      ⟨(((withdrawing t v msg.caller w).payOut ((t.withdrawals v msg.caller w).amount +
        readyRewards t v msg.caller w)).writeWithdrawalRequest v msg.caller w .zero).record v
          (.withdrawn msg.caller (t.withdrawals v msg.caller w).amount
            (readyRewards t v msg.caller w)), gas.withdraw, .success⟩ := by
    rw [handleWithdraw_ready hp hgas ⟨hamount, hepoch, hle⟩, htransfer]
    rfl
  refine ⟨_, withdrawStep_eq_ok.mpr ⟨hvalue, _, hhandle, rfl⟩, ?_⟩
  change (withdrawing t v msg.caller w).balance - _ + _ = _
  rw [hbalance]
  omega

/-- Withdrawals pay exactly once and never early: in every orderly run with countable references
a request that an undelegation opens is kept, is paid whenever it is withdrawn after its delay,
and is paid neither before nor again. -/
theorem withdrawal_paid_once {amount : ℕ} (h : Reachable stakingStep OrderlyCounted .empty s)
    (hamount : amount ≠ 0) (hstep : stakingStep s (msg, .undelegate v amount w) = .ok s₁)
    (hg : OrderlyCounted s (msg, .undelegate v amount w) s₁) :
    PaidOnce OrderlyCounted v msg.caller w s s₁ := by
  have hguard (s : Storage) (tx) (s' : Storage) (hg : OrderlyCounted s tx s') :
      s'.epoch < 2 ^ 63 := hg.1.1
  have hepoch := reachable_epoch_lt hguard h
  have h₁ := Reachable.call _ h hstep hg
  obtain ⟨a, ha, hrequest⟩ : ∃ a, a ≠ 0 ∧ s₁.withdrawals v msg.caller w =
      ⟨a, (s₁.pool v).acc, activationEpoch s.epoch s.inBoundary⟩ := by
    simp only [stakingStep, bind_eq_ok, pure_eq_ok, runStakingWrite] at hstep
    obtain ⟨answer, hrun, rfl⟩ := hstep
    have hopens := handleUndelegate_opens hamount (notPayable_eq_ok hrun).2
    exact hopens
  have hactivation := Pool.activationEpoch_eq (show s.epoch + 2 < 2 ^ 64 by omega) s.inBoundary
  have hopen : (s₁.withdrawals v msg.caller w).amount ≠ 0 := by
    rw [hrequest]
    exact ha
  have hall {t : Storage} (ht : Reachable stakingStep
      (NotWithdrawing OrderlyCounted v msg.caller w) s₁ t) :
      Reachable stakingStep OrderlyCounted .empty t :=
    h₁.trans (ht.mono fun _ _ _ hg => hg.1)
  have hkept {t : Storage} (ht : Reachable stakingStep
      (NotWithdrawing OrderlyCounted v msg.caller w) s₁ t) :
      t.withdrawals v msg.caller w = s₁.withdrawals v msg.caller w :=
    reachable_keeps_request hguard h₁ hopen ht
  have hreadyEpoch : s.readyEpoch = (s₁.withdrawals v msg.caller w).epoch + 1 := by
    rw [hrequest, hactivation, Storage.readyEpoch]
    split <;> rfl
  refine ⟨hopen, fun t ht => hkept ht, fun t ht hearly msg' hcaller => ?_,
    fun t ht hready msg' hcaller hvalue hgas hfits => ?_,
    fun t ht msg' t' hcaller hg' hpaid u hu msg'' hcaller' => ?_⟩
  · refine isOk_eq_false fun t' hpaid => ?_
    obtain ⟨-, answer, hrun, -⟩ := withdrawStep_eq_ok.mp hpaid
    obtain ⟨-, -, hactive, hdelay, -⟩ := handleWithdraw_pay hrun
    have hbound := reachable_epoch_lt hguard (hall ht)
    have hone : withdrawalDelay = 1 := rfl
    rw [hone, u64Add_one (by omega), hcaller, hkept ht] at hdelay
    omega
  · obtain ⟨-, hp⟩ := reachable_solvent (hall ht) v
    have hsame := hkept ht
    rw [← hcaller] at hsame hopen hrequest hreadyEpoch hfits ⊢
    have hfunds : (t.pool v).liabilities ≤ t.balance := by
      have hcell := cell_le_sum (fun v => (t.pool v).liabilities) v
      rwa [← liabilities_eq_sum, ← balance_eq_liabilities hguard (hall ht)] at hcell
    have hpast : (t.withdrawals v msg'.caller w).Ready t.epoch := by
      rw [hsame]
      refine ⟨hopen, ?_, hreadyEpoch ▸ hready⟩
      rw [hrequest, hactivation]
      dsimp only
      split <;> omega
    have hindex := (hp.sound.request_share hp.bound hpast.1 (le_of_add_le_left hpast.2.2)).2.1
    have hpayout : payout v msg'.caller w s₁ t = (t.withdrawals v msg'.caller w).amount +
        readyRewards t v msg'.caller w := by
      have hvalue : (t.accumulators (t.withdrawals v msg'.caller w).epoch v).value =
        (t.pool v).indexAt (t.withdrawals v msg'.caller w).epoch := hindex
      have hacc : (s₁.withdrawals v msg'.caller w).accumulator = (s₁.pool v).acc := by
        rw [hrequest]
      rw [payout, readyRewards, hvalue, hsame, hacc]
    rw [hpayout] at hfits ⊢
    exact withdrawStep_pays hp hfunds hvalue hgas hpast hfits
  · have hclosed : (t'.withdrawals v msg.caller w).amount = 0 := by
      rw [← hcaller, withdrawStep_closes hpaid]
      rfl
    have hstill := reachable_keeps_closed hguard (.call _ (hall ht) hpaid hg') hclosed hu
    refine isOk_eq_false fun u' hagain => ?_
    obtain ⟨-, answer, hrun, -⟩ := withdrawStep_eq_ok.mp hagain
    obtain ⟨hamount', -⟩ := handleWithdraw_pay hrun
    rw [hcaller'] at hamount'
    exact hamount' hstill

/-- In the opened state the auth address undelegates, and its request will be paid once. -/
theorem withdrawal_paid_once_opened : ∃ s₁, stakingStep openedState
    (userMessage 7 0 (by decide), .undelegate 1 dustThreshold 0) = .ok s₁ ∧
      PaidOnce OrderlyCounted 1 7 0 openedState s₁ := by
  have hok : (stakingStep openedState (userMessage 7 0 (by decide),
      .undelegate 1 dustThreshold 0)).isOk = true := by decide +kernel
  have hcheck : (stakingStep openedState (userMessage 7 0 (by decide),
      .undelegate 1 dustThreshold 0)).toOption.all (orderlyCheck openedState
        (userMessage 7 0 (by decide), .undelegate 1 dustThreshold 0)) = true := by
    decide +kernel
  obtain ⟨s₁, hstep⟩ := exists_of_isOk hok
  rw [hstep, Except.toOption, Option.all_some] at hcheck
  exact ⟨s₁, hstep, withdrawal_paid_once openedState_orderlyCounted (by decide) hstep
    (openedState_next hstep hcheck)⟩

/-- In a crowd whose references come round to zero the request opened before it is settled with
the value zero: from its first ready epoch on its withdrawal fails. -/
theorem crowd_request_unpaid : ∃ s s₁, Reachable stakingStep Orderly .empty s ∧
    Orderly s crowdUndelegate s₁ ∧ stakingStep s crowdUndelegate = .ok s₁ ∧
      ¬PaidOnce Orderly 1 7 0 s s₁ := by
  obtain ⟨s, s₁, t₀, hstart, hgathered⟩ := exists_gathered (show 2 ^ 64 - 1 ≤ 2 ^ 64 by omega)
  obtain ⟨t, hafter, -, hnext⟩ := exists_nextEpoch hgathered.after hgathered.received_lt
    (by rw [hgathered.epoch_eq]; decide) hgathered.inBoundary_eq
  refine ⟨s, s₁, hstart.reachable, hstart.orderly, hstart.step, fun hpaid => ?_⟩
  have hrequest : (t.pool 1).withdrawals 7 0 = ⟨dustThreshold, unitBias, 2⟩ := by
    rw [hnext.withdrawals_eq]
    exact hgathered.request_eq
  have hentry : (t.pool 1).entryValue 2 = 0 := by
    have hold := hgathered.entryValue_eq
    rw [if_pos (by decide)] at hold
    rw [Pool.entryValue, hnext.entry_le 1 2 hgathered.epoch_eq.ge]
    exact hold
  have hrest : Reachable stakingStep (NotWithdrawing Orderly 1 7 0) s₁ t :=
    hafter.mono fun _ _ _ hg => ⟨hg.1, fun hboth => hg.2 1 0 hboth.2⟩
  have hready : s.readyEpoch ≤ t.epoch := by
    rw [Storage.readyEpoch, hstart.epoch_eq, hstart.inBoundary_eq, hnext.epoch_eq,
      hgathered.epoch_eq]
    decide
  have hopened : s₁.withdrawals 1 7 0 = ⟨dustThreshold, unitBias, 2⟩ :=
    (hpaid.kept t hrest).symm.trans hrequest
  have hindex : (t.pool 1).indexAt 2 = 2 * unitBias := by
    have hlog : (t.pool 1).log = (t₀.pool 1).log := by
      rw [Pool.log, hnext.history_eq]
      rfl
    rw [Pool.indexAt, hlog, hgathered.log_eq]
    decide
  have hpayout : payout 1 7 0 s₁ t ≤ dustThreshold + 2 * dustThreshold := by
    rw [payout, hopened, hindex]
    refine Nat.add_le_add_left (Nat.div_le_of_le_mul ?_) _
    refine (Nat.mul_le_mul_right dustThreshold (Nat.sub_le ..)).trans_eq ?_
    rw [Nat.mul_comm 2 unitBias, Nat.mul_assoc]
  have hfits : dustThreshold + 2 * dustThreshold < 2 ^ 256 := by decide
  obtain ⟨t', hstep, -⟩ := hpaid.ready t hrest hready (userMessage 7 0 (by decide)) rfl rfl
    (by decide) ((Nat.zero_add _).trans_lt (hpayout.trans_lt hfits))
  obtain ⟨-, answer, hrun, -⟩ := withdrawStep_eq_ok.mp hstep
  obtain ⟨-, -, -, -, hacc, -⟩ := handleWithdraw_pay hrun
  have hzero : unitBias ≤ 0 := by
    have hcaller : (userMessage 7 0 (by decide)).caller = 7 := rfl
    rw [hcaller] at hacc
    change ((t.pool 1).withdrawals 7 0).accumulator ≤
      (t.pool 1).entryValue ((t.pool 1).withdrawals 7 0).epoch at hacc
    rw [hrequest] at hacc
    exact hacc.trans_eq hentry
  exact absurd hzero (by decide)

end Paid

end SuwappuRevm.Staking
