import SuwappuRevm.Staking.Solvency

/-!
# Settlements and withdrawals go through

In a sound pool whose liabilities stay below `2 ^ 128` no product or sum of a settlement overflows
and the unclaimed rewards cover every credit. Each step credits at most what it takes off the
account, so all settlements together with all open requests are covered.
-/

namespace SuwappuRevm.Staking

open Foundations Finset

namespace Pool

variable {cur : ℕ} {b : Bool} {p p' : Pool}

/-- What an account is owed fits in a word. -/
theorem Sound.owedTo_lt (hp : p.Sound cur b) (hbound : p.liabilities < 2 ^ 128) (d : Address) :
    p.owedTo d ≤ unitBias * p.unclaimed ∧ p.owedTo d < wordBound := by
  have hcell := (cell_le_sum p.owedTo d).trans hp.solvent
  have hunclaimed : p.unclaimed < 2 ^ 128 := by
    refine lt_of_le_of_lt ?_ hbound
    rw [liabilities, Nat.add_assoc]
    exact Nat.le_add_right ..
  have hfits : unitBias * 2 ^ 128 < wordBound := by decide +kernel
  have hmul := Nat.mul_le_mul_left unitBias hunclaimed.le
  exact ⟨hcell, by omega⟩

/-- What a record holds fits with the unclaimed rewards. -/
theorem held_le (p : Pool) (d : Address) : p.unclaimed + held (p.delegators d) ≤ p.liabilities := by
  have hcell := cell_le_sum (fun d => held (p.delegators d)) d
  rw [liabilities]
  omega

/-- The active stake up to a value between the last one and the accumulator is part of what a
record is owed. -/
theorem stake_share_le (p : Pool) (d : Address) {value : ℕ} (hvalue : value ≤ p.acc) :
    (value - (p.delegators d).accumulatedRewardPerToken) * (p.delegators d).stake ≤ p.owedTo d := by
  have hgrowth : value - (p.delegators d).accumulatedRewardPerToken ≤
      p.acc - (p.delegators d).accumulatedRewardPerToken := by omega
  have hmul := Nat.mul_le_mul_right (p.delegators d).stake hgrowth
  rw [Nat.mul_comm (p.acc - _)] at hmul
  rw [owedTo, Delegator.owed]
  omega

/-- What is covered to the unit is covered in rewards. -/
theorem rewardShare_le {stake epochAcc lastAcc unclaimed : ℕ}
    (h : (epochAcc - lastAcc) * stake ≤ unitBias * unclaimed) :
    rewardShare stake epochAcc lastAcc ≤ unclaimed := by
  have hbias : 0 < unitBias := by decide
  exact Nat.le_of_mul_le_mul_left ((rewardShare_bounds _ _ _).1.trans h) hbias

/-- An active first track is settled with the index at its epoch. -/
theorem Sound.entryValue_delta (hp : p.Sound cur b) {d : Address}
    (hdelta : (p.delegators d).deltaEpoch ≠ 0) (hle : (p.delegators d).deltaEpoch ≤ cur) :
    p.entryValue (p.delegators d).deltaEpoch = p.indexAt (p.delegators d).deltaEpoch := by
  have hself : refersTo (p.delegators d).deltaEpoch (p.delegators d).deltaEpoch = 1 :=
    if_pos ⟨rfl, hdelta⟩
  have hrefs : 0 < p.referencesOf d (p.delegators d).deltaEpoch := by
    rw [referencesOf, Delegator.references]
    omega
  exact hp.entryValue_eq hrefs hle

/-- A pool in which settlements go through: its ledger and epochs are in order, it is sound, and
it owes less than `2 ^ 128`. -/
structure Solvent (cur : ℕ) (b : Bool) (p : Pool) : Prop where
  ledger : p.Ledger
  epochs : p.EpochsOk cur b
  sound : p.Sound cur b
  bound : p.liabilities < 2 ^ 128

/-- Quiet runs that bring nothing in keep a pool solvent. -/
theorem QuietRun.solvent {o : ℕ} (hcur : cur + 2 < 2 ^ 64) (hp : p.Solvent cur b)
    (h : p.QuietRun cur b 0 o p') : p'.Solvent cur b := by
  have hmove := h.liabilities hp.ledger
  have hbound := hp.bound
  exact ⟨(h.ledger hp.ledger).1, h.epochsOk hp.epochs, h.sound hcur hp.ledger hp.epochs hp.sound,
    by omega⟩

end Pool

section Settlement

variable {cur : ℕ} {b : Bool} {v : ValId} {d : Address} {x y : Settling}

/-- A step of a settlement takes nothing back, leaves the requests and the index alone, and
credits at most what it takes off the account. -/
structure Settling.Pays (v : ValId) (d : Address) (x y : Settling) : Prop where
  rewards_le : x.del.rewards ≤ y.del.rewards
  withdrawals_eq : (y.poolAt v d).withdrawals = (x.poolAt v d).withdrawals
  indexAt_eq : (y.poolAt v d).indexAt = (x.poolAt v d).indexAt
  owed_le : unitBias * y.del.rewards + (y.poolAt v d).owedTo d ≤
    unitBias * x.del.rewards + (x.poolAt v d).owedTo d

/-- Doing nothing pays. -/
theorem Settling.Pays.refl (v : ValId) (d : Address) (x : Settling) : x.Pays v d x :=
  ⟨le_rfl, rfl, rfl, le_rfl⟩

/-- Two steps of a settlement pay. -/
theorem Settling.Pays.trans {z : Settling} (h : x.Pays v d y) (h' : y.Pays v d z) :
    x.Pays v d z :=
  ⟨h.1.trans h'.1, h'.2.trans h.2, h'.3.trans h.3, h'.4.trans h.4⟩

/-- A step that settles an account and credits its rewards pays. -/
theorem Pool.Settles.pays {act exact rewards : ℕ} {events : List PoolEvent}
    (h : (x.poolAt v d).Settles cur act d exact events (y.poolAt v d))
    (hcredits : Pool.total (PoolEvent.credits d) events = rewards)
    (hrewards : y.del.rewards = x.del.rewards + rewards)
    (hwithdrawals : (y.poolAt v d).withdrawals = (x.poolAt v d).withdrawals) :
    x.Pays v d y := by
  have howed := h.owed_eq
  have hle := h.credits_le
  rw [hcredits] at hle
  refine ⟨by omega, hwithdrawals, Pool.indexAt_eq h.history_eq h.account_eq, ?_⟩
  rw [hrewards, Nat.mul_add]
  omega

/-- Compounding an active track goes through. -/
theorem compoundTrack_succeeds (h : (x.poolAt v d).Solvent cur b) (hdelta : x.del.deltaEpoch ≠ 0)
    (hle : x.del.deltaEpoch ≤ cur) : ∃ y, compoundTrack v d x = .ok y ∧ x.Pays v d y := by
  obtain ⟨-, hepochs, hp, hbound⟩ := h
  have hdel := x.poolAt_delegators v d
  have hheld := Pool.held_le (x.poolAt v d) d
  obtain ⟨hcover, hfits⟩ := hp.owedTo_lt hbound d
  have hshare := Pool.stake_share_le (x.poolAt v d) d (hp.indexAt_le x.del.deltaEpoch)
  have hlast := (hp.ordered d).delta_le
  have horder := (hepochs d).delta_lt_next
  have hindex := hp.entryValue_delta (hdel ▸ hdelta) (hdel ▸ hle)
  rw [hdel] at hheld hshare hlast horder hindex
  have hvalue : (x.storage.pool v).entryValue x.del.deltaEpoch =
      (x.poolAt v d).indexAt x.del.deltaEpoch := hindex
  have hword : 2 ^ 128 < wordBound := by decide +kernel
  have hsolvent := Pool.rewardShare_le (hshare.trans hcover)
  rw [Pool.held, Delegator.principal] at hheld
  change x.unclaimedRewards + _ ≤ _ at hheld
  have hok : compoundTrack v d x = .ok _ := compoundTrack_eq_ok.mpr
    ⟨hvalue ▸ hlast hdelta, by rw [hvalue]; omega, by omega, by rw [hvalue]; exact hsolvent,
      by rw [hvalue]; change _ ≤ x.unclaimedRewards at hsolvent; omega, rfl⟩
  refine ⟨_, hok, ?_⟩
  have hsettles : (x.poolAt v d).Settles cur 0 d _ _ _ :=
    Pool.compound_settles hp (hdel ▸ hdelta) (hdel ▸ hle) (hdel ▸ horder hdelta) rfl
      (by rw [hdel, hindex]; exact hsolvent)
  have hpool := compoundTrack_poolAt hok
  rw [hdel] at hsettles
  rw [hvalue, ← hindex] at hpool
  rw [← hpool] at hsettles
  exact hsettles.pays (Pool.Logs.settled _).totals.2.1 rfl (by rw [hpool]; rfl)

/-- Accruing a settled record goes through. -/
theorem accrueActive_succeeds (h : (x.poolAt v d).Solvent cur b) (hsettled : x.del.Settled cur) :
    ∃ y, accrueActive v d x = .ok y ∧ x.Pays v d y := by
  obtain ⟨-, -, hp, hbound⟩ := h
  by_cases hstake : x.del.stake = 0
  · exact ⟨x, if_pos hstake, .refl v d x⟩
  have hdel := x.poolAt_delegators v d
  have hheld := Pool.held_le (x.poolAt v d) d
  obtain ⟨hcover, hfits⟩ := hp.owedTo_lt hbound d
  have hshare := Pool.stake_share_le (x.poolAt v d) d le_rfl
  have hlast := (hp.ordered d).last_le
  have hacc : (x.storage.pool v).acc = (x.poolAt v d).acc := rfl
  rw [hdel] at hheld hshare hlast
  have hword : 2 ^ 128 < wordBound := by decide +kernel
  have hsolvent := Pool.rewardShare_le (hshare.trans hcover)
  rw [Pool.held, Delegator.principal] at hheld
  change x.unclaimedRewards + _ ≤ _ at hheld
  have hok : accrueActive v d x = .ok _ := (accrueActive_eq_ok hstake).mpr
    ⟨hlast, lt_of_le_of_lt hshare hfits, hsolvent,
      by rw [hacc]; change _ ≤ x.unclaimedRewards at hsolvent; omega, rfl⟩
  refine ⟨_, hok, ?_⟩
  have hsettles : (x.poolAt v d).Settles cur 0 d _ _ _ :=
    Pool.accrue_settles hp (hdel ▸ hsettled) rfl (by rw [hdel]; exact hsolvent)
  have hpool := accrueActive_poolAt hstake hok
  rw [hacc] at hpool
  rw [hdel, ← hpool] at hsettles
  exact hsettles.pays (Pool.Logs.settled _).totals.2.1 rfl (by rw [hpool]; rfl)

/-- A conditional compounding goes through. -/
theorem compoundIf_succeeds {can : Bool} (h : (x.poolAt v d).Solvent cur b)
    (hactive : can = true → x.del.deltaEpoch ≠ 0 ∧ x.del.deltaEpoch ≤ cur) :
    ∃ y, compoundIf can v d x = .ok y ∧ x.Pays v d y := by
  cases can with
  | true => exact compoundTrack_succeeds h (hactive rfl).1 (hactive rfl).2
  | false => exact ⟨x, rfl, .refl v d x⟩

/-- Writing back the promoted record owes the account the same. -/
theorem promoteNext_owedTo {s : Storage} (hcur : s.epoch + 1 < 2 ^ 64)
    (hledger : (s.pool v).Ledger) (hp : (s.pool v).Sound s.epoch s.inBoundary) (d : Address) :
    ((s.pool v).setDelegator d (promoteNext s.epoch (s.delegators v d))).owedTo d =
        (s.pool v).owedTo d ∧
      (promoteNext s.epoch (s.delegators v d)).rewards = (s.delegators v d).rewards := by
  unfold promoteNext
  rw [u64Add_one hcur]
  split
  next h =>
    have hsettles : (s.pool v).Settles s.epoch 0 d 0 [] ((s.pool v).promote d) :=
      Pool.promote_settles hp (hledger.tracked d) h.1
    have howed := hsettles.owed_eq
    rw [Nat.add_zero] at howed
    exact ⟨howed, rfl⟩
  next =>
    have hsame : (s.pool v).setDelegator d (s.delegators v d) = s.pool v := by
      simp [Pool.setDelegator, Storage.pool]
    rw [hsame]
    exact ⟨rfl, rfl⟩

/-- In a solvent pool every settlement goes through and credits at most what it takes off the
account. -/
theorem pullDelegatorUpToDate_succeeds {s : Storage} (hcur : s.epoch + 2 < 2 ^ 64)
    (hp : (s.pool v).Solvent s.epoch s.inBoundary) (d : Address) :
    ∃ del s', pullDelegatorUpToDate s v d = .ok (del, s') ∧
      unitBias * (del.rewards - (s.delegators v d).rewards) +
        ∑ w, (s.withdrawals v d w).owed (s.pool v).indexAt ≤ (s.pool v).owedTo d := by
  have hcur₁ : s.epoch + 1 < 2 ^ 64 := by omega
  have hr : EpochsOk s.epoch s.inBoundary (s.delegators v d) := hp.epochs d
  obtain ⟨hok, hnext⟩ := promoteNext_epochs hcur₁ hr
  obtain ⟨howed₀, hrewards₀⟩ := promoteNext_owedTo hcur₁ hp.ledger hp.sound d
  have hpromote : (s.pool v).QuietRun s.epoch s.inBoundary 0 0
      ((s.pool v).setDelegator d (promoteNext s.epoch (s.delegators v d))) :=
    promoteNext_quiet hcur₁
  unfold pullDelegatorUpToDate
  generalize promoteNext s.epoch (s.delegators v d) = r at *
  have hp₀ : (Settling.poolAt ⟨s, r, (s.validators v).unclaimedRewards⟩ v d).Solvent s.epoch
      s.inBoundary := hpromote.solvent hcur hp
  have hfirst := first_active hok hnext
  obtain ⟨x₁, h₁, hpays₁⟩ := compoundIf_succeeds hp₀ hfirst
  obtain ⟨hrun₁, hsame₁, hshift₁⟩ := compoundIf_quiet s.inBoundary hfirst h₁
  have hp₁ := hrun₁.solvent hcur hp₀
  have hsecond := second_active hsame₁ fun hboundary => (hshift₁ hboundary).1
  obtain ⟨x₂, h₂, hpays₂⟩ := compoundIf_succeeds hp₁ hsecond
  obtain ⟨hrun₂, hsame₂, hshift₂⟩ := compoundIf_quiet s.inBoundary hsecond h₂
  have hp₂ := hrun₂.solvent hcur hp₁
  have hsettled := compoundBoth_settled hok hnext hsame₁ hshift₁ hsame₂ hshift₂
  obtain ⟨x₃, h₃, hpays₃⟩ := accrueActive_succeeds hp₂ hsettled
  refine ⟨x₃.del, (x₃.storage.writeValidatorUnclaimedRewards v x₃.unclaimedRewards).writeDelegator v
    d x₃.del, ?_, ?_⟩
  · simp only [bind_eq_ok, pure_eq_ok]
    exact ⟨x₁, h₁, x₂, h₂, x₃, h₃, rfl⟩
  · obtain ⟨hrewards, hwithdrawals, hindex, howed⟩ := (hpays₁.trans hpays₂).trans hpays₃
    have hrequests : ∑ w, ((x₃.poolAt v d).withdrawals d w).owed (x₃.poolAt v d).indexAt =
        ∑ w, (s.withdrawals v d w).owed (s.pool v).indexAt := by
      rw [hwithdrawals, hindex]
      rfl
    have hstart : Settling.poolAt ⟨s, r, (s.validators v).unclaimedRewards⟩ v d =
        (s.pool v).setDelegator d r := rfl
    rw [hstart, howed₀, Pool.owedTo, hrequests] at howed
    dsimp only at hrewards howed
    rw [← hrewards₀, Nat.mul_sub]
    have hmul := Nat.mul_le_mul_left unitBias hrewards
    omega

end Settlement

section Withdrawal

variable {s : Storage} {v : ValId} {w : WithdrawId} {msg : Message}

/-- A request is ready when its epoch and the withdrawal delay are over. -/
def WithdrawalRequest.Ready (currentEpoch : ℕ) (q : WithdrawalRequest) : Prop :=
  q.amount ≠ 0 ∧ q.epoch ≠ 0 ∧ q.epoch + withdrawalDelay ≤ currentEpoch

/-- The rewards of a ready request, from the entry of its epoch. -/
def readyRewards (s : Storage) (v : ValId) (d : Address) (w : WithdrawId) : ℕ :=
  rewardShare (s.withdrawals v d w).amount (s.accumulators (s.withdrawals v d w).epoch v).value
    (s.withdrawals v d w).accumulator

/-- An open request whose epoch has begun is settled with the index at its epoch, and what it is
owed is covered. -/
theorem Pool.Sound.request_share {cur : ℕ} {b : Bool} {p : Pool} (hp : p.Sound cur b)
    (hbound : p.liabilities < 2 ^ 128) {d : Address} (hamount : (p.withdrawals d w).amount ≠ 0)
    (hle : (p.withdrawals d w).epoch ≤ cur) :
    p.entryValue (p.withdrawals d w).epoch = (p.accumulators (p.withdrawals d w).epoch).value ∧
      (p.accumulators (p.withdrawals d w).epoch).value = p.indexAt (p.withdrawals d w).epoch ∧
      (p.withdrawals d w).accumulator ≤ p.indexAt (p.withdrawals d w).epoch ∧
      (p.indexAt (p.withdrawals d w).epoch - (p.withdrawals d w).accumulator) *
        (p.withdrawals d w).amount ≤ unitBias * p.unclaimed ∧
      (p.indexAt (p.withdrawals d w).epoch - (p.withdrawals d w).accumulator) *
        (p.withdrawals d w).amount < wordBound := by
  obtain ⟨hepoch, -, hacc⟩ := hp.request d w hamount
  have hself : (p.withdrawals d w).references (p.withdrawals d w).epoch = 1 :=
    (if_neg hamount).trans (if_pos ⟨rfl, hepoch⟩)
  have hrefs : 0 < p.referencesOf d (p.withdrawals d w).epoch := by
    have hcell := cell_le_sum
      (fun w' => (p.withdrawals d w').references (p.withdrawals d w).epoch) w
    rw [Pool.referencesOf]
    omega
  have hlive := (hp.refcount_pos hrefs).ne'
  have hshare : (p.indexAt (p.withdrawals d w).epoch - (p.withdrawals d w).accumulator) *
      (p.withdrawals d w).amount ≤ p.owedTo d := by
    have hcell := cell_le_sum (fun w' => (p.withdrawals d w').owed p.indexAt) w
    have howed : (p.withdrawals d w).owed p.indexAt =
        (p.indexAt (p.withdrawals d w).epoch - (p.withdrawals d w).accumulator) *
          (p.withdrawals d w).amount := Nat.mul_comm ..
    rw [Pool.owedTo]
    omega
  obtain ⟨hcover, hfits⟩ := hp.owedTo_lt hbound d
  exact ⟨if_neg hlive, hp.value_eq _ hle hlive, hacc, hshare.trans hcover,
    lt_of_le_of_lt hshare hfits⟩

/-- The storage from which `handle_withdraw` pays. -/
def withdrawing (s : Storage) (v : ValId) (d : Address) (w : WithdrawId) : Storage :=
  (decrementAccumulatorRefcount s (s.withdrawals v d w).epoch v).2.writeValidatorUnclaimedRewards v
    ((s.validators v).unclaimedRewards - readyRewards s v d w)

/-- In a solvent pool nothing but the payment of a ready request can fail. -/
theorem handleWithdraw_ready (hp : (s.pool v).Solvent s.epoch s.inBoundary)
    (hgas : gas.withdraw ≤ msg.gasLimit)
    (hready : (s.withdrawals v msg.caller w).Ready s.epoch) :
    handleWithdraw s msg v w = (do
      let s₁ ← transfer (withdrawing s v msg.caller w) msg
        ((s.withdrawals v msg.caller w).amount + readyRewards s v msg.caller w)
      return ⟨(s₁.writeWithdrawalRequest v msg.caller w .zero).record v (.withdrawn msg.caller
        (s.withdrawals v msg.caller w).amount (readyRewards s v msg.caller w)),
        gas.withdraw, .success⟩) := by
  obtain ⟨hamount, hepoch, hle⟩ := hready
  obtain ⟨hentry, hvalue, hacc, hcover, hfits⟩ :=
    hp.sound.request_share hp.bound hamount (le_of_add_le_left hle)
  have hready : ¬(¬isEpochActive s.epoch (s.withdrawals v msg.caller w).epoch = true ∨
      u64Add (s.withdrawals v msg.caller w).epoch withdrawalDelay > s.epoch) := by
    have hdelay : u64Add (s.withdrawals v msg.caller w).epoch withdrawalDelay ≤ s.epoch :=
      (Nat.mod_le ..).trans hle
    rw [isEpochActive_iff]
    exact fun hnot => hnot.elim (fun hnot => hnot ⟨hepoch, le_of_add_le_left hle⟩) (by omega)
  obtain ⟨hdec, -, -, -, hvalidators⟩ :=
    decrement_pool s (s.withdrawals v msg.caller w).epoch v
  have hvalue : (s.accumulators (s.withdrawals v msg.caller w).epoch v).value =
      (s.pool v).indexAt (s.withdrawals v msg.caller w).epoch := hvalue
  have hentry : (decrementAccumulatorRefcount s (s.withdrawals v msg.caller w).epoch v).1 =
      (s.accumulators (s.withdrawals v msg.caller w).epoch v).value := hdec.trans hentry
  have hcalc : calculateRewards (s.withdrawals v msg.caller w).amount
      (s.accumulators (s.withdrawals v msg.caller w).epoch v).value
      (s.withdrawals v msg.caller w).accumulator = .ok (readyRewards s v msg.caller w) := by
    refine calculateRewards_eq_ok.mpr ⟨?_, ?_, rfl⟩
    · rw [hvalue]
      exact hacc
    · rw [hvalue]
      exact hfits
  have hsolvent : readyRewards s v msg.caller w ≤ (s.validators v).unclaimedRewards := by
    rw [readyRewards, hvalue]
    exact Pool.rewardShare_le hcover
  have hpayout : (s.withdrawals v msg.caller w).amount + readyRewards s v msg.caller w <
      wordBound := by
    have hword : 2 ^ 128 < wordBound := by decide +kernel
    have hbound := hp.bound
    have hrow := cell_le_sum (fun w => (s.withdrawals v msg.caller w).amount) w
    have hall := cell_le_sum (fun d => ∑ w, (s.withdrawals v d w).amount) msg.caller
    have hliabilities : (s.pool v).liabilities = (s.validators v).unclaimedRewards +
        ∑ d, Pool.held (s.delegators v d) + ∑ d, ∑ w, (s.withdrawals v d w).amount := rfl
    omega
  rw [handleWithdraw, failIf_of_not (not_lt.mpr hgas), ok_bind]
  dsimp only
  rw [failIf_of_not hamount, ok_bind, failIf_of_not hready, ok_bind, hentry, hcalc, ok_bind,
    hvalidators, failIf_of_not (not_lt.mpr hsolvent), ok_bind,
    checkedSub_eq_ok.mpr ⟨hsolvent, rfl⟩, ok_bind, checkedAdd_eq_ok.mpr ⟨hpayout, rfl⟩, ok_bind]
  rfl

/-- How a payment can fail. -/
theorem transfer_error {amount : ℕ} {e : PrecompileError} (h : transfer s msg amount = .error e) :
    s.balance < amount ∧ e = .other "Transfer failed: OutOfFunds" ∨
      wordBound ≤ msg.callerBalance + amount ∧
        e = .other "Transfer failed: OverflowPayment" := by
  unfold transfer at h
  split at h
  next => cases h
  next =>
    by_cases hfunds : s.balance < amount
    · rw [failIf_of hfunds, error_bind] at h
      cases h
      exact .inl ⟨hfunds, rfl⟩
    · rw [failIf_of_not hfunds, ok_bind] at h
      by_cases hover : wordBound ≤ msg.callerBalance + amount
      · rw [failIf_of hover, error_bind] at h
        cases h
        exact .inr ⟨hover, rfl⟩
      · rw [failIf_of_not hover, ok_bind] at h
        cases h

/-- In a solvent pool a withdrawal fails neither for want of rewards nor in its arithmetic. -/
theorem handleWithdraw_errors {e : PrecompileError} (hcur : s.epoch + 1 < 2 ^ 64)
    (hp : (s.pool v).Solvent s.epoch s.inBoundary) (h : handleWithdraw s msg v w = .error e) :
    e ≠ solvencyError ∧ e ≠ internalError := by
  by_cases hgas : msg.gasLimit < gas.withdraw
  · rw [handleWithdraw, failIf_of hgas, error_bind] at h
    cases h
    decide
  by_cases hamount : (s.withdrawals v msg.caller w).amount = 0
  · rw [handleWithdraw, failIf_of_not hgas, ok_bind] at h
    dsimp only at h
    rw [failIf_of hamount, error_bind] at h
    cases h
    decide
  by_cases hready : ¬isEpochActive s.epoch (s.withdrawals v msg.caller w).epoch = true ∨
      u64Add (s.withdrawals v msg.caller w).epoch withdrawalDelay > s.epoch
  · rw [handleWithdraw, failIf_of_not hgas, ok_bind] at h
    dsimp only at h
    rw [failIf_of_not hamount, ok_bind, failIf_of hready, error_bind] at h
    cases h
    decide
  have hpast : (s.withdrawals v msg.caller w).Ready s.epoch := by
    obtain ⟨hepoch, hle⟩ := isEpochActive_iff.mp (not_not.mp fun hnot => hready (.inl hnot))
    have hdelay : ¬s.epoch < u64Add (s.withdrawals v msg.caller w).epoch withdrawalDelay :=
      fun hnot => hready (.inr hnot)
    have hone : withdrawalDelay = 1 := rfl
    rw [hone, u64Add_one (by omega)] at hdelay
    exact ⟨hamount, hepoch, not_lt.mp hdelay⟩
  rw [handleWithdraw_ready hp (not_lt.mp hgas) hpast] at h
  cases htransfer : transfer (withdrawing s v msg.caller w) msg
      ((s.withdrawals v msg.caller w).amount + readyRewards s v msg.caller w) with
  | ok s₁ =>
    rw [htransfer, ok_bind] at h
    cases h
  | error e' =>
    rw [htransfer, error_bind] at h
    cases h
    rcases transfer_error htransfer with ⟨-, rfl⟩ | ⟨-, rfl⟩ <;> decide

end Withdrawal

section Reachable

variable {s : Storage}

/-- Every pool is solvent in every state of an orderly run with countable references. -/
theorem reachable_solvent (h : Reachable stakingStep OrderlyCounted .empty s) (v : ValId) :
    s.epoch < 2 ^ 63 ∧ (s.pool v).Solvent s.epoch s.inBoundary := by
  have hguard (s : Storage) (tx) (s' : Storage) (hg : OrderlyCounted s tx s') :
      s'.epoch < 2 ^ 63 := hg.1.1
  have hepoch := reachable_epoch_lt hguard h
  have hreceived : s.received < 2 ^ 128 :=
    h.invariant (fun s => s.received < 2 ^ 128) (by decide) fun _ _ _ _ _ hg => hg.1.2.1
  obtain ⟨-, horder⟩ := reachable_inOrder h (by omega)
  exact ⟨hepoch, reachable_ledger hguard h v, (horder v).2, reachable_sound h v,
    (liabilities_le_received hguard h v).trans_lt hreceived⟩

/-- What a settlement of a delegator would credit now. -/
def settlementCredit (s : Storage) (v : ValId) (d : Address) : ℕ :=
  match pullDelegatorUpToDate s v d with
  | .ok (del, _) => del.rewards - (s.delegators v d).rewards
  | .error _ => 0

/-- What a request has earned so far: up to the entry of its epoch once that has begun, up to the
accumulator before. -/
def requestEarned (s : Storage) (v : ValId) (d : Address) (w : WithdrawId) : ℕ :=
  rewardShare (s.withdrawals v d w).amount
    (if (s.withdrawals v d w).epoch ≤ s.epoch then
      (s.accumulators (s.withdrawals v d w).epoch v).value
    else (s.validators v).accumulatedRewardPerToken)
    (s.withdrawals v d w).accumulator

/-- The unclaimed rewards of a validator cover what settlements and requests have earned, every
settlement goes through, and no withdrawal fails in its reward computation. -/
structure CoversRewards (s : Storage) (v : ValId) : Prop where
  covered : ∑ d, (settlementCredit s v d + ∑ w, requestEarned s v d w) ≤
    (s.validators v).unclaimedRewards
  settles : ∀ d, (pullDelegatorUpToDate s v d).isOk = true
  withdraws : ∀ msg w, handleWithdraw s msg v w ≠ .error solvencyError ∧
    handleWithdraw s msg v w ≠ .error internalError

/-- What a request has earned is part of what it is owed. -/
theorem requestEarned_le {v : ValId} (hp : (s.pool v).Solvent s.epoch s.inBoundary) (d : Address)
    (w : WithdrawId) :
    unitBias * requestEarned s v d w ≤ (s.withdrawals v d w).owed (s.pool v).indexAt := by
  have hshare (value : ℕ) (hvalue : (s.withdrawals v d w).amount ≠ 0 →
      value = (s.pool v).indexAt (s.withdrawals v d w).epoch) :
      unitBias * rewardShare (s.withdrawals v d w).amount value (s.withdrawals v d w).accumulator ≤
        (s.withdrawals v d w).owed (s.pool v).indexAt := by
    refine (Pool.rewardShare_bounds _ _ _).1.trans ?_
    rw [WithdrawalRequest.owed, Nat.mul_comm]
    by_cases hamount : (s.withdrawals v d w).amount = 0
    · rw [hamount, Nat.zero_mul, Nat.zero_mul]
    · rw [hvalue hamount]
  unfold requestEarned
  split
  next hle =>
    exact hshare _ fun hamount => (hp.sound.request_share hp.bound hamount hle).2.1
  next hnot =>
    exact hshare _ fun _ => (hp.sound.indexAt_later (not_le.mp hnot)).symm

/-- Solvency: in every state of an orderly run with countable references the unclaimed rewards of
every validator cover what its settlements and requests have earned, so that no settlement and no
withdrawal fails for want of rewards or in its arithmetic. -/
theorem rewards_covered (h : Reachable stakingStep OrderlyCounted .empty s) (v : ValId) :
    CoversRewards s v := by
  obtain ⟨hepoch, hp⟩ := reachable_solvent h v
  refine ⟨?_, fun d => ?_, fun msg w => ⟨fun herror => ?_, fun herror => ?_⟩⟩
  · have hbias : 0 < unitBias := by decide
    refine Nat.le_of_mul_le_mul_left ?_ hbias
    refine le_trans ?_ hp.sound.solvent
    rw [Finset.mul_sum]
    refine Finset.sum_le_sum fun d _ => ?_
    obtain ⟨del, s', hpull, hpaid⟩ := pullDelegatorUpToDate_succeeds (by omega) hp d
    have hcredit : settlementCredit s v d = del.rewards - (s.delegators v d).rewards := by
      rw [settlementCredit, hpull]
    have hrequests : unitBias * ∑ w, requestEarned s v d w ≤
        ∑ w, (s.withdrawals v d w).owed (s.pool v).indexAt := by
      rw [Finset.mul_sum]
      exact Finset.sum_le_sum fun w _ => requestEarned_le hp d w
    rw [Nat.mul_add, hcredit]
    omega
  · obtain ⟨del, s', hpull, -⟩ := pullDelegatorUpToDate_succeeds (by omega) hp d
    rw [hpull]
    rfl
  · exact (handleWithdraw_errors (by omega) hp herror).1 rfl
  · exact (handleWithdraw_errors (by omega) hp herror).2 rfl

/-- In the opened state the unclaimed rewards of the first validator cover its delegators. -/
theorem rewards_covered_opened : CoversRewards openedState 1 :=
  rewards_covered openedState_orderlyCounted 1

end Reachable

end SuwappuRevm.Staking
