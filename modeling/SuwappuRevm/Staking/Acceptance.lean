import SuwappuRevm.Foundations.Guards
import SuwappuRevm.Staking.Commutation
import SuwappuRevm.Staking.Limits

/-!
# Which calls are accepted

The handlers check their arguments on the way, between computations that can fail themselves. In
orderly runs none of these fails: the arithmetic fits, the unclaimed rewards cover every
settlement, the balance covers every payment and the lists take every insertion. How a call ends
is therefore said by a list of checks on the state before it.
-/

namespace SuwappuRevm.Staking

open Foundations

section Checks

/-- The stake of a record whose epoch has begun. -/
def Delegator.begunStake (cur : ℕ) (r : Delegator) : ℕ :=
  r.stake + (if r.deltaEpoch ≤ cur then r.deltaStake else 0) +
    if r.nextDeltaEpoch ≤ cur then r.nextDeltaStake else 0

/-- The rewards of a record after a settlement. -/
def settledRewards (s : Storage) (v : ValId) (d : Address) : ℕ :=
  (((s.pool v).pulled s.epoch d).delegators d).rewards

/-- A payment that the caller's balance cannot take. -/
def overflowPayment : PrecompileError := .other "Transfer failed: OverflowPayment"

/-- The checks of a method that takes no value. -/
def unpaid (msg : Message) (cost : ℕ) (checks : List (Bool × PrecompileError)) :
    List (Bool × PrecompileError) :=
  (decide (msg.callValue ≠ 0), .other "value non-zero") :: (decide (msg.gasLimit < cost), .outOfGas)
    :: checks

/-- The checks of a syscall. -/
def systemOnly (msg : Message) (check : Bool × PrecompileError) : List (Bool × PrecompileError) :=
  [(decide (msg.caller ≠ systemAddress), unauthorized), check]

/-- Why a call is rejected: conditions on the state before it with their errors, in the order of
the source. -/
def rejections (s : Storage) (msg : Message) : StakingCall → List (Bool × PrecompileError)
  | .addValidator payload =>
    [(decide (msg.gasLimit < gas.addValidator), .outOfGas),
      (decide (payload.length < 165), invalidInput),
      (decide (msg.callValue ≠ beNat ((payload.drop 101).take 32)), invalidInput),
      (decide (msg.callValue < minAuthAddressStake), .other "insufficient stake"),
      (decide (maxCommission < beNat ((payload.drop 133).take 32)), .other "commission too high"),
      (decide (s.valIdSecp (Address.ofBytes ((payload.drop 81).take 20)) ≠ 0),
        .other "validator exists"),
      (decide (s.valIdBls (Address.ofBytes (((payload.drop 33).take 48).take 20)) ≠ 0),
        .other "validator exists"),
      (decide (ReservedAddress (Address.ofBytes ((payload.drop 81).take 20))), invalidInput)]
  | .delegate v =>
    [(decide (msg.gasLimit < gas.delegate), .outOfGas),
      (decide ¬(s.validators v).Exists, unknownValidator),
      (decide (msg.callValue ≠ 0 ∧ msg.callValue < dustThreshold),
        .other "delegation is too small"),
      (decide (msg.callValue ≠ 0 ∧ ReservedAddress msg.caller), invalidInput)]
  | .undelegate v amount w => unpaid msg gas.undelegate
    [(decide (amount ≠ 0 ∧ ¬(s.validators v).Exists), unknownValidator),
      (decide (amount ≠ 0 ∧ (s.withdrawals v msg.caller w).amount ≠ 0),
        .other "withdrawal id exists"),
      (decide ((s.delegators v msg.caller).begunStake s.epoch < amount),
        .other "insufficient stake")]
  | .withdraw v w => unpaid msg gas.withdraw
    [(decide ((s.withdrawals v msg.caller w).amount = 0), .other "unknown withdrawal id"),
      (decide (s.epoch < (s.withdrawals v msg.caller w).epoch + withdrawalDelay),
        .other "withdrawal not ready"),
      (decide (wordBound ≤ msg.callerBalance +
        ((s.withdrawals v msg.caller w).amount + readyRewards s v msg.caller w)), overflowPayment)]
  | .compound _ => unpaid msg gas.compound []
  | .claimRewards v => unpaid msg gas.claimRewards
    [(decide (settledRewards s v msg.caller ≠ 0 ∧
      wordBound ≤ msg.callerBalance + settledRewards s v msg.caller), overflowPayment)]
  | .changeCommission v commission => unpaid msg gas.changeCommission
    [(decide ¬(s.validators v).Exists, unknownValidator),
      (decide (msg.caller ≠ (s.validators v).authAddress), .other "requires auth address"),
      (decide (commission > maxCommission), .other "commission too high")]
  | .externalReward v =>
    [(decide (msg.gasLimit < gas.externalReward), .outOfGas),
      (decide ¬(s.validators v).Exists, unknownValidator),
      (decide (s.activeStake v = 0), .other "not in validator set"),
      (decide (msg.callValue < minExternalReward), .other "external reward too small"),
      (decide (msg.callValue > maxExternalReward), .other "external reward too large")]
  | .getDelegator _ _ => unpaid msg gas.getDelegator []
  | .syscallReward author _ =>
    (decide (msg.gasLimit < gas.syscallReward), .outOfGas) ::
      (decide (msg.caller ≠ systemAddress), unauthorized) ::
        [(decide (s.valIdSecp author = 0), .other "not in validator set"),
          (decide (s.activeStake (s.valIdSecp author) = 0), .other "not in validator set")]
  | .syscallSnapshot => unpaid msg gas.syscallSnapshot
    (systemOnly msg (s.inBoundary, .other "called snapshot while in boundary"))
  | .syscallOnEpochChange epoch => unpaid msg gas.syscallOnEpochChange
    (systemOnly msg (decide (epoch.val ≤ s.epoch), .other "invalid epoch change"))

/-- The checks do not look at what the call brings in. -/
theorem rejections_credit (s : Storage) (income : ℕ) (msg : Message) (call : StakingCall) :
    rejections (s.credit income) msg call = rejections s msg call := by
  cases call <;> rfl

end Checks

section BegunStake

namespace Delegator

variable {r : Delegator} {cur : ℕ}

/-- A promotion moves pending stake, begun or not. -/
theorem Tracked.begunStake_promoteNext (h : r.Tracked) :
    (promoteNext cur r).begunStake cur = r.begunStake cur := by
  unfold promoteNext
  split
  next hdue =>
    have hnone : r.deltaStake = 0 := by
      by_contra hne
      exact h.delta_iff.mp hne hdue.1
    simp [begunStake, hnone]
  next => rfl

/-- Folding in moves begun stake. -/
theorem begunStake_foldDue (log : IndexLog) : (r.foldDue log cur).begunStake cur =
    r.begunStake cur := by
  by_cases hdue : isEpochActive cur r.deltaEpoch = true
  · rw [foldDue_of_due hdue]
    have hle := (isEpochActive_iff.mp hdue).2
    change r.stake + r.deltaStake + (if r.nextDeltaEpoch ≤ cur then r.nextDeltaStake else 0) +
      (if 0 ≤ cur then 0 else 0) = _
    rw [begunStake, if_pos hle, ite_self, Nat.add_zero]
  · rw [foldDue_of_not hdue]

/-- Accruing moves no stake. -/
theorem begunStake_accruedBy (log : IndexLog) :
    (r.accruedBy log).begunStake cur = r.begunStake cur := by
  unfold accruedBy
  split <;> rfl

/-- In a settled record the begun stake is the active one. -/
theorem Settled.begunStake_eq (h : r.Settled cur) (ht : r.Tracked) :
    r.begunStake cur = r.stake := by
  have hdelta : (if r.deltaEpoch ≤ cur then r.deltaStake else 0) = 0 := by
    have hsettled := h.delta
    have htracked := ht.delta_iff
    split <;> omega
  have hnext : (if r.nextDeltaEpoch ≤ cur then r.nextDeltaStake else 0) = 0 := by
    have hsettled := h.next
    have htracked := ht.next_iff
    split <;> omega
  rw [begunStake, hdelta, hnext, Nat.add_zero]

end Delegator

/-- The active stake after a settlement is the begun stake before it. -/
theorem Pool.Solvent.pulled_stake {cur : ℕ} {b : Bool} {p : Pool} (hcur : cur + 1 < 2 ^ 64)
    (hp : p.Solvent cur b) (d : Address) (hsettled : ((p.pulled cur d).delegators d).Settled cur) :
    ((p.pulled cur d).delegators d).stake = (p.delegators d).begunStake cur := by
  have htracked := hp.ledger.tracked d
  have htracked' := ((p.pulled_upkeep cur d).record d htracked).1
  rw [← hsettled.begunStake_eq htracked', hp.sound.pulled_record hcur hp.epochs d,
    Delegator.settle, Delegator.begunStake_accruedBy, Delegator.begunStake_foldDue,
    Delegator.begunStake_foldDue, htracked.begunStake_promoteNext]

end BegunStake

section Succeeds

variable {s t : Storage} {v : ValId} {d : Address}

/-- The stake of a pool is part of what it owes. -/
theorem Pool.Ledger.stake_le {p : Pool} (hp : p.Ledger) : p.stake ≤ p.liabilities := by
  have hsum : ∑ d, (p.delegators d).principal ≤ ∑ d, Pool.held (p.delegators d) :=
    Finset.sum_le_sum fun d _ => Nat.le_add_right ..
  rw [hp.stake_eq, Pool.liabilities]
  omega

/-- What a ready request is paid is part of what its pool owes. -/
theorem Pool.Solvent.ready_payout_le {w : WithdrawId}
    (hp : (s.pool v).Solvent s.epoch s.inBoundary)
    (hready : (s.withdrawals v d w).Ready s.epoch) :
    (s.withdrawals v d w).amount + readyRewards s v d w ≤ (s.pool v).liabilities := by
  obtain ⟨hamount, hepoch, hle⟩ := hready
  obtain ⟨-, hvalue, -, hcover, -⟩ :=
    hp.sound.request_share hp.bound hamount (le_of_add_le_left hle)
  have hvalue : (s.accumulators (s.withdrawals v d w).epoch v).value =
      (s.pool v).indexAt (s.withdrawals v d w).epoch := hvalue
  have hrewards : readyRewards s v d w ≤ (s.pool v).unclaimed := by
    rw [readyRewards, hvalue]
    exact Pool.rewardShare_le hcover
  have hrow := cell_le_sum (fun w => (s.withdrawals v d w).amount) w
  have hall := cell_le_sum (fun d => ∑ w, (s.withdrawals v d w).amount) d
  have howed : (s.pool v).liabilities = (s.pool v).unclaimed +
      ∑ d, Pool.held (s.delegators v d) + ∑ d, ∑ w, (s.withdrawals v d w).amount := rfl
  omega

/-- A settlement that goes through leaves a solvent pool that owes the same. -/
structure SettledTo (s : Storage) (v : ValId) (d : Address) (del : Delegator) (s₁ : Storage) :
    Prop where
  pull : pullDelegatorUpToDate s v d = .ok (del, s₁)
  touches : Touches v s s₁
  balance_eq : s₁.balance = s.balance
  record_eq : s₁.delegators v d = del
  solvent : (s₁.pool v).Solvent s₁.epoch s₁.inBoundary
  liabilities_eq : (s₁.pool v).liabilities = (s.pool v).liabilities
  rewards_eq : del.rewards = settledRewards s v d
  stake_eq : del.stake = (s.delegators v d).begunStake s.epoch

/-- In a solvent pool every settlement goes through. -/
theorem Pool.Solvent.settles (hcur : s.epoch + 2 < 2 ^ 64)
    (hp : (s.pool v).Solvent s.epoch s.inBoundary) (d : Address) :
    ∃ del s₁, SettledTo s v d del s₁ := by
  obtain ⟨del, s₁, hpull, -⟩ := pullDelegatorUpToDate_succeeds hcur hp d
  obtain ⟨htouches, hbalance, hself⟩ := pullDelegatorUpToDate_touches hpull
  obtain ⟨hrun, hsettled⟩ := pullDelegatorUpToDate_spec (by omega) (hp.epochs d) hpull
  have hrecord := pullDelegatorUpToDate_record hpull
  have howed := Nat.add_right_cancel (hrun.liabilities hp.ledger)
  refine ⟨del, s₁, hpull, htouches, hbalance, hself, ?_, howed, ?_, ?_⟩
  · rw [htouches.epoch_eq, htouches.inBoundary_eq]
    exact hrun.solvent hcur hp
  · rw [settledRewards, hrecord]
  · have hstake := hp.pulled_stake (by omega) d (by rw [hrecord]; exact hsettled)
    rw [hrecord] at hstake
    exact hstake

/-- Adding a delegation goes through when the pool stays far below a word. -/
theorem addDelegation_succeeds {amount : ℕ} (hp : (t.pool v).Solvent t.epoch t.inBoundary)
    (hamount : amount < 2 ^ 128) :
    ∃ del' t', addDelegation t v d amount (t.delegators v d) = .ok (del', t') := by
  have hword : 2 ^ 128 + 2 ^ 128 < wordBound := by decide +kernel
  have hbound := hp.bound
  have hstake : (t.validators v).stake ≤ (t.pool v).liabilities := hp.ledger.stake_le
  have hheld := Pool.held_le (t.pool v) d
  rw [Pool.held, Delegator.principal] at hheld
  change _ + ((t.delegators v d).stake + (t.delegators v d).deltaStake +
    (t.delegators v d).nextDeltaStake + (t.delegators v d).rewards) ≤ _ at hheld
  have hpending : ∃ need del', addPending t.inBoundary t.getActivationEpoch amount
      (t.delegators v d) = .ok (need, del') := by
    unfold addPending
    split
    · rw [checkedAdd_eq_ok.mpr ⟨by omega, rfl⟩]
      exact ⟨_, _, rfl⟩
    · rw [checkedAdd_eq_ok.mpr ⟨by omega, rfl⟩]
      exact ⟨_, _, rfl⟩
  obtain ⟨need, del', hpending⟩ := hpending
  have hkeeps : ((incrementIf need (t.writeDelegator v d del') v).validators v).stake =
      (t.validators v).stake := by
    cases need <;> rfl
  rw [addDelegation, hpending, ok_bind]
  dsimp only
  rw [hkeeps, checkedAdd_eq_ok.mpr ⟨by omega, rfl⟩]
  exact ⟨_, _, rfl⟩

/-- The lists refuse reserved addresses and nothing else. -/
theorem enlist_outcome (hv : ¬(v = 0 ∨ v = sentinelValId)) (del : Delegator) :
    outcome (enlist s v d del) = firstFailure [(decide (ReservedAddress d), invalidInput)] := by
  unfold enlist linkedListInsert
  dsimp only
  generalize addToValsetIf _ _ _ = t
  have hvalId (t : Storage) : outcome (linkedListInsertValId t v d) = .ok () := by
    rw [linkedListInsertValId, failIf_of_not hv, ok_bind]
    dsimp only
    split <;> rfl
  unfold linkedListInsertAddress
  by_cases hd : d = 0 ∨ d = sentinelAddress
  · have hreserved : decide (ReservedAddress d) = true := decide_eq_true hd
    rw [failIf_of hd, firstFailure, if_pos hreserved]
    rfl
  · have hfree : ¬decide (ReservedAddress d) = true := fun h => hd (of_decide_eq_true h)
    rw [failIf_of_not hd, firstFailure, if_neg hfree, ok_bind]
    dsimp only
    split <;> exact hvalId _

/-- A delegation under a valid id is refused for reserved addresses only. -/
theorem internalDelegate_outcome {amount : ℕ} (hcur : s.epoch + 2 < 2 ^ 64)
    (hp : (s.pool v).Solvent s.epoch s.inBoundary) (hv : ¬(v = 0 ∨ v = sentinelValId))
    (hamount : amount < 2 ^ 128) : outcome (internalDelegate s v d amount) =
      firstFailure [(decide (ReservedAddress d), invalidInput)] := by
  obtain ⟨del, s₁, hsettled⟩ := hp.settles hcur d
  obtain ⟨del', s₂, hadd⟩ := addDelegation_succeeds (d := d) hsettled.solvent hamount
  rw [hsettled.record_eq] at hadd
  rw [internalDelegate, outcome_bind hsettled.pull]
  dsimp only
  rw [outcome_bind hadd]
  dsimp only
  exact (outcome_bind_ok _ _).trans (enlist_outcome hv del')

/-- A payment within the balance is refused by the caller's balance only. -/
theorem transfer_outcome {msg : Message} {amount : ℕ} (hfunds : amount ≤ t.balance) :
    outcome (transfer t msg amount) = firstFailure
      [(decide (amount ≠ 0 ∧ wordBound ≤ msg.callerBalance + amount), overflowPayment)] := by
  unfold transfer
  by_cases hzero : amount = 0
  · rw [if_pos hzero, firstFailure, if_neg (by simp [hzero])]
    rfl
  · rw [if_neg hzero, failIf_of_not (not_lt.mpr hfunds), ok_bind]
    simp only [ne_eq, hzero, not_false_eq_true, true_and]
    exact outcome_failIf fun _ => rfl

end Succeeds

section Outcomes

variable {s : Storage} {msg : Message}

/-- A method that takes no value checks this first. -/
theorem notPayable_outcome {result : Except PrecompileError Answer}
    {checks : List (Bool × PrecompileError)} (h : outcome result = firstFailure checks) :
    outcome (notPayable msg result) =
      firstFailure ((decide (msg.callValue ≠ 0), .other "value non-zero") :: checks) :=
  outcome_failIf fun _ => h

/-- How a commission change ends. -/
theorem changeCommission_outcome (v : ValId) (commission : ℕ) :
    outcome (handleChangeCommission s msg v commission) =
      firstFailure (rejections s msg (.changeCommission v commission)).tail := by
  unfold handleChangeCommission
  refine outcome_failIf fun _ => ?_
  refine outcome_failIf fun _ => ?_
  refine outcome_failIf fun _ => ?_
  exact outcome_failIf fun _ => rfl

/-- How a snapshot ends. -/
theorem syscallSnapshot_outcome : outcome (handleSyscallSnapshot s msg) =
    firstFailure (rejections s msg .syscallSnapshot).tail := by
  unfold handleSyscallSnapshot
  refine outcome_failIf fun _ => ?_
  refine outcome_failIf fun _ => ?_
  have hlist : (rejections s msg .syscallSnapshot).tail.tail.tail =
      [(decide (s.inBoundary = true), .other "called snapshot while in boundary")] := by
    rw [Bool.decide_coe]
    rfl
  exact (outcome_failIf fun _ => rfl).trans (congrArg firstFailure hlist.symm)

/-- How an epoch change ends. -/
theorem syscallOnEpochChange_outcome (epoch : Fin (2 ^ 64)) :
    outcome (handleSyscallOnEpochChange s msg epoch) =
      firstFailure (rejections s msg (.syscallOnEpochChange epoch)).tail := by
  unfold handleSyscallOnEpochChange
  refine outcome_failIf fun _ => ?_
  refine outcome_failIf fun _ => ?_
  exact outcome_failIf fun _ => rfl

end Outcomes

/-- What a call finds in a run, its income credited: solvent pools which the balance covers,
validators and lists in order, and room for what the call brings in. -/
structure InService (income : ℕ) (s : Storage) : Prop where
  epoch_lt : s.epoch < 2 ^ 63
  solvent : ∀ v, (s.pool v).Solvent s.epoch s.inBoundary
  covered : ∀ v, (s.pool v).liabilities ≤ s.balance
  directory : Directory s
  registered : Registered s
  founded : Founded s
  acc_le : ∀ v, (s.pool v).acc + unitBias * income ≤ unitBias * s.received
  commission_le : ∀ v, s.viewCommission v ≤ maxCommission
  unused : ∀ d, ReservedAddress d → Unused s d
  ids_le : s.lastValId.val * minAuthAddressStake ≤ s.received
  income_le : income ≤ s.received
  received_lt : s.received < 2 ^ 128

/-- Every validator was registered with the least stake of an auth address. -/
theorem lastValId_le_received {guard : Storage → Message × StakingCall → Storage → Prop}
    {s : Storage} (hguard : ∀ s tx s', guard s tx s' → s'.epoch < 2 ^ 63)
    (h : Reachable stakingStep guard .empty s) :
    s.lastValId.val * minAuthAddressStake ≤ s.received := by
  induction h with
  | start => exact le_of_eq (Nat.zero_mul _)
  | @call s s' tx hreach hstep hg ih =>
    have hepoch := reachable_epoch_lt hguard hreach
    obtain ⟨hreg, horder⟩ := reachable_inOrder hreach (by omega)
    rw [stakingStep_received hreg horder hstep]
    rcases stakingStep_registers hstep with hsame | ⟨hnew, hmin⟩
    · rw [hsame.lastValId_eq]
      exact ih.trans (Nat.le_add_right ..)
    · have hval : s'.lastValId.val ≤ s.lastValId.val + 1 := by
        rw [hnew.lastValId_eq, Fin.val_add]
        exact Nat.mod_le ..
      calc s'.lastValId.val * minAuthAddressStake
          ≤ (s.lastValId.val + 1) * minAuthAddressStake := Nat.mul_le_mul_right _ hval
        _ = s.lastValId.val * minAuthAddressStake + minAuthAddressStake := Nat.succ_mul ..
        _ ≤ s.received + income tx.1 tx.2 := Nat.add_le_add ih hmin

/-- A call in a run finds the contract in service. -/
theorem reachable_inService {s : Storage} {income : ℕ}
    (h : Reachable stakingStep OrderlyCounted .empty s) (hincome : s.received + income < 2 ^ 128) :
    InService income (s.credit income) := by
  have hguard (s : Storage) (tx) (s' : Storage) (hg : OrderlyCounted s tx s') :
      s'.epoch < 2 ^ 63 := hg.1.1
  have hepoch := reachable_epoch_lt hguard h
  obtain ⟨hreg, -⟩ := reachable_inOrder h (by omega)
  have hsame : SameDirectory s (s.credit income) := ⟨rfl, fun _ => rfl, rfl⟩
  refine ⟨hepoch, fun v => (reachable_solvent h v).2, fun v => ?_,
    hsame.directory (reachable_directory h), hreg.credit income,
    (reachable_founded h (by omega)).credit income, fun v => ?_,
    fun v => reachable_viewCommission_le h v, fun d hd => ?_, ?_, Nat.le_add_left .., hincome⟩
  · have hcell := cell_le_sum (fun v => (s.pool v).liabilities) v
    rw [← liabilities_eq_sum, ← balance_eq_liabilities hguard h] at hcell
    exact hcell.trans (Nat.le_add_right ..)
  · have hacc := reachable_acc_le hguard h v
    change (s.pool v).acc + unitBias * income ≤ unitBias * (s.received + income)
    rw [Nat.mul_add]
    exact Nat.add_le_add_right hacc _
  · obtain ⟨hauth, hrecord, hrequests⟩ := reachable_unused hguard h hd
    exact ⟨hauth, hrecord, hrequests⟩
  · exact (lastValId_le_received hguard h).trans (Nat.le_add_right ..)

namespace InService

variable {s : Storage} {income : ℕ} {msg : Message} (hs : InService income s)

include hs

/-- There is room for another id below the sentinel. -/
theorem lastValId_lt : s.lastValId.val + 1 < 2 ^ 64 - 1 := by
  by_contra hnot
  have hlast : 2 ^ 64 - 2 ≤ s.lastValId.val := by omega
  have hmul := Nat.mul_le_mul_right minAuthAddressStake hlast
  have hroom : 2 ^ 128 ≤ (2 ^ 64 - 2) * minAuthAddressStake := by decide +kernel
  have hids := hs.ids_le
  have hreceived := hs.received_lt
  omega

/-- A registered id is not reserved. -/
theorem valid_of_exists {v : ValId} (hv : (s.validators v).Exists) :
    ¬(v = 0 ∨ v = sentinelValId) := by
  obtain ⟨hzero, hle⟩ := (hs.directory.exists_iff v).mp hv
  refine not_or.mpr ⟨hzero, fun hsentinel => ?_⟩
  have hlast := hs.lastValId_lt
  rw [hsentinel, Fin.le_def] at hle
  have hval : sentinelValId.val = 2 ^ 64 - 1 := by decide +kernel
  omega

/-- Every settlement goes through. -/
theorem settles (v : ValId) (d : Address) : ∃ del s₁, SettledTo s v d del s₁ := by
  have hepoch := hs.epoch_lt
  exact (hs.solvent v).settles (by omega) d

/-- A reward that fits the received value fits the arithmetic. -/
theorem reward_fits (v : ValId) {amount : ℕ} (hamount : amount ≤ income) :
    amount * unitBias < wordBound ∧
      (s.validators v).accumulatedRewardPerToken + amount * unitBias / s.activeStake v <
        wordBound := by
  have hfits : unitBias * 2 ^ 128 < wordBound := by decide +kernel
  have hacc : (s.validators v).accumulatedRewardPerToken + unitBias * income ≤
      unitBias * s.received := hs.acc_le v
  have hreceived := Nat.mul_le_mul_left unitBias hs.received_lt.le
  have hshare : amount * unitBias / s.activeStake v ≤ amount * unitBias := Nat.div_le_self ..
  have hmul := Nat.mul_le_mul_left unitBias hamount
  rw [Nat.mul_comm amount] at hshare ⊢
  omega

/-- How an external reward ends. -/
theorem externalReward_outcome (v : ValId) (hvalue : msg.callValue ≤ income) :
    outcome (handleExternalReward s msg v) =
      firstFailure (rejections s msg (.externalReward v)) := by
  have hword : 2 ^ 128 + 2 ^ 128 < wordBound := by decide +kernel
  have hunclaimed := Pool.held_le (s.pool v) 0
  have hbound := (hs.solvent v).bound
  have hincome := hs.income_le
  have hreceived := hs.received_lt
  obtain ⟨hmul, hsum⟩ := hs.reward_fits v hvalue
  unfold handleExternalReward
  refine outcome_failIf fun _ => ?_
  refine outcome_failIf fun _ => ?_
  refine outcome_failIf fun hview => ?_
  refine outcome_failIf fun _ => ?_
  refine outcome_failIf fun _ => ?_
  change _ + Pool.held _ ≤ _ at hunclaimed
  change (s.validators v).unclaimedRewards + _ ≤ _ at hunclaimed
  rw [checkedMulDiv_eq_ok.mpr ⟨hview, hmul, rfl⟩, ok_bind, checkedAdd_eq_ok.mpr ⟨hsum, rfl⟩,
    ok_bind, checkedAdd_eq_ok.mpr ⟨by omega, rfl⟩]
  rfl

/-- How a block reward ends. -/
theorem syscallReward_outcome (author : Address) {reward : Option ℕ}
    (hreward : reward.getD msg.callValue = income) :
    outcome (handleSyscallReward s msg author income) =
      firstFailure (rejections s msg (.syscallReward author reward)) := by
  have hword : 2 ^ 128 + 2 ^ 128 < wordBound := by decide +kernel
  have hincome := hs.income_le
  have hreceived := hs.received_lt
  unfold handleSyscallReward
  refine outcome_failIf fun _ => ?_
  refine outcome_failIf fun _ => ?_
  refine outcome_failIf fun _ => ?_
  refine outcome_failIf fun hview => ?_
  generalize s.valIdSecp author = v at *
  have hcommission : income * s.viewCommission v / mon ≤ income := by
    refine Nat.div_le_of_le_mul ?_
    rw [Nat.mul_comm mon]
    exact Nat.mul_le_mul_left income (hs.commission_le v)
  have hproduct : income * s.viewCommission v < wordBound := by
    have hfits : 2 ^ 128 * maxCommission < wordBound := by decide +kernel
    exact (Nat.mul_le_mul (by omega) (hs.commission_le v)).trans_lt hfits
  have hmon : mon ≠ 0 := by decide
  rw [checkedMulDiv_eq_ok.mpr ⟨hmon, hproduct, rfl⟩, ok_bind,
    checkedSub_eq_ok.mpr ⟨hcommission, rfl⟩, ok_bind]
  generalize income * s.viewCommission v / mon = commission at *
  have hheld := Pool.held_le (s.pool v) (s.validators v).authAddress
  have hbound := (hs.solvent v).bound
  rw [Pool.held] at hheld
  change (s.validators v).unclaimedRewards +
    (_ + (s.delegators v (s.validators v).authAddress).rewards) ≤ _ at hheld
  obtain ⟨hmul, hsum⟩ := hs.reward_fits v (Nat.sub_le income commission)
  dsimp only
  rw [checkedAdd_eq_ok.mpr ⟨by omega, rfl⟩, ok_bind, checkedAdd_eq_ok.mpr ⟨by omega, rfl⟩, ok_bind]
  unfold applyRewardAcc
  split
  · rw [checkedMulDiv_eq_ok.mpr ⟨hview, hmul, rfl⟩, ok_bind, checkedAdd_eq_ok.mpr ⟨hsum, rfl⟩]
    rfl
  · rfl

/-- How a registration ends. -/
theorem addValidator_outcome (payload : Bytes) (hvalue : msg.callValue ≤ income) :
    outcome (handleAddValidator s msg payload) =
      firstFailure (rejections s msg (.addValidator payload)) := by
  have hincome := hs.income_le
  have hreceived := hs.received_lt
  unfold handleAddValidator
  refine outcome_failIf fun _ => ?_
  refine outcome_failIf fun _ => ?_
  refine outcome_failIf fun _ => ?_
  refine outcome_failIf fun _ => ?_
  refine outcome_failIf fun _ => ?_
  generalize Address.ofBytes ((payload.drop 81).take 20) = auth
  generalize payload.take 33 = secpPubkey
  generalize (payload.drop 33).take 48 = blsPubkey
  generalize beNat ((payload.drop 133).take 32) = commission
  by_cases hsecp : s.valIdSecp auth ≠ 0
  · rw [createValidator, failIf_of hsecp, firstFailure, if_pos (decide_eq_true hsecp)]
    rfl
  by_cases hbls : s.valIdBls (Address.ofBytes (blsPubkey.take 20)) ≠ 0
  · rw [createValidator, failIf_of_not hsecp, ok_bind]
    dsimp only
    rw [failIf_of hbls, firstFailure_skip hsecp, firstFailure, if_pos (decide_eq_true hbls)]
    rfl
  rw [firstFailure_skip hsecp, firstFailure_skip hbls]
  obtain ⟨⟨v, s₁⟩, hcreate⟩ : ∃ r, createValidator s secpPubkey blsPubkey auth commission =
      .ok r := by
    rw [createValidator, failIf_of_not hsecp, ok_bind]
    dsimp only
    rw [failIf_of_not hbls]
    exact ⟨_, rfl⟩
  obtain ⟨hval, -, hpool, -, hepoch, hboundary, -⟩ := createValidator_spec hs.registered hcreate
  have hv : ¬(v = 0 ∨ v = sentinelValId) := by
    have hlast := hs.lastValId_lt
    have hsentinel : sentinelValId.val = 2 ^ 64 - 1 := by decide +kernel
    rintro (rfl | rfl)
    · exact absurd hval (Nat.succ_ne_zero _).symm
    · omega
  have hsolvent : (s₁.pool v).Solvent s₁.epoch s₁.inBoundary := by
    rw [hpool, hepoch, hboundary]
    exact hs.solvent v
  have hcur := hs.epoch_lt
  rw [outcome_bind hcreate]
  exact (outcome_bind_ok _ _).trans
    (internalDelegate_outcome (by omega) hsolvent hv (by omega))

/-- How a delegation ends. -/
theorem delegate_outcome (v : ValId) (hvalue : msg.callValue ≤ income) :
    outcome (handleDelegate s msg v) = firstFailure (rejections s msg (.delegate v)) := by
  have hincome := hs.income_le
  have hreceived := hs.received_lt
  have hcur := hs.epoch_lt
  unfold handleDelegate
  refine outcome_failIf fun _ => ?_
  refine outcome_failIf fun hexists => ?_
  by_cases hzero : msg.callValue = 0
  · rw [if_pos hzero, firstFailure_skip (fun h => h.1 hzero),
      firstFailure_skip (fun h => h.1 hzero)]
    rfl
  · rw [if_neg hzero]
    simp only [ne_eq, hzero, not_false_eq_true, true_and]
    refine outcome_failIf fun _ => ?_
    exact (outcome_bind_ok _ _).trans (internalDelegate_outcome (by omega) (hs.solvent v)
      (hs.valid_of_exists (not_not.mp hexists)) (by omega))

/-- How a settlement alone ends. -/
theorem getDelegator_outcome (v : ValId) (d : Address) :
    outcome (handleGetDelegatorWrite s msg v d) =
      firstFailure (rejections s msg (.getDelegator v d)).tail := by
  unfold handleGetDelegatorWrite
  refine outcome_failIf fun _ => ?_
  obtain ⟨del, s₁, hsettled⟩ := hs.settles v d
  rw [outcome_bind hsettled.pull]
  rfl

/-- How a claim ends. -/
theorem claimRewards_outcome (v : ValId) : outcome (handleClaimRewards s msg v) =
    firstFailure (rejections s msg (.claimRewards v)).tail := by
  unfold handleClaimRewards
  refine outcome_failIf fun _ => ?_
  obtain ⟨del, s₁, hsettled⟩ := hs.settles v msg.caller
  rw [outcome_bind hsettled.pull, ← hsettled.rewards_eq]
  dsimp only
  have hfunds : del.rewards ≤ s₁.balance := by
    have hheld := Pool.held_le (s₁.pool v) msg.caller
    have hcovered := hs.covered v
    have hrecord : (s₁.pool v).delegators msg.caller = del := hsettled.record_eq
    rw [hsettled.liabilities_eq, Pool.held, hrecord] at hheld
    rw [hsettled.balance_eq]
    omega
  by_cases hzero : del.rewards = 0
  · rw [if_pos hzero, firstFailure_skip (fun h => h.1 hzero)]
    rfl
  · rw [if_neg hzero]
    exact (outcome_bind_ok _ _).trans (transfer_outcome hfunds)

/-- How a compounding ends: its rewards are those of a registered validator and belong to no
reserved address. -/
theorem compound_outcome (v : ValId) : outcome (handleCompound s msg v) =
    firstFailure (rejections s msg (.compound v)).tail := by
  have hcur := hs.epoch_lt
  unfold handleCompound
  refine outcome_failIf fun _ => ?_
  obtain ⟨del, s₁, hsettled⟩ := hs.settles v msg.caller
  rw [outcome_bind hsettled.pull]
  dsimp only
  by_cases hzero : del.rewards = 0
  · rw [if_pos hzero]
    rfl
  rw [if_neg hzero]
  have hrewards : settledRewards s v msg.caller ≠ 0 := hsettled.rewards_eq ▸ hzero
  have hrecord : (s.pool v).delegators msg.caller ≠ .zero := by
    intro hnone
    rw [settledRewards, Pool.pulled_of_zero hnone, hnone] at hrewards
    exact hrewards rfl
  have hcaller : ¬ReservedAddress msg.caller := fun hreserved =>
    hrecord ((hs.unused _ hreserved).record_eq v)
  have hexists : (s.validators v).Exists := by
    by_contra hnot
    exact hrecord ((hs.founded.fresh v hnot).delegators_eq msg.caller)
  have hself : (s₁.pool v).delegators msg.caller = del := hsettled.record_eq
  have htake : ((takeRewards s₁ v msg.caller del).pool v).Solvent s₁.epoch s₁.inBoundary := by
    have hstep : (s₁.pool v).Quiet s₁.epoch s₁.inBoundary 0 _ _ :=
      .take msg.caller (by rw [hself]; exact hzero)
    have hsolvent := (Pool.QuietRun.single hstep).solvent
      (by rw [hsettled.touches.epoch_eq]; omega) hsettled.solvent
    rw [takeRewards, pool_record, pool_writeDelegator]
    rw [Pool.take, hself] at hsolvent
    exact hsolvent
  have hamount : del.rewards < 2 ^ 128 := by
    have hheld := Pool.held_le (s₁.pool v) msg.caller
    have hbound := hsettled.solvent.bound
    rw [Pool.held, hself] at hheld
    omega
  refine (outcome_bind_ok _ _).trans ((internalDelegate_outcome ?_ htake
    (hs.valid_of_exists hexists) hamount).trans ?_)
  · change s₁.epoch + 2 < 2 ^ 64
    rw [hsettled.touches.epoch_eq]
    omega
  · exact firstFailure_skip hcaller _ _

/-- How a withdrawal ends. -/
theorem withdraw_outcome (v : ValId) (w : WithdrawId) : outcome (handleWithdraw s msg v w) =
    firstFailure (rejections s msg (.withdraw v w)).tail := by
  have hcur := hs.epoch_lt
  have hdelay : withdrawalDelay = 1 := rfl
  by_cases hgas : msg.gasLimit < gas.withdraw
  · rw [handleWithdraw, failIf_of hgas]
    exact (if_pos (decide_eq_true hgas)).symm
  refine Eq.trans ?_ (firstFailure_skip hgas _ _).symm
  by_cases hamount : (s.withdrawals v msg.caller w).amount = 0
  · rw [handleWithdraw, failIf_of_not hgas, ok_bind]
    dsimp only
    rw [failIf_of hamount]
    exact (if_pos (decide_eq_true hamount)).symm
  refine Eq.trans ?_ (firstFailure_skip hamount _ _).symm
  obtain ⟨hepoch, hpending, -⟩ := (hs.solvent v).sound.request msg.caller w hamount
  change (s.withdrawals v msg.caller w).epoch ≠ 0 at hepoch
  change (s.withdrawals v msg.caller w).epoch ≤ _ ∨ _ ∧ (s.withdrawals v msg.caller w).epoch = _
    at hpending
  by_cases hready : s.epoch < (s.withdrawals v msg.caller w).epoch + withdrawalDelay
  · have hnot : ¬isEpochActive s.epoch (s.withdrawals v msg.caller w).epoch = true ∨
        u64Add (s.withdrawals v msg.caller w).epoch withdrawalDelay > s.epoch := by
      rw [hdelay, u64Add_one (by omega)]
      exact .inr hready
    rw [handleWithdraw, failIf_of_not hgas, ok_bind]
    dsimp only
    rw [failIf_of_not hamount, ok_bind, failIf_of hnot]
    exact (if_pos (decide_eq_true hready)).symm
  refine Eq.trans ?_ (firstFailure_skip hready _ _).symm
  rw [handleWithdraw_ready (hs.solvent v) (not_lt.mp hgas) ⟨hamount, hepoch, not_lt.mp hready⟩]
  have hpayout := (hs.solvent v).ready_payout_le ⟨hamount, hepoch, not_lt.mp hready⟩
  have hbalance : (withdrawing s v msg.caller w).balance = s.balance :=
    (decrement_pool s (s.withdrawals v msg.caller w).epoch v).2.2.2.1
  have hfunds : (s.withdrawals v msg.caller w).amount + readyRewards s v msg.caller w ≤
      (withdrawing s v msg.caller w).balance := hbalance ▸ hpayout.trans (hs.covered v)
  have hne : (s.withdrawals v msg.caller w).amount + readyRewards s v msg.caller w ≠ 0 := by omega
  refine (outcome_bind_ok _ _).trans ((transfer_outcome hfunds).trans ?_)
  simp only [ne_eq, hne, not_false_eq_true, true_and]

/-- How an undelegation ends. -/
theorem undelegate_outcome (v : ValId) (amount : ℕ) (w : WithdrawId) :
    outcome (handleUndelegate s msg v amount w) =
      firstFailure (rejections s msg (.undelegate v amount w)).tail := by
  unfold handleUndelegate
  refine outcome_failIf fun _ => ?_
  by_cases hzero : amount = 0
  · rw [if_pos hzero, firstFailure_skip (fun h => h.1 hzero),
      firstFailure_skip (fun h => h.1 hzero), firstFailure_skip (by omega)]
    rfl
  rw [if_neg hzero]
  simp only [ne_eq, hzero, not_false_eq_true, true_and]
  refine outcome_failIf fun _ => ?_
  refine outcome_failIf fun _ => ?_
  obtain ⟨del, s₁, hsettled⟩ := hs.settles v msg.caller
  rw [outcome_bind hsettled.pull, ← hsettled.stake_eq]
  refine outcome_failIf fun hle => ?_
  have hamount : amount ≤ del.stake := not_lt.mp hle
  have hleaving : leaving del.stake amount ≤ del.stake := by
    unfold leaving
    split
    · exact le_rfl
    · exact hamount
  have hstake : del.stake ≤ (s₁.validators v).stake := by
    have hcell := cell_le_sum (fun d => ((s₁.pool v).delegators d).principal) msg.caller
    rw [← hsettled.solvent.ledger.stake_eq] at hcell
    have hself : (s₁.pool v).delegators msg.caller = del := hsettled.record_eq
    rw [hself, Delegator.principal] at hcell
    change _ ≤ (s₁.validators v).stake at hcell
    omega
  have htaken : (if del.stake - amount ≠ 0 ∧ del.stake - amount < dustThreshold then
      del.stake else amount) = leaving del.stake amount := rfl
  rw [checkedSub_eq_ok.mpr ⟨hamount, rfl⟩, ok_bind]
  simp only [htaken]
  rw [checkedSub_eq_ok.mpr ⟨hleaving, rfl⟩, ok_bind,
    checkedSub_eq_ok.mpr ⟨hleaving.trans hstake, rfl⟩, ok_bind]
  rfl

end InService

/-- What a call checks is all that can reject it: in an orderly run a call within the received
value fails with the error of the first condition of its list that holds, and succeeds when none
does. -/
theorem rejected_by_checks_only {s : Storage} {msg : Message} {call : StakingCall}
    (h : Reachable stakingStep OrderlyCounted .empty s)
    (hincome : s.received + income msg call < 2 ^ 128) :
    outcome (stakingStep s (msg, call)) = firstFailure (rejections s msg call) := by
  have hs := reachable_inService h hincome
  rw [← rejections_credit s (income msg call)]
  refine (outcome_bind_ok _ _).trans ?_
  dsimp only
  cases call with
  | addValidator payload => exact hs.addValidator_outcome payload le_rfl
  | delegate v => exact hs.delegate_outcome v le_rfl
  | undelegate v amount w => exact notPayable_outcome (hs.undelegate_outcome v amount w)
  | withdraw v w => exact notPayable_outcome (hs.withdraw_outcome v w)
  | compound v => exact notPayable_outcome (hs.compound_outcome v)
  | claimRewards v => exact notPayable_outcome (hs.claimRewards_outcome v)
  | changeCommission v commission =>
    exact notPayable_outcome (changeCommission_outcome v commission)
  | externalReward v => exact hs.externalReward_outcome v le_rfl
  | getDelegator v d => exact notPayable_outcome (hs.getDelegator_outcome v d)
  | syscallReward author reward => exact hs.syscallReward_outcome author rfl
  | syscallSnapshot => exact notPayable_outcome syscallSnapshot_outcome
  | syscallOnEpochChange epoch => exact notPayable_outcome (syscallOnEpochChange_outcome epoch)

/-- In the opened state the auth address cannot take out more than its active stake. -/
theorem rejected_by_checks_only_opened :
    outcome (stakingStep openedState
        (userMessage 7 0 opener_ne_staking, .undelegate 1 (activeValidatorStake + 1) 0)) =
      firstFailure (rejections openedState (userMessage 7 0 opener_ne_staking)
        (.undelegate 1 (activeValidatorStake + 1) 0)) :=
  rejected_by_checks_only openedState_orderlyCounted (by decide +kernel)

end SuwappuRevm.Staking
