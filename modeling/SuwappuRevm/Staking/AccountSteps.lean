import Mathlib.Algebra.BigOperators.Ring.Finset
import SuwappuRevm.Staking.Accounts

/-!
# The steps of an account

Each quiet step that is no reward settles one account by an exact amount, of which the floor is
credited. A reward gives every account its increment times what the account earns with. A
delegation or undelegation moves what an account earns with in later epochs only.
-/

namespace SuwappuRevm.Staking

open Foundations Finset

namespace Delegator

variable {r : Delegator}

/-- Promotion into an empty track keeps the account. -/
theorem shiftNext_account (index : ℕ → ℕ) (acc : ℕ) (ht : r.Tracked) (hdelta : r.deltaEpoch = 0) :
    r.shiftNext.owed index acc = r.owed index acc ∧
      (∀ k, r.shiftNext.earning k = r.earning k) ∧
      (∀ k, r.shiftNext.references k = r.references k) := by
  have hzero : r.deltaStake = 0 := by
    by_contra hne
    exact ht.delta_iff.mp hne hdelta
  refine ⟨?_, fun k => ?_, fun k => ?_⟩
  · simp only [owed, shiftNext, hzero, Nat.zero_mul, Nat.add_zero]
  · have hshift : r.shiftNext.earning k = r.stake +
        (if r.nextDeltaEpoch ≤ k then r.nextDeltaStake else 0) + (if 0 ≤ k then 0 else 0) := rfl
    rw [hshift]
    simp [earning, hzero]
  · simp only [references, shiftNext, hdelta, refersTo_zero, Nat.zero_add, Nat.add_zero]

/-- Compounding pays the active stake up to the epoch of the first track, folds the track in and
drops its reference. -/
theorem compounded_account {index : ℕ → ℕ} {acc cur : ℕ}
    (hlast : r.accumulatedRewardPerToken ≤ index r.deltaEpoch)
    (hindex : index r.deltaEpoch ≤ acc) (hle : r.deltaEpoch ≤ cur) (rewards : ℕ) :
    (r.compounded (index r.deltaEpoch) rewards).owed index acc +
        (index r.deltaEpoch - r.accumulatedRewardPerToken) * r.stake = r.owed index acc ∧
      (∀ k, cur ≤ k → (r.compounded (index r.deltaEpoch) rewards).earning k = r.earning k) ∧
      (∀ k, (r.compounded (index r.deltaEpoch) rewards).references k + refersTo r.deltaEpoch k =
        r.references k) := by
  refine ⟨?_, fun k hk => ?_, fun k => ?_⟩
  · have hsplit : acc - r.accumulatedRewardPerToken =
        (acc - index r.deltaEpoch) + (index r.deltaEpoch - r.accumulatedRewardPerToken) := by omega
    simp only [owed, compounded, shiftNext, Nat.zero_mul, Nat.add_zero]
    rw [hsplit]
    ring
  · have hcompounded : (r.compounded (index r.deltaEpoch) rewards).earning k =
        r.stake + r.deltaStake + (if r.nextDeltaEpoch ≤ k then r.nextDeltaStake else 0) +
          (if 0 ≤ k then 0 else 0) := rfl
    rw [hcompounded]
    simp [earning, hle.trans hk]
  · simp only [references, compounded, shiftNext, refersTo_zero]
    omega

/-- Accrual pays the active stake up to the accumulator. -/
theorem accrued_account (index : ℕ → ℕ) (acc rewards : ℕ) :
    (r.accrued acc rewards).owed index acc + (acc - r.accumulatedRewardPerToken) * r.stake =
        r.owed index acc ∧
      (∀ k, (r.accrued acc rewards).earning k = r.earning k) ∧
      (∀ k, (r.accrued acc rewards).references k = r.references k) := by
  refine ⟨?_, fun k => rfl, fun k => rfl⟩
  simp only [owed, accrued, Nat.sub_self, Nat.mul_zero, Nat.zero_add]
  ring

/-- A later index with one more increment owes the increment times what is earned. -/
theorem owed_gain {index : ℕ → ℕ} {acc : ℕ} (hr : r.Ordered index acc)
    (hindex : ∀ k, index k ≤ acc) (cur inc : ℕ) :
    r.owed (fun k => (if cur < k then inc else 0) + index k) (acc + inc) =
      r.owed index acc + inc * r.earning cur := by
  have hstake : acc + inc - r.accumulatedRewardPerToken =
      (acc - r.accumulatedRewardPerToken) + inc := by
    have hle := hr.last_le
    omega
  have hpending (k : ℕ) : acc + inc - ((if cur < k then inc else 0) + index k) =
      (acc - index k) + if k ≤ cur then inc else 0 := by
    have hle := hindex k
    split_ifs <;> omega
  simp only [owed, earning, hstake, hpending]
  split_ifs <;> ring

/-- Stake that is added to a track from an epoch that has not begun earns from that epoch on and
is owed nothing. -/
theorem addTo_account {index : ℕ → ℕ} {acc : ℕ} (ht : r.Tracked) {b : Bool} {act : ℕ}
    (htrack : r.trackEpoch b = 0 ∨ r.trackEpoch b = act) (hindex : index act = acc) (amount : ℕ) :
    (r.addTo b act amount).owed index acc = r.owed index acc ∧
      ∀ k, (r.addTo b act amount).earning k = r.earning k + if act ≤ k then amount else 0 := by
  obtain ⟨hdelta, hnext⟩ := ht
  cases b with
  | false =>
    have htrack : r.deltaEpoch = 0 ∨ r.deltaEpoch = act := htrack
    rcases htrack with hzero | heq
    · have hnone : r.deltaStake = 0 := by
        by_contra hne
        exact hdelta.mp hne hzero
      refine ⟨?_, fun k => ?_⟩
      · simp [owed, addTo, hnone, hindex]
      · simp only [earning, addTo, hnone, Bool.false_eq_true, if_false]
        split_ifs <;> omega
    · refine ⟨?_, fun k => ?_⟩
      · simp [owed, addTo, heq, hindex]
      · simp only [earning, addTo, heq, Bool.false_eq_true, if_false]
        split_ifs <;> omega
  | true =>
    have htrack : r.nextDeltaEpoch = 0 ∨ r.nextDeltaEpoch = act := htrack
    rcases htrack with hzero | heq
    · have hnone : r.nextDeltaStake = 0 := by
        by_contra hne
        exact hnext.mp hne hzero
      refine ⟨?_, fun k => ?_⟩
      · simp [owed, addTo, hnone, hindex]
      · simp only [earning, addTo, hnone, if_true]
        split_ifs <;> omega
    · refine ⟨?_, fun k => ?_⟩
      · simp [owed, addTo, heq, hindex]
      · simp only [earning, addTo, heq, if_true]
        split_ifs <;> omega

/-- Adding to an empty track takes a reference; adding to a pending one takes none. -/
theorem addTo_references {b : Bool} {act : ℕ} (hact : act ≠ 0)
    (htrack : r.trackEpoch b = 0 ∨ r.trackEpoch b = act) (amount k : ℕ) :
    (r.addTo b act amount).references k =
      r.references k + if r.trackEpoch b = 0 then refersTo act k else 0 := by
  cases b with
  | false =>
    have htrack : r.deltaEpoch = 0 ∨ r.deltaEpoch = act := htrack
    rcases htrack with hzero | heq
    · simp [references, addTo, trackEpoch, hzero]
      omega
    · simp [references, addTo, trackEpoch, heq, hact]
  | true =>
    have htrack : r.nextDeltaEpoch = 0 ∨ r.nextDeltaEpoch = act := htrack
    rcases htrack with hzero | heq
    · simp [references, addTo, trackEpoch, hzero]
    · simp [references, addTo, trackEpoch, heq, hact]

/-- The track of a settled record is empty or pending for the activation epoch. -/
theorem Settled.trackEpoch_eq {cur : ℕ} {b : Bool} (hsettled : r.Settled cur)
    (hok : EpochsOk cur b r) :
    r.trackEpoch b = 0 ∨ r.trackEpoch b = if b then cur + 2 else cur + 1 := by
  have hdelta := hok.delta_le
  have hnext := hok.next_le
  obtain ⟨hdelta', hnext'⟩ := hsettled
  rw [trackEpoch]
  cases b <;> simp only [if_true, if_false, Bool.false_eq_true] <;> omega

end Delegator

/-- A later index with one more increment owes a request the increment before its epoch. -/
theorem WithdrawalRequest.owed_gain {q : WithdrawalRequest} {index : ℕ → ℕ}
    (hq : q.amount ≠ 0 → q.accumulator ≤ index q.epoch) (cur inc : ℕ) :
    q.owed (fun k => (if cur < k then inc else 0) + index k) =
      q.owed index + inc * q.earning cur := by
  unfold owed earning
  by_cases hzero : q.amount = 0
  · simp [hzero]
  · have hgain : (if cur < q.epoch then inc else 0) + index q.epoch - q.accumulator =
        (index q.epoch - q.accumulator) + if cur < q.epoch then inc else 0 := by
      have hle := hq hzero
      omega
    rw [hgain]
    split_ifs <;> ring

namespace Pool

variable {cur act : ℕ} {b : Bool} {p p' : Pool} {i o : ℕ}

/-- The sum of a measure over some events. -/
def total (measure : PoolEvent → ℕ) (events : List PoolEvent) : ℕ := (events.map measure).sum

/-- A step on one account that is no reward: it settles an exact amount, credits its floor, and
moves what the account earns with by what it joins and leaves. -/
structure Settles (cur act : ℕ) (p : Pool) (d : Address) (exact : ℕ) (events : List PoolEvent)
    (p' : Pool) : Prop where
  history_eq : p'.history = events ++ p.history
  account_eq : ∀ e ∈ events, e.account = some d
  acc_eq : p'.acc = p.acc
  consensusStake_eq : p'.consensusStake = p.consensusStake
  snapshotStake_eq : p'.snapshotStake = p.snapshotStake
  off : ∀ d', d' ≠ d →
    p'.delegators d' = p.delegators d' ∧ p'.withdrawals d' = p.withdrawals d'
  unclaimed_eq : p'.unclaimed + total (PoolEvent.credits d) events = p.unclaimed
  owed_eq : p'.owedTo d + exact = p.owedTo d
  credits_le : unitBias * total (PoolEvent.credits d) events ≤ exact
  exact_le : exact ≤ unitBias *
    (total (PoolEvent.credits d) events + total (PoolEvent.evaluates d) events)
  earning_eq : ∀ k, cur ≤ k → p'.earningOf d k + total (PoolEvent.leaves d k) events =
    p.earningOf d k + total (PoolEvent.joins d k) events
  moves_eq : ∀ k, k < act → total (PoolEvent.leaves d k) events = 0 ∧
    total (PoolEvent.joins d k) events = 0
  refcount_eq : ∀ k, (p'.accumulators k).refcount + p.referencesOf d k =
    (p.accumulators k).refcount + p'.referencesOf d k
  live : ∀ k, k ≤ cur → (p'.accumulators k).refcount ≠ 0 →
    (p.accumulators k).refcount ≠ 0 ∧ (p'.accumulators k).value = (p.accumulators k).value
  ordered : (p'.delegators d).Ordered p.indexAt p.acc
  request : ∀ w, (p'.withdrawals d w).amount ≠ 0 → p'.withdrawals d w = p.withdrawals d w ∨
    (p'.withdrawals d w).epoch = act ∧ (p'.withdrawals d w).accumulator ≤ p.acc

/-- The floor of a product over the unit bias, and what it leaves. -/
theorem rewardShare_bounds (stake epochAcc lastAcc : ℕ) :
    unitBias * rewardShare stake epochAcc lastAcc ≤ (epochAcc - lastAcc) * stake ∧
      (epochAcc - lastAcc) * stake ≤ unitBias * (rewardShare stake epochAcc lastAcc + 1) := by
  have hbias : 0 < unitBias := by decide
  unfold rewardShare
  exact ⟨Nat.mul_div_le _ _, (Nat.lt_mul_div_succ _ hbias).le⟩

/-- What a quiet step other than a reward logs: nothing, one evaluation, or a move of credited
rewards. -/
inductive Logs (d : Address) : ℕ → ℕ → List PoolEvent → Prop
  | none : Logs d 0 0 []
  | settled (rewards : ℕ) : Logs d rewards 1 [.settled d rewards]
  | withdrawn (amount rewards : ℕ) : Logs d rewards 1 [.withdrawn d amount rewards]
  | claimed (amount : ℕ) : Logs d 0 0 [.claimed d amount]
  | commission (amount : ℕ) : Logs d 0 0 [.commission d amount]

/-- The totals of a quiet log. -/
theorem Logs.totals {d : Address} {rewards evaluations : ℕ} {events : List PoolEvent}
    (h : Logs d rewards evaluations events) :
    (∀ e ∈ events, e.account = some d) ∧ total (PoolEvent.credits d) events = rewards ∧
      total (PoolEvent.evaluates d) events = evaluations ∧
      (∀ k, total (PoolEvent.leaves d k) events = 0) ∧
      ∀ k, total (PoolEvent.joins d k) events = 0 := by
  cases h <;> simp [total, PoolEvent.account, PoolEvent.credits, PoolEvent.evaluates,
    PoolEvent.leaves, PoolEvent.joins]

/-- Events of accounts leave the index alone. -/
theorem log_eq {d : Address} {events : List PoolEvent} (h : p'.history = events ++ p.history)
    (haccount : ∀ e ∈ events, e.account = some d) : p'.log = p.log := by
  have hnone : events.filterMap PoolEvent.increment = [] := by
    refine List.filterMap_eq_nil_iff.mpr fun e he => ?_
    have hd := haccount e he
    cases e <;> first | rfl | cases hd
  rw [log, h, List.filterMap_append, hnone, List.nil_append, log]

/-- Events of accounts leave the index of every epoch alone. -/
theorem indexAt_eq {d : Address} {events : List PoolEvent} (h : p'.history = events ++ p.history)
    (haccount : ∀ e ∈ events, e.account = some d) : p'.indexAt = p.indexAt := by
  funext k
  rw [indexAt, log_eq h haccount, indexAt]

/-- A quiet step that rewrites one record. -/
theorem Settles.ofRecord {act : ℕ} {d : Address} {r : Delegator} {exact rewards evaluations : ℕ}
    {events : List PoolEvent} (hlogs : Logs d rewards evaluations events)
    (hhistory : p'.history = events ++ p.history)
    (hdelegators : p'.delegators = Function.update p.delegators d r)
    (hwithdrawals : p'.withdrawals = p.withdrawals) (hacc : p'.acc = p.acc)
    (hviews : p'.consensusStake = p.consensusStake ∧ p'.snapshotStake = p.snapshotStake)
    (hunclaimed : p'.unclaimed + rewards = p.unclaimed)
    (howed : r.owed p.indexAt p.acc + exact = (p.delegators d).owed p.indexAt p.acc)
    (hearning : ∀ k, cur ≤ k → r.earning k = (p.delegators d).earning k)
    (hexact : unitBias * rewards ≤ exact ∧ exact ≤ unitBias * (rewards + evaluations))
    (hrefcount : ∀ k, (p'.accumulators k).refcount + (p.delegators d).references k =
      (p.accumulators k).refcount + r.references k)
    (hlive : ∀ k, (p'.accumulators k).refcount ≠ 0 → (p.accumulators k).refcount ≠ 0 ∧
      (p'.accumulators k).value = (p.accumulators k).value)
    (hordered : r.Ordered p.indexAt p.acc) : p.Settles cur act d exact events p' := by
  obtain ⟨haccount, hcredits, hevaluates, hleaves, hjoins⟩ := hlogs.totals
  have hself : p'.delegators d = r := by rw [hdelegators, Function.update_self]
  have hindex := indexAt_eq hhistory haccount
  refine ⟨hhistory, haccount, hacc, hviews.1, hviews.2, fun d' hd => ?_, ?_, ?_, ?_, ?_,
    fun k hk => ?_, fun k _ => ⟨hleaves k, hjoins k⟩, fun k => ?_, fun k _ => hlive k, ?_,
    fun w _ => .inl ?_⟩
  · rw [hdelegators, hwithdrawals, Function.update_of_ne hd]
    exact ⟨rfl, rfl⟩
  · rw [hcredits]
    exact hunclaimed
  · rw [owedTo, owedTo, hself, hwithdrawals, hindex, hacc]
    omega
  · rw [hcredits]
    exact hexact.1
  · rw [hcredits, hevaluates]
    exact hexact.2
  · rw [earningOf, earningOf, hself, hwithdrawals, hearning k hk, hleaves, hjoins]
  · have hcell := hrefcount k
    rw [referencesOf, referencesOf, hself, hwithdrawals]
    omega
  · rw [hself]
    exact hordered
  · rw [hwithdrawals]

/-- The entries after one reference is dropped. -/
theorem release_refcount {k : ℕ} (hpos : 0 < (p.accumulators k).refcount) (hk : k ≠ 0) (k' : ℕ) :
    ((p.release k).accumulators k').refcount + refersTo k k' = (p.accumulators k').refcount := by
  by_cases heq : k' = k
  · subst heq
    have hone : refersTo k' k' = 1 := if_pos ⟨rfl, hk⟩
    simp only [release, setEntry, Function.update_self, releaseEntry, if_neg hpos.ne', hone]
    split
    next hlast =>
      change 0 + 1 = _
      omega
    next =>
      change (p.accumulators k').refcount - 1 + 1 = _
      omega
  · have hzero : refersTo k k' = 0 := if_neg fun h => heq h.1.symm
    simp only [release, setEntry, Function.update_of_ne heq, hzero, Nat.add_zero]

section Steps

variable (hp : p.Sound cur b)

include hp

/-- A promotion settles nothing. -/
theorem promote_settles {d : Address} (ht : (p.delegators d).Tracked)
    (hdelta : (p.delegators d).deltaEpoch = 0) : p.Settles cur act d 0 [] (p.promote d) := by
  obtain ⟨howed, hearning, hrefs⟩ :=
    Delegator.shiftNext_account p.indexAt p.acc ht hdelta
  obtain ⟨hlast, -, hnext⟩ := hp.ordered d
  exact .ofRecord .none rfl rfl rfl rfl ⟨rfl, rfl⟩ rfl howed (fun k _ => hearning k)
    ⟨le_rfl, le_rfl⟩ (fun k => by rw [hrefs]; rfl) (fun k hk => ⟨hk, rfl⟩)
    ⟨hlast, hnext, fun h => absurd rfl h⟩

/-- A compounding settles the active stake up to the epoch of the first track. -/
theorem compound_settles {d : Address} {rewards : ℕ} (hdelta : (p.delegators d).deltaEpoch ≠ 0)
    (hle : (p.delegators d).deltaEpoch ≤ cur)
    (horder : (p.delegators d).nextDeltaEpoch ≠ 0 →
      (p.delegators d).deltaEpoch < (p.delegators d).nextDeltaEpoch)
    (hrewards : rewards = rewardShare (p.delegators d).stake
      (p.entryValue (p.delegators d).deltaEpoch) (p.delegators d).accumulatedRewardPerToken)
    (hsolvent : rewards ≤ p.unclaimed) :
    p.Settles cur act d ((p.indexAt (p.delegators d).deltaEpoch -
      (p.delegators d).accumulatedRewardPerToken) * (p.delegators d).stake)
      [.settled d rewards] (p.compound d rewards) := by
  have hself : refersTo (p.delegators d).deltaEpoch (p.delegators d).deltaEpoch = 1 :=
    if_pos ⟨rfl, hdelta⟩
  have hrefs : 0 < p.referencesOf d (p.delegators d).deltaEpoch := by
    rw [referencesOf, Delegator.references]
    omega
  have hvalue : p.entryValue (p.delegators d).deltaEpoch =
      p.indexAt (p.delegators d).deltaEpoch := hp.entryValue_eq hrefs hle
  have hordered := hp.ordered d
  obtain ⟨howed, hearning, hcount⟩ := Delegator.compounded_account
    (hordered.delta_le hdelta) (hp.indexAt_le _) hle rewards
  rw [hvalue] at hrewards
  have hrelease := release_refcount (hp.refcount_pos hrefs) hdelta
  refine .ofRecord (.settled rewards) rfl rfl rfl rfl ⟨rfl, rfl⟩ ?_ ?_ ?_ ?_ ?_ ?_ ?_
  · exact Nat.sub_add_cancel hsolvent
  · rw [hvalue]
    exact howed
  · rw [hvalue]
    exact hearning
  · rw [hrewards]
    exact rewardShare_bounds _ _ _
  · intro k
    have hk := hrelease k
    have hck := hcount k
    rw [hvalue]
    change ((p.release _).accumulators k).refcount + _ = _
    omega
  · exact fun k hk => p.release_live _ k hk
  · rw [hvalue]
    refine ⟨hp.indexAt_le _, fun hne => ?_, fun hne => absurd rfl hne⟩
    exact indexBefore_mono p.log (horder hne).le

/-- An accrual settles the active stake up to the accumulator. -/
theorem accrue_settles {d : Address} {rewards : ℕ} (hsettled : (p.delegators d).Settled cur)
    (hrewards : rewards = rewardShare (p.delegators d).stake p.acc
      (p.delegators d).accumulatedRewardPerToken)
    (hsolvent : rewards ≤ p.unclaimed) :
    p.Settles cur act d ((p.acc - (p.delegators d).accumulatedRewardPerToken) *
      (p.delegators d).stake) [.settled d rewards] (p.accrue d rewards) := by
  obtain ⟨howed, hearning, hcount⟩ :=
    (p.delegators d).accrued_account p.indexAt p.acc rewards
  refine .ofRecord (.settled rewards) rfl rfl rfl rfl ⟨rfl, rfl⟩ (Nat.sub_add_cancel hsolvent)
    howed (fun k _ => hearning k) ?_ (fun k => ?_) (fun k hk => ⟨hk, rfl⟩)
    ⟨le_rfl, fun hne => ?_, fun hne => ?_⟩
  · rw [hrewards]
    exact rewardShare_bounds _ _ _
  · rw [hcount]
    rfl
  · exact (hp.indexAt_later (hsettled.delta.resolve_left hne)).ge
  · have hlater := hsettled.next.resolve_left hne
    exact (hp.indexAt_later (Nat.lt_of_succ_lt hlater)).ge

/-- Taking or adding credited rewards settles nothing. -/
theorem credited_settles {d : Address} {rewards : ℕ} {events : List PoolEvent}
    (hlogs : Logs d 0 0 events) (hhistory : p'.history = events ++ p.history)
    (hdelegators : p'.delegators =
      Function.update p.delegators d { p.delegators d with rewards })
    (hwithdrawals : p'.withdrawals = p.withdrawals) (hacc : p'.acc = p.acc)
    (hviews : p'.consensusStake = p.consensusStake ∧ p'.snapshotStake = p.snapshotStake)
    (hunclaimed : p'.unclaimed = p.unclaimed) (haccumulators : p'.accumulators = p.accumulators) :
    p.Settles cur act d 0 events p' := by
  obtain ⟨hlast, hdelta, hnext⟩ := hp.ordered d
  refine .ofRecord hlogs hhistory hdelegators hwithdrawals hacc hviews hunclaimed rfl
    (fun _ _ => rfl) ⟨le_rfl, le_rfl⟩ (fun k => ?_) (fun k hk => ?_) ⟨hlast, hdelta, hnext⟩
  · rw [haccumulators]
    rfl
  · rw [haccumulators] at hk ⊢
    exact ⟨hk, rfl⟩

/-- Paying a request settles its amount up to its epoch. -/
theorem pay_settles {d : Address} {w : WithdrawId} {rewards : ℕ}
    (hamount : (p.withdrawals d w).amount ≠ 0) (hepoch : (p.withdrawals d w).epoch ≠ 0)
    (hready : (p.withdrawals d w).epoch < cur)
    (hrewards : rewards = rewardShare (p.withdrawals d w).amount
      (p.entryValue (p.withdrawals d w).epoch) (p.withdrawals d w).accumulator)
    (hsolvent : rewards ≤ p.unclaimed) :
    p.Settles cur act d ((p.indexAt (p.withdrawals d w).epoch - (p.withdrawals d w).accumulator) *
      (p.withdrawals d w).amount) [.withdrawn d (p.withdrawals d w).amount rewards]
      (p.pay d w rewards) := by
  have hrequest : (p.withdrawals d w).references (p.withdrawals d w).epoch = 1 :=
    (if_neg hamount).trans (if_pos ⟨rfl, hepoch⟩)
  have hrefs : 0 < p.referencesOf d (p.withdrawals d w).epoch := by
    have hcell := cell_le_sum
      (fun w' => (p.withdrawals d w').references (p.withdrawals d w).epoch) w
    rw [referencesOf]
    omega
  have hvalue : p.entryValue (p.withdrawals d w).epoch = p.indexAt (p.withdrawals d w).epoch :=
    hp.entryValue_eq hrefs hready.le
  rw [hvalue] at hrewards
  have hself : (p.pay d w rewards).withdrawals d = Function.update (p.withdrawals d) w .zero :=
    Function.update_self ..
  obtain ⟨haccount, hcredits, hevaluates, hleaves, hjoins⟩ :=
    (Logs.withdrawn (p.withdrawals d w).amount rewards : Logs d rewards 1 _).totals
  refine ⟨rfl, haccount, rfl, rfl, rfl, fun d' hd => ⟨rfl, Function.update_of_ne hd ..⟩, ?_, ?_, ?_,
    ?_, fun k hk => ?_, fun k _ => ⟨hleaves k, hjoins k⟩, fun k => ?_,
    fun k _ => p.release_live _ k, hp.ordered d, fun w' hne => .inl ?_⟩
  · rw [hcredits]
    exact Nat.sub_add_cancel hsolvent
  · have hcell := sum_update_add (fun q => q.owed p.indexAt) (p.withdrawals d) w .zero
    have hzero : WithdrawalRequest.zero.owed p.indexAt = 0 := Nat.zero_mul _
    have howed : (p.withdrawals d w).owed p.indexAt =
        (p.indexAt (p.withdrawals d w).epoch - (p.withdrawals d w).accumulator) *
          (p.withdrawals d w).amount := Nat.mul_comm ..
    have hindex : (p.pay d w rewards).indexAt = p.indexAt := rfl
    rw [owedTo, owedTo, hself, hindex]
    change (p.delegators d).owed p.indexAt p.acc + _ + _ = _
    omega
  · rw [hcredits, hrewards]
    exact (rewardShare_bounds _ _ _).1
  · rw [hcredits, hevaluates, hrewards]
    exact (rewardShare_bounds _ _ _).2
  · have hcell := sum_update_add (fun q => q.earning k) (p.withdrawals d) w .zero
    have hzero : WithdrawalRequest.zero.earning k = 0 := by
      unfold WithdrawalRequest.earning
      exact if_neg (Nat.not_lt_zero k)
    have hold : (p.withdrawals d w).earning k = 0 := if_neg (by omega)
    rw [earningOf, earningOf, hself, hleaves, hjoins]
    change (p.delegators d).earning k + _ + 0 = _
    omega
  · have hcell := sum_update_add (fun q => q.references k) (p.withdrawals d) w .zero
    have hzero : WithdrawalRequest.zero.references k = 0 := if_pos rfl
    have hold : (p.withdrawals d w).references k = refersTo (p.withdrawals d w).epoch k :=
      if_neg hamount
    have hrelease := release_refcount (hp.refcount_pos hrefs) hepoch k
    rw [referencesOf, referencesOf, hself]
    change ((p.release _).accumulators k).refcount + _ = _ + ((p.delegators d).references k + _)
    omega
  · by_cases heq : w' = w
    · rw [hself, heq, Function.update_self] at hne
      exact absurd rfl hne
    · rw [hself, Function.update_of_ne heq]

end Steps

/-- Quiet steps other than rewards settle one account. -/
theorem Quiet.settles (hledger : p.Ledger) (hepochs : p.EpochsOk cur b) (hp : p.Sound cur b)
    (h : p.Quiet cur b i o p') :
    (∃ d exact events, p.Settles cur act d exact events p') ∨
      p.view b ≠ 0 ∧ p' = p.reward cur b i := by
  cases h with
  | promote d hdelta hnext hle =>
    exact .inl ⟨d, _, _, promote_settles hp (hledger.tracked d) hdelta⟩
  | compound d rewards hdelta hle hacc hrewards hsolvent =>
    exact .inl ⟨d, _, _, compound_settles hp hdelta hle
      ((hepochs d).delta_lt_next hdelta) hrewards hsolvent⟩
  | accrue d rewards hsettled hstake hacc hrewards hsolvent =>
    exact .inl ⟨d, _, _, accrue_settles hp hsettled hrewards hsolvent⟩
  | take d hrewards =>
    exact .inl ⟨d, _, _, credited_settles hp (.claimed _) rfl rfl rfl rfl ⟨rfl, rfl⟩ rfl rfl⟩
  | pay d w rewards hamount hepoch hready hacc hrewards hsolvent =>
    exact .inl ⟨d, _, _, pay_settles hp hamount hepoch hready hrewards hsolvent⟩
  | commission d amount hview =>
    exact .inl ⟨d, _, _,
      credited_settles hp (.commission _) rfl rfl rfl rfl ⟨rfl, rfl⟩ rfl rfl⟩
  | reward amount hview => exact .inr ⟨hview, rfl⟩

/-- Below the last epochs the activation epoch is one ahead, or two inside the boundary. -/
theorem activationEpoch_eq (hcur : cur + 2 < 2 ^ 64) (b : Bool) :
    activationEpoch cur b = if b then cur + 2 else cur + 1 := by
  cases b <;> simp only [activationEpoch, u64Add, if_true, if_false, Bool.false_eq_true] <;> omega

/-- The activation epoch has not begun. -/
theorem activationEpoch_gt (hcur : cur + 2 < 2 ^ 64) (b : Bool) : cur < activationEpoch cur b := by
  rw [activationEpoch_eq hcur]
  split <;> omega

/-- The entries after one reference is taken. -/
theorem retain_refcount {k : ℕ} (hwrap : (p.accumulators k).refcount + 1 < 2 ^ 64) (hk : k ≠ 0)
    (k' : ℕ) :
    ((p.retain k).accumulators k').refcount = (p.accumulators k').refcount + refersTo k k' := by
  by_cases heq : k' = k
  · subst heq
    have hone : refersTo k' k' = 1 := if_pos ⟨rfl, hk⟩
    simp only [Pool.retain, setEntry, Function.update_self, hone]
    exact u64Add_one hwrap
  · have hzero : refersTo k k' = 0 := if_neg fun h => heq h.1.symm
    simp only [Pool.retain, setEntry, Function.update_of_ne heq, hzero, Nat.add_zero]

/-- A step on one account moves the references by those of the account. -/
theorem references_off {d : Address} (hoff : ∀ d', d' ≠ d →
    p'.delegators d' = p.delegators d' ∧ p'.withdrawals d' = p.withdrawals d') (k : ℕ) :
    p'.references k + p.referencesOf d k = p.references k + p'.referencesOf d k := by
  have hsame (d' : Address) (hd : d' ≠ d) : p'.referencesOf d' k = p.referencesOf d' k := by
    rw [referencesOf, referencesOf, (hoff d' hd).1, (hoff d' hd).2]
  have hsum := sum_add_eq_of_eq_off d hsame
  rwa [← references, ← references] at hsum

/-- A delegation takes a reference for an empty track. -/
theorem join_references {d : Address} {amount : ℕ} (hact : act ≠ 0)
    (htrack : (p.delegators d).trackEpoch b = 0 ∨ (p.delegators d).trackEpoch b = act) (k : ℕ) :
    (p.join b act d amount).referencesOf d k = p.referencesOf d k +
      if (p.delegators d).trackEpoch b = 0 then refersTo act k else 0 := by
  have hself : (p.join b act d amount).delegators d = (p.delegators d).addTo b act amount :=
    Function.update_self ..
  have hwithdrawals : (p.join b act d amount).withdrawals = p.withdrawals := rfl
  rw [referencesOf, referencesOf, hself, hwithdrawals, Delegator.addTo_references hact htrack]
  omega

/-- An undelegation takes a reference. -/
theorem leave_references {d : Address} {w : WithdrawId} {amount : ℕ} (hamount : amount ≠ 0)
    (hfree : (p.withdrawals d w).amount = 0) (k : ℕ) :
    (p.leave act d w amount).referencesOf d k = p.referencesOf d k + refersTo act k := by
  have hself : (p.leave act d w amount).delegators d = (p.delegators d).removed amount :=
    Function.update_self ..
  have hrequests : (p.leave act d w amount).withdrawals d = Function.update (p.withdrawals d) w
      ⟨amount, (p.delegators d).accumulatedRewardPerToken, act⟩ := Function.update_self ..
  have hcell := sum_update_add (fun q => q.references k) (p.withdrawals d) w
    ⟨amount, (p.delegators d).accumulatedRewardPerToken, act⟩
  have hold : (p.withdrawals d w).references k = 0 := if_pos hfree
  have hnew : WithdrawalRequest.references
      ⟨amount, (p.delegators d).accumulatedRewardPerToken, act⟩ k = refersTo act k :=
    if_neg hamount
  have hrecord : ((p.delegators d).removed amount).references k =
      (p.delegators d).references k := rfl
  rw [referencesOf, referencesOf, hself, hrequests]
  omega

section Entering

variable (hcur : cur + 2 < 2 ^ 64) (hp : p.Sound cur b)

include hcur hp

/-- A delegation settles nothing and earns from its activation epoch on. -/
theorem join_settles {d : Address} {amount : ℕ} (ht : (p.delegators d).Tracked)
    (hok : Staking.EpochsOk cur b (p.delegators d)) (hsettled : (p.delegators d).Settled cur)
    (hwrap : (p.delegators d).trackEpoch b = 0 →
      (p.accumulators (activationEpoch cur b)).refcount + 1 < 2 ^ 64) :
    p.Settles cur (activationEpoch cur b) d 0 [.delegated d amount (activationEpoch cur b)]
      (p.join b (activationEpoch cur b) d amount) := by
  have hgt := activationEpoch_gt hcur b
  have htrack := hsettled.trackEpoch_eq hok
  rw [← activationEpoch_eq hcur] at htrack
  generalize activationEpoch cur b = act at *
  have hact : act ≠ 0 := by omega
  obtain ⟨howed, hearning⟩ :=
    Delegator.addTo_account ht htrack (hp.indexAt_later hgt) amount
  have hself : (p.join b act d amount).delegators d = (p.delegators d).addTo b act amount :=
    Function.update_self ..
  have hindex : (p.join b act d amount).indexAt = p.indexAt := rfl
  have hwithdrawals : (p.join b act d amount).withdrawals = p.withdrawals := rfl
  have hentries : (p.join b act d amount).accumulators =
      if (p.delegators d).trackEpoch b = 0 then (p.retain act).accumulators
      else p.accumulators := rfl
  refine ⟨rfl, fun e he => ?_, rfl, rfl, rfl, fun d' hd => ⟨Function.update_of_ne hd .., rfl⟩, rfl,
    ?_, le_rfl, Nat.zero_le _, fun k _ => ?_, fun k hk => ?_, fun k => ?_, fun k hk hlive => ?_, ?_,
    fun w _ => .inl rfl⟩
  · rw [List.mem_singleton.mp he]
    rfl
  · rw [owedTo, owedTo, hself, hindex, hwithdrawals]
    change ((p.delegators d).addTo b act amount).owed p.indexAt p.acc + _ + 0 = _
    rw [howed, Nat.add_zero]
  · rw [earningOf, earningOf, hself, hwithdrawals, hearning]
    simp only [total, List.map_cons, List.map_nil, List.sum_cons, List.sum_nil, PoolEvent.leaves,
      PoolEvent.joins, true_and]
    omega
  · simp [total, PoolEvent.leaves, PoolEvent.joins, hk]
  · rw [join_references hact htrack, hentries]
    split_ifs with hneed
    · rw [retain_refcount (hwrap hneed) hact]
      omega
    · omega
  · rw [hentries] at hlive ⊢
    have hne : k ≠ act := by omega
    split_ifs at hlive ⊢ with hneed
    · simp only [Pool.retain, setEntry, Function.update_of_ne hne] at hlive ⊢
      exact ⟨hlive, trivial⟩
    · exact ⟨hlive, rfl⟩
  · obtain ⟨hlast, hdelta, hnext⟩ := hp.ordered d
    have hlater := hp.indexAt_later hgt
    rw [hself]
    cases b with
    | false => exact ⟨hlast, fun _ => hlast.trans hlater.ge, hnext⟩
    | true => exact ⟨hlast, hdelta, fun _ => hlast.trans hlater.ge⟩

/-- An undelegation settles nothing; its request earns until its epoch. -/
theorem leave_settles {d : Address} {w : WithdrawId} {amount : ℕ} (hamount : amount ≠ 0)
    (hle : amount ≤ (p.delegators d).stake) (hfree : (p.withdrawals d w).amount = 0)
    (hwrap : (p.accumulators (activationEpoch cur b)).refcount + 1 < 2 ^ 64) :
    p.Settles cur (activationEpoch cur b) d 0 [.undelegated d amount (activationEpoch cur b)]
      (p.leave (activationEpoch cur b) d w amount) := by
  have hgt := activationEpoch_gt hcur b
  generalize activationEpoch cur b = act at *
  have hact : act ≠ 0 := by omega
  obtain ⟨hlast, hdelta, hnext⟩ := hp.ordered d
  have hlater := hp.indexAt_later hgt
  have hself : (p.leave act d w amount).delegators d = (p.delegators d).removed amount :=
    Function.update_self ..
  have hrequests : (p.leave act d w amount).withdrawals d = Function.update (p.withdrawals d) w
      ⟨amount, (p.delegators d).accumulatedRewardPerToken, act⟩ := Function.update_self ..
  have hindex : (p.leave act d w amount).indexAt = p.indexAt := rfl
  have hentries : (p.leave act d w amount).accumulators = (p.retain act).accumulators := rfl
  refine ⟨rfl, fun e he => ?_, rfl, rfl, rfl,
    fun d' hd => ⟨Function.update_of_ne hd .., Function.update_of_ne hd ..⟩, rfl,
    ?_, le_rfl, Nat.zero_le _, fun k _ => ?_, fun k hk => ?_, fun k => ?_, fun k hk hlive => ?_, ?_,
    fun w' hne => ?_⟩
  · rw [List.mem_singleton.mp he]
    rfl
  · have hcell := sum_update_add (fun q => q.owed p.indexAt) (p.withdrawals d) w
      ⟨amount, (p.delegators d).accumulatedRewardPerToken, act⟩
    have hold : (p.withdrawals d w).owed p.indexAt = 0 := by
      rw [WithdrawalRequest.owed, hfree, Nat.zero_mul]
    have hnew : WithdrawalRequest.owed ⟨amount, (p.delegators d).accumulatedRewardPerToken, act⟩
        p.indexAt = amount * (p.acc - (p.delegators d).accumulatedRewardPerToken) := by
      rw [WithdrawalRequest.owed, hlater]
    have hrecord : ((p.delegators d).removed amount).owed p.indexAt p.acc +
        amount * (p.acc - (p.delegators d).accumulatedRewardPerToken) =
          (p.delegators d).owed p.indexAt p.acc := by
      have hstake : ((p.delegators d).stake - amount) *
          (p.acc - ((p.delegators d).removed amount).accumulatedRewardPerToken) =
            ((p.delegators d).stake - amount) *
              (p.acc - (p.delegators d).accumulatedRewardPerToken) := by
        simp only [Delegator.removed]
        split
        next hzero => rw [hzero, Nat.zero_mul, Nat.zero_mul]
        next => rfl
      have hsplit : (p.delegators d).stake = (p.delegators d).stake - amount + amount := by omega
      rw [Delegator.owed, Delegator.owed]
      change ((p.delegators d).stake - amount) * _ + _ + _ + _ = _
      rw [hstake]
      conv_rhs => rw [hsplit, Nat.add_mul]
      simp only [Delegator.removed]
      omega
    rw [owedTo, owedTo, hself, hrequests, hindex]
    change ((p.delegators d).removed amount).owed p.indexAt p.acc + _ + 0 = _
    omega
  · have hcell := sum_update_add (fun q => q.earning k) (p.withdrawals d) w
      ⟨amount, (p.delegators d).accumulatedRewardPerToken, act⟩
    have hold : (p.withdrawals d w).earning k = 0 := by
      rw [WithdrawalRequest.earning, hfree, ite_self]
    have hnew : WithdrawalRequest.earning
        ⟨amount, (p.delegators d).accumulatedRewardPerToken, act⟩ k =
          if k < act then amount else 0 := rfl
    have hrecord : ((p.delegators d).removed amount).earning k + amount =
        (p.delegators d).earning k := by
      have hremoved : ((p.delegators d).removed amount).earning k =
          (p.delegators d).stake - amount +
            (if (p.delegators d).deltaEpoch ≤ k then (p.delegators d).deltaStake else 0) +
            (if (p.delegators d).nextDeltaEpoch ≤ k then (p.delegators d).nextDeltaStake else 0) :=
        rfl
      rw [hremoved, Delegator.earning]
      omega
    rw [earningOf, earningOf, hself, hrequests]
    simp only [total, List.map_cons, List.map_nil, List.sum_cons, List.sum_nil, PoolEvent.leaves,
      PoolEvent.joins, true_and]
    by_cases hbefore : k < act
    · rw [if_pos hbefore] at hnew
      rw [if_neg (not_le.mpr hbefore)]
      omega
    · rw [if_neg hbefore] at hnew
      rw [if_pos (not_lt.mp hbefore)]
      omega
  · simp [total, PoolEvent.leaves, PoolEvent.joins, hk]
  · rw [leave_references hamount hfree, hentries, retain_refcount hwrap hact]
    omega
  · have hne : k ≠ act := by omega
    rw [hentries] at hlive ⊢
    simp only [Pool.retain, setEntry, Function.update_of_ne hne] at hlive ⊢
    exact ⟨hlive, trivial⟩
  · have hle : ((p.delegators d).removed amount).accumulatedRewardPerToken ≤
        (p.delegators d).accumulatedRewardPerToken := by
      simp only [Delegator.removed]
      split
      · exact Nat.zero_le _
      · exact le_rfl
    rw [hself]
    exact ⟨hle.trans hlast, fun h => hle.trans (hdelta h), fun h => hle.trans (hnext h)⟩
  · by_cases heq : w' = w
    · rw [hrequests, heq, Function.update_self]
      exact .inr ⟨rfl, hlast⟩
    · rw [hrequests, Function.update_of_ne heq]
      exact .inl rfl

/-- Entering steps settle nothing on one account while references can be counted. -/
theorem Enter.settles (hledger : p.Ledger) (hepochs : p.EpochsOk cur b)
    (hcount : ∀ k, p'.references k < 2 ^ 64) (h : p.Enter cur b i p') :
    ∃ d events, p.Settles cur (activationEpoch cur b) d 0 events p' := by
  have hgt := activationEpoch_gt hcur b
  have hself : refersTo (activationEpoch cur b) (activationEpoch cur b) = 1 :=
    if_pos ⟨rfl, by omega⟩
  have hrefs := hp.refcount_eq (activationEpoch cur b)
  have hbound := hcount (activationEpoch cur b)
  cases h with
  | join d amount hamount hsettled =>
    have htrack := hsettled.trackEpoch_eq (hepochs d)
    rw [← activationEpoch_eq hcur] at htrack
    refine ⟨d, _, join_settles hcur hp (hledger.tracked d) (hepochs d) hsettled fun hneed => ?_⟩
    have hoff (d' : Address) (hd : d' ≠ d) :
        (p.join b (activationEpoch cur b) d i).delegators d' = p.delegators d' ∧
          (p.join b (activationEpoch cur b) d i).withdrawals d' = p.withdrawals d' :=
      ⟨Function.update_of_ne hd .., rfl⟩
    have hmove := references_off hoff (activationEpoch cur b)
    rw [join_references (by omega) htrack, if_pos hneed] at hmove
    omega
  | leave d w amount hamount hle hpool hfree =>
    refine ⟨d, _, leave_settles hcur hp hamount hle hfree ?_⟩
    have hoff (d' : Address) (hd : d' ≠ d) :
        (p.leave (activationEpoch cur b) d w amount).delegators d' = p.delegators d' ∧
          (p.leave (activationEpoch cur b) d w amount).withdrawals d' = p.withdrawals d' :=
      ⟨Function.update_of_ne hd .., Function.update_of_ne hd ..⟩
    have hmove := references_off hoff (activationEpoch cur b)
    rw [leave_references hamount hfree] at hmove
    omega

end Entering

section Reward

variable (hp : p.Sound cur b) (amount : ℕ)

/-- A reward adds its increment to the log. -/
theorem reward_log :
    (p.reward cur b amount).log = (cur, amount * unitBias / p.view b) :: p.log := rfl

/-- A reward raises the index of the later epochs. -/
theorem reward_indexAt : (p.reward cur b amount).indexAt =
    fun k => (if cur < k then amount * unitBias / p.view b else 0) + p.indexAt k := by
  funext k
  rw [indexAt, reward_log, indexBefore_cons, indexAt]

include hp

/-- A reward owes every account its increment times what the account earns with. -/
theorem reward_owedTo (d : Address) : (p.reward cur b amount).owedTo d =
    p.owedTo d + amount * unitBias / p.view b * p.earningOf d cur := by
  have hrecord := Delegator.owed_gain (hp.ordered d) hp.indexAt_le cur
    (amount * unitBias / p.view b)
  have hrequest (w : WithdrawId) := WithdrawalRequest.owed_gain
    (fun hne => (hp.request d w hne).2.2) cur (amount * unitBias / p.view b)
  rw [owedTo, owedTo, earningOf, reward_indexAt, Nat.mul_add, Finset.mul_sum]
  change (p.delegators d).owed _ (p.acc + _) + ∑ w, (p.withdrawals d w).owed _ = _
  rw [hrecord, Finset.sum_congr rfl fun w _ => hrequest w, Finset.sum_add_distrib]
  exact Nat.add_add_add_comm ..

end Reward

end Pool

end SuwappuRevm.Staking
