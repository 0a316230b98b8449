import SuwappuRevm.Staking.PoolSteps

/-!
# A settlement is a run of quiet steps

`pull_delegator_up_to_date` keeps the record and the unclaimed rewards in memory between its
steps. Writing both back after every step gives a pool, and each step of the settlement is one
quiet step between two such pools, provided the epochs of the record are in order. That order is
the invariant `EpochsOk`, which says which epochs a record can be pending for.
-/

namespace SuwappuRevm.Staking

open Foundations

/-- The pending epochs of a record at an epoch: at most one and two ahead, in order, and two
ahead only inside the boundary with nothing older than the next epoch pending. -/
structure EpochsOk (currentEpoch : ℕ) (inBoundary : Bool) (r : Delegator) : Prop where
  delta_le : r.deltaEpoch ≤ currentEpoch + 1
  next_le : r.nextDeltaEpoch ≤ currentEpoch + 2
  next_boundary : r.nextDeltaEpoch = currentEpoch + 2 →
    inBoundary = true ∧ (r.deltaEpoch = 0 ∨ r.deltaEpoch = currentEpoch + 1)
  delta_lt_next : r.deltaEpoch ≠ 0 → r.nextDeltaEpoch ≠ 0 → r.deltaEpoch < r.nextDeltaEpoch

/-- Below the last epoch the successor does not wrap. -/
theorem u64Add_one {epoch : ℕ} (h : epoch + 1 < 2 ^ 64) : u64Add epoch 1 = epoch + 1 :=
  Nat.mod_eq_of_lt h

/-- A track is active from its epoch on, and epoch zero means that it is empty. -/
theorem isEpochActive_iff {currentEpoch activeEpoch : ℕ} :
    isEpochActive currentEpoch activeEpoch = true ↔
      activeEpoch ≠ 0 ∧ activeEpoch ≤ currentEpoch := by
  simp [isEpochActive]

/-- `calculate_rewards` succeeds on ordered accumulators whose product fits. -/
theorem calculateRewards_eq_ok {stake epochAcc lastAcc rewards : ℕ} :
    calculateRewards stake epochAcc lastAcc = .ok rewards ↔
      lastAcc ≤ epochAcc ∧ (epochAcc - lastAcc) * stake < wordBound ∧
        rewards = rewardShare stake epochAcc lastAcc := by
  have hbias : unitBias ≠ 0 := by decide
  simp only [calculateRewards, bind_eq_ok, checkedSub_eq_ok, checkedMulDiv_eq_ok, rewardShare]
  constructor
  · rintro ⟨diff, ⟨hle, rfl⟩, -, hfits, rfl⟩
    exact ⟨hle, hfits, rfl⟩
  · rintro ⟨hle, hfits, rfl⟩
    exact ⟨_, ⟨hle, rfl⟩, hbias, hfits, rfl⟩

/-- Compounding a record folds its first track into the stake. -/
theorem compoundRecord_eq_ok {del del' : Delegator} {epochAcc rewards : ℕ} :
    compoundRecord del epochAcc = .ok (rewards, del') ↔
      del.accumulatedRewardPerToken ≤ epochAcc ∧
        (epochAcc - del.accumulatedRewardPerToken) * del.stake < wordBound ∧
        del.stake + del.deltaStake < wordBound ∧
        rewards = rewardShare del.stake epochAcc del.accumulatedRewardPerToken ∧
        del' = { del.shiftNext with
          accumulatedRewardPerToken := epochAcc, stake := del.stake + del.deltaStake } := by
  simp only [compoundRecord, bind_eq_ok, calculateRewards_eq_ok, checkedAdd_eq_ok, pure_eq_ok,
    Prod.mk.injEq]
  constructor
  · rintro ⟨_, ⟨hle, hfits, rfl⟩, _, ⟨hsum, rfl⟩, rfl, rfl⟩
    exact ⟨hle, hfits, hsum, rfl, rfl⟩
  · rintro ⟨hle, hfits, hsum, rfl, rfl⟩
    exact ⟨_, ⟨hle, hfits, rfl⟩, _, ⟨hsum, rfl⟩, rfl, rfl⟩

/-- Rewards are credited when the unclaimed ones cover them. -/
theorem rewardInvariant_eq_ok {unclaimed unclaimed' rewards : ℕ} {del del' : Delegator} :
    rewardInvariant unclaimed del rewards = .ok (unclaimed', del') ↔
      rewards ≤ unclaimed ∧ del.rewards + rewards < wordBound ∧
        unclaimed' = unclaimed - rewards ∧
        del' = { del with rewards := del.rewards + rewards } := by
  simp only [rewardInvariant, bind_eq_ok, failIf_eq_ok, checkedSub_eq_ok, checkedAdd_eq_ok,
    pure_eq_ok, Prod.mk.injEq, not_lt]
  constructor
  · rintro ⟨_, hle, _, ⟨-, rfl⟩, _, ⟨hsum, rfl⟩, rfl, rfl⟩
    exact ⟨hle, hsum, rfl, rfl⟩
  · rintro ⟨hle, hsum, rfl, rfl⟩
    exact ⟨(), hle, _, ⟨hle, rfl⟩, _, ⟨hsum, rfl⟩, rfl, rfl⟩

/-- Dropping a reference in storage drops it in the pool. -/
theorem decrement_pool (s : Storage) (epoch : ℕ) (v : ValId) :
    (decrementAccumulatorRefcount s epoch v).1 = (s.pool v).entryValue epoch ∧
      (decrementAccumulatorRefcount s epoch v).2.pool v = (s.pool v).release epoch ∧
      Touches v s (decrementAccumulatorRefcount s epoch v).2 ∧
      (decrementAccumulatorRefcount s epoch v).2.balance = s.balance ∧
      (decrementAccumulatorRefcount s epoch v).2.validators = s.validators := by
  have hrelease : (s.pool v).release epoch =
      (s.pool v).setEntry epoch (Pool.releaseEntry (s.accumulators epoch v)) := rfl
  rw [hrelease]
  by_cases hzero : (s.accumulators epoch v).refcount = 0
  · have hdec : decrementAccumulatorRefcount s epoch v = (0, s) := if_pos hzero
    have hentry : Pool.releaseEntry (s.accumulators epoch v) = s.accumulators epoch v :=
      if_pos hzero
    have hsame : (s.pool v).setEntry epoch (s.accumulators epoch v) = s.pool v := by
      simp [Pool.setEntry, Storage.pool]
    rw [hdec, hentry, hsame]
    exact ⟨(if_pos hzero).symm, rfl, .refl v s, rfl, rfl⟩
  · have hvalue : (s.pool v).entryValue epoch = (s.accumulators epoch v).value := if_neg hzero
    rw [hvalue]
    by_cases hone : (s.accumulators epoch v).refcount - 1 = 0
    · have hdec : decrementAccumulatorRefcount s epoch v = ((s.accumulators epoch v).value,
          s.writeAccumulator v epoch ⟨0, 0⟩) := (if_neg hzero).trans (if_pos hone)
      have hentry : Pool.releaseEntry (s.accumulators epoch v) = ⟨0, 0⟩ :=
        (if_neg hzero).trans (if_pos hone)
      rw [hdec, hentry]
      exact ⟨rfl, pool_writeAccumulator .., .writeAccumulator .., rfl, rfl⟩
    · have hdec : decrementAccumulatorRefcount s epoch v = ((s.accumulators epoch v).value,
          s.writeAccumulator v epoch ⟨(s.accumulators epoch v).value,
            (s.accumulators epoch v).refcount - 1⟩) := (if_neg hzero).trans (if_neg hone)
      have hentry : Pool.releaseEntry (s.accumulators epoch v) =
          ⟨(s.accumulators epoch v).value, (s.accumulators epoch v).refcount - 1⟩ :=
        (if_neg hzero).trans (if_neg hone)
      rw [hdec, hentry]
      exact ⟨rfl, pool_writeAccumulator .., .writeAccumulator .., rfl, rfl⟩

/-- The pool with a settlement's in-memory values written back. -/
def Settling.poolAt (x : Settling) (v : ValId) (d : Address) : Pool :=
  { (x.storage.pool v).setDelegator d x.del with unclaimed := x.unclaimedRewards }

/-- What a step of a settlement keeps. -/
structure Settling.Keeps (v : ValId) (x y : Settling) : Prop where
  touches : Touches v x.storage y.storage
  balance_eq : y.storage.balance = x.storage.balance

/-- The record written back. -/
@[simp] theorem Settling.poolAt_delegators (x : Settling) (v : ValId) (d : Address) :
    (x.poolAt v d).delegators d = x.del := by
  simp [Settling.poolAt, Pool.setDelegator]

/-- Recording an evaluation and writing its record back settles the pool to that record. -/
theorem Settling.poolAt_settleTo {s : Storage} {v : ValId} {p : Pool} (h : s.pool v = p)
    (d : Address) (r r' : Delegator) (unclaimed rewards : ℕ) :
    Settling.poolAt ⟨s.record v (.settled d rewards), r', unclaimed - rewards⟩ v d =
      ({ p.setDelegator d r with unclaimed }).settleTo d r' rewards := by
  simp [Settling.poolAt, Pool.settleTo, Pool.setDelegator, Pool.record, h]

/-- Two steps of a settlement. -/
theorem Settling.Keeps.trans {v : ValId} {x y z : Settling} (h : x.Keeps v y) (h' : y.Keeps v z) :
    x.Keeps v z :=
  ⟨h.touches.trans h'.touches, h'.balance_eq.trans h.balance_eq⟩

/-- A compounding touches its validator. -/
theorem compoundIf_keeps {v : ValId} {d : Address} {x y : Settling} {can : Bool}
    (h : compoundIf can v d x = .ok y) : x.Keeps v y := by
  unfold compoundIf at h
  split at h
  next =>
    obtain ⟨-, -, htouches, hbalance, -⟩ := decrement_pool x.storage x.del.deltaEpoch v
    simp only [compoundTrack, applyCompound, bind_eq_ok, pure_eq_ok, Prod.exists,
      Prod.mk.injEq] at h
    obtain ⟨_, _, _, ⟨_, _, -, rfl, rfl, rfl⟩, _, _, -, rfl⟩ := h
    exact ⟨htouches.trans (.record _ _ _), hbalance⟩
  next =>
    cases h
    exact ⟨.refl v _, rfl⟩

/-- An accrual touches its validator. -/
theorem accrueActive_keeps {v : ValId} {d : Address} {x y : Settling}
    (h : accrueActive v d x = .ok y) : x.Keeps v y := by
  unfold accrueActive at h
  split at h
  next =>
    cases h
    exact ⟨.refl v _, rfl⟩
  next =>
    simp only [bind_eq_ok, pure_eq_ok, Prod.exists] at h
    obtain ⟨_, -, _, _, -, rfl⟩ := h
    exact ⟨.record _ _ _, rfl⟩

/-- A settlement touches its validator and pays nothing out. -/
theorem pullDelegatorUpToDate_touches {s s' : Storage} {v : ValId} {d : Address} {del : Delegator}
    (h : pullDelegatorUpToDate s v d = .ok (del, s')) :
    Touches v s s' ∧ s'.balance = s.balance ∧ s'.delegators v d = del := by
  simp only [pullDelegatorUpToDate, bind_eq_ok, pure_eq_ok, Prod.mk.injEq] at h
  obtain ⟨x₁, h₁, x₂, h₂, x₃, h₃, rfl, rfl⟩ := h
  have hkeeps := ((compoundIf_keeps h₁).trans (compoundIf_keeps h₂)).trans (accrueActive_keeps h₃)
  refine ⟨?_, hkeeps.balance_eq, by simp [Storage.writeDelegator]⟩
  exact (hkeeps.touches.trans (.writeValidatorUnclaimedRewards ..)).trans (.writeDelegator ..)

/-- When compounding in memory succeeds, and with what. -/
theorem compoundTrack_eq_ok {v : ValId} {d : Address} {x y : Settling} :
    compoundTrack v d x = .ok y ↔
      x.del.accumulatedRewardPerToken ≤ (x.storage.pool v).entryValue x.del.deltaEpoch ∧
      ((x.storage.pool v).entryValue x.del.deltaEpoch - x.del.accumulatedRewardPerToken) *
        x.del.stake < wordBound ∧
      x.del.stake + x.del.deltaStake < wordBound ∧
      rewardShare x.del.stake ((x.storage.pool v).entryValue x.del.deltaEpoch)
        x.del.accumulatedRewardPerToken ≤ x.unclaimedRewards ∧
      x.del.rewards + rewardShare x.del.stake ((x.storage.pool v).entryValue x.del.deltaEpoch)
        x.del.accumulatedRewardPerToken < wordBound ∧
      y = ⟨(decrementAccumulatorRefcount x.storage x.del.deltaEpoch v).2.record v (.settled d
          (rewardShare x.del.stake ((x.storage.pool v).entryValue x.del.deltaEpoch)
            x.del.accumulatedRewardPerToken)),
        x.del.compounded ((x.storage.pool v).entryValue x.del.deltaEpoch)
          (rewardShare x.del.stake ((x.storage.pool v).entryValue x.del.deltaEpoch)
            x.del.accumulatedRewardPerToken),
        x.unclaimedRewards - rewardShare x.del.stake
          ((x.storage.pool v).entryValue x.del.deltaEpoch) x.del.accumulatedRewardPerToken⟩ := by
  obtain ⟨hvalue, -⟩ := decrement_pool x.storage x.del.deltaEpoch v
  simp only [compoundTrack, applyCompound, bind_eq_ok, pure_eq_ok, Prod.exists, Prod.mk.injEq,
    compoundRecord_eq_ok, rewardInvariant_eq_ok, hvalue]
  constructor
  · rintro ⟨_, _, _, ⟨_, _, ⟨hacc, hfits, hsum, rfl, rfl⟩, rfl, rfl, rfl⟩, _, _,
      ⟨hsolvent, hrewards, rfl, rfl⟩, rfl⟩
    exact ⟨hacc, hfits, hsum, hsolvent, hrewards, rfl⟩
  · rintro ⟨hacc, hfits, hsum, hsolvent, hrewards, rfl⟩
    exact ⟨_, _, _, ⟨_, _, ⟨hacc, hfits, hsum, rfl, rfl⟩, rfl, rfl, rfl⟩, _, _,
      ⟨hsolvent, hrewards, rfl, rfl⟩, rfl⟩

/-- Compounding in memory, written back, compounds the pool. -/
theorem compoundTrack_poolAt {v : ValId} {d : Address} {x y : Settling}
    (h : compoundTrack v d x = .ok y) : y.poolAt v d = (x.poolAt v d).compound d
      (rewardShare x.del.stake ((x.storage.pool v).entryValue x.del.deltaEpoch)
        x.del.accumulatedRewardPerToken) := by
  obtain ⟨-, hpool, -⟩ := decrement_pool x.storage x.del.deltaEpoch v
  have hdel : (x.poolAt v d).delegators d = x.del := x.poolAt_delegators v d
  obtain ⟨-, -, -, -, -, rfl⟩ := compoundTrack_eq_ok.mp h
  rw [Pool.compound, hdel]
  exact Settling.poolAt_settleTo hpool d x.del _ _ _

/-- Compounding in memory is a compounding step of the pool. -/
theorem compoundTrack_quiet (b : Bool) {v : ValId} {d : Address} {x y : Settling} {cur : ℕ}
    (hactive : x.del.deltaEpoch ≠ 0) (hle : x.del.deltaEpoch ≤ cur)
    (h : compoundTrack v d x = .ok y) :
    (x.poolAt v d).Quiet cur b 0 0 (y.poolAt v d) ∧
      y.del.deltaEpoch = x.del.nextDeltaEpoch ∧ y.del.nextDeltaEpoch = 0 := by
  have hpool := compoundTrack_poolAt h
  obtain ⟨hacc, -, -, hsolvent, -, rfl⟩ := compoundTrack_eq_ok.mp h
  refine ⟨?_, rfl, rfl⟩
  rw [hpool]
  have hdel : (x.poolAt v d).delegators d = x.del := x.poolAt_delegators v d
  refine .compound d _ ?_ ?_ ?_ ?_ hsolvent <;> rw [hdel]
  · exact hactive
  · exact hle
  · exact hacc
  · rfl

/-- When accruing in memory succeeds, and with what. -/
theorem accrueActive_eq_ok {v : ValId} {d : Address} {x y : Settling} (hstake : x.del.stake ≠ 0) :
    accrueActive v d x = .ok y ↔
      x.del.accumulatedRewardPerToken ≤ (x.storage.pool v).acc ∧
      ((x.storage.pool v).acc - x.del.accumulatedRewardPerToken) * x.del.stake < wordBound ∧
      rewardShare x.del.stake (x.storage.pool v).acc x.del.accumulatedRewardPerToken ≤
        x.unclaimedRewards ∧
      x.del.rewards + rewardShare x.del.stake (x.storage.pool v).acc
        x.del.accumulatedRewardPerToken < wordBound ∧
      y = ⟨x.storage.record v (.settled d (rewardShare x.del.stake (x.storage.pool v).acc
          x.del.accumulatedRewardPerToken)),
        x.del.accrued (x.storage.pool v).acc (rewardShare x.del.stake (x.storage.pool v).acc
          x.del.accumulatedRewardPerToken),
        x.unclaimedRewards - rewardShare x.del.stake (x.storage.pool v).acc
          x.del.accumulatedRewardPerToken⟩ := by
  rw [accrueActive, if_neg hstake]
  simp only [bind_eq_ok, pure_eq_ok, Prod.exists, calculateRewards_eq_ok, rewardInvariant_eq_ok]
  constructor
  · rintro ⟨_, ⟨hacc, hfits, rfl⟩, _, _, ⟨hsolvent, hrewards, rfl, rfl⟩, rfl⟩
    exact ⟨hacc, hfits, hsolvent, hrewards, rfl⟩
  · rintro ⟨hacc, hfits, hsolvent, hrewards, rfl⟩
    exact ⟨_, ⟨hacc, hfits, rfl⟩, _, _, ⟨hsolvent, hrewards, rfl, rfl⟩, rfl⟩

/-- Accruing in memory, written back, accrues the pool. -/
theorem accrueActive_poolAt {v : ValId} {d : Address} {x y : Settling} (hstake : x.del.stake ≠ 0)
    (h : accrueActive v d x = .ok y) : y.poolAt v d = (x.poolAt v d).accrue d
      (rewardShare x.del.stake (x.storage.pool v).acc x.del.accumulatedRewardPerToken) := by
  have hdel : (x.poolAt v d).delegators d = x.del := x.poolAt_delegators v d
  obtain ⟨-, -, -, -, rfl⟩ := (accrueActive_eq_ok hstake).mp h
  rw [Pool.accrue, hdel]
  exact Settling.poolAt_settleTo rfl d x.del _ _ _

/-- Accruing in memory is an accruing step of the pool, or nothing without active stake. -/
theorem accrueActive_quiet (b : Bool) {v : ValId} {d : Address} {x y : Settling} {cur : ℕ}
    (hsettled : x.del.Settled cur) (h : accrueActive v d x = .ok y) :
    (x.poolAt v d).QuietRun cur b 0 0 (y.poolAt v d) ∧
      y.del.deltaEpoch = x.del.deltaEpoch ∧ y.del.nextDeltaEpoch = x.del.nextDeltaEpoch := by
  by_cases hstake : x.del.stake = 0
  · rw [accrueActive, if_pos hstake] at h
    cases h
    exact ⟨.refl, rfl, rfl⟩
  · have hpool := accrueActive_poolAt hstake h
    obtain ⟨hacc, -, hsolvent, -, rfl⟩ := (accrueActive_eq_ok hstake).mp h
    refine ⟨?_, rfl, rfl⟩
    rw [hpool]
    have hdel : (x.poolAt v d).delegators d = x.del := x.poolAt_delegators v d
    refine .single (.accrue d _ ?_ ?_ ?_ ?_ hsolvent) <;> rw [hdel]
    · exact hsettled
    · exact hstake
    · exact hacc
    · rfl

/-- A conditional compounding is a compounding step or nothing. -/
theorem compoundIf_quiet (b : Bool) {v : ValId} {d : Address} {x y : Settling} {can : Bool}
    {cur : ℕ}
    (hactive : can = true → x.del.deltaEpoch ≠ 0 ∧ x.del.deltaEpoch ≤ cur)
    (h : compoundIf can v d x = .ok y) :
    (x.poolAt v d).QuietRun cur b 0 0 (y.poolAt v d) ∧ (can = false → y.del = x.del) ∧
      (can = true → y.del.deltaEpoch = x.del.nextDeltaEpoch ∧ y.del.nextDeltaEpoch = 0) := by
  unfold compoundIf at h
  split at h
  next hcan =>
    obtain ⟨hstep, hepochs⟩ := compoundTrack_quiet b (hactive hcan).1 (hactive hcan).2 h
    exact ⟨.single hstep, fun hnot => absurd hcan (by simp [hnot]), fun _ => hepochs⟩
  next hcan =>
    cases h
    exact ⟨.refl, fun _ => rfl, fun hyes => absurd hyes hcan⟩

/-- The epochs of a record after its promotion: the first track is empty only if the next one
waits for two epochs ahead. -/
theorem promoteNext_epochs {cur : ℕ} {b : Bool} {r : Delegator} (hcur : cur + 1 < 2 ^ 64)
    (hr : EpochsOk cur b r) :
    EpochsOk cur b (promoteNext cur r) ∧
      ((promoteNext cur r).deltaEpoch = 0 → (promoteNext cur r).nextDeltaEpoch = 0 ∨
        (promoteNext cur r).nextDeltaEpoch = cur + 2) := by
  unfold promoteNext
  rw [u64Add_one hcur]
  split
  next h =>
    obtain ⟨-, hle, hnext⟩ := h
    exact ⟨⟨hle, Nat.zero_le _, fun h0 => absurd h0 (by simp), fun _ h0 => absurd rfl h0⟩,
      fun h0 => absurd h0 hnext⟩
  next h =>
    refine ⟨hr, fun h0 => ?_⟩
    have hle := hr.next_le
    by_contra hnot
    exact h ⟨h0, by omega, by omega⟩

/-- Promoting the record read from storage is a promotion step of the pool, or nothing. -/
theorem promoteNext_quiet {s : Storage} {v : ValId} {d : Address} (hcur : s.epoch + 1 < 2 ^ 64) :
    (s.pool v).QuietRun s.epoch s.inBoundary 0 0
      ((s.pool v).setDelegator d (promoteNext s.epoch (s.delegators v d))) := by
  unfold promoteNext
  rw [u64Add_one hcur]
  split
  next h => exact .single (.promote d h.1 h.2.2 h.2.1)
  next =>
    have hsame : (s.pool v).setDelegator d (s.delegators v d) = s.pool v := by
      simp [Pool.setDelegator, Storage.pool]
    rw [hsame]
    exact .refl

/-- An active boundary track stands behind an active first one. -/
theorem first_active {cur : ℕ} {b : Bool} {r : Delegator} (hok : EpochsOk cur b r)
    (hnext : r.deltaEpoch = 0 → r.nextDeltaEpoch = 0 ∨ r.nextDeltaEpoch = cur + 2)
    (hactive : isEpochActive cur r.nextDeltaEpoch = true) :
    r.deltaEpoch ≠ 0 ∧ r.deltaEpoch ≤ cur := by
  obtain ⟨hne, hle⟩ := isEpochActive_iff.mp hactive
  have hdelta : r.deltaEpoch ≠ 0 := fun h0 => by
    rcases hnext h0 with h | h <;> omega
  have hlt := hok.delta_lt_next hdelta hne
  exact ⟨hdelta, by omega⟩

/-- The track that the second compounding folds in is active. -/
theorem second_active {cur : ℕ} {r r' : Delegator}
    (hsame : isEpochActive cur r.nextDeltaEpoch = false → r' = r)
    (hshift : isEpochActive cur r.nextDeltaEpoch = true → r'.deltaEpoch = r.nextDeltaEpoch)
    (hactive : isEpochActive cur r.deltaEpoch = true) :
    r'.deltaEpoch ≠ 0 ∧ r'.deltaEpoch ≤ cur := by
  cases hboundary : isEpochActive cur r.nextDeltaEpoch with
  | true =>
    rw [hshift hboundary]
    exact isEpochActive_iff.mp hboundary
  | false =>
    rw [hsame hboundary]
    exact isEpochActive_iff.mp hactive

/-- After both compoundings nothing is pending for an epoch that has begun. -/
theorem compoundBoth_settled {cur : ℕ} {b : Bool} {r r₁ r₂ : Delegator} (hok : EpochsOk cur b r)
    (hnext : r.deltaEpoch = 0 → r.nextDeltaEpoch = 0 ∨ r.nextDeltaEpoch = cur + 2)
    (hsame₁ : isEpochActive cur r.nextDeltaEpoch = false → r₁ = r)
    (hshift₁ : isEpochActive cur r.nextDeltaEpoch = true →
      r₁.deltaEpoch = r.nextDeltaEpoch ∧ r₁.nextDeltaEpoch = 0)
    (hsame₂ : isEpochActive cur r.deltaEpoch = false → r₂ = r₁)
    (hshift₂ : isEpochActive cur r.deltaEpoch = true →
      r₂.deltaEpoch = r₁.nextDeltaEpoch ∧ r₂.nextDeltaEpoch = 0) : r₂.Settled cur := by
  have hinactive {e : ℕ} (he : isEpochActive cur e = false) : e = 0 ∨ cur < e := by
    have hnot : ¬(e ≠ 0 ∧ e ≤ cur) := fun hact => by
      rw [isEpochActive_iff.mpr hact] at he
      cases he
    omega
  cases hactive : isEpochActive cur r.deltaEpoch with
  | true =>
    obtain ⟨hdelta, hzero⟩ := hshift₂ hactive
    refine ⟨?_, Or.inl hzero⟩
    rw [hdelta]
    cases hboundary : isEpochActive cur r.nextDeltaEpoch with
    | true => exact Or.inl (hshift₁ hboundary).2
    | false =>
      rw [hsame₁ hboundary]
      exact hinactive hboundary
  | false =>
    have hboundary : isEpochActive cur r.nextDeltaEpoch = false := by
      by_contra hyes
      have hact := isEpochActive_iff.mpr (first_active hok hnext (by simpa using hyes))
      rw [hactive] at hact
      cases hact
    rw [hsame₂ hactive, hsame₁ hboundary]
    have hlater : r.nextDeltaEpoch = 0 ∨ cur + 1 < r.nextDeltaEpoch := by
      by_cases hdelta : r.deltaEpoch = 0
      · rcases hnext hdelta with h | h <;> omega
      · have hlt := hok.delta_lt_next hdelta
        have hpending := hinactive hactive
        omega
    exact ⟨hinactive hactive, hlater⟩

/-- A settlement is a run of quiet steps on the pool of its validator and leaves a settled
record. -/
theorem pullDelegatorUpToDate_spec {s s' : Storage} {v : ValId} {d : Address} {del : Delegator}
    (hcur : s.epoch + 1 < 2 ^ 64) (hr : EpochsOk s.epoch s.inBoundary (s.delegators v d))
    (h : pullDelegatorUpToDate s v d = .ok (del, s')) :
    (s.pool v).QuietRun s.epoch s.inBoundary 0 0 (s'.pool v) ∧ del.Settled s.epoch := by
  simp only [pullDelegatorUpToDate, bind_eq_ok, pure_eq_ok, Prod.mk.injEq] at h
  obtain ⟨x₁, h₁, x₂, h₂, x₃, h₃, rfl, rfl⟩ := h
  obtain ⟨hok, hnext⟩ := promoteNext_epochs hcur hr
  have hpromote : (s.pool v).QuietRun s.epoch s.inBoundary 0 0
      ((s.pool v).setDelegator d (promoteNext s.epoch (s.delegators v d))) :=
    promoteNext_quiet hcur
  generalize promoteNext s.epoch (s.delegators v d) = r at *
  have hfirst := first_active hok hnext
  obtain ⟨hrun₁, hsame₁, hshift₁⟩ := compoundIf_quiet s.inBoundary hfirst h₁
  have hsecond := second_active hsame₁ fun hboundary => (hshift₁ hboundary).1
  obtain ⟨hrun₂, hsame₂, hshift₂⟩ := compoundIf_quiet s.inBoundary hsecond h₂
  have hsettled := compoundBoth_settled hok hnext hsame₁ hshift₁ hsame₂ hshift₂
  obtain ⟨hrun₃, hdelta₃, hnext₃⟩ := accrueActive_quiet s.inBoundary hsettled h₃
  have hfinal : ((x₃.storage.writeValidatorUnclaimedRewards v x₃.unclaimedRewards).writeDelegator v
      d x₃.del).pool v = x₃.poolAt v d := by
    simp [Settling.poolAt, Pool.setDelegator]
  refine ⟨?_, hdelta₃ ▸ hsettled.delta, hnext₃ ▸ hsettled.next⟩
  rw [hfinal]
  exact ((hpromote.trans hrun₁).trans hrun₂).trans hrun₃

namespace Pool

variable {cur : ℕ} {b : Bool} {p p' : Pool} {i o : ℕ}

/-- All records of a pool have their epochs in order. -/
def EpochsOk (cur : ℕ) (b : Bool) (p : Pool) : Prop :=
  ∀ d, Staking.EpochsOk cur b (p.delegators d)

/-- Writing one record keeps the others. -/
theorem epochsOk_update {d : Address} {r : Delegator}
    (h : p'.delegators = Function.update p.delegators d r) (hp : p.EpochsOk cur b)
    (hr : Staking.EpochsOk cur b r) : p'.EpochsOk cur b := by
  intro d'
  rw [h]
  by_cases hd : d' = d
  · rw [hd, Function.update_self]
    exact hr
  · rw [Function.update_of_ne hd]
    exact hp d'

/-- Moving the next track keeps the epochs in order once it is due. -/
theorem epochsOk_shiftNext {r : Delegator} (hle : r.nextDeltaEpoch ≤ cur + 1) :
    Staking.EpochsOk cur b r.shiftNext :=
  ⟨hle, Nat.zero_le _, fun h => absurd h (by simp [Delegator.shiftNext]), fun _ h => absurd rfl h⟩

/-- A compounded record has nothing left two epochs ahead. -/
theorem next_le_of_active {r : Delegator} (hr : Staking.EpochsOk cur b r)
    (hdelta : r.deltaEpoch ≠ 0) (hle : r.deltaEpoch ≤ cur) : r.nextDeltaEpoch ≤ cur + 1 := by
  have hnext := hr.next_le
  by_contra hnot
  rcases (hr.next_boundary (by omega)).2 with h | h <;> omega

/-- Quiet steps keep the epochs in order. -/
theorem Quiet.epochsOk (hp : p.EpochsOk cur b) (h : p.Quiet cur b i o p') : p'.EpochsOk cur b := by
  cases h with
  | promote d hdelta hnext hle => exact epochsOk_update rfl hp (epochsOk_shiftNext hle)
  | compound d rewards hdelta hle hacc hrewards hsolvent =>
    have hshift : Staking.EpochsOk cur b (p.delegators d).shiftNext :=
      epochsOk_shiftNext (next_le_of_active (hp d) hdelta hle)
    exact epochsOk_update rfl hp ⟨hshift.1, hshift.2, hshift.3, hshift.4⟩
  | accrue d rewards hsettled hstake hacc hrewards hsolvent =>
    exact epochsOk_update rfl hp ⟨(hp d).1, (hp d).2, (hp d).3, (hp d).4⟩
  | take d hrewards => exact epochsOk_update rfl hp ⟨(hp d).1, (hp d).2, (hp d).3, (hp d).4⟩
  | pay d w rewards hamount hepoch hready hacc hrewards hsolvent => exact hp
  | commission d amount hview =>
    exact epochsOk_update rfl hp ⟨(hp d).1, (hp d).2, (hp d).3, (hp d).4⟩
  | reward amount hview => exact hp

/-- A delegation to a settled record keeps the epochs in order. -/
theorem epochsOk_addTo {r : Delegator} (hcur : cur + 1 < 2 ^ 64) (hr : Staking.EpochsOk cur b r)
    (hsettled : r.Settled cur) (amount : ℕ) :
    Staking.EpochsOk cur b (r.addTo b (activationEpoch cur b) amount) := by
  obtain ⟨hdelta, hnext⟩ := hsettled
  have hdelta_le := hr.delta_le
  cases b with
  | false =>
    have hact : activationEpoch cur false = cur + 1 := u64Add_one hcur
    have hnone : r.nextDeltaEpoch = 0 := by
      rcases hnext with h | h
      · exact h
      · have hle := hr.next_le
        have hboundary := (hr.next_boundary (by omega)).1
        cases hboundary
    rw [hact]
    exact ⟨le_rfl, hr.next_le, fun h => absurd (hnone.symm.trans h) (by omega),
      fun _ h => absurd hnone h⟩
  | true =>
    have hact : activationEpoch cur true = cur + 2 ∨ activationEpoch cur true = 0 := by
      simp only [activationEpoch, if_true, u64Add]
      omega
    have hcases : r.deltaEpoch = 0 ∨ r.deltaEpoch = cur + 1 := by omega
    rcases hact with hact | hact
    · rw [hact]
      refine ⟨hr.delta_le, le_rfl, fun _ => ⟨rfl, hcases⟩, fun hne _ => ?_⟩
      change r.deltaEpoch < cur + 2
      omega
    · rw [hact]
      exact ⟨hr.delta_le, Nat.zero_le _, fun h => absurd h (by simp [Delegator.addTo]),
        fun _ h => absurd rfl h⟩

/-- Entering steps keep the epochs in order. -/
theorem Enter.epochsOk (hcur : cur + 1 < 2 ^ 64) (hp : p.EpochsOk cur b)
    (h : p.Enter cur b i p') : p'.EpochsOk cur b := by
  cases h with
  | join d amount hamount hsettled =>
    exact epochsOk_update rfl hp (epochsOk_addTo hcur (hp d) hsettled i)
  | leave d w amount hamount hle hpool hfree =>
    exact epochsOk_update rfl hp ⟨(hp d).1, (hp d).2, (hp d).3, (hp d).4⟩

/-- Quiet runs keep the epochs in order. -/
theorem QuietRun.epochsOk (hp : p.EpochsOk cur b) (h : p.QuietRun cur b i o p') :
    p'.EpochsOk cur b :=
  h.preserves (EpochsOk cur b) (fun _ _ _ _ hp hstep => hstep.epochsOk hp) hp

/-- Runs keep the epochs in order. -/
theorem Run.epochsOk (hcur : cur + 1 < 2 ^ 64) (hp : p.EpochsOk cur b) (h : p.Run cur b i o p') :
    p'.EpochsOk cur b := by
  cases h with
  | quiet hrun => exact hrun.epochsOk hp
  | enter hrun hstep => exact hstep.epochsOk hcur (hrun.epochsOk hp)

end Pool

end SuwappuRevm.Staking
