import SuwappuRevm.Staking.Ledger

/-!
# What a call computes on its pool

A settlement and the user methods as functions on pools. A successful call leaves its pool in the
value of its function, so what two calls do to each other, or to an account that is not theirs, is
read off these functions.
-/

namespace SuwappuRevm.Staking

open Foundations

namespace Pool

variable (p : Pool) (cur : ℕ) (b : Bool) (d : Address)

/-- Promote the next track of a record when it is due. -/
def promoted : Pool := p.setDelegator d (promoteNext cur (p.delegators d))

/-- Compound the first track of a record with the rewards up to its entry. -/
def compounded : Pool :=
  p.compound d (rewardShare (p.delegators d).stake (p.entryValue (p.delegators d).deltaEpoch)
    (p.delegators d).accumulatedRewardPerToken)

/-- Compound when the track can be. -/
def compoundedIf (can : Bool) : Pool := if can then p.compounded d else p

/-- Accrue the active stake of a record. -/
def accrued : Pool :=
  if (p.delegators d).stake = 0 then p
  else p.accrue d (rewardShare (p.delegators d).stake p.acc
    (p.delegators d).accumulatedRewardPerToken)

/-- A settlement. -/
def pulled : Pool :=
  let q := p.promoted cur d
  let canCompound := isEpochActive cur (q.delegators d).deltaEpoch
  let canCompoundBoundary := isEpochActive cur (q.delegators d).nextDeltaEpoch
  ((q.compoundedIf d canCompoundBoundary).compoundedIf d canCompound).accrued d

/-- A settlement, then a delegation. -/
def delegated (amount : ℕ) : Pool :=
  (p.pulled cur d).join b (activationEpoch cur b) d amount

/-- A settlement, then the credited rewards are taken. -/
def claimed : Pool :=
  let q := p.pulled cur d
  if (q.delegators d).rewards = 0 then q else q.take d

/-- A settlement, then the credited rewards are delegated. -/
def restaked : Pool :=
  let q := p.pulled cur d
  if (q.delegators d).rewards = 0 then q
  else (q.take d).delegated cur b d (q.delegators d).rewards

/-- A settlement, then an undelegation. -/
def undelegated (amount : ℕ) (w : WithdrawId) : Pool :=
  let q := p.pulled cur d
  q.leave (activationEpoch cur b) d w (leaving (q.delegators d).stake amount)

end Pool

section Upkeep

/-- What a settlement of one account keeps: stake, accumulator and requests, all other records,
and of its own record the principal and the rewards already credited. -/
structure Pool.Upkeep (d : Address) (p p' : Pool) : Prop where
  stake_eq : p'.stake = p.stake
  acc_eq : p'.acc = p.acc
  withdrawals_eq : p'.withdrawals = p.withdrawals
  off : ∀ d', d' ≠ d → p'.delegators d' = p.delegators d'
  rewards_le : (p.delegators d).rewards ≤ (p'.delegators d).rewards
  principal_eq : (p.delegators d).Tracked →
    (p'.delegators d).Tracked ∧ (p'.delegators d).principal = (p.delegators d).principal

namespace Pool

variable {p p' p'' : Pool} {d : Address}

/-- Doing nothing is upkeep. -/
theorem Upkeep.refl (p : Pool) (d : Address) : p.Upkeep d p :=
  ⟨rfl, rfl, rfl, fun _ _ => rfl, le_rfl, fun h => ⟨h, rfl⟩⟩

/-- Upkeep composes. -/
theorem Upkeep.trans (h : p.Upkeep d p') (h' : p'.Upkeep d p'') : p.Upkeep d p'' where
  stake_eq := h'.stake_eq.trans h.stake_eq
  acc_eq := h'.acc_eq.trans h.acc_eq
  withdrawals_eq := h'.withdrawals_eq.trans h.withdrawals_eq
  off d' hd := (h'.off d' hd).trans (h.off d' hd)
  rewards_le := h.rewards_le.trans h'.rewards_le
  principal_eq htracked := by
    obtain ⟨htracked', hsame⟩ := h.principal_eq htracked
    obtain ⟨htracked'', hsame'⟩ := h'.principal_eq htracked'
    exact ⟨htracked'', hsame'.trans hsame⟩

/-- Upkeep keeps the principal of every record. -/
theorem Upkeep.record (h : p.Upkeep d p') (d' : Address) (htracked : (p.delegators d').Tracked) :
    (p'.delegators d').Tracked ∧ (p'.delegators d').principal = (p.delegators d').principal := by
  by_cases hd : d' = d
  · subst hd
    exact h.principal_eq htracked
  · rw [h.off d' hd]
    exact ⟨htracked, rfl⟩

/-- Writing one record that keeps principal and rewards is upkeep. -/
theorem Upkeep.of_update {r : Delegator}
    (hdelegators : p'.delegators = Function.update p.delegators d r)
    (hstake : p'.stake = p.stake) (hacc : p'.acc = p.acc)
    (hwithdrawals : p'.withdrawals = p.withdrawals)
    (hrewards : (p.delegators d).rewards ≤ r.rewards)
    (hprincipal : (p.delegators d).Tracked →
      r.Tracked ∧ r.principal = (p.delegators d).principal) : p.Upkeep d p' := by
  have hself : p'.delegators d = r := by rw [hdelegators, Function.update_self]
  refine ⟨hstake, hacc, hwithdrawals, fun d' hd => ?_, ?_, ?_⟩
  · rw [hdelegators, Function.update_of_ne hd]
  · rw [hself]
    exact hrewards
  · rw [hself]
    exact hprincipal

/-- A promotion is upkeep. -/
theorem promoted_upkeep (p : Pool) (cur : ℕ) (d : Address) : p.Upkeep d (p.promoted cur d) := by
  refine .of_update rfl rfl rfl rfl ?_ fun htracked => ?_
  · unfold promoteNext
    split <;> exact le_rfl
  · unfold promoteNext
    split
    next hdue => exact htracked.shiftNext hdue.1
    next => exact ⟨htracked, rfl⟩

/-- A compounding is upkeep. -/
theorem compoundedIf_upkeep (p : Pool) (d : Address) (can : Bool) :
    p.Upkeep d (p.compoundedIf d can) := by
  unfold compoundedIf
  split
  · exact .of_update rfl rfl rfl rfl (Nat.le_add_right ..) fun htracked =>
      htracked.compounded _ _
  · exact .refl p d

/-- An accrual is upkeep. -/
theorem accrued_upkeep (p : Pool) (d : Address) : p.Upkeep d (p.accrued d) := by
  unfold accrued
  split
  · exact .refl p d
  · exact .of_update rfl rfl rfl rfl (Nat.le_add_right ..) fun htracked =>
      ⟨⟨htracked.delta_iff, htracked.next_iff⟩, rfl⟩

/-- A settlement is upkeep. -/
theorem pulled_upkeep (p : Pool) (cur : ℕ) (d : Address) : p.Upkeep d (p.pulled cur d) :=
  (((p.promoted_upkeep cur d).trans (compoundedIf_upkeep ..)).trans
    (compoundedIf_upkeep ..)).trans (accrued_upkeep ..)

/-- Crediting a commission is upkeep. -/
theorem credit_upkeep (p : Pool) (d : Address) (amount : ℕ) : p.Upkeep d (p.credit d amount) :=
  .of_update rfl rfl rfl rfl (Nat.le_add_right ..) fun htracked =>
    ⟨⟨htracked.delta_iff, htracked.next_iff⟩, rfl⟩

end Pool

end Upkeep

section Settlement

variable {v : ValId} {d : Address}

/-- Conditional compounding in memory, written back. -/
theorem compoundIf_poolAt {can : Bool} {x y : Settling} (h : compoundIf can v d x = .ok y) :
    y.poolAt v d = (x.poolAt v d).compoundedIf d can := by
  unfold compoundIf at h
  unfold Pool.compoundedIf
  split at h
  next hcan =>
    rw [if_pos hcan, compoundTrack_poolAt h, Pool.compounded, x.poolAt_delegators]
    rfl
  next hcan =>
    cases h
    rw [if_neg hcan]

/-- Accruing in memory, written back. -/
theorem accrueActive_accrued {x y : Settling} (h : accrueActive v d x = .ok y) :
    y.poolAt v d = (x.poolAt v d).accrued d := by
  unfold Pool.accrued
  rw [x.poolAt_delegators]
  by_cases hstake : x.del.stake = 0
  · rw [accrueActive, if_pos hstake] at h
    cases h
    rw [if_pos hstake]
  · rw [if_neg hstake, accrueActive_poolAt hstake h]
    rfl

/-- A settlement leaves its pool in the settled one. -/
theorem pullDelegatorUpToDate_pool {s s' : Storage} {del : Delegator}
    (h : pullDelegatorUpToDate s v d = .ok (del, s')) :
    s'.pool v = (s.pool v).pulled s.epoch d := by
  simp only [pullDelegatorUpToDate, bind_eq_ok, pure_eq_ok, Prod.mk.injEq] at h
  obtain ⟨x₁, h₁, x₂, h₂, x₃, h₃, rfl, rfl⟩ := h
  have hfinal : ((x₃.storage.writeValidatorUnclaimedRewards v x₃.unclaimedRewards).writeDelegator v
      d x₃.del).pool v = x₃.poolAt v d := by
    simp [Settling.poolAt, Pool.setDelegator]
  have hstart : Settling.poolAt ⟨s, promoteNext s.epoch (s.delegators v d),
      (s.validators v).unclaimedRewards⟩ v d = (s.pool v).promoted s.epoch d := rfl
  have hdel : ((s.pool v).promoted s.epoch d).delegators d =
      promoteNext s.epoch (s.delegators v d) := Function.update_self ..
  rw [hfinal, accrueActive_accrued h₃, compoundIf_poolAt h₂, compoundIf_poolAt h₁, hstart,
    Pool.pulled, hdel]

/-- The record a settlement returns is the one it leaves in the pool. -/
theorem pullDelegatorUpToDate_record {s s' : Storage} {del : Delegator}
    (h : pullDelegatorUpToDate s v d = .ok (del, s')) :
    ((s.pool v).pulled s.epoch d).delegators d = del := by
  rw [← pullDelegatorUpToDate_pool h]
  exact (pullDelegatorUpToDate_touches h).2.2

/-- `internal_delegate` leaves its pool in the delegated one. -/
theorem internalDelegate_pool {s s' : Storage} {amount : ℕ}
    (h : internalDelegate s v d amount = .ok s') :
    s'.pool v = (s.pool v).delegated s.epoch s.inBoundary d amount := by
  obtain ⟨del, s₁, hpull, -, -, -, hjoin⟩ := internalDelegate_join h
  obtain ⟨htouches, -⟩ := pullDelegatorUpToDate_touches hpull
  rw [hjoin, pullDelegatorUpToDate_pool hpull, htouches.epoch_eq, htouches.inBoundary_eq]
  rfl

end Settlement

section Handlers

variable {s : Storage} {msg : Message} {v : ValId} {answer : Answer}

/-- Taking the credited rewards of a record takes them in the pool. -/
theorem takeRewards_pool {d : Address} {del : Delegator}
    (hdel : ((s.pool v).delegators d) = del) :
    (takeRewards s v d del).pool v = (s.pool v).take d := by
  subst hdel
  rw [takeRewards, pool_record, pool_writeDelegator]
  rfl

/-- `handle_delegate` without value changes nothing, and else delegates. -/
theorem handleDelegate_pool (h : handleDelegate s msg v = .ok answer) :
    answer.storage.pool v = if msg.callValue = 0 then s.pool v
      else (s.pool v).delegated s.epoch s.inBoundary msg.caller msg.callValue := by
  simp only [handleDelegate, bind_eq_ok, failIf_eq_ok] at h
  obtain ⟨-, -, -, -, h⟩ := h
  split at h
  next hzero =>
    cases h
    rw [if_pos hzero]
  next hvalue =>
    simp only [bind_eq_ok, failIf_eq_ok, pure_eq_ok] at h
    obtain ⟨-, -, s₁, hdelegate, rfl⟩ := h
    rw [if_neg hvalue]
    exact internalDelegate_pool hdelegate

/-- `handle_claim_rewards` claims. -/
theorem handleClaimRewards_pool (h : handleClaimRewards s msg v = .ok answer) :
    answer.storage.pool v = (s.pool v).claimed s.epoch msg.caller := by
  simp only [handleClaimRewards, bind_eq_ok] at h
  obtain ⟨-, -, ⟨del, s₁⟩, hpull, h⟩ := h
  have hpool := pullDelegatorUpToDate_pool hpull
  have hrecord := pullDelegatorUpToDate_record hpull
  simp only [Pool.claimed, hrecord]
  dsimp only at h
  split at h
  next hzero =>
    cases h
    rw [if_pos hzero]
    exact hpool
  next hrewards =>
    simp only [bind_eq_ok, pure_eq_ok] at h
    obtain ⟨s₂, htransfer, rfl⟩ := h
    obtain ⟨-, rfl⟩ := transfer_eq_ok htransfer
    rw [if_neg hrewards, ← hpool]
    rw [← hpool] at hrecord
    have htake : (takeRewards (s₁.payOut del.rewards) v msg.caller del).pool v = _ :=
      takeRewards_pool hrecord
    exact htake

/-- `handle_compound` restakes. -/
theorem handleCompound_pool (h : handleCompound s msg v = .ok answer) :
    answer.storage.pool v = (s.pool v).restaked s.epoch s.inBoundary msg.caller := by
  simp only [handleCompound, bind_eq_ok] at h
  obtain ⟨-, -, ⟨del, s₁⟩, hpull, h⟩ := h
  obtain ⟨htouches, -⟩ := pullDelegatorUpToDate_touches hpull
  have hpool := pullDelegatorUpToDate_pool hpull
  have hrecord := pullDelegatorUpToDate_record hpull
  simp only [Pool.restaked, hrecord]
  dsimp only at h
  split at h
  next hzero =>
    cases h
    rw [if_pos hzero]
    exact hpool
  next hrewards =>
    simp only [bind_eq_ok, pure_eq_ok] at h
    obtain ⟨s₂, hdelegate, rfl⟩ := h
    rw [← hpool] at hrecord
    rw [if_neg hrewards, internalDelegate_pool hdelegate, takeRewards_pool hrecord, ← hpool,
      ← htouches.epoch_eq, ← htouches.inBoundary_eq]
    rfl

/-- `handle_undelegate` of nothing changes nothing, and else undelegates. -/
theorem handleUndelegate_pool {amount : ℕ} {w : WithdrawId}
    (h : handleUndelegate s msg v amount w = .ok answer) :
    answer.storage.pool v = if amount = 0 then s.pool v
      else (s.pool v).undelegated s.epoch s.inBoundary msg.caller amount w := by
  by_cases hamount : amount = 0
  · simp only [handleUndelegate, bind_eq_ok, if_pos hamount] at h
    obtain ⟨-, -, h⟩ := h
    cases h
    rw [if_pos hamount]
  · obtain ⟨-, -, del, s₁, hpull, -, -, -, -, hleave⟩ := handleUndelegate_leave hamount h
    obtain ⟨htouches, -⟩ := pullDelegatorUpToDate_touches hpull
    rw [if_neg hamount, hleave, pullDelegatorUpToDate_pool hpull, htouches.epoch_eq,
      htouches.inBoundary_eq, Pool.undelegated, pullDelegatorUpToDate_record hpull]

/-- `handle_get_delegator_write` settles the named record. -/
theorem handleGetDelegatorWrite_pool {d : Address}
    (h : handleGetDelegatorWrite s msg v d = .ok answer) :
    answer.storage.pool v = (s.pool v).pulled s.epoch d := by
  simp only [handleGetDelegatorWrite, bind_eq_ok, pure_eq_ok] at h
  obtain ⟨-, -, ⟨del, s₁⟩, hpull, rfl⟩ := h
  exact pullDelegatorUpToDate_pool hpull

end Handlers

end SuwappuRevm.Staking
