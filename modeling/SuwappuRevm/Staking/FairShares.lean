import Mathlib.Algebra.BigOperators.Ring.List
import Mathlib.Data.Rat.Cast.Order
import SuwappuRevm.Staking.FrequentSettlement
import SuwappuRevm.Staking.RewardShares

/-!
# Fair shares of settled delegators

A delegator without open requests is owed nothing once it is settled. So what it was credited is its
exact share in the rewards of the validator, reward by reward, but for less than one unit for each
evaluation. References that come round to zero break this: a settlement that reads a cleared entry
credits rewards from before the delegation.
-/

namespace SuwappuRevm.Staking

open Foundations

namespace Pool

variable {p : Pool} {cur : ℕ} {b : Bool} {d : Address}

/-- The share of a delegator in an event: of a reward, the growth of the accumulator for each unit
of stake that the delegator earns with in the epoch of the reward. -/
def shareIn (p : Pool) (d : Address) : PoolEvent → ℚ
  | .rewarded epoch reward activeStake =>
    (reward * unitBias / activeStake : ℕ) / unitBias * p.weight d epoch
  | _ => 0

/-- The exact share of a delegator in all rewards. -/
def fairShare (p : Pool) (d : Address) : ℚ := (p.history.map (p.shareIn d)).sum

/-- A delegator is paid fairly: the rewards it holds and those taken for it are those credited,
these are its exact share but for at most one unit for each evaluation, and who earns with nothing
in the epoch of any reward is credited nothing. -/
structure FairlyPaid (p : Pool) (d : Address) : Prop where
  held_eq : (p.delegators d).rewards + p.tally (PoolEvent.takes d) =
    p.credited d + p.tally (PoolEvent.commissions d)
  credited_le : (p.credited d : ℚ) ≤ p.fairShare d
  le_credited : p.fairShare d - p.evaluations d ≤ p.credited d
  idle : (∀ e ∈ p.log, p.weight d e.1 = 0) → p.credited d = 0

/-- The exact share in units of rewards. -/
theorem fairShare_eq (p : Pool) (d : Address) : p.fairShare d = p.exactShare d / unitBias := by
  have hevents (events : List PoolEvent) : (events.map (p.shareIn d)).sum =
      (eagerTotal (events.filterMap PoolEvent.increment) (p.weight d) : ℚ) / unitBias := by
    induction events with
    | nil => simp [eagerTotal]
    | cons e events ih =>
      rw [List.map_cons, List.sum_cons, ih]
      cases e with
      | rewarded epoch reward activeStake =>
        have hcons : (PoolEvent.rewarded epoch reward activeStake :: events).filterMap
            PoolEvent.increment = (epoch, reward * unitBias / activeStake) ::
              events.filterMap PoolEvent.increment := rfl
        rw [hcons, eagerTotal_cons, shareIn]
        push_cast
        ring
      | _ => exact zero_add _
  exact hevents p.history

/-- Who earns with nothing in the epoch of any reward has no share. -/
theorem exactShare_eq_zero (h : ∀ e ∈ p.log, p.weight d e.1 = 0) : p.exactShare d = 0 := by
  refine List.sum_eq_zero fun x hx => ?_
  obtain ⟨e, he, rfl⟩ := List.mem_map.mp hx
  rw [h e he, Nat.mul_zero]

/-- A record at rest without open requests is owed nothing, so it is paid fairly. -/
theorem AtRest.fairlyPaid (h : p.AtRest cur d) (hp : p.Sound cur b)
    (ht : (p.delegators d).Tracked) (hshares : p.Shares cur) (hpurses : p.Purses)
    (hclosed : ∀ w, (p.withdrawals d w).amount = 0) : p.FairlyPaid d := by
  have howed : p.owedTo d = 0 := by
    rw [h.owedTo_eq hp ht]
    refine Finset.sum_eq_zero fun w _ => ?_
    rw [WithdrawalRequest.owed, hclosed w, Nat.zero_mul]
  have hcredited := hshares.credited_le d
  have hshare := hshares.share_le d
  rw [howed, Nat.add_zero] at hcredited hshare
  have hbias : (0 : ℚ) < unitBias := by
    exact_mod_cast (by decide : 0 < unitBias)
  refine ⟨hpurses d, ?_, ?_, fun hnone => ?_⟩
  · rw [fairShare_eq, le_div_iff₀ hbias, mul_comm]
    exact_mod_cast hcredited
  · rw [fairShare_eq, sub_le_iff_le_add, div_le_iff₀ hbias, mul_comm]
    exact_mod_cast hshare
  · rw [exactShare_eq_zero hnone] at hcredited
    have hpos : 0 < unitBias := by decide
    exact (Nat.mul_eq_zero.mp (Nat.le_zero.mp hcredited)).resolve_left hpos.ne'

/-- A settlement logs evaluations and nothing else. -/
theorem pulled_tally {measure : PoolEvent → ℕ} (h : ∀ d rewards, measure (.settled d rewards) = 0)
    (p : Pool) (cur : ℕ) (d : Address) : (p.pulled cur d).tally measure = p.tally measure := by
  have hcompound (q : Pool) (can : Bool) :
      (q.compoundedIf d can).tally measure = q.tally measure := by
    cases can with
    | false => rfl
    | true =>
      change measure (.settled d _) + q.tally measure = _
      rw [h, Nat.zero_add]
  have haccrue (q : Pool) : (q.accrued d).tally measure = q.tally measure := by
    unfold accrued
    split
    · rfl
    · change measure (.settled d _) + q.tally measure = _
      rw [h, Nat.zero_add]
  rw [pulled, haccrue, hcompound, hcompound]
  rfl

end Pool

/-- A delegator without open requests is paid fairly whenever its record is at rest, and a
settlement always goes through and puts it there. -/
def SettledFairly (s : Storage) (v : ValId) (d : Address) : Prop :=
  ((s.pool v).AtRest s.epoch d → (s.pool v).FairlyPaid d) ∧
    ∃ del s', pullDelegatorUpToDate s v d = .ok (del, s') ∧
      (s'.pool v).AtRest s'.epoch d ∧ (s'.pool v).FairlyPaid d

section Reachable

variable {s s' : Storage}

/-- In an orderly run with countable references, whoever is at rest without open requests is paid
fairly. -/
theorem reachable_fairlyPaid (h : Reachable stakingStep OrderlyCounted .empty s) {v : ValId}
    {d : Address} (hclosed : ∀ w, (s.withdrawals v d w).amount = 0)
    (hrest : (s.pool v).AtRest s.epoch d) : (s.pool v).FairlyPaid d := by
  obtain ⟨hshares, -⟩ := reachable_shares h v
  obtain ⟨hepoch, hsolvent⟩ := reachable_solvent h v
  exact hrest.fairlyPaid hsolvent.sound (hsolvent.ledger.tracked d) hshares
    (reachable_purses h (by omega) v) hclosed

/-- The accumulator scheme refines per-event reward sharing: in every orderly run with countable
references, a settled delegator without open requests was credited its exact share, up to less than
one unit for each evaluation. -/
theorem rewards_shared_fairly (h : Reachable stakingStep OrderlyCounted .empty s) (v : ValId)
    (d : Address) (hclosed : ∀ w, (s.withdrawals v d w).amount = 0) : SettledFairly s v d := by
  refine ⟨reachable_fairlyPaid h hclosed, ?_⟩
  have hvalue : (userMessage 9 0 payer_ne_staking).callValue = 0 := rfl
  obtain ⟨s', hstep, hguard, -⟩ := (Shadows.refl h v d).settle hvalue (by decide)
  obtain ⟨-, -, del, hpull⟩ := settleStep_eq_ok.mp hstep
  obtain ⟨hepoch, hsolvent⟩ := reachable_solvent h v
  have hrest := pullDelegatorUpToDate_leaves_atRest (by omega) (hsolvent.epochs d) hpull
  refine ⟨del, s', hpull, hrest, reachable_fairlyPaid (.call _ h hstep hguard) (fun w => ?_) hrest⟩
  have hrequests := congrFun ((s.pool v).pulled_upkeep s.epoch d).withdrawals_eq d
  rw [← pullDelegatorUpToDate_pool hpull] at hrequests
  exact (congrArg WithdrawalRequest.amount (congrFun hrequests w)).trans (hclosed w)

/-- The first delegator of the opened state, to whom the whole reward belongs, is settled fairly. -/
theorem rewards_shared_fairly_opened :
    0 < (openedState.pool 1).fairShare 7 ∧ SettledFairly openedState 1 7 := by
  refine ⟨?_, rewards_shared_fairly openedState_orderlyCounted 1 7 (by decide +kernel)⟩
  rw [Pool.fairShare_eq]
  have hshare : 0 < (openedState.pool 1).exactShare 7 := by decide +kernel
  have hbias : 0 < unitBias := by decide
  exact div_pos (by exact_mod_cast hshare) (by exact_mod_cast hbias)

end Reachable

section Overpaid

variable {s s₁ : Storage}

/-- What measures nothing of other accounts and of a member's delegation measures nothing of the
member. -/
theorem Gathered.tally_eq_zero {n : ℕ} (h : Gathered s₁ n s) (m : Fin (2 ^ 64))
    {measure : PoolEvent → ℕ} (habout : PoolEvent.About (crowd m) measure)
    (hjoins : measure (.delegated (crowd m) (crowdStake m) 2) = 0) :
    (s.pool 1).tally measure = 0 := by
  refine List.sum_eq_zero fun x hx => ?_
  obtain ⟨e, he, rfl⟩ := List.mem_map.mp hx
  by_cases haccount : e.account = some (crowd m)
  · rw [h.events_eq m e he haccount]
    exact hjoins
  · exact habout e haccount

/-- In a crowd that counts one reference where there are `2 ^ 64 + 1`, the second member that is
settled is credited rewards from before its delegation. -/
theorem crowd_overpaid : ¬∀ s v d, Reachable stakingStep Orderly .empty s →
    (∀ w, (s.withdrawals v d w).amount = 0) → SettledFairly s v d := by
  intro hall
  obtain ⟨s₀, s₁, s, hstart, h⟩ := exists_gathered (le_refl (2 ^ 64))
  have hvalue : (userMessage 9 0 payer_ne_staking).callValue = 0 := rfl
  have hother : (2 : Fin (2 ^ 64)) ≠ 0 := by decide
  obtain ⟨t, hfirst⟩ := h.settles (m := 1) (by decide)
  obtain ⟨t', hsecond⟩ := h.settles_cleared (by decide) hother (by decide) hfirst
  have hpool := pullDelegatorUpToDate_pool hfirst
  have hpool' := pullDelegatorUpToDate_pool hsecond
  have hreach : Reachable stakingStep Orderly .empty t :=
    .call _ (hstart.reachable_after h.after)
      (settleStep_eq_ok.mpr ⟨hvalue, by decide, _, hfirst⟩)
      (orderly_settleStep (by rw [h.epoch_eq]; decide) h.received_lt hfirst)
  have hclosed (w : WithdrawId) : (t.withdrawals 1 (crowd 2) w).amount = 0 := by
    have hrequests := congrFun ((s.pool 1).pulled_upkeep s.epoch (crowd 1)).withdrawals_eq (crowd 2)
    rw [← hpool] at hrequests
    exact congrArg WithdrawalRequest.amount ((congrFun hrequests w).trans (h.requests_eq 2 w))
  obtain ⟨-, del, u, hpull, -, hfair⟩ := hall t 1 (crowd 2) hreach hclosed
  obtain ⟨rfl, rfl⟩ := Prod.mk.inj (Except.ok.inj (hsecond.symm.trans hpull))
  have hquiet {measure : PoolEvent → ℕ} (hsettled : ∀ d rewards, measure (.settled d rewards) = 0)
      (habout : PoolEvent.About (crowd 2) measure)
      (hjoins : measure (.delegated (crowd 2) (crowdStake 2) 2) = 0) :
      (t'.pool 1).tally measure = 0 := by
    rw [hpool', Pool.pulled_tally hsettled, hpool, Pool.pulled_tally hsettled]
    exact h.tally_eq_zero 2 habout hjoins
  -- all rewards were paid in epoch 1, before the delegation earns
  have hlog : (t'.pool 1).log = [(1, unitBias), (1, unitBias)] := by
    rw [hpool', Pool.pulled_log, hpool, Pool.pulled_log, h.log_eq]
  have hshare : (t'.pool 1).exactShare (crowd 2) = 0 := by
    refine Pool.exactShare_eq_zero fun e he => ?_
    have hepoch : e.1 = 1 := by
      rw [hlog] at he
      rcases List.mem_cons.mp he with rfl | he
      · rfl
      · rw [List.mem_singleton.mp he]
    have hlater : PoolEvent.joins (crowd 2) 1 (.delegated (crowd 2) (crowdStake 2) 2) = 0 := by
      simp [PoolEvent.joins]
    rw [hepoch, Pool.weight, hquiet (fun _ _ => rfl) (PoolEvent.joins_about (crowd 2) 1) hlater,
      Nat.zero_sub]
  have hheld := hfair.held_eq
  rw [hquiet (fun _ _ => rfl) (PoolEvent.commissions_about (crowd 2)) rfl, Nat.add_zero] at hheld
  have hself : ((t'.pool 1).delegators (crowd 2)).rewards = 2 * dustThreshold :=
    congrArg Delegator.rewards (pullDelegatorUpToDate_touches hsecond).2.2
  have hcredited := hfair.credited_le
  rw [Pool.fairShare_eq, hshare, Nat.cast_zero, zero_div] at hcredited
  have hnone : (t'.pool 1).credited (crowd 2) ≤ 0 := by exact_mod_cast hcredited
  have hdust : 0 < 2 * dustThreshold := by decide
  omega

end Overpaid

end SuwappuRevm.Staking
