import SuwappuRevm.Staking.Pool

/-!
# The steps of a pool

Every call is a sequence of small steps on one pool. Quiet steps only drop accumulator
references: promoting the next track, compounding a track, accruing, taking credited rewards,
paying a withdrawal and crediting a reward. Entering steps take one reference: delegating and
undelegating. A step carries the value that comes into the liabilities of the pool and the value
that leaves them.
-/

namespace SuwappuRevm.Staking

open Foundations

namespace Delegator

/-- Move the next track to the first. -/
def shiftNext (r : Delegator) : Delegator :=
  { r with
    deltaStake := r.nextDeltaStake
    nextDeltaStake := 0
    deltaEpoch := r.nextDeltaEpoch
    nextDeltaEpoch := 0 }

/-- Fold the first track into the stake, with the rewards up to the accumulator value `acc`. -/
def compounded (r : Delegator) (acc rewards : ℕ) : Delegator :=
  { r.shiftNext with
    accumulatedRewardPerToken := acc
    stake := r.stake + r.deltaStake
    rewards := r.rewards + rewards }

/-- Credit the rewards of the active stake up to the accumulator value `acc`. -/
def accrued (r : Delegator) (acc rewards : ℕ) : Delegator :=
  { r with accumulatedRewardPerToken := acc, rewards := r.rewards + rewards }

/-- Add an amount to the track that the boundary flag selects. -/
def addTo (r : Delegator) (inBoundary : Bool) (activationEpoch amount : ℕ) : Delegator :=
  if inBoundary then
    { r with nextDeltaStake := r.nextDeltaStake + amount, nextDeltaEpoch := activationEpoch }
  else { r with deltaStake := r.deltaStake + amount, deltaEpoch := activationEpoch }

/-- The epoch of the track that the boundary flag selects. -/
def trackEpoch (r : Delegator) (inBoundary : Bool) : ℕ :=
  if inBoundary then r.nextDeltaEpoch else r.deltaEpoch

/-- Take an amount out of the stake; an emptied stake forgets its accumulator. -/
def removed (r : Delegator) (amount : ℕ) : Delegator :=
  { r with
    stake := r.stake - amount
    accumulatedRewardPerToken :=
      if r.stake - amount = 0 then 0 else r.accumulatedRewardPerToken }

/-- Nothing is pending for an epoch that has begun, and the next track is not due for
promotion. -/
structure Settled (currentEpoch : ℕ) (r : Delegator) : Prop where
  delta : r.deltaEpoch = 0 ∨ currentEpoch < r.deltaEpoch
  next : r.nextDeltaEpoch = 0 ∨ currentEpoch + 1 < r.nextDeltaEpoch

end Delegator

/-- The activation epoch of a delegation or withdrawal request. -/
def activationEpoch (currentEpoch : ℕ) (inBoundary : Bool) : ℕ :=
  if inBoundary then u64Add currentEpoch 2 else u64Add currentEpoch 1

/-- The exact quotient of `calculate_rewards`. -/
def rewardShare (stake epochAcc lastAcc : ℕ) : ℕ := (epochAcc - lastAcc) * stake / unitBias

namespace Pool

/-- Write a settled record and take its rewards out of the unclaimed ones. -/
def settleTo (p : Pool) (d : Address) (r : Delegator) (rewards : ℕ) : Pool :=
  ({ p with unclaimed := p.unclaimed - rewards }.setDelegator d r).record (.settled d rewards)

/-- Take a reference to an entry when needed. -/
def retainIf (p : Pool) (need : Prop) [Decidable need] (epoch : ℕ) : Pool :=
  { p with accumulators := if need then (p.retain epoch).accumulators else p.accumulators }

section Outcomes

variable (p : Pool)

/-- The pool after a promotion. -/
def promote (d : Address) : Pool := p.setDelegator d (p.delegators d).shiftNext

/-- The pool after the first track of a record is compounded. -/
def compound (d : Address) (rewards : ℕ) : Pool :=
  let epoch := (p.delegators d).deltaEpoch
  (p.release epoch).settleTo d ((p.delegators d).compounded (p.entryValue epoch) rewards) rewards

/-- The pool after the active stake of a record is accrued. -/
def accrue (d : Address) (rewards : ℕ) : Pool :=
  p.settleTo d ((p.delegators d).accrued p.acc rewards) rewards

/-- The pool after the credited rewards of a record are taken. -/
def take (d : Address) : Pool :=
  (p.setDelegator d { p.delegators d with rewards := 0 }).record
    (.claimed d (p.delegators d).rewards)

/-- The pool after a withdrawal request is paid. -/
def pay (d : Address) (w : WithdrawId) (rewards : ℕ) : Pool :=
  ({ p.release (p.withdrawals d w).epoch with
    unclaimed := p.unclaimed - rewards }.setRequest d w .zero).record
      (.withdrawn d (p.withdrawals d w).amount rewards)

/-- The pool after a commission is credited. -/
def credit (d : Address) (amount : ℕ) : Pool :=
  let rewards := (p.delegators d).rewards + amount
  (p.setDelegator d { p.delegators d with rewards }).record (.commission d amount)

/-- The pool after a reward is shared among the view's stake. -/
def reward (currentEpoch : ℕ) (inBoundary : Bool) (amount : ℕ) : Pool :=
  { p with
    acc := p.acc + amount * unitBias / p.view inBoundary
    unclaimed := p.unclaimed + amount }.record
      (.rewarded currentEpoch amount (p.view inBoundary))

/-- The pool after a delegation of an amount at an epoch. -/
def join (inBoundary : Bool) (epoch : ℕ) (d : Address) (amount : ℕ) : Pool :=
  let r := (p.delegators d).addTo inBoundary epoch amount
  ({ p.retainIf ((p.delegators d).trackEpoch inBoundary = 0) epoch with
    stake := p.stake + amount
    delegators := Function.update p.delegators d r }).record (.delegated d amount epoch)

/-- The pool after an undelegation of an amount at an epoch. -/
def leave (epoch : ℕ) (d : Address) (w : WithdrawId) (amount : ℕ) : Pool :=
  let request := ⟨amount, (p.delegators d).accumulatedRewardPerToken, epoch⟩
  ((({ p.retain epoch with stake := p.stake - amount }).setRequest d w request).setDelegator d
    ((p.delegators d).removed amount)).record (.undelegated d amount epoch)

end Outcomes

/-- Steps that take no accumulator reference, with the value they bring in and pay out. -/
inductive Quiet (currentEpoch : ℕ) (inBoundary : Bool) (p : Pool) : ℕ → ℕ → Pool → Prop
  | promote (d : Address) (hdelta : (p.delegators d).deltaEpoch = 0)
      (hnext : (p.delegators d).nextDeltaEpoch ≠ 0)
      (hle : (p.delegators d).nextDeltaEpoch ≤ currentEpoch + 1) :
      Quiet currentEpoch inBoundary p 0 0 (p.promote d)
  | compound (d : Address) (rewards : ℕ) (hdelta : (p.delegators d).deltaEpoch ≠ 0)
      (hle : (p.delegators d).deltaEpoch ≤ currentEpoch)
      (hacc : (p.delegators d).accumulatedRewardPerToken ≤
        p.entryValue (p.delegators d).deltaEpoch)
      (hrewards : rewards = rewardShare (p.delegators d).stake
        (p.entryValue (p.delegators d).deltaEpoch) (p.delegators d).accumulatedRewardPerToken)
      (hsolvent : rewards ≤ p.unclaimed) :
      Quiet currentEpoch inBoundary p 0 0 (p.compound d rewards)
  | accrue (d : Address) (rewards : ℕ) (hsettled : (p.delegators d).Settled currentEpoch)
      (hstake : (p.delegators d).stake ≠ 0)
      (hacc : (p.delegators d).accumulatedRewardPerToken ≤ p.acc)
      (hrewards : rewards = rewardShare (p.delegators d).stake p.acc
        (p.delegators d).accumulatedRewardPerToken)
      (hsolvent : rewards ≤ p.unclaimed) :
      Quiet currentEpoch inBoundary p 0 0 (p.accrue d rewards)
  | take (d : Address) (hrewards : (p.delegators d).rewards ≠ 0) :
      Quiet currentEpoch inBoundary p 0 (p.delegators d).rewards (p.take d)
  | pay (d : Address) (w : WithdrawId) (rewards : ℕ) (hamount : (p.withdrawals d w).amount ≠ 0)
      (hepoch : (p.withdrawals d w).epoch ≠ 0) (hready : (p.withdrawals d w).epoch < currentEpoch)
      (hacc : (p.withdrawals d w).accumulator ≤ p.entryValue (p.withdrawals d w).epoch)
      (hrewards : rewards = rewardShare (p.withdrawals d w).amount
        (p.entryValue (p.withdrawals d w).epoch) (p.withdrawals d w).accumulator)
      (hsolvent : rewards ≤ p.unclaimed) :
      Quiet currentEpoch inBoundary p 0 ((p.withdrawals d w).amount + rewards) (p.pay d w rewards)
  | commission (d : Address) (amount : ℕ) (hview : p.view inBoundary ≠ 0) :
      Quiet currentEpoch inBoundary p amount 0 (p.credit d amount)
  | reward (amount : ℕ) (hview : p.view inBoundary ≠ 0) :
      Quiet currentEpoch inBoundary p amount 0 (p.reward currentEpoch inBoundary amount)

/-- Steps that take an accumulator reference, with the value they bring in. -/
inductive Enter (currentEpoch : ℕ) (inBoundary : Bool) (p : Pool) : ℕ → Pool → Prop
  | join (d : Address) (amount : ℕ) (hamount : amount ≠ 0)
      (hsettled : (p.delegators d).Settled currentEpoch) :
      Enter currentEpoch inBoundary p amount
        (p.join inBoundary (activationEpoch currentEpoch inBoundary) d amount)
  | leave (d : Address) (w : WithdrawId) (amount : ℕ) (hamount : amount ≠ 0)
      (hle : amount ≤ (p.delegators d).stake) (hpool : amount ≤ p.stake)
      (hfree : (p.withdrawals d w).amount = 0) :
      Enter currentEpoch inBoundary p 0
        (p.leave (activationEpoch currentEpoch inBoundary) d w amount)

/-- A sequence of quiet steps. -/
inductive QuietRun (currentEpoch : ℕ) (inBoundary : Bool) (p : Pool) : ℕ → ℕ → Pool → Prop
  | refl : QuietRun currentEpoch inBoundary p 0 0 p
  | step {i o i' o' : ℕ} {p' p'' : Pool} (hrun : QuietRun currentEpoch inBoundary p i o p')
      (hstep : Quiet currentEpoch inBoundary p' i' o' p'') :
      QuietRun currentEpoch inBoundary p (i + i') (o + o') p''

/-- What a call does to its pool: quiet steps, then at most one entering step. -/
inductive Run (currentEpoch : ℕ) (inBoundary : Bool) (p : Pool) : ℕ → ℕ → Pool → Prop
  | quiet {i o : ℕ} {p' : Pool} (hrun : QuietRun currentEpoch inBoundary p i o p') :
      Run currentEpoch inBoundary p i o p'
  | enter {i o i' : ℕ} {p' p'' : Pool} (hrun : QuietRun currentEpoch inBoundary p i o p')
      (hstep : Enter currentEpoch inBoundary p' i' p'') :
      Run currentEpoch inBoundary p (i + i') o p''

variable {currentEpoch : ℕ} {inBoundary : Bool} {p p' p'' : Pool} {i o i' o' : ℕ}

/-- One quiet step is a run. -/
theorem QuietRun.single (h : Quiet currentEpoch inBoundary p i o p') :
    QuietRun currentEpoch inBoundary p i o p' := by
  have hrun := QuietRun.step QuietRun.refl h
  rwa [Nat.zero_add, Nat.zero_add] at hrun

/-- Quiet runs compose. -/
theorem QuietRun.trans (h : QuietRun currentEpoch inBoundary p i o p')
    (h' : QuietRun currentEpoch inBoundary p' i' o' p'') :
    QuietRun currentEpoch inBoundary p (i + i') (o + o') p'' := by
  induction h' with
  | refl => exact h
  | step _ hstep ih =>
    rw [← Nat.add_assoc, ← Nat.add_assoc]
    exact ih.step hstep

/-- A quiet run before a run. -/
theorem QuietRun.append (h : QuietRun currentEpoch inBoundary p i o p')
    (h' : Run currentEpoch inBoundary p' i' o' p'') :
    Run currentEpoch inBoundary p (i + i') (o + o') p'' := by
  cases h' with
  | quiet hrun => exact .quiet (h.trans hrun)
  | enter hrun hstep =>
    rw [← Nat.add_assoc]
    exact .enter (h.trans hrun) hstep

/-- Run rule: what every quiet step preserves, a quiet run preserves. -/
theorem QuietRun.preserves (motive : Pool → Prop)
    (hstep : ∀ p i o p', motive p → Quiet currentEpoch inBoundary p i o p' → motive p')
    (h : QuietRun currentEpoch inBoundary p i o p') (hp : motive p) : motive p' := by
  induction h with
  | refl => exact hp
  | step _ hs ih => exact hstep _ _ _ _ ih hs

end Pool

end SuwappuRevm.Staking
