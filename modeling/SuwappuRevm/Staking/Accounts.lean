import SuwappuRevm.Foundations.RewardIndex
import SuwappuRevm.Staking.AccumulatorEntries
import SuwappuRevm.Staking.Ledger

/-!
# Delegator accounts

The rewards of a validator form a reward index over epochs. The account of a delegator is its
record and its withdrawal requests; it is owed the growth of the index over what it holds, it
earns in an epoch with what is active then, and it references accumulator entries. A step of the
pool that is no reward settles an exact amount of one account and leaves the others alone.
-/

namespace SuwappuRevm.Staking

open Foundations Finset

/-- The index increment of a reward, at its epoch. -/
def PoolEvent.increment : PoolEvent → Option (ℕ × ℕ)
  | .rewarded epoch reward activeStake => some (epoch, reward * unitBias / activeStake)
  | _ => none

/-- The account of an event that is no reward. -/
def PoolEvent.account : PoolEvent → Option Address
  | .delegated d _ _ => some d
  | .undelegated d _ _ => some d
  | .rewarded _ _ _ => none
  | .commission d _ => some d
  | .settled d _ => some d
  | .withdrawn d _ _ => some d
  | .claimed d _ => some d

/-- The rewards that an event credits to a delegator by evaluation of the index. -/
def PoolEvent.credits (d : Address) : PoolEvent → ℕ
  | .settled d' rewards => if d' = d then rewards else 0
  | .withdrawn d' _ rewards => if d' = d then rewards else 0
  | _ => 0

/-- The evaluations of the index for a delegator. -/
def PoolEvent.evaluates (d : Address) : PoolEvent → ℕ
  | .settled d' _ => if d' = d then 1 else 0
  | .withdrawn d' _ _ => if d' = d then 1 else 0
  | _ => 0

/-- The stake that an event makes a delegator earn with from an epoch up to `epoch`. -/
def PoolEvent.joins (d : Address) (epoch : ℕ) : PoolEvent → ℕ
  | .delegated d' amount activationEpoch =>
    if d' = d ∧ activationEpoch ≤ epoch then amount else 0
  | _ => 0

/-- The stake that an event makes a delegator stop earning with up to `epoch`. -/
def PoolEvent.leaves (d : Address) (epoch : ℕ) : PoolEvent → ℕ
  | .undelegated d' amount activationEpoch =>
    if d' = d ∧ activationEpoch ≤ epoch then amount else 0
  | _ => 0

/-- One reference to an entry, of an epoch that is set. -/
def refersTo (epoch k : ℕ) : ℕ := if epoch = k ∧ k ≠ 0 then 1 else 0

/-- An unset epoch refers to nothing. -/
@[simp] theorem refersTo_zero (k : ℕ) : refersTo 0 k = 0 := by
  unfold refersTo
  split <;> omega

namespace Delegator

variable (r : Delegator)

/-- What the index owes to a record: active stake since its last value, pending stake since the
beginning of its epoch. -/
def owed (index : ℕ → ℕ) (acc : ℕ) : ℕ :=
  r.stake * (acc - r.accumulatedRewardPerToken) + r.deltaStake * (acc - index r.deltaEpoch) +
    r.nextDeltaStake * (acc - index r.nextDeltaEpoch)

/-- What a record earns with in an epoch. -/
def earning (epoch : ℕ) : ℕ :=
  r.stake + (if r.deltaEpoch ≤ epoch then r.deltaStake else 0) +
    (if r.nextDeltaEpoch ≤ epoch then r.nextDeltaStake else 0)

/-- The references of a record to an entry. -/
def references (k : ℕ) : ℕ := refersTo r.deltaEpoch k + refersTo r.nextDeltaEpoch k

/-- The last index value of a record is not above the values it will be settled with. -/
structure Ordered (index : ℕ → ℕ) (acc : ℕ) (r : Delegator) : Prop where
  last_le : r.accumulatedRewardPerToken ≤ acc
  delta_le : r.deltaEpoch ≠ 0 → r.accumulatedRewardPerToken ≤ index r.deltaEpoch
  next_le : r.nextDeltaEpoch ≠ 0 → r.accumulatedRewardPerToken ≤ index r.nextDeltaEpoch

end Delegator

namespace WithdrawalRequest

variable (q : WithdrawalRequest)

/-- What the index owes to a request: its amount until its epoch begins. -/
def owed (index : ℕ → ℕ) : ℕ := q.amount * (index q.epoch - q.accumulator)

/-- A request earns before its epoch. -/
def earning (epoch : ℕ) : ℕ := if epoch < q.epoch then q.amount else 0

/-- The references of an open request to an entry. -/
def references (k : ℕ) : ℕ := if q.amount = 0 then 0 else refersTo q.epoch k

end WithdrawalRequest

namespace Pool

variable {cur : ℕ} {b : Bool} {p p' : Pool} {i o : ℕ}

section Definitions

variable (p : Pool)

/-- The reward index of a pool. -/
def log : IndexLog := p.history.filterMap PoolEvent.increment

/-- The index when an epoch begins. -/
def indexAt (epoch : ℕ) : ℕ := indexBefore p.log epoch

/-- The sum of a measure over the history. -/
def tally (measure : PoolEvent → ℕ) : ℕ := (p.history.map measure).sum

/-- What the index owes to an account. -/
def owedTo (d : Address) : ℕ :=
  (p.delegators d).owed p.indexAt p.acc + ∑ w, (p.withdrawals d w).owed p.indexAt

/-- What an account earns with in an epoch. -/
def earningOf (d : Address) (epoch : ℕ) : ℕ :=
  (p.delegators d).earning epoch + ∑ w, (p.withdrawals d w).earning epoch

/-- The references of an account to an entry. -/
def referencesOf (d : Address) (k : ℕ) : ℕ :=
  (p.delegators d).references k + ∑ w, (p.withdrawals d w).references k

/-- All references to an entry. -/
def references (k : ℕ) : ℕ := ∑ d, p.referencesOf d k

/-- An event that is no reward leaves the index alone. -/
theorem log_record {event : PoolEvent} (h : event.increment = none) :
    (p.record event).log = p.log :=
  List.filterMap_cons_none h

/-- An event adds its measure. -/
@[simp] theorem tally_record (measure : PoolEvent → ℕ) (event : PoolEvent) :
    (p.record event).tally measure = measure event + p.tally measure := by
  simp [tally, record]

end Definitions

/-- The state of a pool in an orderly run with countable references: the accumulator is the index,
the entries hold the index at their epochs and count their references, nothing was paid beyond the
index, the view is what earns, and the unclaimed rewards cover what is owed. -/
structure Sound (cur : ℕ) (b : Bool) (p : Pool) : Prop where
  times : ∀ e ∈ p.log, e.1 ≤ cur
  acc_eq : p.acc = indexTotal p.log
  refcount_eq : ∀ k, (p.accumulators k).refcount = p.references k
  value_eq : ∀ k, k ≤ cur → (p.accumulators k).refcount ≠ 0 →
    (p.accumulators k).value = p.indexAt k
  ordered : ∀ d, (p.delegators d).Ordered p.indexAt p.acc
  request : ∀ d w, (p.withdrawals d w).amount ≠ 0 → (p.withdrawals d w).epoch ≠ 0 ∧
    ((p.withdrawals d w).epoch ≤ cur + 1 ∨ b = true ∧ (p.withdrawals d w).epoch = cur + 2) ∧
    (p.withdrawals d w).accumulator ≤ p.indexAt (p.withdrawals d w).epoch
  view : p.view b ≠ 0 → ∑ d, p.earningOf d cur = p.view b
  nextView : b = true → p.consensusStake ≠ 0 → ∑ d, p.earningOf d (cur + 1) = p.consensusStake
  solvent : ∑ d, p.owedTo d ≤ unitBias * p.unclaimed

namespace Sound

variable (hp : p.Sound cur b)

include hp

/-- The index is the accumulator from the next epoch on. -/
theorem indexAt_later {k : ℕ} (hk : cur < k) : p.indexAt k = p.acc := by
  rw [hp.acc_eq]
  exact indexBefore_eq_total fun e he => (hp.times e he).trans_lt hk

/-- The index is never above the accumulator. -/
theorem indexAt_le (k : ℕ) : p.indexAt k ≤ p.acc := by
  rw [hp.acc_eq]
  exact indexBefore_le p.log k

/-- A referenced entry is live. -/
theorem refcount_pos {d : Address} {k : ℕ} (h : 0 < p.referencesOf d k) :
    0 < (p.accumulators k).refcount := by
  rw [hp.refcount_eq]
  exact h.trans_le (cell_le_sum (fun d => p.referencesOf d k) d)

/-- A referenced entry of an epoch that has begun is settled with the index. -/
theorem entryValue_eq {d : Address} {k : ℕ} (h : 0 < p.referencesOf d k) (hk : k ≤ cur) :
    p.entryValue k = p.indexAt k := by
  have hlive := (hp.refcount_pos h).ne'
  rw [entryValue, if_neg hlive]
  exact hp.value_eq k hk hlive

end Sound

end Pool

end SuwappuRevm.Staking
