import SuwappuRevm.Staking.Accounts
import SuwappuRevm.Staking.PoolCalls

/-!
# Settlement of a record

In a sound pool a settlement is a function of the record, the epoch and the index of the validator.
It can be cut in two: settling once more on the way folds in the same tracks at the same index
values and loses at most one unit of rewards, since only the first interval that is still open is
rounded twice.
-/

namespace SuwappuRevm.Staking

open Foundations

section Rounding

variable {stake first middle last : ℕ}

/-- Rounding an interval in two parts loses at most one unit. -/
theorem rewardShare_split (stake : ℕ) (hfirst : first ≤ middle) (hlast : middle ≤ last) :
    rewardShare stake middle first + rewardShare stake last middle ≤ rewardShare stake last first ∧
      rewardShare stake last first ≤
        rewardShare stake middle first + rewardShare stake last middle + 1 := by
  have hbias : 0 < unitBias := by decide
  have hsum : (last - first) * stake = (middle - first) * stake + (last - middle) * stake := by
    rw [← Nat.add_mul]
    congr 1
    omega
  unfold rewardShare
  rw [hsum, Nat.add_div hbias]
  split <;> omega

end Rounding

namespace Delegator

variable {log log' : IndexLog} {cur cur' : ℕ} {b : Bool} {r r' r'' : Delegator}

/-- Fold the first track into the stake, with the rewards up to the index at its epoch. -/
def compoundedBy (log : IndexLog) (r : Delegator) : Delegator :=
  r.compounded (indexBefore log r.deltaEpoch)
    (rewardShare r.stake (indexBefore log r.deltaEpoch) r.accumulatedRewardPerToken)

/-- Fold the first track in when its epoch has begun. -/
def foldDue (log : IndexLog) (cur : ℕ) (r : Delegator) : Delegator :=
  if isEpochActive cur r.deltaEpoch then r.compoundedBy log else r

/-- Credit the active stake up to the index. -/
def accruedBy (log : IndexLog) (r : Delegator) : Delegator :=
  if r.stake = 0 then r
  else r.accrued (indexTotal log) (rewardShare r.stake (indexTotal log) r.accumulatedRewardPerToken)

/-- A due track is folded in. -/
theorem foldDue_of_due (h : isEpochActive cur r.deltaEpoch = true) :
    r.foldDue log cur = r.compoundedBy log := if_pos h

/-- A track that is not due stays. -/
theorem foldDue_of_not (h : ¬isEpochActive cur r.deltaEpoch = true) : r.foldDue log cur = r :=
  if_neg h

/-- Without active stake nothing accrues. -/
theorem accruedBy_of_unstaked (h : r.stake = 0) : r.accruedBy log = r := if_pos h

/-- Active stake accrues up to the index. -/
theorem accruedBy_of_staked (h : r.stake ≠ 0) : r.accruedBy log =
    r.accrued (indexTotal log)
      (rewardShare r.stake (indexTotal log) r.accumulatedRewardPerToken) := if_neg h

/-- The record after a settlement. -/
def settle (log : IndexLog) (cur : ℕ) (r : Delegator) : Delegator :=
  (((promoteNext cur r).foldDue log cur).foldDue log cur).accruedBy log

/-- A record with other rewards. -/
def withRewards (r : Delegator) (rewards : ℕ) : Delegator := { r with rewards }

/-- The second record is the first with at most `k` fewer rewards. -/
structure Near (k : ℕ) (r r' : Delegator) : Prop where
  same : r' = r.withRewards r'.rewards
  le : r'.rewards ≤ r.rewards
  le_add : r.rewards ≤ r'.rewards + k

/-- A record is near itself. -/
theorem Near.refl (k : ℕ) (r : Delegator) : Near k r r :=
  ⟨rfl, le_rfl, Nat.le_add_right ..⟩

/-- What two steps lose adds up. -/
theorem Near.trans {k k' : ℕ} (h : Near k r r') (h' : Near k' r' r'') : Near (k + k') r r'' := by
  refine ⟨?_, h'.le.trans h.le, ?_⟩
  · rw [h'.same, h.same]
    rfl
  · have hfirst := h.le_add
    have hsecond := h'.le_add
    omega

/-- More may be lost. -/
theorem Near.mono {k k' : ℕ} (h : Near k r r') (hle : k ≤ k') : Near k' r r' :=
  ⟨h.same, h.le, h.le_add.trans (Nat.add_le_add_left hle _)⟩

section Crediting

/-- A step on records that adds to the rewards what does not depend on them. -/
def Crediting (f : Delegator → Delegator) : Prop :=
  ∀ r, ∃ c, ∀ x, f (r.withRewards x) = (f r).withRewards (x + c)

/-- Crediting steps keep records near. -/
theorem Crediting.near {f : Delegator → Delegator} (hf : Crediting f) {k : ℕ} (h : Near k r r') :
    Near k (f r) (f r') := by
  obtain ⟨c, hc⟩ := hf r
  have hfirst : f r = (f r).withRewards (r.rewards + c) := hc r.rewards
  have hsecond : f r' = (f r).withRewards (r'.rewards + c) := by
    rw [h.same]
    exact hc r'.rewards
  have hrewards : (f r).rewards = r.rewards + c := congrArg Delegator.rewards hfirst
  have hrewards' : (f r').rewards = r'.rewards + c := congrArg Delegator.rewards hsecond
  refine ⟨?_, ?_, ?_⟩
  · rw [hrewards']
    exact hsecond
  · have hle := h.le
    omega
  · have hle := h.le_add
    omega

/-- Two crediting steps. -/
theorem Crediting.comp {f g : Delegator → Delegator} (hg : Crediting g) (hf : Crediting f) :
    Crediting fun r => g (f r) := by
  intro r
  obtain ⟨c, hc⟩ := hf r
  obtain ⟨c', hc'⟩ := hg (f r)
  refine ⟨c + c', fun x => ?_⟩
  rw [← Nat.add_assoc]
  exact (congrArg g (hc x)).trans (hc' (x + c))

/-- A promotion does not look at the rewards. -/
theorem crediting_promoteNext (cur : ℕ) : Crediting (promoteNext cur) := by
  refine fun r => ⟨0, fun x => ?_⟩
  unfold promoteNext withRewards
  split <;> rfl

/-- Folding a track in credits rewards. -/
theorem crediting_foldDue (log : IndexLog) (cur : ℕ) : Crediting (foldDue log cur) := by
  intro r
  by_cases hdue : isEpochActive cur r.deltaEpoch = true
  · refine ⟨rewardShare r.stake (indexBefore log r.deltaEpoch) r.accumulatedRewardPerToken,
      fun x => ?_⟩
    have hx : isEpochActive cur (r.withRewards x).deltaEpoch = true := hdue
    rw [foldDue_of_due hdue, foldDue_of_due hx]
    rfl
  · refine ⟨0, fun x => ?_⟩
    have hx : ¬isEpochActive cur (r.withRewards x).deltaEpoch = true := hdue
    rw [foldDue_of_not hdue, foldDue_of_not hx]
    rfl

/-- Accruing credits rewards. -/
theorem crediting_accruedBy (log : IndexLog) : Crediting (accruedBy log) := by
  intro r
  by_cases hstake : r.stake = 0
  · refine ⟨0, fun x => ?_⟩
    have hx : (r.withRewards x).stake = 0 := hstake
    rw [accruedBy_of_unstaked hstake, accruedBy_of_unstaked hx]
    rfl
  · refine ⟨rewardShare r.stake (indexTotal log) r.accumulatedRewardPerToken, fun x => ?_⟩
    have hx : (r.withRewards x).stake ≠ 0 := hstake
    rw [accruedBy_of_staked hstake, accruedBy_of_staked hx]
    rfl

/-- A settlement credits rewards. -/
theorem crediting_settle (log : IndexLog) (cur : ℕ) : Crediting (settle log cur) :=
  (crediting_accruedBy log).comp ((crediting_foldDue log cur).comp
    ((crediting_foldDue log cur).comp (crediting_promoteNext cur)))

end Crediting

section Cut

/-- The first track is empty only if the next one is, or waits for two epochs ahead. -/
def Forward (cur : ℕ) (r : Delegator) : Prop :=
  r.deltaEpoch = 0 → r.nextDeltaEpoch = 0 ∨ r.nextDeltaEpoch = cur + 2

/-- A record without a next track is not promoted. -/
theorem promoteNext_of_next (h : r.nextDeltaEpoch = 0) : promoteNext cur r = r :=
  if_neg fun hdue => hdue.2.2 h

/-- A record with a first track is not promoted. -/
theorem promoteNext_of_delta (h : r.deltaEpoch ≠ 0) : promoteNext cur r = r :=
  if_neg fun hdue => h hdue.1

/-- A later promotion makes an earlier one superfluous. -/
theorem promoteNext_promoteNext (hcur : cur' + 1 < 2 ^ 64) (hle : cur ≤ cur') :
    promoteNext cur' (promoteNext cur r) = promoteNext cur' r := by
  by_cases hdue : r.deltaEpoch = 0 ∧ r.nextDeltaEpoch ≤ u64Add cur 1 ∧ r.nextDeltaEpoch ≠ 0
  · have hshift : promoteNext cur r = r.shiftNext := if_pos hdue
    have hlater : r.nextDeltaEpoch ≤ u64Add cur' 1 := by
      have hnow := hdue.2.1
      rw [u64Add_one (by omega)] at hnow ⊢
      omega
    have hshift' : promoteNext cur' r = r.shiftNext := if_pos ⟨hdue.1, hlater, hdue.2.2⟩
    rw [hshift, hshift']
    exact promoteNext_of_next rfl
  · have hkept : promoteNext cur r = r := if_neg hdue
    rw [hkept]

/-- Accruing commutes with a promotion. -/
theorem promoteNext_accruedBy : promoteNext cur (r.accruedBy log) =
    (promoteNext cur r).accruedBy log := by
  by_cases hstake : r.stake = 0
  · have hpromoted : (promoteNext cur r).stake = 0 := by
      unfold promoteNext
      split <;> exact hstake
    rw [accruedBy_of_unstaked hstake, accruedBy_of_unstaked hpromoted]
  · have hpromoted : (promoteNext cur r).stake ≠ 0 := by
      unfold promoteNext
      split <;> exact hstake
    rw [accruedBy_of_staked hstake, accruedBy_of_staked hpromoted]
    unfold promoteNext accrued
    split <;> rfl

/-- Folding in leaves a forward record forward. -/
theorem Forward.foldDue (h : r.Forward cur) : (r.foldDue log cur).Forward cur := by
  by_cases hdue : isEpochActive cur r.deltaEpoch = true
  · rw [foldDue_of_due hdue]
    exact fun _ => .inl rfl
  · rwa [foldDue_of_not hdue]

/-- Folding in commutes with a later promotion. -/
theorem Forward.promoteNext_foldDue (h : r.Forward cur) :
    promoteNext cur' (r.foldDue log cur) = (promoteNext cur' r).foldDue log cur := by
  by_cases hdue : isEpochActive cur r.deltaEpoch = true
  · have hkept : promoteNext cur' r = r :=
      promoteNext_of_delta (isEpochActive_iff.mp hdue).1
    rw [hkept, foldDue_of_due hdue]
    exact promoteNext_of_next rfl
  · rw [foldDue_of_not hdue]
    refine (foldDue_of_not fun hactive => ?_).symm
    -- a promoted track is two epochs ahead
    unfold promoteNext at hactive
    split at hactive
    next hpromote =>
      obtain ⟨hne, hle⟩ := isEpochActive_iff.mp hactive
      dsimp only at hne hle
      rcases h hpromote.1 with hnext | hnext <;> omega
    next => exact hdue hactive

/-- What is due is folded in at the same index value later. -/
theorem foldDue_later (hlog : GoesOn cur log log') (hle : cur ≤ cur')
    (hdue : isEpochActive cur r.deltaEpoch = true) : r.foldDue log' cur' = r.foldDue log cur := by
  obtain ⟨hne, hdelta⟩ := isEpochActive_iff.mp hdue
  rw [foldDue_of_due hdue, foldDue_of_due (isEpochActive_iff.mpr ⟨hne, hdelta.trans hle⟩)]
  unfold compoundedBy
  rw [hlog.indexBefore_eq hdelta]

/-- One folding is all for a record with one track. -/
theorem foldDue_foldDue_single (h : r.nextDeltaEpoch = 0) :
    (r.foldDue log cur).foldDue log cur = r.foldDue log cur := by
  by_cases hdue : isEpochActive cur r.deltaEpoch = true
  · refine foldDue_of_not fun hagain => ?_
    rw [foldDue_of_due hdue] at hagain
    exact (isEpochActive_iff.mp hagain).1 h
  · rw [foldDue_of_not hdue, foldDue_of_not hdue]

/-- Folding in what is due now makes no difference to folding in what is due later. -/
theorem foldDue_cut (hlog : GoesOn cur log log') (hle : cur ≤ cur') :
    (((r.foldDue log cur).foldDue log cur).foldDue log' cur').foldDue log' cur' =
      (r.foldDue log' cur').foldDue log' cur' := by
  by_cases hdue : isEpochActive cur r.deltaEpoch = true
  · rw [foldDue_later hlog hle hdue]
    have hone : (r.foldDue log cur).nextDeltaEpoch = 0 := by
      rw [foldDue_of_due hdue]
      rfl
    by_cases hagain : isEpochActive cur (r.foldDue log cur).deltaEpoch = true
    · rw [← foldDue_later hlog hle hagain, foldDue_foldDue_single hone,
        foldDue_foldDue_single hone]
    · rw [foldDue_of_not hagain]
      exact foldDue_foldDue_single hone
  · rw [foldDue_of_not hdue, foldDue_of_not hdue]

/-- Settlements keep the last index value at most at the total. -/
theorem promoteNext_last : (promoteNext cur r).accumulatedRewardPerToken =
    r.accumulatedRewardPerToken := by
  unfold promoteNext
  split <;> rfl

/-- Folding in keeps the last index value at most at the total. -/
theorem foldDue_last_le (h : r.accumulatedRewardPerToken ≤ indexTotal log) :
    (r.foldDue log cur).accumulatedRewardPerToken ≤ indexTotal log := by
  by_cases hdue : isEpochActive cur r.deltaEpoch = true
  · rw [foldDue_of_due hdue]
    exact indexBefore_le log _
  · rwa [foldDue_of_not hdue]

/-- After two foldings nothing is due. -/
theorem foldDue_foldDue_not_due :
    ¬isEpochActive cur ((r.foldDue log cur).foldDue log cur).deltaEpoch = true := by
  by_cases hdue : isEpochActive cur r.deltaEpoch = true
  · have hone : (r.foldDue log cur).nextDeltaEpoch = 0 := by
      rw [foldDue_of_due hdue]
      rfl
    by_cases hagain : isEpochActive cur (r.foldDue log cur).deltaEpoch = true
    · rw [foldDue_of_due hagain]
      intro hlast
      exact (isEpochActive_iff.mp hlast).1 hone
    · rwa [foldDue_of_not hagain]
  · rwa [foldDue_of_not hdue, foldDue_of_not hdue]

/-- Accruing once more on the way loses at most one unit: the first interval after it is rounded
twice. -/
theorem accruedBy_cut (hlog : GoesOn cur log log') (htimes : ∀ e ∈ log, e.1 ≤ cur)
    (hlast : r.accumulatedRewardPerToken ≤ indexTotal log)
    (hnow : ¬isEpochActive cur r.deltaEpoch = true) :
    Near 1 (((r.foldDue log' cur').foldDue log' cur').accruedBy log')
      ((((r.accruedBy log).foldDue log' cur').foldDue log' cur').accruedBy log') := by
  by_cases hstake : r.stake = 0
  · rw [accruedBy_of_unstaked hstake]
    exact .refl 1 _
  rw [accruedBy_of_staked hstake]
  by_cases hdue : isEpochActive cur' r.deltaEpoch = true
  · have hlater : cur < r.deltaEpoch := by
      obtain ⟨hne, -⟩ := isEpochActive_iff.mp hdue
      by_contra hle
      exact hnow (isEpochActive_iff.mpr ⟨hne, not_lt.mp hle⟩)
    have hmiddle : indexTotal log ≤ indexBefore log' r.deltaEpoch :=
      hlog.total_le fun e he => (htimes e he).trans_lt hlater
    refine (crediting_accruedBy log').near ((crediting_foldDue log' cur').near ?_)
    have hsplit := rewardShare_split r.stake hlast hmiddle
    rw [foldDue_of_due hdue, foldDue_of_due (r := r.accrued _ _) hdue]
    refine ⟨rfl, ?_, ?_⟩
    · simp only [compoundedBy, compounded, accrued]
      omega
    · simp only [compoundedBy, compounded, accrued]
      omega
  · have hmiddle : indexTotal log ≤ indexTotal log' := by
      obtain ⟨new, rfl, -⟩ := hlog
      rw [indexTotal, indexTotal, List.map_append, List.sum_append]
      exact Nat.le_add_left ..
    have hsplit := rewardShare_split r.stake hlast hmiddle
    rw [foldDue_of_not hdue, foldDue_of_not hdue, foldDue_of_not (r := r.accrued _ _) hdue,
      foldDue_of_not (r := r.accrued _ _) hdue, accruedBy_of_staked hstake,
      accruedBy_of_staked (r := r.accrued _ _) hstake]
    refine ⟨rfl, ?_, ?_⟩
    · simp only [accrued]
      omega
    · simp only [accrued]
      omega

/-- A settlement on the way to a later one loses at most one unit of rewards and changes nothing
else. -/
theorem settle_cut (hcur : cur' + 1 < 2 ^ 64) (hle : cur ≤ cur') (hr : EpochsOk cur b r)
    (hlog : GoesOn cur log log') (htimes : ∀ e ∈ log, e.1 ≤ cur)
    (hlast : r.accumulatedRewardPerToken ≤ indexTotal log) :
    Near 1 (r.settle log' cur') ((r.settle log cur).settle log' cur') := by
  obtain ⟨hok, hforward⟩ := promoteNext_epochs (by omega) hr
  have hforward : (promoteNext cur r).Forward cur := hforward
  -- the later promotion comes first, so that both foldings of the cut stand together
  have hfirst : promoteNext cur' (r.settle log cur) =
      (((promoteNext cur' r).foldDue log cur).foldDue log cur).accruedBy log := by
    rw [settle, promoteNext_accruedBy, hforward.foldDue.promoteNext_foldDue,
      hforward.promoteNext_foldDue, promoteNext_promoteNext hcur hle]
  rw [settle, settle, hfirst, ← foldDue_cut hlog hle]
  refine accruedBy_cut hlog htimes (foldDue_last_le (foldDue_last_le ?_))
    foldDue_foldDue_not_due
  rwa [promoteNext_last]

end Cut

/-- A promotion keeps the references. -/
theorem promoteNext_references (k : ℕ) : (promoteNext cur r).references k = r.references k := by
  unfold promoteNext
  split
  next hdue => simp only [references, hdue.1, refersTo_zero, Nat.add_zero, Nat.zero_add]
  next => rfl

/-- A settlement takes no reference. -/
theorem settle_references_le (k : ℕ) : (r.settle log cur).references k ≤ r.references k := by
  have hfold (r : Delegator) : (r.foldDue log cur).references k ≤ r.references k := by
    by_cases hdue : isEpochActive cur r.deltaEpoch = true
    · rw [foldDue_of_due hdue]
      simp only [references, compoundedBy, compounded, shiftNext, refersTo_zero, Nat.add_zero]
      exact Nat.le_add_left ..
    · rw [foldDue_of_not hdue]
  have haccrue (r : Delegator) : (r.accruedBy log).references k = r.references k := by
    by_cases hstake : r.stake = 0
    · rw [accruedBy_of_unstaked hstake]
    · rw [accruedBy_of_staked hstake]
      rfl
  rw [settle, haccrue]
  exact ((hfold _).trans (hfold _)).trans (promoteNext_references k).le

section Trails

variable {k : ℕ}

/-- The second record trails the first: settled together at any time from now on they are near,
and it refers to no other entry. -/
structure Trails (cur : ℕ) (log : IndexLog) (k : ℕ) (r r' : Delegator) : Prop where
  near : ∀ cur' log', cur ≤ cur' → cur' + 1 < 2 ^ 64 → GoesOn cur log log' →
    Near k (r.settle log' cur') (r'.settle log' cur')
  references_le : ∀ e, r'.references e ≤ r.references e

/-- Near records trail each other. -/
theorem Near.trails (h : Near k r r') : Trails cur log k r r' := by
  refine ⟨fun cur' log' _ _ _ => (crediting_settle log' cur').near h, fun e => ?_⟩
  rw [h.same]
  exact le_rfl

/-- A record that trails by less trails by more. -/
theorem Trails.mono {k' : ℕ} (h : Trails cur log k r r') (hle : k ≤ k') :
    Trails cur log k' r r' :=
  ⟨fun cur' log' hcur hlt hlog => (h.near cur' log' hcur hlt hlog).mono hle, h.references_le⟩

/-- A record that trails still does later. -/
theorem Trails.later (h : Trails cur log k r r') (hle : cur ≤ cur') (hlog : GoesOn cur log log') :
    Trails cur' log' k r r' :=
  ⟨fun cur'' log'' hle' hcur hlog' => h.near cur'' log'' (hle.trans hle') hcur
    (hlog.trans hlog' hle), h.references_le⟩

/-- A settlement of both records brings them near. -/
theorem Trails.settle (h : Trails cur log k r r') (hcur : cur + 1 < 2 ^ 64) :
    Trails cur log k (r.settle log cur) (r'.settle log cur) :=
  (h.near cur log le_rfl hcur (.refl cur log)).trails

/-- A settlement of the second record alone costs one more unit. -/
theorem Trails.cut (h : Trails cur log k r r') (hr : EpochsOk cur b r')
    (htimes : ∀ e ∈ log, e.1 ≤ cur) (hlast : r'.accumulatedRewardPerToken ≤ indexTotal log) :
    Trails cur log (k + 1) r (r'.settle log cur) where
  near cur' log' hle hcur hlog :=
    (h.near cur' log' hle hcur hlog).trans (settle_cut hcur hle hr hlog htimes hlast)
  references_le e := (settle_references_le e).trans (h.references_le e)

/-- Crediting both records the same keeps the second trailing. -/
theorem Trails.credit (h : Trails cur log k r r') (amount : ℕ) :
    Trails cur log k (r.withRewards (r.rewards + amount))
      (r'.withRewards (r'.rewards + amount)) := by
  refine ⟨fun cur' log' hle hcur hlog => ?_, h.references_le⟩
  have hnear := h.near cur' log' hle hcur hlog
  have hcredit (r : Delegator) : (r.withRewards (r.rewards + amount)).settle log' cur' =
      (r.settle log' cur').withRewards ((r.settle log' cur').rewards + amount) := by
    obtain ⟨c, hc⟩ := crediting_settle log' cur' r
    have hrewards : (r.settle log' cur').rewards = r.rewards + c :=
      congrArg Delegator.rewards (hc r.rewards)
    rw [hc, hrewards, Nat.add_right_comm]
  rw [hcredit, hcredit]
  refine ⟨?_, ?_, ?_⟩
  · rw [hnear.same]
    rfl
  · exact Nat.add_le_add_right hnear.le amount
  · have hle := hnear.le_add
    change _ + amount ≤ _ + amount + k
    omega

end Trails

end Delegator

namespace Pool

variable {p : Pool} {cur : ℕ} {b : Bool}

/-- A settlement adds no reward to the index. -/
theorem pulled_log (p : Pool) (cur : ℕ) (d : Address) : (p.pulled cur d).log = p.log := by
  have hcompound (q : Pool) (can : Bool) : (q.compoundedIf d can).log = q.log := by
    cases can <;> rfl
  have haccrue (q : Pool) : (q.accrued d).log = q.log := by
    unfold accrued
    split <;> rfl
  rw [pulled, haccrue, hcompound, hcompound]
  rfl

/-- Compounding an active track whose entry holds the index folds it in. -/
theorem compounded_record (d : Address) (hentry : p.entryValue (p.delegators d).deltaEpoch =
    indexBefore p.log (p.delegators d).deltaEpoch) :
    (p.compounded d).delegators d = (p.delegators d).compoundedBy p.log := by
  have hself : (p.compounded d).delegators d = _ := Function.update_self ..
  rw [hself, hentry]
  rfl

/-- Accruing in a sound pool credits up to the index. -/
theorem accrued_record (d : Address) (hacc : p.acc = indexTotal p.log) :
    (p.accrued d).delegators d = (p.delegators d).accruedBy p.log := by
  unfold accrued
  split
  next hstake => rw [Delegator.accruedBy_of_unstaked hstake]
  next hstake =>
    rw [Delegator.accruedBy_of_staked hstake, ← hacc]
    exact Function.update_self ..

/-- The epochs a promoted record waits for hold the index once they have begun. -/
theorem Sound.entryValue_promoted (hp : p.Sound cur b) {d : Address} {k : ℕ} (hne : k ≠ 0)
    (hle : k ≤ cur) (hk : k = (promoteNext cur (p.delegators d)).deltaEpoch ∨
      k = (promoteNext cur (p.delegators d)).nextDeltaEpoch) :
    p.entryValue k = indexBefore p.log k := by
  have hself : refersTo k k = 1 := if_pos ⟨rfl, hne⟩
  have hrefs : 0 < (promoteNext cur (p.delegators d)).references k := by
    rw [Delegator.references]
    rcases hk with hk | hk <;> rw [← hk, hself] <;> omega
  rw [Delegator.promoteNext_references] at hrefs
  exact hp.entryValue_eq (hrefs.trans_le (Nat.le_add_right ..)) hle

/-- In a sound pool a settlement writes the settled record. -/
theorem Sound.pulled_record (hcur : cur + 1 < 2 ^ 64) (hepochs : p.EpochsOk cur b)
    (hp : p.Sound cur b) (d : Address) :
    (p.pulled cur d).delegators d = (p.delegators d).settle p.log cur := by
  obtain ⟨hok, hforward⟩ := promoteNext_epochs hcur (hepochs d)
  have hentry {k : ℕ} := hp.entryValue_promoted (d := d) (k := k)
  have hrecord : (p.promoted cur d).delegators d = promoteNext cur (p.delegators d) :=
    Function.update_self ..
  unfold pulled Delegator.settle
  dsimp only
  rw [hrecord]
  generalize promoteNext cur (p.delegators d) = x at *
  have hfirst (hdelta : isEpochActive cur x.deltaEpoch = true) :
      ((p.promoted cur d).compounded d).delegators d = x.compoundedBy p.log := by
    obtain ⟨hne, hle⟩ := isEpochActive_iff.mp hdelta
    rw [compounded_record d (by rw [hrecord]; exact hentry hne hle (.inl rfl)), hrecord]
    rfl
  have hlast (q : Pool) (hlog : q.log = p.log) (hacc : q.acc = p.acc) :
      (q.accrued d).delegators d = (q.delegators d).accruedBy p.log := by
    rw [accrued_record d (by rw [hlog, hacc, hp.acc_eq]), hlog]
  cases hnext : isEpochActive cur x.nextDeltaEpoch with
  | true =>
    obtain ⟨hne, hle⟩ := isEpochActive_iff.mp hnext
    have hdelta := isEpochActive_iff.mpr (first_active hok hforward hnext)
    have hlt := hok.delta_lt_next (first_active hok hforward hnext).1 hne
    -- the second entry is not the one released first
    have hkept : ((p.promoted cur d).compounded d).accumulators x.nextDeltaEpoch =
        p.accumulators x.nextDeltaEpoch := by
      have hrelease : ((p.promoted cur d).compounded d).accumulators = Function.update
        p.accumulators ((p.promoted cur d).delegators d).deltaEpoch _ := rfl
      rw [hrelease, hrecord, Function.update_of_ne hlt.ne']
    have hsecond : (((p.promoted cur d).compounded d).compounded d).delegators d =
        (x.compoundedBy p.log).compoundedBy p.log := by
      have hvalue := hentry hne hle (.inr rfl)
      rw [entryValue, ← hkept] at hvalue
      rw [compounded_record d (by rw [hfirst hdelta]; exact hvalue), hfirst hdelta]
      rfl
    have hagain : isEpochActive cur (x.compoundedBy p.log).deltaEpoch = true := hnext
    rw [hdelta, Delegator.foldDue_of_due hdelta, Delegator.foldDue_of_due hagain, ← hsecond]
    exact hlast _ rfl rfl
  | false =>
    cases hdelta : isEpochActive cur x.deltaEpoch with
    | true =>
      have hagain : ¬isEpochActive cur (x.compoundedBy p.log).deltaEpoch = true := by
        rw [Bool.not_eq_true]
        exact hnext
      rw [Delegator.foldDue_of_due hdelta, Delegator.foldDue_of_not hagain, ← hfirst hdelta]
      exact hlast _ rfl rfl
    | false =>
      have hnot : ¬isEpochActive cur x.deltaEpoch = true := by
        rw [Bool.not_eq_true]
        exact hdelta
      rw [Delegator.foldDue_of_not hnot, Delegator.foldDue_of_not hnot, ← hrecord]
      exact hlast _ rfl rfl

end Pool

end SuwappuRevm.Staking
