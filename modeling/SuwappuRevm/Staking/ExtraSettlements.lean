import SuwappuRevm.Staking.Twins
import SuwappuRevm.Staking.Withdrawals

/-!
# Settling somebody else's account

Anyone may settle any account at any time. A second settlement in a row changes nothing, and one on
the way to a later settlement costs its owner at most one unit of rewards and nothing else: two runs
of which one has further settlements of an account inserted stay twins, and the account in the
second trails the one in the first.
-/

namespace SuwappuRevm.Staking

open Foundations

section AtRest

/-- Nothing is due, and active stake has the accumulator as its last value. -/
structure Pool.AtRest (p : Pool) (cur : ℕ) (d : Address) : Prop where
  settled : (p.delegators d).Settled cur
  last_eq : (p.delegators d).stake ≠ 0 → (p.delegators d).accumulatedRewardPerToken = p.acc

variable {p : Pool} {cur : ℕ} {d : Address} {s s' : Storage} {v : ValId} {del : Delegator}

namespace Delegator.Settled

variable {r : Delegator}

/-- A settled record is not promoted. -/
theorem promoteNext_eq (h : r.Settled cur) (hcur : cur + 1 < 2 ^ 64) : promoteNext cur r = r := by
  refine if_neg fun hdue => ?_
  rw [u64Add_one (by omega)] at hdue
  have hnext := h.next
  omega

/-- No track of a settled record is due. -/
theorem not_due (h : r.Settled cur) :
    isEpochActive cur r.deltaEpoch = false ∧ isEpochActive cur r.nextDeltaEpoch = false := by
  have hdelta := h.delta
  have hnext := h.next
  constructor
  · rw [← Bool.not_eq_true, isEpochActive_iff]
    omega
  · rw [← Bool.not_eq_true, isEpochActive_iff]
    omega

end Delegator.Settled

/-- No rewards between equal index values. -/
theorem rewardShare_self (stake acc : ℕ) : rewardShare stake acc acc = 0 := by
  rw [rewardShare, Nat.sub_self, Nat.zero_mul, Nat.zero_div]

/-- A settlement of a record at rest keeps all records. -/
theorem Pool.AtRest.pulled_delegators (h : p.AtRest cur d) (hcur : cur + 1 < 2 ^ 64) :
    (p.pulled cur d).delegators = p.delegators := by
  obtain ⟨hdelta, hnext⟩ := h.settled.not_due
  have hpromoted : p.promoted cur d = p := by
    rw [promoted, h.settled.promoteNext_eq hcur, setDelegator, Function.update_eq_self]
  rw [pulled, hpromoted, hdelta, hnext]
  change (p.accrued d).delegators = p.delegators
  unfold accrued
  split
  next => rfl
  next hstake =>
    rw [h.last_eq hstake, rewardShare_self]
    refine (congrArg (Function.update p.delegators d) ?_).trans (Function.update_eq_self ..)
    rw [← h.last_eq hstake]
    rfl

/-- Taking the credited rewards leaves a record at rest. -/
theorem Pool.AtRest.take (h : p.AtRest cur d) : (p.take d).AtRest cur d := by
  have htake : (p.take d).delegators d = { p.delegators d with rewards := 0 } :=
    Function.update_self ..
  refine ⟨?_, ?_⟩
  · rw [htake]
    exact ⟨h.settled.delta, h.settled.next⟩
  · rw [htake]
    exact h.last_eq

/-- Nothing accrues at rest. -/
theorem accrueActive_atRest (h : (s.pool v).AtRest s.epoch d)
    (hfits : (s.delegators v d).rewards < wordBound) (unclaimed : ℕ) :
    ∃ history, accrueActive v d ⟨s, s.delegators v d, unclaimed⟩ =
      .ok ⟨{ s with history := history }, s.delegators v d, unclaimed⟩ := by
  by_cases hstake : (s.delegators v d).stake = 0
  · exact ⟨s.history, if_pos hstake⟩
  have hlast : (s.delegators v d).accumulatedRewardPerToken =
      (s.validators v).accumulatedRewardPerToken := h.last_eq hstake
  have hnone : calculateRewards (s.delegators v d).stake
      (s.validators v).accumulatedRewardPerToken
        (s.delegators v d).accumulatedRewardPerToken = .ok 0 := by
    rw [calculateRewards_eq_ok, hlast, rewardShare_self, Nat.sub_self, Nat.zero_mul]
    exact ⟨le_rfl, by decide, rfl⟩
  refine ⟨(s.record v (.settled d 0)).history, ?_⟩
  rw [accrueActive, if_neg hstake]
  simp only [bind_eq_ok, pure_eq_ok]
  refine ⟨0, hnone, (unclaimed, s.delegators v d), rewardInvariant_eq_ok.mpr ?_, rfl⟩
  refine ⟨Nat.zero_le _, hfits, rfl, ?_⟩
  rw [← hlast]
  rfl

/-- A settlement of a record at rest changes nothing that is stored. -/
theorem pullDelegatorUpToDate_atRest (hcur : s.epoch + 1 < 2 ^ 64)
    (h : (s.pool v).AtRest s.epoch d) (hfits : (s.delegators v d).rewards < wordBound) :
    ∃ history, pullDelegatorUpToDate s v d =
      .ok (s.delegators v d, { s with history := history }) := by
  have hsettled : (s.delegators v d).Settled s.epoch := h.settled
  obtain ⟨hdelta, hnext⟩ := hsettled.not_due
  obtain ⟨history, haccrue⟩ := accrueActive_atRest h hfits (s.validators v).unclaimedRewards
  refine ⟨history, ?_⟩
  simp only [pullDelegatorUpToDate, hsettled.promoteNext_eq hcur, hdelta, hnext, bind_eq_ok,
    pure_eq_ok, Prod.mk.injEq]
  refine ⟨_, rfl, _, rfl, _, haccrue, rfl, ?_⟩
  simp [Storage.writeValidatorUnclaimedRewards, Storage.writeValidator, Storage.writeDelegator]

/-- A settlement leaves a record at rest. -/
theorem pullDelegatorUpToDate_leaves_atRest (hcur : s.epoch + 1 < 2 ^ 64)
    (hr : EpochsOk s.epoch s.inBoundary (s.delegators v d))
    (h : pullDelegatorUpToDate s v d = .ok (del, s')) : (s'.pool v).AtRest s'.epoch d := by
  obtain ⟨-, hsettled⟩ := pullDelegatorUpToDate_spec hcur hr h
  obtain ⟨htouches, -, hself⟩ := pullDelegatorUpToDate_touches h
  have hself : (s'.pool v).delegators d = del := hself
  refine ⟨?_, fun hstake => ?_⟩
  · rw [hself, htouches.epoch_eq]
    exact hsettled
  · rw [pullDelegatorUpToDate_pool h] at hstake ⊢
    exact (s.pool v).pulled_last s.epoch d hstake

/-- In a solvent pool a settlement leaves a record at rest. -/
theorem pulled_atRest (hcur : s.epoch + 2 < 2 ^ 64) (hp : (s.pool v).Solvent s.epoch s.inBoundary)
    (d : Address) : ((s.pool v).pulled s.epoch d).AtRest s.epoch d := by
  obtain ⟨del, s', hpull, -⟩ := pullDelegatorUpToDate_succeeds hcur hp d
  obtain ⟨htouches, -, -⟩ := pullDelegatorUpToDate_touches hpull
  rw [← pullDelegatorUpToDate_pool hpull, ← htouches.epoch_eq]
  exact pullDelegatorUpToDate_leaves_atRest (by omega) (hp.epochs d) hpull

end AtRest

namespace Pool

variable {p p' p'' q q' : Pool} {cur k : ℕ} {b : Bool} {c d : Address}

section Rewrites

/-- Nothing changes in the records but one, and no reward is added to the index. -/
structure Rewrites (c : Address) (p p' : Pool) : Prop where
  off : ∀ c', c' ≠ c → p'.delegators c' = p.delegators c'
  log_eq : p'.log = p.log

/-- Two changes of one record. -/
theorem Rewrites.trans (h : Rewrites c p p') (h' : Rewrites c p' p'') : Rewrites c p p'' where
  off c' hc := (h'.off c' hc).trans (h.off c' hc)
  log_eq := h'.log_eq.trans h.log_eq

/-- Nothing changes. -/
theorem Rewrites.refl (c : Address) (p : Pool) : Rewrites c p p := ⟨fun _ _ => rfl, rfl⟩

/-- A record is written. -/
theorem Rewrites.of_update {r : Delegator} (hdelegators : p'.delegators =
    Function.update p.delegators c r) (hlog : p'.log = p.log) : Rewrites c p p' where
  off c' hc := by rw [hdelegators, Function.update_of_ne hc]
  log_eq := hlog

/-- A settlement. -/
theorem pulled_rewrites (p : Pool) (cur : ℕ) (c : Address) : Rewrites c p (p.pulled cur c) :=
  ⟨(p.pulled_upkeep cur c).off, p.pulled_log cur c⟩

/-- Taking credited rewards. -/
theorem take_rewrites (p : Pool) (c : Address) : Rewrites c p (p.take c) :=
  .of_update rfl (p.log_record rfl)

/-- Joining. -/
theorem join_rewrites (p : Pool) (b : Bool) (epoch : ℕ) (c : Address) (amount : ℕ) :
    Rewrites c p (p.join b epoch c amount) :=
  .of_update rfl (Pool.log_record { p.retainIf ((p.delegators c).trackEpoch b = 0) epoch with
    stake := p.stake + amount
    delegators := Function.update p.delegators c ((p.delegators c).addTo b epoch amount) } rfl)

/-- A delegation. -/
theorem delegated_rewrites (p : Pool) (cur : ℕ) (b : Bool) (c : Address) (amount : ℕ) :
    Rewrites c p (p.delegated cur b c amount) :=
  (p.pulled_rewrites cur c).trans (join_rewrites ..)

/-- A claim. -/
theorem claimed_rewrites (p : Pool) (cur : ℕ) (c : Address) : Rewrites c p (p.claimed cur c) := by
  unfold claimed
  dsimp only
  split
  · exact p.pulled_rewrites cur c
  · exact (p.pulled_rewrites cur c).trans (take_rewrites ..)

/-- A compounding of rewards. -/
theorem restaked_rewrites (p : Pool) (cur : ℕ) (b : Bool) (c : Address) :
    Rewrites c p (p.restaked cur b c) := by
  unfold restaked
  dsimp only
  split
  · exact p.pulled_rewrites cur c
  · exact ((p.pulled_rewrites cur c).trans (take_rewrites ..)).trans (delegated_rewrites ..)

/-- An undelegation. -/
theorem undelegated_rewrites (p : Pool) (cur : ℕ) (b : Bool) (c : Address) (amount : ℕ)
    (w : WithdrawId) : Rewrites c p (p.undelegated cur b c amount w) :=
  (p.pulled_rewrites cur c).trans (.of_update rfl rfl)

/-- A withdrawal. -/
theorem withdrawn_rewrites (p : Pool) (c : Address) (w : WithdrawId) :
    Rewrites c p (p.withdrawn c w) := ⟨fun _ _ => rfl, rfl⟩

end Rewrites

section Records

variable (hsame : (p.pulled cur c).delegators c = (q.pulled cur c).delegators c)

include hsame

/-- Delegations of equal settled records leave equal records. -/
theorem delegated_congr (b : Bool) (amount : ℕ) :
    (p.delegated cur b c amount).delegators c = (q.delegated cur b c amount).delegators c := by
  have hrecord (p : Pool) : (p.delegated cur b c amount).delegators c =
      ((p.pulled cur c).delegators c).addTo b (activationEpoch cur b) amount :=
    Function.update_self ..
  rw [hrecord, hrecord, hsame]

/-- Claims of equal settled records leave equal records. -/
theorem claimed_congr :
    (p.claimed cur c).delegators c = (q.claimed cur c).delegators c := by
  have htake (p : Pool) : (p.take c).delegators c = { p.delegators c with rewards := 0 } :=
    Function.update_self ..
  unfold claimed
  dsimp only
  rw [hsame]
  split
  · exact hsame
  · rw [htake, htake, hsame]

/-- Compoundings of equal settled records leave equal records. -/
theorem restaked_congr (hcur : cur + 1 < 2 ^ 64) (hp : (p.pulled cur c).AtRest cur c)
    (hq : (q.pulled cur c).AtRest cur c) (b : Bool) :
    (p.restaked cur b c).delegators c = (q.restaked cur b c).delegators c := by
  have htake (p : Pool) : (p.take c).delegators c = { p.delegators c with rewards := 0 } :=
    Function.update_self ..
  unfold restaked
  dsimp only
  rw [hsame]
  split
  · exact hsame
  · refine delegated_congr ?_ b _
    rw [hp.take.pulled_delegators hcur, hq.take.pulled_delegators hcur, htake, htake, hsame]

/-- Undelegations of equal settled records leave equal records. -/
theorem undelegated_congr (b : Bool) (amount : ℕ) (w : WithdrawId) :
    (p.undelegated cur b c amount w).delegators c =
      (q.undelegated cur b c amount w).delegators c := by
  have hrecord (p : Pool) : (p.undelegated cur b c amount w).delegators c =
      ((p.pulled cur c).delegators c).removed
        (leaving ((p.pulled cur c).delegators c).stake amount) := Function.update_self ..
  rw [hrecord, hrecord, hsame]

end Records

section Beside

/-- Two pools of which the second has settled an account more often: all other records and the
index are the same, and the account trails that of the first. -/
structure Beside (cur : ℕ) (d : Address) (k : ℕ) (p q : Pool) : Prop where
  off : ∀ c, c ≠ d → p.delegators c = q.delegators c
  log_eq : p.log = q.log
  trails : Delegator.Trails cur p.log k (p.delegators d) (q.delegators d)

/-- Writing equal records. -/
theorem Beside.rewrites (h : Beside cur d k p q) (hp : Rewrites c p p') (hq : Rewrites c q q')
    (hrecord : p'.delegators c = q'.delegators c) : Beside cur d k p' q' where
  off c' hd := by
    by_cases hc : c' = c
    · rw [hc, hrecord]
    · rw [hp.off c' hc, hq.off c' hc, h.off c' hd]
  log_eq := by rw [hp.log_eq, hq.log_eq, h.log_eq]
  trails := by
    rw [hp.log_eq]
    by_cases hd : d = c
    · rw [hd, hrecord]
      exact (Delegator.Near.refl k _).trails
    · rw [hp.off d hd, hq.off d hd]
      exact h.trails

/-- Changes that leave records and index alone, as time goes on. -/
theorem Beside.later {cur' : ℕ} (h : Beside cur d k p q) (hle : cur ≤ cur')
    (hp : p'.delegators = p.delegators) (hq : q'.delegators = q.delegators)
    (hlog : p'.log = p.log) (hlog' : q'.log = q.log) : Beside cur' d k p' q' where
  off c hd := by rw [hp, hq, h.off c hd]
  log_eq := by rw [hlog, hlog', h.log_eq]
  trails := by
    rw [hlog, hp, hq]
    exact h.trails.later hle (.refl cur p.log)

/-- A reward adds the same to both indices. -/
theorem Beside.reward (h : Beside cur d k p q) (amount : ℕ) (hview : p.view b = q.view b) :
    Beside cur d k (p.reward cur b amount) (q.reward cur b amount) where
  off := h.off
  log_eq := by
    have hlog (p : Pool) : (p.reward cur b amount).log =
        (cur, amount * unitBias / p.view b) :: p.log := rfl
    rw [hlog, hlog, hview, h.log_eq]
  trails := h.trails.later le_rfl (.cons cur (amount * unitBias / p.view b) p.log)

/-- A commission is credited to both records. -/
theorem Beside.credit (h : Beside cur d k p q) (c : Address) (amount : ℕ) :
    Beside cur d k (p.credit c amount) (q.credit c amount) := by
  have hcredit (p : Pool) : (p.credit c amount).delegators = Function.update p.delegators c
    ((p.delegators c).withRewards ((p.delegators c).rewards + amount)) := rfl
  refine ⟨fun c' hd => ?_, h.log_eq, ?_⟩
  · rw [hcredit, hcredit]
    by_cases hc : c' = c
    · rw [hc, Function.update_self, Function.update_self, h.off c (hc ▸ hd)]
    · rw [Function.update_of_ne hc, Function.update_of_ne hc, h.off c' hd]
  · rw [hcredit, hcredit]
    by_cases hd : d = c
    · rw [hd, Function.update_self, Function.update_self]
      exact (hd ▸ h.trails).credit amount
    · rw [Function.update_of_ne hd, Function.update_of_ne hd]
      exact h.trails

/-- A settlement of the account itself in both. -/
theorem Beside.pulled (h : Beside cur d k p q) (hcur : cur + 1 < 2 ^ 64) (hp : p.EpochsOk cur b)
    (hq : q.EpochsOk cur b) (hsp : p.Sound cur b) (hsq : q.Sound cur b) :
    Beside cur d k (p.pulled cur d) (q.pulled cur d) where
  off c hd := by rw [(p.pulled_rewrites cur d).off c hd, (q.pulled_rewrites cur d).off c hd,
    h.off c hd]
  log_eq := by rw [p.pulled_log, q.pulled_log, h.log_eq]
  trails := by
    rw [p.pulled_log, hsp.pulled_record hcur hp, hsq.pulled_record hcur hq, ← h.log_eq]
    exact h.trails.settle hcur

end Beside

end Pool

section Calls

variable {v v' : ValId} {d : Address} {k : ℕ} {s t s' t' : Storage} {msg : Message}
  {answer answer' : Answer}

/-- Calls on another validator keep the accounts. -/
theorem beside_of_touches (hb : (s.pool v).Beside s.epoch d k (t.pool v)) (hs : Touches v' s s')
    (ht : Touches v' t t') (hpool : v' = v → (s'.pool v).Beside s.epoch d k (t'.pool v)) :
    (s'.pool v).Beside s'.epoch d k (t'.pool v) := by
  rw [hs.epoch_eq]
  by_cases hv : v = v'
  · exact hpool hv.symm
  · rw [hs.pool_of_ne v hv, ht.pool_of_ne v hv]
    exact hb

section Twins

variable (h : Twins v d s t) (hb : (s.pool v).Beside s.epoch d k (t.pool v))

include h hb

section Users

variable (hsame : s.delegators v' msg.caller = t.delegators v' msg.caller)

include hsame

/-- Delegations of equal records. -/
theorem handleDelegate_beside (hs : handleDelegate s msg v' = .ok answer)
    (ht : handleDelegate t msg v' = .ok answer') :
    (answer.storage.pool v).Beside answer.storage.epoch d k (answer'.storage.pool v) := by
  refine beside_of_touches hb (handleDelegate_spec hs).touches (handleDelegate_spec ht).touches ?_
  rintro rfl
  have hrecord := h.pulled_record hsame
  rw [handleDelegate_pool hs, handleDelegate_pool ht]
  rw [← h.shell.epoch_eq] at hrecord ⊢
  rw [← h.shell.inBoundary_eq]
  split
  · exact hb
  · exact hb.rewrites (Pool.delegated_rewrites ..) (Pool.delegated_rewrites ..)
      (Pool.delegated_congr hrecord ..)

/-- Undelegations of equal records. -/
theorem handleUndelegate_beside {amount : ℕ} {w : WithdrawId}
    (hs : handleUndelegate s msg v' amount w = .ok answer)
    (ht : handleUndelegate t msg v' amount w = .ok answer') :
    (answer.storage.pool v).Beside answer.storage.epoch d k (answer'.storage.pool v) := by
  refine beside_of_touches hb (handleUndelegate_spec hs).touches
    (handleUndelegate_spec ht).touches ?_
  rintro rfl
  have hrecord := h.pulled_record hsame
  rw [handleUndelegate_pool hs, handleUndelegate_pool ht]
  rw [← h.shell.epoch_eq] at hrecord ⊢
  rw [← h.shell.inBoundary_eq]
  split
  · exact hb
  · exact hb.rewrites (Pool.undelegated_rewrites ..) (Pool.undelegated_rewrites ..)
      (Pool.undelegated_congr hrecord ..)

/-- Claims of equal records. -/
theorem handleClaimRewards_beside (hs : handleClaimRewards s msg v' = .ok answer)
    (ht : handleClaimRewards t msg v' = .ok answer') :
    (answer.storage.pool v).Beside answer.storage.epoch d k (answer'.storage.pool v) := by
  obtain ⟨_, hcall⟩ := handleClaimRewards_spec hs
  obtain ⟨_, hcall'⟩ := handleClaimRewards_spec ht
  refine beside_of_touches hb hcall.touches hcall'.touches ?_
  rintro rfl
  have hrecord := h.pulled_record hsame
  rw [handleClaimRewards_pool hs, handleClaimRewards_pool ht]
  rw [← h.shell.epoch_eq] at hrecord ⊢
  exact hb.rewrites (Pool.claimed_rewrites ..) (Pool.claimed_rewrites ..)
    (Pool.claimed_congr hrecord)

/-- Compoundings of equal records. -/
theorem handleCompound_beside (hs : handleCompound s msg v' = .ok answer)
    (ht : handleCompound t msg v' = .ok answer') :
    (answer.storage.pool v).Beside answer.storage.epoch d k (answer'.storage.pool v) := by
  obtain ⟨_, _, hcall⟩ := handleCompound_spec hs
  obtain ⟨_, _, hcall'⟩ := handleCompound_spec ht
  refine beside_of_touches hb hcall.touches hcall'.touches ?_
  rintro rfl
  have hrecord := h.pulled_record hsame
  have hcur := h.epoch_lt
  have hrest := pulled_atRest hcur (h.solvent_left v') msg.caller
  have hrest' := pulled_atRest h.symm.epoch_lt (h.solvent_right v') msg.caller
  rw [handleCompound_pool hs, handleCompound_pool ht]
  rw [← h.shell.epoch_eq] at hrecord hrest' ⊢
  rw [← h.shell.inBoundary_eq]
  exact hb.rewrites (Pool.restaked_rewrites ..) (Pool.restaked_rewrites ..)
    (Pool.restaked_congr hrecord (by omega) hrest hrest' _)

/-- Withdrawals. -/
theorem handleWithdraw_beside {w : WithdrawId} (hs : handleWithdraw s msg v' w = .ok answer)
    (ht : handleWithdraw t msg v' w = .ok answer') :
    (answer.storage.pool v).Beside answer.storage.epoch d k (answer'.storage.pool v) := by
  obtain ⟨_, hcall⟩ := handleWithdraw_spec hs
  obtain ⟨_, hcall'⟩ := handleWithdraw_spec ht
  refine beside_of_touches hb hcall.touches hcall'.touches ?_
  rintro rfl
  obtain ⟨-, -, -, -, -, -, -, -, hpool⟩ := handleWithdraw_pay hs
  obtain ⟨-, -, -, -, -, -, -, -, hpool'⟩ := handleWithdraw_pay ht
  rw [hpool, hpool']
  exact hb.rewrites (Pool.withdrawn_rewrites ..) (Pool.withdrawn_rewrites ..) hsame

end Users

/-- Settlements of any account. -/
theorem handleGetDelegatorWrite_beside {d' : Address}
    (hs : handleGetDelegatorWrite s msg v' d' = .ok answer)
    (ht : handleGetDelegatorWrite t msg v' d' = .ok answer') :
    (answer.storage.pool v).Beside answer.storage.epoch d k (answer'.storage.pool v) := by
  refine beside_of_touches hb (handleGetDelegatorWrite_spec hs).touches
    (handleGetDelegatorWrite_spec ht).touches ?_
  rintro rfl
  have hcur := h.epoch_lt
  have hp := h.solvent_left v'
  have hq := h.solvent_right v'
  rw [handleGetDelegatorWrite_pool hs, handleGetDelegatorWrite_pool ht]
  rw [← h.shell.epoch_eq, ← h.shell.inBoundary_eq] at hq
  by_cases hd : d' = d
  · subst hd
    rw [← h.shell.epoch_eq]
    exact hb.pulled (by omega) hp.epochs hq.epochs hp.sound hq.sound
  · have hsame : s.delegators v' d' = t.delegators v' d' := h.record_eq fun _ => hd
    have hrecord := h.pulled_record hsame
    rw [← h.shell.epoch_eq] at hrecord ⊢
    exact hb.rewrites (Pool.pulled_rewrites ..) (Pool.pulled_rewrites ..) hrecord

/-- External rewards. -/
theorem handleExternalReward_beside (hs : handleExternalReward s msg v' = .ok answer)
    (ht : handleExternalReward t msg v' = .ok answer') :
    (answer.storage.pool v).Beside answer.storage.epoch d k (answer'.storage.pool v) := by
  obtain ⟨-, -, htouches, -, hpool⟩ := handleExternalReward_reward hs
  obtain ⟨-, -, htouches', -, hpool'⟩ := handleExternalReward_reward ht
  refine beside_of_touches hb htouches htouches' ?_
  rintro rfl
  rw [hpool, hpool', ← h.shell.epoch_eq, ← h.shell.inBoundary_eq]
  exact hb.reward _ (h.shell.view_eq _ v')

/-- Block rewards. -/
theorem handleSyscallReward_beside {blockAuthor : Address} {blockReward : ℕ}
    (hs : handleSyscallReward s msg blockAuthor blockReward = .ok answer)
    (ht : handleSyscallReward t msg blockAuthor blockReward = .ok answer') :
    (answer.storage.pool v).Beside answer.storage.epoch d k (answer'.storage.pool v) := by
  obtain ⟨-, -, -, htouches, -, hpool⟩ := handleSyscallReward_reward hs
  obtain ⟨-, -, -, htouches', -, hpool'⟩ := handleSyscallReward_reward ht
  rw [← h.shell.valIdSecp_eq] at htouches' hpool'
  refine beside_of_touches hb htouches htouches' ?_
  generalize s.valIdSecp blockAuthor = v' at *
  rintro rfl
  rw [hpool, hpool', ← h.shell.epoch_eq, ← h.shell.inBoundary_eq, ← h.shell.viewCommission_eq,
    ← h.shell.authAddress_eq]
  exact (hb.credit _ _).reward _ (h.shell.view_eq _ v')

/-- New validators. -/
theorem handleAddValidator_beside {payload : Bytes} (hregs : Registered s) (hregt : Registered t)
    (hs : handleAddValidator s msg payload = .ok answer)
    (ht : handleAddValidator t msg payload = .ok answer') :
    (answer.storage.pool v).Beside answer.storage.epoch d k (answer'.storage.pool v) := by
  simp only [handleAddValidator, bind_eq_ok, failIf_eq_ok, not_not, pure_eq_ok] at hs ht
  obtain ⟨-, -, -, -, -, hvalue, -, hmin, -, -, ⟨v', s₁⟩, hcreate, s₂, hdelegate, rfl⟩ := hs
  obtain ⟨-, -, -, -, -, -, -, -, -, -, ⟨v'', t₁⟩, hcreate', t₂, hdelegate', rfl⟩ := ht
  obtain ⟨⟨w, t'⟩, hagain, rfl, hsame, h₁⟩ := h.createValidator hregs hregt _ _ _ _ _ hcreate
  obtain ⟨rfl, rfl⟩ := Prod.mk.inj (Except.ok.inj (hcreate'.symm.trans hagain))
  obtain ⟨-, -, hpool, -, hepoch, -⟩ := createValidator_spec hregs hcreate
  obtain ⟨-, -, hpool', -⟩ := createValidator_spec hregt hcreate'
  have hne : msg.callValue ≠ 0 := by
    have hpos : minAuthAddressStake ≠ 0 := by decide
    omega
  obtain ⟨-, htouches, -⟩ := internalDelegate_spec hne hdelegate
  obtain ⟨-, htouches', -⟩ := internalDelegate_spec hne hdelegate'
  have hb₁ : (s₁.pool v).Beside s₁.epoch d k (t₁.pool v) := by
    rw [hpool, hpool', hepoch]
    exact hb
  refine beside_of_touches hb₁ htouches htouches' ?_
  rintro rfl
  have hrecord := h₁.pulled_record (hsame (Address.ofBytes ((payload.drop 81).take 20)))
  rw [internalDelegate_pool hdelegate, internalDelegate_pool hdelegate']
  rw [← h₁.shell.epoch_eq] at hrecord ⊢
  rw [← h₁.shell.inBoundary_eq]
  exact hb₁.rewrites (Pool.delegated_rewrites ..) (Pool.delegated_rewrites ..)
    (Pool.delegated_congr hrecord ..)

omit h in
/-- Changes of a commission. -/
theorem handleChangeCommission_beside {commission : ℕ}
    (hs : handleChangeCommission s msg v' commission = .ok answer)
    (ht : handleChangeCommission t msg v' commission = .ok answer') :
    (answer.storage.pool v).Beside answer.storage.epoch d k (answer'.storage.pool v) := by
  have hsame := handleChangeCommission_samePools hs
  have hsame' := handleChangeCommission_samePools ht
  rw [hsame.pool_eq, hsame'.pool_eq, hsame.epoch_eq]
  exact hb

omit h in
/-- Snapshots. -/
theorem handleSyscallSnapshot_beside (hs : handleSyscallSnapshot s msg = .ok answer)
    (ht : handleSyscallSnapshot t msg = .ok answer') :
    (answer.storage.pool v).Beside answer.storage.epoch d k (answer'.storage.pool v) := by
  obtain ⟨-, -, htake⟩ := handleSyscallSnapshot_eq_ok hs
  obtain ⟨-, -, htake'⟩ := handleSyscallSnapshot_eq_ok ht
  have hepoch : (takeSnapshot s).epoch = s.epoch := (takeSnapshot_sameLedger s).epoch_eq
  have hpool := takeSnapshot_pool s v
  have hpool' := takeSnapshot_pool t v
  rw [htake, htake', hepoch]
  exact hb.later le_rfl hpool.delegators_eq hpool'.delegators_eq
    (congrArg (List.filterMap PoolEvent.increment) hpool.history_eq)
    (congrArg (List.filterMap PoolEvent.increment) hpool'.history_eq)

omit h in
/-- Epoch changes. -/
theorem handleSyscallOnEpochChange_beside {next : Fin (2 ^ 64)}
    (hs : handleSyscallOnEpochChange s msg next = .ok answer)
    (ht : handleSyscallOnEpochChange t msg next = .ok answer') :
    (answer.storage.pool v).Beside answer.storage.epoch d k (answer'.storage.pool v) := by
  obtain ⟨-, hlt, hchange⟩ := handleSyscallOnEpochChange_eq_ok hs
  obtain ⟨-, -, hchange'⟩ := handleSyscallOnEpochChange_eq_ok ht
  have hkept (u : Storage) : ((changeEpoch u next).pool v).delegators = (u.pool v).delegators ∧
      ((changeEpoch u next).pool v).log = (u.pool v).log := by
    obtain ⟨hin, hout⟩ := (refreshAccumulators_spec u next).2 v
    change ((refreshAccumulators u next).pool v).delegators = _ ∧
      ((refreshAccumulators u next).pool v).log = _
    by_cases hmem : (u.pool v).inSnapshot
    · rw [hin hmem]
      exact ⟨rfl, rfl⟩
    · rw [hout hmem]
      exact ⟨rfl, rfl⟩
  rw [hchange, hchange']
  exact hb.later hlt.le (hkept s).1 (hkept t).1 (hkept s).2 (hkept t).2

/-- A call of others leaves the accounts beside each other. -/
theorem runStakingWrite_beside (hregs : Registered s) (hregt : Registered t) {call : StakingCall}
    (hothers : OfOthers d (msg, call)) (hs : runStakingWrite s msg call = .ok answer)
    (ht : runStakingWrite t msg call = .ok answer') :
    (answer.storage.pool v).Beside answer.storage.epoch d k (answer'.storage.pool v) := by
  have hsame (hcaller : msg.caller ≠ d) (v' : ValId) :
      s.delegators v' msg.caller = t.delegators v' msg.caller := h.record_eq fun _ => hcaller
  have hpaid {x y : Except PrecompileError Answer} (hx : notPayable msg x = .ok answer)
      (hy : notPayable msg y = .ok answer') : x = .ok answer ∧ y = .ok answer' :=
    ⟨(notPayable_eq_ok hx).2, (notPayable_eq_ok hy).2⟩
  cases call with
  | addValidator payload => exact handleAddValidator_beside h hb hregs hregt hs ht
  | delegate v' => exact handleDelegate_beside h hb (hsame hothers v') hs ht
  | undelegate v' amount w =>
    obtain ⟨hs, ht⟩ := hpaid hs ht
    exact handleUndelegate_beside h hb (hsame hothers v') hs ht
  | withdraw v' w =>
    obtain ⟨hs, ht⟩ := hpaid hs ht
    exact handleWithdraw_beside h hb (hsame hothers v') hs ht
  | compound v' =>
    obtain ⟨hs, ht⟩ := hpaid hs ht
    exact handleCompound_beside h hb (hsame hothers v') hs ht
  | claimRewards v' =>
    obtain ⟨hs, ht⟩ := hpaid hs ht
    exact handleClaimRewards_beside h hb (hsame hothers v') hs ht
  | changeCommission v' commission =>
    obtain ⟨hs, ht⟩ := hpaid hs ht
    exact handleChangeCommission_beside hb hs ht
  | externalReward v' => exact handleExternalReward_beside h hb hs ht
  | getDelegator v' d' =>
    obtain ⟨hs, ht⟩ := hpaid hs ht
    exact handleGetDelegatorWrite_beside h hb hs ht
  | syscallReward blockAuthor extendedReward => exact handleSyscallReward_beside h hb hs ht
  | syscallSnapshot =>
    obtain ⟨hs, ht⟩ := hpaid hs ht
    exact handleSyscallSnapshot_beside hb hs ht
  | syscallOnEpochChange next =>
    obtain ⟨hs, ht⟩ := hpaid hs ht
    exact handleSyscallOnEpochChange_beside hb hs ht

end Twins

end Calls

end SuwappuRevm.Staking
