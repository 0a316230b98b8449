import SuwappuRevm.Staking.PoolCalls

/-!
# The roster

What the storage holds beside the pools: flags, commissions and auth addresses of the validators,
the delegation lists, the execution set and the sets and views of the snapshots. Settlements,
payments and rewards leave it alone. Only a delegation and an undelegation, a new validator, a
change of commission and a snapshot write it, and this module says what each of them has done
before it does.
-/

namespace SuwappuRevm.Staking

open Foundations

/-- What storage holds beside the pools and the clock. -/
structure Roster where
  lastValId : ValId
  authAddress : ValId → Address
  commission : ValId → ℕ
  flags : ValId → Flags
  listNodes : ValId → Address → ListNode
  execution : Valset
  bitset : ℕ → BitVec 256
  consensus : Valset
  snapshot : Valset
  consensusView : ValId → ConsensusView
  snapshotView : ValId → ConsensusView

/-- The roster of a storage. -/
def Storage.roster (s : Storage) : Roster where
  lastValId := s.lastValId
  authAddress v := (s.validators v).authAddress
  commission v := (s.validators v).commission
  flags v := (s.validators v).flags
  listNodes := s.listNodes
  execution := s.execution
  bitset := s.bitset
  consensus := s.consensus
  snapshot := s.snapshot
  consensusView := s.consensusView
  snapshotView := s.snapshotView

section Writes

variable (s : Storage) (v : ValId)

/-- Writing a validator record writes its auth address, commission and flags. -/
theorem roster_writeValidator (val : Validator) :
    (s.writeValidator v val).roster =
      { s.roster with
        authAddress := Function.update s.roster.authAddress v val.authAddress
        commission := Function.update s.roster.commission v val.commission
        flags := Function.update s.roster.flags v val.flags } := by
  have hauth := Function.comp_update Validator.authAddress s.validators v val
  have hcommission := Function.comp_update Validator.commission s.validators v val
  have hflags := Function.comp_update Validator.flags s.validators v val
  simp only [Function.comp_def] at hauth hcommission hflags
  simp only [Storage.roster, Storage.writeValidator, hauth, hcommission, hflags]

/-- A record that keeps auth address, commission and flags keeps the roster. -/
theorem roster_writeValidator_same (val : Validator)
    (hauth : val.authAddress = (s.validators v).authAddress)
    (hcommission : val.commission = (s.validators v).commission)
    (hflags : val.flags = (s.validators v).flags) :
    (s.writeValidator v val).roster = s.roster := by
  have hauth : val.authAddress = s.roster.authAddress v := hauth
  have hcommission : val.commission = s.roster.commission v := hcommission
  have hflags : val.flags = s.roster.flags v := hflags
  simp only [roster_writeValidator, hauth, hcommission, hflags, Function.update_eq_self]

/-- The stake is not part of the roster. -/
@[simp] theorem roster_writeValidatorStake (stake : ℕ) :
    (s.writeValidatorStake v stake).roster = s.roster :=
  roster_writeValidator_same s v _ rfl rfl rfl

/-- The unclaimed rewards are not part of the roster. -/
@[simp] theorem roster_writeValidatorUnclaimedRewards (unclaimed : ℕ) :
    (s.writeValidatorUnclaimedRewards v unclaimed).roster = s.roster :=
  roster_writeValidator_same s v _ rfl rfl rfl

/-- The accumulator is not part of the roster. -/
@[simp] theorem roster_writeValidatorAcc (acc : ℕ) :
    (s.writeValidatorAcc v acc).roster = s.roster :=
  roster_writeValidator_same s v _ rfl rfl rfl

/-- Dropping a reference leaves the roster alone. -/
@[simp] theorem roster_decrement (epoch : ℕ) :
    (decrementAccumulatorRefcount s epoch v).2.roster = s.roster := by
  unfold decrementAccumulatorRefcount
  dsimp only
  split
  · rfl
  · split <;> rfl

/-- Taking a reference leaves the roster alone. -/
@[simp] theorem roster_incrementIf (need : Bool) : (incrementIf need s v).roster = s.roster := by
  cases need <;> rfl

end Writes

section Settlement

variable {v : ValId} {d : Address}

/-- Compounding leaves the roster alone. -/
theorem compoundIf_roster {can : Bool} {x y : Settling} (h : compoundIf can v d x = .ok y) :
    y.storage.roster = x.storage.roster := by
  unfold compoundIf at h
  split at h
  next =>
    obtain ⟨-, -, -, -, -, rfl⟩ := compoundTrack_eq_ok.mp h
    exact roster_decrement x.storage v x.del.deltaEpoch
  next =>
    cases h
    rfl

/-- Accruing leaves the roster alone. -/
theorem accrueActive_roster {x y : Settling} (h : accrueActive v d x = .ok y) :
    y.storage.roster = x.storage.roster := by
  by_cases hstake : x.del.stake = 0
  · rw [accrueActive, if_pos hstake] at h
    cases h
    rfl
  · obtain ⟨-, -, -, -, rfl⟩ := (accrueActive_eq_ok hstake).mp h
    rfl

/-- A settlement leaves the roster alone. -/
theorem pullDelegatorUpToDate_roster {s s' : Storage} {del : Delegator}
    (h : pullDelegatorUpToDate s v d = .ok (del, s')) : s'.roster = s.roster := by
  simp only [pullDelegatorUpToDate, bind_eq_ok, pure_eq_ok, Prod.mk.injEq] at h
  obtain ⟨x₁, h₁, x₂, h₂, x₃, h₃, rfl, rfl⟩ := h
  have hwrites : ((x₃.storage.writeValidatorUnclaimedRewards v x₃.unclaimedRewards).writeDelegator v
      d x₃.del).roster = x₃.storage.roster :=
    roster_writeValidatorUnclaimedRewards x₃.storage v x₃.unclaimedRewards
  rw [hwrites, accrueActive_roster h₃, compoundIf_roster h₂, compoundIf_roster h₁]

/-- A delegation enlists: the record and the stake are final, the roster is still the old one. -/
theorem internalDelegate_enlist {s s' : Storage} {amount : ℕ}
    (h : internalDelegate s v d amount = .ok s') :
    ∃ s₁ s₂, s₁.roster = s.roster ∧ s₁.delegators v d = s'.delegators v d ∧
      (s₁.validators v).stake = (s'.validators v).stake ∧
      enlist s₁ v d (s₁.delegators v d) = .ok s₂ ∧ s'.roster = s₂.roster := by
  simp only [internalDelegate, bind_eq_ok, pure_eq_ok] at h
  obtain ⟨⟨del, s₀⟩, hpull, ⟨del', s₁⟩, hadd, s₂, henlist, rfl⟩ := h
  simp only [addDelegation, bind_eq_ok, checkedAdd_eq_ok, pure_eq_ok, Prod.mk.injEq] at hadd
  obtain ⟨⟨need, del₁⟩, -, stake, -, rfl, rfl⟩ := hadd
  obtain ⟨-, hsame⟩ := enlist_spec henlist
  have hdel : ((incrementIf need (s₀.writeDelegator v d del₁) v).writeValidatorStake v
      stake).delegators v d = del₁ := by
    cases need <;>
      exact (congrFun (Function.update_self ..) d).trans (Function.update_self ..)
  refine ⟨(incrementIf need (s₀.writeDelegator v d del₁) v).writeValidatorStake v stake, s₂, ?_,
    (congrFun (congrArg Pool.delegators (hsame.pool_eq v)) d).symm,
    (congrArg Pool.stake (hsame.pool_eq v)).symm, ?_, rfl⟩
  · have hroster := pullDelegatorUpToDate_roster hpull
    rw [roster_writeValidatorStake, roster_incrementIf]
    exact hroster
  · rw [hdel]
    exact henlist

end Settlement

section Handlers

variable {s : Storage} {msg : Message} {v : ValId} {answer : Answer}

/-- `handle_claim_rewards` leaves the roster alone. -/
theorem handleClaimRewards_roster (h : handleClaimRewards s msg v = .ok answer) :
    answer.storage.roster = s.roster := by
  simp only [handleClaimRewards, bind_eq_ok] at h
  obtain ⟨-, -, ⟨del, s₁⟩, hpull, h⟩ := h
  have hroster := pullDelegatorUpToDate_roster hpull
  dsimp only at h
  split at h
  next =>
    cases h
    exact hroster
  next =>
    simp only [bind_eq_ok, pure_eq_ok] at h
    obtain ⟨s₂, htransfer, rfl⟩ := h
    obtain ⟨-, rfl⟩ := transfer_eq_ok htransfer
    exact hroster

/-- `handle_get_delegator_write` leaves the roster alone. -/
theorem handleGetDelegatorWrite_roster {d : Address}
    (h : handleGetDelegatorWrite s msg v d = .ok answer) : answer.storage.roster = s.roster := by
  simp only [handleGetDelegatorWrite, bind_eq_ok, pure_eq_ok] at h
  obtain ⟨-, -, ⟨del, s₁⟩, hpull, rfl⟩ := h
  exact pullDelegatorUpToDate_roster hpull

/-- `handle_withdraw` leaves the roster alone. -/
theorem handleWithdraw_roster {w : WithdrawId} (h : handleWithdraw s msg v w = .ok answer) :
    answer.storage.roster = s.roster := by
  simp only [handleWithdraw, bind_eq_ok, pure_eq_ok] at h
  obtain ⟨-, -, -, -, -, -, _, -, -, -, _, -, _, -, s₂, htransfer, rfl⟩ := h
  obtain ⟨-, rfl⟩ := transfer_eq_ok htransfer
  have hwrite (t : Storage) (unclaimed amount : ℕ) (request : WithdrawalRequest)
      (event : PoolEvent) :
      ((((t.writeValidatorUnclaimedRewards v unclaimed).payOut amount).writeWithdrawalRequest v
        msg.caller w request).record v event).roster = t.roster :=
    roster_writeValidatorUnclaimedRewards t v unclaimed
  rw [hwrite, roster_decrement]

/-- `handle_external_reward` leaves the roster alone. -/
theorem handleExternalReward_roster (h : handleExternalReward s msg v = .ok answer) :
    answer.storage.roster = s.roster := by
  simp only [handleExternalReward, bind_eq_ok, pure_eq_ok] at h
  obtain ⟨-, -, -, -, -, -, -, -, -, -, _, -, acc, -, unclaimed, -, rfl⟩ := h
  have hwrite (t : Storage) (event : PoolEvent) : ((t.writeValidatorUnclaimedRewards v
      unclaimed).record v event).roster = t.roster :=
    roster_writeValidatorUnclaimedRewards t v unclaimed
  rw [hwrite, roster_writeValidatorAcc]

/-- `handle_syscall_reward` leaves the roster alone. -/
theorem handleSyscallReward_roster {blockAuthor : Address} {blockReward : ℕ}
    (h : handleSyscallReward s msg blockAuthor blockReward = .ok answer) :
    answer.storage.roster = s.roster := by
  simp only [handleSyscallReward, bind_eq_ok, pure_eq_ok] at h
  obtain ⟨-, -, -, -, -, -, -, -, _, -, _, -, _, -, unclaimed, -, s₁, hacc, rfl⟩ := h
  have hroster : s₁.roster = s.roster := by
    unfold applyRewardAcc at hacc
    split at hacc
    next =>
      simp only [bind_eq_ok, pure_eq_ok] at hacc
      obtain ⟨_, -, acc, -, rfl⟩ := hacc
      rw [roster_writeValidatorAcc, roster_writeValidatorUnclaimedRewards]
      rfl
    next =>
      cases hacc
      rw [roster_writeValidatorUnclaimedRewards]
      rfl
  exact hroster

/-- `handle_change_commission` writes one commission, for the validator's auth address. -/
theorem handleChangeCommission_roster {commission : ℕ}
    (h : handleChangeCommission s msg v commission = .ok answer) :
    msg.caller = (s.validators v).authAddress ∧ commission ≤ maxCommission ∧
      (∀ v', answer.storage.pool v' = s.pool v') ∧
      answer.storage.roster = { s.roster with
        commission := Function.update s.roster.commission v commission } := by
  simp only [handleChangeCommission, bind_eq_ok, failIf_eq_ok, not_not, not_lt, gt_iff_lt,
    pure_eq_ok] at h
  obtain ⟨-, -, -, -, -, hcaller, -, hle, rfl⟩ := h
  refine ⟨hcaller, hle, ?_, ?_⟩
  · dsimp only
    split
    · exact (SamePools.writeValidator s v { s.validators v with commission } rfl rfl rfl
        rfl).pool_eq
    · exact fun _ => rfl
  · dsimp only
    split
    next =>
      rw [roster_writeValidator]
      have hauth : (s.validators v).authAddress = s.roster.authAddress v := rfl
      have hflags : (s.validators v).flags = s.roster.flags v := rfl
      simp only [hauth, hflags, Function.update_eq_self]
    next hsame =>
      have hsame : commission = s.roster.commission v := not_not.mp hsame
      rw [hsame, Function.update_eq_self]

/-- An undelegation delists: the record and the stake are final, then flags and lists follow. -/
theorem handleUndelegate_delist {amount : ℕ} {w : WithdrawId} (hamount : amount ≠ 0)
    (h : handleUndelegate s msg v amount w = .ok answer) :
    ∃ s₁ s₂, s₁.roster = s.roster ∧
      (s₁.validators v).stake = (answer.storage.validators v).stake ∧
      s₂.roster = (updateValidatorFlagsAfterUndelegate s₁ v (s₁.validators v)
        (answer.storage.delegators v msg.caller) msg.caller).2.roster ∧
      answer.storage.roster = if (answer.storage.delegators v msg.caller).Exists then s₂.roster
        else (linkedListRemove s₂ v msg.caller).roster := by
  simp only [handleUndelegate, bind_eq_ok, if_neg hamount, pure_eq_ok] at h
  obtain ⟨-, -, -, -, -, -, ⟨del, s₀⟩, hpull, -, -, _, -, left, -, stake, -, rfl⟩ := h
  have hroster := pullDelegatorUpToDate_roster hpull
  dsimp only
  generalize ({ del with
    stake := left
    accumulatedRewardPerToken := if left = 0 then 0 else del.accumulatedRewardPerToken } :
      Delegator) = del'
  have hval : ({ s₀.validators v with stake } : Validator) =
      (s₀.writeValidatorStake v stake).validators v := by
    simp [Storage.writeValidatorStake, Storage.writeValidator]
  rw [hval]
  have hflags := updateFlagsAfterUndelegate_samePools (s₀.writeValidatorStake v stake) v
    ((s₀.writeValidatorStake v stake).validators v) del' msg.caller rfl
  generalize hflagged : (updateValidatorFlagsAfterUndelegate (s₀.writeValidatorStake v stake) v
    ((s₀.writeValidatorStake v stake).validators v) del' msg.caller).2 = s₁ at *
  generalize hs₂ : (incrementAccumulatorRefcount _ v).writeDelegator v msg.caller del' = s₂
  have hstake₂ : (s₂.validators v).stake = stake := by
    have hstake₁ : (s₁.validators v).stake = _ := congrArg Pool.stake (hflags.pool_eq v)
    rw [← hs₂]
    refine hstake₁.trans ?_
    rw [pool_writeValidatorStake]
  have hdel₂ : s₂.delegators v msg.caller = del' := by
    rw [← hs₂]
    exact (congrFun (Function.update_self ..) _).trans (Function.update_self ..)
  have hroster₂ : s₂.roster = s₁.roster := by
    rw [← hs₂]
    rfl
  have hsame := linkedListRemoveIf_samePools s₂ v msg.caller del'
  have hdel : (if del'.Exists then s₂ else linkedListRemove s₂ v msg.caller).delegators v
      msg.caller = del' :=
    (congrFun (congrArg Pool.delegators (hsame.pool_eq v)) msg.caller).trans hdel₂
  have hstake :
      ((if del'.Exists then s₂ else linkedListRemove s₂ v msg.caller).validators v).stake =
      stake := (congrArg Pool.stake (hsame.pool_eq v)).trans hstake₂
  refine ⟨s₀.writeValidatorStake v stake, s₂, ?_, ?_, ?_, ?_⟩
  · rw [roster_writeValidatorStake, hroster]
  · exact (congrArg Validator.stake hval.symm).trans hstake.symm
  · rw [hroster₂, ← hflagged]
    exact congrArg (fun r => (updateValidatorFlagsAfterUndelegate _ v _ r msg.caller).2.roster)
      hdel.symm
  · change (if del'.Exists then s₂ else linkedListRemove s₂ v msg.caller).roster =
      if ((if del'.Exists then s₂ else linkedListRemove s₂ v msg.caller).delegators v
        msg.caller).Exists then _ else _
    rw [hdel]
    split <;> rfl

end Handlers

/-- Stake, principals and roster stay. -/
structure Keeps (s s' : Storage) : Prop where
  roster_eq : s'.roster = s.roster
  stake_eq : ∀ v, (s'.validators v).stake = (s.validators v).stake
  principal_eq : ∀ v d, (s'.delegators v d).principal = (s.delegators v d).principal
  tracked : ∀ v d, (s'.delegators v d).Tracked

/-- An amount joins the stake of a validator and the principal of one of its delegators, who is
then enlisted. -/
structure Joins (v : ValId) (d : Address) (amount : ℕ) (s s' : Storage) : Prop where
  stake_eq : (s'.validators v).stake = (s.validators v).stake + amount
  stake_off : ∀ v', v' ≠ v → (s'.validators v').stake = (s.validators v').stake
  principal_eq : (s'.delegators v d).principal = (s.delegators v d).principal + amount
  principal_off : ∀ v' d', ¬(v' = v ∧ d' = d) →
    (s'.delegators v' d').principal = (s.delegators v' d').principal
  enlisted : ∃ s₁ s₂, s₁.roster = s.roster ∧ s₁.delegators v d = s'.delegators v d ∧
    (s₁.validators v).stake = (s'.validators v).stake ∧
    enlist s₁ v d (s₁.delegators v d) = .ok s₂ ∧ s'.roster = s₂.roster

/-- An amount leaves the stake of a validator and the principal of one of its delegators, who is
delisted when nothing is left. -/
structure Leaves (v : ValId) (d : Address) (amount : ℕ) (s s' : Storage) : Prop where
  stake_eq : (s'.validators v).stake + amount = (s.validators v).stake
  stake_off : ∀ v', v' ≠ v → (s'.validators v').stake = (s.validators v').stake
  principal_eq : (s'.delegators v d).principal + amount = (s.delegators v d).principal
  principal_off : ∀ v' d', ¬(v' = v ∧ d' = d) →
    (s'.delegators v' d').principal = (s.delegators v' d').principal
  delisted : ∃ s₁ s₂, s₁.roster = s.roster ∧ (s₁.validators v).stake = (s'.validators v).stake ∧
    s₂.roster = (updateValidatorFlagsAfterUndelegate s₁ v (s₁.validators v) (s'.delegators v d)
      d).2.roster ∧
    s'.roster = if (s'.delegators v d).Exists then s₂.roster else (linkedListRemove s₂ v d).roster

namespace Keeps

variable {s s' s'' : Storage}

/-- A state keeps its own roster. -/
theorem refl (htracked : ∀ v d, (s.delegators v d).Tracked) : Keeps s s :=
  ⟨rfl, fun _ => rfl, fun _ _ => rfl, htracked⟩

/-- Calls that keep the roster compose. -/
theorem trans (h : Keeps s s') (h' : Keeps s' s'') : Keeps s s'' where
  roster_eq := h'.roster_eq.trans h.roster_eq
  stake_eq v := (h'.stake_eq v).trans (h.stake_eq v)
  principal_eq v d := (h'.principal_eq v d).trans (h.principal_eq v d)
  tracked := h'.tracked

/-- A call that keeps the stake and the principals of its pool keeps all of them. -/
theorem of_pool {v : ValId} (htracked : ∀ v d, (s.delegators v d).Tracked)
    (hroster : s'.roster = s.roster) (htouches : Touches v s s')
    (hstake : (s'.pool v).stake = (s.pool v).stake)
    (hrecord : ∀ d, ((s.pool v).delegators d).Tracked → ((s'.pool v).delegators d).Tracked ∧
      ((s'.pool v).delegators d).principal = ((s.pool v).delegators d).principal) : Keeps s s' := by
  have hall (v' d) : (s'.delegators v' d).Tracked ∧
      (s'.delegators v' d).principal = (s.delegators v' d).principal := by
    by_cases hv : v' = v
    · subst hv
      exact hrecord d (htracked v' d)
    · have hsame : s'.delegators v' d = s.delegators v' d :=
        congrArg (fun p => p.delegators d) (htouches.pool_of_ne v' hv)
      rw [hsame]
      exact ⟨htracked v' d, rfl⟩
  refine ⟨hroster, fun v' => ?_, fun v' d => (hall v' d).2, fun v' d => (hall v' d).1⟩
  by_cases hv : v' = v
  · subst hv
    exact hstake
  · exact congrArg Pool.stake (htouches.pool_of_ne v' hv)

/-- Upkeep of one pool keeps stake and principals. -/
theorem of_upkeep {v : ValId} {d : Address} (htracked : ∀ v d, (s.delegators v d).Tracked)
    (hroster : s'.roster = s.roster) (htouches : Touches v s s')
    (hupkeep : (s.pool v).Upkeep d (s'.pool v)) : Keeps s s' :=
  .of_pool htracked hroster htouches hupkeep.stake_eq hupkeep.record

end Keeps

/-- A record exists exactly when it has a principal. -/
theorem Delegator.exists_iff_principal {r : Delegator} : r.Exists ↔ r.principal ≠ 0 := by
  unfold Delegator.Exists Delegator.principal
  omega

/-- A delegation adds its amount to the principal. -/
theorem Delegator.principal_addTo (r : Delegator) (b : Bool) (epoch amount : ℕ) :
    (r.addTo b epoch amount).principal = r.principal + amount := by
  cases b with
  | false =>
    simp only [principal, addTo, Bool.false_eq_true, if_false]
    omega
  | true =>
    simp only [principal, addTo, if_true]
    omega

section Calls

variable {s s' : Storage} {v : ValId} {d : Address} {amount : ℕ}

/-- Writing one record moves no other principal. -/
theorem principal_off_of_touches (htouches : Touches v s s')
    (hoff : ∀ d', d' ≠ d → (s'.pool v).delegators d' = (s.pool v).delegators d') (v' : ValId)
    (d' : Address) (hne : ¬(v' = v ∧ d' = d)) :
    (s'.delegators v' d').principal = (s.delegators v' d').principal := by
  by_cases hv : v' = v
  · subst hv
    exact congrArg Delegator.principal (hoff d' fun hd => hne ⟨rfl, hd⟩)
  · exact congrArg (fun p => (p.delegators d').principal) (htouches.pool_of_ne v' hv)

/-- `internal_delegate` touches its validator. -/
theorem internalDelegate_touches (h : internalDelegate s v d amount = .ok s') : Touches v s s' := by
  obtain ⟨del, s₁, hpull, -, htouches, -⟩ := internalDelegate_join h
  exact (pullDelegatorUpToDate_touches hpull).1.trans htouches

/-- `internal_delegate` joins. -/
theorem internalDelegate_joins (htracked : (s.delegators v d).Tracked)
    (h : internalDelegate s v d amount = .ok s') : Joins v d amount s s' := by
  have htouches := internalDelegate_touches h
  have hupkeep := (s.pool v).pulled_upkeep s.epoch d
  have hpool := internalDelegate_pool h
  have hrecord : (s'.pool v).delegators d = (((s.pool v).pulled s.epoch d).delegators d).addTo
      s.inBoundary (activationEpoch s.epoch s.inBoundary) amount := by
    rw [hpool]
    exact Function.update_self ..
  refine ⟨?_, fun v' hv => congrArg Pool.stake (htouches.pool_of_ne v' hv), ?_,
    principal_off_of_touches htouches fun d' hd => ?_, internalDelegate_enlist h⟩
  · have hstake : (s'.pool v).stake = ((s.pool v).pulled s.epoch d).stake + amount := by
      rw [hpool]
      rfl
    rw [hupkeep.stake_eq] at hstake
    exact hstake
  · have hprincipal := congrArg Delegator.principal hrecord
    rw [Delegator.principal_addTo, (hupkeep.principal_eq htracked).2] at hprincipal
    exact hprincipal
  · rw [hpool, ← hupkeep.off d' hd]
    exact Function.update_of_ne hd ..

/-- `handle_undelegate` of an amount leaves. -/
theorem handleUndelegate_leaves {msg : Message} {w : WithdrawId} {answer : Answer}
    (htracked : (s.delegators v msg.caller).Tracked) (hamount : amount ≠ 0)
    (h : handleUndelegate s msg v amount w = .ok answer) :
    ∃ taken, taken ≠ 0 ∧ Leaves v msg.caller taken s answer.storage := by
  obtain ⟨-, -, del, s₁, hpull, hle, hstake, htouches₂, -, hleave⟩ :=
    handleUndelegate_leave hamount h
  obtain ⟨htouches, -, hdel⟩ := pullDelegatorUpToDate_touches hpull
  have hpool := pullDelegatorUpToDate_pool hpull
  have hupkeep := (s.pool v).pulled_upkeep s.epoch msg.caller
  rw [← hpool] at hupkeep
  subst hdel
  refine ⟨leaving (s₁.delegators v msg.caller).stake amount, leaving_ne_zero hamount, ?_,
    fun v' hv => congrArg Pool.stake ((htouches.trans htouches₂).pool_of_ne v' hv), ?_,
    principal_off_of_touches (htouches.trans htouches₂) fun d' hd => ?_,
    handleUndelegate_delist hamount h⟩
  · have hleft : (answer.storage.pool v).stake =
        (s₁.pool v).stake - leaving (s₁.delegators v msg.caller).stake amount := by
      rw [hleave]
      rfl
    have hkept : (s₁.validators v).stake = (s.validators v).stake := hupkeep.stake_eq
    change (answer.storage.pool v).stake + _ = _
    rw [hleft, ← hkept]
    exact Nat.sub_add_cancel hstake
  · have hrecord : answer.storage.delegators v msg.caller = (s₁.delegators v msg.caller).removed
        (leaving (s₁.delegators v msg.caller).stake amount) := by
      change (answer.storage.pool v).delegators msg.caller = _
      rw [hleave]
      exact Function.update_self ..
    rw [hrecord, Delegator.principal_removed hle]
    exact (hupkeep.principal_eq htracked).2
  · rw [hleave, ← hupkeep.off d' hd]
    exact Function.update_of_ne hd ..

/-- What `handle_add_validator` has checked when it creates its validator and delegates for it. -/
theorem handleAddValidator_creates {msg : Message} {payload : Bytes} {answer : Answer}
    (h : handleAddValidator s msg payload = .ok answer) :
    ∃ v s₁ secpPubkey blsPubkey authAddress commission,
      createValidator s secpPubkey blsPubkey authAddress commission = .ok (v, s₁) ∧
      commission ≤ maxCommission ∧ minAuthAddressStake ≤ msg.callValue ∧
      internalDelegate s₁ v authAddress msg.callValue = .ok answer.storage := by
  simp only [handleAddValidator, bind_eq_ok, failIf_eq_ok, not_not, pure_eq_ok, not_lt,
    gt_iff_lt] at h
  obtain ⟨-, -, -, -, -, -, -, hmin, -, hle, ⟨v, s₁⟩, hcreate, s₂, hdelegate, rfl⟩ := h
  exact ⟨v, s₁, _, _, _, _, hcreate, hle, hmin, hdelegate⟩

/-- Neither the zero address nor the sentinel delegates, to no reserved id. -/
theorem internalDelegate_not_reserved (h : internalDelegate s v d amount = .ok s') :
    d ≠ 0 ∧ d ≠ sentinelAddress ∧ v ≠ 0 ∧ v ≠ sentinelValId := by
  obtain ⟨s₁, s₂, -, -, -, henlist, -⟩ := internalDelegate_enlist h
  simp only [enlist, linkedListInsert, linkedListInsertAddress, linkedListInsertValId, bind_eq_ok,
    failIf_eq_ok, not_or] at henlist
  obtain ⟨_, ⟨-, ⟨hzero, hsentinel⟩, -⟩, -, ⟨hvzero, hvsentinel⟩, -⟩ := henlist
  exact ⟨hzero, hsentinel, hvzero, hvsentinel⟩

end Calls

end SuwappuRevm.Staking
