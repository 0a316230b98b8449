import SuwappuRevm.Staking.RecordSettlement
import SuwappuRevm.Staking.SettlementProgress
import SuwappuRevm.Staking.Shell

/-!
# Twin states

Two solvent states are twins when they differ in nothing but the account of one delegator with one
validator, and in what its settlements have moved: entries, unclaimed rewards and history. A
settlement of any other account gives the same record in both, so whatever others do succeeds in
both or in neither, and leads to states with the same shell.
-/

namespace SuwappuRevm.Staking

open Foundations

section Accounts

variable {v v' : ValId} {s t s' t' : Storage}

/-- Storage with the accounts of a pool. -/
def Storage.withAccounts (s : Storage) (v : ValId) (p : Pool) : Storage :=
  { s with
    validators := Function.update s.validators v
      { s.validators v with unclaimedRewards := p.unclaimed }
    delegators := Function.update s.delegators v p.delegators
    accumulators := fun k => Function.update (s.accumulators k) v (p.accumulators k)
    history := Function.update s.history v p.history }

/-- Storage is its shell with the accounts of its pool. -/
theorem withAccounts_shell (s : Storage) (v : ValId) :
    (s.shell v).withAccounts v (s.pool v) = s := by
  simp [Storage.withAccounts, Storage.shell, Storage.pool, Validator.shell]

/-- The accounts of one validator are part of the shell of another. -/
theorem SameShell.withAccounts (h : SameShell v s t) (hv : v' ≠ v) (p : Pool) :
    SameShell v (s.withAccounts v' p) (t.withAccounts v' p) := by
  refine h.commutes (f := fun s => s.withAccounts v' p) fun s => ?_
  simp [Storage.withAccounts, Storage.shell, hv, Ne.symm hv, Function.update_comm hv]

/-- The shells of two validators. -/
theorem shell_comm (s : Storage) (hv : v' ≠ v) :
    (s.shell v').shell v = (s.shell v).shell v' := by
  simp [Storage.shell, hv, Ne.symm hv, Function.update_comm hv]

/-- The pools of the other validators are the same. -/
theorem SameShell.pool_eq (h : SameShell v s t) (hv : v' ≠ v) : s.pool v' = t.pool v' := by
  simp only [Storage.pool, h.history_of_ne hv, h.validator_of_ne hv, h.delegators_of_ne hv,
    h.withdrawals_eq, h.accumulators_of_ne hv, h.consensusView_eq, h.snapshotView_eq,
    h.consensus_eq, h.snapshot_eq]

/-- The same change to the accounts of another validator. -/
theorem SameShell.of_pool (h : SameShell v s t) (hv : v' ≠ v) (hs : SameShell v' s s')
    (ht : SameShell v' t t') (hpool : s'.pool v' = t'.pool v') : SameShell v s' t' := by
  have hshell : SameShell v (s.shell v') (t.shell v') := by
    rw [SameShell, shell_comm s hv, shell_comm t hv, show s.shell v = t.shell v from h]
  have hsame := hshell.withAccounts hv (s'.pool v')
  rw [show s.shell v' = s'.shell v' from hs, withAccounts_shell, hpool,
    show t.shell v' = t'.shell v' from ht, withAccounts_shell] at hsame
  exact hsame

end Accounts

/-- A settlement keeps all pools solvent. -/
theorem pullDelegatorUpToDate_solvent {v' : ValId} {d : Address} {s s' : Storage} {del : Delegator}
    (hcur : s.epoch + 2 < 2 ^ 64) (hs : ∀ v, (s.pool v).Solvent s.epoch s.inBoundary)
    (h : pullDelegatorUpToDate s v' d = .ok (del, s')) (v : ValId) :
    (s'.pool v).Solvent s'.epoch s'.inBoundary := by
  obtain ⟨htouches, -, -⟩ := pullDelegatorUpToDate_touches h
  rw [htouches.epoch_eq, htouches.inBoundary_eq]
  by_cases hv : v = v'
  · subst hv
    obtain ⟨hquiet, -⟩ := pullDelegatorUpToDate_spec (by omega) ((hs v).epochs d) h
    exact hquiet.solvent hcur (hs v)
  · rw [htouches.pool_of_ne v hv]
    exact hs v

/-- Two solvent states that differ in no more than the account of a delegator with a validator, and
in what settlements of it have moved. -/
structure Twins (v : ValId) (d : Address) (s t : Storage) : Prop where
  shell : SameShell v s t
  delegators_eq : ∀ d', d' ≠ d → s.delegators v d' = t.delegators v d'
  log_eq : (s.pool v).log = (t.pool v).log
  epoch_lt : s.epoch + 2 < 2 ^ 64
  solvent_left : ∀ v', (s.pool v').Solvent s.epoch s.inBoundary
  solvent_right : ∀ v', (t.pool v').Solvent t.epoch t.inBoundary

namespace Twins

variable {v v' : ValId} {d d' : Address} {s t s' t' : Storage}

/-- Twins are twins of each other. -/
theorem symm (h : Twins v d s t) : Twins v d t s where
  shell := h.shell.symm
  delegators_eq d' hd := (h.delegators_eq d' hd).symm
  log_eq := h.log_eq.symm
  epoch_lt := by
    rw [← h.shell.epoch_eq]
    exact h.epoch_lt
  solvent_left := h.solvent_right
  solvent_right := h.solvent_left

/-- The records of other accounts are the same. -/
theorem record_eq (h : Twins v d s t) (hne : v' = v → d' ≠ d) :
    s.delegators v' d' = t.delegators v' d' := by
  by_cases hv : v' = v
  · subst hv
    exact h.delegators_eq d' (hne rfl)
  · rw [h.shell.delegators_of_ne hv]

/-- A settlement of equal records gives equal records. -/
theorem pulled_record (h : Twins v d s t) (hsame : s.delegators v' d' = t.delegators v' d') :
    ((s.pool v').pulled s.epoch d').delegators d' =
      ((t.pool v').pulled t.epoch d').delegators d' := by
  by_cases hv : v' = v
  · subst hv
    have hcur : s.epoch + 1 < 2 ^ 64 := by have hlt := h.epoch_lt; omega
    have hcur' : t.epoch + 1 < 2 ^ 64 := by rwa [← h.shell.epoch_eq]
    have hrecord : (s.pool v').delegators d' = (t.pool v').delegators d' := hsame
    rw [(h.solvent_left v').sound.pulled_record hcur (h.solvent_left v').epochs,
      (h.solvent_right v').sound.pulled_record hcur' (h.solvent_right v').epochs, hrecord,
      h.log_eq, h.shell.epoch_eq]
  · rw [h.shell.pool_eq hv, h.shell.epoch_eq]

/-- The shells after a settlement of one account in both. -/
theorem pull_shell (h : Twins v d s t) {del del' : Delegator}
    (hs : pullDelegatorUpToDate s v' d' = .ok (del, s'))
    (ht : pullDelegatorUpToDate t v' d' = .ok (del', t')) : SameShell v s' t' := by
  have hshell : SameShell v' s s' := (pullDelegatorUpToDate_shell hs).symm
  have hshell' : SameShell v' t t' := (pullDelegatorUpToDate_shell ht).symm
  by_cases hv : v' = v
  · subst hv
    exact hshell.symm.trans (h.shell.trans hshell')
  · refine h.shell.of_pool hv hshell hshell' ?_
    rw [pullDelegatorUpToDate_pool hs, pullDelegatorUpToDate_pool ht, h.shell.pool_eq hv,
      h.shell.epoch_eq]

/-- A settlement of an account with equal records goes through in both, with the same record, and
leaves twins. -/
theorem pull (h : Twins v d s t) (hsame : s.delegators v' d' = t.delegators v' d') :
    Follows (fun x y => x.1 = y.1 ∧ x.2.delegators v' d' = x.1 ∧ y.2.delegators v' d' = y.1 ∧
      Twins v d x.2 y.2) (pullDelegatorUpToDate s v' d') (pullDelegatorUpToDate t v' d') := by
  have hlt := h.epoch_lt
  have hlt' := h.symm.epoch_lt
  rintro ⟨del, s'⟩ hs
  obtain ⟨del', t', ht, -⟩ := pullDelegatorUpToDate_succeeds hlt' (h.solvent_right v') d'
  have hdel := pullDelegatorUpToDate_record hs
  have hdel' := pullDelegatorUpToDate_record ht
  obtain ⟨htouches, -, hself⟩ := pullDelegatorUpToDate_touches hs
  obtain ⟨htouches', -, hself'⟩ := pullDelegatorUpToDate_touches ht
  have hpool := pullDelegatorUpToDate_pool hs
  have hpool' := pullDelegatorUpToDate_pool ht
  have hrecord := h.pulled_record hsame
  refine ⟨(del', t'), ht, ?_, hself, hself', h.pull_shell hs ht, fun c hc => ?_, ?_, ?_,
    pullDelegatorUpToDate_solvent hlt h.solvent_left hs,
    pullDelegatorUpToDate_solvent hlt' h.solvent_right ht⟩
  · rw [← hdel, ← hdel', hrecord]
  · change (s'.pool v).delegators c = (t'.pool v).delegators c
    by_cases hv : v = v'
    · subst hv
      rw [hpool, hpool']
      by_cases hcd : c = d'
      · rw [hcd, hrecord]
      · rw [(Pool.pulled_upkeep ..).off c hcd, (Pool.pulled_upkeep ..).off c hcd]
        exact h.delegators_eq c hc
    · rw [htouches.pool_of_ne v hv, htouches'.pool_of_ne v hv]
      exact h.delegators_eq c hc
  · by_cases hv : v = v'
    · subst hv
      rw [hpool, hpool', Pool.pulled_log, Pool.pulled_log, h.log_eq]
    · rw [htouches.pool_of_ne v hv, htouches'.pool_of_ne v hv, h.log_eq]
  · rw [htouches.epoch_eq]
    exact hlt

/-- Taking the same credited rewards leaves twins. -/
theorem takeRewards (h : Twins v d s t) {del : Delegator}
    (hs : s.delegators v' d' = del) (ht : t.delegators v' d' = del) (hrewards : del.rewards ≠ 0) :
    Twins v d (takeRewards s v' d' del) (takeRewards t v' d' del) := by
  have hsolvent {u : Storage} (hu : u.delegators v' d' = del) (hcur : u.epoch + 2 < 2 ^ 64)
      (hp : ∀ v, (u.pool v).Solvent u.epoch u.inBoundary) (v'' : ValId) :
      ((Staking.takeRewards u v' d' del).pool v'').Solvent u.epoch u.inBoundary := by
    obtain ⟨htouches, -, hquiet⟩ := takeRewards_quiet hu hrewards
    by_cases hv : v'' = v'
    · subst hv
      exact (Pool.QuietRun.single hquiet).solvent hcur (hp v'')
    · rw [htouches.pool_of_ne v'' hv]
      exact hp v''
  have hrecord (u : Storage) (c : Address) (hc : c ≠ d) :
      (Staking.takeRewards u v' d' del).delegators v c =
        if v = v' ∧ c = d' then { del with rewards := 0 } else u.delegators v c := by
    by_cases hv : v = v'
    · subst hv
      by_cases hcd : c = d'
      · subst hcd
        rw [if_pos ⟨rfl, rfl⟩]
        simp [Staking.takeRewards, Storage.record, Storage.writeDelegator]
      · rw [if_neg fun hcell => hcd hcell.2]
        simp [Staking.takeRewards, Storage.record, Storage.writeDelegator, hcd]
    · rw [if_neg fun hcell => hv hcell.1]
      simp [Staking.takeRewards, Storage.record, Storage.writeDelegator, hv]
  have hlog (u : Storage) : ((Staking.takeRewards u v' d' del).pool v).log = (u.pool v).log := by
    by_cases hv : v = v'
    · subst hv
      rw [Staking.takeRewards, pool_record, pool_writeDelegator]
      exact Pool.log_record _ rfl
    · have htouches : Touches v' u (Staking.takeRewards u v' d' del) :=
        (Touches.writeDelegator ..).trans (.record ..)
      rw [htouches.pool_of_ne v hv]
  refine ⟨h.shell.takeRewards v' d' del, fun c hc => ?_, ?_, h.epoch_lt,
    hsolvent hs h.epoch_lt h.solvent_left, hsolvent ht h.symm.epoch_lt h.solvent_right⟩
  · rw [hrecord s c hc, hrecord t c hc, h.delegators_eq c hc]
  · rw [hlog, hlog, h.log_eq]

/-- A delegation of an account with equal records. -/
theorem internalDelegate (h : Twins v d s t) (hsame : s.delegators v' d' = t.delegators v' d')
    (amount : ℕ) :
    Follows (SameShell v) (internalDelegate s v' d' amount) (internalDelegate t v' d' amount) := by
  unfold Staking.internalDelegate
  refine (h.pull hsame).bind ?_
  rintro ⟨del, s₁⟩ ⟨del', t₁⟩ ⟨rfl, -, -, h₁⟩
  refine (h₁.shell.addDelegation v' d' amount del).bind ?_
  rintro ⟨r, s₂⟩ ⟨r', t₂⟩ ⟨rfl, h₂⟩
  refine (h₂.enlist v' d' r).bind fun s₃ t₃ h₃ => ?_
  rw [h₃.getActivationEpoch_eq]
  exact follows_ok (h₃.record v' fun _ => rfl)

end Twins

section Calls

variable {v v' : ValId} {d d' : Address} {s t : Storage} {msg : Message}

/-- Answers whose storages have the same shell. -/
def SameAnswer (v : ValId) (answer answer' : Answer) : Prop :=
  SameShell v answer.storage answer'.storage

namespace Twins

/-- `handle_delegate` of an account with equal records. -/
theorem handleDelegate (h : Twins v d s t)
    (hsame : s.delegators v' msg.caller = t.delegators v' msg.caller) :
    Follows (SameAnswer v) (handleDelegate s msg v') (handleDelegate t msg v') := by
  have hexists : (s.validators v').Exists ↔ (t.validators v').Exists := by
    unfold Validator.Exists
    rw [h.shell.authAddress_eq]
  unfold Staking.handleDelegate
  refine follows_failIf id fun _ => follows_failIf (by rw [hexists]; exact id) fun _ => ?_
  refine follows_ite (fun _ => follows_ok h.shell) fun _ => ?_
  refine follows_failIf id fun _ => (h.internalDelegate hsame msg.callValue).bind fun _ _ h => ?_
  exact follows_ok h

/-- `handle_claim_rewards` of an account with equal records. -/
theorem handleClaimRewards (h : Twins v d s t)
    (hsame : s.delegators v' msg.caller = t.delegators v' msg.caller) :
    Follows (SameAnswer v) (handleClaimRewards s msg v') (handleClaimRewards t msg v') := by
  unfold Staking.handleClaimRewards
  refine follows_failIf id fun _ => (h.pull hsame).bind ?_
  rintro ⟨del, s₁⟩ ⟨del', t₁⟩ ⟨rfl, -, -, h₁⟩
  refine follows_ite (fun _ => follows_ok h₁.shell) fun _ => ?_
  refine (h₁.shell.transfer msg del.rewards).bind fun s₂ t₂ h₂ => ?_
  exact follows_ok (h₂.takeRewards v' msg.caller del)

/-- `handle_compound` of an account with equal records. -/
theorem handleCompound (h : Twins v d s t)
    (hsame : s.delegators v' msg.caller = t.delegators v' msg.caller) :
    Follows (SameAnswer v) (handleCompound s msg v') (handleCompound t msg v') := by
  unfold Staking.handleCompound
  refine follows_failIf id fun _ => (h.pull hsame).bind ?_
  rintro ⟨del, s₁⟩ ⟨del', t₁⟩ ⟨rfl, hs₁, ht₁, h₁⟩
  refine follows_ite (fun _ => follows_ok h₁.shell) fun hrewards => ?_
  have hsame₂ : (Staking.takeRewards s₁ v' msg.caller del).delegators v' msg.caller =
      (Staking.takeRewards t₁ v' msg.caller del).delegators v' msg.caller := by
    simp [Staking.takeRewards, Storage.record, Storage.writeDelegator]
  have h₂ := h₁.takeRewards hs₁ ht₁ hrewards
  exact (h₂.internalDelegate hsame₂ del.rewards).bind fun _ _ h => follows_ok h

/-- `handle_get_delegator_write` naming any account. -/
theorem handleGetDelegatorWrite (h : Twins v d s t) :
    Follows (SameAnswer v) (handleGetDelegatorWrite s msg v' d')
      (handleGetDelegatorWrite t msg v' d') := by
  unfold Staking.handleGetDelegatorWrite
  refine follows_failIf id fun _ => ?_
  have hpull : Follows (fun x y => SameShell v x.2 y.2) (pullDelegatorUpToDate s v' d')
      (pullDelegatorUpToDate t v' d') := by
    rintro ⟨del, s'⟩ hs
    obtain ⟨del', t', ht, -⟩ :=
      pullDelegatorUpToDate_succeeds h.symm.epoch_lt (h.solvent_right v') d'
    exact ⟨(del', t'), ht, h.pull_shell hs ht⟩
  exact hpull.bind fun _ _ h => follows_ok h

/-- `handle_undelegate` of an account with equal records. -/
theorem handleUndelegate (h : Twins v d s t)
    (hsame : s.delegators v' msg.caller = t.delegators v' msg.caller)
    (amount : ℕ) (w : WithdrawId) :
    Follows (SameAnswer v) (handleUndelegate s msg v' amount w)
      (handleUndelegate t msg v' amount w) := by
  have hexists : (s.validators v').Exists ↔ (t.validators v').Exists := by
    unfold Validator.Exists
    rw [h.shell.authAddress_eq]
  unfold Staking.handleUndelegate
  rw [h.shell.withdrawals_eq]
  refine follows_failIf id fun _ => follows_ite (fun _ => follows_ok h.shell) fun _ => ?_
  refine follows_failIf (by rw [hexists]; exact id) fun _ => follows_failIf id fun _ => ?_
  refine (h.pull hsame).bind ?_
  rintro ⟨del, s₁⟩ ⟨del', t₁⟩ ⟨rfl, -, -, h₁⟩
  refine follows_failIf id fun _ => follows_bind_same _ fun remaining _ => ?_
  refine follows_bind_same _ fun left _ => ?_
  dsimp only
  rw [h₁.shell.stake_eq]
  refine follows_bind_same _ fun stake _ => follows_ok ?_
  have hval : ({ s₁.validators v' with stake } : Validator).shell =
      ({ t₁.validators v' with stake } : Validator).shell :=
    congrArg (fun val : Validator => { val with stake }) (h₁.shell.validator_eq v')
  have hflags := (h₁.shell.writeValidatorStake v' stake).updateFlagsAfterUndelegate v' hval
    { del with
      stake := left
      accumulatedRewardPerToken := if left = 0 then 0 else del.accumulatedRewardPerToken }
    msg.caller
  rw [hflags.getActivationEpoch_eq]
  refine SameShell.record ?_ v' fun _ => rfl
  have hentered (request : WithdrawalRequest) :=
    (hflags.writeWithdrawalRequest v' msg.caller w request).incrementAccumulatorRefcount v'
  exact ((hentered _).writeDelegator v' msg.caller fun _ => rfl).linkedListRemoveIf _ v' msg.caller

/-- The rewards of a ready request are the same. -/
theorem readyRewards_eq (h : Twins v d s t) {w : WithdrawId}
    (hready : (s.withdrawals v' d' w).Ready s.epoch) :
    readyRewards s v' d' w = readyRewards t v' d' w := by
  obtain ⟨hamount, -, hle⟩ := hready
  have hbegun : (s.withdrawals v' d' w).epoch ≤ s.epoch := le_of_add_le_left hle
  by_cases hv : v' = v
  · subst hv
    obtain ⟨-, hvalue, -⟩ := (h.solvent_left v').sound.request_share (h.solvent_left v').bound
      hamount hbegun
    have hopen : ((t.pool v').withdrawals d' w).amount ≠ 0 := by
      change (t.withdrawals v' d' w).amount ≠ 0
      rwa [← h.shell.withdrawals_eq]
    have hbegun' : ((t.pool v').withdrawals d' w).epoch ≤ t.epoch := by
      change (t.withdrawals v' d' w).epoch ≤ t.epoch
      rwa [← h.shell.withdrawals_eq, ← h.shell.epoch_eq]
    obtain ⟨-, hvalue', -⟩ := (h.solvent_right v').sound.request_share (h.solvent_right v').bound
      hopen hbegun'
    have hentry : (s.accumulators (s.withdrawals v' d' w).epoch v').value =
        (s.pool v').indexAt (s.withdrawals v' d' w).epoch := hvalue
    have hentry' : (t.accumulators (t.withdrawals v' d' w).epoch v').value =
        (t.pool v').indexAt (t.withdrawals v' d' w).epoch := hvalue'
    rw [readyRewards, readyRewards, hentry, hentry', Pool.indexAt, Pool.indexAt, h.log_eq,
      h.shell.withdrawals_eq]
  · rw [readyRewards, readyRewards, h.shell.withdrawals_eq, h.shell.accumulators_of_ne hv]

/-- `handle_withdraw` of any account. -/
theorem handleWithdraw (h : Twins v d s t) (w : WithdrawId) :
    Follows (SameAnswer v) (handleWithdraw s msg v' w) (handleWithdraw t msg v' w) := by
  intro answer hs
  have hgas : gas.withdraw ≤ msg.gasLimit := by
    simp only [Staking.handleWithdraw, bind_eq_ok, failIf_eq_ok, not_lt] at hs
    obtain ⟨-, hgas, -⟩ := hs
    exact hgas
  obtain ⟨hamount, hepoch, hactive, hdelay, -⟩ := handleWithdraw_pay hs
  have hlt := h.epoch_lt
  have hready : (s.withdrawals v' msg.caller w).Ready s.epoch := by
    have hone : withdrawalDelay = 1 := rfl
    rw [hone, u64Add_one (by omega)] at hdelay
    exact ⟨hamount, hepoch, hdelay⟩
  have hready' : (t.withdrawals v' msg.caller w).Ready t.epoch := by
    rwa [← h.shell.withdrawals_eq, ← h.shell.epoch_eq]
  have hrewards := h.readyRewards_eq hready
  have hreleased := (h.shell.decrementAccumulatorRefcount
    (t.withdrawals v' msg.caller w).epoch v').1
  have hsource : SameShell v (withdrawing s v' msg.caller w) (withdrawing t v' msg.caller w) := by
    rw [withdrawing, withdrawing, hrewards, h.shell.withdrawals_eq]
    refine hreleased.writeValidatorUnclaimedRewards v' fun hv => ?_
    rw [h.shell.validator_of_ne hv]
  revert answer
  rw [handleWithdraw_ready (h.solvent_left v') hgas hready,
    handleWithdraw_ready (h.solvent_right v') hgas hready', ← hrewards, ← h.shell.withdrawals_eq]
  intro answer hs
  refine (hsource.transfer msg _).bind (fun s₁ t₁ h₁ => ?_) answer hs
  exact follows_ok ((h₁.writeWithdrawalRequest v' msg.caller w .zero).record v' fun _ => rfl)

/-- The unclaimed rewards of the second state are bounded as well. -/
theorem unclaimed_lt (h : Twins v d s t) (v' : ValId) :
    (t.validators v').unclaimedRewards < 2 ^ 128 := by
  have hbound := (h.solvent_right v').bound
  have hunclaimed : (t.validators v').unclaimedRewards = (t.pool v').unclaimed := rfl
  rw [hunclaimed]
  refine lt_of_le_of_lt ?_ hbound
  rw [Pool.liabilities, Nat.add_assoc]
  exact Nat.le_add_right ..

/-- Adding a reward to the unclaimed ones. -/
theorem addUnclaimed (h : Twins v d s t) {amount : ℕ} (hamount : amount < 2 ^ 128) :
    Follows (fun x y => v' ≠ v → x = y)
      (checkedAdd internalError (s.validators v').unclaimedRewards amount)
      (checkedAdd internalError (t.validators v').unclaimedRewards amount) := by
  intro unclaimed hs
  obtain ⟨-, rfl⟩ := checkedAdd_eq_ok.mp hs
  have hunclaimed := h.unclaimed_lt v'
  have hword : (2 : ℕ) ^ 128 + 2 ^ 128 < wordBound := by decide
  refine ⟨_, checkedAdd_eq_ok.mpr ⟨by omega, rfl⟩, fun hv => ?_⟩
  rw [h.shell.validator_of_ne hv]

/-- `handle_external_reward`. -/
theorem handleExternalReward (h : Twins v d s t) :
    Follows (SameAnswer v) (handleExternalReward s msg v') (handleExternalReward t msg v') := by
  have hexists : (s.validators v').Exists ↔ (t.validators v').Exists := by
    unfold Validator.Exists
    rw [h.shell.authAddress_eq]
  unfold Staking.handleExternalReward
  rw [h.shell.activeStake_eq]
  refine follows_failIf id fun _ => follows_failIf (by rw [hexists]; exact id) fun _ => ?_
  refine follows_failIf id fun _ => follows_failIf id fun _ => follows_failIf id fun hlarge => ?_
  refine follows_bind_same _ fun rewardAcc _ => ?_
  rw [h.shell.acc_eq]
  refine follows_bind_same _ fun newAcc _ => ?_
  have hamount : msg.callValue < 2 ^ 128 := by
    have hmax : maxExternalReward < 2 ^ 128 := by decide
    omega
  refine (h.addUnclaimed hamount).bind fun unclaimed unclaimed' hunclaimed => follows_ok ?_
  have hwritten :=
    (h.shell.writeValidatorAcc v' newAcc).writeValidatorUnclaimedRewards v' hunclaimed
  refine hwritten.record v' fun _ => ?_
  rw [hwritten.epoch_eq]

/-- Adding a commission to the rewards of an account. -/
theorem addCommission (h : Twins v d s t) {amount : ℕ} (hamount : amount < 2 ^ 128) :
    Follows (fun x y => v' ≠ v → x = y)
      (checkedAdd internalError (s.delegators v' d').rewards amount)
      (checkedAdd internalError (t.delegators v' d').rewards amount) := by
  intro rewards hs
  obtain ⟨-, rfl⟩ := checkedAdd_eq_ok.mp hs
  have hrewards : (t.delegators v' d').rewards < 2 ^ 128 := by
    have hle := Pool.held_le (t.pool v') d'
    have hheld : (t.delegators v' d').rewards ≤ Pool.held ((t.pool v').delegators d') :=
      Nat.le_add_left ..
    have hbound := (h.solvent_right v').bound
    omega
  have hword : (2 : ℕ) ^ 128 + 2 ^ 128 < wordBound := by decide
  refine ⟨_, checkedAdd_eq_ok.mpr ⟨by omega, rfl⟩, fun hv => ?_⟩
  rw [h.shell.delegators_of_ne hv]

/-- `handle_syscall_reward` of a bounded block reward. -/
theorem handleSyscallReward (h : Twins v d s t) (blockAuthor : Address) {blockReward : ℕ}
    (hreward : blockReward < 2 ^ 128) :
    Follows (SameAnswer v) (handleSyscallReward s msg blockAuthor blockReward)
      (handleSyscallReward t msg blockAuthor blockReward) := by
  unfold Staking.handleSyscallReward
  dsimp only
  rw [h.shell.valIdSecp_eq, h.shell.activeStake_eq, h.shell.viewCommission_eq]
  refine follows_failIf id fun _ => follows_failIf id fun _ => follows_failIf id fun _ => ?_
  refine follows_failIf id fun _ => follows_bind_same _ fun commission hcommission => ?_
  refine follows_bind_same _ fun delReward hdelReward => ?_
  obtain ⟨hle, rfl⟩ := checkedSub_eq_ok.mp hdelReward
  generalize t.valIdSecp blockAuthor = v'
  rw [h.shell.authAddress_eq, h.shell.acc_eq]
  refine (h.addCommission (hle.trans_lt hreward)).bind fun rewards rewards' hrewards => ?_
  have hcredited : SameShell v
      ((s.writeDelegator v' (t.validators v').authAddress
        { s.delegators v' (t.validators v').authAddress with rewards }).record v'
          (.commission (t.validators v').authAddress commission))
      ((t.writeDelegator v' (t.validators v').authAddress
        { t.delegators v' (t.validators v').authAddress with rewards := rewards' }).record v'
          (.commission (t.validators v').authAddress commission)) := by
    refine .record (h.shell.writeDelegator v' _ fun hv => ?_) v' fun _ => rfl
    rw [h.shell.delegators_of_ne hv, hrewards hv]
  have hdel : blockReward - commission < 2 ^ 128 := (Nat.sub_le ..).trans_lt hreward
  refine (h.addUnclaimed hdel).bind fun unclaimed unclaimed' hunclaimed => ?_
  refine ((hcredited.writeValidatorUnclaimedRewards v' hunclaimed).applyRewardAcc v' _ _ _).bind
    fun s₁ t₁ h₁ => follows_ok ?_
  have hproposed := h₁.commutes (f := fun s => { s with proposerValId := v' }) fun _ => rfl
  refine hproposed.record v' fun _ => ?_
  rw [h₁.epoch_eq]

/-- `handle_change_commission`. -/
theorem handleChangeCommission (h : SameShell v s t) (commission : ℕ) :
    Follows (SameAnswer v) (handleChangeCommission s msg v' commission)
      (handleChangeCommission t msg v' commission) := by
  have hexists : (s.validators v').Exists ↔ (t.validators v').Exists := by
    unfold Validator.Exists
    rw [h.authAddress_eq]
  unfold Staking.handleChangeCommission
  refine follows_failIf id fun _ => follows_failIf (by rw [hexists]; exact id) fun _ => ?_
  refine follows_failIf (by rw [h.authAddress_eq]; exact id) fun _ => ?_
  rw [h.commission_eq]
  refine follows_failIf id fun _ => follows_ok ?_
  have hwrite : SameShell v (s.writeValidator v' { s.validators v' with commission })
      (t.writeValidator v' { t.validators v' with commission }) := by
    refine h.writeValidator v' ?_ fun hv => by rw [h.validator_of_ne hv]
    exact congrArg (fun val : Validator => { val with commission }) (h.validator_eq v')
  change SameShell v (if _ then _ else _) (if _ then _ else _)
  split
  · exact hwrite
  · exact h

/-- Creating a validator leaves twins, and no account with the new one. -/
theorem createValidator (h : Twins v d s t) (hs : Registered s) (ht : Registered t)
    (secpPubkey blsPubkey : Bytes) (authAddress : Address) (commission : ℕ) :
    Follows (fun x y => x.1 = y.1 ∧ (∀ d', x.2.delegators x.1 d' = y.2.delegators x.1 d') ∧
        Twins v d x.2 y.2)
      (createValidator s secpPubkey blsPubkey authAddress commission)
      (createValidator t secpPubkey blsPubkey authAddress commission) := by
  rintro ⟨v', s'⟩ hcreate
  obtain ⟨⟨v'', t'⟩, hcreate', rfl, hshell⟩ :=
    h.shell.createValidator secpPubkey blsPubkey authAddress commission _ hcreate
  obtain ⟨hid, -, hpool, -, hepoch, hboundary, -⟩ := createValidator_spec hs hcreate
  obtain ⟨hid', -, hpool', -, hepoch', hboundary', -⟩ := createValidator_spec ht hcreate'
  dsimp only at hid hid'
  have hrecord (u u' : Storage) (hu : ∀ v, u'.pool v = u.pool v) (w : ValId) :
      u'.delegators w = u.delegators w := congrArg Pool.delegators (hu w)
  refine ⟨(v', t'), hcreate', rfl, fun d' => ?_, hshell, fun d' hd => ?_, ?_, ?_, fun w => ?_,
    fun w => ?_⟩
  · rw [hrecord s s' hpool, hrecord t t' hpool']
    have hzero := (hs.fresh v' (by rw [Fin.lt_def]; omega)).delegators_eq d'
    have hzero' := (ht.fresh v' (by rw [Fin.lt_def]; omega)).delegators_eq d'
    exact hzero.trans hzero'.symm
  · rw [hrecord s s' hpool, hrecord t t' hpool']
    exact h.delegators_eq d' hd
  · rw [hpool, hpool', h.log_eq]
  · rw [hepoch]
    exact h.epoch_lt
  · rw [hpool, hepoch, hboundary]
    exact h.solvent_left w
  · rw [hpool', hepoch', hboundary']
    exact h.solvent_right w

/-- `handle_add_validator`. -/
theorem handleAddValidator (h : Twins v d s t) (hs : Registered s) (ht : Registered t)
    (payload : Bytes) :
    Follows (SameAnswer v) (handleAddValidator s msg payload)
      (handleAddValidator t msg payload) := by
  unfold Staking.handleAddValidator
  refine follows_failIf id fun _ => follows_failIf id fun _ => follows_failIf id fun _ => ?_
  refine follows_failIf id fun _ => follows_failIf id fun _ => ?_
  refine (h.createValidator hs ht _ _ _ _).bind ?_
  rintro ⟨v', s₁⟩ ⟨v'', t₁⟩ ⟨rfl, hsame, h₁⟩
  exact (h₁.internalDelegate (hsame _) msg.callValue).bind fun _ _ h => follows_ok h

/-- `handle_syscall_snapshot`. -/
theorem handleSyscallSnapshot (h : SameShell v s t) :
    Follows (SameAnswer v) (handleSyscallSnapshot s msg) (handleSyscallSnapshot t msg) := by
  have hboundary : s.inBoundary = true ↔ t.inBoundary = true := by rw [h.inBoundary_eq]
  have htaken := h.takeSnapshot
  unfold Staking.handleSyscallSnapshot
  generalize takeSnapshot s = s' at *
  generalize takeSnapshot t = t' at *
  refine follows_failIf id fun _ => follows_failIf id fun _ => ?_
  exact follows_failIf (not_congr hboundary).mp fun _ => follows_ok htaken

/-- `handle_syscall_on_epoch_change`. -/
theorem handleSyscallOnEpochChange (h : SameShell v s t) (epoch : Fin (2 ^ 64)) :
    Follows (SameAnswer v) (handleSyscallOnEpochChange s msg epoch)
      (handleSyscallOnEpochChange t msg epoch) := by
  unfold Staking.handleSyscallOnEpochChange
  refine follows_failIf id fun _ => follows_failIf id fun _ => ?_
  refine follows_failIf (by rw [h.epoch_eq]; exact id) fun _ => follows_ok ?_
  exact (h.refreshAccumulators epoch.val).commutes
    (f := fun s => { s with inBoundary := false, epoch := epoch.val }) fun _ => rfl

end Twins

/-- Rewards, syscalls, and the calls of everybody else. -/
def OfOthers (d : Address) (tx : Message × StakingCall) : Prop :=
  match tx.2 with
  | .externalReward _ | .syscallReward _ _ | .syscallSnapshot | .syscallOnEpochChange _ => True
  | _ => tx.1.caller ≠ d

/-- A non-payable handler. -/
theorem follows_notPayable {x y : Except PrecompileError Answer}
    (h : Follows (SameAnswer v) x y) :
    Follows (SameAnswer v) (notPayable msg x) (notPayable msg y) :=
  follows_failIf id fun _ => h

/-- A call of others does the same to the shells of twins. -/
theorem Twins.runStakingWrite (h : Twins v d s t) (hs : Registered s) (ht : Registered t)
    {call : StakingCall} (hothers : OfOthers d (msg, call)) (hvalue : income msg call < 2 ^ 128) :
    Follows (SameAnswer v) (runStakingWrite s msg call) (runStakingWrite t msg call) := by
  have hsame (hcaller : msg.caller ≠ d) (v' : ValId) :
      s.delegators v' msg.caller = t.delegators v' msg.caller := h.record_eq fun _ => hcaller
  cases call with
  | addValidator payload => exact h.handleAddValidator hs ht payload
  | delegate v' => exact h.handleDelegate (hsame hothers v')
  | undelegate v' amount w =>
    exact follows_notPayable (h.handleUndelegate (hsame hothers v') amount w)
  | withdraw v' w => exact follows_notPayable (h.handleWithdraw w)
  | compound v' => exact follows_notPayable (h.handleCompound (hsame hothers v'))
  | claimRewards v' => exact follows_notPayable (h.handleClaimRewards (hsame hothers v'))
  | changeCommission v' commission =>
    exact follows_notPayable (Twins.handleChangeCommission h.shell commission)
  | externalReward v' => exact h.handleExternalReward
  | getDelegator v' d' => exact follows_notPayable h.handleGetDelegatorWrite
  | syscallReward blockAuthor extendedReward => exact h.handleSyscallReward blockAuthor hvalue
  | syscallSnapshot => exact follows_notPayable (Twins.handleSyscallSnapshot h.shell)
  | syscallOnEpochChange epoch =>
    exact follows_notPayable (Twins.handleSyscallOnEpochChange h.shell epoch)

end Calls

end SuwappuRevm.Staking
