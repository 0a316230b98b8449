import SuwappuRevm.Foundations.Simulation
import SuwappuRevm.Staking.PoolCalls

/-!
# Storage around the accounts of one validator

What settlements of one validator write is a small part of storage: its delegator records, its
accumulator entries, its unclaimed rewards and its history. Two states that agree on all the rest
have the same shell, and every operation on either gives states with the same shell again, as long
as the amounts it moves are the same.
-/

namespace SuwappuRevm.Staking

open Foundations

/-- A validator record without its unclaimed rewards. -/
def Validator.shell (val : Validator) : Validator := { val with unclaimedRewards := 0 }

/-- Storage with the accounts of a validator cleared. -/
def Storage.shell (s : Storage) (v : ValId) : Storage :=
  { s with
    validators := Function.update s.validators v (s.validators v).shell
    delegators := Function.update s.delegators v fun _ => .zero
    accumulators := fun k => Function.update (s.accumulators k) v ⟨0, 0⟩
    history := Function.update s.history v [] }

/-- Two states that agree on all but the accounts of a validator. -/
def SameShell (v : ValId) (s t : Storage) : Prop := s.shell v = t.shell v

namespace SameShell

variable {v v' : ValId} {s t u : Storage}

/-- A state has its own shell. -/
theorem refl (v : ValId) (s : Storage) : SameShell v s s := rfl

/-- States with one shell share it both ways. -/
theorem symm (h : SameShell v s t) : SameShell v t s := Eq.symm h

/-- Sharing a shell is transitive. -/
theorem trans (h : SameShell v s t) (h' : SameShell v t u) : SameShell v s u := Eq.trans h h'

/-- What reads only the shell reads the same. -/
theorem read {A : Type*} (h : SameShell v s t) (f : Storage → A)
    (hf : ∀ s : Storage, f (s.shell v) = f s) : f s = f t := by
  rw [← hf s, ← hf t, show s.shell v = t.shell v from h]

section Reads

variable (h : SameShell v s t)

include h

/-- The epoch is part of the shell. -/
theorem epoch_eq : s.epoch = t.epoch := h.read Storage.epoch fun _ => rfl

/-- The boundary flag is part of the shell. -/
theorem inBoundary_eq : s.inBoundary = t.inBoundary := h.read Storage.inBoundary fun _ => rfl

/-- The last id is part of the shell. -/
theorem lastValId_eq : s.lastValId = t.lastValId := h.read Storage.lastValId fun _ => rfl

/-- The list nodes are part of the shell. -/
theorem listNodes_eq : s.listNodes = t.listNodes := h.read Storage.listNodes fun _ => rfl

/-- The withdrawal requests are part of the shell. -/
theorem withdrawals_eq : s.withdrawals = t.withdrawals := h.read Storage.withdrawals fun _ => rfl

/-- The consensus views are part of the shell. -/
theorem consensusView_eq : s.consensusView = t.consensusView :=
  h.read Storage.consensusView fun _ => rfl

/-- The snapshot views are part of the shell. -/
theorem snapshotView_eq : s.snapshotView = t.snapshotView :=
  h.read Storage.snapshotView fun _ => rfl

/-- The execution set is part of the shell. -/
theorem execution_eq : s.execution = t.execution := h.read Storage.execution fun _ => rfl

/-- The consensus set is part of the shell. -/
theorem consensus_eq : s.consensus = t.consensus := h.read Storage.consensus fun _ => rfl

/-- The snapshot set is part of the shell. -/
theorem snapshot_eq : s.snapshot = t.snapshot := h.read Storage.snapshot fun _ => rfl

/-- The ids by address are part of the shell. -/
theorem valIdSecp_eq : s.valIdSecp = t.valIdSecp := h.read Storage.valIdSecp fun _ => rfl

/-- The ids by BLS key are part of the shell. -/
theorem valIdBls_eq : s.valIdBls = t.valIdBls := h.read Storage.valIdBls fun _ => rfl

/-- The balance is part of the shell. -/
theorem balance_eq : s.balance = t.balance := h.read Storage.balance fun _ => rfl

/-- The received value is part of the shell. -/
theorem received_eq : s.received = t.received := h.read Storage.received fun _ => rfl

/-- The records of the validators agree but for the unclaimed rewards. -/
theorem validator_eq (v' : ValId) : (s.validators v').shell = (t.validators v').shell := by
  have hval : (s.shell v).validators v' = (t.shell v).validators v' :=
    congrArg (fun s : Storage => s.validators v') h
  by_cases hv : v' = v
  · subst hv
    simpa [Storage.shell] using hval
  · have hsame : s.validators v' = t.validators v' := by simpa [Storage.shell, hv] using hval
    rw [hsame]

/-- The records of the other validators agree. -/
theorem validator_of_ne (hv : v' ≠ v) : s.validators v' = t.validators v' := by
  have hval : (s.shell v).validators v' = (t.shell v).validators v' :=
    congrArg (fun s : Storage => s.validators v') h
  simpa [Storage.shell, hv] using hval

/-- The delegator records at the other validators agree. -/
theorem delegators_of_ne (hv : v' ≠ v) : s.delegators v' = t.delegators v' := by
  have hdel : (s.shell v).delegators v' = (t.shell v).delegators v' :=
    congrArg (fun s : Storage => s.delegators v') h
  simpa [Storage.shell, hv] using hdel

/-- The entries of the other validators agree. -/
theorem accumulators_of_ne (hv : v' ≠ v) (k : ℕ) : s.accumulators k v' = t.accumulators k v' := by
  have hacc : (s.shell v).accumulators k v' = (t.shell v).accumulators k v' :=
    congrArg (fun s : Storage => s.accumulators k v') h
  simpa [Storage.shell, hv] using hacc

/-- The histories of the other validators agree. -/
theorem history_of_ne (hv : v' ≠ v) : s.history v' = t.history v' := by
  have hhist : (s.shell v).history v' = (t.shell v).history v' :=
    congrArg (fun s : Storage => s.history v') h
  simpa [Storage.shell, hv] using hhist

/-- Every validator's stake is part of the shell. -/
theorem stake_eq (v' : ValId) : (s.validators v').stake = (t.validators v').stake :=
  (congrArg Validator.stake (h.validator_eq v') :)

/-- Every validator's accumulator is part of the shell. -/
theorem acc_eq (v' : ValId) : (s.validators v').accumulatedRewardPerToken =
    (t.validators v').accumulatedRewardPerToken :=
  (congrArg Validator.accumulatedRewardPerToken (h.validator_eq v') :)

/-- Every validator's commission is part of the shell. -/
theorem commission_eq (v' : ValId) : (s.validators v').commission = (t.validators v').commission :=
  (congrArg Validator.commission (h.validator_eq v') :)

/-- Every validator's auth address is part of the shell. -/
theorem authAddress_eq (v' : ValId) :
    (s.validators v').authAddress = (t.validators v').authAddress :=
  (congrArg Validator.authAddress (h.validator_eq v') :)

/-- Every validator's flags are part of the shell. -/
theorem flags_eq (v' : ValId) : (s.validators v').flags = (t.validators v').flags :=
  (congrArg Validator.flags (h.validator_eq v') :)

/-- The stake that rewards are shared among is the same. -/
theorem activeStake_eq (v' : ValId) : s.activeStake v' = t.activeStake v' := by
  rw [Storage.activeStake, Storage.activeStake, h.inBoundary_eq, h.snapshotView_eq,
    h.consensusView_eq]

/-- The views of a pool are the same. -/
theorem view_eq (b : Bool) (v' : ValId) : (s.pool v').view b = (t.pool v').view b := by
  cases b
  · exact congrArg (fun view => (view v').stake) h.consensusView_eq
  · exact congrArg (fun view => (view v').stake) h.snapshotView_eq

/-- The commission of the views is the same. -/
theorem viewCommission_eq (v' : ValId) : s.viewCommission v' = t.viewCommission v' := by
  rw [Storage.viewCommission, Storage.viewCommission, h.inBoundary_eq, h.snapshotView_eq,
    h.consensusView_eq]

/-- The activation epoch is read off the shell. -/
theorem getActivationEpoch_eq : s.getActivationEpoch = t.getActivationEpoch := by
  rw [Storage.getActivationEpoch, Storage.getActivationEpoch, h.inBoundary_eq, h.epoch_eq]

end Reads

end SameShell

section Writes

variable {v v' : ValId} {s t : Storage}

/-- Operations that neither read nor write the accounts. -/
theorem SameShell.commutes (h : SameShell v s t) {f : Storage → Storage}
    (hf : ∀ s : Storage, (f s).shell v = f (s.shell v)) : SameShell v (f s) (f t) := by
  rw [SameShell, hf, hf, show s.shell v = t.shell v from h]

/-- Writing the record of a validator. -/
theorem shell_writeValidator (v v' : ValId) (val : Validator) (s : Storage) :
    (s.writeValidator v' val).shell v =
      (s.shell v).writeValidator v' (if v' = v then val.shell else val) := by
  by_cases hv : v' = v
  · subst hv
    simp [Storage.shell, Storage.writeValidator]
  · simp [Storage.shell, Storage.writeValidator, hv, Function.update_comm (Ne.symm hv),
      Function.update_of_ne (Ne.symm hv)]

/-- Writing a validator record that agrees but for the unclaimed rewards. -/
theorem SameShell.writeValidator (h : SameShell v s t) (v' : ValId) {val val' : Validator}
    (hval : val.shell = val'.shell) (hne : v' ≠ v → val = val') :
    SameShell v (s.writeValidator v' val) (t.writeValidator v' val') := by
  rw [SameShell, shell_writeValidator, shell_writeValidator, show s.shell v = t.shell v from h]
  split
  next => rw [hval]
  next hv => rw [hne hv]

/-- Writing the stake of a validator. -/
theorem SameShell.writeValidatorStake (h : SameShell v s t) (v' : ValId) (stake : ℕ) :
    SameShell v (s.writeValidatorStake v' stake) (t.writeValidatorStake v' stake) := by
  refine h.writeValidator v' ?_ fun hv => by rw [h.validator_of_ne hv]
  exact congrArg (fun val : Validator => { val with stake }) (h.validator_eq v')

/-- Writing the accumulator of a validator. -/
theorem SameShell.writeValidatorAcc (h : SameShell v s t) (v' : ValId) (acc : ℕ) :
    SameShell v (s.writeValidatorAcc v' acc) (t.writeValidatorAcc v' acc) := by
  refine h.writeValidator v' ?_ fun hv => by rw [h.validator_of_ne hv]
  exact congrArg (fun val : Validator => { val with accumulatedRewardPerToken := acc })
    (h.validator_eq v')

/-- Writing the flags of a validator. -/
theorem SameShell.writeValidatorFlags (h : SameShell v s t) (v' : ValId) {val val' : Validator}
    (hauth : val.authAddress = val'.authAddress) (flags : Flags) :
    SameShell v (s.writeValidatorFlags v' val flags) (t.writeValidatorFlags v' val' flags) := by
  refine h.writeValidator v' ?_ fun hv => by rw [h.validator_of_ne hv, hauth]
  rw [hauth]
  exact congrArg (fun record : Validator => { record with authAddress := val'.authAddress, flags })
    (h.validator_eq v')

/-- Unclaimed rewards are accounts. -/
theorem shell_writeValidatorUnclaimedRewards (s : Storage) (v : ValId) (unclaimed : ℕ) :
    (s.writeValidatorUnclaimedRewards v unclaimed).shell v = s.shell v := by
  simp [Storage.shell, Storage.writeValidatorUnclaimedRewards, Storage.writeValidator,
    Validator.shell]

/-- Delegator records are accounts. -/
theorem shell_writeDelegator (s : Storage) (v : ValId) (d : Address) (del : Delegator) :
    (s.writeDelegator v d del).shell v = s.shell v := by
  simp [Storage.shell, Storage.writeDelegator]

/-- Entries are accounts. -/
theorem shell_writeAccumulator (s : Storage) (v : ValId) (epoch : ℕ)
    (entry : RefCountedAccumulator) :
    (s.writeAccumulator v epoch entry).shell v = s.shell v := by
  have haccs : (fun k => Function.update ((s.writeAccumulator v epoch entry).accumulators k) v
      ⟨0, 0⟩) = fun k => Function.update (s.accumulators k) v ⟨0, 0⟩ := by
    funext k
    by_cases hk : k = epoch
    · simp [hk, Storage.writeAccumulator]
    · simp [hk, Storage.writeAccumulator]
  simp only [Storage.shell, haccs]
  rfl

/-- The history is part of the accounts. -/
theorem shell_record (s : Storage) (v : ValId) (event : PoolEvent) :
    (s.record v event).shell v = s.shell v := by
  simp [Storage.shell, Storage.record]

/-- Writing unclaimed rewards; those of the validator itself may differ. -/
theorem SameShell.writeValidatorUnclaimedRewards (h : SameShell v s t) (v' : ValId)
    {unclaimed unclaimed' : ℕ} (hne : v' ≠ v → unclaimed = unclaimed') :
    SameShell v (s.writeValidatorUnclaimedRewards v' unclaimed)
      (t.writeValidatorUnclaimedRewards v' unclaimed') :=
  h.writeValidator v' (h.validator_eq v') fun hv => by rw [h.validator_of_ne hv, hne hv]

/-- Writing a delegator record; those at the validator itself may differ. -/
theorem SameShell.writeDelegator (h : SameShell v s t) (v' : ValId) (d : Address)
    {del del' : Delegator} (hne : v' ≠ v → del = del') :
    SameShell v (s.writeDelegator v' d del) (t.writeDelegator v' d del') := by
  by_cases hv : v' = v
  · subst hv
    rw [SameShell, shell_writeDelegator, shell_writeDelegator]
    exact h
  · rw [hne hv]
    refine h.commutes (f := fun s => s.writeDelegator v' d del') fun s => ?_
    simp [Storage.shell, Storage.writeDelegator, hv, Function.update_comm (Ne.symm hv)]

/-- Writing an entry; those of the validator itself may differ. -/
theorem SameShell.writeAccumulator (h : SameShell v s t) (v' : ValId) (epoch : ℕ)
    {entry entry' : RefCountedAccumulator} (hne : v' ≠ v → entry = entry') :
    SameShell v (s.writeAccumulator v' epoch entry) (t.writeAccumulator v' epoch entry') := by
  by_cases hv : v' = v
  · subst hv
    rw [SameShell, shell_writeAccumulator, shell_writeAccumulator]
    exact h
  · rw [hne hv]
    refine h.commutes (f := fun s => s.writeAccumulator v' epoch entry') fun s => ?_
    have haccs : (fun k => Function.update ((s.writeAccumulator v' epoch entry').accumulators k) v
        ⟨0, 0⟩) = ((s.shell v).writeAccumulator v' epoch entry').accumulators := by
      funext k
      by_cases hk : k = epoch
      · simp [hk, Storage.shell, Storage.writeAccumulator, Function.update_comm (Ne.symm hv)]
      · simp [hk, Storage.shell, Storage.writeAccumulator]
    simp only [Storage.shell, haccs]
    rfl

/-- Adding to the history; that of the validator itself may differ. -/
theorem SameShell.record (h : SameShell v s t) (v' : ValId) {event event' : PoolEvent}
    (hne : v' ≠ v → event = event') :
    SameShell v (s.record v' event) (t.record v' event') := by
  by_cases hv : v' = v
  · subst hv
    rw [SameShell, shell_record, shell_record]
    exact h
  · rw [hne hv]
    refine h.commutes (f := fun s => s.record v' event') fun s => ?_
    simp [Storage.shell, Storage.record, hv, Function.update_comm (Ne.symm hv)]

/-- Writing a withdrawal request. -/
theorem SameShell.writeWithdrawalRequest (h : SameShell v s t) (v' : ValId) (d : Address)
    (w : WithdrawId) (request : WithdrawalRequest) :
    SameShell v (s.writeWithdrawalRequest v' d w request)
      (t.writeWithdrawalRequest v' d w request) :=
  h.commutes (f := fun s => s.writeWithdrawalRequest v' d w request) fun _ => rfl

/-- Writing a list node. -/
theorem SameShell.writeListNode (h : SameShell v s t) (v' : ValId) (d : Address)
    (node : ListNode) : SameShell v (s.writeListNode v' d node) (t.writeListNode v' d node) :=
  h.commutes (f := fun s => s.writeListNode v' d node) fun _ => rfl

end Writes

section Entries

variable {v : ValId} {s t : Storage}

/-- Taking a reference to an entry of the next epochs. -/
theorem SameShell.incrementAccumulatorRefcount (h : SameShell v s t) (v' : ValId) :
    SameShell v (incrementAccumulatorRefcount s v') (incrementAccumulatorRefcount t v') := by
  unfold Staking.incrementAccumulatorRefcount
  rw [h.getActivationEpoch_eq]
  refine h.writeAccumulator v' _ fun hv => ?_
  rw [h.acc_eq, h.accumulators_of_ne hv]

/-- Taking a reference when needed. -/
theorem SameShell.incrementIf (h : SameShell v s t) (need : Bool) (v' : ValId) :
    SameShell v (incrementIf need s v') (incrementIf need t v') := by
  unfold Staking.incrementIf
  split
  · exact h.incrementAccumulatorRefcount v'
  · exact h

/-- References are accounts. -/
theorem shell_decrementAccumulatorRefcount (s : Storage) (epoch : ℕ) (v : ValId) :
    (decrementAccumulatorRefcount s epoch v).2.shell v = s.shell v := by
  unfold decrementAccumulatorRefcount
  dsimp only
  split
  · rfl
  · split <;> exact shell_writeAccumulator ..

/-- Dropping a reference; its value is the same at the other validators. -/
theorem SameShell.decrementAccumulatorRefcount (h : SameShell v s t) (epoch : ℕ) (v' : ValId) :
    SameShell v (decrementAccumulatorRefcount s epoch v').2
      (decrementAccumulatorRefcount t epoch v').2 ∧
    (v' ≠ v → (decrementAccumulatorRefcount s epoch v').1 =
      (decrementAccumulatorRefcount t epoch v').1) := by
  by_cases hv : v' = v
  · subst hv
    rw [SameShell, shell_decrementAccumulatorRefcount, shell_decrementAccumulatorRefcount]
    exact ⟨h, fun hne => absurd rfl hne⟩
  · unfold Staking.decrementAccumulatorRefcount
    rw [h.accumulators_of_ne hv]
    dsimp only
    split
    · exact ⟨h, fun _ => rfl⟩
    · split
      · exact ⟨h.writeAccumulator v' epoch fun _ => rfl, fun _ => rfl⟩
      · exact ⟨h.writeAccumulator v' epoch fun _ => rfl, fun _ => rfl⟩

end Entries

section Sets

variable {v : ValId} {s t : Storage}

/-- The list of a validator is outside the accounts. -/
theorem linkedListRemoveAddress_shell (s : Storage) (v v' : ValId) (d : Address) :
    (linkedListRemoveAddress s v' d).shell v = linkedListRemoveAddress (s.shell v) v' d := by
  by_cases hout : (s.listNodes v' d).aprev = 0
  · simp only [linkedListRemoveAddress, Storage.shell, hout, if_true]
  · by_cases hlast : (s.listNodes v' d).anext = 0
    · simp only [linkedListRemoveAddress, Storage.shell, Storage.writeListNode, hout, hlast,
        if_false, ne_eq, not_true_eq_false]
    · simp only [linkedListRemoveAddress, Storage.shell, Storage.writeListNode, hout, hlast,
        if_false, if_true, ne_eq, not_false_eq_true]

/-- The list of a delegator is outside the accounts. -/
theorem linkedListRemoveValId_shell (s : Storage) (v v' : ValId) (d : Address) :
    (linkedListRemoveValId s v' d).shell v = linkedListRemoveValId (s.shell v) v' d := by
  by_cases hout : (s.listNodes v' d).iprev = 0
  · simp only [linkedListRemoveValId, Storage.shell, hout, if_true]
  · by_cases hlast : (s.listNodes v' d).inext = 0
    · simp only [linkedListRemoveValId, Storage.shell, Storage.writeListNode, hout, hlast,
        if_false, ne_eq, not_true_eq_false]
    · simp only [linkedListRemoveValId, Storage.shell, Storage.writeListNode, hout, hlast,
        if_false, if_true, ne_eq, not_false_eq_true]

/-- Leaving both lists. -/
theorem SameShell.linkedListRemove (h : SameShell v s t) (v' : ValId) (d : Address) :
    SameShell v (linkedListRemove s v' d) (linkedListRemove t v' d) := by
  refine h.commutes (f := fun s => Staking.linkedListRemove s v' d) fun s => ?_
  unfold Staking.linkedListRemove
  rw [linkedListRemoveValId_shell, linkedListRemoveAddress_shell]

/-- Leaving both lists when nothing is left. -/
theorem SameShell.linkedListRemoveIf (h : SameShell v s t) (kept : Prop) [Decidable kept]
    (v' : ValId) (d : Address) :
    SameShell v (if kept then s else Staking.linkedListRemove s v' d)
      (if kept then t else Staking.linkedListRemove t v' d) := by
  split
  · exact h
  · exact h.linkedListRemove v' d

/-- Entering the list of a validator. -/
theorem SameShell.linkedListInsertAddress (h : SameShell v s t) (v' : ValId) (d : Address) :
    Follows (SameShell v) (linkedListInsertAddress s v' d) (linkedListInsertAddress t v' d) := by
  unfold Staking.linkedListInsertAddress
  rw [h.listNodes_eq]
  refine follows_failIf id fun _ => ?_
  dsimp only
  split
  · exact follows_ok h
  · refine follows_ok (.writeListNode (.writeListNode ?_ ..) ..)
    split
    · exact h.writeListNode ..
    · exact h

/-- Entering the list of a delegator. -/
theorem SameShell.linkedListInsertValId (h : SameShell v s t) (v' : ValId) (d : Address) :
    Follows (SameShell v) (linkedListInsertValId s v' d) (linkedListInsertValId t v' d) := by
  unfold Staking.linkedListInsertValId
  rw [h.listNodes_eq]
  refine follows_failIf id fun _ => ?_
  dsimp only
  split
  · exact follows_ok h
  · refine follows_ok (.writeListNode (.writeListNode ?_ ..) ..)
    split
    · exact h.writeListNode ..
    · exact h

/-- Entering both lists. -/
theorem SameShell.linkedListInsert (h : SameShell v s t) (v' : ValId) (d : Address) :
    Follows (SameShell v) (linkedListInsert s v' d) (linkedListInsert t v' d) :=
  (h.linkedListInsertAddress v' d).bind fun _ _ h => h.linkedListInsertValId v' d

/-- Entering the execution set. -/
theorem SameShell.addToValsetIf (h : SameShell v s t) (flags : Flags) (v' : ValId) :
    SameShell v (addToValsetIf flags s v') (addToValsetIf flags t v') := by
  refine h.commutes (f := fun s => Staking.addToValsetIf flags s v') fun s => ?_
  by_cases hflags : flags = flagsOk
  · by_cases hinserted : s.bitset (v'.val / 256) &&& bitMask v' = 0
    · simp only [Staking.addToValsetIf, addToValset, Storage.shell, hflags, hinserted, if_true]
    · simp only [Staking.addToValsetIf, addToValset, Storage.shell, hflags, hinserted, if_true,
        if_false]
  · simp only [Staking.addToValsetIf, hflags, if_false]

end Sets

section Flags

variable {v : ValId} {s t : Storage} {val val' : Validator}

/-- Writing flags when they are new. -/
theorem SameShell.writeFlagsIf (h : SameShell v s t) (v' : ValId)
    (hauth : val.authAddress = val'.authAddress) (flags old : Flags) :
    (if flags ≠ old then (flags, s.writeValidatorFlags v' val flags) else (flags, s)).1 =
      (if flags ≠ old then (flags, t.writeValidatorFlags v' val' flags) else (flags, t)).1 ∧
    SameShell v
      (if flags ≠ old then (flags, s.writeValidatorFlags v' val flags) else (flags, s)).2
      (if flags ≠ old then (flags, t.writeValidatorFlags v' val' flags) else (flags, t)).2 := by
  split
  · exact ⟨rfl, h.writeValidatorFlags v' hauth flags⟩
  · exact ⟨rfl, h⟩

/-- Updating the flags after a delegation. -/
theorem SameShell.updateFlagsAfterDelegate (h : SameShell v s t) (v' : ValId)
    (hval : val.shell = val'.shell) (del : Delegator) (caller : Address) :
    (updateValidatorFlagsAfterDelegate s v' val del caller).1 =
      (updateValidatorFlagsAfterDelegate t v' val' del caller).1 ∧
    SameShell v (updateValidatorFlagsAfterDelegate s v' val del caller).2
      (updateValidatorFlagsAfterDelegate t v' val' del caller).2 := by
  have hstake : val.stake = val'.stake := (congrArg Validator.stake hval :)
  have hflags : val.flags = val'.flags := (congrArg Validator.flags hval :)
  have hauth : val.authAddress = val'.authAddress := (congrArg Validator.authAddress hval :)
  unfold updateValidatorFlagsAfterDelegate
  rw [hstake, hflags, hauth]
  exact h.writeFlagsIf v' hauth _ _

/-- Updating the flags after an undelegation. -/
theorem SameShell.updateFlagsAfterUndelegate (h : SameShell v s t) (v' : ValId)
    (hval : val.shell = val'.shell) (del : Delegator) (caller : Address) :
    SameShell v (updateValidatorFlagsAfterUndelegate s v' val del caller).2
      (updateValidatorFlagsAfterUndelegate t v' val' del caller).2 := by
  have hstake : val.stake = val'.stake := (congrArg Validator.stake hval :)
  have hflags : val.flags = val'.flags := (congrArg Validator.flags hval :)
  have hauth : val.authAddress = val'.authAddress := (congrArg Validator.authAddress hval :)
  unfold updateValidatorFlagsAfterUndelegate
  rw [hstake, hflags, hauth]
  exact (h.writeFlagsIf v' hauth _ _).2

/-- The part of a delegation on flags, execution set and lists. -/
theorem SameShell.enlist (h : SameShell v s t) (v' : ValId) (d : Address) (del : Delegator) :
    Follows (SameShell v) (enlist s v' d del) (enlist t v' d del) := by
  obtain ⟨hflags, hupdate⟩ := h.updateFlagsAfterDelegate v' (h.validator_eq v') del d
  unfold Staking.enlist
  dsimp only
  rw [hflags]
  exact (hupdate.addToValsetIf _ v').linkedListInsert v' d

/-- The part of a delegation on record, entry and stake; records at the validator itself may
differ. -/
theorem SameShell.addDelegation (h : SameShell v s t) (v' : ValId) (d : Address) (amount : ℕ)
    (del : Delegator) :
    Follows (fun x y => x.1 = y.1 ∧ SameShell v x.2 y.2) (addDelegation s v' d amount del)
      (addDelegation t v' d amount del) := by
  unfold Staking.addDelegation
  rw [h.inBoundary_eq, h.getActivationEpoch_eq]
  refine follows_bind_same _ fun x _ => ?_
  have hentry := (h.writeDelegator v' d (fun _ => rfl : v' ≠ v → x.2 = x.2)).incrementIf x.1 v'
  dsimp only
  rw [hentry.stake_eq]
  exact follows_bind_same _ fun stake _ => follows_ok ⟨rfl, hentry.writeValidatorStake v' stake⟩

/-- A new validator. -/
theorem SameShell.createValidator (h : SameShell v s t) (secpPubkey blsPubkey : Bytes)
    (authAddress : Address) (commission : ℕ) :
    Follows (fun x y => x.1 = y.1 ∧ SameShell v x.2 y.2)
      (createValidator s secpPubkey blsPubkey authAddress commission)
      (createValidator t secpPubkey blsPubkey authAddress commission) := by
  unfold Staking.createValidator
  rw [h.valIdSecp_eq, h.valIdBls_eq, h.lastValId_eq]
  refine follows_failIf id fun _ => follows_failIf id fun _ => follows_ok ⟨rfl, ?_⟩
  have hids := h.commutes (f := fun s => { s with
    lastValId := t.lastValId + 1
    valIdSecp := Function.update t.valIdSecp authAddress (t.lastValId + 1)
    valIdBls := Function.update t.valIdBls (Address.ofBytes (blsPubkey.take 20))
      (t.lastValId + 1) }) fun _ => rfl
  exact hids.writeValidator (t.lastValId + 1) rfl fun _ => rfl

end Flags

section Payments

variable {v : ValId} {s t : Storage}

/-- Value that comes with a call. -/
theorem SameShell.credit (h : SameShell v s t) (amount : ℕ) :
    SameShell v (s.credit amount) (t.credit amount) :=
  h.commutes (f := fun s => s.credit amount) fun _ => rfl

/-- A payment to the caller. -/
theorem SameShell.transfer (h : SameShell v s t) (msg : Message) (amount : ℕ) :
    Follows (SameShell v) (transfer s msg amount) (transfer t msg amount) := by
  unfold Staking.transfer
  rw [h.balance_eq]
  refine follows_ite (fun _ => follows_ok h) fun _ => ?_
  refine follows_failIf id fun _ => follows_failIf id fun _ => follows_ok ?_
  exact h.commutes (f := fun s => { s with balance := t.balance - amount }) fun _ => rfl

/-- Clearing the credited rewards of a record. -/
theorem SameShell.takeRewards (h : SameShell v s t) (v' : ValId) (d : Address) (del : Delegator) :
    SameShell v (takeRewards s v' d del) (takeRewards t v' d del) :=
  (h.writeDelegator v' d fun _ => rfl).record v' fun _ => rfl

/-- The accumulator step of a reward. -/
theorem SameShell.applyRewardAcc (h : SameShell v s t) (v' : ValId)
    (acc delReward activeStake : ℕ) :
    Follows (SameShell v) (applyRewardAcc s v' acc delReward activeStake)
      (applyRewardAcc t v' acc delReward activeStake) := by
  unfold Staking.applyRewardAcc
  refine follows_ite (fun _ => ?_) fun _ => follows_ok h
  refine follows_bind_same _ fun rewardAcc _ => follows_bind_same _ fun newAcc _ => ?_
  exact follows_ok (h.writeValidatorAcc v' newAcc)

end Payments

section Settling

variable {v v' : ValId} {d : Address} {s t : Storage}

/-- Compounding writes accounts only. -/
theorem compoundIf_shell {can : Bool} {x y : Settling} (h : compoundIf can v d x = .ok y) :
    y.storage.shell v = x.storage.shell v := by
  unfold compoundIf at h
  split at h
  next =>
    simp only [compoundTrack, applyCompound, bind_eq_ok, pure_eq_ok] at h
    obtain ⟨x', ⟨x₀, -, hx⟩, y', -, rfl⟩ := h
    cases hx
    exact (shell_record ..).trans (shell_decrementAccumulatorRefcount ..)
  next =>
    cases h
    rfl

/-- Accruing writes accounts only. -/
theorem accrueActive_shell {x y : Settling} (h : accrueActive v d x = .ok y) :
    y.storage.shell v = x.storage.shell v := by
  unfold accrueActive at h
  split at h
  next =>
    cases h
    rfl
  next =>
    simp only [bind_eq_ok, pure_eq_ok] at h
    obtain ⟨rewards, -, y', -, rfl⟩ := h
    exact shell_record ..

/-- A settlement writes accounts only. -/
theorem pullDelegatorUpToDate_shell {s' : Storage} {del : Delegator}
    (h : pullDelegatorUpToDate s v d = .ok (del, s')) : s'.shell v = s.shell v := by
  simp only [pullDelegatorUpToDate, bind_eq_ok, pure_eq_ok, Prod.mk.injEq] at h
  obtain ⟨x₁, h₁, x₂, h₂, x₃, h₃, rfl, rfl⟩ := h
  rw [shell_writeDelegator, shell_writeValidatorUnclaimedRewards, accrueActive_shell h₃,
    compoundIf_shell h₂, compoundIf_shell h₁]

end Settling

section Boundaries

variable {v : ValId} {s t : Storage}

/-- Clearing the old snapshot set. -/
theorem SameShell.clearSnapshotSet (h : SameShell v s t) :
    SameShell v (clearSnapshotSet s) (clearSnapshotSet t) := by
  unfold Staking.clearSnapshotSet
  rw [h.snapshot_eq]
  refine List.foldl_rel h fun i _ s t h => ?_
  exact h.commutes (f := fun s => { s with
    snapshotView := Function.update s.snapshotView (s.snapshot.slot i) .zero
    snapshot := ⟨s.snapshot.length, Function.update s.snapshot.slot i 0⟩ }) fun _ => rfl

/-- Copying the consensus set. -/
theorem SameShell.copyConsensusSet (h : SameShell v s t) (len : ℕ) :
    SameShell v (copyConsensusSet s len) (copyConsensusSet t len) := by
  unfold Staking.copyConsensusSet
  refine List.foldl_rel ?_ fun i _ s t h => ?_
  · exact h.commutes (f := fun s => { s with snapshot := ⟨len, s.snapshot.slot⟩ }) fun _ => rfl
  · exact h.commutes (f := fun s => { s with
      snapshot := ⟨s.snapshot.length, Function.update s.snapshot.slot i (s.consensus.slot i)⟩
      snapshotView := Function.update s.snapshotView (s.consensus.slot i)
        (s.consensusView (s.consensus.slot i)) }) fun _ => rfl

/-- Clearing the old consensus set. -/
theorem SameShell.clearConsensusSet (h : SameShell v s t) (len : ℕ) :
    SameShell v (clearConsensusSet s len) (clearConsensusSet t len) := by
  unfold Staking.clearConsensusSet
  refine List.foldl_rel h fun i _ s t h => ?_
  exact h.commutes (f := fun s => { s with
    consensusView := Function.update s.consensusView (s.consensus.slot i) .zero
    consensus := ⟨s.consensus.length, Function.update s.consensus.slot i 0⟩ }) fun _ => rfl

/-- The election. -/
theorem SameShell.sortedValidators_eq (h : SameShell v s t) :
    sortedValidators s = sortedValidators t := by
  unfold sortedValidators
  simp only [h.execution_eq, h.flags_eq, h.stake_eq]

/-- Writing the new consensus set. -/
theorem SameShell.writeConsensusSet (h : SameShell v s t) (valIds : List ValId) :
    SameShell v (writeConsensusSet s valIds) (writeConsensusSet t valIds) := by
  unfold Staking.writeConsensusSet
  refine List.foldl_rel ?_ fun e _ s t h => ?_
  · exact h.commutes (f := fun s => { s with consensus := ⟨valIds.length, s.consensus.slot⟩ })
      fun _ => rfl
  · rw [h.stake_eq, h.commission_eq]
    exact h.commutes (f := fun s => { s with
      consensus := ⟨s.consensus.length, Function.update s.consensus.slot e.2 e.1⟩
      consensusView := Function.update s.consensusView e.1
        ⟨(t.validators e.1).stake, (t.validators e.1).commission⟩ }) fun _ => rfl

/-- Compacting the execution set. -/
theorem SameShell.compactExecutionSet (h : SameShell v s t) :
    SameShell v (compactExecutionSet s) (compactExecutionSet t) := by
  have hremovals : removals s = removals t := by
    unfold removals
    simp only [h.execution_eq, h.flags_eq]
  unfold Staking.compactExecutionSet
  rw [hremovals]
  refine List.foldl_rel h fun i _ s t h => ?_
  exact h.commutes (f := fun s =>
    let last := s.execution.length - 1
    let slot :=
      if i < last then Function.update s.execution.slot i (s.execution.slot last)
      else s.execution.slot
    { removeFromValset s (s.execution.slot i) with
      execution := ⟨last, Function.update slot last 0⟩ }) fun _ => rfl

/-- A snapshot. -/
theorem SameShell.takeSnapshot (h : SameShell v s t) :
    SameShell v (takeSnapshot s) (takeSnapshot t) := by
  have hbegin := h.commutes (f := fun s => { s with inBoundary := true }) fun _ => rfl
  have hcleared := ((hbegin.clearSnapshotSet).copyConsensusSet s.consensus.length).clearConsensusSet
    s.consensus.length
  have hlen : s.consensus.length = t.consensus.length := by rw [h.consensus_eq]
  unfold Staking.takeSnapshot
  dsimp only
  rw [← hlen, ← hcleared.sortedValidators_eq]
  exact (hcleared.writeConsensusSet _).compactExecutionSet

/-- Refreshing an entry. -/
theorem SameShell.refreshAccumulator (h : SameShell v s t) (epoch : ℕ) (v' : ValId) :
    SameShell v (refreshAccumulator s epoch v') (refreshAccumulator t epoch v') := by
  by_cases hv : v' = v
  · subst hv
    have hkept (s : Storage) : (refreshAccumulator s epoch v').shell v' = s.shell v' := by
      unfold Staking.refreshAccumulator
      dsimp only
      split
      · exact shell_writeAccumulator ..
      · rfl
    rw [SameShell, hkept, hkept]
    exact h
  · unfold Staking.refreshAccumulator
    rw [h.accumulators_of_ne hv, h.acc_eq]
    dsimp only
    split
    · exact h.writeAccumulator v' epoch fun _ => rfl
    · exact h

/-- Refreshing the entries of the snapshot set. -/
theorem SameShell.refreshAccumulators (h : SameShell v s t) (epoch : ℕ) :
    SameShell v (refreshAccumulators s epoch) (refreshAccumulators t epoch) := by
  unfold Staking.refreshAccumulators
  rw [h.snapshot_eq]
  refine List.foldl_rel h fun i _ s t h => ?_
  dsimp only
  rw [h.snapshot_eq]
  exact (h.refreshAccumulator epoch _).refreshAccumulator _ _

end Boundaries

end SuwappuRevm.Staking
