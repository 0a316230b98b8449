import SuwappuRevm.Staking.RosterSteps

/-!
# The registered validators

An id, an auth address and a BLS prefix stand for the same validator: the ids are those up to the
last one, and both lookups invert the records. Only `addValidator` writes any of it, and it writes a
new record under a new id. Every other call keeps the auth addresses, which the flags share a slot
with, and the keys.
-/

namespace SuwappuRevm.Staking

open Foundations

/-- The keys of the validators and both lookups. -/
structure Keyring where
  valIdSecp : Address → ValId
  valIdBls : Address → ValId
  secpPubkey : ValId → Bytes
  blsPubkey : ValId → Bytes

/-- The keys in storage. -/
def Storage.keyring (s : Storage) : Keyring where
  valIdSecp := s.valIdSecp
  valIdBls := s.valIdBls
  secpPubkey v := (s.validators v).secpPubkey
  blsPubkey v := (s.validators v).blsPubkey

section Writes

variable (s : Storage) (v : ValId)

/-- A record that keeps its keys keeps the keyring. -/
theorem keyring_writeValidator_same (val : Validator)
    (hsecp : val.secpPubkey = (s.validators v).secpPubkey)
    (hbls : val.blsPubkey = (s.validators v).blsPubkey) :
    (s.writeValidator v val).keyring = s.keyring := by
  have hsecp' := Function.comp_update Validator.secpPubkey s.validators v val
  have hbls' := Function.comp_update Validator.blsPubkey s.validators v val
  have hsecp : val.secpPubkey = s.keyring.secpPubkey v := hsecp
  have hbls : val.blsPubkey = s.keyring.blsPubkey v := hbls
  simp only [Function.comp_def] at hsecp' hbls'
  simp only [Storage.keyring, Storage.writeValidator, hsecp', hbls', hsecp, hbls,
    Function.update_eq_self]

/-- The stake is no key. -/
@[simp] theorem keyring_writeValidatorStake (stake : ℕ) :
    (s.writeValidatorStake v stake).keyring = s.keyring :=
  keyring_writeValidator_same s v _ rfl rfl

/-- The unclaimed rewards are no key. -/
@[simp] theorem keyring_writeValidatorUnclaimedRewards (unclaimed : ℕ) :
    (s.writeValidatorUnclaimedRewards v unclaimed).keyring = s.keyring :=
  keyring_writeValidator_same s v _ rfl rfl

/-- The accumulator is no key. -/
@[simp] theorem keyring_writeValidatorAcc (acc : ℕ) :
    (s.writeValidatorAcc v acc).keyring = s.keyring :=
  keyring_writeValidator_same s v _ rfl rfl

/-- Dropping a reference keeps the keys. -/
@[simp] theorem keyring_decrement (epoch : ℕ) :
    (decrementAccumulatorRefcount s epoch v).2.keyring = s.keyring := by
  unfold decrementAccumulatorRefcount
  dsimp only
  split
  · rfl
  · split <;> rfl

/-- Taking a reference keeps the keys. -/
@[simp] theorem keyring_incrementIf (need : Bool) : (incrementIf need s v).keyring = s.keyring := by
  cases need <;> rfl

/-- Flags are written without the keys. -/
theorem writeFlagsIf_keyring (val : Validator) (flags : Flags) :
    (if flags ≠ val.flags then (flags, s.writeValidatorFlags v val flags)
      else (flags, s)).2.keyring = s.keyring := by
  split
  · exact keyring_writeValidator_same s v _ rfl rfl
  · rfl

/-- Flags after a delegation keep the keys. -/
theorem updateFlagsAfterDelegate_keyring (val : Validator) (del : Delegator) (caller : Address) :
    (updateValidatorFlagsAfterDelegate s v val del caller).2.keyring = s.keyring :=
  writeFlagsIf_keyring s v val _

/-- Flags after an undelegation keep the keys. -/
theorem updateFlagsAfterUndelegate_keyring (val : Validator) (del : Delegator)
    (caller : Address) :
    (updateValidatorFlagsAfterUndelegate s v val del caller).2.keyring = s.keyring :=
  writeFlagsIf_keyring s v val _

/-- Entering the execution set keeps the keys. -/
theorem addToValsetIf_keyring (flags : Flags) : (addToValsetIf flags s v).keyring = s.keyring := by
  unfold addToValsetIf addToValset
  split
  · dsimp only
    split <;> rfl
  · rfl

end Writes

section Settlement

variable {v : ValId} {d : Address}

/-- Compounding keeps the keys. -/
theorem compoundIf_keyring {can : Bool} {x y : Settling} (h : compoundIf can v d x = .ok y) :
    y.storage.keyring = x.storage.keyring := by
  unfold compoundIf at h
  split at h
  next =>
    obtain ⟨-, -, -, -, -, rfl⟩ := compoundTrack_eq_ok.mp h
    exact keyring_decrement x.storage v x.del.deltaEpoch
  next =>
    cases h
    rfl

/-- Accruing keeps the keys. -/
theorem accrueActive_keyring {x y : Settling} (h : accrueActive v d x = .ok y) :
    y.storage.keyring = x.storage.keyring := by
  by_cases hstake : x.del.stake = 0
  · rw [accrueActive, if_pos hstake] at h
    cases h
    rfl
  · obtain ⟨-, -, -, -, rfl⟩ := (accrueActive_eq_ok hstake).mp h
    rfl

/-- A settlement keeps the keys. -/
theorem pullDelegatorUpToDate_keyring {s s' : Storage} {del : Delegator}
    (h : pullDelegatorUpToDate s v d = .ok (del, s')) : s'.keyring = s.keyring := by
  simp only [pullDelegatorUpToDate, bind_eq_ok, pure_eq_ok, Prod.mk.injEq] at h
  obtain ⟨x₁, h₁, x₂, h₂, x₃, h₃, rfl, rfl⟩ := h
  have hwrites : ((x₃.storage.writeValidatorUnclaimedRewards v x₃.unclaimedRewards).writeDelegator v
      d x₃.del).keyring = x₃.storage.keyring :=
    keyring_writeValidatorUnclaimedRewards x₃.storage v x₃.unclaimedRewards
  rw [hwrites, accrueActive_keyring h₃, compoundIf_keyring h₂, compoundIf_keyring h₁]

/-- `internal_delegate` keeps the keys. -/
theorem internalDelegate_keyring {s s' : Storage} {amount : ℕ}
    (h : internalDelegate s v d amount = .ok s') : s'.keyring = s.keyring := by
  simp only [internalDelegate, bind_eq_ok, pure_eq_ok] at h
  obtain ⟨⟨del, s₀⟩, hpull, ⟨del', s₁⟩, hadd, s₂, henlist, rfl⟩ := h
  simp only [addDelegation, bind_eq_ok, checkedAdd_eq_ok, pure_eq_ok, Prod.mk.injEq] at hadd
  obtain ⟨⟨need, del₁⟩, -, stake, -, rfl, rfl⟩ := hadd
  have hadded : ((incrementIf need (s₀.writeDelegator v d del₁) v).writeValidatorStake v
      stake).keyring = s.keyring := by
    have hrecord : (s₀.writeDelegator v d del₁).keyring = s₀.keyring := rfl
    rw [keyring_writeValidatorStake, keyring_incrementIf, hrecord]
    exact pullDelegatorUpToDate_keyring hpull
  generalize (incrementIf need (s₀.writeDelegator v d del₁) v).writeValidatorStake v stake = t at *
  simp only [enlist, linkedListInsert, bind_eq_ok] at henlist
  obtain ⟨s₃, haddress, hval⟩ := henlist
  obtain ⟨nodes, rfl⟩ := linkedListInsertAddress_spec haddress
  obtain ⟨-, -, nodes', rfl⟩ := linkedListInsertValId_spec hval
  rw [← hadded, ← updateFlagsAfterDelegate_keyring t v (t.validators v) del₁ d]
  exact addToValsetIf_keyring _ v _

end Settlement

section Handlers

variable {s : Storage} {msg : Message} {v : ValId} {answer : Answer}

/-- `handle_undelegate` keeps the keys. -/
theorem handleUndelegate_keyring {amount : ℕ} {w : WithdrawId}
    (h : handleUndelegate s msg v amount w = .ok answer) : answer.storage.keyring = s.keyring := by
  by_cases hamount : amount = 0
  · simp only [handleUndelegate, bind_eq_ok, if_pos hamount] at h
    obtain ⟨-, -, h⟩ := h
    cases h
    rfl
  · simp only [handleUndelegate, bind_eq_ok, if_neg hamount, pure_eq_ok] at h
    obtain ⟨-, -, -, -, -, -, ⟨del, s₀⟩, hpull, -, -, _, -, left, -, stake, -, rfl⟩ := h
    rw [← pullDelegatorUpToDate_keyring hpull, ← keyring_writeValidatorStake s₀ v stake]
    dsimp only
    have hdelist (t : Storage) (del : Delegator) :
        (if del.Exists then t else linkedListRemove t v msg.caller).keyring = t.keyring := by
      obtain ⟨nodes, hnodes⟩ := linkedListRemove_nodes t v msg.caller
      rw [hnodes]
      split <;> rfl
    exact (hdelist _ _).trans (updateFlagsAfterUndelegate_keyring ..)

/-- `handle_claim_rewards` keeps the keys. -/
theorem handleClaimRewards_keyring (h : handleClaimRewards s msg v = .ok answer) :
    answer.storage.keyring = s.keyring := by
  simp only [handleClaimRewards, bind_eq_ok] at h
  obtain ⟨-, -, ⟨del, s₁⟩, hpull, h⟩ := h
  have hkeyring := pullDelegatorUpToDate_keyring hpull
  dsimp only at h
  split at h
  next =>
    cases h
    exact hkeyring
  next =>
    simp only [bind_eq_ok, pure_eq_ok] at h
    obtain ⟨s₂, htransfer, rfl⟩ := h
    obtain ⟨-, rfl⟩ := transfer_eq_ok htransfer
    exact hkeyring

/-- `handle_compound` keeps the keys. -/
theorem handleCompound_keyring (h : handleCompound s msg v = .ok answer) :
    answer.storage.keyring = s.keyring := by
  simp only [handleCompound, bind_eq_ok] at h
  obtain ⟨-, -, ⟨del, s₁⟩, hpull, h⟩ := h
  have hkeyring := pullDelegatorUpToDate_keyring hpull
  dsimp only at h
  split at h
  next =>
    cases h
    exact hkeyring
  next =>
    simp only [bind_eq_ok, pure_eq_ok] at h
    obtain ⟨s₂, hdelegate, rfl⟩ := h
    exact (internalDelegate_keyring hdelegate).trans hkeyring

/-- `handle_delegate` keeps the keys. -/
theorem handleDelegate_keyring (h : handleDelegate s msg v = .ok answer) :
    answer.storage.keyring = s.keyring := by
  simp only [handleDelegate, bind_eq_ok, failIf_eq_ok] at h
  obtain ⟨-, -, -, -, h⟩ := h
  split at h
  next =>
    cases h
    rfl
  next =>
    simp only [bind_eq_ok, failIf_eq_ok, pure_eq_ok] at h
    obtain ⟨-, -, s₁, hdelegate, rfl⟩ := h
    exact internalDelegate_keyring hdelegate

/-- `handle_withdraw` keeps the keys. -/
theorem handleWithdraw_keyring {w : WithdrawId} (h : handleWithdraw s msg v w = .ok answer) :
    answer.storage.keyring = s.keyring := by
  simp only [handleWithdraw, bind_eq_ok, pure_eq_ok] at h
  obtain ⟨-, -, -, -, -, -, _, -, -, -, _, -, _, -, s₂, htransfer, rfl⟩ := h
  obtain ⟨-, rfl⟩ := transfer_eq_ok htransfer
  have hwrite (t : Storage) (unclaimed amount : ℕ) (request : WithdrawalRequest)
      (event : PoolEvent) :
      ((((t.writeValidatorUnclaimedRewards v unclaimed).payOut amount).writeWithdrawalRequest v
        msg.caller w request).record v event).keyring = t.keyring :=
    keyring_writeValidatorUnclaimedRewards t v unclaimed
  rw [hwrite, keyring_decrement]

/-- `handle_change_commission` keeps the keys. -/
theorem handleChangeCommission_keyring {commission : ℕ}
    (h : handleChangeCommission s msg v commission = .ok answer) :
    answer.storage.keyring = s.keyring := by
  simp only [handleChangeCommission, bind_eq_ok, pure_eq_ok] at h
  obtain ⟨-, -, -, -, -, -, -, -, rfl⟩ := h
  dsimp only
  split
  · exact keyring_writeValidator_same s v _ rfl rfl
  · rfl

/-- `handle_external_reward` keeps the keys. -/
theorem handleExternalReward_keyring (h : handleExternalReward s msg v = .ok answer) :
    answer.storage.keyring = s.keyring := by
  simp only [handleExternalReward, bind_eq_ok, pure_eq_ok] at h
  obtain ⟨-, -, -, -, -, -, -, -, -, -, _, -, acc, -, unclaimed, -, rfl⟩ := h
  have hwrite (t : Storage) (event : PoolEvent) : ((t.writeValidatorUnclaimedRewards v
      unclaimed).record v event).keyring = t.keyring :=
    keyring_writeValidatorUnclaimedRewards t v unclaimed
  rw [hwrite, keyring_writeValidatorAcc]

/-- `handle_syscall_reward` keeps the keys. -/
theorem handleSyscallReward_keyring {blockAuthor : Address} {blockReward : ℕ}
    (h : handleSyscallReward s msg blockAuthor blockReward = .ok answer) :
    answer.storage.keyring = s.keyring := by
  simp only [handleSyscallReward, bind_eq_ok, pure_eq_ok] at h
  obtain ⟨-, -, -, -, -, -, -, -, _, -, _, -, _, -, unclaimed, -, s₁, hacc, rfl⟩ := h
  have hkeyring : s₁.keyring = s.keyring := by
    unfold applyRewardAcc at hacc
    split at hacc
    next =>
      simp only [bind_eq_ok, pure_eq_ok] at hacc
      obtain ⟨_, -, acc, -, rfl⟩ := hacc
      rw [keyring_writeValidatorAcc, keyring_writeValidatorUnclaimedRewards]
      rfl
    next =>
      cases hacc
      rw [keyring_writeValidatorUnclaimedRewards]
      rfl
  exact hkeyring

/-- A snapshot keeps the keys. -/
theorem takeSnapshot_keyring (s : Storage) : (takeSnapshot s).keyring = s.keyring := by
  have hcompact (t : Storage) : (compactExecutionSet t).keyring = t.keyring := by
    unfold compactExecutionSet
    generalize (removals t).reverse = idxs
    induction idxs generalizing t with
    | nil => rfl
    | cons idx idxs ih =>
      rw [List.foldl_cons]
      exact ih _
  rw [takeSnapshot_eq, hcompact]
  rfl

/-- An epoch change keeps the keys. -/
theorem changeEpoch_keyring (s : Storage) (next : ℕ) :
    (changeEpoch s next).keyring = s.keyring := by
  have hentry (t : Storage) (epoch : ℕ) (v : ValId) :
      (refreshAccumulator t epoch v).keyring = t.keyring := by
    unfold refreshAccumulator
    dsimp only
    split <;> rfl
  have hloop : (refreshAccumulators s next).keyring = s.keyring := by
    unfold refreshAccumulators
    generalize List.range s.snapshot.length = idxs
    induction idxs generalizing s with
    | nil => rfl
    | cons i idxs ih =>
      rw [List.foldl_cons]
      exact (ih _).trans ((hentry ..).trans (hentry ..))
  exact hloop

end Handlers

section Calls

variable {s s' : Storage}

/-- Nothing of the registry has changed. -/
structure SameDirectory (s s' : Storage) : Prop where
  lastValId_eq : s'.lastValId = s.lastValId
  authAddress_eq : ∀ v, (s'.validators v).authAddress = (s.validators v).authAddress
  keyring_eq : s'.keyring = s.keyring

/-- A call on one validator that keeps the keys changes nothing of the registry. -/
theorem Touches.sameDirectory {v : ValId} (h : Touches v s s') (hkeyring : s'.keyring = s.keyring) :
    SameDirectory s s' :=
  ⟨h.lastValId_eq, h.authAddress_eq, hkeyring⟩

/-- A snapshot changes nothing of the registry. -/
theorem takeSnapshot_sameDirectory (s : Storage) : SameDirectory s (takeSnapshot s) := by
  obtain ⟨-, -, hlast, hvalidators, -, -⟩ := takeSnapshot_sameLedger s
  exact ⟨hlast, fun v => by rw [hvalidators], takeSnapshot_keyring s⟩

/-- An epoch change changes nothing of the registry. -/
theorem changeEpoch_sameDirectory (s : Storage) (next : ℕ) :
    SameDirectory s (changeEpoch s next) := by
  obtain ⟨⟨-, -, hlast, hvalidators, -, -⟩, -⟩ := refreshAccumulators_spec s next
  exact ⟨hlast, fun v => by rw [changeEpoch, hvalidators], changeEpoch_keyring s next⟩

/-- A registration: a new record under the next id, entered into both lookups. -/
structure Registers (s s' : Storage) : Prop where
  secp_free : s.valIdSecp (s'.validators s'.lastValId).authAddress = 0
  bls_free : s.valIdBls (Address.ofBytes ((s'.validators s'.lastValId).blsPubkey.take 20)) = 0
  lastValId_eq : s'.lastValId = s.lastValId + 1
  valid : s'.lastValId ≠ 0 ∧ s'.lastValId ≠ sentinelValId
  exists_new : (s'.validators s'.lastValId).Exists
  length_eq : (s'.validators s'.lastValId).blsPubkey.length = 48
  authAddress_of_ne : ∀ v, v ≠ s'.lastValId →
    (s'.validators v).authAddress = (s.validators v).authAddress
  secpPubkey_of_ne : ∀ v, v ≠ s'.lastValId →
    (s'.validators v).secpPubkey = (s.validators v).secpPubkey
  blsPubkey_of_ne : ∀ v, v ≠ s'.lastValId →
    (s'.validators v).blsPubkey = (s.validators v).blsPubkey
  valIdSecp_eq : s'.valIdSecp =
    Function.update s.valIdSecp (s'.validators s'.lastValId).authAddress s'.lastValId
  valIdBls_eq : s'.valIdBls = Function.update s.valIdBls
    (Address.ofBytes ((s'.validators s'.lastValId).blsPubkey.take 20)) s'.lastValId

/-- `handle_add_validator` registers a validator, or nothing. -/
theorem handleAddValidator_registers {msg : Message} {payload : Bytes} {answer : Answer}
    (h : handleAddValidator s msg payload = .ok answer) : Registers s answer.storage := by
  simp only [handleAddValidator, bind_eq_ok, failIf_eq_ok, not_not, pure_eq_ok, not_lt] at h
  obtain ⟨-, -, -, hlength, -, -, -, -, -, -, ⟨v, s₁⟩, hcreate, s₂, hdelegate, rfl⟩ := h
  have hbls : ((payload.drop 33).take 48).length = 48 := by
    rw [List.length_take, List.length_drop]
    omega
  generalize (payload.drop 33).take 48 = bls at *
  generalize payload.take 33 = secp at *
  generalize Address.ofBytes ((payload.drop 81).take 20) = auth at *
  obtain ⟨hauth, -, hne, hsentinel⟩ := internalDelegate_not_reserved hdelegate
  have htouches := internalDelegate_touches hdelegate
  have hkeyring := internalDelegate_keyring hdelegate
  have hsecps := congrArg Keyring.valIdSecp hkeyring
  have hblss := congrArg Keyring.valIdBls hkeyring
  have hsecpKeys (w : ValId) := congrArg (fun k => k.secpPubkey w) hkeyring
  have hblsKeys (w : ValId) := congrArg (fun k => k.blsPubkey w) hkeyring
  simp only [createValidator, bind_eq_ok, failIf_eq_ok, not_not, pure_eq_ok, Prod.mk.injEq]
    at hcreate
  obtain ⟨-, hfree, -, hfree', rfl, rfl⟩ := hcreate
  have hlast : s₂.lastValId = s.lastValId + 1 := htouches.lastValId_eq
  have hauth' := htouches.authAddress_eq
  dsimp only [Storage.keyring] at hsecps hblss hsecpKeys hblsKeys
  simp only [Storage.writeValidator] at hsecps hblss hsecpKeys hblsKeys hauth'
  have hnew : (s₂.validators (s.lastValId + 1)).authAddress = auth := by
    rw [hauth', Function.update_self]
  have hnewBls : (s₂.validators (s.lastValId + 1)).blsPubkey = bls := by
    rw [hblsKeys, Function.update_self]
  dsimp only
  constructor
  · rwa [hlast, hnew]
  · rwa [hlast, hnewBls]
  · exact hlast
  · rw [hlast]
    exact ⟨hne, hsentinel⟩
  · rw [hlast, Validator.Exists, hnew]
    exact hauth
  · rwa [hlast, hnewBls]
  · intro w hw
    rw [hauth', Function.update_of_ne (hlast ▸ hw)]
  · intro w hw
    rw [hsecpKeys, Function.update_of_ne (hlast ▸ hw)]
  · intro w hw
    rw [hblsKeys, Function.update_of_ne (hlast ▸ hw)]
  · rw [hlast, hnew, hsecps]
  · rw [hlast, hnewBls, hblss]

/-- The dispatch: a successful call registers a validator, for no less than the least stake of an
auth address, or changes nothing of the registry. -/
theorem runStakingWrite_registers {msg : Message} {call : StakingCall} {answer : Answer}
    (h : runStakingWrite s msg call = .ok answer) : SameDirectory s answer.storage ∨
      Registers s answer.storage ∧ minAuthAddressStake ≤ income msg call := by
  cases call with
  | addValidator payload =>
    obtain ⟨_, _, _, _, _, _, -, -, hmin, -⟩ := handleAddValidator_creates h
    exact .inr ⟨handleAddValidator_registers h, hmin⟩
  | delegate v =>
    exact .inl ((handleDelegate_spec h).touches.sameDirectory (handleDelegate_keyring h))
  | undelegate v amount w =>
    obtain ⟨-, h⟩ := notPayable_eq_ok h
    exact .inl ((handleUndelegate_spec h).touches.sameDirectory (handleUndelegate_keyring h))
  | withdraw v w =>
    obtain ⟨-, h⟩ := notPayable_eq_ok h
    obtain ⟨o, hcall⟩ := handleWithdraw_spec h
    exact .inl (hcall.touches.sameDirectory (handleWithdraw_keyring h))
  | compound v =>
    obtain ⟨-, h⟩ := notPayable_eq_ok h
    obtain ⟨i, o, hcall⟩ := handleCompound_spec h
    exact .inl (hcall.touches.sameDirectory (handleCompound_keyring h))
  | claimRewards v =>
    obtain ⟨-, h⟩ := notPayable_eq_ok h
    obtain ⟨o, hcall⟩ := handleClaimRewards_spec h
    exact .inl (hcall.touches.sameDirectory (handleClaimRewards_keyring h))
  | changeCommission v commission =>
    obtain ⟨-, h⟩ := notPayable_eq_ok h
    exact .inl ((handleChangeCommission_spec h).touches.sameDirectory
      (handleChangeCommission_keyring h))
  | externalReward v =>
    exact .inl ((handleExternalReward_spec h).touches.sameDirectory
      (handleExternalReward_keyring h))
  | getDelegator v d =>
    obtain ⟨-, h⟩ := notPayable_eq_ok h
    have htouches := (handleGetDelegatorWrite_spec h).touches
    simp only [handleGetDelegatorWrite, bind_eq_ok, pure_eq_ok] at h
    obtain ⟨-, -, ⟨del, s₁⟩, hpull, rfl⟩ := h
    exact .inl (htouches.sameDirectory (pullDelegatorUpToDate_keyring hpull))
  | syscallReward author reward =>
    exact .inl ((handleSyscallReward_spec h).touches.sameDirectory (handleSyscallReward_keyring h))
  | syscallSnapshot =>
    obtain ⟨-, -, htake⟩ := handleSyscallSnapshot_eq_ok (notPayable_eq_ok h).2
    rw [htake]
    exact .inl (takeSnapshot_sameDirectory _)
  | syscallOnEpochChange next =>
    obtain ⟨-, -, hchange⟩ := handleSyscallOnEpochChange_eq_ok (notPayable_eq_ok h).2
    rw [hchange]
    exact .inl (changeEpoch_sameDirectory _ _)

/-- One call registers a validator, for no less than the least stake of an auth address, or changes
nothing of the registry. -/
theorem stakingStep_registers {tx : Message × StakingCall} (h : stakingStep s tx = .ok s') :
    SameDirectory s s' ∨ Registers s s' ∧ minAuthAddressStake ≤ income tx.1 tx.2 := by
  simp only [stakingStep, bind_eq_ok, pure_eq_ok] at h
  obtain ⟨answer, h, rfl⟩ := h
  rcases runStakingWrite_registers h with hsame | ⟨hnew, hmin⟩
  · exact .inl ⟨hsame.1, hsame.2, hsame.3⟩
  · exact .inr ⟨⟨hnew.1, hnew.2, hnew.3, hnew.4, hnew.5, hnew.6, hnew.7, hnew.8, hnew.9, hnew.10,
      hnew.11⟩, hmin⟩

end Calls

section Invariant

/-- Ids, auth addresses and BLS prefixes stand for the same validators. -/
structure Directory (s : Storage) : Prop where
  lastValId_ne : s.lastValId ≠ sentinelValId
  exists_iff : ∀ v, (s.validators v).Exists ↔ v ≠ 0 ∧ v ≤ s.lastValId
  secp_iff : ∀ a v, v ≠ 0 →
    (s.valIdSecp a = v ↔ (s.validators v).Exists ∧ (s.validators v).authAddress = a)
  bls_iff : ∀ b v, v ≠ 0 → (s.valIdBls b = v ↔
    (s.validators v).Exists ∧ Address.ofBytes ((s.validators v).blsPubkey.take 20) = b)
  length_eq : ∀ v, (s.validators v).blsPubkey.length = 48

/-- Nothing is registered in empty storage. -/
theorem Directory.empty : Directory .empty where
  lastValId_ne := by decide
  exists_iff v := by
    have hnot : ¬(Storage.empty.validators v).Exists := not_not.mpr rfl
    have hle : v ≤ Storage.empty.lastValId ↔ v = 0 := Fin.le_zero_iff
    rw [hle]
    tauto
  secp_iff a v hv := by
    have hnot : ¬(Storage.empty.validators v).Exists := not_not.mpr rfl
    have hzero : Storage.empty.valIdSecp a = 0 := rfl
    rw [hzero]
    tauto
  bls_iff b v hv := by
    have hnot : ¬(Storage.empty.validators v).Exists := not_not.mpr rfl
    have hzero : Storage.empty.valIdBls b = 0 := rfl
    rw [hzero]
    tauto
  length_eq _ := List.length_replicate

variable {s s' : Storage}

/-- The directory is a matter of the registry. -/
theorem SameDirectory.directory (h : SameDirectory s s') (hs : Directory s) : Directory s' := by
  have hexists (v : ValId) : (s'.validators v).Exists ↔ (s.validators v).Exists := by
    rw [Validator.Exists, Validator.Exists, h.authAddress_eq]
  have hsecp : s'.valIdSecp = s.valIdSecp := congrArg Keyring.valIdSecp h.keyring_eq
  have hbls : s'.valIdBls = s.valIdBls := congrArg Keyring.valIdBls h.keyring_eq
  have hkey (v : ValId) : (s'.validators v).blsPubkey = (s.validators v).blsPubkey :=
    congrArg (fun k => k.blsPubkey v) h.keyring_eq
  constructor
  · rw [h.lastValId_eq]
    exact hs.lastValId_ne
  · intro v
    rw [hexists, h.lastValId_eq]
    exact hs.exists_iff v
  · intro a v hv
    rw [hsecp, hexists, h.authAddress_eq]
    exact hs.secp_iff a v hv
  · intro b v hv
    rw [hbls, hexists, hkey]
    exact hs.bls_iff b v hv
  · intro v
    rw [hkey]
    exact hs.length_eq v

/-- Entering a free key for a new id into a lookup keeps the lookup the inverse of the key. -/
theorem lookup_update_iff {lookup : Address → ValId} {reg reg' : ValId → Prop}
    {key key' : ValId → Address} {new : ValId}
    (hlookup : ∀ a v, v ≠ 0 → (lookup a = v ↔ reg v ∧ key v = a))
    (hfree : lookup (key' new) = 0) (hnot : ¬reg new) (hnew : reg' new)
    (hreg : ∀ v, v ≠ new → (reg' v ↔ reg v)) (hkey : ∀ v, v ≠ new → key' v = key v)
    (a : Address) (v : ValId) (hv : v ≠ 0) :
    Function.update lookup (key' new) new a = v ↔ reg' v ∧ key' v = a := by
  by_cases ha : a = key' new
  · subst ha
    rw [Function.update_self]
    constructor
    · rintro rfl
      exact ⟨hnew, rfl⟩
    · rintro ⟨hreg', hsame⟩
      by_contra hne
      have hne : v ≠ new := fun heq => hne heq.symm
      rw [hreg v hne] at hreg'
      rw [hkey v hne] at hsame
      have hold := (hlookup _ v hv).mpr ⟨hreg', hsame⟩
      rw [hfree] at hold
      exact hv hold.symm
  · rw [Function.update_of_ne ha, hlookup a v hv]
    by_cases hne : v = new
    · subst hne
      constructor
      · intro h
        exact absurd h.1 hnot
      · intro h
        exact absurd h.2.symm ha
    · rw [hreg v hne, hkey v hne]

/-- A registration does not wrap the counter. -/
theorem Registers.val_eq (h : Registers s s') (hs : Directory s) :
    s'.lastValId.val = s.lastValId.val + 1 := by
  have hne : s.lastValId.val ≠ 2 ^ 64 - 1 := fun heq => hs.lastValId_ne (Fin.ext heq)
  have hlt := s.lastValId.isLt
  have hbound : s.lastValId.val + 1 < 2 ^ 64 := by omega
  rw [h.lastValId_eq, Fin.val_add]
  exact Nat.mod_eq_of_lt hbound

/-- A registration takes an id no validator has. -/
theorem Registers.not_exists (h : Registers s s') (hs : Directory s) :
    ¬(s.validators s'.lastValId).Exists := by
  have hval := h.val_eq hs
  rw [hs.exists_iff, Fin.le_def]
  omega

/-- A registration keeps the directory right. -/
theorem Registers.directory (h : Registers s s') (hs : Directory s) : Directory s' := by
  have hval := h.val_eq hs
  have hnot := h.not_exists hs
  have hnew := h.exists_new
  have hexists (v : ValId) (hv : v ≠ s'.lastValId) :
      (s'.validators v).Exists ↔ (s.validators v).Exists := by
    rw [Validator.Exists, Validator.Exists, h.authAddress_of_ne v hv]
  constructor
  · exact h.valid.2
  · intro v
    by_cases hv : v = s'.lastValId
    · rw [hv]
      exact ⟨fun _ => ⟨h.valid.1, le_rfl⟩, fun _ => hnew⟩
    · have hne : v.val ≠ s'.lastValId.val := fun heq => hv (Fin.ext heq)
      have hle : v ≤ s.lastValId ↔ v ≤ s'.lastValId := by
        rw [Fin.le_def, Fin.le_def]
        omega
      rw [hexists v hv, hs.exists_iff, hle]
  · intro a v hv
    rw [h.valIdSecp_eq]
    exact lookup_update_iff hs.secp_iff h.secp_free hnot hnew hexists h.authAddress_of_ne a v hv
  · intro b v hv
    rw [h.valIdBls_eq]
    have hkey (v : ValId) (hne : v ≠ s'.lastValId) :
        Address.ofBytes ((s'.validators v).blsPubkey.take 20) =
          Address.ofBytes ((s.validators v).blsPubkey.take 20) := by
      rw [h.blsPubkey_of_ne v hne]
    exact lookup_update_iff hs.bls_iff h.bls_free hnot hnew hexists hkey b v hv
  · intro v
    by_cases hv : v = s'.lastValId
    · rw [hv]
      exact h.length_eq
    · rw [h.blsPubkey_of_ne v hv]
      exact hs.length_eq v

/-- The directory is right in every reachable state. -/
theorem reachable_directory {guard : Storage → Message × StakingCall → Storage → Prop}
    (h : Reachable stakingStep guard .empty s) : Directory s := by
  refine h.invariant Directory .empty fun s tx s' hs hstep _ => ?_
  rcases stakingStep_registers hstep with hsame | ⟨hnew, -⟩
  · exact hsame.directory hs
  · exact hnew.directory hs

/-- Auth address and keys of a validator stay. -/
structure SameIdentity (val val' : Validator) : Prop where
  authAddress_eq : val'.authAddress = val.authAddress
  secpPubkey_eq : val'.secpPubkey = val.secpPubkey
  blsPubkey_eq : val'.blsPubkey = val.blsPubkey

/-- One call keeps the identity of a registered validator. -/
theorem stakingStep_identity {tx : Message × StakingCall} (hs : Directory s)
    (h : stakingStep s tx = .ok s') {v : ValId} (hv : (s.validators v).Exists) :
    SameIdentity (s.validators v) (s'.validators v) := by
  rcases stakingStep_registers h with hsame | ⟨hnew, -⟩
  · exact ⟨hsame.authAddress_eq v, congrArg (fun k => k.secpPubkey v) hsame.keyring_eq,
      congrArg (fun k => k.blsPubkey v) hsame.keyring_eq⟩
  · have hne : v ≠ s'.lastValId := by
      rintro rfl
      exact hnew.not_exists hs hv
    exact ⟨hnew.authAddress_of_ne v hne, hnew.secpPubkey_of_ne v hne, hnew.blsPubkey_of_ne v hne⟩

/-- A run keeps the identity of a registered validator. -/
theorem run_identity {guard : Storage → Message × StakingCall → Storage → Prop} (hs : Directory s)
    (h : Reachable stakingStep guard s s') {v : ValId} (hv : (s.validators v).Exists) :
    SameIdentity (s.validators v) (s'.validators v) := by
  have hrun : Directory s' ∧ SameIdentity (s.validators v) (s'.validators v) := by
    refine h.invariant (fun t => Directory t ∧ SameIdentity (s.validators v) (t.validators v))
      ⟨hs, rfl, rfl, rfl⟩ ?_
    rintro t tx t' ⟨ht, hsame⟩ hstep -
    have hexists : (t.validators v).Exists := by
      rw [Validator.Exists, hsame.authAddress_eq]
      exact hv
    obtain ⟨hauth, hsecp, hbls⟩ := stakingStep_identity ht hstep hexists
    refine ⟨?_, hauth.trans hsame.1, hsecp.trans hsame.2, hbls.trans hsame.3⟩
    rcases stakingStep_registers hstep with hkept | ⟨hnew, -⟩
    · exact hkept.directory ht
    · exact hnew.directory ht
  exact hrun.2

/-- A BLS key starts with 20 bytes if its first 20 bytes are the address made of them. -/
theorem Directory.startsWith_iff (hs : Directory s) {b : Bytes} (hb : b.length = 20) (v : ValId) :
    Address.ofBytes ((s.validators v).blsPubkey.take 20) = Address.ofBytes b ↔
      b <+: (s.validators v).blsPubkey := by
  have hlength : ((s.validators v).blsPubkey.take 20).length = 20 := by
    rw [List.length_take, hs.length_eq]
    rfl
  rw [Address.ofBytes_inj hlength hb, List.prefix_iff_eq_take, hb, eq_comm]

/-- The registry of validators is a bijection between ids, auth addresses and BLS prefixes, and
registered validators keep their identity. -/
theorem registry_bijection (h : Reachable stakingStep (fun _ _ _ => True) .empty s) :
    (∀ v, (s.validators v).Exists ↔ v ≠ 0 ∧ v ≤ s.lastValId) ∧
    (∀ a v, v ≠ 0 →
      (s.valIdSecp a = v ↔ (s.validators v).Exists ∧ (s.validators v).authAddress = a)) ∧
    (∀ b : Bytes, b.length = 20 → ∀ v, v ≠ 0 → (s.valIdBls (Address.ofBytes b) = v ↔
      (s.validators v).Exists ∧ b <+: (s.validators v).blsPubkey)) ∧
    (∀ v w, (s.validators v).Exists → (s.validators w).Exists →
      (s.validators v).authAddress = (s.validators w).authAddress ∨
        (s.validators v).blsPubkey.take 20 = (s.validators w).blsPubkey.take 20 → v = w) ∧
    (∀ s', Reachable stakingStep (fun _ _ _ => True) s s' → ∀ v, (s.validators v).Exists →
      (s'.validators v).authAddress = (s.validators v).authAddress ∧
      (s'.validators v).secpPubkey = (s.validators v).secpPubkey ∧
      (s'.validators v).blsPubkey = (s.validators v).blsPubkey) := by
  have hs := reachable_directory h
  refine ⟨hs.exists_iff, hs.secp_iff, fun b hb v hv => ?_, fun v w hv hw hsame => ?_,
    fun s' hrun v hv => ?_⟩
  · rw [hs.bls_iff _ v hv, hs.startsWith_iff hb]
  · have hvzero := ((hs.exists_iff v).mp hv).1
    have hwzero := ((hs.exists_iff w).mp hw).1
    rcases hsame with hauth | hbls
    · have hlookup := (hs.secp_iff _ v hvzero).mpr ⟨hv, hauth⟩
      rw [← hlookup, (hs.secp_iff _ w hwzero).mpr ⟨hw, rfl⟩]
    · have hlookup := (hs.bls_iff _ v hvzero).mpr ⟨hv, congrArg Address.ofBytes hbls⟩
      rw [← hlookup, (hs.bls_iff _ w hwzero).mpr ⟨hw, rfl⟩]
  · obtain ⟨hauth, hsecp, hbls⟩ := run_identity hs hrun hv
    exact ⟨hauth, hsecp, hbls⟩

/-- In the opened state the lookup of address `7` answers with its validator. -/
theorem registry_bijection_opened : openedState.valIdSecp 7 = 1 ↔
    (openedState.validators 1).Exists ∧ (openedState.validators 1).authAddress = 7 :=
  (registry_bijection openedState_reachable).2.1 7 1 (by decide)

end Invariant

end SuwappuRevm.Staking
