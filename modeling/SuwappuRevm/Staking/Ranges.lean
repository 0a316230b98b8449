import SuwappuRevm.Staking.StepSpec

/-!
# Words stay in range

Amounts are natural numbers here and words in the source. Every number that a record keeps comes
out of a checked operation, a copy or a wrapping addition, so the records of every reachable state
fit the types that the source stores them in.
-/

namespace SuwappuRevm.Staking

open Foundations

/-- The numbers of a delegator record fit their types. -/
structure Delegator.Fits (r : Delegator) : Prop where
  stake : r.stake < wordBound
  acc : r.accumulatedRewardPerToken < wordBound
  rewards : r.rewards < wordBound
  deltaStake : r.deltaStake < wordBound
  nextDeltaStake : r.nextDeltaStake < wordBound
  deltaEpoch : r.deltaEpoch < 2 ^ 64
  nextDeltaEpoch : r.nextDeltaEpoch < 2 ^ 64

/-- The records, the accumulator and the entries of a pool fit. -/
structure Pool.Fits (p : Pool) : Prop where
  delegators : ∀ d, (p.delegators d).Fits
  acc : p.acc < wordBound
  entries : ∀ k, (p.accumulators k).value < wordBound

/-- All pools fit. -/
def Ranged (s : Storage) : Prop := ∀ v, (s.pool v).Fits

/-- Zero is a word. -/
theorem wordBound_pos : 0 < wordBound := by decide +kernel

/-- A record nobody has written fits. -/
theorem Delegator.zero_fits : Delegator.zero.Fits :=
  ⟨wordBound_pos, wordBound_pos, wordBound_pos, wordBound_pos, wordBound_pos, Nat.two_pow_pos 64,
    Nat.two_pow_pos 64⟩

/-- Wrapping additions fit. -/
theorem u64Add_lt (a b : ℕ) : u64Add a b < 2 ^ 64 := Nat.mod_lt _ (Nat.two_pow_pos 64)

/-- So do activation epochs. -/
theorem getActivationEpoch_lt (s : Storage) : s.getActivationEpoch < 2 ^ 64 := by
  unfold Storage.getActivationEpoch
  split
  · exact u64Add_lt _ _
  · exact u64Add_lt _ _

namespace Pool.Fits

variable {p : Pool}

/-- Writing a record in range. -/
theorem setDelegator (h : p.Fits) {r : Delegator} (hr : r.Fits) (d : Address) :
    (p.setDelegator d r).Fits := by
  refine ⟨?_, h.acc, h.entries⟩
  intro d'
  by_cases hd : d' = d
  · simpa [Pool.setDelegator, hd] using hr
  · simpa [Pool.setDelegator, hd] using h.delegators d'

/-- Writing an entry in range. -/
theorem setEntry (h : p.Fits) {entry : RefCountedAccumulator} (hentry : entry.value < wordBound)
    (epoch : ℕ) : (p.setEntry epoch entry).Fits := by
  refine ⟨h.delegators, h.acc, ?_⟩
  intro k
  by_cases hk : k = epoch
  · simpa [Pool.setEntry, hk] using hentry
  · simpa [Pool.setEntry, hk] using h.entries k

/-- Writing an accumulator in range. -/
theorem setAcc (h : p.Fits) {acc : ℕ} (hacc : acc < wordBound) : { p with acc }.Fits :=
  ⟨h.delegators, hacc, h.entries⟩

/-- The value that a reference is settled with fits. -/
theorem entryValue (h : p.Fits) (epoch : ℕ) : p.entryValue epoch < wordBound := by
  unfold Pool.entryValue
  split
  · exact wordBound_pos
  · exact h.entries epoch

/-- Dropping a reference keeps the entries in range. -/
theorem release (h : p.Fits) (epoch : ℕ) : (p.release epoch).Fits := by
  apply h.setEntry
  unfold Pool.releaseEntry
  split
  · exact h.entries epoch
  · split
    · exact wordBound_pos
    · exact h.entries epoch

/-- A new reference holds the accumulator, which is in range. -/
theorem retain (h : p.Fits) (epoch : ℕ) : (p.retain epoch).Fits := by
  apply h.setEntry
  exact h.acc

/-- So does one that is taken when needed. -/
theorem retainIf (h : p.Fits) (need : Prop) [Decidable need] (epoch : ℕ) :
    (p.retainIf need epoch).Fits := by
  unfold Pool.retainIf
  split
  · exact h.retain epoch
  · exact h

/-- Refreshed entries hold the accumulator, which is in range. -/
theorem refreshed (h : p.Fits) (epoch epoch' : ℕ) : (p.refreshed epoch epoch').Fits := by
  refine ⟨h.delegators, h.acc, ?_⟩
  intro k
  simp only [Pool.refreshed, RefCountedAccumulator.refreshed]
  split
  · split
    · exact h.acc
    · exact h.entries k
  · exact h.entries k

end Pool.Fits

/-- A call on one pool that leaves it in range leaves all in range. -/
theorem Ranged.touches {s s' : Storage} {v : ValId} (hs : Ranged s) (h : Touches v s s')
    (hpool : (s'.pool v).Fits) : Ranged s' := by
  intro v'
  by_cases hv : v' = v
  · rw [hv]
    exact hpool
  · rw [h.pool_of_ne v' hv]
    exact hs v'

/-- So does a call that changes no pool. -/
theorem Ranged.samePools {s s' : Storage} (hs : Ranged s) (h : ∀ v, s'.pool v = s.pool v) :
    Ranged s' := by
  intro v
  rw [h v]
  exact hs v

/-- A delegator record in range can be written. -/
theorem Ranged.writeDelegator {s : Storage} (hs : Ranged s) {r : Delegator} (hr : r.Fits)
    (v : ValId) (d : Address) : Ranged (s.writeDelegator v d r) := by
  apply hs.touches (.writeDelegator s v d r)
  rw [pool_writeDelegator]
  exact (hs v).setDelegator hr d

/-- An accumulator in range can be written. -/
theorem Ranged.writeValidatorAcc {s : Storage} (hs : Ranged s) {acc : ℕ} (hacc : acc < wordBound)
    (v : ValId) : Ranged (s.writeValidatorAcc v acc) := by
  apply hs.touches (.writeValidatorAcc s v acc)
  rw [pool_writeValidatorAcc]
  exact (hs v).setAcc hacc

/-- Unclaimed rewards are not among the values in range. -/
theorem Ranged.writeValidatorUnclaimedRewards {s : Storage} (hs : Ranged s) (v : ValId)
    (unclaimed : ℕ) : Ranged (s.writeValidatorUnclaimedRewards v unclaimed) := by
  apply hs.touches (.writeValidatorUnclaimedRewards s v unclaimed)
  rw [pool_writeValidatorUnclaimedRewards]
  exact ⟨(hs v).delegators, (hs v).acc, (hs v).entries⟩

/-- The stake of a validator is not among the values in range. -/
theorem Ranged.writeValidatorStake {s : Storage} (hs : Ranged s) (v : ValId) (stake : ℕ) :
    Ranged (s.writeValidatorStake v stake) := by
  apply hs.touches (.writeValidatorStake s v stake)
  rw [pool_writeValidatorStake]
  exact ⟨(hs v).delegators, (hs v).acc, (hs v).entries⟩

/-- Withdrawal requests are not among the values in range. -/
theorem Ranged.writeWithdrawalRequest {s : Storage} (hs : Ranged s) (v : ValId) (d : Address)
    (w : WithdrawId) (request : WithdrawalRequest) :
    Ranged (s.writeWithdrawalRequest v d w request) := by
  apply hs.touches (.writeWithdrawalRequest s v d w request)
  rw [pool_writeWithdrawalRequest]
  exact ⟨(hs v).delegators, (hs v).acc, (hs v).entries⟩

/-- Recording an event keeps the values in range. -/
theorem Ranged.record {s : Storage} (hs : Ranged s) (v : ValId) (event : PoolEvent) :
    Ranged (s.record v event) := by
  apply hs.touches (.record s v event)
  rw [pool_record]
  exact ⟨(hs v).delegators, (hs v).acc, (hs v).entries⟩

/-- Taking a reference keeps the values in range. -/
theorem Ranged.incrementAccumulatorRefcount {s : Storage} (hs : Ranged s) (v : ValId) :
    Ranged (incrementAccumulatorRefcount s v) := by
  obtain ⟨hpool, htouches, -⟩ := incrementAccumulatorRefcount_pool s v
  apply hs.touches htouches
  rw [hpool]
  exact (hs v).retain _

/-- Dropping a reference gives a word and keeps the values in range. -/
theorem Ranged.decrementAccumulatorRefcount {s : Storage} (hs : Ranged s) (epoch : ℕ) (v : ValId) :
    (decrementAccumulatorRefcount s epoch v).1 < wordBound ∧
      Ranged (decrementAccumulatorRefcount s epoch v).2 := by
  obtain ⟨hvalue, hpool, htouches, -, -⟩ := decrement_pool s epoch v
  refine ⟨?_, ?_⟩
  · rw [hvalue]
    exact (hs v).entryValue epoch
  · apply hs.touches htouches
    rw [hpool]
    exact (hs v).release epoch

/-- Checked addition returns words. -/
theorem always_checkedAdd (e : PrecompileError) (a b : ℕ) :
    Always (· < wordBound) (checkedAdd e a b) := by
  intro c h
  obtain ⟨hlt, rfl⟩ := checkedAdd_eq_ok.mp h
  exact hlt

/-- Promotion moves the tracks only. -/
theorem promoteNext_fits {r : Delegator} (hr : r.Fits) (epoch : ℕ) :
    (promoteNext epoch r).Fits := by
  unfold promoteNext
  split
  · exact ⟨hr.stake, hr.acc, hr.rewards, hr.nextDeltaStake, wordBound_pos, hr.nextDeltaEpoch,
      Nat.two_pow_pos 64⟩
  · exact hr

/-- What a settlement holds fits. -/
def Settling.Fits (x : Settling) : Prop := x.del.Fits ∧ Ranged x.storage

/-- Paid rewards that are added to a record fit a word. -/
theorem rewardInvariant_fits {r : Delegator} (hr : r.Fits) (unclaimed rewards : ℕ) :
    Always (fun result => result.2.Fits) (rewardInvariant unclaimed r rewards) := by
  apply always_bind
  intro _
  apply always_bind
  intro unclaimed'
  refine (always_checkedAdd _ _ _).bind ?_
  intro credited hcredited
  exact always_ok ⟨hr.stake, hr.acc, hcredited, hr.deltaStake, hr.nextDeltaStake, hr.deltaEpoch,
    hr.nextDeltaEpoch⟩

/-- A compounded record is in range. -/
theorem compoundRecord_fits {r : Delegator} (hr : r.Fits) {epochAcc : ℕ}
    (hacc : epochAcc < wordBound) :
    Always (fun result => result.2.Fits) (compoundRecord r epochAcc) := by
  apply always_bind
  intro rewards
  refine (always_checkedAdd _ _ _).bind ?_
  intro stake hstake
  exact always_ok ⟨hstake, hacc, hr.rewards, hr.nextDeltaStake, wordBound_pos, hr.nextDeltaEpoch,
    Nat.two_pow_pos 64⟩

/-- Compounding a track keeps the record in range. -/
theorem compoundTrack_fits {x : Settling} (hx : x.Fits) (v : ValId) (d : Address) :
    Always Settling.Fits (compoundTrack v d x) := by
  obtain ⟨hdel, hs⟩ := hx
  obtain ⟨hvalue, hdec⟩ := hs.decrementAccumulatorRefcount x.del.deltaEpoch v
  have happly : Always (fun result => result.2.1.Fits ∧ Ranged result.2.2)
      (applyCompound x.storage v x.del) := by
    refine (compoundRecord_fits hdel hvalue).bind ?_
    rintro ⟨rewards, del⟩ hfits
    exact always_ok ⟨hfits, hdec⟩
  refine happly.bind ?_
  rintro ⟨rewards, del, s⟩ ⟨hfits, hranged⟩
  refine (rewardInvariant_fits hfits _ _).bind ?_
  rintro ⟨unclaimed, del'⟩ hcredited
  exact always_ok ⟨hcredited, hranged.record v _⟩

/-- So does compounding it when its epoch has begun. -/
theorem compoundIf_fits {x : Settling} (hx : x.Fits) (can : Bool) (v : ValId) (d : Address) :
    Always Settling.Fits (compoundIf can v d x) := by
  apply always_ite
  · exact compoundTrack_fits hx v d
  · exact always_ok hx

/-- Accruing the active stake keeps the record in range. -/
theorem accrueActive_fits {x : Settling} (hx : x.Fits) (v : ValId) (d : Address) :
    Always Settling.Fits (accrueActive v d x) := by
  obtain ⟨hdel, hs⟩ := hx
  apply always_ite
  · exact always_ok ⟨hdel, hs⟩
  · apply always_bind
    intro rewards
    have hacc : Delegator.Fits { x.del with
        accumulatedRewardPerToken := (x.storage.validators v).accumulatedRewardPerToken } :=
      ⟨hdel.stake, (hs v).acc, hdel.rewards, hdel.deltaStake, hdel.nextDeltaStake,
        hdel.deltaEpoch, hdel.nextDeltaEpoch⟩
    refine (rewardInvariant_fits hacc _ _).bind ?_
    rintro ⟨unclaimed, del⟩ hcredited
    exact always_ok ⟨hcredited, hs.record v _⟩

/-- A settlement returns a record in range and leaves the state in range. -/
theorem pullDelegatorUpToDate_fits {s : Storage} (hs : Ranged s) (v : ValId) (d : Address) :
    Always (fun result => result.1.Fits ∧ Ranged result.2) (pullDelegatorUpToDate s v d) := by
  have hstart : Settling.Fits ⟨s, promoteNext s.epoch (s.delegators v d),
      (s.validators v).unclaimedRewards⟩ :=
    ⟨promoteNext_fits ((hs v).delegators d) _, hs⟩
  refine (compoundIf_fits hstart _ v d).bind ?_
  intro x₁ h₁
  refine (compoundIf_fits h₁ _ v d).bind ?_
  intro x₂ h₂
  refine (accrueActive_fits h₂ v d).bind ?_
  rintro x₃ ⟨hdel, hranged⟩
  exact always_ok ⟨hdel, (hranged.writeValidatorUnclaimedRewards v _).writeDelegator hdel v d⟩

section Handlers

variable {s : Storage}

/-- Whatever the handler answers is in range. -/
abbrev AnswersRanged : Except PrecompileError Answer → Prop :=
  Always fun answer => Ranged answer.storage

/-- A record with more pending stake is in range. -/
theorem addPending_fits {r : Delegator} (hr : r.Fits) (b : Bool) {epoch : ℕ} (amount : ℕ)
    (hepoch : epoch < 2 ^ 64) :
    Always (fun result => result.2.Fits) (addPending b epoch amount r) := by
  apply always_ite
  · refine (always_checkedAdd _ _ _).bind ?_
    intro nextDeltaStake hnext
    exact always_ok ⟨hr.stake, hr.acc, hr.rewards, hr.deltaStake, hnext, hr.deltaEpoch, hepoch⟩
  · refine (always_checkedAdd _ _ _).bind ?_
    intro deltaStake hdelta
    exact always_ok ⟨hr.stake, hr.acc, hr.rewards, hdelta, hr.nextDeltaStake, hepoch,
      hr.nextDeltaEpoch⟩

/-- A transfer changes the balance only. -/
theorem transfer_ranged (hs : Ranged s) (msg : Message) (amount : ℕ) :
    Always Ranged (transfer s msg amount) := by
  intro s' h
  obtain ⟨-, rfl⟩ := transfer_eq_ok h
  exact hs

/-- Taking a reference when needed keeps the values in range. -/
theorem incrementIf_ranged (hs : Ranged s) (need : Bool) (v : ValId) :
    Ranged (incrementIf need s v) := by
  unfold incrementIf
  split
  · exact hs.incrementAccumulatorRefcount v
  · exact hs

/-- `internal_delegate` keeps the values in range. -/
theorem internalDelegate_ranged (hs : Ranged s) (v : ValId) (d : Address) (amount : ℕ) :
    Always Ranged (internalDelegate s v d amount) := by
  refine (pullDelegatorUpToDate_fits hs v d).bind ?_
  rintro ⟨del, s₁⟩ ⟨hdel, hs₁⟩
  have hadd : Always (fun result => Ranged result.2) (addDelegation s₁ v d amount del) := by
    refine (addPending_fits hdel _ amount (getActivationEpoch_lt s₁)).bind ?_
    rintro ⟨needAcc, del'⟩ hdel'
    apply always_bind
    intro stake
    exact always_ok
      ((incrementIf_ranged (hs₁.writeDelegator hdel' v d) needAcc v).writeValidatorStake v stake)
  refine hadd.bind ?_
  rintro ⟨del', s₂⟩ hs₂
  have henlist : Always Ranged (enlist s₂ v d del') := by
    intro s₃ h
    exact hs₂.samePools (enlist_spec h).2.pool_eq
  refine henlist.bind ?_
  intro s₃ hs₃
  exact always_ok (hs₃.record v _)

/-- Taking the rewards of a record keeps the values in range. -/
theorem takeRewards_ranged (hs : Ranged s) {r : Delegator} (hr : r.Fits) (v : ValId)
    (d : Address) : Ranged (takeRewards s v d r) := by
  have hcleared : Delegator.Fits { r with rewards := 0 } := ⟨hr.stake, hr.acc, wordBound_pos,
    hr.deltaStake, hr.nextDeltaStake, hr.deltaEpoch, hr.nextDeltaEpoch⟩
  exact (hs.writeDelegator hcleared v d).record v _

variable (hs : Ranged s) (msg : Message)
include hs

/-- `handle_change_commission` keeps the values in range. -/
theorem handleChangeCommission_ranged (v : ValId) (commission : ℕ) :
    AnswersRanged (handleChangeCommission s msg v commission) := by
  apply always_bind
  intro _
  apply always_bind
  intro _
  apply always_bind
  intro _
  apply always_bind
  intro _
  apply always_ok
  dsimp only
  split
  · have hsame := SamePools.writeValidator s v { s.validators v with commission } rfl rfl rfl rfl
    exact hs.samePools hsame.pool_eq
  · exact hs

/-- `handle_claim_rewards` keeps the values in range. -/
theorem handleClaimRewards_ranged (v : ValId) :
    AnswersRanged (handleClaimRewards s msg v) := by
  apply always_bind
  intro _
  refine (pullDelegatorUpToDate_fits hs v msg.caller).bind ?_
  rintro ⟨del, s₁⟩ ⟨hdel, hs₁⟩
  apply always_ite
  · exact always_ok hs₁
  · refine (transfer_ranged hs₁ msg _).bind ?_
    intro s₂ hs₂
    exact always_ok (takeRewards_ranged hs₂ hdel v msg.caller)

/-- `handle_external_reward` keeps the values in range. -/
theorem handleExternalReward_ranged (v : ValId) :
    AnswersRanged (handleExternalReward s msg v) := by
  apply always_bind
  intro _
  apply always_bind
  intro _
  apply always_bind
  intro _
  apply always_bind
  intro _
  apply always_bind
  intro _
  apply always_bind
  intro rewardAcc
  refine (always_checkedAdd _ _ _).bind ?_
  intro newAcc hacc
  apply always_bind
  intro unclaimed
  exact always_ok (((hs.writeValidatorAcc hacc v).writeValidatorUnclaimedRewards v _).record v _)

/-- `handle_delegate` keeps the values in range. -/
theorem handleDelegate_ranged (v : ValId) : AnswersRanged (handleDelegate s msg v) := by
  apply always_bind
  intro _
  apply always_bind
  intro _
  apply always_ite
  · exact always_ok hs
  · apply always_bind
    intro _
    refine (internalDelegate_ranged hs v msg.caller _).bind ?_
    intro s₁ hs₁
    exact always_ok hs₁

/-- `handle_undelegate` keeps the values in range. -/
theorem handleUndelegate_ranged (v : ValId) (amount : ℕ) (w : WithdrawId) :
    AnswersRanged (handleUndelegate s msg v amount w) := by
  apply always_bind
  intro _
  apply always_ite
  · exact always_ok hs
  · apply always_bind
    intro _
    apply always_bind
    intro _
    refine (pullDelegatorUpToDate_fits hs v msg.caller).bind ?_
    rintro ⟨del, s₁⟩ ⟨hdel, hs₁⟩
    apply always_bind
    intro _
    apply always_bind
    intro remaining
    have hsub (amount : ℕ) :
        Always (· < wordBound) (checkedSub internalError del.stake amount) := by
      intro left h
      obtain ⟨-, rfl⟩ := checkedSub_eq_ok.mp h
      exact (Nat.sub_le _ _).trans_lt hdel.stake
    refine (hsub _).bind ?_
    intro left hleft
    apply always_bind
    intro stake
    -- the flags after the undelegation are written with the validator's own auth address
    have hflags (t : Storage) (ht : Ranged t) (val : Validator) (r : Delegator)
        (hauth : val.authAddress = (t.validators v).authAddress) :
        Ranged (updateValidatorFlagsAfterUndelegate t v val r msg.caller).2 :=
      ht.samePools (updateFlagsAfterUndelegate_samePools t v val r msg.caller hauth).pool_eq
    have hremove (t : Storage) (ht : Ranged t) (r : Delegator) :
        Ranged (if r.Exists then t else linkedListRemove t v msg.caller) :=
      ht.samePools (linkedListRemoveIf_samePools t v msg.caller r).pool_eq
    apply always_ok
    apply Ranged.record
    apply hremove
    apply Ranged.writeDelegator
    · apply Ranged.incrementAccumulatorRefcount
      apply Ranged.writeWithdrawalRequest
      apply hflags
      · exact hs₁.writeValidatorStake v stake
      · simp [Storage.writeValidatorStake, Storage.writeValidator]
    · refine ⟨hleft, ?_, hdel.rewards, hdel.deltaStake, hdel.nextDeltaStake, hdel.deltaEpoch,
        hdel.nextDeltaEpoch⟩
      dsimp only
      split
      · exact wordBound_pos
      · exact hdel.acc

/-- `handle_withdraw` keeps the values in range. -/
theorem handleWithdraw_ranged (v : ValId) (w : WithdrawId) :
    AnswersRanged (handleWithdraw s msg v w) := by
  apply always_bind
  intro _
  apply always_bind
  intro _
  apply always_bind
  intro _
  obtain ⟨-, hdec⟩ := hs.decrementAccumulatorRefcount (s.withdrawals v msg.caller w).epoch v
  apply always_bind
  intro rewards
  apply always_bind
  intro _
  apply always_bind
  intro unclaimed
  apply always_bind
  intro totalPayout
  refine (transfer_ranged (hdec.writeValidatorUnclaimedRewards v _) msg _).bind ?_
  intro s₂ hs₂
  exact always_ok ((hs₂.writeWithdrawalRequest v msg.caller w _).record v _)

/-- `handle_compound` keeps the values in range. -/
theorem handleCompound_ranged (v : ValId) : AnswersRanged (handleCompound s msg v) := by
  apply always_bind
  intro _
  refine (pullDelegatorUpToDate_fits hs v msg.caller).bind ?_
  rintro ⟨del, s₁⟩ ⟨hdel, hs₁⟩
  apply always_ite
  · exact always_ok hs₁
  · refine (internalDelegate_ranged (takeRewards_ranged hs₁ hdel v msg.caller) v
      msg.caller _).bind ?_
    intro s₂ hs₂
    exact always_ok hs₂

/-- A new validator starts in range. -/
theorem createValidator_ranged (secpPubkey blsPubkey : Bytes) (authAddress : Address)
    (commission : ℕ) : Always (fun result => Ranged result.2)
      (createValidator s secpPubkey blsPubkey authAddress commission) := by
  apply always_bind
  intro _
  apply always_bind
  intro _
  apply always_ok
  intro v
  have hpool := hs v
  refine ⟨hpool.delegators, ?_, hpool.entries⟩
  by_cases hv : v = s.lastValId + 1
  · simp [Storage.pool, Storage.writeValidator, hv, wordBound_pos]
  · simpa [Storage.pool, Storage.writeValidator, hv] using hpool.acc

/-- `handle_add_validator` keeps the values in range. -/
theorem handleAddValidator_ranged (payload : Bytes) :
    AnswersRanged (handleAddValidator s msg payload) := by
  apply always_bind
  intro _
  apply always_bind
  intro _
  apply always_bind
  intro _
  apply always_bind
  intro _
  apply always_bind
  intro _
  refine (createValidator_ranged hs _ _ _ _).bind ?_
  rintro ⟨newValId, s₁⟩ hs₁
  refine (internalDelegate_ranged hs₁ _ _ _).bind ?_
  intro s₂ hs₂
  exact always_ok hs₂

/-- `handle_get_delegator_write` keeps the values in range. -/
theorem handleGetDelegatorWrite_ranged (v : ValId) (d : Address) :
    AnswersRanged (handleGetDelegatorWrite s msg v d) := by
  apply always_bind
  intro _
  refine (pullDelegatorUpToDate_fits hs v d).bind ?_
  rintro ⟨del, s₁⟩ ⟨-, hs₁⟩
  exact always_ok hs₁

/-- `handle_syscall_reward` keeps the values in range. -/
theorem handleSyscallReward_ranged (blockAuthor : Address) (blockReward : ℕ) :
    AnswersRanged (handleSyscallReward s msg blockAuthor blockReward) := by
  apply always_bind
  intro _
  apply always_bind
  intro _
  apply always_bind
  intro _
  apply always_bind
  intro _
  apply always_bind
  intro commissionAmount
  apply always_bind
  intro delReward
  refine (always_checkedAdd _ _ _).bind ?_
  intro rewards hrewards
  apply always_bind
  intro unclaimed
  have hacc (t : Storage) (ht : Ranged t) (v : ValId) (acc delReward activeStake : ℕ) :
      Always Ranged (applyRewardAcc t v acc delReward activeStake) := by
    apply always_ite
    · apply always_bind
      intro rewardAcc
      refine (always_checkedAdd _ _ _).bind ?_
      intro newAcc hnewAcc
      exact always_ok (ht.writeValidatorAcc hnewAcc v)
    · exact always_ok ht
  have hauth := (hs (s.valIdSecp blockAuthor)).delegators
    (s.validators (s.valIdSecp blockAuthor)).authAddress
  have hcredited : Delegator.Fits { s.delegators (s.valIdSecp blockAuthor)
      (s.validators (s.valIdSecp blockAuthor)).authAddress with rewards } :=
    ⟨hauth.stake, hauth.acc, hrewards, hauth.deltaStake, hauth.nextDeltaStake, hauth.deltaEpoch,
      hauth.nextDeltaEpoch⟩
  refine (hacc _ (((hs.writeDelegator hcredited _ _).record _ _).writeValidatorUnclaimedRewards
    _ _) _ _ _ _).bind ?_
  intro s₁ hs₁
  apply always_ok
  apply Ranged.record
  exact hs₁.samePools (SamePools.proposerValId s₁ _).pool_eq

/-- `handle_syscall_snapshot` keeps the values in range. -/
theorem handleSyscallSnapshot_ranged : AnswersRanged (handleSyscallSnapshot s msg) := by
  intro answer h
  obtain ⟨-, -, hstorage⟩ := handleSyscallSnapshot_eq_ok h
  rw [hstorage]
  intro v
  have hsnap := takeSnapshot_pool s v
  refine ⟨?_, ?_, ?_⟩
  · rw [hsnap.delegators_eq]
    exact (hs v).delegators
  · rw [hsnap.acc_eq]
    exact (hs v).acc
  · rw [hsnap.accumulators_eq]
    exact (hs v).entries

/-- `handle_syscall_on_epoch_change` keeps the values in range. -/
theorem handleSyscallOnEpochChange_ranged (epoch : Fin (2 ^ 64)) :
    AnswersRanged (handleSyscallOnEpochChange s msg epoch) := by
  apply always_bind
  intro _
  apply always_bind
  intro _
  apply always_bind
  intro _
  apply always_ok
  intro v
  have hpool : (Storage.pool { refreshAccumulators s epoch.val with
      inBoundary := false, epoch := epoch.val } v) = (refreshAccumulators s epoch.val).pool v := rfl
  obtain ⟨hrefresh, hskip⟩ := (refreshAccumulators_spec s epoch.val).2 v
  rw [hpool]
  by_cases hmem : (s.pool v).inSnapshot
  · rw [hrefresh hmem]
    exact (hs v).refreshed _ _
  · rw [hskip hmem]
    exact hs v

/-- Every method leaves the state in range. -/
theorem runStakingWrite_ranged (call : StakingCall) :
    AnswersRanged (runStakingWrite s msg call) := by
  cases call with
  | addValidator payload => exact handleAddValidator_ranged hs msg payload
  | delegate v => exact handleDelegate_ranged hs msg v
  | undelegate v amount w =>
    apply always_bind
    intro _
    exact handleUndelegate_ranged hs msg v amount w
  | withdraw v w =>
    apply always_bind
    intro _
    exact handleWithdraw_ranged hs msg v w
  | compound v =>
    apply always_bind
    intro _
    exact handleCompound_ranged hs msg v
  | claimRewards v =>
    apply always_bind
    intro _
    exact handleClaimRewards_ranged hs msg v
  | changeCommission v commission =>
    apply always_bind
    intro _
    exact handleChangeCommission_ranged hs msg v commission
  | externalReward v => exact handleExternalReward_ranged hs msg v
  | getDelegator v d =>
    apply always_bind
    intro _
    exact handleGetDelegatorWrite_ranged hs msg v d
  | syscallReward author reward => exact handleSyscallReward_ranged hs msg author _
  | syscallSnapshot =>
    apply always_bind
    intro _
    exact handleSyscallSnapshot_ranged hs msg
  | syscallOnEpochChange epoch =>
    apply always_bind
    intro _
    exact handleSyscallOnEpochChange_ranged hs msg epoch

end Handlers

/-- Every reachable state is in range. -/
theorem reachable_ranged {guard : Storage → Message × StakingCall → Storage → Prop} {s : Storage}
    (h : Reachable stakingStep guard .empty s) : Ranged s := by
  refine h.invariant Ranged ?_ ?_
  · intro v
    exact ⟨fun _ => Delegator.zero_fits, wordBound_pos, fun _ => wordBound_pos⟩
  · intro s tx s' hs hstep _
    obtain ⟨answer, hanswer, hok⟩ := bind_eq_ok.mp hstep
    cases hok
    have hcredit : Ranged (s.credit (income tx.1 tx.2)) := hs
    exact runStakingWrite_ranged hcredit tx.1 tx.2 answer hanswer

end SuwappuRevm.Staking
