import SuwappuRevm.Staking.EpochBoundary

/-!
# Dust positions

`DUST_THRESHOLD` is the least delegation. Delegating checks it and undelegating sweeps what would
be left below it, but compounding restakes whatever rewards there are. Stake, pending stake and
their sums are never dust in a run whose compoundings leave none.
-/

namespace SuwappuRevm.Staking

open Foundations

/-- Nothing, or at least the threshold. -/
def DustFree (amount : ℕ) : Prop := amount = 0 ∨ dustThreshold ≤ amount

/-- Two amounts that are not dust add up to one. -/
theorem DustFree.add {a b : ℕ} (ha : DustFree a) (hb : DustFree b) : DustFree (a + b) := by
  unfold DustFree at *
  omega

/-- What an undelegation leaves is not dust. -/
theorem dustFree_sub_leaving (stake amount : ℕ) : DustFree (stake - leaving stake amount) := by
  unfold DustFree leaving
  split
  · exact .inl (Nat.sub_self stake)
  · omega

/-- Neither the stake nor a pending stake of a record is dust. -/
structure Delegator.DustFree (r : Delegator) : Prop where
  stake : Staking.DustFree r.stake
  delta : Staking.DustFree r.deltaStake
  next : Staking.DustFree r.nextDeltaStake

/-- The pending stake of the track that the boundary flag selects. -/
def Delegator.trackStake (r : Delegator) (inBoundary : Bool) : ℕ :=
  if inBoundary then r.nextDeltaStake else r.deltaStake

namespace Delegator

variable {r : Delegator}

/-- Moving a track moves no dust. -/
theorem DustFree.shiftNext (h : r.DustFree) : r.shiftNext.DustFree := ⟨h.stake, h.next, .inl rfl⟩

/-- Folding a track into the stake makes no dust. -/
theorem DustFree.compounded (h : r.DustFree) (acc rewards : ℕ) :
    (r.compounded acc rewards).DustFree :=
  ⟨h.stake.add h.delta, h.next, .inl rfl⟩

/-- An undelegation leaves no dust. -/
theorem DustFree.removed (h : r.DustFree) (amount : ℕ) :
    (r.removed (leaving r.stake amount)).DustFree :=
  ⟨dustFree_sub_leaving r.stake amount, h.delta, h.next⟩

/-- An addition makes no dust exactly when its track has none after it. -/
theorem DustFree.addTo_iff (h : r.DustFree) (b : Bool) (epoch amount : ℕ) :
    (r.addTo b epoch amount).DustFree ↔ Staking.DustFree (r.trackStake b + amount) := by
  cases b with
  | false => exact ⟨fun h' => h'.delta, fun hsum => ⟨h.stake, hsum, h.next⟩⟩
  | true => exact ⟨fun h' => h'.next, fun hsum => ⟨h.stake, h.delta, hsum⟩⟩

/-- The track of a record without dust has none. -/
theorem DustFree.track (h : r.DustFree) (b : Bool) : Staking.DustFree (r.trackStake b) := by
  cases b with
  | false => exact h.delta
  | true => exact h.next

end Delegator

namespace Pool

/-- No record of a pool holds dust. -/
def DustFree (p : Pool) : Prop := ∀ d, (p.delegators d).DustFree

/-- The record that a compounding adds its rewards to: settled, its rewards taken, and settled
again. -/
def restaker (p : Pool) (cur : ℕ) (d : Address) : Delegator :=
  (((p.pulled cur d).take d).pulled cur d).delegators d

variable {p p' : Pool} {d : Address} {r : Delegator}

/-- Writing one record. -/
theorem dustFree_update_iff (hp : p.DustFree)
    (h : p'.delegators = Function.update p.delegators d r) : p'.DustFree ↔ r.DustFree := by
  constructor
  · intro hp'
    have hself := hp' d
    rwa [h, Function.update_self] at hself
  · intro hr d'
    rw [h]
    by_cases hd : d' = d
    · rw [hd, Function.update_self]
      exact hr
    · rw [Function.update_of_ne hd]
      exact hp d'

/-- A settlement makes no dust. -/
theorem DustFree.pulled (hp : p.DustFree) (cur : ℕ) (d : Address) : (p.pulled cur d).DustFree := by
  have hpromoted : (p.promoted cur d).DustFree := by
    refine (dustFree_update_iff hp rfl).mpr ?_
    unfold promoteNext
    split
    · exact (hp d).shiftNext
    · exact hp d
  have hcompounded (q : Pool) (hq : q.DustFree) (can : Bool) : (q.compoundedIf d can).DustFree := by
    unfold compoundedIf
    split
    · exact (dustFree_update_iff hq rfl).mpr ((hq d).compounded _ _)
    · exact hq
  have haccrued (q : Pool) (hq : q.DustFree) : (q.accrued d).DustFree := by
    unfold accrued
    split
    · exact hq
    · have hrecord (rewards : ℕ) : (q.accrue d rewards).delegators =
          Function.update q.delegators d ((q.delegators d).accrued q.acc rewards) := rfl
      exact (dustFree_update_iff hq (hrecord _)).mpr ⟨(hq d).stake, (hq d).delta, (hq d).next⟩
  exact haccrued _ (hcompounded _ (hcompounded _ hpromoted _) _)

/-- Taking the credited rewards makes no dust. -/
theorem DustFree.take (hp : p.DustFree) (d : Address) : (p.take d).DustFree := by
  have hrecord : (p.take d).delegators =
      Function.update p.delegators d { p.delegators d with rewards := 0 } := rfl
  exact (dustFree_update_iff hp hrecord).mpr ⟨(hp d).stake, (hp d).delta, (hp d).next⟩

/-- Crediting a commission makes no dust. -/
theorem DustFree.credit (hp : p.DustFree) (d : Address) (amount : ℕ) :
    (p.credit d amount).DustFree := by
  have hrecord : (p.credit d amount).delegators = Function.update p.delegators d
      { p.delegators d with rewards := (p.delegators d).rewards + amount } := rfl
  exact (dustFree_update_iff hp hrecord).mpr ⟨(hp d).stake, (hp d).delta, (hp d).next⟩

/-- A delegation makes no dust exactly when the track it joins has none after it. -/
theorem DustFree.delegated_iff (hp : p.DustFree) (cur : ℕ) (b : Bool) (d : Address) (amount : ℕ) :
    (p.delegated cur b d amount).DustFree ↔
      Staking.DustFree (((p.pulled cur d).delegators d).trackStake b + amount) := by
  have hpulled := hp.pulled cur d
  exact (dustFree_update_iff hpulled rfl).trans ((hpulled d).addTo_iff b _ amount)

/-- A delegation of the least amount makes no dust. -/
theorem DustFree.delegated (hp : p.DustFree) (cur : ℕ) (b : Bool) (d : Address) {amount : ℕ}
    (hamount : dustThreshold ≤ amount) : (p.delegated cur b d amount).DustFree :=
  (hp.delegated_iff cur b d amount).mpr (((hp.pulled cur d d).track b).add (.inr hamount))

/-- An undelegation makes no dust. -/
theorem DustFree.undelegated (hp : p.DustFree) (cur : ℕ) (b : Bool) (d : Address) (amount : ℕ)
    (w : WithdrawId) : (p.undelegated cur b d amount w).DustFree := by
  have hpulled := hp.pulled cur d
  exact (dustFree_update_iff hpulled rfl).mpr ((hpulled d).removed amount)

/-- Claiming makes no dust. -/
theorem DustFree.claimed (hp : p.DustFree) (cur : ℕ) (d : Address) :
    (p.claimed cur d).DustFree := by
  have hpulled := hp.pulled cur d
  unfold Pool.claimed
  dsimp only
  split
  · exact hpulled
  · exact hpulled.take d

/-- A compounding makes no dust exactly when there is nothing to restake, or the track it joins has
the threshold after it. -/
theorem DustFree.restaked_iff (hp : p.DustFree) (cur : ℕ) (b : Bool) (d : Address) :
    (p.restaked cur b d).DustFree ↔ ((p.pulled cur d).delegators d).rewards = 0 ∨
      dustThreshold ≤
        (p.restaker cur d).trackStake b + ((p.pulled cur d).delegators d).rewards := by
  have hpulled := hp.pulled cur d
  unfold restaked restaker
  dsimp only
  split
  next hzero => exact ⟨fun _ => .inl hzero, fun _ => hpulled⟩
  next hrewards =>
    rw [(hpulled.take d).delegated_iff]
    unfold Staking.DustFree
    omega

end Pool

section Calls

variable {s s' : Storage}

/-- No record holds dust. -/
def Storage.DustFree (s : Storage) : Prop := ∀ v, (s.pool v).DustFree

/-- A call on one pool makes no dust exactly when it makes none there. -/
theorem Touches.dustFree_iff {v : ValId} (h : Touches v s s') (hs : s.DustFree) :
    s'.DustFree ↔ (s'.pool v).DustFree := by
  constructor
  · intro hs'
    exact hs' v
  · intro hpool v'
    by_cases hv : v' = v
    · rwa [hv]
    · rw [h.pool_of_ne v' hv]
      exact hs v'

/-- A call that keeps the records makes no dust. -/
theorem Storage.DustFree.of_same (hs : s.DustFree) (h : ∀ v, s'.delegators v = s.delegators v) :
    s'.DustFree := by
  intro v d
  change (s'.delegators v d).DustFree
  rw [h]
  exact hs v d

/-- The condition on a compounding: nothing to restake, or the threshold in the track that the
rewards join. -/
def compoundsNoDust (s : Storage) (tx : Message × StakingCall) : Bool :=
  match tx.2 with
  | .compound v =>
    let rewards := (((s.pool v).pulled s.epoch tx.1.caller).delegators tx.1.caller).rewards
    let pending := ((s.pool v).restaker s.epoch tx.1.caller).trackStake s.inBoundary
    rewards == 0 || decide (dustThreshold ≤ pending + rewards)
  | _ => true

/-- A compounding makes no dust exactly when it meets the condition. -/
theorem handleCompound_dustFree_iff {msg : Message} {v : ValId} {answer : Answer}
    (hs : s.DustFree) (h : handleCompound s msg v = .ok answer) :
    answer.storage.DustFree ↔ compoundsNoDust s (msg, .compound v) = true := by
  obtain ⟨i, o, hcall⟩ := handleCompound_spec h
  rw [hcall.touches.dustFree_iff hs, handleCompound_pool h, (hs v).restaked_iff]
  simp only [compoundsNoDust, Bool.or_eq_true, beq_iff_eq, decide_eq_true_eq]

/-- A new validator's first delegation is no dust. -/
theorem handleAddValidator_dustFree {msg : Message} {payload : Bytes} {answer : Answer}
    (hs : s.DustFree) (h : handleAddValidator s msg payload = .ok answer) :
    answer.storage.DustFree := by
  obtain ⟨v, s₁, _, _, auth, _, hcreate, -, hmin, hdelegate⟩ := handleAddValidator_creates h
  have hs₁ : s₁.DustFree := by
    simp only [createValidator, bind_eq_ok, pure_eq_ok, Prod.mk.injEq] at hcreate
    obtain ⟨-, -, -, -, -, rfl⟩ := hcreate
    exact hs.of_same fun _ => rfl
  have hamount : dustThreshold ≤ msg.callValue := le_trans (by decide) hmin
  rw [(internalDelegate_touches hdelegate).dustFree_iff hs₁, internalDelegate_pool hdelegate]
  exact (hs₁ v).delegated _ _ auth hamount

/-- The dispatch: every call makes no dust, a compounding on its condition. -/
theorem runStakingWrite_dustFree {msg : Message} {call : StakingCall} {answer : Answer}
    (hs : s.DustFree) (hcompound : compoundsNoDust s (msg, call) = true)
    (h : runStakingWrite s msg call = .ok answer) : answer.storage.DustFree := by
  cases call with
  | addValidator payload => exact handleAddValidator_dustFree hs h
  | delegate v =>
    rw [(handleDelegate_spec h).touches.dustFree_iff hs, handleDelegate_pool h]
    split
    next => exact hs v
    next hvalue =>
      simp only [runStakingWrite, handleDelegate, bind_eq_ok, if_neg hvalue, failIf_eq_ok,
        not_lt] at h
      obtain ⟨-, -, -, -, -, hmin, -⟩ := h
      exact (hs v).delegated _ _ msg.caller hmin
  | undelegate v amount w =>
    obtain ⟨-, h⟩ := notPayable_eq_ok h
    rw [(handleUndelegate_spec h).touches.dustFree_iff hs, handleUndelegate_pool h]
    split
    · exact hs v
    · exact (hs v).undelegated _ _ msg.caller amount w
  | withdraw v w =>
    obtain ⟨-, h⟩ := notPayable_eq_ok h
    obtain ⟨-, -, -, -, -, -, htouches, -, hpool⟩ := handleWithdraw_pay h
    rw [htouches.dustFree_iff hs, hpool]
    exact hs v
  | compound v =>
    obtain ⟨-, h⟩ := notPayable_eq_ok h
    exact (handleCompound_dustFree_iff hs h).mpr hcompound
  | claimRewards v =>
    obtain ⟨-, h⟩ := notPayable_eq_ok h
    obtain ⟨o, hcall⟩ := handleClaimRewards_spec h
    rw [hcall.touches.dustFree_iff hs, handleClaimRewards_pool h]
    exact (hs v).claimed s.epoch msg.caller
  | changeCommission v commission =>
    obtain ⟨-, -, hpools, -⟩ := handleChangeCommission_roster (notPayable_eq_ok h).2
    intro v'
    rw [hpools]
    exact hs v'
  | externalReward v =>
    obtain ⟨-, -, htouches, -, hpool⟩ := handleExternalReward_reward h
    rw [htouches.dustFree_iff hs, hpool]
    exact hs v
  | getDelegator v d =>
    obtain ⟨-, h⟩ := notPayable_eq_ok h
    rw [(handleGetDelegatorWrite_spec h).touches.dustFree_iff hs, handleGetDelegatorWrite_pool h]
    exact (hs v).pulled s.epoch d
  | syscallReward author reward =>
    obtain ⟨-, -, -, htouches, -, hpool⟩ := handleSyscallReward_reward h
    rw [htouches.dustFree_iff hs, hpool]
    exact (hs _).credit _ _
  | syscallSnapshot =>
    obtain ⟨-, -, htake⟩ := handleSyscallSnapshot_eq_ok (notPayable_eq_ok h).2
    rw [htake]
    exact hs.of_same (takeSnapshot_lists s).2
  | syscallOnEpochChange next =>
    obtain ⟨-, -, hchange⟩ := handleSyscallOnEpochChange_eq_ok (notPayable_eq_ok h).2
    rw [hchange]
    exact hs.of_same (changeEpoch_delegators s next)

/-- Stakes and pending stakes are nothing or at least the threshold in every state of a run whose
compoundings each restake nothing, or leave the threshold in the track they join; and a compounding
from such a state makes dust exactly when it does neither. -/
theorem stakes_dust_free
    (h : Reachable stakingStep (fun s tx _ => compoundsNoDust s tx) .empty s) :
    (∀ v d, let del := s.delegators v d
      (del.stake = 0 ∨ dustThreshold ≤ del.stake) ∧
      (del.deltaStake = 0 ∨ dustThreshold ≤ del.deltaStake) ∧
      (del.nextDeltaStake = 0 ∨ dustThreshold ≤ del.nextDeltaStake)) ∧
    ∀ msg v s', stakingStep s (msg, .compound v) = .ok s' →
      (s'.DustFree ↔ compoundsNoDust s (msg, .compound v) = true) := by
  have hs : s.DustFree := by
    refine h.invariant Storage.DustFree (fun _ _ => ⟨.inl rfl, .inl rfl, .inl rfl⟩) ?_
    intro s tx s' hs hstep hcompound
    simp only [stakingStep, bind_eq_ok, pure_eq_ok] at hstep
    obtain ⟨answer, hrun, rfl⟩ := hstep
    have hcredit : (s.credit (income tx.1 tx.2)).DustFree := hs
    exact runStakingWrite_dustFree hcredit hcompound hrun
  refine ⟨fun v d => ⟨(hs v d).stake, (hs v d).delta, (hs v d).next⟩, fun msg v s' hstep => ?_⟩
  simp only [stakingStep, bind_eq_ok, pure_eq_ok] at hstep
  obtain ⟨answer, hrun, rfl⟩ := hstep
  have hcredit : (s.credit (income msg (.compound v))).DustFree := hs
  have hiff := handleCompound_dustFree_iff hcredit (notPayable_eq_ok hrun).2
  exact hiff

/-- After the opening calls no stake of an account is dust. -/
theorem stakes_dust_free_opening : ∃ s : Storage,
    Reachable stakingStep (fun s tx _ => compoundsNoDust s tx) .empty s ∧
    (s.delegators 1 9).deltaStake ≠ 0 ∧ dustThreshold ≤ (s.delegators 1 9).deltaStake := by
  have hrun : (runAll stakingStep (fun s tx _ => compoundsNoDust s tx) .empty openingCalls).any
      (fun s => (s.delegators 1 9).deltaStake != 0) = true := by decide +kernel
  obtain ⟨s, hs, hstake⟩ := Option.any_eq_true _ _ |>.mp hrun
  have hreach : Reachable stakingStep (fun s tx _ => compoundsNoDust s tx) .empty s :=
    reachable_of_runAll (fun _ _ _ hcheck => hcheck) .start hs
  have hne : (s.delegators 1 9).deltaStake ≠ 0 := bne_iff_ne.mp hstake
  exact ⟨s, hreach, hne, ((stakes_dust_free hreach).1 1 9).2.1.resolve_left hne⟩

/-- A validator joins, an account delegates a tenth of its stake, the least external reward is paid
in the next epoch, and the account compounds. -/
def dustCalls : List (Message × StakingCall) :=
  [(userMessage 7 activeValidatorStake opener_ne_staking, .addValidator samplePayload),
    (userMessage 9 (10 ^ 24) payer_ne_staking, .delegate 1),
    (systemMessage, .syscallSnapshot),
    (systemMessage, .syscallOnEpochChange 1),
    (userMessage 7 minExternalReward opener_ne_staking, .externalReward 1),
    (userMessage 9 0 payer_ne_staking, .compound 1)]

/-- The account of the run has compounded a reward below the threshold. -/
theorem compound_leaves_dust : ∃ s : Storage,
    Reachable stakingStep (fun _ _ _ => True) .empty s ∧
    (s.delegators 1 9).deltaStake = 90909090 ∧
    ¬((s.delegators 1 9).deltaStake = 0 ∨ dustThreshold ≤ (s.delegators 1 9).deltaStake) := by
  have hstake : ((runAt dustCalls 6).delegators 1 9).deltaStake = 90909090 := by decide +kernel
  refine ⟨runAt dustCalls 6, stateAt_reachable stakingStep .empty dustCalls 6, hstake, ?_⟩
  rw [hstake]
  decide

end Calls

end SuwappuRevm.Staking
