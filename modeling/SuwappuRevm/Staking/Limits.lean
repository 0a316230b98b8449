import SuwappuRevm.Staking.FrequentSettlement
import SuwappuRevm.Staking.Operations
import SuwappuRevm.Staking.Views

/-!
# Limits of a run

Three things that no call checks and no call needs to: an accumulator is at most the received value
per unit of stake, no record belongs to a reserved address, and no view has more than the largest
commission.
-/

namespace SuwappuRevm.Staking

open Foundations

section Accumulator

variable {s : Storage}

/-- A share of at least one unit is at most the whole. -/
theorem Pool.reward_acc_le (p : Pool) (cur : ℕ) (b : Bool) (amount : ℕ) :
    (p.reward cur b amount).acc ≤ p.acc + unitBias * amount := by
  have hshare : amount * unitBias / p.view b ≤ amount * unitBias := Nat.div_le_self ..
  rw [Nat.mul_comm unitBias]
  exact Nat.add_le_add_left hshare _

/-- A call raises an accumulator by at most its income. -/
theorem runStakingWrite_acc_le {msg : Message} {call : StakingCall} {answer : Answer}
    (hreg : Registered s) (h : runStakingWrite s msg call = .ok answer) (v : ValId) :
    (answer.storage.pool v).acc ≤ (s.pool v).acc + unitBias * income msg call := by
  have hof {v' : ValId} (htouches : Touches v' s answer.storage)
      (hacc : (answer.storage.pool v').acc ≤ (s.pool v').acc + unitBias * income msg call) :
      (answer.storage.pool v).acc ≤ (s.pool v).acc + unitBias * income msg call := by
    by_cases hv : v = v'
    · exact hv ▸ hacc
    · rw [htouches.pool_of_ne v hv]
      exact Nat.le_add_right ..
  have hoperation {d : Address} {v' : ValId} (hop : operation (msg, call) = some (d, v')) :
      (answer.storage.pool v).acc ≤ (s.pool v).acc + unitBias * income msg call := by
    have hoperates := runStakingWrite_operates hop h
    refine hof hoperates.touches ?_
    rw [hoperates.pool_eq, Pool.operated_acc]
    exact Nat.le_add_right ..
  cases call with
  | addValidator payload =>
    obtain ⟨v', s₁, _, _, auth, _, hcreate, -, -, hdelegate⟩ := handleAddValidator_creates h
    obtain ⟨-, -, hpool, -⟩ := createValidator_spec hreg hcreate
    have hacc : (answer.storage.pool v).acc = (s₁.pool v).acc := by
      by_cases hv : v = v'
      · subst hv
        rw [internalDelegate_pool hdelegate]
        exact ((s₁.pool v).pulled_upkeep s₁.epoch auth).acc_eq
      · rw [(internalDelegate_touches hdelegate).pool_of_ne v hv]
    rw [hacc, hpool]
    exact Nat.le_add_right ..
  | changeCommission v' commission =>
    obtain ⟨-, -, hpools, -⟩ := handleChangeCommission_roster (notPayable_eq_ok h).2
    rw [hpools]
    exact Nat.le_add_right ..
  | externalReward v' =>
    obtain ⟨-, -, htouches, -, hpool⟩ := handleExternalReward_reward h
    refine hof htouches ?_
    rw [hpool]
    exact Pool.reward_acc_le ..
  | syscallReward author reward =>
    obtain ⟨-, -, hle, htouches, -, hpool⟩ := handleSyscallReward_reward h
    refine hof htouches ?_
    rw [hpool]
    refine (Pool.reward_acc_le ..).trans (Nat.add_le_add_left ?_ _)
    exact Nat.mul_le_mul_left _ (Nat.sub_le ..)
  | syscallSnapshot =>
    obtain ⟨-, -, htake⟩ := handleSyscallSnapshot_eq_ok (notPayable_eq_ok h).2
    rw [htake, (takeSnapshot_pool s v).acc_eq]
    exact Nat.le_add_right ..
  | syscallOnEpochChange next =>
    obtain ⟨-, -, hchange⟩ := handleSyscallOnEpochChange_eq_ok (notPayable_eq_ok h).2
    obtain ⟨⟨-, -, -, hvalidators, -, -⟩, -⟩ := refreshAccumulators_spec s next
    have hacc : (answer.storage.pool v).acc = (s.pool v).acc := by
      rw [hchange]
      exact congrArg (fun vals => (vals v).accumulatedRewardPerToken) hvalidators
    rw [hacc]
    exact Nat.le_add_right ..
  | _ => exact hoperation rfl

/-- No accumulator exceeds the value that ever came in. -/
theorem reachable_acc_le {guard : Storage → Message × StakingCall → Storage → Prop}
    (hguard : ∀ s tx s', guard s tx s' → s'.epoch < 2 ^ 63)
    (h : Reachable stakingStep guard .empty s) (v : ValId) :
    (s.pool v).acc ≤ unitBias * s.received := by
  induction h with
  | start => exact Nat.zero_le _
  | @call s s' tx hreach hstep hg ih =>
    have hepoch := reachable_epoch_lt hguard hreach
    obtain ⟨hreg, horder⟩ := reachable_inOrder hreach (by omega)
    rw [stakingStep_received hreg horder hstep, Nat.mul_add]
    simp only [stakingStep, bind_eq_ok, pure_eq_ok] at hstep
    obtain ⟨answer, hrun, rfl⟩ := hstep
    exact (runStakingWrite_acc_le (hreg.credit _) hrun v).trans (Nat.add_le_add_right ih _)

end Accumulator

section Reserved

variable {s : Storage} {d : Address}

/-- The addresses that list nodes use: none of them delegates. -/
def ReservedAddress (d : Address) : Prop := d = 0 ∨ d = sentinelAddress

instance (d : Address) : Decidable (ReservedAddress d) := inferInstanceAs (Decidable (_ ∨ _))

/-- A reserved address is the auth address of no validator and has neither record nor request. -/
structure Unused (s : Storage) (d : Address) : Prop where
  auth_ne : ∀ v, (s.validators v).Exists → (s.validators v).authAddress ≠ d
  record_eq : ∀ v, s.delegators v d = .zero
  requests_eq : ∀ v w, (s.withdrawals v d w).amount = 0

/-- What touches neither an auth address nor the records and requests of an address. -/
theorem Unused.of_same {s' : Storage} (hs : Unused s d)
    (hauth : ∀ v, (s'.validators v).authAddress = (s.validators v).authAddress)
    (hrecord : ∀ v, (s'.pool v).delegators d = (s.pool v).delegators d)
    (hrequests : ∀ v, (s'.pool v).withdrawals d = (s.pool v).withdrawals d) : Unused s' d where
  auth_ne v hv := by
    rw [hauth]
    refine hs.auth_ne v ?_
    rwa [Validator.Exists, ← hauth]
  record_eq v := (hrecord v).trans (hs.record_eq v)
  requests_eq v w := by
    have hrow : s'.withdrawals v d = s.withdrawals v d := hrequests v
    rw [hrow]
    exact hs.requests_eq v w

/-- A call on one validator keeps an address unused when its pool keeps record and requests. -/
theorem Unused.touches {s' : Storage} {v : ValId} (hs : Unused s d) (htouches : Touches v s s')
    (hrecord : (s'.pool v).delegators d = (s.pool v).delegators d)
    (hrequests : (s'.pool v).withdrawals d = (s.pool v).withdrawals d) : Unused s' d := by
  refine hs.of_same htouches.authAddress_eq (fun v' => ?_) fun v' => ?_
  · by_cases hv : v' = v
    · exact hv ▸ hrecord
    · exact congrArg (fun p => p.delegators d) (htouches.pool_of_ne v' hv)
  · by_cases hv : v' = v
    · exact hv ▸ hrequests
    · exact congrArg (fun p => p.withdrawals d) (htouches.pool_of_ne v' hv)

/-- An operation for an unused address changes nothing. -/
theorem Unused.operated_eq {msg : Message} {call : StakingCall} {answer : Answer} {v : ValId}
    (hs : Unused s d) (hreserved : ReservedAddress d) (hop : operation (msg, call) = some (d, v))
    (h : runStakingWrite s msg call = .ok answer) :
    (s.pool v).operated s.epoch s.inBoundary d (msg, call) = s.pool v := by
  have hrecord : (s.pool v).delegators d = .zero := hs.record_eq v
  have hpulled := Pool.pulled_of_zero hrecord s.epoch
  have hrewards : ((s.pool v).delegators d).rewards = 0 := by rw [hrecord]; rfl
  cases call with
  | delegate v =>
    cases hop
    unfold Pool.operated
    dsimp only
    split
    · rfl
    next hvalue =>
      -- a delegation from a reserved address is refused by the list
      simp only [runStakingWrite, handleDelegate, if_neg hvalue, bind_eq_ok] at h
      obtain ⟨-, -, -, -, -, -, s₁, hdelegate, -⟩ := h
      obtain ⟨hzero, hsentinel, -⟩ := internalDelegate_not_reserved hdelegate
      exact absurd hreserved (not_or.mpr ⟨hzero, hsentinel⟩)
  | undelegate v amount w =>
    cases hop
    unfold Pool.operated
    dsimp only
    split
    · rfl
    next hamount =>
      obtain ⟨-, -, del, s₁, hpull, hle, -⟩ := handleUndelegate_leave hamount (notPayable_eq_ok h).2
      have hdel := pullDelegatorUpToDate_record hpull
      rw [hpulled, hrecord] at hdel
      have hstake : del.stake = 0 := by rw [← hdel]; rfl
      have hpositive : leaving del.stake amount ≠ 0 := leaving_ne_zero hamount
      omega
  | withdraw v w =>
    cases hop
    obtain ⟨hamount, -⟩ := handleWithdraw_pay (notPayable_eq_ok h).2
    exact absurd (hs.requests_eq v w) hamount
  | compound v =>
    cases hop
    change (s.pool v).restaked s.epoch s.inBoundary _ = s.pool v
    rw [Pool.restaked, hpulled]
    exact if_pos hrewards
  | claimRewards v =>
    cases hop
    change (s.pool v).claimed s.epoch _ = s.pool v
    rw [Pool.claimed, hpulled]
    exact if_pos hrewards
  | getDelegator v d =>
    cases hop
    exact hpulled
  | _ => cases hop

/-- A call keeps a reserved address unused. -/
theorem Unused.call {msg : Message} {call : StakingCall} {answer : Answer} (hs : Unused s d)
    (hreg : Registered s) (hdir : Directory s) (hreserved : ReservedAddress d)
    (h : runStakingWrite s msg call = .ok answer) : Unused answer.storage d := by
  have hoperation {c : Address} {v : ValId} (hop : operation (msg, call) = some (c, v)) :
      Unused answer.storage d := by
    have hoperates := runStakingWrite_operates hop h
    by_cases hd : d = c
    · subst hd
      have hpool := hoperates.pool_eq.trans (hs.operated_eq hreserved hop h)
      exact hs.touches hoperates.touches (by rw [hpool]) (by rw [hpool])
    · obtain ⟨hrecord, hrequests⟩ :=
        (s.pool v).operated_off s.epoch s.inBoundary (msg, call) hd
      rw [← hoperates.pool_eq] at hrecord hrequests
      exact hs.touches hoperates.touches hrecord hrequests
  cases call with
  | addValidator payload =>
    obtain ⟨v, s₁, _, _, auth, _, hcreate, -, -, hdelegate⟩ := handleAddValidator_creates h
    obtain ⟨hzero, hsentinel, -⟩ := internalDelegate_not_reserved hdelegate
    have hd : d ≠ auth := fun heq => absurd hreserved (heq ▸ not_or.mpr ⟨hzero, hsentinel⟩)
    obtain ⟨-, -, hpool, hother, -⟩ := createValidator_spec hreg hcreate
    have hs₁ : Unused s₁ d := by
      refine ⟨fun v' hv' => ?_, fun v' => ?_, fun v' => ?_⟩
      · by_cases hv : v' = v
        · simp only [createValidator, bind_eq_ok, pure_eq_ok, Prod.mk.injEq] at hcreate
          obtain ⟨-, -, -, -, rfl, rfl⟩ := hcreate
          rw [hv]
          simpa [Storage.writeValidator] using hd.symm
        · rw [hother v' hv]
          refine hs.auth_ne v' ?_
          rwa [Validator.Exists, ← hother v' hv]
      · exact (congrArg (fun p => p.delegators d) (hpool v')).trans (hs.record_eq v')
      · have hrow : s₁.withdrawals v' d = s.withdrawals v' d :=
          congrArg (fun p => p.withdrawals d) (hpool v')
        rw [hrow]
        exact hs.requests_eq v'
    have hjoined := internalDelegate_pool hdelegate
    have hupkeep := (s₁.pool v).pulled_upkeep s₁.epoch auth
    refine hs₁.touches (internalDelegate_touches hdelegate) ?_ ?_
    · rw [hjoined]
      exact (Function.update_of_ne hd ..).trans (hupkeep.off d hd)
    · rw [hjoined]
      exact congrFun hupkeep.withdrawals_eq d
  | changeCommission v commission =>
    have hsame := handleChangeCommission_samePools (notPayable_eq_ok h).2
    exact hs.touches (hsame.touches v) (by rw [hsame.pool_eq]) (by rw [hsame.pool_eq])
  | externalReward v =>
    obtain ⟨-, -, htouches, -, hpool⟩ := handleExternalReward_reward h
    exact hs.touches htouches (by rw [hpool]; rfl) (by rw [hpool]; rfl)
  | syscallReward author reward =>
    obtain ⟨hv, -, -, htouches, -, hpool⟩ := handleSyscallReward_reward h
    have hexists := ((hdir.secp_iff author _ hv).mp rfl).1
    have hd := (hs.auth_ne _ hexists).symm
    refine hs.touches htouches ?_ (by rw [hpool]; rfl)
    rw [hpool]
    exact Function.update_of_ne hd ..
  | syscallSnapshot =>
    obtain ⟨-, -, htake⟩ := handleSyscallSnapshot_eq_ok (notPayable_eq_ok h).2
    obtain ⟨-, -, -, hvalidators, -, -⟩ := takeSnapshot_sameLedger s
    have hsnap := takeSnapshot_pool s
    rw [htake]
    exact hs.of_same (fun v => by rw [hvalidators]) (fun v => congrFun (hsnap v).delegators_eq d)
      fun v => congrFun (hsnap v).withdrawals_eq d
  | syscallOnEpochChange next =>
    obtain ⟨-, -, hchange⟩ := handleSyscallOnEpochChange_eq_ok (notPayable_eq_ok h).2
    obtain ⟨⟨-, -, -, hvalidators, -, -⟩, hpools⟩ := refreshAccumulators_spec s next
    have hrow (v : ValId) : ((refreshAccumulators s next).pool v).delegators =
        (s.pool v).delegators ∧
          ((refreshAccumulators s next).pool v).withdrawals = (s.pool v).withdrawals := by
      obtain ⟨hrefresh, hskip⟩ := hpools v
      by_cases hmem : (s.pool v).inSnapshot
      · rw [hrefresh hmem]
        exact ⟨rfl, rfl⟩
      · rw [hskip hmem]
        exact ⟨rfl, rfl⟩
    rw [hchange, changeEpoch]
    generalize refreshAccumulators s next = t at *
    exact hs.of_same (fun v => congrArg (fun vals => (vals v).authAddress) hvalidators)
      (fun v => congrFun (hrow v).1 d) fun v => congrFun (hrow v).2 d
  | _ => exact hoperation rfl

/-- Reserved addresses are unused in every run. -/
theorem reachable_unused {guard : Storage → Message × StakingCall → Storage → Prop}
    (hguard : ∀ s tx s', guard s tx s' → s'.epoch < 2 ^ 63)
    (h : Reachable stakingStep guard .empty s) (hreserved : ReservedAddress d) : Unused s d := by
  induction h with
  | start => exact ⟨fun v hv => absurd rfl hv, fun _ => rfl, fun _ _ => rfl⟩
  | @call s s' tx hreach hstep hg ih =>
    have hepoch := reachable_epoch_lt hguard hreach
    obtain ⟨hreg, -⟩ := reachable_inOrder hreach (by omega)
    have hdir := reachable_directory hreach
    simp only [stakingStep, bind_eq_ok, pure_eq_ok] at hstep
    obtain ⟨answer, hrun, rfl⟩ := hstep
    have hcredit : Unused (s.credit (income tx.1 tx.2)) d := ⟨ih.1, ih.2, ih.3⟩
    have hsame : SameDirectory s (s.credit (income tx.1 tx.2)) := ⟨rfl, fun _ => rfl, rfl⟩
    exact hcredit.call (hreg.credit _) (hsame.directory hdir) hreserved hrun

end Reserved

section Commission

variable {s : Storage}

/-- A reachable state is where some run ends. -/
theorem exists_runAt {guard : Storage → Message × StakingCall → Storage → Prop}
    (h : Reachable stakingStep guard .empty s) : ∃ calls n, runAt calls n = s := by
  induction h with
  | start => exact ⟨[], 0, rfl⟩
  | @call s s' tx hreach hstep hg ih =>
    obtain ⟨calls, n, hrun⟩ := ih
    refine ⟨calls.take n ++ [tx], n + 1, ?_⟩
    have htake : (calls.take n ++ [tx]).take (n + 1) = calls.take n ++ [tx] :=
      List.take_of_length_le (by simp)
    rw [runAt, stateAt, htake, List.foldl_append]
    change perform stakingStep (runAt calls n) tx = s'
    rw [hrun, perform_of_ok hstep]

/-- No view has more than the largest commission. -/
theorem reachable_viewCommission_le {guard : Storage → Message × StakingCall → Storage → Prop}
    (h : Reachable stakingStep guard .empty s) (v : ValId) :
    s.viewCommission v ≤ maxCommission := by
  obtain ⟨calls, n, rfl⟩ := exists_runAt h
  rw [viewCommission_eq]
  exact rewardView_commission_le calls n v

end Commission

end SuwappuRevm.Staking
