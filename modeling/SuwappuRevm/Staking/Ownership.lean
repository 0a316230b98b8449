import SuwappuRevm.Staking.RosterSteps

/-!
# Only the owner reduces a delegator's claims

A call by one account leaves the records and requests of all others as they are, with three
exceptions: `getDelegator` settles the record it names, a reward credits the commission to the
auth address, and `addValidator` delegates for the auth address of its payload. None of the three
takes anything from a record.
-/

namespace SuwappuRevm.Staking

open Foundations

/-- An account has at least what it had: principal, credited rewards and its requests. -/
structure Pool.Spares (d : Address) (p p' : Pool) : Prop where
  principal_le : (p.delegators d).Tracked →
    (p.delegators d).principal ≤ (p'.delegators d).principal
  rewards_le : (p.delegators d).rewards ≤ (p'.delegators d).rewards
  withdrawals_eq : p'.withdrawals d = p.withdrawals d

namespace Pool

variable {p p' : Pool} {cur : ℕ} {b : Bool} {c d : Address}

/-- An untouched record and untouched requests. -/
theorem Spares.of_same (hrecord : p'.delegators d = p.delegators d)
    (hrequests : p'.withdrawals d = p.withdrawals d) : p.Spares d p' :=
  ⟨fun _ => by rw [hrecord], by rw [hrecord], hrequests⟩

/-- Upkeep spares everybody. -/
theorem Upkeep.spares (h : p.Upkeep c p') (d : Address) : p.Spares d p' := by
  refine ⟨fun htracked => (h.record d htracked).2.ge, ?_, by rw [h.withdrawals_eq]⟩
  by_cases hd : d = c
  · subst hd
    exact h.rewards_le
  · rw [h.off d hd]

/-- A delegation spares everybody. -/
theorem delegated_spares (p : Pool) (cur : ℕ) (b : Bool) (c d : Address) (amount : ℕ) :
    p.Spares d (p.delegated cur b c amount) := by
  have hspares := (p.pulled_upkeep cur c).spares d
  have hwithdrawals : (p.delegated cur b c amount).withdrawals = (p.pulled cur c).withdrawals := rfl
  have hdelegators : (p.delegated cur b c amount).delegators =
      Function.update (p.pulled cur c).delegators c
        (((p.pulled cur c).delegators c).addTo b (activationEpoch cur b) amount) := rfl
  refine ⟨fun htracked => (hspares.principal_le htracked).trans ?_, hspares.rewards_le.trans ?_, ?_⟩
  · rw [hdelegators]
    by_cases hd : d = c
    · rw [hd, Function.update_self, Delegator.principal_addTo]
      exact Nat.le_add_right ..
    · rw [Function.update_of_ne hd]
  · rw [hdelegators]
    by_cases hd : d = c
    · rw [hd, Function.update_self]
      cases b <;> exact le_rfl
    · rw [Function.update_of_ne hd]
  · rw [hwithdrawals]
    exact hspares.withdrawals_eq

/-- A claim leaves the records of others alone. -/
theorem claimed_off (p : Pool) (cur : ℕ) (hd : d ≠ c) :
    (p.claimed cur c).delegators d = p.delegators d ∧
      (p.claimed cur c).withdrawals = p.withdrawals := by
  have hupkeep := p.pulled_upkeep cur c
  unfold claimed
  dsimp only
  split
  · exact ⟨hupkeep.off d hd, hupkeep.withdrawals_eq⟩
  · exact ⟨(Function.update_of_ne hd ..).trans (hupkeep.off d hd), hupkeep.withdrawals_eq⟩

/-- A compounding leaves the records of others alone. -/
theorem restaked_off (p : Pool) (cur : ℕ) (b : Bool) (hd : d ≠ c) :
    (p.restaked cur b c).delegators d = p.delegators d ∧
      (p.restaked cur b c).withdrawals = p.withdrawals := by
  have hupkeep := p.pulled_upkeep cur c
  unfold restaked
  dsimp only
  split
  · exact ⟨hupkeep.off d hd, hupkeep.withdrawals_eq⟩
  · have hagain := ((p.pulled cur c).take c).pulled_upkeep cur c
    refine ⟨?_, hagain.withdrawals_eq.trans hupkeep.withdrawals_eq⟩
    calc (((p.pulled cur c).take c).delegated cur b c _).delegators d
        = (((p.pulled cur c).take c).pulled cur c).delegators d := Function.update_of_ne hd ..
      _ = ((p.pulled cur c).take c).delegators d := hagain.off d hd
      _ = (p.pulled cur c).delegators d := Function.update_of_ne hd ..
      _ = p.delegators d := hupkeep.off d hd

/-- An undelegation leaves the records and requests of others alone. -/
theorem undelegated_off (p : Pool) (cur : ℕ) (b : Bool) (amount : ℕ) (w : WithdrawId)
    (hd : d ≠ c) :
    (p.undelegated cur b c amount w).delegators d = p.delegators d ∧
      (p.undelegated cur b c amount w).withdrawals d = p.withdrawals d := by
  have hupkeep := p.pulled_upkeep cur c
  refine ⟨(Function.update_of_ne hd ..).trans (hupkeep.off d hd), ?_⟩
  exact (Function.update_of_ne hd ..).trans (congrFun hupkeep.withdrawals_eq d)

/-- A withdrawal leaves all records and the requests of others alone. -/
theorem withdrawn_off (p : Pool) (w : WithdrawId) (hd : d ≠ c) :
    (p.withdrawn c w).delegators d = p.delegators d ∧
      (p.withdrawn c w).withdrawals d = p.withdrawals d :=
  ⟨rfl, Function.update_of_ne hd ..⟩

/-- A reward after its commission spares everybody. -/
theorem rewarded_spares (p : Pool) (cur : ℕ) (b : Bool) (c d : Address) (commission amount : ℕ) :
    p.Spares d ((p.credit c commission).reward cur b amount) := by
  have hspares := (p.credit_upkeep c commission).spares d
  exact ⟨hspares.principal_le, hspares.rewards_le, hspares.withdrawals_eq⟩

end Pool

/-- A call spares everybody but its caller, in the pool of every validator. -/
theorem runStakingWrite_spares {s : Storage} {msg : Message} {call : StakingCall} {answer : Answer}
    {d : Address} (hreg : Registered s) (h : runStakingWrite s msg call = .ok answer)
    (hd : d ≠ msg.caller) (v : ValId) : (s.pool v).Spares d (answer.storage.pool v) := by
  have hof {v' : ValId} (htouches : Touches v' s answer.storage)
      (hspares : (s.pool v').Spares d (answer.storage.pool v')) :
      (s.pool v).Spares d (answer.storage.pool v) := by
    by_cases hv : v = v'
    · subst hv
      exact hspares
    · rw [htouches.pool_of_ne v hv]
      exact .of_same rfl rfl
  cases call with
  | addValidator payload =>
    obtain ⟨v', s₁, _, _, auth, _, hcreate, -, -, hdelegate⟩ := handleAddValidator_creates h
    obtain ⟨-, -, hpool, -⟩ := createValidator_spec hreg hcreate
    by_cases hv : v = v'
    · subst hv
      rw [internalDelegate_pool hdelegate, hpool]
      exact Pool.delegated_spares ..
    · rw [(internalDelegate_touches hdelegate).pool_of_ne v hv, hpool]
      exact .of_same rfl rfl
  | delegate v' =>
    refine hof (handleDelegate_spec h).touches ?_
    rw [handleDelegate_pool h]
    split
    · exact .of_same rfl rfl
    · exact Pool.delegated_spares ..
  | undelegate v' amount w =>
    obtain ⟨-, h⟩ := notPayable_eq_ok h
    refine hof (handleUndelegate_spec h).touches ?_
    rw [handleUndelegate_pool h]
    split
    · exact .of_same rfl rfl
    · obtain ⟨hrecord, hrequests⟩ := (s.pool v').undelegated_off s.epoch s.inBoundary amount w hd
      exact .of_same hrecord hrequests
  | withdraw v' w =>
    obtain ⟨-, h⟩ := notPayable_eq_ok h
    obtain ⟨-, -, -, -, -, -, htouches, -, hpool⟩ := handleWithdraw_pay h
    refine hof htouches ?_
    rw [hpool]
    exact .of_same rfl ((s.pool v').withdrawn_off w hd).2
  | compound v' =>
    obtain ⟨-, h⟩ := notPayable_eq_ok h
    obtain ⟨i, o, hcall⟩ := handleCompound_spec h
    refine hof hcall.touches ?_
    rw [handleCompound_pool h]
    obtain ⟨hrecord, hrequests⟩ := (s.pool v').restaked_off s.epoch s.inBoundary hd
    exact .of_same hrecord (congrFun hrequests d)
  | claimRewards v' =>
    obtain ⟨-, h⟩ := notPayable_eq_ok h
    obtain ⟨o, hcall⟩ := handleClaimRewards_spec h
    refine hof hcall.touches ?_
    rw [handleClaimRewards_pool h]
    obtain ⟨hrecord, hrequests⟩ := (s.pool v').claimed_off s.epoch hd
    exact .of_same hrecord (congrFun hrequests d)
  | changeCommission v' commission =>
    obtain ⟨-, h⟩ := notPayable_eq_ok h
    obtain ⟨-, -, hpools, -⟩ := handleChangeCommission_roster h
    rw [hpools]
    exact .of_same rfl rfl
  | externalReward v' =>
    obtain ⟨-, -, htouches, -, hpool⟩ := handleExternalReward_reward h
    refine hof htouches ?_
    rw [hpool]
    exact .of_same rfl rfl
  | getDelegator v' d' =>
    obtain ⟨-, h⟩ := notPayable_eq_ok h
    refine hof (handleGetDelegatorWrite_spec h).touches ?_
    rw [handleGetDelegatorWrite_pool h]
    exact ((s.pool v').pulled_upkeep s.epoch d').spares d
  | syscallReward author reward =>
    obtain ⟨-, -, -, htouches, -, hpool⟩ := handleSyscallReward_reward h
    refine hof htouches ?_
    rw [hpool]
    exact Pool.rewarded_spares ..
  | syscallSnapshot =>
    obtain ⟨-, -, htake⟩ := handleSyscallSnapshot_eq_ok (notPayable_eq_ok h).2
    have hsnap := takeSnapshot_pool s v
    rw [htake]
    exact .of_same (congrFun hsnap.delegators_eq d) (congrFun hsnap.withdrawals_eq d)
  | syscallOnEpochChange next =>
    obtain ⟨-, -, hchange⟩ := handleSyscallOnEpochChange_eq_ok (notPayable_eq_ok h).2
    obtain ⟨hrefresh, hskip⟩ := (refreshAccumulators_spec s next).2 v
    rw [hchange]
    change (s.pool v).Spares d ((refreshAccumulators s next).pool v)
    by_cases hmem : (s.pool v).inSnapshot
    · rw [hrefresh hmem]
      exact .of_same rfl rfl
    · rw [hskip hmem]
      exact .of_same rfl rfl

/-- The commission of a registered validator is changed by its auth address only. -/
theorem RosterStep.commission_eq {caller : Address} {s s' : Storage} {v : ValId}
    (h : RosterStep caller s s') (hs : Founded s)
    (hv : (s.validators v).Exists) (hcaller : caller ≠ (s.validators v).authAddress) :
    (s'.validators v).commission = (s.validators v).commission := by
  cases h with
  | keeps hkeeps => exact congrFun (congrArg Roster.commission hkeeps.roster_eq) v
  | joins v' d amount s₁ hexists hamount hkeeps hjoins =>
    have hsame := hjoins.terms.commission_eq
    rw [hkeeps.roster_eq] at hsame
    exact congrFun hsame v
  | leaves v' amount hexists hamount hleaves => exact congrFun hleaves.terms.commission_eq v
  | creates v' s₁ _ _ _ _ amount hcreate hauth hzero hsentinel hle hmin hjoins =>
    have hne : v ≠ v' := fun heq => createValidator_new hs hzero hcreate (heq ▸ hv)
    refine (congrFun hjoins.terms.commission_eq v).trans ?_
    simp only [createValidator, bind_eq_ok, pure_eq_ok, Prod.mk.injEq] at hcreate
    obtain ⟨-, -, -, -, rfl, rfl⟩ := hcreate
    rw [roster_writeValidator]
    exact Function.update_of_ne hne ..
  | recommissions v' commission hcaller' hle hpools hroster =>
    have hne : v ≠ v' := fun heq => hcaller (heq ▸ hcaller')
    refine (congrFun (congrArg Roster.commission hroster) v).trans ?_
    exact Function.update_of_ne hne ..
  | snapshot hboundary htake =>
    obtain ⟨-, -, -, hvalidators, -, -⟩ := takeSnapshot_sameLedger s
    rw [htake, hvalidators]
  | epochChange next hlt hchange =>
    obtain ⟨⟨-, -, -, hvalidators, -, -⟩, -⟩ := refreshAccumulators_spec s next
    rw [hchange]
    exact congrArg (fun vals => (vals v).commission) hvalidators

/-- Only the owner can reduce a delegator's claims: whatever is called, an account that is not
the caller keeps its principal, its credited rewards and its open withdrawal requests, and a
commission changes only by a call from the auth address. -/
theorem only_owner_reduces {s : Storage} (h : Reachable stakingStep EpochsBounded .empty s)
    (tx : Message × StakingCall) :
    let s' := perform stakingStep s tx
    (∀ v d, d ≠ tx.1.caller →
      (s.delegators v d).stake + (s.delegators v d).deltaStake + (s.delegators v d).nextDeltaStake ≤
        (s'.delegators v d).stake + (s'.delegators v d).deltaStake +
          (s'.delegators v d).nextDeltaStake ∧
      (s.delegators v d).rewards ≤ (s'.delegators v d).rewards ∧
      ∀ w, (s.withdrawals v d w).amount ≠ 0 → s'.withdrawals v d w = s.withdrawals v d w) ∧
    ∀ v, (s.validators v).Exists →
      (s'.validators v).commission ≠ (s.validators v).commission →
      tx.1.caller = (s.validators v).authAddress := by
  have hguard (s : Storage) (tx) (s' : Storage) (hg : EpochsBounded s tx s') :
      s'.epoch < 2 ^ 63 := hg
  have hepoch := reachable_epoch_lt hguard h
  obtain ⟨hreg, -⟩ := reachable_inOrder h (by omega)
  have hledger := reachable_ledger hguard h
  rcases hresult : stakingStep s tx with e | s'
  · rw [perform_of_error hresult]
    exact ⟨fun v d _ => ⟨le_rfl, le_rfl, fun _ _ => rfl⟩, fun v _ hne => absurd rfl hne⟩
  · rw [perform_of_ok hresult]
    have hroster := reachable_rosterStep hguard h hresult
    refine ⟨fun v d hd => ?_, fun v hv hne => ?_⟩
    · simp only [stakingStep, bind_eq_ok, pure_eq_ok] at hresult
      obtain ⟨answer, hrun, rfl⟩ := hresult
      have hspares := runStakingWrite_spares (hreg.credit _) hrun hd v
      exact ⟨hspares.principal_le ((hledger v).tracked d), hspares.rewards_le,
        fun w _ => congrFun hspares.withdrawals_eq w⟩
    · by_contra hcaller
      have hfounded := (reachable_founded h (by omega)).credit (income tx.1 tx.2)
      exact hne (hroster.commission_eq hfounded hv hcaller)

/-- In the opened state somebody else settles the auth address, which gains its rewards. -/
theorem only_owner_reduces_opened :
    (openedState.delegators 1 7).rewards ≤ ((perform stakingStep openedState
      (userMessage 9 0 (by decide), .getDelegator 1 7)).delegators 1 7).rewards :=
  ((only_owner_reduces openedState_bounded
    (userMessage 9 0 (by decide), .getDelegator 1 7)).1 1 7 (by decide)).2.1

end SuwappuRevm.Staking
