import SuwappuRevm.Staking.Roster

/-!
# What one call does to the roster

A successful call keeps stake, principals and roster, or it joins, leaves, creates a validator,
changes a commission, takes a snapshot or changes the epoch. The invariants of lists, flags,
execution set and views are proved from this list of cases.
-/

namespace SuwappuRevm.Staking

open Foundations

/-- Ids without a validator have untouched pools; the others are neither `0` nor above the last
id. -/
structure Founded (s : Storage) : Prop where
  fresh : ∀ v, ¬(s.validators v).Exists → (s.pool v).Fresh
  zero : ¬(s.validators 0).Exists
  le_lastValId : ∀ v, (s.validators v).Exists → v ≤ s.lastValId

/-- How a successful call of a caller writes what is beside the rewards. -/
inductive RosterStep (caller : Address) (s s' : Storage) : Prop
  | keeps (hkeeps : Keeps s s') (hepoch : s'.epoch = s.epoch)
      (hboundary : s'.inBoundary = s.inBoundary)
  | joins (v : ValId) (d : Address) (amount : ℕ) (s₁ : Storage) (hexists : (s.validators v).Exists)
      (hamount : amount ≠ 0) (hkeeps : Keeps s s₁) (hjoins : Joins v d amount s₁ s')
      (hepoch : s'.epoch = s.epoch) (hboundary : s'.inBoundary = s.inBoundary)
  | leaves (v : ValId) (amount : ℕ) (hexists : (s.validators v).Exists) (hamount : amount ≠ 0)
      (hleaves : Leaves v caller amount s s') (hepoch : s'.epoch = s.epoch)
      (hboundary : s'.inBoundary = s.inBoundary)
  | creates (v : ValId) (s₁ : Storage) (secpPubkey blsPubkey : Bytes) (authAddress : Address)
      (commission amount : ℕ)
      (hcreate : createValidator s secpPubkey blsPubkey authAddress commission = .ok (v, s₁))
      (hauth : authAddress ≠ 0) (hne : v ≠ 0) (hsentinel : v ≠ sentinelValId)
      (hle : commission ≤ maxCommission) (hmin : minAuthAddressStake ≤ amount)
      (hjoins : Joins v authAddress amount s₁ s')
      (hepoch : s'.epoch = s.epoch) (hboundary : s'.inBoundary = s.inBoundary)
  | recommissions (v : ValId) (commission : ℕ) (hcaller : caller = (s.validators v).authAddress)
      (hle : commission ≤ maxCommission) (hpools : ∀ v', s'.pool v' = s.pool v')
      (hroster : s'.roster = { s.roster with
        commission := Function.update s.roster.commission v commission })
      (hepoch : s'.epoch = s.epoch) (hboundary : s'.inBoundary = s.inBoundary)
  | snapshot (hboundary : s.inBoundary = false) (htake : s' = takeSnapshot s)
  | epochChange (next : Fin (2 ^ 64)) (hlt : s.epoch < next) (hchange : s' = changeEpoch s next)

section Founding

variable {s s' : Storage} {v : ValId}

/-- Crediting keeps storage founded. -/
theorem Founded.credit (hs : Founded s) (income : ℕ) : Founded (s.credit income) :=
  ⟨hs.1, hs.2, hs.3⟩

/-- What keeps auth addresses and the last id keeps storage founded, if fresh pools stay so. -/
theorem Founded.of_same (hs : Founded s)
    (hauth : ∀ v, (s'.validators v).authAddress = (s.validators v).authAddress)
    (hlast : s'.lastValId = s.lastValId)
    (hfresh : ∀ v, ¬(s.validators v).Exists → (s'.pool v).Fresh) : Founded s' := by
  have hexists (v : ValId) : (s'.validators v).Exists ↔ (s.validators v).Exists := by
    rw [Validator.Exists, Validator.Exists, hauth]
  refine ⟨fun v hv => hfresh v ((hexists v).not.mp hv), (hexists 0).not.mpr hs.zero, fun v hv => ?_⟩
  rw [hlast]
  exact hs.le_lastValId v ((hexists v).mp hv)

/-- A call on one validator keeps storage founded. -/
theorem Founded.poolCall {income i o : ℕ} (hs : Founded s) (horder : ∀ v, s.InOrder v)
    (h : PoolCall v income i o s s') : Founded s' := by
  refine hs.of_same h.touches.authAddress_eq h.touches.lastValId_eq fun v' hv' => ?_
  by_cases hne : v' = v
  · subst hne
    exact h.fresh (horder v') (not_not.mp hv') (hs.fresh v' hv')
  · rw [h.touches.pool_of_ne v' hne]
    exact hs.fresh v' hv'

/-- A new validator keeps storage founded. -/
theorem handleAddValidator_founded {msg : Message} {payload : Bytes} {answer : Answer}
    (hreg : Registered s) (hs : Founded s) (h : handleAddValidator s msg payload = .ok answer) :
    Founded answer.storage := by
  obtain ⟨v, s₁, _, _, auth, _, hcreate, -, -, hdelegate⟩ := handleAddValidator_creates h
  obtain ⟨hauth, -, hzero, -⟩ := internalDelegate_not_reserved hdelegate
  have htouches := internalDelegate_touches hdelegate
  obtain ⟨hval, hlast, hpool, hother, -⟩ := createValidator_spec hreg hcreate
  have hnew : (answer.storage.validators v).Exists := by
    rw [Validator.Exists, htouches.authAddress_eq]
    simp only [createValidator, bind_eq_ok, pure_eq_ok, Prod.mk.injEq] at hcreate
    obtain ⟨-, -, -, -, rfl, rfl⟩ := hcreate
    simpa [Storage.writeValidator] using hauth
  have hold (v' : ValId) (hne : v' ≠ v) :
      (answer.storage.validators v').Exists ↔ (s.validators v').Exists := by
    rw [Validator.Exists, Validator.Exists, htouches.authAddress_eq, hother v' hne]
  refine ⟨fun v' hv' => ?_, ?_, fun v' hv' => ?_⟩
  · have hne : v' ≠ v := fun heq => hv' (heq ▸ hnew)
    rw [htouches.pool_of_ne v' hne, hpool]
    exact hs.fresh v' ((hold v' hne).not.mp hv')
  · exact (hold 0 hzero.symm).not.mpr hs.zero
  · rw [htouches.lastValId_eq, hlast]
    by_cases hne : v' = v
    · exact hne.le
    · have hle := hs.le_lastValId v' ((hold v' hne).mp hv')
      rw [Fin.le_def] at hle ⊢
      omega

/-- A successful call keeps storage founded. -/
theorem stakingStep_founded {tx : Message × StakingCall} (hreg : Registered s)
    (horder : ∀ v, s.InOrder v) (hs : Founded s) (h : stakingStep s tx = .ok s') : Founded s' := by
  obtain ⟨msg, call⟩ := tx
  simp only [stakingStep, bind_eq_ok, pure_eq_ok] at h
  obtain ⟨answer, h, rfl⟩ := h
  have hcredit := hs.credit (income msg call)
  have hcall {v : ValId} {income' i o : ℕ}
      (hpool : PoolCall v income' i o (s.credit (income msg call)) answer.storage) :
      Founded answer.storage := hcredit.poolCall horder hpool
  cases call with
  | addValidator payload => exact handleAddValidator_founded (hreg.credit _) hcredit h
  | delegate v => exact hcall (handleDelegate_spec h)
  | undelegate v amount w => exact hcall (handleUndelegate_spec (notPayable_eq_ok h).2)
  | withdraw v w =>
    obtain ⟨o, hpool⟩ := handleWithdraw_spec (notPayable_eq_ok h).2
    exact hcall hpool
  | compound v =>
    obtain ⟨i, o, hpool⟩ := handleCompound_spec (notPayable_eq_ok h).2
    exact hcall hpool
  | claimRewards v =>
    obtain ⟨o, hpool⟩ := handleClaimRewards_spec (notPayable_eq_ok h).2
    exact hcall hpool
  | changeCommission v commission =>
    exact hcall (handleChangeCommission_spec (notPayable_eq_ok h).2)
  | externalReward v => exact hcall (handleExternalReward_spec h)
  | getDelegator v d => exact hcall (handleGetDelegatorWrite_spec (notPayable_eq_ok h).2)
  | syscallReward author reward => exact hcall (handleSyscallReward_spec h)
  | syscallSnapshot =>
    obtain ⟨-, -, htake⟩ := handleSyscallSnapshot_eq_ok (notPayable_eq_ok h).2
    rw [htake]
    obtain ⟨-, -, hlast, hvalidators, -, -⟩ :=
      takeSnapshot_sameLedger (s.credit (income msg .syscallSnapshot))
    refine hcredit.of_same (fun v => by rw [hvalidators]) hlast fun v hv => ?_
    exact (hcredit.fresh v hv).snapshotTo (takeSnapshot_pool _ v)
  | syscallOnEpochChange next =>
    obtain ⟨-, -, hchange⟩ := handleSyscallOnEpochChange_eq_ok (notPayable_eq_ok h).2
    rw [hchange]
    obtain ⟨⟨-, -, hlast, hvalidators, -, -⟩, -⟩ :=
      refreshAccumulators_spec (s.credit (income msg (.syscallOnEpochChange next))) next
    refine hcredit.of_same (fun v => ?_) hlast fun v hv =>
      changeEpoch_fresh (hcredit.fresh v hv) next
    exact congrArg (fun vals => (vals v).authAddress) hvalidators

end Founding

section Dispatch

variable {s : Storage} {msg : Message} {answer : Answer}

/-- Taking credited rewards keeps every principal. -/
theorem Pool.take_record (p : Pool) (d d' : Address) (htracked : (p.delegators d').Tracked) :
    ((p.take d).delegators d').Tracked ∧
      ((p.take d).delegators d').principal = (p.delegators d').principal := by
  have hdelegators : (p.take d).delegators =
      Function.update p.delegators d { p.delegators d with rewards := 0 } := rfl
  rw [hdelegators]
  by_cases hd : d' = d
  · subst hd
    rw [Function.update_self]
    exact ⟨⟨htracked.delta_iff, htracked.next_iff⟩, rfl⟩
  · rw [Function.update_of_ne hd]
    exact ⟨htracked, rfl⟩

/-- Claiming keeps stake and principals. -/
theorem Pool.claimed_record (p : Pool) (cur : ℕ) (d d' : Address)
    (htracked : (p.delegators d').Tracked) : ((p.claimed cur d).delegators d').Tracked ∧
      ((p.claimed cur d).delegators d').principal = (p.delegators d').principal := by
  obtain ⟨htracked', hsame⟩ := (p.pulled_upkeep cur d).record d' htracked
  unfold Pool.claimed
  dsimp only
  split
  · exact ⟨htracked', hsame⟩
  · obtain ⟨htracked'', hsame'⟩ := (p.pulled cur d).take_record d d' htracked'
    exact ⟨htracked'', hsame'.trans hsame⟩

/-- Claiming keeps the stake. -/
theorem Pool.claimed_stake (p : Pool) (cur : ℕ) (d : Address) :
    (p.claimed cur d).stake = p.stake := by
  have hsame := (p.pulled_upkeep cur d).stake_eq
  unfold Pool.claimed
  dsimp only
  split
  · exact hsame
  · exact hsame

/-- `handle_compound` settles, and restakes what it has taken. -/
theorem handleCompound_restakes {v : ValId} (htracked : ∀ v d, (s.delegators v d).Tracked)
    (h : handleCompound s msg v = .ok answer) :
    Keeps s answer.storage ∨ ∃ amount s₁, amount ≠ 0 ∧
      amount = (((s.pool v).pulled s.epoch msg.caller).delegators msg.caller).rewards ∧
      Keeps s s₁ ∧ internalDelegate s₁ v msg.caller amount = .ok answer.storage := by
  simp only [handleCompound, bind_eq_ok] at h
  obtain ⟨-, -, ⟨del, s₁⟩, hpull, h⟩ := h
  obtain ⟨htouches, -, hdel⟩ := pullDelegatorUpToDate_touches hpull
  have hpool := pullDelegatorUpToDate_pool hpull
  have hrecord := pullDelegatorUpToDate_record hpull
  have hkeeps : Keeps s s₁ := .of_upkeep htracked (pullDelegatorUpToDate_roster hpull) htouches
    (hpool ▸ (s.pool v).pulled_upkeep s.epoch msg.caller)
  dsimp only at h
  split at h
  next =>
    cases h
    exact .inl hkeeps
  next hrewards =>
    simp only [bind_eq_ok, pure_eq_ok] at h
    obtain ⟨s₂, hdelegate, rfl⟩ := h
    refine .inr ⟨del.rewards, _, hrewards, by rw [hrecord], hkeeps.trans ?_, hdelegate⟩
    have htake := takeRewards_pool (show (s₁.pool v).delegators msg.caller = del from hdel)
    refine .of_pool hkeeps.tracked rfl ((Touches.writeDelegator ..).trans (.record ..)) ?_ ?_
    · rw [htake]
      rfl
    · rw [htake]
      exact (s₁.pool v).take_record msg.caller

/-- A record nobody has written settles to itself. -/
theorem Pool.pulled_of_zero {p : Pool} {d : Address} (h : p.delegators d = .zero) (cur : ℕ) :
    p.pulled cur d = p := by
  have hpromoted : p.promoted cur d = p := by
    unfold promoted
    rw [h]
    have hzero : promoteNext cur Delegator.zero = p.delegators d := by
      rw [h]
      simp [promoteNext, Delegator.zero]
    rw [hzero]
    simp [setDelegator]
  simp [pulled, hpromoted, h, Delegator.zero, isEpochActive, compoundedIf, accrued]

/-- What a compounding restakes belongs to a registered validator. -/
theorem handleCompound_exists {v : ValId} (hs : Founded s)
    (hrewards : (((s.pool v).pulled s.epoch msg.caller).delegators msg.caller).rewards ≠ 0) :
    (s.validators v).Exists := by
  by_contra hnot
  have hzero := (hs.fresh v hnot).delegators_eq msg.caller
  rw [Pool.pulled_of_zero hzero, hzero] at hrewards
  exact hrewards rfl

/-- The dispatch: every successful call is a step of the roster. -/
theorem runStakingWrite_rosterStep {call : StakingCall} (hreg : Registered s) (hs : Founded s)
    (htracked : ∀ v d, (s.delegators v d).Tracked) (h : runStakingWrite s msg call = .ok answer) :
    RosterStep msg.caller s answer.storage := by
  have hkeeps {v : ValId} (hroster : answer.storage.roster = s.roster)
      (htouches : Touches v s answer.storage)
      (hstake : (answer.storage.pool v).stake = (s.pool v).stake)
      (hrecord : ∀ d, ((s.pool v).delegators d).Tracked →
        ((answer.storage.pool v).delegators d).Tracked ∧
        ((answer.storage.pool v).delegators d).principal = ((s.pool v).delegators d).principal) :
      RosterStep msg.caller s answer.storage :=
    .keeps (.of_pool htracked hroster htouches hstake hrecord) htouches.epoch_eq
      htouches.inBoundary_eq
  have hjoin {v : ValId} {d : Address} {amount : ℕ} {s₁ : Storage} (hv : (s.validators v).Exists)
      (hamount : amount ≠ 0) (hkept : Keeps s s₁) (htouches : Touches v s answer.storage)
      (hdelegate : internalDelegate s₁ v d amount = .ok answer.storage) :
      RosterStep msg.caller s answer.storage :=
    .joins v d amount s₁ hv hamount hkept (internalDelegate_joins (hkept.tracked v d) hdelegate)
      htouches.epoch_eq htouches.inBoundary_eq
  cases call with
  | addValidator payload =>
    obtain ⟨v, s₁, _, _, auth, commission, hcreate, hle, hmin, hdelegate⟩ :=
      handleAddValidator_creates h
    obtain ⟨hauth, -, hne, hsentinel⟩ := internalDelegate_not_reserved hdelegate
    have htouches := internalDelegate_touches hdelegate
    obtain ⟨-, -, hpool, -, hepoch, hboundary, -, -⟩ := createValidator_spec hreg hcreate
    have hrecord : (s₁.delegators v auth).Tracked := by
      have hsame : s₁.delegators v auth = s.delegators v auth :=
        congrArg (fun p => p.delegators auth) (hpool v)
      rw [hsame]
      exact htracked v auth
    exact .creates v s₁ _ _ auth commission msg.callValue hcreate hauth hne hsentinel hle hmin
      (internalDelegate_joins hrecord hdelegate) (htouches.epoch_eq.trans hepoch)
      (htouches.inBoundary_eq.trans hboundary)
  | delegate v =>
    have htouches := (handleDelegate_spec h).touches
    simp only [runStakingWrite, handleDelegate, bind_eq_ok, failIf_eq_ok, not_not] at h
    obtain ⟨-, -, -, hv, h⟩ := h
    split at h
    next =>
      cases h
      exact .keeps (.refl htracked) rfl rfl
    next hvalue =>
      simp only [bind_eq_ok, failIf_eq_ok, pure_eq_ok] at h
      obtain ⟨-, -, s₁, hdelegate, rfl⟩ := h
      exact hjoin hv hvalue (.refl htracked) htouches hdelegate
  | undelegate v amount w =>
    obtain ⟨-, h⟩ := notPayable_eq_ok h
    have htouches := (handleUndelegate_spec h).touches
    by_cases hamount : amount = 0
    · simp only [handleUndelegate, bind_eq_ok, if_pos hamount] at h
      obtain ⟨-, -, h⟩ := h
      cases h
      exact .keeps (.refl htracked) rfl rfl
    · obtain ⟨taken, htaken, hleaves⟩ := handleUndelegate_leaves (htracked v msg.caller) hamount h
      exact .leaves v taken (handleUndelegate_leave hamount h).1 htaken hleaves htouches.epoch_eq
        htouches.inBoundary_eq
  | withdraw v w =>
    obtain ⟨-, h⟩ := notPayable_eq_ok h
    obtain ⟨-, -, -, -, -, -, htouches, -, hpool⟩ := handleWithdraw_pay h
    refine hkeeps (handleWithdraw_roster h) htouches ?_ fun d hd => ?_
    · rw [hpool]
      rfl
    · rw [hpool]
      exact ⟨hd, rfl⟩
  | compound v =>
    obtain ⟨-, h⟩ := notPayable_eq_ok h
    obtain ⟨i, o, hcall⟩ := handleCompound_spec h
    rcases handleCompound_restakes htracked h with
      hkept | ⟨amount, s₁, hamount, rfl, hkept, hdelegate⟩
    · exact .keeps hkept hcall.touches.epoch_eq hcall.touches.inBoundary_eq
    · exact hjoin (handleCompound_exists hs hamount) hamount hkept hcall.touches hdelegate
  | claimRewards v =>
    obtain ⟨-, h⟩ := notPayable_eq_ok h
    obtain ⟨o, hcall⟩ := handleClaimRewards_spec h
    have hpool := handleClaimRewards_pool h
    refine hkeeps (handleClaimRewards_roster h) hcall.touches ?_ fun d hd => ?_
    · rw [hpool, Pool.claimed_stake]
    · rw [hpool]
      exact (s.pool v).claimed_record s.epoch msg.caller d hd
  | changeCommission v commission =>
    obtain ⟨-, h⟩ := notPayable_eq_ok h
    obtain ⟨hcaller, hle, hpools, hroster⟩ := handleChangeCommission_roster h
    have htouches := (handleChangeCommission_spec h).touches
    exact .recommissions v commission hcaller hle hpools hroster htouches.epoch_eq
      htouches.inBoundary_eq
  | externalReward v =>
    obtain ⟨-, -, htouches, -, hpool⟩ := handleExternalReward_reward h
    refine hkeeps (handleExternalReward_roster h) htouches ?_ fun d hd => ?_
    · rw [hpool]
      rfl
    · rw [hpool]
      exact ⟨hd, rfl⟩
  | getDelegator v d =>
    obtain ⟨-, h⟩ := notPayable_eq_ok h
    have hupkeep := (s.pool v).pulled_upkeep s.epoch d
    rw [← handleGetDelegatorWrite_pool h] at hupkeep
    exact hkeeps (handleGetDelegatorWrite_roster h) (handleGetDelegatorWrite_spec h).touches
      hupkeep.stake_eq hupkeep.record
  | syscallReward author reward =>
    obtain ⟨-, -, -, htouches, -, hpool⟩ := handleSyscallReward_reward h
    refine hkeeps (handleSyscallReward_roster h) htouches ?_ fun d hd => ?_
    · rw [hpool]
      rfl
    · rw [hpool]
      exact (Pool.credit_upkeep ..).record d hd
  | syscallSnapshot =>
    obtain ⟨-, hboundary, htake⟩ := handleSyscallSnapshot_eq_ok (notPayable_eq_ok h).2
    exact .snapshot hboundary htake
  | syscallOnEpochChange next =>
    obtain ⟨-, hlt, hchange⟩ := handleSyscallOnEpochChange_eq_ok (notPayable_eq_ok h).2
    exact .epochChange next hlt hchange

end Dispatch

/-- A new id has no validator yet. -/
theorem createValidator_new {s s₁ : Storage} {v : ValId} {secpPubkey blsPubkey : Bytes}
    {authAddress : Address} {commission : ℕ} (hs : Founded s) (hne : v ≠ 0)
    (h : createValidator s secpPubkey blsPubkey authAddress commission = .ok (v, s₁)) :
    ¬(s.validators v).Exists := by
  intro hv
  have hle := hs.le_lastValId v hv
  simp only [createValidator, bind_eq_ok, pure_eq_ok, Prod.mk.injEq] at h
  obtain ⟨-, -, -, -, hval, -⟩ := h
  have hsucc : (s.lastValId.val + 1) % 2 ^ 64 = v.val := congrArg Fin.val hval
  have hpos : v.val ≠ 0 := fun h => hne (Fin.ext h)
  rw [Fin.le_def] at hle
  omega

section Reachable

variable {guard : Storage → Message × StakingCall → Storage → Prop} {s : Storage}

/-- Every state of a run whose epochs stay below the last value is founded. -/
theorem reachable_founded (h : Reachable stakingStep guard .empty s) (hcur : s.epoch + 1 < 2 ^ 64) :
    Founded s := by
  induction h with
  | start =>
    refine ⟨fun v _ => ⟨rfl, rfl, rfl, fun _ => rfl, fun _ _ => rfl, rfl, rfl⟩, fun h => h rfl,
      fun v h => absurd rfl h⟩
  | call tx hreach hs hg ih =>
    have hle := stakingStep_epoch_le hs
    obtain ⟨hreg, horder⟩ := reachable_inOrder hreach (by omega)
    exact stakingStep_founded hreg horder (ih (by omega)) hs

/-- Every successful call in a bounded run is a step of the roster. -/
theorem reachable_rosterStep {s' : Storage} {tx : Message × StakingCall}
    (hguard : ∀ s tx s', guard s tx s' → s'.epoch < 2 ^ 63)
    (h : Reachable stakingStep guard .empty s) (hstep : stakingStep s tx = .ok s') :
    RosterStep tx.1.caller (s.credit (income tx.1 tx.2)) s' := by
  have hepoch := reachable_epoch_lt hguard h
  obtain ⟨hreg, -⟩ := reachable_inOrder h (by omega)
  have hfounded := reachable_founded h (by omega)
  have hledger := reachable_ledger hguard h
  simp only [stakingStep, bind_eq_ok, pure_eq_ok] at hstep
  obtain ⟨answer, hrun, rfl⟩ := hstep
  exact runStakingWrite_rosterStep (hreg.credit _) (hfounded.credit _)
    (fun v d => (hledger v).tracked d) hrun

/-- Roster rule: what crediting and every step of the roster preserve holds in every reachable
state. -/
theorem reachable_roster (motive : Storage → Prop)
    (hguard : ∀ s tx s', guard s tx s' → s'.epoch < 2 ^ 63) (hinit : motive .empty)
    (hcredit : ∀ s income, motive s → motive (s.credit income))
    (hstep : ∀ caller s s', Founded s → Founded s' → (∀ v, (s.pool v).Ledger) →
      (∀ v, (s'.pool v).Ledger) → RosterStep caller s s' → motive s → motive s')
    (h : Reachable stakingStep guard .empty s) : motive s := by
  induction h with
  | start => exact hinit
  | @call s s' tx hreach hs hg ih =>
    have hreach' : Reachable stakingStep guard .empty s' := .call tx hreach hs hg
    have hepoch := reachable_epoch_lt hguard hreach
    have hepoch' := reachable_epoch_lt hguard hreach'
    have hledger := reachable_ledger hguard hreach
    exact hstep tx.1.caller (s.credit (income tx.1 tx.2)) s'
      ((reachable_founded hreach (by omega)).credit _) (reachable_founded hreach' (by omega))
      hledger (reachable_ledger hguard hreach')
      (reachable_rosterStep hguard hreach hs) (hcredit s _ ih)

end Reachable

section Syscalls

/-- The compaction writes the execution set and nothing else of the roster. -/
theorem compactExecutionSet_roster (s : Storage) :
    (compactExecutionSet s).roster = { s.roster with
      execution := (compactExecutionSet s).execution
      bitset := (compactExecutionSet s).bitset } := by
  unfold compactExecutionSet
  generalize (removals s).reverse = idxs
  induction idxs generalizing s with
  | nil => rfl
  | cons idx idxs ih =>
    rw [List.foldl_cons, ih]
    rfl

/-- A snapshot leaves the delegation lists and the records alone. -/
theorem takeSnapshot_lists (s : Storage) : (takeSnapshot s).listNodes = s.listNodes ∧
    ∀ v, (takeSnapshot s).delegators v = s.delegators v := by
  have hpool := takeSnapshot_pool s
  have hnodes := congrArg Roster.listNodes (compactExecutionSet_roster (electSnapshot s))
  rw [← takeSnapshot_eq] at hnodes
  generalize takeSnapshot s = s' at *
  exact ⟨hnodes, fun v => (hpool v).delegators_eq⟩

/-- Refreshing an accumulator entry leaves the roster alone. -/
theorem refreshAccumulator_roster (s : Storage) (epoch : ℕ) (v : ValId) :
    (refreshAccumulator s epoch v).roster = s.roster := by
  unfold refreshAccumulator
  dsimp only
  split <;> rfl

/-- An epoch change leaves the roster alone. -/
theorem changeEpoch_roster (s : Storage) (next : ℕ) : (changeEpoch s next).roster = s.roster := by
  change (refreshAccumulators s next).roster = s.roster
  unfold refreshAccumulators
  generalize List.range s.snapshot.length = positions
  induction positions generalizing s with
  | nil => rfl
  | cons i positions ih =>
    rw [List.foldl_cons, ih, refreshAccumulator_roster, refreshAccumulator_roster]

/-- An epoch change leaves the records alone. -/
theorem changeEpoch_delegators (s : Storage) (next : ℕ) (v : ValId) :
    (changeEpoch s next).delegators v = s.delegators v := by
  obtain ⟨hrefresh, hskip⟩ := (refreshAccumulators_spec s next).2 v
  change ((refreshAccumulators s next).pool v).delegators = (s.pool v).delegators
  by_cases hmem : (s.pool v).inSnapshot
  · rw [hrefresh hmem]
    rfl
  · rw [hskip hmem]

end Syscalls

/-- What delegations and undelegations leave alone: ids, auth addresses, commissions and all that
snapshots write. -/
structure SameTerms (r r' : Roster) : Prop where
  lastValId_eq : r'.lastValId = r.lastValId
  authAddress_eq : r'.authAddress = r.authAddress
  commission_eq : r'.commission = r.commission
  consensus_eq : r'.consensus = r.consensus
  snapshot_eq : r'.snapshot = r.snapshot
  consensusView_eq : r'.consensusView = r.consensusView
  snapshotView_eq : r'.snapshotView = r.snapshotView

section Terms

variable {s s' : Storage} {v : ValId} {d : Address} {amount : ℕ}

/-- A roster has its own terms. -/
theorem SameTerms.refl (r : Roster) : SameTerms r r := ⟨rfl, rfl, rfl, rfl, rfl, rfl, rfl⟩

/-- Rosters with the terms of a third have the same terms. -/
theorem SameTerms.trans {r r' r'' : Roster} (h : SameTerms r r') (h' : SameTerms r' r'') :
    SameTerms r r'' :=
  ⟨h'.1.trans h.1, h'.2.trans h.2, h'.3.trans h.3, h'.4.trans h.4, h'.5.trans h.5,
    h'.6.trans h.6, h'.7.trans h.7⟩

/-- Writing the flags of a record read from storage. -/
theorem writeValidatorFlags_roster (s : Storage) (v : ValId) (flags : Flags) :
    (s.writeValidatorFlags v (s.validators v) flags).roster =
      { s.roster with flags := Function.update s.roster.flags v flags } := by
  have hauth : (s.validators v).authAddress = s.roster.authAddress v := rfl
  have hcommission : (s.validators v).commission = s.roster.commission v := rfl
  simp only [Storage.writeValidatorFlags, roster_writeValidator, hauth, hcommission,
    Function.update_eq_self]

/-- The flags of a validator after a delegation. -/
def delegateFlags (val : Validator) (del : Delegator) (caller : Address) : Flags :=
  let flags := if activeValidatorStake ≤ val.stake then val.flags &&& ~~~stakeTooLow else val.flags
  if caller = val.authAddress ∧ minAuthAddressStake ≤ del.totalStake then flags &&& ~~~withdrawn
  else flags

/-- The flags of a validator after an undelegation. -/
def undelegateFlags (val : Validator) (del : Delegator) (caller : Address) : Flags :=
  let flags := if val.stake < activeValidatorStake then val.flags ||| stakeTooLow else val.flags
  if caller = val.authAddress ∧ del.totalStake < minAuthAddressStake then flags ||| withdrawn
  else flags

/-- Flags are written when they change, which is to write them. -/
theorem writeFlagsIf_roster (s : Storage) (v : ValId) (flags : Flags) :
    (if flags ≠ (s.validators v).flags then
        (flags, s.writeValidatorFlags v (s.validators v) flags) else (flags, s)).1 = flags ∧
      (if flags ≠ (s.validators v).flags then
        (flags, s.writeValidatorFlags v (s.validators v) flags) else (flags, s)).2.roster =
        { s.roster with flags := Function.update s.roster.flags v flags } := by
  split
  next => exact ⟨rfl, writeValidatorFlags_roster s v flags⟩
  next hsame =>
    have hsame : flags = s.roster.flags v := not_not.mp hsame
    rw [hsame, Function.update_eq_self]
    exact ⟨rfl, rfl⟩

/-- The roster after the flags of a delegation. -/
theorem updateFlagsAfterDelegate_roster (s : Storage) (v : ValId) (del : Delegator)
    (caller : Address) :
    (updateValidatorFlagsAfterDelegate s v (s.validators v) del caller).1 =
        delegateFlags (s.validators v) del caller ∧
      (updateValidatorFlagsAfterDelegate s v (s.validators v) del caller).2.roster =
        { s.roster with
          flags := Function.update s.roster.flags v (delegateFlags (s.validators v) del caller) } :=
  writeFlagsIf_roster s v (delegateFlags (s.validators v) del caller)

/-- The roster after the flags of an undelegation. -/
theorem updateFlagsAfterUndelegate_roster (s : Storage) (v : ValId) (del : Delegator)
    (caller : Address) :
    (updateValidatorFlagsAfterUndelegate s v (s.validators v) del caller).2.roster =
      { s.roster with
        flags := Function.update s.roster.flags v (undelegateFlags (s.validators v) del caller) } :=
  (writeFlagsIf_roster s v (undelegateFlags (s.validators v) del caller)).2

/-- The execution set after entering it only depends on the one before. -/
theorem addToValsetIf_congr {s t : Storage} (flags : Flags) (v : ValId)
    (hexecution : s.execution = t.execution) (hbitset : s.bitset = t.bitset) :
    (addToValsetIf flags s v).execution = (addToValsetIf flags t v).execution ∧
      (addToValsetIf flags s v).bitset = (addToValsetIf flags t v).bitset := by
  unfold addToValsetIf addToValset
  rw [hexecution, hbitset]
  split
  · dsimp only
    split <;> exact ⟨rfl, rfl⟩
  · exact ⟨hexecution, hbitset⟩

/-- Entering the execution set writes nothing else of the roster. -/
theorem addToValsetIf_roster (flags : Flags) (s : Storage) (v : ValId) :
    (addToValsetIf flags s v).roster = { s.roster with
      execution := (addToValsetIf flags s v).execution
      bitset := (addToValsetIf flags s v).bitset } := by
  unfold addToValsetIf addToValset
  split
  · dsimp only
    split <;> rfl
  · rfl

/-- What enlisting does to the roster. -/
theorem enlist_roster {del : Delegator} (h : enlist s v d del = .ok s') :
    let flags := delegateFlags (s.validators v) del d
    SameTerms s.roster s'.roster ∧ s'.roster.flags = Function.update s.roster.flags v flags ∧
      s'.execution = (addToValsetIf flags s v).execution ∧
      s'.bitset = (addToValsetIf flags s v).bitset ∧
      ∃ t, t.listNodes = s.listNodes ∧ linkedListInsert t v d = .ok s' := by
  obtain ⟨hflags, hroster⟩ := updateFlagsAfterDelegate_roster s v del d
  have hinsert : linkedListInsert (addToValsetIf
      (updateValidatorFlagsAfterDelegate s v (s.validators v) del d).1
      (updateValidatorFlagsAfterDelegate s v (s.validators v) del d).2 v) v d = .ok s' := h
  rw [hflags] at hinsert
  generalize (updateValidatorFlagsAfterDelegate s v (s.validators v) del d).2 = s₁
    at hroster hinsert
  have hvalset := addToValsetIf_roster (delegateFlags (s.validators v) del d) s₁ v
  obtain ⟨hexecution, hbitset⟩ := addToValsetIf_congr (delegateFlags (s.validators v) del d) v
    (congrArg Roster.execution hroster) (congrArg Roster.bitset hroster)
  generalize addToValsetIf (delegateFlags (s.validators v) del d) s₁ v = t at *
  have hkept := hinsert
  simp only [linkedListInsert, bind_eq_ok] at hkept
  obtain ⟨_, haddress, hval⟩ := hkept
  obtain ⟨nodes, rfl⟩ := linkedListInsertAddress_spec haddress
  obtain ⟨-, -, nodes', rfl⟩ := linkedListInsertValId_spec hval
  have hsame : Storage.roster { t with listNodes := nodes' } = { t.roster with
    listNodes := nodes' } := rfl
  refine ⟨?_, ?_, hexecution, hbitset, t, ?_, hinsert⟩
  · rw [hsame, hvalset, hroster]
    exact ⟨rfl, rfl, rfl, rfl, rfl, rfl, rfl⟩
  · rw [hsame, hvalset, hroster]
  · have hnodes := congrArg Roster.listNodes hvalset
    rw [hroster] at hnodes
    exact hnodes

/-- `internal_delegate` keeps the terms. -/
theorem internalDelegate_terms (h : internalDelegate s v d amount = .ok s') :
    SameTerms s.roster s'.roster := by
  obtain ⟨s₁, s₂, hroster, -, -, henlist, hroster'⟩ := internalDelegate_enlist h
  rw [← hroster, hroster']
  exact (enlist_roster henlist).1

/-- A delegation keeps the terms. -/
theorem Joins.terms (h : Joins v d amount s s') : SameTerms s.roster s'.roster := by
  obtain ⟨s₁, s₂, hroster, -, -, henlist, hroster'⟩ := h.enlisted
  rw [← hroster, hroster']
  exact (enlist_roster henlist).1

/-- A delegation writes the flags of its validator only. -/
theorem Joins.flags_off (h : Joins v d amount s s') {v' : ValId} (hv : v' ≠ v) :
    (s'.validators v').flags = (s.validators v').flags := by
  obtain ⟨s₁, s₂, hroster, -, -, henlist, hroster'⟩ := h.enlisted
  obtain ⟨-, hflags, -⟩ := enlist_roster henlist
  rw [← hroster', hroster] at hflags
  exact (congrFun hflags v').trans (Function.update_of_ne hv ..)

/-- Removal from the lists writes nothing else of the roster. -/
theorem linkedListRemove_roster (s : Storage) (v : ValId) (d : Address) :
    ∃ nodes, (linkedListRemove s v d).roster = { s.roster with listNodes := nodes } := by
  obtain ⟨nodes, h⟩ := linkedListRemove_nodes s v d
  exact ⟨nodes, by rw [h]; rfl⟩

/-- Flags and lists after an undelegation keep the terms. -/
theorem delist_terms {s₁ s₂ : Storage} {val : Validator} {del : Delegator}
    (hroster : s₁.roster = s.roster) (hval : s₁.validators v = val)
    (hflags : s₂.roster = (updateValidatorFlagsAfterUndelegate s₁ v val del d).2.roster)
    (hroster' : s'.roster = if del.Exists then s₂.roster else (linkedListRemove s₂ v d).roster) :
    SameTerms s.roster s'.roster := by
  subst hval
  rw [updateFlagsAfterUndelegate_roster, hroster] at hflags
  have hkept : SameTerms s.roster s₂.roster := by
    rw [hflags]
    exact ⟨rfl, rfl, rfl, rfl, rfl, rfl, rfl⟩
  obtain ⟨nodes, hnodes⟩ := linkedListRemove_roster s₂ v d
  rw [hroster', hnodes]
  split
  · exact hkept
  · exact hkept.trans ⟨rfl, rfl, rfl, rfl, rfl, rfl, rfl⟩

/-- An undelegation writes the flags of its validator only. -/
theorem Leaves.flags_off (h : Leaves v d amount s s') {v' : ValId} (hv : v' ≠ v) :
    (s'.validators v').flags = (s.validators v').flags := by
  obtain ⟨s₁, s₂, hroster, -, hflags, hroster'⟩ := h.delisted
  obtain ⟨nodes, hnodes⟩ := linkedListRemove_roster s₂ v d
  rw [updateFlagsAfterUndelegate_roster, hroster] at hflags
  have hkept : s'.roster.flags = s₂.roster.flags := by
    rw [hroster', hnodes]
    split <;> rfl
  rw [hflags] at hkept
  exact (congrFun hkept v').trans (Function.update_of_ne hv ..)

/-- An undelegation keeps the terms. -/
theorem Leaves.terms (h : Leaves v d amount s s') : SameTerms s.roster s'.roster := by
  obtain ⟨s₁, s₂, hroster, -, hflags, hroster'⟩ := h.delisted
  exact delist_terms hroster rfl hflags hroster'

/-- `handle_delegate` keeps the terms. -/
theorem handleDelegate_terms {msg : Message} {answer : Answer}
    (h : handleDelegate s msg v = .ok answer) : SameTerms s.roster answer.storage.roster := by
  simp only [handleDelegate, bind_eq_ok] at h
  obtain ⟨-, -, -, -, h⟩ := h
  split at h
  next =>
    cases h
    exact .refl _
  next =>
    simp only [bind_eq_ok, pure_eq_ok] at h
    obtain ⟨-, -, s₁, hdelegate, rfl⟩ := h
    exact internalDelegate_terms hdelegate

/-- `handle_compound` keeps the terms. -/
theorem handleCompound_terms {msg : Message} {answer : Answer}
    (h : handleCompound s msg v = .ok answer) : SameTerms s.roster answer.storage.roster := by
  simp only [handleCompound, bind_eq_ok] at h
  obtain ⟨-, -, ⟨del, s₁⟩, hpull, h⟩ := h
  have hroster := pullDelegatorUpToDate_roster hpull
  rw [← hroster]
  dsimp only at h
  split at h
  next =>
    cases h
    exact .refl _
  next =>
    simp only [bind_eq_ok, pure_eq_ok] at h
    obtain ⟨s₂, hdelegate, rfl⟩ := h
    have htaken : (takeRewards s₁ v msg.caller del).roster = s₁.roster := rfl
    rw [← htaken]
    exact internalDelegate_terms hdelegate

/-- `handle_undelegate` keeps the terms. -/
theorem handleUndelegate_terms {msg : Message} {w : WithdrawId} {answer : Answer}
    (hamount : amount ≠ 0) (h : handleUndelegate s msg v amount w = .ok answer) :
    SameTerms s.roster answer.storage.roster := by
  obtain ⟨s₁, s₂, hroster, -, hflags, hroster'⟩ := handleUndelegate_delist hamount h
  exact delist_terms hroster rfl hflags hroster'

end Terms

end SuwappuRevm.Staking
