import SuwappuRevm.Staking.SettlementSpec

/-!
# A user method is a run on one pool

Lists, flags and the execution set are outside the pools, so the functions that maintain them
change none. Each handler is then a settlement, or a few, followed by the steps that its name
says, and its accounting is that of its steps.
-/

namespace SuwappuRevm.Staking

open Foundations

/-- Nothing the rewards depend on changes. -/
structure SamePools (s s' : Storage) : Prop where
  pool_eq : ∀ v, s'.pool v = s.pool v
  epoch_eq : s'.epoch = s.epoch
  inBoundary_eq : s'.inBoundary = s.inBoundary
  lastValId_eq : s'.lastValId = s.lastValId
  valIdSecp_eq : s'.valIdSecp = s.valIdSecp
  authAddress_eq : ∀ v, (s'.validators v).authAddress = (s.validators v).authAddress
  received_eq : s'.received = s.received
  balance_eq : s'.balance = s.balance

namespace SamePools

variable {s s' s'' : Storage}

/-- All pools are the same as before when nothing has happened. -/
theorem refl (s : Storage) : SamePools s s :=
  ⟨fun _ => rfl, rfl, rfl, rfl, rfl, fun _ => rfl, rfl, rfl⟩

/-- Calls that leave all pools compose. -/
theorem trans (h : SamePools s s') (h' : SamePools s' s'') : SamePools s s'' where
  pool_eq v := (h'.pool_eq v).trans (h.pool_eq v)
  epoch_eq := h'.epoch_eq.trans h.epoch_eq
  inBoundary_eq := h'.inBoundary_eq.trans h.inBoundary_eq
  lastValId_eq := h'.lastValId_eq.trans h.lastValId_eq
  valIdSecp_eq := h'.valIdSecp_eq.trans h.valIdSecp_eq
  authAddress_eq v := (h'.authAddress_eq v).trans (h.authAddress_eq v)
  received_eq := h'.received_eq.trans h.received_eq
  balance_eq := h'.balance_eq.trans h.balance_eq

/-- Any validator may be said to be the touched one. -/
theorem touches (h : SamePools s s') (v : ValId) : Touches v s s' :=
  ⟨fun v' _ => h.pool_eq v', h.epoch_eq, h.inBoundary_eq, h.lastValId_eq, h.valIdSecp_eq,
    h.authAddress_eq, h.received_eq⟩

/-- List nodes belong to no pool. -/
theorem listNodes (s : Storage) (nodes : ValId → Address → ListNode) :
    SamePools s { s with listNodes := nodes } :=
  ⟨fun _ => rfl, rfl, rfl, rfl, rfl, fun _ => rfl, rfl, rfl⟩

/-- The execution set belongs to no pool. -/
theorem execution (s : Storage) (bits : ℕ → BitVec 256) (execution : Valset) :
    SamePools s { s with bitset := bits, execution } :=
  ⟨fun _ => rfl, rfl, rfl, rfl, rfl, fun _ => rfl, rfl, rfl⟩

/-- The proposer belongs to no pool. -/
theorem proposerValId (s : Storage) (proposerValId : ValId) :
    SamePools s { s with proposerValId } :=
  ⟨fun _ => rfl, rfl, rfl, rfl, rfl, fun _ => rfl, rfl, rfl⟩

/-- A record that keeps its auth address and the pool's fields. -/
theorem writeValidator (s : Storage) (v : ValId) (val : Validator)
    (hauth : val.authAddress = (s.validators v).authAddress)
    (hstake : val.stake = (s.validators v).stake)
    (hacc : val.accumulatedRewardPerToken = (s.validators v).accumulatedRewardPerToken)
    (hunclaimed : val.unclaimedRewards = (s.validators v).unclaimedRewards) :
    SamePools s (s.writeValidator v val) := by
  refine ⟨fun v' => ?_, rfl, rfl, rfl, rfl, (Touches.writeValidator s v val hauth).authAddress_eq,
    rfl, rfl⟩
  by_cases hv : v' = v
  · subst hv
    simp [Storage.pool, Storage.writeValidator, hstake, hacc, hunclaimed]
  · exact (Touches.writeValidator s v val hauth).pool_of_ne v' hv

/-- Writing flags of a record read from storage. -/
theorem writeValidatorFlags (s : Storage) (v : ValId) (val : Validator) (flags : Flags)
    (hauth : val.authAddress = (s.validators v).authAddress) :
    SamePools s (s.writeValidatorFlags v val flags) :=
  writeValidator s v _ hauth rfl rfl rfl

end SamePools

/-- Insertion writes list nodes only. -/
theorem linkedListInsertAddress_spec {s s' : Storage} {v : ValId} {d : Address}
    (h : linkedListInsertAddress s v d = .ok s') :
    ∃ nodes, s' = { s with listNodes := nodes } := by
  simp only [linkedListInsertAddress, bind_eq_ok, failIf_eq_ok] at h
  obtain ⟨-, -, h⟩ := h
  split at h
  · cases h
    exact ⟨s.listNodes, rfl⟩
  · cases h
    split <;> exact ⟨_, rfl⟩

/-- Insertion refuses the reserved ids and writes list nodes only. -/
theorem linkedListInsertValId_spec {s s' : Storage} {v : ValId} {d : Address}
    (h : linkedListInsertValId s v d = .ok s') :
    v ≠ 0 ∧ v ≠ sentinelValId ∧ ∃ nodes, s' = { s with listNodes := nodes } := by
  simp only [linkedListInsertValId, bind_eq_ok, failIf_eq_ok, not_or] at h
  obtain ⟨-, ⟨hzero, hsentinel⟩, h⟩ := h
  refine ⟨hzero, hsentinel, ?_⟩
  split at h
  · cases h
    exact ⟨s.listNodes, rfl⟩
  · cases h
    split <;> exact ⟨_, rfl⟩

/-- `linked_list_insert` changes no pool. -/
theorem linkedListInsert_spec {s s' : Storage} {v : ValId} {d : Address}
    (h : linkedListInsert s v d = .ok s') :
    v ≠ 0 ∧ v ≠ sentinelValId ∧ SamePools s s' := by
  simp only [linkedListInsert, bind_eq_ok] at h
  obtain ⟨s₁, haddress, hval⟩ := h
  obtain ⟨nodes, rfl⟩ := linkedListInsertAddress_spec haddress
  obtain ⟨hzero, hsentinel, nodes', rfl⟩ := linkedListInsertValId_spec hval
  exact ⟨hzero, hsentinel, .listNodes s nodes'⟩

/-- `linked_list_remove` writes list nodes only. -/
theorem linkedListRemove_nodes (s : Storage) (v : ValId) (d : Address) :
    ∃ nodes, linkedListRemove s v d = { s with listNodes := nodes } := by
  have haddress (s : Storage) : ∃ nodes, linkedListRemoveAddress s v d =
      { s with listNodes := nodes } := by
    unfold linkedListRemoveAddress
    dsimp only
    split
    · exact ⟨s.listNodes, rfl⟩
    · split <;> exact ⟨_, rfl⟩
  have hval (s : Storage) : ∃ nodes, linkedListRemoveValId s v d =
      { s with listNodes := nodes } := by
    unfold linkedListRemoveValId
    dsimp only
    split
    · exact ⟨s.listNodes, rfl⟩
    · split <;> exact ⟨_, rfl⟩
  obtain ⟨nodes, h⟩ := haddress s
  obtain ⟨nodes', h'⟩ := hval { s with listNodes := nodes }
  exact ⟨nodes', by rw [linkedListRemove, h, h']⟩

/-- `linked_list_remove` changes no pool. -/
theorem linkedListRemove_samePools (s : Storage) (v : ValId) (d : Address) :
    SamePools s (linkedListRemove s v d) := by
  obtain ⟨nodes, h⟩ := linkedListRemove_nodes s v d
  rw [h]
  exact .listNodes s nodes

/-- Removal of a record without stake changes no pool. -/
theorem linkedListRemoveIf_samePools (s : Storage) (v : ValId) (d : Address) (del : Delegator) :
    SamePools s (if del.Exists then s else linkedListRemove s v d) := by
  split
  · exact .refl s
  · exact linkedListRemove_samePools s v d

/-- Entering the execution set changes no pool. -/
theorem addToValsetIf_samePools (flags : Flags) (s : Storage) (v : ValId) :
    SamePools s (addToValsetIf flags s v) := by
  unfold addToValsetIf addToValset
  split
  · dsimp only
    split
    · exact .execution s _ _
    · exact .execution s _ s.execution
  · exact .refl s

/-- Flags after a delegation change no pool. -/
theorem updateFlagsAfterDelegate_samePools (s : Storage) (v : ValId) (val : Validator)
    (del : Delegator) (caller : Address)
    (hauth : val.authAddress = (s.validators v).authAddress) :
    SamePools s (updateValidatorFlagsAfterDelegate s v val del caller).2 := by
  unfold updateValidatorFlagsAfterDelegate
  dsimp only
  generalize (if caller = val.authAddress ∧ minAuthAddressStake ≤ del.totalStake then _ else _ :
    Flags) = flags
  split
  · exact .writeValidatorFlags s v val flags hauth
  · exact .refl s

/-- Flags after an undelegation change no pool. -/
theorem updateFlagsAfterUndelegate_samePools (s : Storage) (v : ValId) (val : Validator)
    (del : Delegator) (caller : Address)
    (hauth : val.authAddress = (s.validators v).authAddress) :
    SamePools s (updateValidatorFlagsAfterUndelegate s v val del caller).2 := by
  unfold updateValidatorFlagsAfterUndelegate
  dsimp only
  generalize (if caller = val.authAddress ∧ del.totalStake < minAuthAddressStake then _ else _ :
    Flags) = flags
  split
  · exact .writeValidatorFlags s v val flags hauth
  · exact .refl s

/-- A track takes the amount; it needs a reference when it was empty. -/
theorem addPending_eq_ok {b need : Bool} {k amount : ℕ} {del del' : Delegator}
    (h : addPending b k amount del = .ok (need, del')) :
    need = decide (del.trackEpoch b = 0) ∧ del' = del.addTo b k amount := by
  unfold addPending at h
  cases b with
  | false =>
    simp only [Bool.false_eq_true, if_false, bind_eq_ok, checkedAdd_eq_ok, pure_eq_ok,
      Prod.mk.injEq] at h
    obtain ⟨_, ⟨-, rfl⟩, rfl, rfl⟩ := h
    exact ⟨rfl, rfl⟩
  | true =>
    simp only [if_true, bind_eq_ok, checkedAdd_eq_ok, pure_eq_ok, Prod.mk.injEq] at h
    obtain ⟨_, ⟨-, rfl⟩, rfl, rfl⟩ := h
    exact ⟨rfl, rfl⟩

/-- Taking a reference in storage takes it in the pool. -/
theorem incrementAccumulatorRefcount_pool (s : Storage) (v : ValId) :
    (incrementAccumulatorRefcount s v).pool v =
        (s.pool v).retain (activationEpoch s.epoch s.inBoundary) ∧
      Touches v s (incrementAccumulatorRefcount s v) ∧
      (incrementAccumulatorRefcount s v).balance = s.balance :=
  ⟨pool_writeAccumulator .., .writeAccumulator .., rfl⟩

/-- Taking a reference when needed. -/
theorem incrementIf_pool (need : Prop) [Decidable need] (s : Storage) (v : ValId) :
    (incrementIf (decide need) s v).pool v =
        (s.pool v).retainIf need (activationEpoch s.epoch s.inBoundary) ∧
      Touches v s (incrementIf (decide need) s v) ∧
      (incrementIf (decide need) s v).balance = s.balance := by
  unfold incrementIf Pool.retainIf
  by_cases hneed : need
  · simp only [hneed, decide_true, if_true]
    exact incrementAccumulatorRefcount_pool s v
  · simp only [hneed, decide_false, if_false, Bool.false_eq_true]
    exact ⟨trivial, .refl v s, trivial⟩

/-- Adding a delegation to a settled record joins it, up to the history entry. -/
theorem addDelegation_spec {s s' : Storage} {v : ValId} {d : Address} {amount : ℕ}
    {del del' : Delegator} (hdel : s.delegators v d = del)
    (h : addDelegation s v d amount del = .ok (del', s')) :
    Touches v s s' ∧ s'.balance = s.balance ∧
      (s'.pool v).record (.delegated d amount s.getActivationEpoch) =
        (s.pool v).join s.inBoundary s.getActivationEpoch d amount := by
  simp only [addDelegation, bind_eq_ok, checkedAdd_eq_ok, pure_eq_ok, Prod.mk.injEq] at h
  obtain ⟨⟨need, del₁⟩, hadd, _, ⟨-, rfl⟩, rfl, rfl⟩ := h
  obtain ⟨rfl, rfl⟩ := addPending_eq_ok hadd
  subst hdel
  obtain ⟨hretain, htouches, hbalance⟩ := incrementIf_pool
    ((s.delegators v d).trackEpoch s.inBoundary = 0)
    (s.writeDelegator v d ((s.delegators v d).addTo s.inBoundary s.getActivationEpoch amount)) v
  refine ⟨((Touches.writeDelegator ..).trans htouches).trans (.writeValidatorStake ..), hbalance,
    ?_⟩
  have hstake (t : Storage) : (t.validators v).stake = (t.pool v).stake := rfl
  rw [pool_writeValidatorStake, hstake, hretain, pool_writeDelegator]
  by_cases hneed : (s.delegators v d).trackEpoch s.inBoundary = 0
  · have hpool : ((s.pool v).delegators d).trackEpoch s.inBoundary = 0 := hneed
    simp only [Pool.join, Pool.retainIf, hneed, hpool, if_true]
    rfl
  · have hpool : ¬((s.pool v).delegators d).trackEpoch s.inBoundary = 0 := hneed
    simp only [Pool.join, Pool.retainIf, hneed, hpool, if_false]
    rfl

/-- Flags, execution set and lists belong to no pool, and no reserved id gets a delegator. -/
theorem enlist_spec {s s' : Storage} {v : ValId} {d : Address} {del : Delegator}
    (h : enlist s v d del = .ok s') : v ≠ sentinelValId ∧ SamePools s s' := by
  obtain ⟨-, hsentinel, hsame⟩ := linkedListInsert_spec h
  exact ⟨hsentinel, ((updateFlagsAfterDelegate_samePools s v _ del d rfl).trans
    (addToValsetIf_samePools ..)).trans hsame⟩

/-- The epoch is below its last value and the pending epochs of a pool are in order. -/
def Storage.InOrder (s : Storage) (v : ValId) : Prop :=
  s.epoch + 1 < 2 ^ 64 ∧ (s.pool v).EpochsOk s.epoch s.inBoundary

/-- Order is kept by a quiet run and does not look at anything else. -/
theorem Storage.InOrder.quiet {s s' : Storage} {v : ValId} {i o : ℕ} (h : s.InOrder v)
    (htouches : Touches v s s')
    (hrun : (s.pool v).QuietRun s.epoch s.inBoundary i o (s'.pool v)) : s'.InOrder v := by
  unfold InOrder
  rw [htouches.epoch_eq, htouches.inBoundary_eq]
  exact ⟨h.1, hrun.epochsOk h.2⟩

/-- `internal_delegate` settles the record, then joins it. -/
theorem internalDelegate_join {s s' : Storage} {v : ValId} {d : Address} {amount : ℕ}
    (h : internalDelegate s v d amount = .ok s') :
    ∃ del s₁, pullDelegatorUpToDate s v d = .ok (del, s₁) ∧ v ≠ sentinelValId ∧
      Touches v s₁ s' ∧ s'.balance = s₁.balance ∧ s'.pool v =
        (s₁.pool v).join s₁.inBoundary (activationEpoch s₁.epoch s₁.inBoundary) d amount := by
  simp only [internalDelegate, bind_eq_ok, pure_eq_ok] at h
  obtain ⟨⟨del, s₁⟩, hpull, ⟨del', s₂⟩, hadd, s₃, henlist, rfl⟩ := h
  obtain ⟨-, -, hdel⟩ := pullDelegatorUpToDate_touches hpull
  obtain ⟨htouch₂, hbalance₂, hjoin⟩ := addDelegation_spec hdel hadd
  obtain ⟨hsentinel, hsame⟩ := enlist_spec henlist
  have hactivation : s₃.getActivationEpoch = s₁.getActivationEpoch := by
    unfold Storage.getActivationEpoch
    rw [hsame.epoch_eq, hsame.inBoundary_eq, htouch₂.epoch_eq, htouch₂.inBoundary_eq]
  refine ⟨del, s₁, hpull, hsentinel, (htouch₂.trans (hsame.touches v)).trans (.record ..),
    hsame.balance_eq.trans hbalance₂, ?_⟩
  rw [pool_record, hsame.pool_eq, hactivation]
  exact hjoin

/-- `internal_delegate` settles the record and joins it, under an id that is not reserved. -/
theorem internalDelegate_spec {s s' : Storage} {v : ValId} {d : Address} {amount : ℕ}
    (hamount : amount ≠ 0) (h : internalDelegate s v d amount = .ok s') :
    v ≠ sentinelValId ∧ Touches v s s' ∧ s'.balance = s.balance ∧
      (s.InOrder v → (s.pool v).Run s.epoch s.inBoundary amount 0 (s'.pool v)) := by
  obtain ⟨del, s₁, hpull, hsentinel, htouch₂, hbalance₂, hjoin⟩ := internalDelegate_join h
  obtain ⟨htouch₁, hbalance₁, hdel⟩ := pullDelegatorUpToDate_touches hpull
  refine ⟨hsentinel, htouch₁.trans htouch₂, hbalance₂.trans hbalance₁, fun horder => ?_⟩
  obtain ⟨hrun, hsettled⟩ := pullDelegatorUpToDate_spec horder.1 (horder.2 d) hpull
  rw [hjoin, htouch₁.epoch_eq, htouch₁.inBoundary_eq]
  have hrecord : ((s₁.pool v).delegators d).Settled s.epoch := by
    rw [← hdel] at hsettled
    exact hsettled
  have hall := Pool.Run.enter hrun (.join d amount hamount hrecord)
  rwa [Nat.zero_add] at hall

/-- `internal_delegate` goes through when its settlement does, its sums fit and neither address
nor id is reserved. -/
theorem internalDelegate_succeeds {s s₁ : Storage} {v : ValId} {d : Address} {amount : ℕ}
    {del : Delegator} (hpull : pullDelegatorUpToDate s v d = .ok (del, s₁))
    (hd : ¬(d = 0 ∨ d = sentinelAddress)) (hv : ¬(v = 0 ∨ v = sentinelValId))
    (hdelta : del.deltaStake + amount < wordBound)
    (hnext : del.nextDeltaStake + amount < wordBound)
    (hstake : (s₁.validators v).stake + amount < wordBound) :
    ∃ s', internalDelegate s v d amount = .ok s' := by
  have haddress (t : Storage) : ∃ t', linkedListInsertAddress t v d = .ok t' := by
    rw [linkedListInsertAddress, failIf_of_not hd, ok_bind]
    dsimp only
    split <;> exact ⟨_, rfl⟩
  have hvalId (t : Storage) : ∃ t', linkedListInsertValId t v d = .ok t' := by
    rw [linkedListInsertValId, failIf_of_not hv, ok_bind]
    dsimp only
    split <;> exact ⟨_, rfl⟩
  have hpending : ∃ need del', addPending s₁.inBoundary s₁.getActivationEpoch amount del =
      .ok (need, del') := by
    unfold addPending
    split
    · rw [checkedAdd_eq_ok.mpr ⟨hnext, rfl⟩]
      exact ⟨_, _, rfl⟩
    · rw [checkedAdd_eq_ok.mpr ⟨hdelta, rfl⟩]
      exact ⟨_, _, rfl⟩
  obtain ⟨need, del', hpending⟩ := hpending
  have hkeeps : ((incrementIf need (s₁.writeDelegator v d del') v).validators v).stake =
      (s₁.validators v).stake := by
    cases need <;> rfl
  have hadd : ∃ s₂, addDelegation s₁ v d amount del = .ok (del', s₂) := by
    rw [addDelegation, hpending, ok_bind]
    dsimp only
    rw [hkeeps, checkedAdd_eq_ok.mpr ⟨hstake, rfl⟩]
    exact ⟨_, rfl⟩
  obtain ⟨s₂, hadd⟩ := hadd
  have henlist : ∃ s₃, enlist s₂ v d del' = .ok s₃ := by
    unfold enlist linkedListInsert
    obtain ⟨t₁, ht₁⟩ := haddress (addToValsetIf (updateValidatorFlagsAfterDelegate s₂ v
      (s₂.validators v) del' d).1 (updateValidatorFlagsAfterDelegate s₂ v (s₂.validators v) del'
        d).2 v)
    obtain ⟨t₂, ht₂⟩ := hvalId t₁
    refine ⟨t₂, ?_⟩
    dsimp only
    rw [ht₁]
    exact ht₂
  obtain ⟨s₃, henlist⟩ := henlist
  refine ⟨s₃.record v (.delegated d amount s₃.getActivationEpoch), ?_⟩
  rw [internalDelegate, hpull, ok_bind]
  dsimp only
  rw [hadd, ok_bind]
  dsimp only
  rw [henlist]
  rfl

/-- A pool nobody has put value into. -/
structure Pool.Fresh (p : Pool) : Prop where
  stake_eq : p.stake = 0
  acc_eq : p.acc = 0
  unclaimed_eq : p.unclaimed = 0
  delegators_eq : ∀ d, p.delegators d = .zero
  withdrawals_eq : ∀ d w, (p.withdrawals d w).amount = 0
  consensusStake_eq : p.consensusStake = 0
  snapshotStake_eq : p.snapshotStake = 0

namespace Pool

variable {cur : ℕ} {b : Bool} {p p' : Pool} {i o : ℕ}

/-- Nobody shares rewards in a fresh pool. -/
theorem Fresh.view_eq (h : p.Fresh) (b : Bool) : p.view b = 0 := by
  cases b
  · exact h.consensusStake_eq
  · exact h.snapshotStake_eq

/-- No quiet step is possible in a fresh pool. -/
theorem Fresh.not_quiet (h : p.Fresh) : ¬p.Quiet cur b i o p' := by
  intro hstep
  cases hstep with
  | promote d hdelta hnext hle => exact hnext (by rw [h.delegators_eq d]; rfl)
  | compound d rewards hdelta => exact hdelta (by rw [h.delegators_eq d]; rfl)
  | accrue d rewards hsettled hstake => exact hstake (by rw [h.delegators_eq d]; rfl)
  | take d hrewards => exact hrewards (by rw [h.delegators_eq d]; rfl)
  | pay d w rewards hamount => exact hamount (h.withdrawals_eq d w)
  | commission d amount hview => exact hview (h.view_eq b)
  | reward amount hview => exact hview (h.view_eq b)

/-- A quiet run of a fresh pool has no steps. -/
theorem Fresh.quietRun_eq (h : p.Fresh) (hrun : p.QuietRun cur b i o p') : p' = p := by
  induction hrun with
  | refl => rfl
  | step _ hstep ih =>
    subst ih
    exact absurd hstep h.not_quiet

/-- Quiet runs open no withdrawal request. -/
theorem QuietRun.closed {d : Address} {w : WithdrawId} (hrun : p.QuietRun cur b i o p')
    (h : (p.withdrawals d w).amount = 0) : (p'.withdrawals d w).amount = 0 := by
  refine hrun.preserves (fun p => (p.withdrawals d w).amount = 0) (fun p i o p' hp hstep => ?_) h
  cases hstep with
  | pay d' w' rewards =>
    change (Function.update p.withdrawals d' (Function.update (p.withdrawals d') w' .zero) d
      w).amount = 0
    by_cases hd : d = d'
    · subst hd
      by_cases hw : w = w'
      · simp [hw, WithdrawalRequest.zero]
      · simpa [hw] using hp
    · simpa [hd] using hp
  | _ => exact hp

/-- A fresh pool stays fresh in a quiet run. -/
theorem Fresh.quietRun (h : p.Fresh) (hrun : p.QuietRun cur b i o p') : p'.Fresh :=
  (h.quietRun_eq hrun).symm ▸ h

end Pool

/-- Take an amount out of the balance. -/
def Storage.payOut (s : Storage) (amount : ℕ) : Storage :=
  { s with balance := s.balance - amount }

/-- Paying out of the balance changes no pool. -/
@[simp] theorem pool_payOut (s : Storage) (v : ValId) (amount : ℕ) :
    (s.payOut amount).pool v = s.pool v := rfl

/-- Paying out of the balance touches no pool. -/
theorem Touches.payOut (s : Storage) (v : ValId) (amount : ℕ) :
    Touches v s (s.payOut amount) :=
  ⟨fun _ _ => rfl, rfl, rfl, rfl, rfl, fun _ => rfl, rfl⟩

/-- What a call on one validator does from a state already credited with its income: a run on the
pool of that validator whose accounting is that of the contract's balance. -/
structure PoolCall (v : ValId) (income i o : ℕ) (s s' : Storage) : Prop where
  touches : Touches v s s'
  balance_eq : s'.balance + o + income = s.balance + i
  income_le : i ≤ income + o
  run : s.InOrder v → (s.pool v).Run s.epoch s.inBoundary i o (s'.pool v)
  fresh : s.InOrder v → (s.validators v).authAddress = 0 → (s.pool v).Fresh → (s'.pool v).Fresh

section Handlers

variable {s : Storage} {msg : Message} {v : ValId} {answer : Answer}

/-- A call that changes no pool. -/
theorem SamePools.poolCall {s' : Storage} (h : SamePools s s') (v : ValId) :
    PoolCall v 0 0 0 s s' where
  touches := h.touches v
  balance_eq := congrArg (· + 0 + 0) h.balance_eq
  income_le := Nat.zero_le _
  run _ := (h.pool_eq v).symm ▸ .quiet .refl
  fresh _ _ hfresh := (h.pool_eq v).symm ▸ hfresh

/-- `handle_change_commission` changes no pool. -/
theorem handleChangeCommission_samePools {commission : ℕ}
    (h : handleChangeCommission s msg v commission = .ok answer) :
    SamePools s answer.storage := by
  simp only [handleChangeCommission, bind_eq_ok, pure_eq_ok] at h
  obtain ⟨-, -, -, -, -, -, -, -, rfl⟩ := h
  dsimp only
  split
  · exact .writeValidator s v _ rfl rfl rfl rfl
  · exact .refl s

/-- `handle_change_commission` is a call without steps. -/
theorem handleChangeCommission_spec {commission : ℕ}
    (h : handleChangeCommission s msg v commission = .ok answer) :
    PoolCall v 0 0 0 s answer.storage :=
  (handleChangeCommission_samePools h).poolCall v

/-- A settlement alone is a call on its validator. -/
theorem settled_poolCall {s s' : Storage} {v : ValId} {d : Address} {del : Delegator}
    (h : pullDelegatorUpToDate s v d = .ok (del, s')) : PoolCall v 0 0 0 s s' where
  touches := (pullDelegatorUpToDate_touches h).1
  balance_eq := congrArg (· + 0 + 0) (pullDelegatorUpToDate_touches h).2.1
  income_le := Nat.zero_le _
  run horder := .quiet (pullDelegatorUpToDate_spec horder.1 (horder.2 d) h).1
  fresh horder _ hfresh :=
    hfresh.quietRun (pullDelegatorUpToDate_spec horder.1 (horder.2 d) h).1

/-- `handle_get_delegator_write` settles one record. -/
theorem handleGetDelegatorWrite_spec {d : Address}
    (h : handleGetDelegatorWrite s msg v d = .ok answer) : PoolCall v 0 0 0 s answer.storage := by
  simp only [handleGetDelegatorWrite, bind_eq_ok, pure_eq_ok] at h
  obtain ⟨-, -, ⟨del, s₁⟩, hpull, rfl⟩ := h
  exact settled_poolCall hpull

/-- A transfer is paid out of the balance and touches nothing else. -/
theorem transfer_eq_ok {s' : Storage} {amount : ℕ} (h : transfer s msg amount = .ok s') :
    amount ≤ s.balance ∧ s' = s.payOut amount := by
  unfold transfer at h
  split at h
  next hzero =>
    cases h
    subst hzero
    exact ⟨Nat.zero_le _, rfl⟩
  next =>
    simp only [bind_eq_ok, failIf_eq_ok, pure_eq_ok, not_lt] at h
    obtain ⟨-, hle, -, -, rfl⟩ := h
    exact ⟨hle, rfl⟩

/-- Taking the credited rewards of a settled record is a step of its pool. -/
theorem takeRewards_quiet {d : Address} {del : Delegator} (hdel : s.delegators v d = del)
    (hrewards : del.rewards ≠ 0) :
    Touches v s (takeRewards s v d del) ∧ (takeRewards s v d del).balance = s.balance ∧
      (s.pool v).Quiet s.epoch s.inBoundary 0 del.rewards ((takeRewards s v d del).pool v) := by
  subst hdel
  refine ⟨(Touches.writeDelegator ..).trans (.record ..), rfl, ?_⟩
  have hstep : (s.pool v).Quiet s.epoch s.inBoundary 0 _ _ := .take d hrewards
  rw [takeRewards, pool_record, pool_writeDelegator]
  exact hstep

/-- `handle_claim_rewards` settles a record and pays its rewards out. -/
theorem handleClaimRewards_spec
    (h : handleClaimRewards s msg v = .ok answer) :
    ∃ o, PoolCall v 0 0 o s answer.storage := by
  simp only [handleClaimRewards, bind_eq_ok] at h
  obtain ⟨-, -, ⟨del, s₁⟩, hpull, h⟩ := h
  obtain ⟨htouches, hbalance, hdel⟩ := pullDelegatorUpToDate_touches hpull
  dsimp only at h
  split at h
  next =>
    cases h
    exact ⟨0, settled_poolCall hpull⟩
  next hrewards =>
    simp only [bind_eq_ok, pure_eq_ok] at h
    obtain ⟨s₂, htransfer, rfl⟩ := h
    obtain ⟨hle, rfl⟩ := transfer_eq_ok htransfer
    obtain ⟨htouches₂, -, hstep⟩ := takeRewards_quiet hdel hrewards
    rw [htouches.epoch_eq, htouches.inBoundary_eq] at hstep
    have hall (horder : s.InOrder v) := (pullDelegatorUpToDate_spec horder.1 (horder.2 msg.caller)
      hpull).1.trans (.single hstep)
    simp only [Nat.zero_add] at hall
    refine ⟨del.rewards, (htouches.trans htouches₂).trans (.payOut _ v del.rewards), ?_,
      Nat.zero_le _, fun horder => .quiet (hall horder),
      fun horder _ hfresh => hfresh.quietRun (hall horder)⟩
    change s₁.balance - del.rewards + del.rewards + 0 = s.balance + 0
    omega

/-- `handle_compound` settles a record and delegates its rewards. -/
theorem handleCompound_spec
    (h : handleCompound s msg v = .ok answer) :
    ∃ i o, PoolCall v 0 i o s answer.storage := by
  simp only [handleCompound, bind_eq_ok] at h
  obtain ⟨-, -, ⟨del, s₁⟩, hpull, h⟩ := h
  obtain ⟨htouches, hbalance, hdel⟩ := pullDelegatorUpToDate_touches hpull
  dsimp only at h
  split at h
  next =>
    cases h
    exact ⟨0, 0, settled_poolCall hpull⟩
  next hrewards =>
    simp only [bind_eq_ok, pure_eq_ok] at h
    obtain ⟨s₂, hdelegate, rfl⟩ := h
    obtain ⟨htouches₂, hbalance₂, hstep⟩ := takeRewards_quiet hdel hrewards
    rw [htouches.epoch_eq, htouches.inBoundary_eq] at hstep
    have htouches₁₂ := htouches.trans htouches₂
    obtain ⟨-, htouches₃, hbalance₃, hjoin⟩ := internalDelegate_spec hrewards hdelegate
    have hquiet (horder : s.InOrder v) := (pullDelegatorUpToDate_spec horder.1
      (horder.2 msg.caller) hpull).1
    refine ⟨del.rewards, del.rewards, htouches₁₂.trans htouches₃, ?_, by omega,
      fun horder => ?_, fun horder _ hfresh => ?_⟩
    · change s₂.balance + del.rewards + 0 = s.balance + del.rewards
      rw [hbalance₃, hbalance₂, hbalance, Nat.add_zero]
    · have htaken := (hquiet horder).trans (.single hstep)
      have hjoin := hjoin (horder.quiet htouches₁₂ htaken)
      rw [htouches₁₂.epoch_eq, htouches₁₂.inBoundary_eq] at hjoin
      have hall := htaken.append hjoin
      simpa only [Nat.zero_add, Nat.add_zero] using hall
    · exact absurd hstep (hfresh.quietRun (hquiet horder)).not_quiet

/-- `handle_external_reward` shares its value among the stake of the view. -/
theorem handleExternalReward_reward (h : handleExternalReward s msg v = .ok answer) :
    (s.validators v).Exists ∧ (s.pool v).view s.inBoundary ≠ 0 ∧ Touches v s answer.storage ∧
      answer.storage.balance = s.balance ∧
      answer.storage.pool v = (s.pool v).reward s.epoch s.inBoundary msg.callValue := by
  simp only [handleExternalReward, bind_eq_ok, failIf_eq_ok, checkedMulDiv_eq_ok,
    checkedAdd_eq_ok, pure_eq_ok] at h
  obtain ⟨-, -, -, hexists, -, hview, -, -, -, -, _, ⟨-, -, rfl⟩, _, ⟨-, rfl⟩, _, ⟨-, rfl⟩, rfl⟩ :=
    h
  refine ⟨not_not.mp hexists, hview, ((Touches.writeValidatorAcc ..).trans
    (.writeValidatorUnclaimedRewards ..)).trans (.record ..), rfl, ?_⟩
  simp only [pool_record, pool_writeValidatorUnclaimedRewards, pool_writeValidatorAcc]
  rfl

/-- `handle_external_reward` is a reward step. -/
theorem handleExternalReward_spec (h : handleExternalReward s msg v = .ok answer) :
    PoolCall v msg.callValue msg.callValue 0 s answer.storage := by
  obtain ⟨-, hview, htouches, hbalance, hpool⟩ := handleExternalReward_reward h
  have hstep : (s.pool v).Quiet s.epoch s.inBoundary msg.callValue 0 _ :=
    .reward msg.callValue hview
  rw [← hpool] at hstep
  exact ⟨htouches, congrArg (· + msg.callValue) hbalance, le_rfl,
    fun _ => .quiet (.single hstep), fun _ _ hfresh => absurd hstep hfresh.not_quiet⟩

/-- `handle_delegate` does nothing without value, and else joins. -/
theorem handleDelegate_spec
    (h : handleDelegate s msg v = .ok answer) :
    PoolCall v msg.callValue msg.callValue 0 s answer.storage := by
  simp only [handleDelegate, bind_eq_ok, failIf_eq_ok] at h
  obtain ⟨-, -, -, hexists, h⟩ := h
  split at h
  next hzero =>
    cases h
    rw [hzero]
    exact (SamePools.refl s).poolCall v
  next hvalue =>
    simp only [bind_eq_ok, failIf_eq_ok, pure_eq_ok] at h
    obtain ⟨-, -, s₁, hdelegate, rfl⟩ := h
    obtain ⟨-, htouches, hbalance, hrun⟩ := internalDelegate_spec hvalue hdelegate
    exact ⟨htouches, congrArg (· + msg.callValue) hbalance, le_rfl, hrun,
      fun _ hauth => absurd hauth (not_not.mp hexists)⟩

/-- What an undelegation takes: all of a stake of which only dust would be left. -/
def leaving (stake amount : ℕ) : ℕ :=
  if stake - amount ≠ 0 ∧ stake - amount < dustThreshold then stake else amount

/-- An undelegation takes something when something is asked for. -/
theorem leaving_ne_zero {stake amount : ℕ} (hamount : amount ≠ 0) : leaving stake amount ≠ 0 := by
  unfold leaving
  split <;> omega

/-- The writes of `handle_undelegate` after its checks make the pool leave. -/
theorem leave_spec {s s₁ s₂ : Storage} {v : ValId} {d : Address} {amount : ℕ} {del : Delegator}
    (w : WithdrawId) (hdel : s.delegators v d = del)
    (hsame₁ : SamePools (s.writeValidatorStake v ((s.validators v).stake - amount)) s₁)
    (hsame₂ : SamePools ((incrementAccumulatorRefcount (s₁.writeWithdrawalRequest v d w
      ⟨amount, del.accumulatedRewardPerToken, s₁.getActivationEpoch⟩) v).writeDelegator v d
        (del.removed amount)) s₂) :
    Touches v s s₂ ∧ s₂.balance = s.balance ∧
      (s₂.pool v).record (.undelegated d amount s₁.getActivationEpoch) =
        (s.pool v).leave (activationEpoch s.epoch s.inBoundary) d w amount := by
  subst hdel
  have hactivation : s₁.getActivationEpoch = activationEpoch s.epoch s.inBoundary := by
    unfold Storage.getActivationEpoch
    rw [hsame₁.epoch_eq, hsame₁.inBoundary_eq]
    rfl
  obtain ⟨hretain, htouches, hbalance⟩ := incrementAccumulatorRefcount_pool
    (s₁.writeWithdrawalRequest v d w
      ⟨amount, (s.delegators v d).accumulatedRewardPerToken, s₁.getActivationEpoch⟩) v
  refine ⟨?_, hsame₂.balance_eq.trans (hbalance.trans hsame₁.balance_eq), ?_⟩
  · exact (((((Touches.writeValidatorStake ..).trans (hsame₁.touches v)).trans
      (.writeWithdrawalRequest ..)).trans htouches).trans (.writeDelegator ..)).trans
        (hsame₂.touches v)
  · rw [hsame₂.pool_eq, pool_writeDelegator, hretain, pool_writeWithdrawalRequest,
      hsame₁.pool_eq, pool_writeValidatorStake]
    change (Pool.setDelegator (Pool.retain _ s₁.getActivationEpoch) d _).record _ = _
    rw [hactivation]
    rfl

/-- `handle_undelegate` of an amount checks the request's id, settles the record and leaves. -/
theorem handleUndelegate_leave {amount : ℕ} {w : WithdrawId} (hamount : amount ≠ 0)
    (h : handleUndelegate s msg v amount w = .ok answer) :
    (s.validators v).Exists ∧ (s.withdrawals v msg.caller w).amount = 0 ∧
      ∃ del s₁, pullDelegatorUpToDate s v msg.caller = .ok (del, s₁) ∧
        leaving del.stake amount ≤ del.stake ∧
        leaving del.stake amount ≤ (s₁.validators v).stake ∧
        Touches v s₁ answer.storage ∧ answer.storage.balance = s₁.balance ∧
        answer.storage.pool v = (s₁.pool v).leave (activationEpoch s₁.epoch s₁.inBoundary)
          msg.caller w (leaving del.stake amount) := by
  simp only [handleUndelegate, bind_eq_ok, if_neg hamount, failIf_eq_ok, not_not] at h
  obtain ⟨-, -, -, hexists, -, hfree, ⟨del, s₁⟩, hpull, h⟩ := h
  obtain ⟨htouches, hbalance, hdel⟩ := pullDelegatorUpToDate_touches hpull
  simp only [checkedSub_eq_ok, pure_eq_ok] at h
  obtain ⟨-, -, _, ⟨hle, rfl⟩, h⟩ := h
  have htaken : (if del.stake - amount ≠ 0 ∧ del.stake - amount < dustThreshold then
      del.stake else amount) = leaving del.stake amount := rfl
  simp only [htaken] at h
  obtain ⟨_, ⟨hleaving, rfl⟩, _, ⟨hpool, rfl⟩, rfl⟩ := h
  have hflags := updateFlagsAfterUndelegate_samePools
    (s₁.writeValidatorStake v ((s₁.validators v).stake - leaving del.stake amount)) v
    { s₁.validators v with stake := (s₁.validators v).stake - leaving del.stake amount }
    (del.removed (leaving del.stake amount)) msg.caller (by simp [Storage.writeValidatorStake,
      Storage.writeValidator])
  obtain ⟨htouches₂, hbalance₂, hleave⟩ := leave_spec w hdel hflags
    (linkedListRemoveIf_samePools _ v msg.caller (del.removed (leaving del.stake amount)))
  refine ⟨hexists, hfree, del, s₁, hpull, hleaving, hpool, htouches₂.trans (.record ..),
    hbalance₂, ?_⟩
  rw [pool_record]
  exact hleave

/-- `handle_undelegate` does nothing without an amount, and else settles and leaves. -/
theorem handleUndelegate_spec {amount : ℕ} {w : WithdrawId}
    (h : handleUndelegate s msg v amount w = .ok answer) : PoolCall v 0 0 0 s answer.storage := by
  by_cases hamount : amount = 0
  · simp only [handleUndelegate, bind_eq_ok, if_pos hamount] at h
    obtain ⟨-, -, h⟩ := h
    cases h
    exact (SamePools.refl s).poolCall v
  · obtain ⟨hexists, hfree, del, s₁, hpull, hle, hpool, htouches₂, hbalance₂, hleave⟩ :=
      handleUndelegate_leave hamount h
    obtain ⟨htouches, hbalance, hdel⟩ := pullDelegatorUpToDate_touches hpull
    refine ⟨htouches.trans htouches₂, ?_, Nat.zero_le _, fun horder => ?_, ?_⟩
    · exact congrArg (· + 0 + 0) (hbalance₂.trans hbalance)
    · have hrun := (pullDelegatorUpToDate_spec horder.1 (horder.2 msg.caller) hpull).1
      have hstep : (s₁.pool v).Enter s.epoch s.inBoundary 0 (answer.storage.pool v) := by
        rw [hleave, htouches.epoch_eq, htouches.inBoundary_eq]
        subst hdel
        exact .leave msg.caller w _ (leaving_ne_zero hamount) hle hpool (hrun.closed hfree)
      have hall := Pool.Run.enter hrun hstep
      rwa [Nat.zero_add] at hall
    · exact fun _ hauth => absurd hauth hexists

/-- The payment of a ready request out of the pool. -/
def Pool.withdrawn (p : Pool) (d : Address) (w : WithdrawId) : Pool :=
  p.pay d w (rewardShare (p.withdrawals d w).amount (p.entryValue (p.withdrawals d w).epoch)
    (p.withdrawals d w).accumulator)

/-- `handle_withdraw` checks that the request is open and ready and pays it out. -/
theorem handleWithdraw_pay {w : WithdrawId} (h : handleWithdraw s msg v w = .ok answer) :
    let request := s.withdrawals v msg.caller w
    let rewards := rewardShare request.amount ((s.pool v).entryValue request.epoch)
      request.accumulator
    request.amount ≠ 0 ∧ request.epoch ≠ 0 ∧ request.epoch ≤ s.epoch ∧
      u64Add request.epoch withdrawalDelay ≤ s.epoch ∧
      request.accumulator ≤ (s.pool v).entryValue request.epoch ∧
      rewards ≤ (s.pool v).unclaimed ∧ Touches v s answer.storage ∧
      answer.storage.balance + (request.amount + rewards) = s.balance ∧
      answer.storage.pool v = (s.pool v).withdrawn msg.caller w := by
  simp only [handleWithdraw, bind_eq_ok, failIf_eq_ok, calculateRewards_eq_ok, checkedSub_eq_ok,
    checkedAdd_eq_ok, pure_eq_ok, not_or, not_not, not_lt, gt_iff_lt, isEpochActive_iff] at h
  obtain ⟨-, -, -, hamount, -, ⟨⟨hepoch, hactive⟩, hdelay⟩, rewards, ⟨hacc, -, hrewards⟩, -,
    hsolvent, _, ⟨-, rfl⟩, _, ⟨-, rfl⟩, s₂, htransfer, rfl⟩ := h
  obtain ⟨hle, rfl⟩ := transfer_eq_ok htransfer
  obtain ⟨hvalue, hrelease, htouches, hbalance, hvalidators⟩ :=
    decrement_pool s (s.withdrawals v msg.caller w).epoch v
  generalize decrementAccumulatorRefcount s (s.withdrawals v msg.caller w).epoch v = dropped at *
  rw [hvalue] at hacc hrewards
  rw [hvalidators] at hsolvent hle ⊢
  subst hrewards
  refine ⟨hamount, hepoch, hactive, hdelay, hacc, hsolvent,
    (((htouches.trans (.writeValidatorUnclaimedRewards ..)).trans (.payOut _ v _)).trans
      (.writeWithdrawalRequest ..)).trans (.record ..), ?_, ?_⟩
  · change _ ≤ dropped.2.balance at hle
    rw [hbalance] at hle
    change dropped.2.balance - _ + _ = _
    rw [hbalance]
    exact Nat.sub_add_cancel hle
  · simp only [pool_record, pool_writeWithdrawalRequest, pool_payOut,
      pool_writeValidatorUnclaimedRewards, hrelease]
    rfl

/-- `handle_withdraw` is a paying step. -/
theorem handleWithdraw_spec {w : WithdrawId}
    (h : handleWithdraw s msg v w = .ok answer) : ∃ o, PoolCall v 0 0 o s answer.storage := by
  obtain ⟨hamount, hepoch, hactive, hdelay, hacc, hsolvent, htouches, hbalance, hpay⟩ :=
    handleWithdraw_pay h
  have hready (hcur : s.epoch + 1 < 2 ^ 64) : (s.withdrawals v msg.caller w).epoch < s.epoch := by
    have hsucc : u64Add (s.withdrawals v msg.caller w).epoch withdrawalDelay =
        (s.withdrawals v msg.caller w).epoch + 1 := u64Add_one (by omega)
    omega
  have hstep (hcur : s.epoch + 1 < 2 ^ 64) : (s.pool v).Quiet s.epoch s.inBoundary 0 _
      ((s.pool v).withdrawn msg.caller w) :=
    .pay msg.caller w _ hamount hepoch (hready hcur) hacc rfl hsolvent
  refine ⟨(s.withdrawals v msg.caller w).amount + rewardShare (s.withdrawals v msg.caller w).amount
      ((s.pool v).entryValue (s.withdrawals v msg.caller w).epoch)
        (s.withdrawals v msg.caller w).accumulator,
    ⟨htouches, congrArg (· + 0) hbalance, Nat.zero_le _, fun horder => ?_, fun horder _ hfresh =>
      absurd (hstep horder.1) hfresh.not_quiet⟩⟩
  rw [hpay]
  exact .quiet (.single (hstep horder.1))

/-- The accumulator step of a reward on the pool: without a delegators' share it adds nothing. -/
theorem applyRewardAcc_spec {s s' : Storage} {acc delReward activeStake : ℕ}
    (hacc : acc = (s.validators v).accumulatedRewardPerToken) (hactive : activeStake ≠ 0)
    (h : applyRewardAcc s v acc delReward activeStake = .ok s') :
    Touches v s s' ∧ s'.balance = s.balance ∧
      s'.pool v = { s.pool v with acc := (s.pool v).acc + delReward * unitBias / activeStake } := by
  subst hacc
  unfold applyRewardAcc at h
  split at h
  next =>
    simp only [bind_eq_ok, checkedMulDiv_eq_ok, checkedAdd_eq_ok, pure_eq_ok] at h
    obtain ⟨_, ⟨-, -, rfl⟩, _, ⟨-, rfl⟩, rfl⟩ := h
    exact ⟨.writeValidatorAcc .., rfl, pool_writeValidatorAcc ..⟩
  next hzero =>
    cases h
    have hshare : delReward = 0 := by
      by_contra hne
      exact hzero ⟨hne, hactive⟩
    refine ⟨.refl v s, rfl, ?_⟩
    rw [hshare, Nat.zero_mul, Nat.zero_div]
    rfl

/-- `handle_syscall_reward` credits the commission, then shares the rest among the stake of the
view. -/
theorem handleSyscallReward_reward {blockAuthor : Address} {blockReward : ℕ}
    (h : handleSyscallReward s msg blockAuthor blockReward = .ok answer) :
    let valId := s.valIdSecp blockAuthor
    let commission := blockReward * s.viewCommission valId / mon
    valId ≠ 0 ∧ (s.pool valId).view s.inBoundary ≠ 0 ∧ commission ≤ blockReward ∧
      Touches valId s answer.storage ∧ answer.storage.balance = s.balance ∧
      answer.storage.pool valId =
        ((s.pool valId).credit (s.validators valId).authAddress commission).reward s.epoch
          s.inBoundary (blockReward - commission) := by
  simp only [handleSyscallReward, bind_eq_ok, failIf_eq_ok, checkedMulDiv_eq_ok, checkedSub_eq_ok,
    checkedAdd_eq_ok, pure_eq_ok] at h
  obtain ⟨-, -, -, -, -, hv, -, hview, _, ⟨-, -, rfl⟩, _, ⟨hle, rfl⟩, _, ⟨-, rfl⟩, _, ⟨-, rfl⟩, s₁,
    hacc, rfl⟩ := h
  generalize s.valIdSecp blockAuthor = v at *
  obtain ⟨htouches, hbalance, hpool⟩ := applyRewardAcc_spec
    (by simp [Storage.writeValidatorUnclaimedRewards, Storage.writeValidator, Storage.record,
      Storage.writeDelegator]) hview hacc
  refine ⟨hv, hview, hle, ?_, hbalance, ?_⟩
  · exact (((((Touches.writeDelegator ..).trans (.record ..)).trans
      (.writeValidatorUnclaimedRewards ..)).trans htouches).trans
        ((SamePools.proposerValId ..).touches v)).trans (.record ..)
  · have hepoch : s₁.epoch = s.epoch := htouches.epoch_eq
    rw [pool_record, (SamePools.proposerValId ..).pool_eq, hpool]
    simp only [hepoch, pool_writeValidatorUnclaimedRewards, pool_record, pool_writeDelegator]
    rfl

/-- `handle_syscall_reward` is a commission step and a reward step. -/
theorem handleSyscallReward_spec {blockAuthor : Address} {blockReward : ℕ}
    (h : handleSyscallReward s msg blockAuthor blockReward = .ok answer) :
    PoolCall (s.valIdSecp blockAuthor) blockReward blockReward 0 s answer.storage := by
  obtain ⟨-, hview, hle, htouches, hbalance, hpool⟩ := handleSyscallReward_reward h
  generalize s.valIdSecp blockAuthor = v at *
  generalize blockReward * s.viewCommission v / mon = commission at *
  have hcommission : (s.pool v).Quiet s.epoch s.inBoundary commission 0 _ :=
    .commission (s.validators v).authAddress commission hview
  have hrun := (Pool.QuietRun.single hcommission).trans
    (.single (.reward (blockReward - commission) hview))
  rw [← hpool, Nat.add_sub_cancel' hle] at hrun
  exact ⟨htouches, congrArg (· + blockReward) hbalance, le_rfl, fun _ => .quiet hrun,
    fun _ _ hfresh => absurd hcommission hfresh.not_quiet⟩

/-- Ids above the last one are fresh, and the last one is not reserved. -/
structure Registered (s : Storage) : Prop where
  lastValId_ne : s.lastValId ≠ sentinelValId
  authAddress_eq : ∀ v, s.lastValId < v → (s.validators v).authAddress = 0
  fresh : ∀ v, s.lastValId < v → (s.pool v).Fresh

/-- Calls on one validator keep the ids registered. -/
theorem PoolCall.registered {income i o : ℕ} {s' : Storage} (h : PoolCall v income i o s s')
    (horder : s.InOrder v) (hs : Registered s) : Registered s' where
  lastValId_ne := h.touches.lastValId_eq ▸ hs.lastValId_ne
  authAddress_eq v' hv := by
    rw [h.touches.lastValId_eq] at hv
    rw [h.touches.authAddress_eq]
    exact hs.authAddress_eq v' hv
  fresh v' hv := by
    rw [h.touches.lastValId_eq] at hv
    by_cases hne : v' = v
    · subst hne
      exact h.fresh horder (hs.authAddress_eq v' hv) (hs.fresh v' hv)
    · rw [h.touches.pool_of_ne v' hne]
      exact hs.fresh v' hv

/-- A new validator has the next id and changes no pool. -/
theorem createValidator_spec {s' : Storage} {secpPubkey blsPubkey : Bytes}
    {authAddress : Address} {commission : ℕ} (hs : Registered s)
    (h : createValidator s secpPubkey blsPubkey authAddress commission = .ok (v, s')) :
    v.val = s.lastValId.val + 1 ∧ s'.lastValId = v ∧ (∀ v', s'.pool v' = s.pool v') ∧
      (∀ v', v' ≠ v → (s'.validators v').authAddress = (s.validators v').authAddress) ∧
      s'.epoch = s.epoch ∧ s'.inBoundary = s.inBoundary ∧ s'.received = s.received ∧
      s'.balance = s.balance := by
  simp only [createValidator, bind_eq_ok, pure_eq_ok, Prod.mk.injEq] at h
  obtain ⟨-, -, -, -, rfl, rfl⟩ := h
  have hbound : s.lastValId.val + 1 < 2 ^ 64 := by
    have hlt := s.lastValId.isLt
    have hne : s.lastValId.val ≠ 2 ^ 64 - 1 := fun heq => hs.lastValId_ne (Fin.ext heq)
    omega
  have hval : (s.lastValId + 1).val = s.lastValId.val + 1 := by
    rw [Fin.val_add]
    exact Nat.mod_eq_of_lt hbound
  refine ⟨hval, rfl, fun v' => ?_, fun v' hv => ?_, rfl, rfl, rfl, rfl⟩
  · by_cases hv : v' = s.lastValId + 1
    · have hfresh := hs.fresh v' (by rw [hv, Fin.lt_def]; omega)
      have hstake : (s.validators v').stake = 0 := hfresh.stake_eq
      have hacc : (s.validators v').accumulatedRewardPerToken = 0 := hfresh.acc_eq
      have hunclaimed : (s.validators v').unclaimedRewards = 0 := hfresh.unclaimed_eq
      subst hv
      simp [Storage.pool, Storage.writeValidator, hstake, hacc, hunclaimed]
    · simp [Storage.pool, Storage.writeValidator, hv]
  · simp [Storage.writeValidator, hv]

end Handlers

end SuwappuRevm.Staking
