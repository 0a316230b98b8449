import SuwappuRevm.Staking.Views

/-!
# Epoch boundaries

The block processor ends an epoch with two system calls, a snapshot and an epoch change, each of
which reverts on its own. The epoch change accepts every later epoch, and epochs are added to
unchecked: the sums stay in range as long as the last two epoch numbers are not reached.
-/

namespace SuwappuRevm.Staking

open Foundations

section Boundary

/-- The system address is not the contract's. -/
theorem systemAddress_ne : systemAddress ≠ stakingAddress := by decide

/-- What `system_call_one_with_caller` sends: no value, and the gas of a system call. -/
def systemCallMessage (gasLimit : ℕ) : Message := ⟨systemAddress, gasLimit, 0, 0, systemAddress_ne⟩

/-- The status of an `ExecutionResult`. -/
inductive ExecutionResult
  | success
  | revert
  deriving DecidableEq

/-- `system_call_one_with_caller` to the precompile. A revert leaves storage alone and is a result
like any other. -/
def systemCall (gasLimit : ℕ) (s : Storage) (call : StakingCall) : ExecutionResult × Storage :=
  match stakingStep s (systemCallMessage gasLimit, call) with
  | .ok s' => (.success, s')
  | .error _ => (.revert, s)

/-- `apply_syscall_snapshot`. -/
def applySyscallSnapshot (gasLimit : ℕ) (s : Storage) : ExecutionResult × Storage :=
  systemCall gasLimit s .syscallSnapshot

/-- `apply_syscall_on_epoch_change`. -/
def applySyscallOnEpochChange (gasLimit : ℕ) (s : Storage) (newEpoch : Fin (2 ^ 64)) :
    ExecutionResult × Storage :=
  systemCall gasLimit s (.syscallOnEpochChange newEpoch)

/-- `apply_epoch_boundary`: the second call is made whatever the first one has returned. -/
def applyEpochBoundary (gasLimit : ℕ) (s : Storage) (newEpoch : Fin (2 ^ 64)) :
    (ExecutionResult × ExecutionResult) × Storage :=
  let (snapshotResult, s) := applySyscallSnapshot gasLimit s
  let (epochChangeResult, s) := applySyscallOnEpochChange gasLimit s newEpoch
  ((snapshotResult, epochChangeResult), s)

variable {s : Storage} {gasLimit : ℕ}

/-- Outside the boundary the snapshot is taken. -/
theorem applySyscallSnapshot_eq (hgas : gas.syscallSnapshot ≤ gasLimit)
    (hboundary : s.inBoundary = false) :
    applySyscallSnapshot gasLimit s = (.success, takeSnapshot s) := by
  have hrun : runStakingWrite s (systemCallMessage gasLimit) .syscallSnapshot =
      .ok ⟨takeSnapshot s, gas.syscallSnapshot, .none⟩ := by
    have hlimit : ¬(systemCallMessage gasLimit).gasLimit < gas.syscallSnapshot := not_lt.mpr hgas
    have hcaller : ¬(systemCallMessage gasLimit).caller ≠ systemAddress := not_not.mpr rfl
    have hvalue : ¬(systemCallMessage gasLimit).callValue ≠ 0 := not_not.mpr rfl
    have houtside : ¬s.inBoundary = true := by rw [hboundary]; decide
    rw [runStakingWrite, notPayable, failIf_of_not hvalue, ok_bind, handleSyscallSnapshot,
      failIf_of_not hlimit, ok_bind, failIf_of_not hcaller, ok_bind, failIf_of_not houtside,
      ok_bind]
    rfl
  have hstep : stakingStep s (systemCallMessage gasLimit, .syscallSnapshot) =
      .ok (takeSnapshot s) := by
    have hcredit : s.credit (income (systemCallMessage gasLimit) .syscallSnapshot) = s := rfl
    rw [stakingStep, hcredit, hrun, ok_bind]
    rfl
  rw [applySyscallSnapshot, systemCall, hstep]

/-- A later epoch is accepted, any other reverts. -/
theorem applySyscallOnEpochChange_eq (hgas : gas.syscallOnEpochChange ≤ gasLimit)
    (newEpoch : Fin (2 ^ 64)) : applySyscallOnEpochChange gasLimit s newEpoch =
      if s.epoch < newEpoch then (.success, changeEpoch s newEpoch) else (.revert, s) := by
  have hcredit : s.credit (income (systemCallMessage gasLimit) (.syscallOnEpochChange newEpoch)) =
    s := rfl
  have hrun : runStakingWrite s (systemCallMessage gasLimit) (.syscallOnEpochChange newEpoch) =
      if s.epoch < newEpoch then
        .ok ⟨changeEpoch s newEpoch, gas.syscallOnEpochChange, .none⟩
      else .error (.other "invalid epoch change") := by
    have hlimit : ¬(systemCallMessage gasLimit).gasLimit < gas.syscallOnEpochChange :=
      not_lt.mpr hgas
    have hcaller : ¬(systemCallMessage gasLimit).caller ≠ systemAddress := not_not.mpr rfl
    have hvalue : ¬(systemCallMessage gasLimit).callValue ≠ 0 := not_not.mpr rfl
    rw [runStakingWrite, notPayable, failIf_of_not hvalue, ok_bind, handleSyscallOnEpochChange,
      failIf_of_not hlimit, ok_bind, failIf_of_not hcaller, ok_bind]
    split
    next hlt =>
      rw [failIf_of_not (not_le.mpr hlt), ok_bind]
      rfl
    next hge =>
      rw [failIf_of (not_lt.mp hge), error_bind]
  rw [applySyscallOnEpochChange, systemCall, stakingStep, hcredit, hrun]
  by_cases hlt : s.epoch < newEpoch
  · rw [if_pos hlt, if_pos hlt]
    rfl
  · rw [if_neg hlt, if_neg hlt]
    rfl

/-- Outside the boundary the transition always takes the snapshot, and changes the epoch if the new
one is later. -/
theorem applyEpochBoundary_eq (hgas : gas.syscallSnapshot ≤ gasLimit)
    (hboundary : s.inBoundary = false) (newEpoch : Fin (2 ^ 64)) :
    applyEpochBoundary gasLimit s newEpoch =
      if s.epoch < newEpoch then
        ((.success, .success), changeEpoch (takeSnapshot s) newEpoch)
      else ((.success, .revert), takeSnapshot s) := by
  have hgas' : gas.syscallOnEpochChange ≤ gasLimit := le_trans (by decide) hgas
  have hepoch : (takeSnapshot s).epoch = s.epoch := (takeSnapshot_sameLedger s).epoch_eq
  rw [applyEpochBoundary, applySyscallSnapshot_eq hgas hboundary]
  dsimp only
  rw [applySyscallOnEpochChange_eq hgas', hepoch]
  split
  · rfl
  · rfl

/-- Both halves of the transition are done. -/
def BoundaryDone (s : Storage) (newEpoch : Fin (2 ^ 64)) (s' : Storage) : Prop :=
  s' = changeEpoch (takeSnapshot s) newEpoch

/-- A snapshot alone is half of the transition: the boundary flag is set. -/
theorem takeSnapshot_half_done (hboundary : s.inBoundary = false) (newEpoch : Fin (2 ^ 64)) :
    ¬(BoundaryDone s newEpoch (takeSnapshot s) ∨ takeSnapshot s = s) := by
  have hinside : (takeSnapshot s).inBoundary = true := (takeSnapshot_sameLedger s).inBoundary_eq
  rintro (hdone | hsame)
  · have hflag := congrArg Storage.inBoundary hdone
    rw [hinside] at hflag
    cases hflag
  · have hflag := congrArg Storage.inBoundary hsame
    rw [hinside, hboundary] at hflag
    cases hflag

/-- The transition is all or nothing exactly when the new epoch is later. Otherwise the sets are
rebuilt and the boundary flag is set, and the epoch is still the old one. -/
theorem applyEpochBoundary_atomic_iff (hgas : gas.syscallSnapshot ≤ gasLimit)
    (hboundary : s.inBoundary = false) (newEpoch : Fin (2 ^ 64)) :
    (BoundaryDone s newEpoch (applyEpochBoundary gasLimit s newEpoch).2 ∨
      (applyEpochBoundary gasLimit s newEpoch).2 = s) ↔ s.epoch < newEpoch := by
  rw [applyEpochBoundary_eq hgas hboundary]
  constructor
  · intro hatomic
    by_contra hge
    rw [if_neg hge] at hatomic
    exact takeSnapshot_half_done hboundary newEpoch hatomic
  · intro hlt
    rw [if_pos hlt]
    exact .inl rfl

/-- In an epoch of the opening calls the transition succeeds to the next epoch. -/
theorem applyEpochBoundary_atomic_opening :
    BoundaryDone (runAt openingCalls 5) 2 (applyEpochBoundary 30000000 (runAt openingCalls 5) 2).2 ∨
      (applyEpochBoundary 30000000 (runAt openingCalls 5) 2).2 = runAt openingCalls 5 :=
  (applyEpochBoundary_atomic_iff (by decide) (by decide +kernel) 2).mpr (by decide +kernel)

/-- Outside the boundary in epoch `1`, the transition to epoch `1` does half of it. -/
theorem applyEpochBoundary_half_done : ∃ s, Reachable stakingStep (fun _ _ _ => True) .empty s ∧
    s.inBoundary = false ∧ s.epoch = 1 ∧
    (applyEpochBoundary 30000000 s 1).1 = (.success, .revert) ∧
    (applyEpochBoundary 30000000 s 1).2.inBoundary = true ∧
    (applyEpochBoundary 30000000 s 1).2.epoch = 1 ∧
    ¬(BoundaryDone s 1 (applyEpochBoundary 30000000 s 1).2 ∨
      (applyEpochBoundary 30000000 s 1).2 = s) := by
  have hboundary : (runAt openingCalls 5).inBoundary = false := by decide +kernel
  have hepoch : (runAt openingCalls 5).epoch = 1 := by decide +kernel
  refine ⟨runAt openingCalls 5, stateAt_reachable stakingStep .empty openingCalls 5, hboundary,
    hepoch, ?_⟩
  generalize runAt openingCalls 5 = s at *
  have hgas : gas.syscallSnapshot ≤ 30000000 := by decide
  have hnot : ¬s.epoch < (1 : Fin (2 ^ 64)) := by
    rw [hepoch]
    decide
  have hinside : (takeSnapshot s).inBoundary = true := (takeSnapshot_sameLedger s).inBoundary_eq
  have hsame : (takeSnapshot s).epoch = s.epoch := (takeSnapshot_sameLedger s).epoch_eq
  rw [applyEpochBoundary_eq hgas hboundary, if_neg hnot]
  exact ⟨rfl, hinside, hsame.trans hepoch, takeSnapshot_half_done hboundary 1⟩

end Boundary

section Sums

/-- The unchecked additions on epochs that a call makes, by their operands. -/
inductive EpochSum (s : Storage) : Message × StakingCall → ℕ → ℕ → Prop
  | settlement (tx : Message × StakingCall) : EpochSum s tx s.epoch 1
  | activation (tx : Message × StakingCall) : EpochSum s tx s.epoch (if s.inBoundary then 2 else 1)
  | withdrawal (msg : Message) (v : ValId) (w : WithdrawId)
      (hactive : isEpochActive s.epoch (s.withdrawals v msg.caller w).epoch = true) :
      EpochSum s (msg, .withdraw v w) (s.withdrawals v msg.caller w).epoch withdrawalDelay
  | epochChange (msg : Message) (next : Fin (2 ^ 64)) (hlt : s.epoch < next) :
      EpochSum s (msg, .syscallOnEpochChange next) next 1

/-- A call that neither changes to the last epoch nor takes a snapshot in the one before. -/
def fitsEpochs (s : Storage) : StakingCall → Bool
  | .syscallOnEpochChange next => next.val != 2 ^ 64 - 1
  | .syscallSnapshot => s.epoch != 2 ^ 64 - 2
  | _ => true

/-- The events that hand out an activation epoch. -/
def PoolEvent.Activates : PoolEvent → Prop
  | .delegated _ _ _ => True
  | .undelegated _ _ _ => True
  | _ => False

namespace Pool

variable {cur : ℕ} {b : Bool} {p p' : Pool} {i o : ℕ}

/-- A quiet step hands out no activation epoch. -/
theorem Quiet.events (h : p.Quiet cur b i o p') :
    ∃ events, p'.history = events ++ p.history ∧ ∀ e ∈ events, ¬e.Activates := by
  have hone {e : PoolEvent} (he : ¬e.Activates) : ∀ e' ∈ [e], ¬e'.Activates := by
    intro e' hmem
    rw [List.mem_singleton.mp hmem]
    exact he
  cases h with
  | promote d => exact ⟨[], rfl, fun e he => absurd he List.not_mem_nil⟩
  | compound d rewards => exact ⟨[.settled d rewards], rfl, hone id⟩
  | accrue d rewards => exact ⟨[.settled d rewards], rfl, hone id⟩
  | take d => exact ⟨[.claimed d _], rfl, hone id⟩
  | pay d w rewards => exact ⟨[.withdrawn d _ rewards], rfl, hone id⟩
  | commission d => exact ⟨[.commission d i], rfl, hone id⟩
  | reward => exact ⟨[.rewarded cur i _], rfl, hone id⟩

/-- A quiet run hands out no activation epoch. -/
theorem QuietRun.events (h : p.QuietRun cur b i o p') :
    ∃ events, p'.history = events ++ p.history ∧ ∀ e ∈ events, ¬e.Activates := by
  induction h with
  | refl => exact ⟨[], rfl, fun e he => absurd he List.not_mem_nil⟩
  | step _ hstep ih =>
    obtain ⟨events, hevents, hnone⟩ := ih
    obtain ⟨events', hevents', hnone'⟩ := hstep.events
    refine ⟨events' ++ events, by rw [hevents', hevents, List.append_assoc], fun e he => ?_⟩
    rcases List.mem_append.mp he with hmem | hmem
    · exact hnone' e hmem
    · exact hnone e hmem

/-- The activation epochs that a call has handed out, with the records that hold them. -/
structure Activated (k : ℕ) (b : Bool) (events : List PoolEvent) (p' : Pool) : Prop where
  delegated : ∀ d amount k', .delegated d amount k' ∈ events →
    k' = k ∧ (p'.delegators d).trackEpoch b = k
  undelegated : ∀ d amount k', .undelegated d amount k' ∈ events →
    k' = k ∧ ∃ w, (p'.withdrawals d w).amount = amount ∧ (p'.withdrawals d w).epoch = k

/-- Other events hand out none. -/
theorem Activated.none {k : ℕ} {events : List PoolEvent} (h : ∀ e ∈ events, ¬e.Activates) :
    Activated k b events p' :=
  ⟨fun _ _ _ hmem => absurd trivial (h _ hmem), fun _ _ _ hmem => absurd trivial (h _ hmem)⟩

/-- What a call on one pool hands out is its activation epoch, and it is written. -/
theorem Run.activated (h : p.Run cur b i o p') :
    ∃ events, p'.history = events ++ p.history ∧ Activated (activationEpoch cur b) b events p' := by
  cases h with
  | quiet hrun =>
    obtain ⟨events, hevents, hnone⟩ := hrun.events
    exact ⟨events, hevents, .none hnone⟩
  | @enter _ _ i' q _ hrun hstep =>
    obtain ⟨events, hevents, hnone⟩ := hrun.events
    cases hstep with
    | join d =>
      refine ⟨.delegated d i' (activationEpoch cur b) :: events,
        congrArg (List.cons _) hevents, fun d' amount' k' hmem => ?_, fun d' amount' k' hmem => ?_⟩
      · rcases List.mem_cons.mp hmem with heq | hmem
        · cases heq
          refine ⟨rfl, ?_⟩
          change Delegator.trackEpoch (Function.update q.delegators d _ d) b = _
          rw [Function.update_self]
          cases b <;> rfl
        · exact absurd trivial (hnone _ hmem)
      · rcases List.mem_cons.mp hmem with heq | hmem
        · cases heq
        · exact absurd trivial (hnone _ hmem)
    | leave d w amount =>
      refine ⟨.undelegated d amount (activationEpoch cur b) :: events,
        congrArg (List.cons _) hevents, fun d' amount' k' hmem => ?_, fun d' amount' k' hmem => ?_⟩
      · rcases List.mem_cons.mp hmem with heq | hmem
        · cases heq
        · exact absurd trivial (hnone _ hmem)
      · rcases List.mem_cons.mp hmem with heq | hmem
        · cases heq
          have hrequest : ((q.leave (activationEpoch cur b) d w amount).withdrawals d w) =
              ⟨amount, (q.delegators d).accumulatedRewardPerToken, activationEpoch cur b⟩ :=
            (congrFun (Function.update_self ..) w).trans (Function.update_self ..)
          exact ⟨rfl, w, by rw [hrequest], by rw [hrequest]⟩
        · exact absurd trivial (hnone _ hmem)

/-- What a call hands out on each pool is its activation epoch, and it is written. -/
theorem Evolves.activated {cur' : ℕ} {b' : Bool} (h : p.Evolves cur b cur' b' p') :
    ∃ events, p'.history = events ++ p.history ∧ Activated (activationEpoch cur b) b events p' := by
  have hnothing (q : Pool) (hq : q.history = p.history) : ∃ events,
      q.history = events ++ p.history ∧ Activated (activationEpoch cur b) b events q :=
    ⟨[], hq, .none fun e he => absurd he List.not_mem_nil⟩
  cases h with
  | idle => exact hnothing p rfl
  | run hrun => exact hrun.activated
  | snapshot hboundary hsnap => exact hnothing p' hsnap.history_eq
  | refresh => exact hnothing _ rfl
  | skip => exact hnothing p rfl

end Pool

variable {s : Storage}

/-- One more epoch fits, and in the boundary two more. -/
structure RoomForEpochs (s : Storage) : Prop where
  outside : s.epoch + 1 < 2 ^ 64
  inside : s.inBoundary = true → s.epoch + 2 < 2 ^ 64

/-- A call that fits leaves room for epochs. -/
theorem stakingStep_room {tx : Message × StakingCall} {s' : Storage} (hs : RoomForEpochs s)
    (htx : fitsEpochs s tx.2 = true) (h : stakingStep s tx = .ok s') : RoomForEpochs s' := by
  cases stakingStep_viewStep h with
  | same hcall hsame =>
    constructor
    · rw [hsame.epoch_eq]
      exact hs.outside
    · rw [hsame.epoch_eq, hsame.inBoundary_eq]
      exact hs.inside
  | snapshot hcall hboundary htake =>
    have hepoch : s'.epoch = s.epoch := by rw [htake, (takeSnapshot_sameLedger s).epoch_eq]
    have hne : s.epoch ≠ 2 ^ 64 - 2 := by
      rw [hcall] at htx
      exact bne_iff_ne.mp htx
    have houtside := hs.outside
    exact ⟨by omega, fun _ => by omega⟩
  | epochChange next hcall hlt hchange =>
    have hepoch : s'.epoch = next := by rw [hchange]; rfl
    have hboundary : s'.inBoundary = false := by rw [hchange]; rfl
    have hne : next.val ≠ 2 ^ 64 - 1 := by
      rw [hcall] at htx
      exact bne_iff_ne.mp htx
    have hbound := next.isLt
    refine ⟨by omega, fun hinside => ?_⟩
    rw [hboundary] at hinside
    cases hinside

/-- With room for epochs the activation epoch is later than the current one. -/
theorem RoomForEpochs.lt_activationEpoch (hs : RoomForEpochs s) :
    s.epoch < activationEpoch s.epoch s.inBoundary := by
  have houtside := hs.outside
  have hinside := hs.inside
  unfold activationEpoch u64Add
  split
  next hboundary =>
    rw [Nat.mod_eq_of_lt (hinside hboundary)]
    omega
  next =>
    rw [Nat.mod_eq_of_lt houtside]
    omega

/-- Epoch arithmetic does not wrap. In a run that neither changes to the last epoch nor takes a
snapshot in the one before, every sum of epochs that a call makes is in range, and every activation
epoch that a call hands out, to a track or a withdrawal request, is later than the current one and
not `0`. -/
theorem epoch_sums_fit (h : Reachable stakingStep (fun s tx _ => fitsEpochs s tx.2) .empty s)
    {tx : Message × StakingCall} (htx : fitsEpochs s tx.2 = true) :
    (∀ a b, EpochSum s tx a b → a + b < 2 ^ 64) ∧
    ∀ s', stakingStep s tx = .ok s' → ∀ v, ∃ events, s'.history v = events ++ s.history v ∧
      (∀ d amount k, .delegated d amount k ∈ events → s.epoch < k ∧ k ≠ 0 ∧
        (s'.delegators v d).trackEpoch s.inBoundary = k) ∧
      ∀ d amount k, .undelegated d amount k ∈ events → s.epoch < k ∧ k ≠ 0 ∧
        ∃ w, (s'.withdrawals v d w).amount = amount ∧ (s'.withdrawals v d w).epoch = k := by
  have hroom : RoomForEpochs s := by
    refine h.invariant RoomForEpochs ⟨by decide, fun _ => by decide⟩ ?_
    intro s tx s' hs hstep hfits
    exact stakingStep_room hs hfits hstep
  have houtside := hroom.outside
  constructor
  · intro a b hsum
    cases hsum with
    | settlement => exact houtside
    | activation =>
      have hinside := hroom.inside
      split
      next hboundary => exact hinside hboundary
      next => exact houtside
    | withdrawal msg v w hactive =>
      have hle := (isEpochActive_iff.mp hactive).2
      unfold withdrawalDelay
      omega
    | epochChange msg next hlt =>
      have hne : next.val ≠ 2 ^ 64 - 1 := bne_iff_ne.mp htx
      have hbound := next.isLt
      omega
  · intro s' hstep v
    obtain ⟨hreg, horder⟩ := reachable_inOrder h houtside
    obtain ⟨-, heffect⟩ := stakingStep_effect hreg horder hstep
    obtain ⟨events, hevents, hactivated⟩ := (heffect.evolves v).activated
    have hlt := hroom.lt_activationEpoch
    refine ⟨events, hevents, fun d amount k hmem => ?_, fun d amount k hmem => ?_⟩
    · obtain ⟨rfl, htrack⟩ := hactivated.delegated d amount k hmem
      exact ⟨hlt, by omega, htrack⟩
    · obtain ⟨rfl, hrequest⟩ := hactivated.undelegated d amount k hmem
      exact ⟨hlt, by omega, hrequest⟩

/-- After the opening calls, in the boundary of epoch `1`, two epochs fit. -/
theorem epoch_sums_fit_opening : ∃ s : Storage, s.inBoundary = true ∧ s.epoch + 2 < 2 ^ 64 := by
  have hrun : (runAll stakingStep (fun s tx _ => fitsEpochs s tx.2) .empty openingCalls).any
      (fun s => s.inBoundary) = true := by decide +kernel
  obtain ⟨s, hs, hboundary⟩ := Option.any_eq_true _ _ |>.mp hrun
  have hreach : Reachable stakingStep (fun s tx _ => fitsEpochs s tx.2) .empty s :=
    reachable_of_runAll (fun _ _ _ hcheck => hcheck) .start hs
  have hsum : EpochSum s (userMessage 9 dustThreshold payer_ne_staking, .delegate 1) s.epoch
      (if s.inBoundary then 2 else 1) := .activation _
  rw [if_pos hboundary] at hsum
  exact ⟨s, hboundary, (epoch_sums_fit hreach rfl).1 _ _ hsum⟩

/-- A validator joins, the epoch becomes the last one, and an account delegates. -/
def lastEpochCalls : List (Message × StakingCall) :=
  [(userMessage 7 activeValidatorStake opener_ne_staking, .addValidator samplePayload),
    (systemMessage, .syscallOnEpochChange (2 ^ 64 - 1)),
    (userMessage 9 dustThreshold payer_ne_staking, .delegate 1)]

/-- A successful call of a run reaches the next state. -/
theorem runAt_step {calls : List (Message × StakingCall)} {n : ℕ} (hn : n < calls.length)
    (h : (stakingStep (runAt calls n) calls[n]).isOk = true) :
    stakingStep (runAt calls n) calls[n] = .ok (runAt calls (n + 1)) := by
  obtain ⟨s', hs'⟩ := exists_of_isOk h
  rw [runAt, runAt, stateAt_succ stakingStep .empty calls n hn, perform_of_ok hs']
  exact hs'

/-- The last epoch is accepted although the sum with its successor wraps, and a delegation made in
it gets the activation epoch `0`, which means that nothing is pending. -/
theorem lastEpoch_wraps : ∃ s₁ s₂ s₃ : Storage, ∃ tx₂ tx₃ : Message × StakingCall,
    Reachable stakingStep (fun _ _ _ => True) .empty s₁ ∧
    stakingStep s₁ tx₂ = .ok s₂ ∧ (∃ a b, EpochSum s₁ tx₂ a b ∧ ¬a + b < 2 ^ 64) ∧
    stakingStep s₂ tx₃ = .ok s₃ ∧ (∃ a b, EpochSum s₂ tx₃ a b ∧ ¬a + b < 2 ^ 64) ∧
    (s₃.delegators 1 9).deltaStake = dustThreshold ∧ (s₃.delegators 1 9).deltaEpoch = 0 := by
  refine ⟨runAt lastEpochCalls 1, runAt lastEpochCalls 2, runAt lastEpochCalls 3,
    lastEpochCalls[1], lastEpochCalls[2], stateAt_reachable stakingStep .empty lastEpochCalls 1,
    runAt_step (by decide) (by decide +kernel),
    ⟨_, 1, .epochChange systemMessage (2 ^ 64 - 1) ?_, ?_⟩,
    runAt_step (by decide) (by decide +kernel), ⟨_, 1, .settlement _, ?_⟩, ?_, ?_⟩
  · decide +kernel
  · decide
  · decide +kernel
  · decide +kernel
  · decide +kernel

end Sums

end SuwappuRevm.Staking
