import SuwappuRevm.Staking.ExtraSettlements
import SuwappuRevm.Staking.Ownership
import SuwappuRevm.Staking.Registration

/-!
# The operations of an account

Six calls are for one account on one validator: five for their caller, and `getDelegator` for the
account that it names. Each leaves its pool in the value of a function, which reads no more of the
pool than the record and the requests of the account, the accumulator and the entries these refer
to, and which leaves the records and requests of all others alone.
-/

namespace SuwappuRevm.Staking

open Foundations

/-- The account and the validator that a call is for; the other calls are for no account. -/
def operation : Message × StakingCall → Option (Address × ValId)
  | (msg, .delegate v) => some (msg.caller, v)
  | (msg, .undelegate v _ _) => some (msg.caller, v)
  | (msg, .withdraw v _) => some (msg.caller, v)
  | (msg, .compound v) => some (msg.caller, v)
  | (msg, .claimRewards v) => some (msg.caller, v)
  | (_, .getDelegator v d) => some (d, v)
  | _ => none

namespace Pool

variable {p p' q : Pool} {cur k : ℕ} {b : Bool} {d d' : Address}

/-- The pool after an operation. -/
def operated (p : Pool) (cur : ℕ) (b : Bool) (d : Address) : Message × StakingCall → Pool
  | (msg, .delegate _) => if msg.callValue = 0 then p else p.delegated cur b d msg.callValue
  | (_, .undelegate _ amount w) => if amount = 0 then p else p.undelegated cur b d amount w
  | (_, .withdraw _ w) => p.withdrawn d w
  | (_, .compound _) => p.restaked cur b d
  | (_, .claimRewards _) => p.claimed cur d
  | (_, .getDelegator ..) => p.pulled cur d
  | _ => p

/-- What an accepted operation has checked: a withdrawal is ready, and the settlement of a
compounding leaves nothing due. -/
def Admits (p : Pool) (cur : ℕ) (d : Address) : StakingCall → Prop
  | .withdraw _ w => (p.withdrawals d w).amount ≠ 0 ∧ (p.withdrawals d w).epoch ≠ 0 ∧
      (p.withdrawals d w).epoch ≤ cur
  | .compound _ => (p.pulled cur d).AtRest cur d
  | _ => True

section Reads

/-- Two pools in which an account has the same record and requests and finds the same values. -/
structure SameFor (cur : ℕ) (d : Address) (p q : Pool) : Prop where
  record : p.delegators d = q.delegators d
  requests : p.withdrawals d = q.withdrawals d
  acc_eq : p.acc = q.acc
  entry : ∀ k ≤ cur, 0 < p.referencesOf d k → p.entryValue k = q.entryValue k

/-- The epoch of a pending track is referenced. -/
theorem referencesOf_pos_of_record (hk : k ≠ 0)
    (h : (p.delegators d).deltaEpoch = k ∨ (p.delegators d).nextDeltaEpoch = k) :
    0 < p.referencesOf d k := by
  have hself : refersTo k k = 1 := if_pos ⟨rfl, hk⟩
  unfold referencesOf Delegator.references
  rcases h with h | h <;> rw [h, hself] <;> omega

/-- The epoch of an open request is referenced. -/
theorem referencesOf_pos_of_request {w : WithdrawId} (hamount : (p.withdrawals d w).amount ≠ 0)
    (hepoch : (p.withdrawals d w).epoch ≠ 0) :
    0 < p.referencesOf d (p.withdrawals d w).epoch := by
  have hself : (p.withdrawals d w).references (p.withdrawals d w).epoch = 1 := by
    rw [WithdrawalRequest.references, if_neg hamount]
    exact if_pos ⟨rfl, hepoch⟩
  have hle := cell_le_sum (fun w' => (p.withdrawals d w').references (p.withdrawals d w).epoch) w
  unfold referencesOf
  omega

/-- The record after compounding. -/
theorem compounded_self (p : Pool) (d : Address) : (p.compounded d).delegators d =
    (p.delegators d).compounded (p.entryValue (p.delegators d).deltaEpoch)
      (rewardShare (p.delegators d).stake (p.entryValue (p.delegators d).deltaEpoch)
        (p.delegators d).accumulatedRewardPerToken) :=
  Function.update_self ..

/-- The record after accruing. -/
theorem accrue_self (p : Pool) (d : Address) (rewards : ℕ) :
    (p.accrue d rewards).delegators d = (p.delegators d).accrued p.acc rewards :=
  Function.update_self ..

/-- Compounding reads the record and its entry. -/
theorem compoundedIf_congr {can : Bool} (hrecord : p.delegators d = q.delegators d)
    (hentry : can = true → p.entryValue (p.delegators d).deltaEpoch =
      q.entryValue (p.delegators d).deltaEpoch) :
    (p.compoundedIf d can).delegators d = (q.compoundedIf d can).delegators d := by
  unfold compoundedIf
  split
  next hcan => rw [compounded_self, compounded_self, ← hrecord, hentry hcan]
  next => exact hrecord

/-- Compounding leaves the other entries alone. -/
theorem compoundedIf_entryValue {can : Bool}
    (hne : can = true → k ≠ (p.delegators d).deltaEpoch) :
    (p.compoundedIf d can).entryValue k = p.entryValue k := by
  unfold compoundedIf
  split
  next hcan =>
    have hentry : (p.compounded d).accumulators k = p.accumulators k :=
      Function.update_of_ne (hne hcan) ..
    rw [entryValue, entryValue, hentry]
  next => rfl

/-- Accruing reads the record and the accumulator. -/
theorem accrued_congr (hrecord : p.delegators d = q.delegators d) (hacc : p.acc = q.acc) :
    (p.accrued d).delegators d = (q.accrued d).delegators d := by
  unfold accrued
  rw [hrecord]
  split
  next => exact hrecord
  next => rw [accrue_self, accrue_self, hrecord, hacc]

/-- A promotion moves epochs within a record. -/
theorem promoteNext_epoch (cur : ℕ) (r : Delegator) (hk : k ≠ 0)
    (h : (promoteNext cur r).deltaEpoch = k ∨ (promoteNext cur r).nextDeltaEpoch = k) :
    r.deltaEpoch = k ∨ r.nextDeltaEpoch = k := by
  unfold promoteNext at h
  split at h
  next => exact h.elim .inr fun hzero => absurd hzero.symm hk
  next => exact h

/-- A settlement reads what it has to be the same. -/
theorem SameFor.pulled (h : SameFor cur d p q) (hcur : cur + 1 < 2 ^ 64)
    (hr : Staking.EpochsOk cur b (p.delegators d)) :
    (p.pulled cur d).delegators d = (q.pulled cur d).delegators d := by
  obtain ⟨hok, hnext⟩ := promoteNext_epochs hcur hr
  have hp : (p.promoted cur d).delegators d = promoteNext cur (p.delegators d) :=
    Function.update_self ..
  have hq : (q.promoted cur d).delegators d = promoteNext cur (p.delegators d) := by
    rw [h.record]
    exact Function.update_self ..
  have hvalue (k : ℕ) (hk : k ≠ 0 ∧ k ≤ cur)
      (hmem : (promoteNext cur (p.delegators d)).deltaEpoch = k ∨
        (promoteNext cur (p.delegators d)).nextDeltaEpoch = k) :
      (p.promoted cur d).entryValue k = (q.promoted cur d).entryValue k :=
    h.entry k hk.2 (referencesOf_pos_of_record hk.1 (promoteNext_epoch cur _ hk.1 hmem))
  unfold Pool.pulled
  dsimp only
  rw [hp, hq]
  have hacc : (p.promoted cur d).acc = (q.promoted cur d).acc := h.acc_eq
  generalize promoteNext cur (p.delegators d) = r at *
  generalize p.promoted cur d = p at *
  generalize q.promoted cur d = q at *
  -- the boundary compounding reads the entry of the first track
  have hfirst : (p.compoundedIf d (isEpochActive cur r.nextDeltaEpoch)).delegators d =
      (q.compoundedIf d (isEpochActive cur r.nextDeltaEpoch)).delegators d := by
    refine compoundedIf_congr (hp.trans hq.symm) fun hboundary => ?_
    rw [hp]
    exact hvalue _ (first_active hok hnext hboundary) (.inl rfl)
  -- the main one reads that of the track which is then the first
  have htrack : ((p.compoundedIf d (isEpochActive cur r.nextDeltaEpoch)).delegators d).deltaEpoch =
      if isEpochActive cur r.nextDeltaEpoch then r.nextDeltaEpoch else r.deltaEpoch := by
    unfold compoundedIf
    split
    next =>
      rw [compounded_self, hp]
      rfl
    next => rw [hp]
  have hkept (x : Pool) (hx : x.delegators d = r) (hmain : isEpochActive cur r.deltaEpoch = true) :
      (x.compoundedIf d (isEpochActive cur r.nextDeltaEpoch)).entryValue
        (if isEpochActive cur r.nextDeltaEpoch then r.nextDeltaEpoch else r.deltaEpoch) =
      x.entryValue
        (if isEpochActive cur r.nextDeltaEpoch then r.nextDeltaEpoch else r.deltaEpoch) := by
    refine compoundedIf_entryValue fun hboundary => ?_
    rw [if_pos hboundary, hx]
    exact (hok.delta_lt_next (isEpochActive_iff.mp hmain).1 (isEpochActive_iff.mp hboundary).1).ne'
  refine accrued_congr (compoundedIf_congr hfirst fun hmain => ?_) ?_
  · rw [htrack, hkept p hp hmain, hkept q hq hmain]
    split
    next hboundary => exact hvalue _ (isEpochActive_iff.mp hboundary) (.inr rfl)
    next => exact hvalue _ (isEpochActive_iff.mp hmain) (.inl rfl)
  · rw [(compoundedIf_upkeep ..).acc_eq, (compoundedIf_upkeep ..).acc_eq,
      (compoundedIf_upkeep ..).acc_eq, (compoundedIf_upkeep ..).acc_eq, hacc]

end Reads

section Payments

/-- What a settlement credits to a record. -/
def newRewards (p : Pool) (cur : ℕ) (d : Address) : ℕ :=
  ((p.pulled cur d).delegators d).rewards - (p.delegators d).rewards

/-- What an operation pays out of the unclaimed rewards. -/
def paid (p : Pool) (cur : ℕ) (d : Address) : Message × StakingCall → ℕ
  | (msg, .delegate _) => if msg.callValue = 0 then 0 else p.newRewards cur d
  | (_, .undelegate _ amount _) => if amount = 0 then 0 else p.newRewards cur d
  | (_, .withdraw _ w) => rewardShare (p.withdrawals d w).amount
      (p.entryValue (p.withdrawals d w).epoch) (p.withdrawals d w).accumulator
  | (_, .compound _) => p.newRewards cur d
  | (_, .claimRewards _) => p.newRewards cur d
  | (_, .getDelegator ..) => p.newRewards cur d
  | _ => 0

/-- Rewards go from the unclaimed ones to the credited ones of a record. -/
def Credits (d : Address) (p p' : Pool) : Prop :=
  ∃ rewards, p'.unclaimed = p.unclaimed - rewards ∧
    (p'.delegators d).rewards = (p.delegators d).rewards + rewards

/-- Two credits. -/
theorem Credits.trans {p'' : Pool} (h : Credits d p p') (h' : Credits d p' p'') :
    Credits d p p'' := by
  obtain ⟨rewards, hunclaimed, hrewards⟩ := h
  obtain ⟨rewards', hunclaimed', hrewards'⟩ := h'
  exact ⟨rewards + rewards', by rw [hunclaimed', hunclaimed, Nat.sub_sub],
    by rw [hrewards', hrewards, Nat.add_assoc]⟩

/-- A promotion credits nothing. -/
theorem promoted_credits (p : Pool) (cur : ℕ) (d : Address) : Credits d p (p.promoted cur d) := by
  have hself : (p.promoted cur d).delegators d = promoteNext cur (p.delegators d) :=
    Function.update_self ..
  refine ⟨0, rfl, ?_⟩
  rw [hself, promoteNext]
  split <;> rfl

/-- Compounding credits rewards. -/
theorem compoundedIf_credits (p : Pool) (d : Address) (can : Bool) :
    Credits d p (p.compoundedIf d can) := by
  unfold compoundedIf
  split
  · exact ⟨_, rfl, by rw [compounded_self]; rfl⟩
  · exact ⟨0, rfl, rfl⟩

/-- Accruing credits rewards. -/
theorem accrued_credits (p : Pool) (d : Address) : Credits d p (p.accrued d) := by
  unfold accrued
  split
  · exact ⟨0, rfl, rfl⟩
  · exact ⟨_, rfl, by rw [accrue_self]; rfl⟩

/-- A settlement takes what it credits out of the unclaimed rewards. -/
theorem pulled_unclaimed (p : Pool) (cur : ℕ) (d : Address) :
    (p.pulled cur d).unclaimed = p.unclaimed - p.newRewards cur d := by
  obtain ⟨rewards, hunclaimed, hrewards⟩ : Credits d p (p.pulled cur d) :=
    (((p.promoted_credits cur d).trans (compoundedIf_credits ..)).trans
      (compoundedIf_credits ..)).trans (accrued_credits ..)
  rw [hunclaimed, newRewards, hrewards, Nat.add_sub_cancel_left]

/-- A settlement of a record at rest takes nothing. -/
theorem AtRest.pulled_unclaimed (h : p.AtRest cur d) (hcur : cur + 1 < 2 ^ 64) :
    (p.pulled cur d).unclaimed = p.unclaimed := by
  rw [p.pulled_unclaimed, newRewards, h.pulled_delegators hcur, Nat.sub_self, Nat.sub_zero]

/-- A claim takes what the settlement credits. -/
theorem claimed_unclaimed (p : Pool) (cur : ℕ) (d : Address) :
    (p.claimed cur d).unclaimed = (p.pulled cur d).unclaimed := by
  unfold claimed
  dsimp only
  split <;> rfl

/-- A compounding restakes what the settlement credits. -/
theorem restaked_unclaimed (hcur : cur + 1 < 2 ^ 64) (h : (p.pulled cur d).AtRest cur d) :
    (p.restaked cur b d).unclaimed = (p.pulled cur d).unclaimed := by
  unfold restaked
  dsimp only
  split
  · rfl
  · exact h.take.pulled_unclaimed hcur

/-- An operation takes what it pays out of the unclaimed rewards. -/
theorem operated_unclaimed {tx : Message × StakingCall} (hcur : cur + 1 < 2 ^ 64)
    (h : p.Admits cur d tx.2) :
    (p.operated cur b d tx).unclaimed = p.unclaimed - p.paid cur d tx := by
  have hpulled := p.pulled_unclaimed cur d
  obtain ⟨msg, call⟩ := tx
  cases call with
  | delegate v =>
    unfold operated paid
    dsimp only
    split
    · rfl
    · exact hpulled
  | undelegate v amount w =>
    unfold operated paid
    dsimp only
    split
    · rfl
    · exact hpulled
  | compound v => exact (restaked_unclaimed hcur h).trans hpulled
  | claimRewards v => exact (p.claimed_unclaimed cur d).trans hpulled
  | getDelegator v d' => exact hpulled
  | _ => rfl

end Payments

section Operated

variable {tx : Message × StakingCall}

/-- What an operation admits is the same. -/
theorem SameFor.admits (h : SameFor cur d p q) (hcur : cur + 1 < 2 ^ 64)
    (hr : Staking.EpochsOk cur b (p.delegators d)) (hp : p.Admits cur d tx.2) :
    q.Admits cur d tx.2 := by
  obtain ⟨msg, call⟩ := tx
  cases call with
  | withdraw v w =>
    unfold Admits at hp ⊢
    dsimp only at hp ⊢
    rw [← h.requests]
    exact hp
  | compound v =>
    have hacc : (p.pulled cur d).acc = (q.pulled cur d).acc := by
      rw [(p.pulled_upkeep cur d).acc_eq, (q.pulled_upkeep cur d).acc_eq, h.acc_eq]
    obtain ⟨hsettled, hlast⟩ := hp
    rw [h.pulled hcur hr] at hsettled hlast
    exact ⟨hsettled, fun hstake => (hlast hstake).trans hacc⟩
  | _ => trivial

/-- An operation reads what it has to be the same. -/
theorem SameFor.operated (h : SameFor cur d p q) (hcur : cur + 1 < 2 ^ 64)
    (hr : Staking.EpochsOk cur b (p.delegators d)) (hp : p.Admits cur d tx.2) :
    (p.operated cur b d tx).delegators d = (q.operated cur b d tx).delegators d ∧
      (p.operated cur b d tx).withdrawals d = (q.operated cur b d tx).withdrawals d ∧
      p.paid cur d tx = q.paid cur d tx := by
  have hq : q.Admits cur d tx.2 := h.admits hcur hr hp
  obtain ⟨msg, call⟩ := tx
  have hpulled := h.pulled hcur hr
  have hpaid : p.newRewards cur d = q.newRewards cur d := by
    rw [newRewards, newRewards, hpulled, h.record]
  have hkept (p : Pool) : (p.pulled cur d).withdrawals = p.withdrawals :=
    (p.pulled_upkeep cur d).withdrawals_eq
  have hrequests : (p.pulled cur d).withdrawals d = (q.pulled cur d).withdrawals d := by
    rw [hkept, hkept, h.requests]
  cases call with
  | delegate v =>
    unfold Pool.operated paid
    dsimp only
    split
    · exact ⟨h.record, h.requests, rfl⟩
    · exact ⟨delegated_congr hpulled b _, hrequests, hpaid⟩
  | undelegate v amount w =>
    unfold Pool.operated paid
    dsimp only
    split
    · exact ⟨h.record, h.requests, rfl⟩
    · refine ⟨undelegated_congr hpulled b _ w, ?_, hpaid⟩
      have hself (p : Pool) : (p.undelegated cur b d amount w).withdrawals d =
        Function.update ((p.pulled cur d).withdrawals d) w
          ⟨leaving ((p.pulled cur d).delegators d).stake amount,
            ((p.pulled cur d).delegators d).accumulatedRewardPerToken, activationEpoch cur b⟩ :=
        Function.update_self ..
      rw [hself, hself, hrequests, hpulled]
  | withdraw v w =>
    obtain ⟨hamount, hepoch, hready⟩ := hp
    have hvalue := h.entry _ hready (referencesOf_pos_of_request hamount hepoch)
    have hself (p : Pool) : (p.withdrawn d w).withdrawals d =
      Function.update (p.withdrawals d) w .zero := Function.update_self ..
    refine ⟨h.record, (hself p).trans (h.requests ▸ (hself q).symm), ?_⟩
    unfold paid
    dsimp only
    rw [hvalue, h.requests]
  | compound v =>
    refine ⟨restaked_congr hpulled hcur hp hq b, ?_, hpaid⟩
    exact (congrFun (p.restaked_withdrawals cur b d) d).trans (h.requests.trans
      (congrFun (q.restaked_withdrawals cur b d) d).symm)
  | claimRewards v =>
    refine ⟨claimed_congr hpulled, ?_, hpaid⟩
    exact (congrFun (p.claimed_withdrawals cur d) d).trans (h.requests.trans
      (congrFun (q.claimed_withdrawals cur d) d).symm)
  | getDelegator v d' => exact ⟨hpulled, hrequests, hpaid⟩
  | _ => exact ⟨h.record, h.requests, rfl⟩

/-- An operation leaves the records and requests of others alone. -/
theorem operated_off (p : Pool) (cur : ℕ) (b : Bool) (tx : Message × StakingCall) (hd : d' ≠ d) :
    (p.operated cur b d tx).delegators d' = p.delegators d' ∧
      (p.operated cur b d tx).withdrawals d' = p.withdrawals d' := by
  obtain ⟨msg, call⟩ := tx
  have hupkeep := p.pulled_upkeep cur d
  have hwithdrawals := congrFun hupkeep.withdrawals_eq d'
  cases call with
  | delegate v =>
    unfold operated
    dsimp only
    split
    · exact ⟨rfl, rfl⟩
    · exact ⟨(Function.update_of_ne hd ..).trans (hupkeep.off d' hd), hwithdrawals⟩
  | undelegate v amount w =>
    unfold operated
    dsimp only
    split
    · exact ⟨rfl, rfl⟩
    · exact p.undelegated_off cur b amount w hd
  | withdraw v w => exact p.withdrawn_off w hd
  | compound v =>
    obtain ⟨hrecord, hrequests⟩ := p.restaked_off cur b hd
    exact ⟨hrecord, congrFun hrequests d'⟩
  | claimRewards v =>
    obtain ⟨hrecord, hrequests⟩ := p.claimed_off cur hd
    exact ⟨hrecord, congrFun hrequests d'⟩
  | getDelegator v d => exact ⟨hupkeep.off d' hd, hwithdrawals⟩
  | _ => exact ⟨rfl, rfl⟩

/-- An operation leaves the accumulator alone. -/
theorem operated_acc (p : Pool) (cur : ℕ) (b : Bool) (d : Address) (tx : Message × StakingCall) :
    (p.operated cur b d tx).acc = p.acc := by
  obtain ⟨msg, call⟩ := tx
  have hacc := (p.pulled_upkeep cur d).acc_eq
  cases call with
  | delegate v =>
    unfold operated
    dsimp only
    split
    · rfl
    · exact hacc
  | undelegate v amount w =>
    unfold operated
    dsimp only
    split
    · rfl
    · exact hacc
  | withdraw v w => rfl
  | compound v =>
    change (p.restaked cur b d).acc = p.acc
    unfold restaked
    dsimp only
    split
    · exact hacc
    · exact (((p.pulled cur d).take d).pulled_upkeep cur d).acc_eq.trans hacc
  | claimRewards v =>
    change (p.claimed cur d).acc = p.acc
    unfold claimed
    dsimp only
    split <;> exact hacc
  | getDelegator v d => exact hacc
  | _ => rfl

end Operated

section Entries

variable {i o : ℕ}

/-- Quiet steps leave the entries of later epochs alone. -/
theorem Quiet.later (h : p.Quiet cur b i o p') (hk : cur < k) :
    p'.accumulators k = p.accumulators k := by
  cases h with
  | compound d rewards hdelta hle => exact Function.update_of_ne (by omega) ..
  | pay d w rewards hamount hepoch hready => exact Function.update_of_ne (by omega) ..
  | _ => rfl

/-- Quiet runs leave the entries of later epochs alone. -/
theorem QuietRun.later (h : p.QuietRun cur b i o p') (hk : cur < k) :
    p'.accumulators k = p.accumulators k := by
  induction h with
  | refl => rfl
  | step _ hstep ih => exact (hstep.later hk).trans ih

/-- Runs leave what is still referenced of the epochs that have begun as it was. -/
theorem Run.live (hcur : cur + 2 < 2 ^ 64) (h : p.Run cur b i o p') (hle : k ≤ cur)
    (hk : (p'.accumulators k).refcount ≠ 0) :
    (p.accumulators k).refcount ≠ 0 ∧
      (p'.accumulators k).value = (p.accumulators k).value := by
  cases h with
  | quiet hrun => exact hrun.live hk
  | enter hrun hstep =>
    have hact := activationEpoch_gt hcur b
    have hentry := (hstep.entry k).resolve_right fun h => absurd h.1 (by omega)
    rw [hentry] at hk ⊢
    exact hrun.live hk

/-- Runs drop no reference to the entry of a later epoch. -/
theorem Run.references_ge (hcur : cur + 2 < 2 ^ 64) (hepochs : p.EpochsOk cur b) (hp : p.Counted)
    (h : p.Run cur b i o p') (hk : cur < k) : p.references k ≤ p'.references k := by
  have hquiet {q : Pool} {i o : ℕ} (hrun : p.QuietRun cur b i o q) :
      p.references k = q.references k := by
    rw [← hp.refcount_eq, ← (hrun.counted hp).refcount_eq, hrun.later hk]
  cases h with
  | quiet hrun => exact (hquiet hrun).le
  | enter hrun hstep =>
    rw [hquiet hrun]
    obtain ⟨d, hoff, -, ⟨-, hrefs⟩ | ⟨-, hrefs⟩⟩ := hstep.retains hcur (hrun.epochsOk hepochs)
    · have hmove := references_off hoff k
      have hsame := hrefs k
      omega
    · have hmove := references_off hoff k
      have htake := hrefs k
      omega

/-- Runs leave the entry of a later epoch alone or take a reference to it. -/
theorem Run.later (hcur : cur + 2 < 2 ^ 64) (hepochs : p.EpochsOk cur b) (hp : p.Counted)
    (hp' : p'.Counted) (h : p.Run cur b i o p') (hk : cur < k) :
    p'.accumulators k = p.accumulators k ∨ (p'.accumulators k).value = p'.acc ∧
      (p.accumulators k).refcount < (p'.accumulators k).refcount := by
  have hge := h.references_ge hcur hepochs hp hk
  rw [← hp.refcount_eq, ← hp'.refcount_eq] at hge
  cases h with
  | quiet hrun => exact .inl (hrun.later hk)
  | enter hrun hstep =>
    rw [← hrun.later hk] at hge ⊢
    refine (hstep.entry k).imp_right fun ⟨_, hwritten⟩ => ?_
    rw [hwritten] at hge ⊢
    refine ⟨rfl, lt_of_le_of_ne hge fun hsame => ?_⟩
    -- adding one to a count never gives it back
    simp only [u64Add] at hsame
    omega

end Entries

end Pool

/-- What an accepted operation does. -/
structure Operates (tx : Message × StakingCall) (d : Address) (v : ValId) (s s' : Storage) :
    Prop where
  touches : Touches v s s'
  pool_eq : s'.pool v = (s.pool v).operated s.epoch s.inBoundary d tx
  run : s.InOrder v → ∃ i o, (s.pool v).Run s.epoch s.inBoundary i o (s'.pool v)
  admits : s.InOrder v → (s.pool v).Admits s.epoch d tx.2
  terms : SameTerms s.roster s'.roster
  keyring_eq : s'.keyring = s.keyring

section Accepted

variable {s s' : Storage} {v : ValId} {d : Address}

/-- A compounding settles first. -/
theorem handleCompound_atRest {msg : Message} {answer : Answer} (hs : s.InOrder v)
    (h : handleCompound s msg v = .ok answer) :
    ((s.pool v).pulled s.epoch msg.caller).AtRest s.epoch msg.caller := by
  simp only [handleCompound, bind_eq_ok] at h
  obtain ⟨-, -, ⟨del, s₁⟩, hpull, -⟩ := h
  rw [← pullDelegatorUpToDate_pool hpull, ← (pullDelegatorUpToDate_touches hpull).1.epoch_eq]
  exact pullDelegatorUpToDate_leaves_atRest hs.1 (hs.2 msg.caller) hpull

/-- An accepted operation does what its function says. -/
theorem runStakingWrite_operates {msg : Message} {call : StakingCall} {answer : Answer}
    (hop : operation (msg, call) = some (d, v)) (h : runStakingWrite s msg call = .ok answer) :
    Operates (msg, call) d v s answer.storage := by
  have hof {i o income' : ℕ} (hcall : PoolCall v income' i o s answer.storage)
      (hs : s.InOrder v) : ∃ i o, (s.pool v).Run s.epoch s.inBoundary i o
        (answer.storage.pool v) := ⟨i, o, hcall.run hs⟩
  have hsame (hroster : answer.storage.roster = s.roster) :
      SameTerms s.roster answer.storage.roster := hroster ▸ .refl _
  cases call with
  | delegate v =>
    cases hop
    have hcall := handleDelegate_spec h
    exact ⟨hcall.touches, handleDelegate_pool h, hof hcall, fun _ => trivial,
      handleDelegate_terms h, handleDelegate_keyring h⟩
  | undelegate v amount w =>
    cases hop
    obtain ⟨-, h⟩ := notPayable_eq_ok h
    have hcall := handleUndelegate_spec h
    refine ⟨hcall.touches, handleUndelegate_pool h, hof hcall, fun _ => trivial, ?_,
      handleUndelegate_keyring h⟩
    by_cases hamount : amount = 0
    · simp only [handleUndelegate, bind_eq_ok, if_pos hamount] at h
      obtain ⟨-, -, h⟩ := h
      cases h
      exact .refl _
    · exact handleUndelegate_terms hamount h
  | withdraw v w =>
    cases hop
    obtain ⟨-, h⟩ := notPayable_eq_ok h
    obtain ⟨o, hcall⟩ := handleWithdraw_spec h
    obtain ⟨hamount, hepoch, hready, -, -, -, -, -, hpool⟩ := handleWithdraw_pay h
    exact ⟨hcall.touches, hpool, hof hcall, fun _ => ⟨hamount, hepoch, hready⟩,
      hsame (handleWithdraw_roster h), handleWithdraw_keyring h⟩
  | compound v =>
    cases hop
    obtain ⟨-, h⟩ := notPayable_eq_ok h
    obtain ⟨i, o, hcall⟩ := handleCompound_spec h
    exact ⟨hcall.touches, handleCompound_pool h, hof hcall, fun hs => handleCompound_atRest hs h,
      handleCompound_terms h, handleCompound_keyring h⟩
  | claimRewards v =>
    cases hop
    obtain ⟨-, h⟩ := notPayable_eq_ok h
    obtain ⟨o, hcall⟩ := handleClaimRewards_spec h
    exact ⟨hcall.touches, handleClaimRewards_pool h, hof hcall, fun _ => trivial,
      hsame (handleClaimRewards_roster h), handleClaimRewards_keyring h⟩
  | getDelegator v d =>
    cases hop
    obtain ⟨-, h⟩ := notPayable_eq_ok h
    have hcall := handleGetDelegatorWrite_spec h
    refine ⟨hcall.touches, handleGetDelegatorWrite_pool h, hof hcall, fun _ => trivial,
      hsame (handleGetDelegatorWrite_roster h), ?_⟩
    simp only [handleGetDelegatorWrite, bind_eq_ok, pure_eq_ok] at h
    obtain ⟨-, -, ⟨del, s₁⟩, hpull, rfl⟩ := h
    exact pullDelegatorUpToDate_keyring hpull
  | _ => cases hop

/-- An accepted operation, with its value credited first. -/
theorem stakingStep_operates {tx : Message × StakingCall} (hop : operation tx = some (d, v))
    (h : stakingStep s tx = .ok s') : Operates tx d v (s.credit (income tx.1 tx.2)) s' := by
  simp only [stakingStep, bind_eq_ok, pure_eq_ok] at h
  obtain ⟨answer, h, rfl⟩ := h
  exact runStakingWrite_operates hop h

end Accepted

end SuwappuRevm.Staking
