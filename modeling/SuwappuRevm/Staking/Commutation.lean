import SuwappuRevm.Foundations.Agents
import SuwappuRevm.Staking.FrequentSettlement
import SuwappuRevm.Staking.Lists
import SuwappuRevm.Staking.Operations
import SuwappuRevm.Staking.Snapshots
import SuwappuRevm.Staking.Standing

/-!
# Operations of different accounts commute

Operations of any accounts, accepted throughout, end in the same records, requests, entries and
validators in every order that keeps those of each account in their order. An operation reads only
what belongs to its account, the accumulator, and the entries that its account refers to, which the
releases of other accounts do not clear. Stakes, flags and lists follow from the records; the
execution array need not have the same flagged members, but a snapshot drops those.
-/

namespace SuwappuRevm.Staking

open Foundations

namespace Pool

variable {cur : ℕ} {b : Bool} {p₀ p p' q : Pool} {d : Address} {tx : Message × StakingCall}

/-- Counts, stake and epochs of a pool are right. -/
structure Kept (cur : ℕ) (b : Bool) (p : Pool) : Prop where
  counted : p.Counted
  ledger : p.Ledger
  epochs : p.EpochsOk cur b

/-- An operation of an account leads from one pool to another. -/
structure OperatedTo (cur : ℕ) (b : Bool) (d : Address) (tx : Message × StakingCall) (p p' : Pool) :
    Prop where
  eq : p' = p.operated cur b d tx
  run : ∃ i o, p.Run cur b i o p'
  admits : p.Admits cur d tx.2

/-- Two pools with different histories only. -/
structure SameCells (p q : Pool) : Prop where
  stake_eq : p.stake = q.stake
  acc_eq : p.acc = q.acc
  unclaimed_eq : p.unclaimed = q.unclaimed
  delegators_eq : p.delegators = q.delegators
  withdrawals_eq : p.withdrawals = q.withdrawals
  accumulators_eq : p.accumulators = q.accumulators

/-- What an account holds in a pool: its record and its requests. -/
def holding (p : Pool) (d : Address) : Delegator × (WithdrawId → WithdrawalRequest) :=
  (p.delegators d, p.withdrawals d)

/-- A pool in which an account holds something else. -/
def seated (p : Pool) (d : Address) (holding : Delegator × (WithdrawId → WithdrawalRequest)) :
    Pool :=
  { p with
    delegators := Function.update p.delegators d holding.1
    withdrawals := Function.update p.withdrawals d holding.2 }

/-- It holds that. -/
theorem seated_holding (p : Pool) (d : Address)
    (holding : Delegator × (WithdrawId → WithdrawalRequest)) :
    (p.seated d holding).holding d = holding :=
  Prod.ext (Function.update_self ..) (Function.update_self ..)

/-- A pool after operations of any accounts: entries of epochs that have begun only lose references,
those of later epochs only gain some, and the accumulator stays. -/
structure Since (cur : ℕ) (p₀ p : Pool) : Prop where
  acc_eq : p.acc = p₀.acc
  live : ∀ k ≤ cur, (p.accumulators k).refcount ≠ 0 → (p₀.accumulators k).refcount ≠ 0 ∧
    (p.accumulators k).value = (p₀.accumulators k).value
  later : ∀ k, cur < k → p.accumulators k = p₀.accumulators k ∨
    (p.accumulators k).value = p₀.acc ∧ (p₀.accumulators k).refcount < (p.accumulators k).refcount

/-- What an account refers to is settled with the value of a counted entry. -/
theorem Counted.entryValue_eq (hp : p.Counted) {k : ℕ} (h : 0 < p.referencesOf d k) :
    p.entryValue k = (p.accumulators k).value :=
  if_neg (hp.refcount_pos h).ne'

/-- Before any operation. -/
theorem Since.refl (cur : ℕ) (p : Pool) : p.Since cur p :=
  ⟨rfl, fun _ _ hk => ⟨hk, rfl⟩, fun _ _ => .inl rfl⟩

/-- After one more operation. -/
theorem Since.operate (hcur : cur + 2 < 2 ^ 64) (h : p₀.Since cur p) (hp : p.Kept cur b)
    (hp' : p'.Kept cur b) (hop : OperatedTo cur b d tx p p') : p₀.Since cur p' := by
  obtain ⟨i, o, hrun⟩ := hop.run
  have hacc : p'.acc = p₀.acc := by rw [hop.eq, p.operated_acc, h.acc_eq]
  refine ⟨hacc, fun k hk hlive => ?_, fun k hk => ?_⟩
  · obtain ⟨hlive, hvalue⟩ := hrun.live hcur hk hlive
    obtain ⟨hlive₀, hvalue₀⟩ := h.live k hk hlive
    exact ⟨hlive₀, hvalue.trans hvalue₀⟩
  · have hbefore := h.later k hk
    rcases hrun.later hcur hp.epochs hp.counted hp'.counted hk with hsame | ⟨hvalue, hmore⟩
    · rw [hsame]
      exact hbefore
    · refine .inr ⟨hvalue.trans hacc, ?_⟩
      rcases hbefore with hsame | ⟨-, hmore₀⟩
      · rwa [← hsame]
      · exact hmore₀.trans hmore

/-- An account finds what it would find if it came first. -/
theorem Since.sameFor (h : p₀.Since cur p) (hp : p.Kept cur b) (d : Address) :
    SameFor cur d p (p₀.seated d (p.holding d)) := by
  have hseated := p₀.seated_holding d (p.holding d)
  refine ⟨(congrArg Prod.fst hseated).symm, (congrArg Prod.snd hseated).symm, h.acc_eq,
    fun k hk hpos => ?_⟩
  obtain ⟨hlive, hvalue⟩ := h.live k hk (hp.counted.refcount_pos hpos).ne'
  rw [hp.counted.entryValue_eq hpos, hvalue]
  exact (if_neg hlive).symm

/-- So its operation does with its holding, and pays it, what it would if it came first. -/
theorem Since.operated (hcur : cur + 2 < 2 ^ 64) (h : p₀.Since cur p) (hp : p.Kept cur b)
    (hop : OperatedTo cur b d tx p p') :
    p'.holding d = ((p₀.seated d (p.holding d)).operated cur b d tx).holding d ∧
      p'.unclaimed = p.unclaimed - (p₀.seated d (p.holding d)).paid cur d tx := by
  obtain ⟨hrecord, hrequests, hpaid⟩ :=
    (h.sameFor hp d).operated (by omega) (hp.epochs d) hop.admits
  rw [← hop.eq] at hrecord hrequests
  refine ⟨Prod.ext hrecord hrequests, ?_⟩
  rw [hop.eq, p.operated_unclaimed (by omega) hop.admits, hpaid]

/-- Two pools after operations on one are the same when their accounts and unclaimed rewards are. -/
theorem Since.sameCells (h : p₀.Since cur p) (h' : p₀.Since cur q) (hp : p.Kept cur b)
    (hq : q.Kept cur b) (hholding : p.holding = q.holding)
    (hunclaimed : p.unclaimed = q.unclaimed) : SameCells p q := by
  have hdelegators : p.delegators = q.delegators :=
    funext fun d => congrArg Prod.fst (congrFun hholding d)
  have hwithdrawals : p.withdrawals = q.withdrawals :=
    funext fun d => congrArg Prod.snd (congrFun hholding d)
  have hcount (k : ℕ) : (p.accumulators k).refcount = (q.accumulators k).refcount := by
    rw [hp.counted.refcount_eq, hq.counted.refcount_eq]
    exact references_congr hdelegators hwithdrawals k
  refine ⟨?_, h.acc_eq.trans h'.acc_eq.symm, hunclaimed, hdelegators, hwithdrawals,
    funext fun k => ?_⟩
  · rw [hp.ledger.stake_eq, hq.ledger.stake_eq, hdelegators]
  have hext (hvalue : (p.accumulators k).value = (q.accumulators k).value) :
      p.accumulators k = q.accumulators k :=
    (RefCountedAccumulator.mk.injEq ..).mpr ⟨hvalue, hcount k⟩
  rcases Nat.lt_or_ge cur k with hk | hk
  · -- the count of a later epoch's entry tells whether a reference was taken
    have hsame := hcount k
    rcases h.later k hk with heq | ⟨hvalue, hmore⟩ <;>
      rcases h'.later k hk with heq' | ⟨hvalue', hmore'⟩
    · rw [heq, heq']
    · rw [heq] at hsame
      omega
    · rw [heq'] at hsame
      omega
    · exact hext (hvalue.trans hvalue'.symm)
  · by_cases hzero : (p.accumulators k).refcount = 0
    · rw [hp.counted.cleared k hzero, hq.counted.cleared k (hcount k ▸ hzero)]
    · rw [hext ((h.live k hk hzero).2.trans (h'.live k hk (hcount k ▸ hzero)).2.symm)]

end Pool

/-- The delegation lists have the same members. -/
def SameMembers (s t : Storage) : Prop :=
  ∃ delegatorsOf validatorsOf delegatorsOf' validatorsOf',
    Lists s delegatorsOf validatorsOf ∧ Lists t delegatorsOf' validatorsOf' ∧
      (∀ v d, d ∈ delegatorsOf v ↔ d ∈ delegatorsOf' v) ∧
      ∀ v d, v ∈ validatorsOf d ↔ v ∈ validatorsOf' d

/-- States that agree on all records, requests, entries and validators, on the members of the lists
and the flag-free members of the execution array, and on what a snapshot makes of them. -/
structure Agree (s t : Storage) : Prop where
  epoch_eq : s.epoch = t.epoch
  inBoundary_eq : s.inBoundary = t.inBoundary
  terms : SameTerms s.roster t.roster
  keyring_eq : s.keyring = t.keyring
  delegators_eq : s.delegators = t.delegators
  withdrawals_eq : s.withdrawals = t.withdrawals
  accumulators_eq : s.accumulators = t.accumulators
  validators_eq : s.validators = t.validators
  balance_eq : s.balance = t.balance
  sameMembers : SameMembers s t
  candidates_perm : s.candidates.Perm t.candidates
  consensus_eq : (takeSnapshot s).consensus.toList = (takeSnapshot t).consensus.toList
  consensusView_eq : (takeSnapshot s).consensusView = (takeSnapshot t).consensusView
  snapshotView_eq : (takeSnapshot s).snapshotView = (takeSnapshot t).snapshotView

/-- Two operations of different accounts, accepted from a state in either order. -/
structure BothOrders (tx₁ tx₂ : Message × StakingCall) (s s₁ s₁₂ s₂ s₂₁ : Storage) : Prop where
  distinct : ∃ d₁ d₂ v₁ v₂,
    operation tx₁ = some (d₁, v₁) ∧ operation tx₂ = some (d₂, v₂) ∧ d₁ ≠ d₂
  first : stakingStep s tx₁ = .ok s₁
  firstSecond : stakingStep s₁ tx₂ = .ok s₁₂
  second : stakingStep s tx₂ = .ok s₂
  secondFirst : stakingStep s₂ tx₁ = .ok s₂₁

section States

variable {s t s₁ s₁₂ s₂ s₂₁ : Storage} {v : ValId} {tx tx₁ tx₂ : Message × StakingCall}

/-- A call leaves the flags of an id alone that has no validator before or after it. -/
theorem RosterStep.flags_eq {caller : Address} {s' : Storage} (h : RosterStep caller s s')
    (hv : ¬(s.validators v).Exists) (hv' : ¬(s'.validators v).Exists) :
    (s'.validators v).flags = (s.validators v).flags := by
  cases h with
  | keeps hkeeps => exact congrFun (congrArg Roster.flags hkeeps.roster_eq) v
  | joins v' d amount s₁ hexists hamount hkeeps hjoins =>
    have hne : v ≠ v' := fun heq => hv (heq ▸ hexists)
    exact (hjoins.flags_off hne).trans (congrFun (congrArg Roster.flags hkeeps.roster_eq) v)
  | leaves v' amount hexists hamount hleaves =>
    exact hleaves.flags_off fun heq => hv (heq ▸ hexists)
  | creates v' s₁ _ _ auth _ amount hcreate hauth hzero hsentinel hle hmin hjoins =>
    simp only [createValidator, bind_eq_ok, pure_eq_ok, Prod.mk.injEq] at hcreate
    obtain ⟨-, -, -, -, rfl, rfl⟩ := hcreate
    by_cases hne : v = s.lastValId + 1
    · subst hne
      have hnew : (s'.validators (s.lastValId + 1)).authAddress = auth :=
        (congrFun hjoins.terms.authAddress_eq _).trans
          (by simp [Storage.roster, Storage.writeValidator])
      exact absurd (hnew.trans_ne hauth) hv'
    · refine (hjoins.flags_off hne).trans ?_
      exact congrArg Validator.flags (Function.update_of_ne hne ..)
  | recommissions v' commission hcaller hle hpools hroster =>
    exact congrFun (congrArg Roster.flags hroster) v
  | snapshot hboundary htake =>
    obtain ⟨-, -, -, hvalidators, -, -⟩ := takeSnapshot_sameLedger s
    rw [htake, hvalidators]
  | epochChange next hlt hchange =>
    obtain ⟨⟨-, -, -, hvalidators, -, -⟩, -⟩ := refreshAccumulators_spec s next
    rw [hchange]
    exact congrArg (fun vals => (vals v).flags) hvalidators

/-- The invariants of a pool in a run with countable references. -/
theorem reachable_kept (h : Reachable stakingStep ReferencesBounded .empty s) (v : ValId) :
    (s.pool v).Kept s.epoch s.inBoundary := by
  have hguard (s : Storage) (tx) (s' : Storage) (hg : ReferencesBounded s tx s') :
      s'.epoch < 2 ^ 63 := hg.1
  have hepoch := reachable_epoch_lt hguard h
  exact ⟨reachable_counted (fun _ _ _ => id) h v, reachable_ledger hguard h v,
    ((reachable_inOrder h (by omega)).2 v).2⟩

/-- Reachable states agree when their pools and terms do. -/
theorem agree_of_pools (hs : Reachable stakingStep ReferencesBounded .empty s)
    (ht : Reachable stakingStep ReferencesBounded .empty t) (hepoch : s.epoch = t.epoch)
    (hboundary : s.inBoundary = t.inBoundary)
    (hpools : ∀ v, (s.pool v).SameCells (t.pool v)) (hterms : SameTerms s.roster t.roster)
    (hkeyring : s.keyring = t.keyring)
    (hflags : ∀ v, ¬(s.validators v).Exists → (s.validators v).flags = (t.validators v).flags) :
    Agree s t := by
  have hguard (s : Storage) (tx) (s' : Storage) (hg : ReferencesBounded s tx s') :
      s'.epoch < 2 ^ 63 := hg.1
  have hdelegators : s.delegators = t.delegators := funext fun v => (hpools v).delegators_eq
  have hwithdrawals : s.withdrawals = t.withdrawals := funext fun v => (hpools v).withdrawals_eq
  have hauth (v : ValId) : (s.validators v).authAddress = (t.validators v).authAddress :=
    (congrFun hterms.authAddress_eq v).symm
  have hstanding := reachable_standing hguard hs
  have hstanding' := reachable_standing hguard ht
  have hvalidators : s.validators = t.validators := by
    funext v
    refine (Validator.mk.injEq ..).mpr ⟨(hpools v).stake_eq, (hpools v).acc_eq,
      (congrFun hterms.commission_eq v).symm, congrFun (congrArg Keyring.secpPubkey hkeyring) v,
      congrFun (congrArg Keyring.blsPubkey hkeyring) v, hauth v, ?_, (hpools v).unclaimed_eq⟩
    by_cases hv : (s.validators v).Exists
    · have hstake : (s.validators v).stake = (t.validators v).stake := (hpools v).stake_eq
      have hv' : (t.validators v).Exists := by
        rw [Validator.Exists, ← hauth]
        exact hv
      rw [hstanding.flags_eq v id hv, hstanding'.flags_eq v id hv', hstake, Storage.authStake,
        Storage.authStake, hdelegators, hauth]
    · exact hflags v hv
  have hcandidates : s.candidates.Perm t.candidates := by
    refine (List.perm_ext_iff_of_nodup (hstanding.executionSet.nodup.filter _)
      (hstanding'.executionSet.nodup.filter _)).mpr fun v => ?_
    simp only [List.mem_filter, decide_eq_true_eq, ← hvalidators]
    refine and_congr_left fun hok => ⟨fun hmem => ?_, fun hmem => ?_⟩
    · have hv := hstanding.exists_of_mem v hmem
      rw [hvalidators] at hv hok
      exact hstanding'.mem_of_ok v id hv hok
    · have hv := hstanding'.exists_of_mem v hmem
      rw [← hvalidators] at hv
      exact hstanding.mem_of_ok v id hv hok
  have hmembers : SameMembers s t := by
    obtain ⟨delegatorsOf, validatorsOf, hlists, hmem⟩ := reachable_listsRight hguard hs
    obtain ⟨delegatorsOf', validatorsOf', hlists', hmem'⟩ := reachable_listsRight hguard ht
    refine ⟨delegatorsOf, validatorsOf, delegatorsOf', validatorsOf', hlists, hlists',
      fun v d => ?_, fun v d => ?_⟩
    · rw [(hmem v d).1, (hmem' v d).1, hdelegators]
    · rw [(hmem v d).2, (hmem' v d).2, hdelegators]
  have hbalance : s.balance = t.balance := by
    rw [balance_eq_liabilities hguard hs, balance_eq_liabilities hguard ht, Storage.liabilities,
      Storage.liabilities, hdelegators, hwithdrawals, hvalidators]
  obtain ⟨-, -, -, hview, hsnapshot, hconsensus, -⟩ :=
    takeSnapshot_views (reachable_valsetsRight hs).views
  obtain ⟨-, -, -, hview', hsnapshot', hconsensus', -⟩ :=
    takeSnapshot_views (reachable_valsetsRight ht).views
  have helected := electedIds_of_candidates hvalidators hcandidates
  refine ⟨hepoch, hboundary, hterms, hkeyring, hdelegators, hwithdrawals, ?_, hvalidators, hbalance,
    hmembers, hcandidates, ?_, funext fun v => ?_, funext fun v => ?_⟩
  · exact funext fun k => funext fun v => congrFun (hpools v).accumulators_eq k
  · rw [hconsensus, hconsensus', helected]
  · rw [hview, hview', Storage.takenView, Storage.takenView, helected, hvalidators]
  · rw [hsnapshot, hsnapshot']
    exact (congrFun hterms.consensusView_eq v).symm

/-- The account whose operation on a validator a call is. -/
def operator (v : ValId) (tx : Message × StakingCall) : Option Address :=
  match operation tx with
  | some (d, v') => if v' = v then some d else none
  | none => none

/-- The account whose operation a call is, on any validator. -/
def accountOf (tx : Message × StakingCall) : Option Address := (operation tx).map Prod.fst

/-- An operator operates on its validator. -/
theorem operator_eq_some {d : Address} : operator v tx = some d ↔ operation tx = some (d, v) := by
  unfold operator
  cases operation tx with
  | none => simp
  | some x =>
    obtain ⟨d', v'⟩ := x
    by_cases hv : v' = v <;> simp [hv]

/-- The operations of an account on a validator are among its operations. -/
theorem callsOf_operator (v : ValId) (d : Address) (txs : List (Message × StakingCall)) :
    callsOf (operator v) d txs =
      (callsOf accountOf d txs).filter fun tx => operator v tx = some d := by
  rw [callsOf, callsOf, List.filter_filter]
  refine List.filter_congr fun tx _ => ?_
  rw [eq_comm, Bool.and_eq_left_iff_imp]
  intro hop
  have hop := operator_eq_some.mp (of_decide_eq_true hop)
  simp [accountOf, hop]

/-- A reachable state after operations of any accounts on an earlier one. -/
structure Continues (s₀ s : Storage) : Prop where
  reachable : Reachable stakingStep ReferencesBounded .empty s
  epoch_eq : s.epoch = s₀.epoch
  inBoundary_eq : s.inBoundary = s₀.inBoundary
  since : ∀ v, (s₀.pool v).Since s₀.epoch (s.pool v)
  terms : SameTerms s₀.roster s.roster
  keyring_eq : s.keyring = s₀.keyring
  flags_eq : ∀ v, ¬(s₀.validators v).Exists → (s.validators v).flags = (s₀.validators v).flags

namespace Continues

variable {s₀ s' : Storage} {d : Address} (h : Continues s₀ s)

include h

/-- The epoch is in range. -/
theorem epoch_lt : s₀.epoch + 2 < 2 ^ 64 := by
  have hepoch := reachable_epoch_lt (fun _ _ _ hg => hg.1) h.reachable
  rw [← h.epoch_eq]
  omega

/-- Pools are right in the earlier epoch. -/
theorem kept (v : ValId) : (s.pool v).Kept s₀.epoch s₀.inBoundary := by
  rw [← h.epoch_eq, ← h.inBoundary_eq]
  exact reachable_kept h.reachable v

/-- No operation creates a validator. -/
theorem exists_iff (v : ValId) : (s.validators v).Exists ↔ (s₀.validators v).Exists := by
  have hauth : (s.validators v).authAddress = (s₀.validators v).authAddress :=
    congrFun h.terms.authAddress_eq v
  rw [Validator.Exists, Validator.Exists, hauth]

/-- An accepted operation leads its pool on. -/
theorem operatedTo (hop : operation tx = some (d, v)) (hstep : stakingStep s tx = .ok s') :
    (s.pool v).OperatedTo s₀.epoch s₀.inBoundary d tx (s'.pool v) := by
  have hlt := h.epoch_lt
  obtain ⟨-, hpool, hrun, hadmits, -, -⟩ := stakingStep_operates hop hstep
  have horder := (reachable_inOrder h.reachable (by rw [h.epoch_eq]; omega)).2 v
  rw [← h.epoch_eq, ← h.inBoundary_eq]
  exact ⟨hpool, hrun horder, hadmits horder⟩

/-- An accepted operation continues a state. -/
theorem operate (hop : operation tx = some (d, v)) (hstep : stakingStep s tx = .ok s')
    (hg : ReferencesBounded s tx s') : Continues s₀ s' := by
  obtain ⟨htouches, -, -, -, hterms, hkeyring⟩ := stakingStep_operates hop hstep
  have hreach : Reachable stakingStep ReferencesBounded .empty s' := .call tx h.reachable hstep hg
  have hepoch : s'.epoch = s₀.epoch := htouches.epoch_eq.trans h.epoch_eq
  have hboundary : s'.inBoundary = s₀.inBoundary := htouches.inBoundary_eq.trans h.inBoundary_eq
  have hkept := reachable_kept hreach v
  rw [hepoch, hboundary] at hkept
  refine ⟨hreach, hepoch, hboundary, fun v' => ?_, h.terms.trans hterms,
    hkeyring.trans h.keyring_eq, fun v' hv => ?_⟩
  · by_cases hv : v' = v
    · subst hv
      exact (h.since v').operate h.epoch_lt (h.kept v') hkept (h.operatedTo hop hstep)
    · have hoff : s'.pool v' = s.pool v' := htouches.pool_of_ne v' hv
      rw [hoff]
      exact h.since v'
  · have hnone := (h.exists_iff v').not.mpr hv
    have hnone' : ¬(s'.validators v').Exists := by
      rw [Validator.Exists, htouches.authAddress_eq]
      exact hnone
    have hkeeps :=
      (reachable_rosterStep (fun _ _ _ hg => hg.1) h.reachable hstep).flags_eq hnone hnone'
    exact hkeeps.trans (h.flags_eq v' hv)

end Continues

/-- What an operation on a validator moves: the holding of its account, which it finds as if the
account came first, and the unclaimed rewards, which pay it. -/
abbrev Operating (s₀ : Storage) (v : ValId) (s : Storage) (tx : Message × StakingCall)
    (s' : Storage) : Prop :=
  MovesOwn (operator v)
    (fun d holding tx => (((s₀.pool v).seated d holding).operated s₀.epoch s₀.inBoundary d
      tx).holding d)
    (fun d holding tx => ((s₀.pool v).seated d holding).paid s₀.epoch d tx)
    (fun s d => (s.pool v).holding d) (fun s => (s.pool v).unclaimed) s tx s'

/-- An accepted operation moves only what is its account's. -/
theorem Continues.operating {s₀ s' : Storage} {d : Address} (h : Continues s₀ s)
    (hop : operation tx = some (d, v)) (hstep : stakingStep s tx = .ok s') (v' : ValId) :
    Operating s₀ v' s tx s' := by
  have hoperated := h.operatedTo hop hstep
  have hoff (hv : v' ≠ v) : s'.pool v' = s.pool v' :=
    (stakingStep_operates hop hstep).touches.pool_of_ne v' hv
  have hown (c : Address) (hc : operator v' tx = some c) : c = d ∧ v' = v := by
    have heq := (operator_eq_some.mp hc).symm.trans hop
    simpa using heq
  refine ⟨fun c hc => ?_, fun c hc => ?_, fun c hc => ?_, fun hnone => ?_⟩
  · obtain ⟨rfl, rfl⟩ := hown c hc
    exact ((h.since v').operated h.epoch_lt (h.kept v') hoperated).1
  · by_cases hv : v' = v
    · subst hv
      have hne : c ≠ d := by
        rintro rfl
        exact hc (operator_eq_some.mpr hop)
      obtain ⟨hrecord, hrequests⟩ := (s.pool v').operated_off s₀.epoch s₀.inBoundary tx hne
      rw [← hoperated.eq] at hrecord hrequests
      exact Prod.ext hrecord hrequests
    · rw [hoff hv]
  · obtain ⟨rfl, rfl⟩ := hown c hc
    exact ((h.since v').operated h.epoch_lt (h.kept v') hoperated).2
  · have hv : v' ≠ v := by
      rintro rfl
      rw [operator_eq_some.mpr hop] at hnone
      cases hnone
    rw [hoff hv]

/-- Accepted runs of the same operations of each account on each validator end in states that
agree. -/
theorem agree_of_sameOperations (txs txs' : List (Message × StakingCall)) {t t' : Storage}
    (h : Reachable stakingStep ReferencesBounded .empty s)
    (hops : ∀ tx ∈ txs, (operation tx).isSome = true)
    (hops' : ∀ tx ∈ txs', (operation tx).isSome = true)
    (hsame : ∀ v d, callsOf (operator v) d txs = callsOf (operator v) d txs')
    (hrun : Runs stakingStep ReferencesBounded (fun _ _ => False) s txs t)
    (hrun' : Runs stakingStep ReferencesBounded (fun _ _ => False) s txs' t') : Agree t t' := by
  have hstart : Continues s s :=
    ⟨h, rfl, rfl, fun v => .refl _ _, .refl _, rfl, fun _ _ => rfl⟩
  have hends {txs : List (Message × StakingCall)} {t : Storage} (v : ValId)
      (hops : ∀ tx ∈ txs, (operation tx).isSome = true)
      (hrun : Runs stakingStep ReferencesBounded (fun _ _ => False) s txs t) :=
    hrun.own_parts (fun s tx s' hs htx hstep hg => by
      obtain ⟨⟨d, v'⟩, hop⟩ := Option.isSome_iff_exists.mp (hops tx htx)
      exact ⟨hs.operate hop hstep hg, hs.operating hop hstep v⟩) hstart
  obtain ⟨hcont, -⟩ := hends 0 hops hrun
  obtain ⟨hcont', -⟩ := hends 0 hops' hrun'
  have hpools (v : ValId) : (t.pool v).SameCells (t'.pool v) := by
    obtain ⟨-, hholding, hunclaimed⟩ := hends v hops hrun
    obtain ⟨-, hholding', hunclaimed'⟩ := hends v hops' hrun'
    have hkept := reachable_kept hcont.reachable v
    have hkept' := reachable_kept hcont'.reachable v
    rw [hcont.epoch_eq, hcont.inBoundary_eq] at hkept
    rw [hcont'.epoch_eq, hcont'.inBoundary_eq] at hkept'
    refine (hcont.since v).sameCells (hcont'.since v) hkept hkept' (funext fun d => ?_) ?_
    · rw [hholding d, hholding' d, hsame]
    · rw [hunclaimed, hunclaimed']
      simp only [hsame]
  refine agree_of_pools hcont.reachable hcont'.reachable
    (hcont.epoch_eq.trans hcont'.epoch_eq.symm)
    (hcont.inBoundary_eq.trans hcont'.inBoundary_eq.symm) hpools ?_
    (hcont.keyring_eq.trans hcont'.keyring_eq.symm) fun v hv => ?_
  · have hterms := hcont.terms
    have hterms' := hcont'.terms
    exact ⟨hterms'.1.trans hterms.1.symm, hterms'.2.trans hterms.2.symm,
      hterms'.3.trans hterms.3.symm, hterms'.4.trans hterms.4.symm, hterms'.5.trans hterms.5.symm,
      hterms'.6.trans hterms.6.symm, hterms'.7.trans hterms.7.symm⟩
  · have hauth : (t.validators v).authAddress = (s.validators v).authAddress :=
      congrFun hcont.terms.authAddress_eq v
    rw [Validator.Exists, hauth] at hv
    rw [hcont.flags_eq v hv, hcont'.flags_eq v hv]

/-- Interleavings of operations agree: two orders of the same operations that keep those of each
account in their order, accepted throughout, end in states that agree. -/
theorem interleavings_agree {txs txs' : List (Message × StakingCall)} {t t' : Storage}
    (h : Reachable stakingStep ReferencesBounded .empty s)
    (hops : ∀ tx ∈ txs, (operation tx).isSome = true)
    (hperm : txs.Perm txs')
    (horder : ∀ d, callsOf accountOf d txs = callsOf accountOf d txs')
    (hrun : Runs stakingStep ReferencesBounded (fun _ _ => False) s txs t)
    (hrun' : Runs stakingStep ReferencesBounded (fun _ _ => False) s txs' t') : Agree t t' := by
  refine agree_of_sameOperations txs txs' h hops (fun tx htx => hops tx (hperm.mem_iff.mpr htx))
    (fun v d => ?_) hrun hrun'
  rw [callsOf_operator, callsOf_operator, horder]

/-- A few orderly calls make a run from the opened state that keeps references countable. -/
theorem openedState_runs {calls : List (Message × StakingCall)}
    (pre : List (Message × StakingCall)) (hfew : (pre ++ calls).length < 2 ^ 63)
    (hs : runAll stakingStep orderlyCheck openedState pre = some s)
    (h : runAll stakingStep orderlyCheck s calls = some t) :
    Runs stakingStep ReferencesBounded (fun _ _ => False) s calls t := by
  induction calls generalizing pre s with
  | nil =>
    cases h
    exact .nil _
  | cons tx calls ih =>
    rw [runAll] at h
    split at h
    next s₁ hstep =>
      split at h
      next hcheck =>
        have hnext : runAll stakingStep orderlyCheck openedState (pre ++ [tx]) = some s₁ := by
          rw [runAll_append, hs, Option.bind_some, runAll, hstep]
          exact if_pos hcheck
        have hlength : (pre ++ [tx]).length ≤ (pre ++ tx :: calls).length := by simp
        have hreach := openedState_run (hlength.trans_lt hfew) hnext
        exact .call hstep ⟨(orderly_of_check hcheck).1, reachable_references_lt hreach⟩
          (ih (pre ++ [tx]) (by simpa using hfew) hnext h)
      next => cases h
    next => cases h

/-- In the opened state the auth address takes enough out for the validator to lose its standing and
is settled then, and somebody else puts as much in: the last may as well come first. -/
theorem interleavings_agree_opened : ∃ t t',
    Runs stakingStep ReferencesBounded (fun _ _ => False) openedState
      [(userMessage 7 0 opener_ne_staking, .undelegate 1 (10 ^ 22) 0),
        (userMessage 9 0 payer_ne_staking, .getDelegator 1 7),
        (userMessage 9 (10 ^ 22) payer_ne_staking, .delegate 1)] t ∧
    Runs stakingStep ReferencesBounded (fun _ _ => False) openedState
      [(userMessage 9 (10 ^ 22) payer_ne_staking, .delegate 1),
        (userMessage 7 0 opener_ne_staking, .undelegate 1 (10 ^ 22) 0),
        (userMessage 9 0 payer_ne_staking, .getDelegator 1 7)] t' ∧ Agree t t' := by
  have hruns (calls : List (Message × StakingCall)) (hfew : calls.length < 2 ^ 63)
      (hok : (runAll stakingStep orderlyCheck openedState calls).isSome = true) :
      ∃ t, Runs stakingStep ReferencesBounded (fun _ _ => False) openedState calls t := by
    obtain ⟨t, hrun⟩ := Option.isSome_iff_exists.mp hok
    exact ⟨t, openedState_runs [] hfew rfl hrun⟩
  obtain ⟨t, hrun⟩ := hruns [(userMessage 7 0 opener_ne_staking, .undelegate 1 (10 ^ 22) 0),
    (userMessage 9 0 payer_ne_staking, .getDelegator 1 7),
    (userMessage 9 (10 ^ 22) payer_ne_staking, .delegate 1)] (by decide) (by decide +kernel)
  obtain ⟨t', hrun'⟩ := hruns [(userMessage 9 (10 ^ 22) payer_ne_staking, .delegate 1),
    (userMessage 7 0 opener_ne_staking, .undelegate 1 (10 ^ 22) 0),
    (userMessage 9 0 payer_ne_staking, .getDelegator 1 7)] (by decide) (by decide +kernel)
  have hperm (a b c : Message × StakingCall) : [a, b, c].Perm [c, a, b] :=
    show ([a, b] ++ [c]).Perm ([c] ++ [a, b]) from List.perm_append_comm
  refine ⟨t, t', hrun, hrun', interleavings_agree openedState_referencesBounded
    (by simp [operation]) (hperm ..) (fun d => ?_) hrun hrun'⟩
  by_cases h₇ : (7 : Address) = d
  · subst h₇
    rfl
  · by_cases h₉ : (9 : Address) = d
    · subst h₉
      rfl
    · simp [callsOf, accountOf, operation, userMessage, h₇, h₉]

/-- Operations of different accounts commute: accepted in both orders, they end in states that
agree. -/
theorem operations_commute (h : Reachable stakingStep ReferencesBounded .empty s)
    (horders : BothOrders tx₁ tx₂ s s₁ s₁₂ s₂ s₂₁)
    (hcount : ∀ t ∈ [s₁, s₁₂, s₂, s₂₁], ∀ v k, (t.pool v).references k < 2 ^ 64) :
    Agree s₁₂ s₂₁ := by
  obtain ⟨⟨d₁, d₂, v₁, v₂, hop₁, hop₂, hne⟩, h₁, h₁₂, h₂, h₂₁⟩ := horders
  simp only [List.mem_cons, List.not_mem_nil, or_false, forall_eq_or_imp, forall_eq] at hcount
  obtain ⟨hcount₁, hcount₁₂, hcount₂, hcount₂₁⟩ := hcount
  have hepoch := reachable_epoch_lt (fun _ _ _ hg => hg.1) h
  have hkeeps {s t : Storage} {d : Address} {v : ValId} {tx : Message × StakingCall}
      (hop : operation tx = some (d, v)) (hstep : stakingStep s tx = .ok t) : t.epoch = s.epoch :=
    (stakingStep_operates hop hstep).touches.epoch_eq
  have hops₁ : (operation tx₁).isSome = true := Option.isSome_iff_exists.mpr ⟨_, hop₁⟩
  have hops₂ : (operation tx₂).isSome = true := Option.isSome_iff_exists.mpr ⟨_, hop₂⟩
  have hepoch₁ := hkeeps hop₁ h₁
  have hepoch₁₂ := hkeeps hop₂ h₁₂
  have hepoch₂ := hkeeps hop₂ h₂
  have hepoch₂₁ := hkeeps hop₁ h₂₁
  refine agree_of_sameOperations [tx₁, tx₂] [tx₂, tx₁] h (by simp [hops₁, hops₂])
    (by simp [hops₁, hops₂]) (fun v d => ?_)
    (.call h₁ ⟨by omega, hcount₁⟩ (.call h₁₂ ⟨by omega, hcount₁₂⟩ (.nil _)))
    (.call h₂ ⟨by omega, hcount₂⟩ (.call h₂₁ ⟨by omega, hcount₂₁⟩ (.nil _)))
  by_cases hd : operator v tx₁ = some d
  · have hother : operator v tx₂ ≠ some d := by
      intro hd'
      have heq := (operator_eq_some.mp hd).symm.trans hop₁
      have heq' := (operator_eq_some.mp hd').symm.trans hop₂
      simp only [Option.some.injEq, Prod.mk.injEq] at heq heq'
      exact hne (heq.1.symm.trans heq'.1)
    rw [callsOf_cons_self hd, callsOf_cons_of_ne hother, callsOf_cons_of_ne hother,
      callsOf_cons_self hd]
  · rw [callsOf_cons_of_ne hd]
    by_cases hd' : operator v tx₂ = some d
    · rw [callsOf_cons_self hd', callsOf_cons_self hd', callsOf_cons_of_ne hd]
    · rw [callsOf_cons_of_ne hd', callsOf_cons_of_ne hd', callsOf_cons_of_ne hd]

/-- In the opened state the auth address takes enough out for the validator to lose its standing,
and somebody else puts as much in: the two commute. -/
theorem operations_commute_opened : ∃ s₁ s₁₂ s₂ s₂₁,
    BothOrders (userMessage 7 0 opener_ne_staking, .undelegate 1 (10 ^ 22) 0)
      (userMessage 9 (10 ^ 22) payer_ne_staking, .delegate 1) openedState s₁ s₁₂ s₂ s₂₁ ∧
    Agree s₁₂ s₂₁ := by
  have hboth (tx tx' : Message × StakingCall) (hok : (runAll stakingStep orderlyCheck openedState
      [tx, tx']).isSome = true) : ∃ t t', stakingStep openedState tx = .ok t ∧
        stakingStep t tx' = .ok t' ∧ (∀ v k, (t.pool v).references k < 2 ^ 64) ∧
          ∀ v k, (t'.pool v).references k < 2 ^ 64 := by
    obtain ⟨t', hrun⟩ := Option.isSome_iff_exists.mp hok
    obtain ⟨t, hfirst, hstep, hstep'⟩ := runAll_pair hrun
    exact ⟨t, t', hstep, hstep', reachable_references_lt (openedState_run (by simp) hfirst),
      reachable_references_lt (openedState_run (by simp) hrun)⟩
  obtain ⟨s₁, s₁₂, h₁, h₁₂, hcount₁, hcount₁₂⟩ := hboth
    (userMessage 7 0 opener_ne_staking, .undelegate 1 (10 ^ 22) 0)
    (userMessage 9 (10 ^ 22) payer_ne_staking, .delegate 1) (by decide +kernel)
  obtain ⟨s₂, s₂₁, h₂, h₂₁, hcount₂, hcount₂₁⟩ := hboth
    (userMessage 9 (10 ^ 22) payer_ne_staking, .delegate 1)
    (userMessage 7 0 opener_ne_staking, .undelegate 1 (10 ^ 22) 0) (by decide +kernel)
  have horders : BothOrders (userMessage 7 0 opener_ne_staking, .undelegate 1 (10 ^ 22) 0)
      (userMessage 9 (10 ^ 22) payer_ne_staking, .delegate 1) openedState s₁ s₁₂ s₂ s₂₁ :=
    ⟨⟨7, 9, 1, 1, rfl, rfl, by decide⟩, h₁, h₁₂, h₂, h₂₁⟩
  refine ⟨s₁, s₁₂, s₂, s₂₁, horders,
    operations_commute openedState_referencesBounded horders fun t ht => ?_⟩
  simp only [List.mem_cons, List.not_mem_nil, or_false] at ht
  rcases ht with rfl | rfl | rfl | rfl
  · exact hcount₁
  · exact hcount₁₂
  · exact hcount₂
  · exact hcount₂₁

/-- In a crowd that counts one reference where there are `2 ^ 64 + 1`, settlements of two members do
not commute: the second one is credited from an entry that the first one has cleared. -/
theorem crowd_orders_differ : ¬∀ (tx₁ tx₂ : Message × StakingCall) (s s₁ s₁₂ s₂ s₂₁ : Storage),
    Reachable stakingStep (fun _ _ s' => s'.epoch < 2 ^ 63) .empty s →
      BothOrders tx₁ tx₂ s s₁ s₁₂ s₂ s₂₁ → Agree s₁₂ s₂₁ := by
  intro hall
  obtain ⟨s₀, s', s, hstart, h⟩ := exists_gathered (le_refl (2 ^ 64))
  have hreach : Reachable stakingStep (fun _ _ s' => s'.epoch < 2 ^ 63) .empty s :=
    (hstart.reachable_after h.after).mono fun _ _ _ hg => hg.1
  have hvalue : (userMessage 9 0 payer_ne_staking).callValue = 0 := rfl
  have hgas : gas.getDelegator ≤ (userMessage 9 0 payer_ne_staking).gasLimit := by decide
  have hstep {s t : Storage} {d : Address} {del : Delegator}
      (hpull : pullDelegatorUpToDate s 1 d = .ok (del, t)) :
      stakingStep s (userMessage 9 0 payer_ne_staking, .getDelegator 1 d) = .ok t :=
    settleStep_eq_ok.mpr ⟨hvalue, hgas, del, hpull⟩
  have hone : (1 : Fin (2 ^ 64)) ≠ 0 := by decide
  have htwo : (2 : Fin (2 ^ 64)) ≠ 0 := by decide
  have hne : (2 : Fin (2 ^ 64)) ≠ 1 := by decide
  obtain ⟨s₁, hfirst⟩ := h.settles hone
  obtain ⟨s₁₂, hfirstSecond⟩ := h.settles_cleared hone htwo hne hfirst
  obtain ⟨s₂, hsecond⟩ := h.settles htwo
  obtain ⟨s₂₁, hsecondFirst⟩ := h.settles_cleared htwo hone hne.symm hsecond
  have hagree := hall _ _ s s₁ s₁₂ s₂ s₂₁ hreach
    ⟨⟨crowd 1, crowd 2, 1, 1, rfl, rfl, by decide⟩, hstep hfirst, hstep hfirstSecond, hstep hsecond,
      hstep hsecondFirst⟩
  have hmuch := (pullDelegatorUpToDate_touches hfirstSecond).2.2
  have hnone : s₂₁.delegators 1 (crowd 2) = s₂.delegators 1 (crowd 2) := by
    have hoff := ((s₂.pool 1).pulled_upkeep s₂.epoch (crowd 1)).off (crowd 2) (by decide)
    rwa [← pullDelegatorUpToDate_pool hsecondFirst] at hoff
  rw [(pullDelegatorUpToDate_touches hsecond).2.2] at hnone
  have hsame := congrFun (congrFun hagree.delegators_eq 1) (crowd 2)
  rw [hmuch, hnone] at hsame
  exact absurd (congrArg Delegator.rewards hsame) (by decide)

end States

end SuwappuRevm.Staking
