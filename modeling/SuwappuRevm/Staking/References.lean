import Mathlib.Data.Fintype.BigOperators
import SuwappuRevm.Staking.AccountSteps

/-!
# Reference counts of the accumulator entries

A pending track and an open withdrawal request each hold one reference to the entry of their epoch.
Quiet steps move no reference to another epoch and drop at most one; entering steps take at most
one. So the stored count of an entry is the number of its references as long as that number fits,
and no settlement or withdrawal drops a reference that is not there.
-/

namespace SuwappuRevm.Staking

open Foundations Finset

namespace Pool

variable {cur act : ℕ} {b : Bool} {p p' : Pool} {i o : ℕ}

/-- The counts of a pool: an entry counts its references, an uncounted entry is cleared, and an
open request has an epoch. -/
structure Counted (p : Pool) : Prop where
  refcount_eq : ∀ k, (p.accumulators k).refcount = p.references k
  cleared : ∀ k, (p.accumulators k).refcount = 0 → p.accumulators k = ⟨0, 0⟩
  request_epoch : ∀ d w, (p.withdrawals d w).amount ≠ 0 → (p.withdrawals d w).epoch ≠ 0

/-- A referenced entry has a count. -/
theorem Counted.refcount_pos (hp : p.Counted) {d : Address} {k : ℕ} (h : 0 < p.referencesOf d k) :
    0 < (p.accumulators k).refcount := by
  rw [hp.refcount_eq]
  exact h.trans_le (cell_le_sum (fun d => p.referencesOf d k) d)

/-- A step on one account that keeps its references or drops one. -/
structure Releases (p : Pool) (d : Address) (p' : Pool) : Prop where
  off : ∀ d', d' ≠ d →
    p'.delegators d' = p.delegators d' ∧ p'.withdrawals d' = p.withdrawals d'
  request : ∀ w, (p'.withdrawals d w).amount ≠ 0 → p'.withdrawals d w = p.withdrawals d w
  move : (p'.accumulators = p.accumulators ∧ ∀ k, p'.referencesOf d k = p.referencesOf d k) ∨
    ∃ e, e ≠ 0 ∧ p'.accumulators = (p.release e).accumulators ∧
      ∀ k, p'.referencesOf d k + refersTo e k = p.referencesOf d k

/-- A step that writes one record with the same references keeps them. -/
theorem Releases.ofRecord {d : Address} {r : Delegator}
    (hdelegators : p'.delegators = Function.update p.delegators d r)
    (hwithdrawals : p'.withdrawals = p.withdrawals)
    (haccumulators : p'.accumulators = p.accumulators)
    (hrefs : ∀ k, r.references k = (p.delegators d).references k) : p.Releases d p' := by
  refine ⟨fun d' hd => ?_, fun w _ => ?_, .inl ⟨haccumulators, fun k => ?_⟩⟩
  · rw [hdelegators, hwithdrawals, Function.update_of_ne hd]
    exact ⟨rfl, rfl⟩
  · rw [hwithdrawals]
  · rw [referencesOf, referencesOf, hdelegators, hwithdrawals, Function.update_self, hrefs]

/-- Quiet steps keep the references of one account or drop one. -/
theorem Quiet.releases (h : p.Quiet cur b i o p') : ∃ d, p.Releases d p' := by
  cases h with
  | promote d hdelta hnext hle =>
    refine ⟨d, .ofRecord rfl rfl rfl fun k => ?_⟩
    simp only [Delegator.references, Delegator.shiftNext, hdelta, refersTo_zero, Nat.zero_add,
      Nat.add_zero]
  | compound d rewards hdelta hle hacc hrewards hsolvent =>
    refine ⟨d, fun d' hd => ⟨Function.update_of_ne hd .., rfl⟩, fun w _ => rfl,
      .inr ⟨(p.delegators d).deltaEpoch, hdelta, rfl, fun k => ?_⟩⟩
    have hself : (p.compound d rewards).delegators d = (p.delegators d).compounded
        (p.entryValue (p.delegators d).deltaEpoch) rewards := Function.update_self ..
    have hwithdrawals : (p.compound d rewards).withdrawals = p.withdrawals := rfl
    rw [referencesOf, referencesOf, hself, hwithdrawals]
    simp only [Delegator.references, Delegator.compounded, Delegator.shiftNext, refersTo_zero]
    omega
  | accrue d rewards => exact ⟨d, .ofRecord rfl rfl rfl fun k => rfl⟩
  | take d => exact ⟨d, .ofRecord rfl rfl rfl fun k => rfl⟩
  | pay d w rewards hamount hepoch hready hacc hrewards hsolvent =>
    have hself : (p.pay d w rewards).withdrawals d =
        Function.update (p.withdrawals d) w .zero := Function.update_self ..
    refine ⟨d, fun d' hd => ⟨rfl, Function.update_of_ne hd ..⟩, fun w' hne => ?_,
      .inr ⟨(p.withdrawals d w).epoch, hepoch, rfl, fun k => ?_⟩⟩
    · by_cases heq : w' = w
      · rw [hself, heq, Function.update_self] at hne
        exact absurd rfl hne
      · rw [hself, Function.update_of_ne heq]
    · have hcell := sum_update_add (fun q => q.references k) (p.withdrawals d) w .zero
      have hzero : WithdrawalRequest.zero.references k = 0 := if_pos rfl
      have hold : (p.withdrawals d w).references k = refersTo (p.withdrawals d w).epoch k :=
        if_neg hamount
      have hrecord : (p.pay d w rewards).delegators = p.delegators := rfl
      rw [referencesOf, referencesOf, hself, hrecord]
      omega
  | commission d amount => exact ⟨d, .ofRecord rfl rfl rfl fun k => rfl⟩
  | reward amount => exact ⟨0, fun d' _ => ⟨rfl, rfl⟩, fun w _ => rfl, .inl ⟨rfl, fun k => rfl⟩⟩

/-- A step on one account that keeps its references or takes one. -/
structure Retains (act : ℕ) (p : Pool) (d : Address) (p' : Pool) : Prop where
  off : ∀ d', d' ≠ d →
    p'.delegators d' = p.delegators d' ∧ p'.withdrawals d' = p.withdrawals d'
  request : ∀ w, (p'.withdrawals d w).amount ≠ 0 → p'.withdrawals d w = p.withdrawals d w ∨
    (p'.withdrawals d w).epoch = act
  move : (p'.accumulators = p.accumulators ∧ ∀ k, p'.referencesOf d k = p.referencesOf d k) ∨
    p'.accumulators = (p.retain act).accumulators ∧
      ∀ k, p'.referencesOf d k = p.referencesOf d k + refersTo act k

/-- Entering steps keep the references of one account or take one. -/
theorem Enter.retains (hcur : cur + 2 < 2 ^ 64) (hepochs : p.EpochsOk cur b)
    (h : p.Enter cur b i p') : ∃ d, p.Retains (activationEpoch cur b) d p' := by
  have hact := activationEpoch_ne_zero hcur b
  cases h with
  | join d amount hamount hsettled =>
    have htrack := hsettled.trackEpoch_eq (hepochs d)
    rw [← activationEpoch_eq hcur] at htrack
    have hrefs : ∀ k, (p.join b (activationEpoch cur b) d i).referencesOf d k =
        p.referencesOf d k + if (p.delegators d).trackEpoch b = 0 then
          refersTo (activationEpoch cur b) k else 0 := join_references hact htrack
    have hentries : (p.join b (activationEpoch cur b) d i).accumulators =
        if (p.delegators d).trackEpoch b = 0 then (p.retain (activationEpoch cur b)).accumulators
        else p.accumulators := rfl
    refine ⟨d, fun d' hd => ⟨Function.update_of_ne hd .., rfl⟩, fun w _ => .inl rfl, ?_⟩
    by_cases hneed : (p.delegators d).trackEpoch b = 0
    · exact .inr ⟨hentries.trans (if_pos hneed), fun k => by rw [hrefs, if_pos hneed]⟩
    · exact .inl ⟨hentries.trans (if_neg hneed), fun k => by rw [hrefs, if_neg hneed, Nat.add_zero]⟩
  | leave d w amount hamount hle hpool hfree =>
    have hself : (p.leave (activationEpoch cur b) d w amount).withdrawals d =
        Function.update (p.withdrawals d) w ⟨amount, (p.delegators d).accumulatedRewardPerToken,
          activationEpoch cur b⟩ := Function.update_self ..
    refine ⟨d, fun d' hd => ⟨Function.update_of_ne hd .., Function.update_of_ne hd ..⟩,
      fun w' _ => ?_, .inr ⟨rfl, leave_references hamount hfree⟩⟩
    by_cases heq : w' = w
    · rw [hself, heq, Function.update_self]
      exact .inr rfl
    · rw [hself, Function.update_of_ne heq]
      exact .inl rfl

/-- Quiet steps take no reference. -/
theorem Quiet.references_le (h : p.Quiet cur b i o p') (k : ℕ) :
    p'.references k ≤ p.references k := by
  obtain ⟨d, hoff, -, ⟨-, hrefs⟩ | ⟨e, -, -, hrefs⟩⟩ := h.releases
  · have hmove := references_off hoff k
    have hsame := hrefs k
    omega
  · have hmove := references_off hoff k
    have hdrop := hrefs k
    omega

/-- Quiet runs take no reference. -/
theorem QuietRun.references_le (h : p.QuietRun cur b i o p') (k : ℕ) :
    p'.references k ≤ p.references k := by
  induction h with
  | refl => exact le_rfl
  | step _ hstep ih => exact (hstep.references_le k).trans ih

/-- A run takes at most one reference. -/
theorem Run.references_le (hcur : cur + 2 < 2 ^ 64) (hepochs : p.EpochsOk cur b)
    (h : p.Run cur b i o p') (k : ℕ) : p'.references k ≤ p.references k + 1 := by
  cases h with
  | quiet hrun => exact (hrun.references_le k).trans (Nat.le_succ _)
  | enter hrun hstep =>
    have hquiet := hrun.references_le k
    have hone : refersTo (activationEpoch cur b) k ≤ 1 := by
      unfold refersTo
      split <;> omega
    obtain ⟨d, hoff, -, ⟨-, hrefs⟩ | ⟨-, hrefs⟩⟩ := hstep.retains hcur (hrun.epochsOk hepochs)
    · have hmove := references_off hoff k
      have hsame := hrefs k
      omega
    · have hmove := references_off hoff k
      have htake := hrefs k
      omega

/-- Quiet steps keep the counts. -/
theorem Quiet.counted (hp : p.Counted) (h : p.Quiet cur b i o p') : p'.Counted := by
  obtain ⟨d, hoff, hrequest, hmove⟩ := h.releases
  have hopen (d' : Address) (w : WithdrawId) (hne : (p'.withdrawals d' w).amount ≠ 0) :
      (p'.withdrawals d' w).epoch ≠ 0 := by
    have hsame : p'.withdrawals d' w = p.withdrawals d' w := by
      by_cases hd : d' = d
      · subst hd
        exact hrequest w hne
      · rw [(hoff d' hd).2]
    rw [hsame] at hne ⊢
    exact hp.request_epoch d' w hne
  rcases hmove with ⟨haccs, hrefs⟩ | ⟨e, he, haccs, hrefs⟩
  · refine ⟨fun k => ?_, fun k => ?_, hopen⟩
    · have hsum := references_off hoff k
      have hsame := hrefs k
      have hcount := hp.refcount_eq k
      rw [haccs]
      omega
    · rw [haccs]
      exact hp.cleared k
  · have hself : refersTo e e = 1 := if_pos ⟨rfl, he⟩
    have hpos : 0 < p.referencesOf d e := by
      have hdrop := hrefs e
      omega
    refine ⟨fun k => ?_, fun k hzero => ?_, hopen⟩
    · have hsum := references_off hoff k
      have hdrop := hrefs k
      have hcount := hp.refcount_eq k
      have hrelease := release_refcount (hp.refcount_pos hpos) he k
      rw [haccs]
      omega
    · rw [haccs] at hzero ⊢
      by_cases hk : k = e
      · subst hk
        have hlive := (hp.refcount_pos hpos).ne'
        simp only [release, setEntry, Function.update_self, releaseEntry, if_neg hlive] at hzero ⊢
        split_ifs at hzero ⊢ with hone
        · rfl
        · exact absurd hzero hone
      · simp only [release, setEntry, Function.update_of_ne hk] at hzero ⊢
        exact hp.cleared k hzero

/-- Quiet runs keep the counts. -/
theorem QuietRun.counted (hp : p.Counted) (h : p.QuietRun cur b i o p') : p'.Counted :=
  h.preserves Counted (fun _ _ _ _ hp hstep => hstep.counted hp) hp

/-- Entering steps keep the counts while the references can be counted. -/
theorem Enter.counted (hcur : cur + 2 < 2 ^ 64) (hepochs : p.EpochsOk cur b) (hp : p.Counted)
    (hcount : ∀ k, p'.references k < 2 ^ 64) (h : p.Enter cur b i p') : p'.Counted := by
  have hact := activationEpoch_ne_zero hcur b
  obtain ⟨d, hoff, hrequest, hmove⟩ := h.retains hcur hepochs
  generalize activationEpoch cur b = act at *
  have hopen (d' : Address) (w : WithdrawId) (hne : (p'.withdrawals d' w).amount ≠ 0) :
      (p'.withdrawals d' w).epoch ≠ 0 := by
    by_cases hd : d' = d
    · subst hd
      rcases hrequest w hne with hsame | hepoch
      · rw [hsame] at hne ⊢
        exact hp.request_epoch d' w hne
      · rw [hepoch]
        exact hact
    · rw [(hoff d' hd).2] at hne ⊢
      exact hp.request_epoch d' w hne
  rcases hmove with ⟨haccs, hrefs⟩ | ⟨haccs, hrefs⟩
  · refine ⟨fun k => ?_, fun k => ?_, hopen⟩
    · have hsum := references_off hoff k
      have hsame := hrefs k
      have hold := hp.refcount_eq k
      rw [haccs]
      omega
    · rw [haccs]
      exact hp.cleared k
  · have hself : refersTo act act = 1 := if_pos ⟨rfl, hact⟩
    have hwrap : (p.accumulators act).refcount + 1 < 2 ^ 64 := by
      have hsum := references_off hoff act
      have htake := hrefs act
      have hold := hp.refcount_eq act
      have hbound := hcount act
      omega
    refine ⟨fun k => ?_, fun k hzero => ?_, hopen⟩
    · have hsum := references_off hoff k
      have htake := hrefs k
      have hold := hp.refcount_eq k
      rw [haccs, retain_refcount hwrap hact]
      omega
    · rw [haccs, retain_refcount hwrap hact] at hzero
      by_cases hk : k = act
      · rw [hk, hself] at hzero
        omega
      · rw [haccs]
        simp only [Pool.retain, setEntry, Function.update_of_ne hk]
        exact hp.cleared k (by omega)

/-- Runs keep the counts while the references can be counted. -/
theorem Run.counted (hcur : cur + 2 < 2 ^ 64) (hepochs : p.EpochsOk cur b) (hp : p.Counted)
    (hcount : ∀ k, p'.references k < 2 ^ 64) (h : p.Run cur b i o p') : p'.Counted := by
  cases h with
  | quiet hrun => exact hrun.counted hp
  | enter hrun hstep =>
    exact hstep.counted hcur (hrun.epochsOk hepochs) (hrun.counted hp) hcount

/-- The references are those of the accounts. -/
theorem references_congr (hdelegators : p'.delegators = p.delegators)
    (hwithdrawals : p'.withdrawals = p.withdrawals) (k : ℕ) : p'.references k = p.references k := by
  unfold references referencesOf
  rw [hdelegators, hwithdrawals]

/-- An evolution takes at most one reference. -/
theorem Evolves.references_le {cur' : ℕ} {b' : Bool} (hcur : cur + 2 < 2 ^ 64)
    (hepochs : p.EpochsOk cur b) (h : p.Evolves cur b cur' b' p') (k : ℕ) :
    p'.references k ≤ p.references k + 1 := by
  cases h with
  | idle => exact Nat.le_succ _
  | run hrun => exact hrun.references_le hcur hepochs k
  | snapshot hboundary hsnap =>
    rw [references_congr hsnap.delegators_eq hsnap.withdrawals_eq]
    exact Nat.le_succ _
  | refresh next hlt =>
    have hsame : (p.refreshed cur' (u64Add cur' 1)).references k = p.references k :=
      references_congr rfl rfl k
    rw [hsame]
    exact Nat.le_succ _
  | skip next hlt => exact Nat.le_succ _

/-- Evolutions keep the counts while the references can be counted. -/
theorem Evolves.counted {cur' : ℕ} {b' : Bool} (hcur : cur + 2 < 2 ^ 64)
    (hepochs : p.EpochsOk cur b) (hp : p.Counted) (hcount : ∀ k, p'.references k < 2 ^ 64)
    (h : p.Evolves cur b cur' b' p') : p'.Counted := by
  cases h with
  | idle => exact hp
  | run hrun => exact hrun.counted hcur hepochs hp hcount
  | snapshot hboundary hsnap =>
    refine ⟨fun k => ?_, fun k => ?_, fun d w => ?_⟩
    · rw [hsnap.accumulators_eq, references_congr hsnap.delegators_eq hsnap.withdrawals_eq]
      exact hp.refcount_eq k
    · rw [hsnap.accumulators_eq]
      exact hp.cleared k
    · rw [hsnap.withdrawals_eq]
      exact hp.request_epoch d w
  | refresh next hlt =>
    refine ⟨fun k => ?_, fun k hzero => ?_, hp.request_epoch⟩
    · have hsame : (p.refreshed cur' (u64Add cur' 1)).references k = p.references k :=
        references_congr rfl rfl k
      rw [refreshed_refcount, hsame]
      exact hp.refcount_eq k
    · rw [refreshed_refcount] at hzero
      have hentry : (p.refreshed cur' (u64Add cur' 1)).accumulators k = p.accumulators k := by
        simp [Pool.refreshed, RefCountedAccumulator.refreshed, hzero]
      rw [hentry]
      exact hp.cleared k hzero
  | skip next hlt => exact hp

/-- The references as numbers of pending tracks and open requests; epoch `0` is no epoch. -/
theorem Counted.references_eq_card (hp : p.Counted) (k : ℕ) : p.references k =
    #{d | (p.delegators d).deltaEpoch = k ∧ k ≠ 0} +
      #{d | (p.delegators d).nextDeltaEpoch = k ∧ k ≠ 0} +
      #{x : Address × WithdrawId | (p.withdrawals x.1 x.2).amount ≠ 0 ∧
        (p.withdrawals x.1 x.2).epoch = k} := by
  have hrequests : #{x : Address × WithdrawId | (p.withdrawals x.1 x.2).amount ≠ 0 ∧
      (p.withdrawals x.1 x.2).epoch = k} = ∑ d, ∑ w, (p.withdrawals d w).references k := by
    rw [Finset.card_filter, Fintype.sum_prod_type]
    refine Finset.sum_congr rfl fun d _ => Finset.sum_congr rfl fun w _ => ?_
    have hepoch := hp.request_epoch d w
    dsimp only
    unfold WithdrawalRequest.references refersTo
    split_ifs <;> first | rfl | omega
  rw [hrequests, Finset.card_filter, Finset.card_filter, ← Finset.sum_add_distrib,
    ← Finset.sum_add_distrib]
  rfl

/-- The counts of an empty pool. -/
theorem counted_empty (v : ValId) : (Storage.empty.pool v).Counted := by
  refine ⟨fun k => ?_, fun _ _ => rfl, fun _ _ hne => absurd rfl hne⟩
  refine (Finset.sum_eq_zero fun d _ => ?_).symm
  have hrecord : ((Storage.empty.pool v).delegators d).references k = 0 := by
    change refersTo 0 k + refersTo 0 k = 0
    rw [refersTo_zero]
  rw [referencesOf, hrecord, Nat.zero_add]
  exact Finset.sum_eq_zero fun w _ => if_pos rfl

end Pool

/-- Runs whose epoch numbers stay below `2 ^ 63` and in which no entry is referenced `2 ^ 64`
times. -/
def ReferencesBounded (_ : Storage) (_ : Message × StakingCall) (s' : Storage) : Prop :=
  s'.epoch < 2 ^ 63 ∧ ∀ v k, (s'.pool v).references k < 2 ^ 64

section Reachable

variable {guard : Storage → Message × StakingCall → Storage → Prop} {s s' : Storage}

/-- The counts of every pool are exact in every state of a run that keeps them countable. -/
theorem reachable_counted (hguard : ∀ s tx s', guard s tx s' → ReferencesBounded s tx s')
    (h : Reachable stakingStep guard .empty s) (v : ValId) : (s.pool v).Counted := by
  have hepoch := reachable_epoch_lt (fun s tx s' hg => (hguard s tx s' hg).1) h
  refine reachable_pool (fun _ _ p => p.Counted) Pool.counted_empty ?_ h (by omega) v
  intro s tx s' v hg hs horder hp hevolves
  have hle := stakingStep_epoch_le hs
  obtain ⟨hbound, hcount⟩ := hguard s tx s' hg
  exact hevolves.counted (by omega) horder.2 hp (hcount v)

/-- A run of few calls keeps the references countable, since a call takes at most one reference to
an entry. -/
theorem reachable_of_few {check : Storage → Message × StakingCall → Storage → Bool}
    {calls : List (Message × StakingCall)}
    (hepoch : ∀ s tx s', check s tx s' = true → s'.epoch < 2 ^ 63)
    (hguard : ∀ s tx s', check s tx s' = true → (∀ v k, (s'.pool v).references k < 2 ^ 64) →
      guard s tx s')
    (hs : Reachable stakingStep guard .empty s)
    (hfew : ∀ v k, (s.pool v).references k + calls.length < 2 ^ 64)
    (h : runAll stakingStep check s calls = some s') : Reachable stakingStep guard .empty s' := by
  induction calls generalizing s with
  | nil =>
    cases h
    exact hs
  | cons tx calls ih =>
    rw [runAll] at h
    split at h
    next s₁ hstep =>
      split at h
      next hcheck =>
        have hlt := hepoch s tx s₁ hcheck
        have hle := stakingStep_epoch_le hstep
        obtain ⟨hreg, horder⟩ := reachable_inOrder hs (by omega)
        obtain ⟨-, heffect⟩ := stakingStep_effect hreg horder hstep
        have hcount (v : ValId) (k : ℕ) : (s₁.pool v).references k + calls.length < 2 ^ 64 := by
          have hstep := (heffect.evolves v).references_le (by omega) (horder v).2 k
          have hold := hfew v k
          rw [List.length_cons] at hold
          omega
        refine ih (.call tx hs hstep (hguard s tx s₁ hcheck fun v k => ?_)) hcount h
        exact lt_of_le_of_lt (Nat.le_add_right ..) (hcount v k)
      next => cases h
    next => cases h

end Reachable

/-- The `decrement_accumulator_refcount` calls of a settlement: the epoch of the entry and the
storage at the call. -/
inductive PullDecrements (s : Storage) (v : ValId) (d : Address) : ℕ → Storage → Prop
  | boundary (hcan : isEpochActive s.epoch
      (promoteNext s.epoch (s.delegators v d)).nextDeltaEpoch = true) :
      PullDecrements s v d (promoteNext s.epoch (s.delegators v d)).deltaEpoch s
  | main {x : Settling}
      (hboundary : compoundIf (isEpochActive s.epoch
        (promoteNext s.epoch (s.delegators v d)).nextDeltaEpoch) v d
          ⟨s, promoteNext s.epoch (s.delegators v d), (s.validators v).unclaimedRewards⟩ = .ok x)
      (hcan : isEpochActive s.epoch
        (promoteNext s.epoch (s.delegators v d)).deltaEpoch = true) :
      PullDecrements s v d x.del.deltaEpoch x.storage

/-- The `pull_delegator_up_to_date` calls of a method, guards before them left out: the validator,
the delegator and the storage at the call. -/
inductive Pulls (s : Storage) (msg : Message) : StakingCall → ValId → Address → Storage → Prop
  | addValidator (payload : Bytes) {v : ValId} {s₁ : Storage} {secpPubkey blsPubkey : Bytes}
      {authAddress : Address} {commission : ℕ}
      (hcreate : createValidator s secpPubkey blsPubkey authAddress commission = .ok (v, s₁)) :
      Pulls s msg (.addValidator payload) v authAddress s₁
  | delegate (v : ValId) : Pulls s msg (.delegate v) v msg.caller s
  | undelegate (v : ValId) (amount : ℕ) (w : WithdrawId) :
      Pulls s msg (.undelegate v amount w) v msg.caller s
  | compound (v : ValId) : Pulls s msg (.compound v) v msg.caller s
  | compoundDelegate (v : ValId) {del : Delegator} {s₁ : Storage}
      (hpull : pullDelegatorUpToDate s v msg.caller = .ok (del, s₁)) (hrewards : del.rewards ≠ 0) :
      Pulls s msg (.compound v) v msg.caller (takeRewards s₁ v msg.caller del)
  | claimRewards (v : ValId) : Pulls s msg (.claimRewards v) v msg.caller s
  | getDelegator (v : ValId) (d : Address) : Pulls s msg (.getDelegator v d) v d s

/-- The `decrement_accumulator_refcount` calls of a method: those of its settlements, and one of a
withdrawal of an open request. -/
inductive Decrements (s : Storage) (msg : Message) : StakingCall → ValId → ℕ → Storage → Prop
  | settlement {call : StakingCall} {v : ValId} {d : Address} {k : ℕ} {s₁ s₂ : Storage}
      (hpull : Pulls s msg call v d s₁) (hdec : PullDecrements s₁ v d k s₂) :
      Decrements s msg call v k s₂
  | withdraw (v : ValId) (w : WithdrawId) (hamount : (s.withdrawals v msg.caller w).amount ≠ 0) :
      Decrements s msg (.withdraw v w) v (s.withdrawals v msg.caller w).epoch s

/-- A record's first track holds a reference. -/
theorem Pool.Counted.delta_pos {p : Pool} (hp : p.Counted) (d : Address)
    (hdelta : (p.delegators d).deltaEpoch ≠ 0) :
    0 < (p.accumulators (p.delegators d).deltaEpoch).refcount := by
  have hself : refersTo (p.delegators d).deltaEpoch (p.delegators d).deltaEpoch = 1 :=
    if_pos ⟨rfl, hdelta⟩
  have hrefs : 0 < p.referencesOf d (p.delegators d).deltaEpoch := by
    rw [Pool.referencesOf, Delegator.references]
    omega
  exact hp.refcount_pos hrefs

/-- A settlement drops references that are there. -/
theorem PullDecrements.live {s s₁ : Storage} {v : ValId} {d : Address} {k : ℕ}
    (horder : s.InOrder v) (hp : (s.pool v).Counted) (h : PullDecrements s v d k s₁) :
    (s₁.accumulators k v).refcount ≠ 0 := by
  obtain ⟨hcur, hepochs⟩ := horder
  obtain ⟨hok, hnext⟩ := promoteNext_epochs hcur (hepochs d)
  have hpromote : (s.pool v).QuietRun s.epoch s.inBoundary 0 0
      ((s.pool v).setDelegator d (promoteNext s.epoch (s.delegators v d))) :=
    promoteNext_quiet hcur
  have hstart := hpromote.counted hp
  have hdel (r : Delegator) : ((s.pool v).setDelegator d r).delegators d = r :=
    Function.update_self ..
  cases h with
  | boundary hcan =>
    have hlive := hstart.delta_pos d
    rw [hdel] at hlive
    exact (hlive (first_active hok hnext hcan).1).ne'
  | @main x hboundary hcan =>
    have hfirst := first_active hok hnext
    obtain ⟨hrun, hsame, hshift⟩ := compoundIf_quiet s.inBoundary hfirst hboundary
    have hactive := second_active hsame (fun hcan => (hshift hcan).1) hcan
    have hlive := (hrun.counted hstart).delta_pos d
    rw [x.poolAt_delegators] at hlive
    exact (hlive hactive.1).ne'

/-- Every settlement of a method starts in order and with exact counts. -/
theorem Pulls.start {s s₁ : Storage} {msg : Message} {call : StakingCall} {v : ValId}
    {d : Address} (hs : Registered s) (horder : ∀ v, s.InOrder v)
    (hp : ∀ v, (s.pool v).Counted) (h : Pulls s msg call v d s₁) :
    s₁.InOrder v ∧ (s₁.pool v).Counted := by
  cases h with
  | addValidator payload hcreate =>
    obtain ⟨-, -, hpool, -, hepoch, hboundary, -⟩ := createValidator_spec hs hcreate
    rw [Storage.InOrder, hpool, hepoch, hboundary]
    exact ⟨horder v, hp v⟩
  | delegate => exact ⟨horder v, hp v⟩
  | undelegate => exact ⟨horder v, hp v⟩
  | compound => exact ⟨horder v, hp v⟩
  | @compoundDelegate _ del s₂ hpull hrewards =>
    obtain ⟨htouches, -, hdel⟩ := pullDelegatorUpToDate_touches hpull
    obtain ⟨hrun, -⟩ := pullDelegatorUpToDate_spec (horder v).1 ((horder v).2 msg.caller) hpull
    obtain ⟨htouches₂, -, hstep⟩ := takeRewards_quiet hdel hrewards
    rw [htouches.epoch_eq, htouches.inBoundary_eq] at hstep
    have htaken := hrun.trans (.single hstep)
    exact ⟨(horder v).quiet (htouches.trans htouches₂) htaken, htaken.counted (hp v)⟩
  | claimRewards => exact ⟨horder v, hp v⟩
  | getDelegator => exact ⟨horder v, hp v⟩

/-- Exact counts: in every reachable state the count of an entry is the number of pending tracks
and open requests of its epoch, an entry without count is cleared, and no method drops a reference
of an entry without count. -/
theorem refcounts_exact {s : Storage} (h : Reachable stakingStep ReferencesBounded .empty s)
    (v : ValId) :
    (∀ k, (s.accumulators k v).refcount =
        #{d | (s.delegators v d).deltaEpoch = k ∧ k ≠ 0} +
          #{d | (s.delegators v d).nextDeltaEpoch = k ∧ k ≠ 0} +
          #{x : Address × WithdrawId | (s.withdrawals v x.1 x.2).amount ≠ 0 ∧
            (s.withdrawals v x.1 x.2).epoch = k} ∧
      ((s.accumulators k v).refcount = 0 → s.accumulators k v = ⟨0, 0⟩)) ∧
    ∀ msg call k s₁, Decrements (s.credit (income msg call)) msg call v k s₁ →
      (s₁.accumulators k v).refcount ≠ 0 := by
  have hguard (s : Storage) (tx) (s' : Storage) (hg : ReferencesBounded s tx s') :
      ReferencesBounded s tx s' := hg
  have hepoch := reachable_epoch_lt (fun s tx s' hg => (hguard s tx s' hg).1) h
  obtain ⟨hreg, horder⟩ := reachable_inOrder h (by omega)
  have hcounted := reachable_counted hguard h
  refine ⟨fun k => ⟨?_, (hcounted v).cleared k⟩, fun msg call k s₁ hdec => ?_⟩
  · exact ((hcounted v).refcount_eq k).trans ((hcounted v).references_eq_card k)
  · cases hdec with
    | settlement hpull hdec =>
      obtain ⟨horder₁, hcounted₁⟩ := hpull.start (hreg.credit _) horder hcounted
      exact hdec.live horder₁ hcounted₁
    | withdraw v w hamount =>
      have hrequest : (s.withdrawals v msg.caller w).references
          (s.withdrawals v msg.caller w).epoch = 1 :=
        (if_neg hamount).trans (if_pos ⟨rfl, (hcounted v).request_epoch msg.caller w hamount⟩)
      have hcell := cell_le_sum (fun w' => (s.withdrawals v msg.caller w').references
        (s.withdrawals v msg.caller w).epoch) w
      have hrefs : 0 < (s.pool v).referencesOf msg.caller
          (s.withdrawals v msg.caller w).epoch := by
        change 0 < _ + ∑ w', (s.withdrawals v msg.caller w').references _
        omega
      exact ((hcounted v).refcount_pos hrefs).ne'

/-- The opened state is reachable with countable references. -/
theorem openedState_referencesBounded :
    Reachable stakingStep ReferencesBounded .empty openedState := by
  refine reachable_of_few (fun s tx s' hcheck => of_decide_eq_true hcheck)
    (fun s tx s' hcheck hcount => ⟨of_decide_eq_true hcheck, hcount⟩) .start (fun v k => ?_)
    openingCalls_run
  rw [← (Pool.counted_empty v).refcount_eq k]
  exact (show 0 + openingCalls.length < 2 ^ 64 by decide)

/-- In the opened state the entry of epoch `2` counts the delegation made in epoch `1`. -/
theorem refcounts_exact_opened :
    #{d | (openedState.delegators 1 d).deltaEpoch = 2 ∧ 2 ≠ 0} +
      #{d | (openedState.delegators 1 d).nextDeltaEpoch = 2 ∧ 2 ≠ 0} +
      #{x : Address × WithdrawId | (openedState.withdrawals 1 x.1 x.2).amount ≠ 0 ∧
        (openedState.withdrawals 1 x.1 x.2).epoch = 2} = 1 := by
  have hcount : (openedState.accumulators 2 1).refcount = 1 := by decide +kernel
  exact ((refcounts_exact openedState_referencesBounded 1).1 2).1.symm.trans hcount

end SuwappuRevm.Staking
