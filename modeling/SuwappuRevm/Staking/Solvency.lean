import SuwappuRevm.Staking.References

/-!
# Solvency of a pool

The state `Sound` is preserved by every step of an orderly run whose references can be counted:
settlements move what is owed out of the unclaimed rewards, a reward adds no more than its amount
to what is owed, a snapshot freezes the stake that earns in the next epoch, and an epoch change
begins that epoch.
-/

namespace SuwappuRevm.Staking

open Foundations Finset

namespace Pool

variable {cur act : ℕ} {b : Bool} {p p' : Pool} {i o : ℕ}

section Settling

variable {d : Address} {exact : ℕ} {events : List PoolEvent}

/-- A step on one account leaves the others alone. -/
theorem Settles.other (h : p.Settles cur act d exact events p') {d' : Address} (hd : d' ≠ d) :
    p'.owedTo d' = p.owedTo d' ∧ (∀ k, p'.earningOf d' k = p.earningOf d' k) ∧
      ∀ k, p'.referencesOf d' k = p.referencesOf d' k := by
  have hindex := indexAt_eq h.history_eq h.account_eq
  obtain ⟨hdelegator, hrequests⟩ := h.off d' hd
  refine ⟨?_, fun k => ?_, fun k => ?_⟩
  · rw [owedTo, owedTo, hdelegator, hrequests, hindex, h.acc_eq]
  · rw [earningOf, earningOf, hdelegator, hrequests]
  · rw [referencesOf, referencesOf, hdelegator, hrequests]

/-- Before the activation epoch a step on one account keeps what earns. -/
theorem Settles.earning_sum (h : p.Settles cur act d exact events p') {k : ℕ} (hk : cur ≤ k)
    (hact : k < act) : ∑ d', p'.earningOf d' k = ∑ d', p.earningOf d' k := by
  refine Finset.sum_congr rfl fun d' _ => ?_
  by_cases hd : d' = d
  · obtain ⟨hleaves, hjoins⟩ := h.moves_eq k hact
    have hmove := h.earning_eq k hk
    rw [hleaves, hjoins, Nat.add_zero, Nat.add_zero] at hmove
    rw [hd, hmove]
  · exact (h.other hd).2.1 k

/-- A step on one account keeps a pool sound. -/
theorem Sound.settles (hcur : cur + 2 < 2 ^ 64) (hp : p.Sound cur b)
    (h : p.Settles cur (activationEpoch cur b) d exact events p') : p'.Sound cur b := by
  have hgt := activationEpoch_gt hcur b
  have hlog := log_eq h.history_eq h.account_eq
  have hindex := indexAt_eq h.history_eq h.account_eq
  have hview : p'.view b = p.view b := by
    rw [Pool.view, Pool.view, h.snapshotStake_eq, h.consensusStake_eq]
  refine ⟨?_, ?_, fun k => ?_, fun k hk hlive => ?_, fun d' => ?_, fun d' w hne => ?_,
    fun hne => ?_, fun hb hne => ?_, ?_⟩
  · rw [hlog]
    exact hp.times
  · rw [hlog, h.acc_eq]
    exact hp.acc_eq
  · have hmove := references_off h.off k
    have hcount := h.refcount_eq k
    have hold := hp.refcount_eq k
    omega
  · obtain ⟨hold, hsame⟩ := h.live k hk hlive
    rw [hsame, hindex]
    exact hp.value_eq k hk hold
  · rw [hindex, h.acc_eq]
    by_cases hd : d' = d
    · rw [hd]
      exact h.ordered
    · rw [(h.off d' hd).1]
      exact hp.ordered d'
  · rw [hindex]
    by_cases hd : d' = d
    · subst hd
      rcases h.request w hne with hsame | ⟨hepoch, hle⟩
      · rw [hsame] at hne ⊢
        exact hp.request d' w hne
      · rw [hepoch, hp.indexAt_later hgt]
        refine ⟨by omega, ?_, hle⟩
        rw [activationEpoch_eq hcur]
        cases b <;> simp
    · rw [(h.off d' hd).2] at hne ⊢
      exact hp.request d' w hne
  · rw [hview] at hne ⊢
    rw [h.earning_sum le_rfl hgt]
    exact hp.view hne
  · rw [h.consensusStake_eq] at hne ⊢
    rw [h.earning_sum (Nat.le_succ cur) (by rw [activationEpoch_eq hcur, hb]; simp)]
    exact hp.nextView hb hne
  · have hoff (d' : Address) (hd : d' ≠ d) : p'.owedTo d' = p.owedTo d' := (h.other hd).1
    have hsum := sum_add_eq_of_eq_off d hoff
    have howed := h.owed_eq
    have hcredits := h.credits_le
    have hsolvent := hp.solvent
    rw [← h.unclaimed_eq, Nat.mul_add] at hsolvent
    omega

end Settling

/-- A reward keeps a pool sound: what the view's stake is owed is at most the reward. -/
theorem Sound.reward (hp : p.Sound cur b) (hview : p.view b ≠ 0) (amount : ℕ) :
    (p.reward cur b amount).Sound cur b := by
  refine ⟨fun e he => ?_, ?_, hp.refcount_eq, fun k hk hlive => ?_, fun d => ?_, fun d w hne => ?_,
    hp.view, hp.nextView, ?_⟩
  · rw [reward_log] at he
    rcases List.mem_cons.mp he with rfl | hmem
    · exact le_rfl
    · exact hp.times e hmem
  · rw [reward_log, indexTotal_cons, ← hp.acc_eq]
    exact Nat.add_comm ..
  · rw [reward_indexAt]
    dsimp only
    rw [if_neg (not_lt.mpr hk), Nat.zero_add]
    exact hp.value_eq k hk hlive
  · obtain ⟨hlast, hdelta, hnext⟩ := hp.ordered d
    rw [reward_indexAt]
    exact ⟨hlast.trans (Nat.le_add_right ..), fun h => (hdelta h).trans (Nat.le_add_left ..),
      fun h => (hnext h).trans (Nat.le_add_left ..)⟩
  · obtain ⟨hepoch, hle, hacc⟩ := hp.request d w hne
    rw [reward_indexAt]
    exact ⟨hepoch, hle, hacc.trans (Nat.le_add_left ..)⟩
  · have hshare : amount * unitBias / p.view b * p.view b ≤ amount * unitBias :=
      Nat.div_mul_le_self ..
    have hunclaimed : (p.reward cur b amount).unclaimed = p.unclaimed + amount := rfl
    have hsolvent := hp.solvent
    rw [Finset.sum_congr rfl fun d _ => reward_owedTo hp amount d, Finset.sum_add_distrib,
      ← Finset.mul_sum, hp.view hview, hunclaimed, Nat.mul_add, Nat.mul_comm unitBias amount]
    omega

/-- Quiet steps keep a pool sound. -/
theorem Quiet.sound (hcur : cur + 2 < 2 ^ 64) (hledger : p.Ledger) (hepochs : p.EpochsOk cur b)
    (hp : p.Sound cur b) (h : p.Quiet cur b i o p') : p'.Sound cur b := by
  rcases h.settles hledger hepochs hp with ⟨d, exact, events, hsettles⟩ | ⟨hview, rfl⟩
  · exact hp.settles hcur hsettles
  · exact hp.reward hview i

/-- Quiet runs keep a pool sound. -/
theorem QuietRun.sound (hcur : cur + 2 < 2 ^ 64) (hledger : p.Ledger) (hepochs : p.EpochsOk cur b)
    (hp : p.Sound cur b) (h : p.QuietRun cur b i o p') : p'.Sound cur b := by
  induction h with
  | refl => exact hp
  | step hrun hstep ih => exact hstep.sound hcur (hrun.ledger hledger).1 (hrun.epochsOk hepochs) ih

/-- Runs keep a pool sound while references can be counted. -/
theorem Run.sound (hcur : cur + 2 < 2 ^ 64) (hledger : p.Ledger) (hepochs : p.EpochsOk cur b)
    (hp : p.Sound cur b) (hcount : ∀ k, p'.references k < 2 ^ 64) (h : p.Run cur b i o p') :
    p'.Sound cur b := by
  cases h with
  | quiet hrun => exact hrun.sound hcur hledger hepochs hp
  | enter hrun hstep =>
    have hsound := hrun.sound hcur hledger hepochs hp
    obtain ⟨d, events, hsettles⟩ := hstep.settles hcur hsound (hrun.ledger hledger).1
      (hrun.epochsOk hepochs) hcount
    exact hsound.settles hcur hsettles

/-- A pool with the same account, accumulator and history measures the same. -/
theorem account_congr (hhistory : p'.history = p.history) (hacc : p'.acc = p.acc)
    (hdelegators : p'.delegators = p.delegators) (hwithdrawals : p'.withdrawals = p.withdrawals) :
    p'.log = p.log ∧ p'.indexAt = p.indexAt ∧ p'.owedTo = p.owedTo ∧ p'.earningOf = p.earningOf ∧
      p'.references = p.references := by
  have hlog : p'.log = p.log := by rw [log, log, hhistory]
  have hindex : p'.indexAt = p.indexAt := by
    funext k
    rw [indexAt, indexAt, hlog]
  refine ⟨hlog, hindex, ?_, ?_, ?_⟩
  · funext d
    rw [owedTo, owedTo, hindex, hacc, hdelegators, hwithdrawals]
  · funext d k
    rw [earningOf, earningOf, hdelegators, hwithdrawals]
  · funext k
    unfold references referencesOf
    rw [hdelegators, hwithdrawals]

/-- Outside the boundary all stake of a record earns in the next epoch. -/
theorem earning_next {r : Delegator} (hr : Staking.EpochsOk cur false r) :
    r.earning (cur + 1) = r.principal := by
  have hnext : r.nextDeltaEpoch ≤ cur + 1 := by
    have hle := hr.next_le
    by_contra hnot
    cases (hr.next_boundary (by omega)).1
  rw [Delegator.earning, if_pos hr.delta_le, if_pos hnext, Delegator.principal]

/-- A snapshot keeps a pool sound: outside the boundary the stake is what earns in the next
epoch. -/
theorem Sound.snapshot (hp : p.Sound cur false) (hledger : p.Ledger)
    (hepochs : p.EpochsOk cur false) (hentries : p.EntriesOk cur false) (h : p.SnapshotTo p') :
    p'.Sound cur true := by
  obtain ⟨hlog, hindex, howed, hearning, hrefs⟩ :=
    account_congr h.history_eq h.acc_eq h.delegators_eq h.withdrawals_eq
  have hentries' := h.entriesOk hentries
  refine ⟨?_, ?_, fun k => ?_, fun k hk hlive => ?_, fun d => ?_, fun d w hne => ?_, fun hne => ?_,
    fun _ hne => ?_, ?_⟩
  · rw [hlog]
    exact hp.times
  · rw [hlog, h.acc_eq]
    exact hp.acc_eq
  · rw [h.accumulators_eq, hrefs]
    exact hp.refcount_eq k
  · rw [h.accumulators_eq] at hlive ⊢
    rw [hindex]
    exact hp.value_eq k hk hlive
  · rw [hindex, h.acc_eq, h.delegators_eq]
    exact hp.ordered d
  · rw [h.withdrawals_eq] at hne ⊢
    rw [hindex]
    obtain ⟨hepoch, hle, hacc⟩ := hp.request d w hne
    exact ⟨hepoch, hle.imp_right fun hle => absurd hle.1 (by simp), hacc⟩
  · have hmem : p.inConsensus := h.inSnapshot_iff.mp (hentries'.snapshot hne)
    have hview : p'.view true = p.view false := h.snapshotStake_of_mem hmem
    rw [hview] at hne ⊢
    rw [hearning]
    exact hp.view hne
  · have hstake := h.consensusStake_of_mem (hentries'.consensus hne)
    rw [hstake, hledger.stake_eq, hearning]
    refine Finset.sum_congr rfl fun d _ => ?_
    have hrequests : ∑ w, (p.withdrawals d w).earning (cur + 1) = 0 := by
      refine Finset.sum_eq_zero fun w _ => ?_
      rw [WithdrawalRequest.earning]
      split
      next hlt =>
        by_contra hne
        have hle := (hp.request d w hne).2.1
        simp only [Bool.false_eq_true, false_and, or_false] at hle
        omega
      next => rfl
    rw [earningOf, earning_next (hepochs d), hrequests, Nat.add_zero]
  · rw [howed, h.unclaimed_eq]
    exact hp.solvent

/-- An epoch change out of the boundary to the next epoch keeps a pool sound. -/
theorem Sound.tick (hp : p.Sound cur true) (hhistory : p'.history = p.history)
    (hacc : p'.acc = p.acc) (hunclaimed : p'.unclaimed = p.unclaimed)
    (hdelegators : p'.delegators = p.delegators) (hwithdrawals : p'.withdrawals = p.withdrawals)
    (hconsensus : p'.consensusStake = p.consensusStake)
    (hrefcount : ∀ k, (p'.accumulators k).refcount = (p.accumulators k).refcount)
    (hold : ∀ k, k ≤ cur → p'.accumulators k = p.accumulators k)
    (hfresh : (p.accumulators (cur + 1)).refcount ≠ 0 →
      (p'.accumulators (cur + 1)).value = p.acc) : p'.Sound (cur + 1) false := by
  obtain ⟨hlog, hindex, howed, hearning, hrefs⟩ :=
    account_congr hhistory hacc hdelegators hwithdrawals
  refine ⟨fun e he => ?_, ?_, fun k => ?_, fun k hk hlive => ?_, fun d => ?_, fun d w hne => ?_,
    fun hne => ?_, fun hb => absurd hb (by simp), ?_⟩
  · rw [hlog] at he
    exact (hp.times e he).trans (Nat.le_succ cur)
  · rw [hlog, hacc]
    exact hp.acc_eq
  · rw [hrefcount, hrefs]
    exact hp.refcount_eq k
  · rw [hrefcount] at hlive
    rw [hindex]
    rcases Nat.lt_or_eq_of_le hk with hlt | rfl
    · rw [hold k (Nat.le_of_lt_succ hlt)]
      exact hp.value_eq k (Nat.le_of_lt_succ hlt) hlive
    · rw [hfresh hlive, hp.indexAt_later (Nat.lt_succ_self cur)]
  · rw [hindex, hacc, hdelegators]
    exact hp.ordered d
  · rw [hwithdrawals] at hne ⊢
    rw [hindex]
    obtain ⟨hepoch, hle, hacc⟩ := hp.request d w hne
    exact ⟨hepoch, .inl (by omega), hacc⟩
  · have hview : p'.view false = p.consensusStake := hconsensus
    rw [hview] at hne ⊢
    rw [hearning]
    exact hp.nextView rfl hne
  · rw [howed, hunclaimed]
    exact hp.solvent

/-- Evolutions of an orderly run keep a pool sound while references can be counted. -/
theorem Evolves.sound {cur' : ℕ} {b' : Bool} (hcur : cur + 2 < 2 ^ 64)
    (horderly : cur < cur' → cur' = cur + 1 ∧ b = true) (hledger : p.Ledger)
    (hepochs : p.EpochsOk cur b) (hentries : p.EntriesOk cur b) (hp : p.Sound cur b)
    (hcount : ∀ k, p'.references k < 2 ^ 64) (h : p.Evolves cur b cur' b' p') :
    p'.Sound cur' b' := by
  cases h with
  | idle => exact hp
  | run hrun => exact hrun.sound hcur hledger hepochs hp hcount
  | snapshot hboundary hsnap =>
    subst hboundary
    exact hp.snapshot hledger hepochs hentries hsnap
  | refresh next hlt hbound hmem =>
    obtain ⟨rfl, rfl⟩ := horderly hlt
    refine hp.tick rfl rfl rfl rfl rfl rfl (fun k => refreshed_refcount ..)
      (fun k hk => p.refreshed_of_ne ?_) (fun hlive => p.refreshed_value (.inl rfl) hlive)
    rw [u64Add_one (by omega)]
    omega
  | skip next hlt hbound hmem =>
    obtain ⟨rfl, rfl⟩ := horderly hlt
    refine hp.tick rfl rfl rfl rfl rfl rfl (fun k => rfl) (fun k hk => rfl) fun hlive => ?_
    exact (hentries.fresh (cur + 1) hlt hlive).resolve_right hmem

end Pool

/-- Orderly runs: epoch numbers stay below `2 ^ 63`, all value that ever comes in below `2 ^ 128`,
and an epoch change names the next epoch and comes after the snapshot of the ending one. -/
def Orderly (s : Storage) (_ : Message × StakingCall) (s' : Storage) : Prop :=
  s'.epoch < 2 ^ 63 ∧ s'.received < 2 ^ 128 ∧
    (s.epoch < s'.epoch → s'.epoch = s.epoch + 1 ∧ s.inBoundary = true)

/-- The check of orderly runs. -/
def orderlyCheck (s : Storage) (_ : Message × StakingCall) (s' : Storage) : Bool :=
  decide (s'.epoch < 2 ^ 63 ∧ s'.received < 2 ^ 128 ∧
    (s.epoch < s'.epoch → s'.epoch = s.epoch + 1 ∧ s.inBoundary = true))

/-- What passes the check is orderly. -/
theorem orderly_of_check {s s' : Storage} {tx : Message × StakingCall}
    (h : orderlyCheck s tx s' = true) : Orderly s tx s' :=
  have hlimits : s'.epoch < 2 ^ 63 ∧ s'.received < 2 ^ 128 ∧
    (s.epoch < s'.epoch → s'.epoch = s.epoch + 1 ∧ s.inBoundary = true) := of_decide_eq_true h
  hlimits

/-- Orderly runs in which no entry is referenced `2 ^ 64` times. -/
def OrderlyCounted (s : Storage) (tx : Message × StakingCall) (s' : Storage) : Prop :=
  Orderly s tx s' ∧ ∀ v k, (s'.pool v).references k < 2 ^ 64

section Reachable

variable {guard : Storage → Message × StakingCall → Storage → Prop} {s s' : Storage}

/-- The contract never owns more than it received. -/
theorem balance_le_received (hguard : ∀ s tx s', guard s tx s' → s'.epoch < 2 ^ 63)
    (h : Reachable stakingStep guard .empty s) : s.balance ≤ s.received := by
  induction h with
  | start => exact le_rfl
  | @call s s' tx hreach hs hg ih =>
    have hepoch := reachable_epoch_lt hguard hreach
    obtain ⟨hreg, horder⟩ := reachable_inOrder hreach (by omega)
    obtain ⟨-, heffect⟩ := stakingStep_effect hreg horder hs
    cases heffect with
    | onPool v i o hstep =>
      have hreceived := hstep.received_eq
      have hbalance := hstep.balance_eq
      have hincome := hstep.income_le
      omega
    | snapshot hincome hboundary htake =>
      have hsame := takeSnapshot_sameLedger s
      rw [htake, hsame.balance_eq, hsame.received_eq]
      exact ih
    | epochChange next hincome hlt hchange =>
      obtain ⟨hsame, -⟩ := refreshAccumulators_spec s next
      rw [hchange]
      change (refreshAccumulators s next).balance ≤ (refreshAccumulators s next).received
      rw [hsame.balance_eq, hsame.received_eq]
      exact ih

/-- What one pool owes is bounded by all value that ever came in. -/
theorem liabilities_le_received (hguard : ∀ s tx s', guard s tx s' → s'.epoch < 2 ^ 63)
    (h : Reachable stakingStep guard .empty s) (v : ValId) :
    (s.pool v).liabilities ≤ s.received := by
  have hcell := cell_le_sum (fun v => (s.pool v).liabilities) v
  rw [← liabilities_eq_sum, ← balance_eq_liabilities hguard h] at hcell
  exact hcell.trans (balance_le_received hguard h)

/-- An empty pool is sound. -/
theorem sound_empty (v : ValId) : (Storage.empty.pool v).Sound 0 false where
  times e he := absurd he List.not_mem_nil
  acc_eq := rfl
  refcount_eq := (Pool.counted_empty v).refcount_eq
  value_eq _ _ hlive := absurd rfl hlive
  ordered _ := ⟨le_rfl, fun h => absurd rfl h, fun h => absurd rfl h⟩
  request _ _ hne := absurd rfl hne
  view hne := absurd rfl hne
  nextView hb := absurd hb (by simp)
  solvent := by
    refine (Finset.sum_eq_zero fun d _ => ?_).trans_le (Nat.zero_le _)
    have hrecord : ((Storage.empty.pool v).delegators d).owed (Storage.empty.pool v).indexAt
        (Storage.empty.pool v).acc = 0 := by
      rw [Delegator.owed]
      change 0 * _ + 0 * _ + 0 * _ = 0
      simp
    rw [Pool.owedTo, hrecord, Nat.zero_add]
    exact Finset.sum_eq_zero fun w _ => Nat.zero_mul _

/-- Every pool is sound in every state of an orderly run with countable references. -/
theorem reachable_sound (h : Reachable stakingStep OrderlyCounted .empty s) (v : ValId) :
    (s.pool v).Sound s.epoch s.inBoundary := by
  have hguard (s : Storage) (tx) (s' : Storage) (hg : OrderlyCounted s tx s') :
      s'.epoch < 2 ^ 63 := hg.1.1
  induction h with
  | start => exact sound_empty v
  | @call s s' tx hreach hs hg ih =>
    have hepoch := reachable_epoch_lt hguard hreach
    obtain ⟨hreg, horder⟩ := reachable_inOrder hreach (by omega)
    obtain ⟨-, heffect⟩ := stakingStep_effect hreg horder hs
    exact (heffect.evolves v).sound (by omega) hg.1.2.2 (reachable_ledger hguard hreach v)
      (horder v).2 (reachable_entriesOk hreach (by omega) v) ih (hg.2 v)

/-- The opening calls are orderly. -/
theorem openingCalls_orderly :
    runAll stakingStep orderlyCheck .empty openingCalls = some openedState := by
  have hsome : (runAll stakingStep orderlyCheck .empty openingCalls).isSome = true := by
    decide +kernel
  obtain ⟨s, hrun⟩ := Option.isSome_iff_exists.mp hsome
  have hweak := runAll_mono (fun s tx s' hcheck =>
    decide_eq_true (orderly_of_check hcheck).1) hrun
  obtain rfl : openedState = s := Option.some.inj (openingCalls_run.symm.trans hweak)
  exact hrun

/-- References stay countable in every state of such a run. -/
theorem reachable_references_lt (h : Reachable stakingStep OrderlyCounted .empty s) :
    ∀ v k, (s.pool v).references k < 2 ^ 64 := by
  refine h.invariant (fun s => ∀ v k, (s.pool v).references k < 2 ^ 64) (fun v k => ?_)
    fun _ _ _ _ _ hg => hg.2
  rw [← (Pool.counted_empty v).refcount_eq k]
  exact Nat.two_pow_pos 64

/-- A few orderly calls reach a state with countable references. -/
theorem reachable_of_fewOrderly {calls : List (Message × StakingCall)}
    (hfew : calls.length < 2 ^ 64) (h : runAll stakingStep orderlyCheck .empty calls = some s) :
    Reachable stakingStep OrderlyCounted .empty s := by
  refine reachable_of_few (fun s tx s' hcheck => (orderly_of_check hcheck).1)
    (fun s tx s' hcheck hcount => ⟨orderly_of_check hcheck, hcount⟩) .start (fun v k => ?_) h
  rw [← (Pool.counted_empty v).refcount_eq k]
  exact (Nat.zero_add _).trans_lt hfew

/-- The opened state is reached by an orderly run with countable references. -/
theorem openedState_orderlyCounted : Reachable stakingStep OrderlyCounted .empty openedState :=
  reachable_of_fewOrderly (by decide) openingCalls_orderly

/-- A few more orderly calls keep the references of the opened state countable. -/
theorem openedState_run {calls : List (Message × StakingCall)} (hfew : calls.length < 2 ^ 63)
    (h : runAll stakingStep orderlyCheck openedState calls = some s) :
    Reachable stakingStep OrderlyCounted .empty s := by
  have hrun : runAll stakingStep orderlyCheck .empty (openingCalls ++ calls) = some s := by
    rw [runAll_append, openingCalls_orderly]
    exact h
  have hopening : openingCalls.length = 6 := rfl
  refine reachable_of_fewOrderly ?_ hrun
  rw [List.length_append]
  omega

/-- One more orderly call does. -/
theorem openedState_next {tx : Message × StakingCall} (h : stakingStep openedState tx = .ok s)
    (hcheck : orderlyCheck openedState tx s = true) : OrderlyCounted openedState tx s := by
  have hrun : runAll stakingStep orderlyCheck openedState [tx] = some s := by
    simp [runAll, h, hcheck]
  have hreach := openedState_run (by simp) hrun
  exact ⟨orderly_of_check hcheck, reachable_references_lt hreach⟩

end Reachable

end SuwappuRevm.Staking
