import SuwappuRevm.Foundations.FiniteSums
import SuwappuRevm.Staking.StepSpec

/-!
# The stake ledger and conservation of funds

The stake of a validator is what its delegators have active and pending, and a pending track is
empty exactly when its epoch is. Under this invariant every step of a pool moves its liabilities
by the value it brings in less the value it pays out, which is also what the balance of the
contract moves by.
-/

namespace SuwappuRevm.Staking

open Foundations Finset

/-- What a record holds of the validator's stake, active and pending. -/
def Delegator.principal (r : Delegator) : ℕ := r.stake + r.deltaStake + r.nextDeltaStake

/-- A pending track is empty exactly when it has no epoch. -/
structure Delegator.Tracked (r : Delegator) : Prop where
  delta_iff : r.deltaStake ≠ 0 ↔ r.deltaEpoch ≠ 0
  next_iff : r.nextDeltaStake ≠ 0 ↔ r.nextDeltaEpoch ≠ 0

namespace Delegator

variable {r : Delegator}

/-- Promoting into an empty first track keeps the principal. -/
theorem Tracked.shiftNext (h : r.Tracked) (hdelta : r.deltaEpoch = 0) :
    r.shiftNext.Tracked ∧ r.shiftNext.principal = r.principal := by
  have hzero : r.deltaStake = 0 := by
    by_contra hne
    exact h.delta_iff.mp hne hdelta
  refine ⟨⟨h.next_iff, by simp [Delegator.shiftNext]⟩, ?_⟩
  simp only [principal, Delegator.shiftNext]
  omega

/-- Compounding keeps the principal. -/
theorem Tracked.compounded (h : r.Tracked) (acc rewards : ℕ) :
    (r.compounded acc rewards).Tracked ∧ (r.compounded acc rewards).principal = r.principal := by
  refine ⟨⟨h.next_iff, by simp [Delegator.compounded, Delegator.shiftNext]⟩, ?_⟩
  simp only [principal, Delegator.compounded, Delegator.shiftNext]
  omega

/-- A delegation at an epoch that is not zero adds its amount. -/
theorem Tracked.addTo (h : r.Tracked) (b : Bool) {epoch amount : ℕ} (hepoch : epoch ≠ 0)
    (hamount : amount ≠ 0) :
    (r.addTo b epoch amount).Tracked ∧
      (r.addTo b epoch amount).principal = r.principal + amount := by
  cases b with
  | false =>
    refine ⟨⟨iff_of_true ?_ hepoch, h.next_iff⟩, ?_⟩
    · simp only [Delegator.addTo, Bool.false_eq_true, if_false]
      omega
    · simp only [principal, Delegator.addTo, Bool.false_eq_true, if_false]
      omega
  | true =>
    refine ⟨⟨h.delta_iff, iff_of_true ?_ hepoch⟩, ?_⟩
    · simp only [Delegator.addTo, if_true]
      omega
    · simp only [principal, Delegator.addTo, if_true]
      omega

/-- A withdrawal takes its amount. -/
theorem principal_removed {amount : ℕ} (hle : amount ≤ r.stake) :
    (r.removed amount).principal + amount = r.principal := by
  simp only [principal, removed]
  omega

end Delegator

namespace Pool

variable {cur : ℕ} {b : Bool} {p p' : Pool} {i o : ℕ}

/-- The ledger of a pool: tracks carry epochs, and the stake is the sum of the records. -/
structure Ledger (p : Pool) : Prop where
  tracked : ∀ d, (p.delegators d).Tracked
  stake_eq : p.stake = ∑ d, (p.delegators d).principal

/-- What a record is owed: its principal and its credited rewards. -/
def held (r : Delegator) : ℕ := r.principal + r.rewards

/-- What the contract owes to one validator's delegators. -/
def liabilities (p : Pool) : ℕ :=
  p.unclaimed + ∑ d, held (p.delegators d) + ∑ d, ∑ w, (p.withdrawals d w).amount

/-- Writing one record with the same principal keeps the ledger. -/
theorem Ledger.update (hp : p.Ledger) {d : Address} {r : Delegator}
    (h : p'.delegators = Function.update p.delegators d r) (hr : r.Tracked)
    (hstake : p'.stake + (p.delegators d).principal = p.stake + r.principal) : p'.Ledger := by
  refine ⟨fun d' => ?_, ?_⟩
  · rw [h]
    by_cases hd : d' = d
    · rw [hd, Function.update_self]
      exact hr
    · rw [Function.update_of_ne hd]
      exact hp.tracked d'
  · have hsum := sum_update_add Delegator.principal p.delegators d r
    have heq := hp.stake_eq
    rw [h]
    omega

/-- A quiet step keeps the stake and rewrites at most one record, keeping its principal. -/
theorem Quiet.rewrites (hp : p.Ledger) (h : p.Quiet cur b i o p') :
    p'.stake = p.stake ∧ ∃ d r, p'.delegators = Function.update p.delegators d r ∧ r.Tracked ∧
      r.principal = (p.delegators d).principal := by
  cases h with
  | promote d hdelta hnext hle => exact ⟨rfl, d, _, rfl, (hp.tracked d).shiftNext hdelta⟩
  | compound d rewards => exact ⟨rfl, d, _, rfl, (hp.tracked d).compounded _ rewards⟩
  | accrue d rewards => exact ⟨rfl, d, _, rfl, ⟨(hp.tracked d).1, (hp.tracked d).2⟩, rfl⟩
  | take d hrewards => exact ⟨rfl, d, _, rfl, ⟨(hp.tracked d).1, (hp.tracked d).2⟩, rfl⟩
  | pay d w rewards =>
    exact ⟨rfl, d, p.delegators d, (Function.update_eq_self d _).symm, hp.tracked d, rfl⟩
  | commission d amount hview =>
    exact ⟨rfl, d, _, rfl, ⟨(hp.tracked d).1, (hp.tracked d).2⟩, rfl⟩
  | reward amount hview =>
    exact ⟨rfl, 0, p.delegators 0, (Function.update_eq_self 0 _).symm, hp.tracked 0, rfl⟩

/-- Quiet steps keep the ledger. -/
theorem Quiet.ledger (hp : p.Ledger) (h : p.Quiet cur b i o p') : p'.Ledger := by
  obtain ⟨hstake, d, r, hupdate, htracked, hsame⟩ := h.rewrites hp
  exact hp.update hupdate htracked (by rw [hstake, hsame])

/-- Quiet runs keep the ledger and every principal. -/
theorem QuietRun.ledger (hp : p.Ledger) (h : p.QuietRun cur b i o p') :
    p'.Ledger ∧ ∀ d, (p'.delegators d).principal = (p.delegators d).principal := by
  induction h with
  | refl => exact ⟨hp, fun _ => rfl⟩
  | step hrun hstep ih =>
    obtain ⟨hledger, hprincipal⟩ := ih
    refine ⟨hstep.ledger hledger, fun d' => ?_⟩
    obtain ⟨-, d, r, hupdate, -, hsame⟩ := hstep.rewrites hledger
    rw [hupdate, ← hprincipal d']
    by_cases hd : d' = d
    · rw [hd, Function.update_self, hsame]
    · rw [Function.update_of_ne hd]

/-- Below the last epoch a delegation or withdrawal is pending for an epoch that is not zero. -/
theorem activationEpoch_ne_zero (hcur : cur + 2 < 2 ^ 64) (b : Bool) :
    activationEpoch cur b ≠ 0 := by
  cases b <;> simp only [activationEpoch, u64Add, if_true, if_false, Bool.false_eq_true] <;> omega

/-- Entering steps keep the ledger. -/
theorem Enter.ledger (hcur : cur + 2 < 2 ^ 64) (hp : p.Ledger) (h : p.Enter cur b i p') :
    p'.Ledger := by
  cases h with
  | join d amount hamount hsettled =>
    obtain ⟨htracked, hadd⟩ := (hp.tracked d).addTo b (activationEpoch_ne_zero hcur b) hamount
    refine hp.update rfl htracked ?_
    rw [hadd]
    change p.stake + i + _ = _
    omega
  | leave d w amount hamount hle hpool hfree =>
    have hremoved := Delegator.principal_removed hle
    refine hp.update rfl ⟨(hp.tracked d).1, (hp.tracked d).2⟩ ?_
    change p.stake - amount + (p.delegators d).principal = p.stake + _
    omega

/-- Runs keep the ledger. -/
theorem Run.ledger (hcur : cur + 2 < 2 ^ 64) (hp : p.Ledger) (h : p.Run cur b i o p') :
    p'.Ledger := by
  cases h with
  | quiet hrun => exact (hrun.ledger hp).1
  | enter hrun hstep => exact hstep.ledger hcur (hrun.ledger hp).1

/-- Writing one record moves the liabilities by what it holds and by the unclaimed rewards. -/
theorem liabilities_update (p p' : Pool) {d : Address} {r : Delegator}
    (h : p'.delegators = Function.update p.delegators d r)
    (hrequests : p'.withdrawals = p.withdrawals) :
    p'.liabilities + p.unclaimed + held (p.delegators d) =
      p.liabilities + p'.unclaimed + held r := by
  have hsum := sum_update_add held p.delegators d r
  unfold liabilities
  rw [h, hrequests]
  omega

/-- Writing one request moves the liabilities by its amount and by the unclaimed rewards. -/
theorem liabilities_request (p p' : Pool) {d : Address} {w : WithdrawId}
    {request : WithdrawalRequest} (h : p'.delegators = p.delegators)
    (hrequests : p'.withdrawals = Function.update p.withdrawals d
      (Function.update (p.withdrawals d) w request)) :
    p'.liabilities + p.unclaimed + (p.withdrawals d w).amount =
      p.liabilities + p'.unclaimed + request.amount := by
  have hsum := sum_update_update_add WithdrawalRequest.amount p.withdrawals d w request
  unfold liabilities
  rw [h, hrequests]
  omega

/-- Quiet steps move the liabilities by what they bring in less what they pay out. -/
theorem Quiet.liabilities (hp : p.Ledger) (h : p.Quiet cur b i o p') :
    p'.liabilities + o = p.liabilities + i := by
  cases h with
  | promote d hdelta hnext hle =>
    obtain ⟨-, hsame⟩ := (hp.tracked d).shiftNext hdelta
    have hupdate := liabilities_update p (p.promote d) rfl rfl
    have hheld : held (p.delegators d).shiftNext = held (p.delegators d) :=
      congrArg (· + (p.delegators d).rewards) hsame
    change _ + p.unclaimed + _ = _ + p.unclaimed + _ at hupdate
    omega
  | compound d rewards hdelta hle hacc hrewards hsolvent =>
    obtain ⟨-, hsame⟩ := (hp.tracked d).compounded
      (p.entryValue (p.delegators d).deltaEpoch) rewards
    have hupdate := liabilities_update p (p.compound d rewards) rfl rfl
    have hheld : held ((p.delegators d).compounded (p.entryValue (p.delegators d).deltaEpoch)
        rewards) = (p.delegators d).principal + ((p.delegators d).rewards + rewards) :=
      congrArg (· + ((p.delegators d).rewards + rewards)) hsame
    have hold : held (p.delegators d) = (p.delegators d).principal + (p.delegators d).rewards := rfl
    change _ + p.unclaimed + _ = _ + (p.unclaimed - rewards) + _ at hupdate
    omega
  | accrue d rewards hsettled hstake hacc hrewards hsolvent =>
    have hupdate := liabilities_update p (p.accrue d rewards) rfl rfl
    have hheld : held ((p.delegators d).accrued p.acc rewards) =
        (p.delegators d).principal + ((p.delegators d).rewards + rewards) := rfl
    have hold : held (p.delegators d) = (p.delegators d).principal + (p.delegators d).rewards := rfl
    change _ + p.unclaimed + _ = _ + (p.unclaimed - rewards) + _ at hupdate
    omega
  | take d hrewards =>
    have hupdate := liabilities_update p (p.take d) rfl rfl
    have hheld : held { p.delegators d with rewards := 0 } = (p.delegators d).principal + 0 := rfl
    have hold : held (p.delegators d) = (p.delegators d).principal + (p.delegators d).rewards := rfl
    change _ + p.unclaimed + _ = _ + p.unclaimed + _ at hupdate
    omega
  | pay d w rewards hamount hepoch hready hacc hrewards hsolvent =>
    have hupdate := liabilities_request p (p.pay d w rewards) rfl rfl
    change _ + p.unclaimed + _ = _ + (p.unclaimed - rewards) + 0 at hupdate
    omega
  | commission d amount hview =>
    have hupdate := liabilities_update p (p.credit d i) rfl rfl
    have hheld : held { p.delegators d with rewards := (p.delegators d).rewards + i } =
        (p.delegators d).principal + ((p.delegators d).rewards + i) := rfl
    have hold : held (p.delegators d) = (p.delegators d).principal + (p.delegators d).rewards := rfl
    change _ + p.unclaimed + _ = _ + p.unclaimed + _ at hupdate
    omega
  | reward amount hview =>
    have hreward : (p.reward cur b i).liabilities = p.unclaimed + i +
        ∑ d, held (p.delegators d) + ∑ d, ∑ w, (p.withdrawals d w).amount := rfl
    rw [hreward, liabilities]
    omega

/-- Entering steps move the liabilities by what they bring in. -/
theorem Enter.liabilities (hcur : cur + 2 < 2 ^ 64) (hp : p.Ledger) (h : p.Enter cur b i p') :
    p'.liabilities = p.liabilities + i := by
  cases h with
  | join d amount hamount hsettled =>
    obtain ⟨-, hadd⟩ := (hp.tracked d).addTo b (activationEpoch_ne_zero hcur b) hamount
    have hupdate := liabilities_update p (p.join b (activationEpoch cur b) d i) rfl rfl
    have hheld : held ((p.delegators d).addTo b (activationEpoch cur b) i) =
        (p.delegators d).principal + i + (p.delegators d).rewards := by
      unfold held
      rw [hadd]
      cases b <;> rfl
    have hold : held (p.delegators d) = (p.delegators d).principal + (p.delegators d).rewards := rfl
    change _ + p.unclaimed + _ = _ + p.unclaimed + _ at hupdate
    omega
  | leave d w amount hamount hle hpool hfree =>
    have hremoved := Delegator.principal_removed hle
    have hupdate := sum_update_add held p.delegators d ((p.delegators d).removed amount)
    have hrequest := sum_update_update_add WithdrawalRequest.amount p.withdrawals d w
      ⟨amount, (p.delegators d).accumulatedRewardPerToken, activationEpoch cur b⟩
    have hheld : held ((p.delegators d).removed amount) =
        ((p.delegators d).removed amount).principal + (p.delegators d).rewards := rfl
    have hold : held (p.delegators d) = (p.delegators d).principal + (p.delegators d).rewards := rfl
    have hleave : (p.leave (activationEpoch cur b) d w amount).liabilities = p.unclaimed +
        ∑ d', held (Function.update p.delegators d ((p.delegators d).removed amount) d') +
        ∑ d', ∑ w', (Function.update p.withdrawals d (Function.update (p.withdrawals d) w
          ⟨amount, (p.delegators d).accumulatedRewardPerToken, activationEpoch cur b⟩)
            d' w').amount := rfl
    rw [hleave, Pool.liabilities]
    dsimp only at hrequest
    omega

/-- Quiet runs move the liabilities by what they bring in less what they pay out. -/
theorem QuietRun.liabilities (hp : p.Ledger) (h : p.QuietRun cur b i o p') :
    p'.liabilities + o = p.liabilities + i := by
  induction h with
  | refl => rfl
  | step hrun hstep ih =>
    have hmove := hstep.liabilities (hrun.ledger hp).1
    omega

/-- Runs move the liabilities by what they bring in less what they pay out. -/
theorem Run.liabilities (hcur : cur + 2 < 2 ^ 64) (hp : p.Ledger) (h : p.Run cur b i o p') :
    p'.liabilities + o = p.liabilities + i := by
  cases h with
  | quiet hrun => exact hrun.liabilities hp
  | enter hrun hstep =>
    have hquiet := hrun.liabilities hp
    have hmove := hstep.liabilities hcur (hrun.ledger hp).1
    omega

/-- A pool with the same records and stake has the same ledger. -/
theorem Ledger.congr (hp : p.Ledger) (hdelegators : p'.delegators = p.delegators)
    (hstake : p'.stake = p.stake) : p'.Ledger :=
  ⟨fun d => hdelegators ▸ hp.tracked d, by rw [hstake, hdelegators]; exact hp.stake_eq⟩

/-- Evolutions keep the ledger. -/
theorem Evolves.ledger {cur' : ℕ} {b' : Bool} (hcur : cur + 2 < 2 ^ 64) (hp : p.Ledger)
    (h : p.Evolves cur b cur' b' p') : p'.Ledger := by
  cases h with
  | idle => exact hp
  | run hrun => exact hrun.ledger hcur hp
  | snapshot hboundary hsnap => exact hp.congr hsnap.delegators_eq hsnap.stake_eq
  | refresh next hlt => exact hp.congr rfl rfl
  | skip next hlt => exact hp

end Pool

/-- Runs whose epoch numbers stay below `2 ^ 63`. -/
def EpochsBounded (_ : Storage) (_ : Message × StakingCall) (s' : Storage) : Prop :=
  s'.epoch < 2 ^ 63

section Reachable

variable {guard : Storage → Message × StakingCall → Storage → Prop} {s s' : Storage}

/-- Epochs are bounded in every state of a bounded run. -/
theorem reachable_epoch_lt (hguard : ∀ s tx s', guard s tx s' → s'.epoch < 2 ^ 63)
    (h : Reachable stakingStep guard .empty s) : s.epoch < 2 ^ 63 :=
  h.invariant (fun s => s.epoch < 2 ^ 63) (by decide) fun _ _ _ _ _ hg => hguard _ _ _ hg

/-- Every pool of a bounded run has a consistent ledger. -/
theorem reachable_ledger (hguard : ∀ s tx s', guard s tx s' → s'.epoch < 2 ^ 63)
    (h : Reachable stakingStep guard .empty s) (v : ValId) : (s.pool v).Ledger := by
  have hepoch := reachable_epoch_lt hguard h
  refine reachable_pool (fun _ _ p => p.Ledger) (fun v => ?_) ?_ h (by omega) v
  · refine ⟨fun d => ⟨Iff.rfl, Iff.rfl⟩, ?_⟩
    exact (Finset.sum_eq_zero fun _ _ => rfl).symm
  · intro s tx s' v hg hs horder hp hevolves
    have hle := stakingStep_epoch_le hs
    have hbound := hguard s tx s' hg
    exact hevolves.ledger (by omega) hp

/-- Stake ledger consistency: the stake of a validator is what its delegators have active and
pending; a track is empty exactly when its epoch is zero; pending epochs are in order and at most
two ahead; and a settlement, which promotes and compounds tracks, loses no stake. -/
theorem stake_ledger_consistent (h : Reachable stakingStep EpochsBounded .empty s) (v : ValId) :
    (s.validators v).stake = ∑ d, ((s.delegators v d).stake + (s.delegators v d).deltaStake +
      (s.delegators v d).nextDeltaStake) ∧
    ∀ d, let r := s.delegators v d
      (r.deltaStake ≠ 0 ↔ r.deltaEpoch ≠ 0) ∧ (r.nextDeltaStake ≠ 0 ↔ r.nextDeltaEpoch ≠ 0) ∧
      (r.deltaEpoch ≠ 0 → r.nextDeltaEpoch ≠ 0 → r.deltaEpoch < r.nextDeltaEpoch) ∧
      r.deltaEpoch ≤ s.epoch + 2 ∧ r.nextDeltaEpoch ≤ s.epoch + 2 ∧
      ∀ del s', pullDelegatorUpToDate s v d = .ok (del, s') →
        del.stake + del.deltaStake + del.nextDeltaStake =
          r.stake + r.deltaStake + r.nextDeltaStake := by
  have hguard (s : Storage) (tx) (s' : Storage) (hg : EpochsBounded s tx s') :
      s'.epoch < 2 ^ 63 := hg
  have hepoch := reachable_epoch_lt hguard h
  have hledger := reachable_ledger hguard h v
  obtain ⟨-, horder⟩ := reachable_inOrder h (by omega)
  refine ⟨hledger.stake_eq, fun d => ?_⟩
  have htracked := hledger.tracked d
  have hok := (horder v).2 d
  refine ⟨htracked.delta_iff, htracked.next_iff, hok.delta_lt_next, hok.delta_le.trans (by omega),
    hok.next_le, fun del s' hpull => ?_⟩
  have hrun := (pullDelegatorUpToDate_spec (horder v).1 hok hpull).1
  have hsame := (hrun.ledger hledger).2 d
  have hdel := (pullDelegatorUpToDate_touches hpull).2.2
  rw [← hdel]
  exact hsame

/-- The opened state is reachable with bounded epochs. -/
theorem openedState_bounded : Reachable stakingStep EpochsBounded .empty openedState := by
  refine reachable_of_runAll (fun s tx s' hcheck => ?_) .start openingCalls_run
  change s'.epoch < 2 ^ 63
  exact of_decide_eq_true hcheck

/-- In the opened state the records of the first validator add up to its two delegations. -/
theorem stake_ledger_opened :
    activeValidatorStake + dustThreshold = ∑ d, ((openedState.delegators 1 d).stake +
      (openedState.delegators 1 d).deltaStake + (openedState.delegators 1 d).nextDeltaStake) := by
  have hstake : (openedState.validators 1).stake = activeValidatorStake + dustThreshold := by
    decide +kernel
  rw [← hstake]
  exact (stake_ledger_consistent openedState_bounded 1).1

/-- What the contract owes: unclaimed rewards, all that the records hold, and open withdrawal
requests. -/
def Storage.liabilities (s : Storage) : ℕ :=
  ∑ v, (s.validators v).unclaimedRewards +
    ∑ v, ∑ d, ((s.delegators v d).stake + (s.delegators v d).deltaStake +
      (s.delegators v d).nextDeltaStake + (s.delegators v d).rewards) +
    ∑ v, ∑ d, ∑ w, (s.withdrawals v d w).amount

/-- The contract owes what its pools owe. -/
theorem liabilities_eq_sum (s : Storage) : s.liabilities = ∑ v, (s.pool v).liabilities := by
  unfold Storage.liabilities Pool.liabilities
  rw [Finset.sum_add_distrib, Finset.sum_add_distrib]
  rfl

/-- An effect moves balance and liabilities alike. -/
theorem StakingEffect.conserves {income : ℕ} (hcur : s.epoch + 2 < 2 ^ 64)
    (hledger : ∀ v, (s.pool v).Ledger) (h : StakingEffect income s s') :
    s'.balance + s.liabilities = s.balance + s'.liabilities := by
  rw [liabilities_eq_sum, liabilities_eq_sum]
  cases h with
  | onPool v i o hstep =>
    have hoff (v' : ValId) (hv : v' ≠ v) :
        (s'.pool v').liabilities = (s.pool v').liabilities :=
      congrArg Pool.liabilities (hstep.pool_of_ne v' hv)
    have hsum := sum_add_eq_of_eq_off v hoff
    have hpool := hstep.run.liabilities hcur (hledger v)
    have hbalance := hstep.balance_eq
    omega
  | snapshot hincome hboundary htake =>
    have hpools (v : ValId) : (s'.pool v).liabilities = (s.pool v).liabilities := by
      obtain ⟨-, -, -, hunclaimed, hdelegators, hwithdrawals, -⟩ := takeSnapshot_pool s v
      rw [htake, Pool.liabilities, hunclaimed, hdelegators, hwithdrawals]
      rfl
    rw [Finset.sum_congr rfl fun v _ => hpools v, htake, (takeSnapshot_sameLedger s).balance_eq]
  | epochChange next hincome hlt hchange =>
    obtain ⟨hsame, hpool⟩ := refreshAccumulators_spec s next
    have hpools (v : ValId) : (s'.pool v).liabilities = (s.pool v).liabilities := by
      have hchanged : s'.pool v = (refreshAccumulators s next).pool v := by rw [hchange]; rfl
      rw [hchanged]
      by_cases hmem : (s.pool v).inSnapshot
      · rw [(hpool v).1 hmem]
        rfl
      · rw [(hpool v).2 hmem]
    have hbalance : s'.balance = s.balance := by rw [hchange]; exact hsame.balance_eq
    rw [Finset.sum_congr rfl fun v _ => hpools v, hbalance]

/-- Conservation of funds: a successful call moves the balance of the contract and its
liabilities by the same amount. -/
theorem funds_conserved (h : Reachable stakingStep EpochsBounded .empty s)
    (tx : Message × StakingCall) (hstep : stakingStep s tx = .ok s') :
    (s'.balance : ℤ) - s.balance = (s'.liabilities : ℤ) - s.liabilities := by
  have hguard (s : Storage) (tx) (s' : Storage) (hg : EpochsBounded s tx s') :
      s'.epoch < 2 ^ 63 := hg
  have hepoch := reachable_epoch_lt hguard h
  obtain ⟨hreg, horder⟩ := reachable_inOrder h (by omega)
  obtain ⟨-, heffect⟩ := stakingStep_effect hreg horder hstep
  have hconserves := heffect.conserves (by omega) (reachable_ledger hguard h)
  omega

/-- A claim in the opened state is paid out of the liabilities. -/
theorem funds_conserved_opened :
    ∃ s', stakingStep openedState (userMessage 7 0 (by decide), .claimRewards 1) = .ok s' ∧
      s'.balance < openedState.balance ∧
      (s'.balance : ℤ) - openedState.balance = (s'.liabilities : ℤ) - openedState.liabilities := by
  have hok : (stakingStep openedState (userMessage 7 0 (by decide), .claimRewards 1)).isOk =
      true := by decide +kernel
  obtain ⟨s', hs'⟩ := exists_of_isOk hok
  have hpaid : (stakingStep openedState (userMessage 7 0 (by decide),
      .claimRewards 1)).toOption.all fun s' => decide (s'.balance < openedState.balance) := by
    decide +kernel
  rw [hs', Except.toOption, Option.all_some, decide_eq_true_iff] at hpaid
  exact ⟨s', hs', hpaid, funds_conserved openedState_bounded _ hs'⟩

/-- The contract owns what it owes. -/
theorem balance_eq_liabilities (hguard : ∀ s tx s', guard s tx s' → s'.epoch < 2 ^ 63)
    (h : Reachable stakingStep guard .empty s) : s.balance = s.liabilities := by
  induction h with
  | start =>
    have hzero : Storage.empty.liabilities = 0 := by
      rw [liabilities_eq_sum]
      refine Finset.sum_eq_zero fun v _ => ?_
      have hheld : ∑ d, Pool.held ((Storage.empty.pool v).delegators d) = 0 :=
        Finset.sum_eq_zero fun _ _ => rfl
      have hrequests : ∑ d, ∑ w, ((Storage.empty.pool v).withdrawals d w).amount = 0 :=
        Finset.sum_eq_zero fun _ _ => Finset.sum_eq_zero fun _ _ => rfl
      rw [Pool.liabilities, hheld, hrequests]
      rfl
    rw [hzero]
    rfl
  | @call s s' tx hreach hs hg ih =>
    have hepoch := reachable_epoch_lt hguard hreach
    obtain ⟨hreg, horder⟩ := reachable_inOrder hreach (by omega)
    obtain ⟨-, heffect⟩ := stakingStep_effect hreg horder hs
    have hconserves := heffect.conserves (by omega) (reachable_ledger hguard hreach)
    omega

end Reachable

end SuwappuRevm.Staking
