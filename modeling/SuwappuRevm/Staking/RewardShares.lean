import SuwappuRevm.Staking.ExtraSettlements

/-!
# Shares in the rewards

The eager description of the pool: a reward is shared at once among those who earn in its epoch, in
proportion to what each earns with. What a delegator earns with follows from the calls it has made.
The lazy accounts credit the same, up to one unit for each evaluation, and what the pool holds back
is what it still owes, that rounding, and the rounding of the index.
-/

namespace SuwappuRevm.Staking

open Foundations Finset

namespace PoolEvent

/-- The rewards that an event takes out of the account of a delegator. -/
def takes (d : Address) : PoolEvent → ℕ
  | .claimed d' rewards => if d' = d then rewards else 0
  | .withdrawn d' _ rewards => if d' = d then rewards else 0
  | _ => 0

/-- The commissions that an event credits to a delegator. -/
def commissions (d : Address) : PoolEvent → ℕ
  | .commission d' amount => if d' = d then amount else 0
  | _ => 0

/-- The rewards that an event brings to the delegators of the pool. -/
def inflow : PoolEvent → ℕ
  | .rewarded _ reward _ => reward
  | _ => 0

/-- What the index loses to rounding in an event. -/
def rounding : PoolEvent → ℕ
  | .rewarded _ reward activeStake => reward * unitBias % activeStake
  | _ => 0

/-- A measure of what happens to one delegator. -/
def About (d : Address) (measure : PoolEvent → ℕ) : Prop :=
  ∀ e, e.account ≠ some d → measure e = 0

/-- Credits are about their account. -/
theorem credits_about (d : Address) : About d (credits d) := by
  rintro (_ | _ | _ | _ | _ | _ | _) he <;> simp_all [account, credits]

/-- Evaluations are about their account. -/
theorem evaluates_about (d : Address) : About d (evaluates d) := by
  rintro (_ | _ | _ | _ | _ | _ | _) he <;> simp_all [account, evaluates]

/-- Delegations are about their account. -/
theorem joins_about (d : Address) (k : ℕ) : About d (joins d k) := by
  rintro (_ | _ | _ | _ | _ | _ | _) he <;> simp_all [account, joins]

/-- Undelegations are about their account. -/
theorem leaves_about (d : Address) (k : ℕ) : About d (leaves d k) := by
  rintro (_ | _ | _ | _ | _ | _ | _) he <;> simp_all [account, leaves]

/-- Claims are about their account. -/
theorem takes_about (d : Address) : About d (takes d) := by
  rintro (_ | _ | _ | _ | _ | _ | _) he <;> simp_all [account, takes]

/-- Commissions are about their account. -/
theorem commissions_about (d : Address) : About d (commissions d) := by
  rintro (_ | _ | _ | _ | _ | _ | _) he <;> simp_all [account, commissions]

end PoolEvent

namespace Pool

variable {cur : ℕ} {b : Bool} {p p' : Pool} {i o : ℕ}

section Measures

variable (p)

/-- What a delegator earns with in an epoch by the calls it has made: what it has delegated with
effect up to the epoch, less what it has undelegated with effect up to it. -/
def weight (d : Address) (epoch : ℕ) : ℕ :=
  p.tally (PoolEvent.joins d epoch) - p.tally (PoolEvent.leaves d epoch)

/-- The share of a delegator in all rewards, in units of `1 / unitBias`: of every increment of the
index, as much as it earns with at that epoch. -/
def exactShare (d : Address) : ℕ := eagerTotal p.log (p.weight d)

/-- The rewards credited to a delegator other than commissions. -/
def credited (d : Address) : ℕ := p.tally (PoolEvent.credits d)

/-- The evaluations of the index made for a delegator. -/
def evaluations (d : Address) : ℕ := p.tally (PoolEvent.evaluates d)

end Measures

/-- New events add to a tally. -/
theorem tally_append {events : List PoolEvent} (h : p'.history = events ++ p.history)
    (measure : PoolEvent → ℕ) : p'.tally measure = total measure events + p.tally measure := by
  rw [tally, h, List.map_append, List.sum_append, tally, total]

/-- The events of one delegator measure nothing for another. -/
theorem total_eq_zero {d d' : Address} {measure : PoolEvent → ℕ} {events : List PoolEvent}
    (hmeasure : PoolEvent.About d' measure) (haccount : ∀ e ∈ events, e.account = some d)
    (hd : d' ≠ d) : total measure events = 0 := by
  refine List.sum_eq_zero fun x hx => ?_
  obtain ⟨e, he, rfl⟩ := List.mem_map.mp hx
  refine hmeasure e fun hsame => hd ?_
  exact Option.some.inj (hsame.symm.trans (haccount e he))

/-- A reward is about no delegator. -/
theorem reward_tally {d : Address} {measure : PoolEvent → ℕ} (h : PoolEvent.About d measure)
    (amount : ℕ) : (p.reward cur b amount).tally measure = p.tally measure := by
  have hnone : measure (.rewarded cur amount (p.view b)) = 0 := h _ (Option.some_ne_none d).symm
  have hhistory : (p.reward cur b amount).history =
      [.rewarded cur amount (p.view b)] ++ p.history := rfl
  rw [tally_append hhistory, total, List.map_singleton, List.sum_singleton, hnone, Nat.zero_add]

section Accounts

/-- The lazy accounts are in step with the eager shares: each earns with what its calls say, and
what it was credited and is still owed is its share, up to one unit for each evaluation. -/
structure Shares (cur : ℕ) (p : Pool) : Prop where
  earning_eq : ∀ d k, cur ≤ k →
    p.earningOf d k + p.tally (PoolEvent.leaves d k) = p.tally (PoolEvent.joins d k)
  credited_le : ∀ d, unitBias * p.credited d + p.owedTo d ≤ p.exactShare d
  share_le : ∀ d, p.exactShare d ≤ unitBias * (p.credited d + p.evaluations d) + p.owedTo d

/-- What an account earns with in the current epoch is its weight. -/
theorem Shares.weight_eq (hs : p.Shares cur) (d : Address) :
    p.weight d cur = p.earningOf d cur := by
  have hearning := hs.earning_eq d cur le_rfl
  rw [weight]
  omega

/-- A step on one account leaves the shares in past rewards alone. -/
theorem Settles.exactShare_eq {act exact : ℕ} {d : Address} {events : List PoolEvent}
    (hp : p.Sound cur b) (hact : cur < act) (h : p.Settles cur act d exact events p')
    (d' : Address) : p'.exactShare d' = p.exactShare d' := by
  rw [exactShare, exactShare, log_eq h.history_eq h.account_eq]
  refine eagerTotal_congr fun e he => ?_
  have htime := hp.times e he
  have hnone : total (PoolEvent.joins d' e.1) events = 0 ∧
      total (PoolEvent.leaves d' e.1) events = 0 := by
    by_cases hd : d' = d
    · subst hd
      exact (h.moves_eq e.1 (htime.trans_lt hact)).symm
    · exact ⟨total_eq_zero (PoolEvent.joins_about d' e.1) h.account_eq hd,
        total_eq_zero (PoolEvent.leaves_about d' e.1) h.account_eq hd⟩
  rw [weight, weight, tally_append h.history_eq, tally_append h.history_eq, hnone.1, hnone.2,
    Nat.zero_add, Nat.zero_add]

/-- A step on one account keeps all accounts in step. -/
theorem Shares.settles {exact : ℕ} {d : Address} {events : List PoolEvent}
    (hcur : cur + 2 < 2 ^ 64) (hp : p.Sound cur b) (hs : p.Shares cur)
    (h : p.Settles cur (activationEpoch cur b) d exact events p') : p'.Shares cur := by
  have hshare := h.exactShare_eq hp (activationEpoch_gt hcur b)
  have htally := tally_append h.history_eq
  have hother {d' : Address} (hd : d' ≠ d) {measure : PoolEvent → ℕ}
      (hmeasure : PoolEvent.About d' measure) : p'.tally measure = p.tally measure := by
    rw [htally, total_eq_zero hmeasure h.account_eq hd, Nat.zero_add]
  refine ⟨fun d' k hk => ?_, fun d' => ?_, fun d' => ?_⟩
  · by_cases hd : d' = d
    · subst hd
      have hmove := h.earning_eq k hk
      have hold := hs.earning_eq d' k hk
      rw [htally, htally]
      omega
    · rw [(h.other hd).2.1, hother hd (PoolEvent.leaves_about d' k),
        hother hd (PoolEvent.joins_about d' k)]
      exact hs.earning_eq d' k hk
  · rw [hshare, credited]
    by_cases hd : d' = d
    · subst hd
      have howed := h.owed_eq
      have hcredits := h.credits_le
      have hold := hs.credited_le d'
      rw [credited] at hold
      rw [htally, Nat.mul_add]
      omega
    · rw [hother hd (PoolEvent.credits_about d'), (h.other hd).1]
      exact hs.credited_le d'
  · rw [hshare, credited, evaluations]
    by_cases hd : d' = d
    · subst hd
      have howed := h.owed_eq
      have hexact := h.exact_le
      have hold := hs.share_le d'
      rw [credited, evaluations] at hold
      rw [htally, htally]
      simp only [Nat.mul_add] at hexact hold ⊢
      omega
    · rw [hother hd (PoolEvent.credits_about d'), hother hd (PoolEvent.evaluates_about d'),
        (h.other hd).1]
      exact hs.share_le d'

/-- A reward gives every delegator a share by what it earns with. -/
theorem Shares.reward_exactShare (hs : p.Shares cur) (amount : ℕ) (d : Address) :
    (p.reward cur b amount).exactShare d =
      amount * unitBias / p.view b * p.earningOf d cur + p.exactShare d := by
  have hweight : (p.reward cur b amount).weight d = p.weight d := by
    funext k
    rw [weight, weight, reward_tally (PoolEvent.joins_about d k),
      reward_tally (PoolEvent.leaves_about d k)]
  rw [exactShare, hweight, reward_log, eagerTotal_cons, hs.weight_eq, exactShare]

/-- A reward keeps all accounts in step: each is owed the increment times what it earns with. -/
theorem Shares.reward (hp : p.Sound cur b) (hs : p.Shares cur) (amount : ℕ) :
    (p.reward cur b amount).Shares cur := by
  have hshare := hs.reward_exactShare (b := b) amount
  have howed := reward_owedTo hp amount
  refine ⟨fun d k hk => ?_, fun d => ?_, fun d => ?_⟩
  · rw [reward_tally (PoolEvent.joins_about d k), reward_tally (PoolEvent.leaves_about d k)]
    exact hs.earning_eq d k hk
  · have hold := hs.credited_le d
    rw [hshare, howed, credited, reward_tally (PoolEvent.credits_about d), ← credited]
    omega
  · have hold := hs.share_le d
    rw [hshare, howed, credited, evaluations, reward_tally (PoolEvent.credits_about d),
      reward_tally (PoolEvent.evaluates_about d), ← credited, ← evaluations]
    omega

/-- Quiet runs keep the accounts in step. -/
theorem QuietRun.shares (hcur : cur + 2 < 2 ^ 64) (hledger : p.Ledger) (hepochs : p.EpochsOk cur b)
    (hp : p.Sound cur b) (hs : p.Shares cur) (h : p.QuietRun cur b i o p') : p'.Shares cur := by
  induction h with
  | refl => exact hs
  | step hrun hstep ih =>
    have hsound := hrun.sound hcur hledger hepochs hp
    rcases hstep.settles (hrun.ledger hledger).1 (hrun.epochsOk hepochs) hsound with
      ⟨d, exact, events, hsettles⟩ | ⟨-, rfl⟩
    · exact ih.settles hcur hsound hsettles
    · exact ih.reward hsound _

/-- Runs keep the accounts in step while references can be counted. -/
theorem Run.shares (hcur : cur + 2 < 2 ^ 64) (hledger : p.Ledger) (hepochs : p.EpochsOk cur b)
    (hp : p.Sound cur b) (hs : p.Shares cur) (hcount : ∀ k, p'.references k < 2 ^ 64)
    (h : p.Run cur b i o p') : p'.Shares cur := by
  cases h with
  | quiet hrun => exact hrun.shares hcur hledger hepochs hp hs
  | enter hrun hstep =>
    have hsound := hrun.sound hcur hledger hepochs hp
    obtain ⟨d, events, hsettles⟩ := hstep.settles hcur hsound (hrun.ledger hledger).1
      (hrun.epochsOk hepochs) hcount
    exact (hrun.shares hcur hledger hepochs hp hs).settles hcur hsound hsettles

/-- What leaves history and accounts alone keeps them in step, also in a later epoch. -/
theorem Shares.congr {cur' : ℕ} (hs : p.Shares cur) (hcur : cur ≤ cur')
    (hhistory : p'.history = p.history) (hacc : p'.acc = p.acc)
    (hdelegators : p'.delegators = p.delegators) (hwithdrawals : p'.withdrawals = p.withdrawals) :
    p'.Shares cur' := by
  obtain ⟨hlog, -, howed, hearning, -⟩ := account_congr hhistory hacc hdelegators hwithdrawals
  have htally (measure : PoolEvent → ℕ) : p'.tally measure = p.tally measure := by
    rw [tally, hhistory, tally]
  have hshare (d : Address) : p'.exactShare d = p.exactShare d := by
    rw [exactShare, exactShare, hlog]
    exact eagerTotal_congr fun e _ => by rw [weight, weight, htally, htally]
  refine ⟨fun d k hk => ?_, fun d => ?_, fun d => ?_⟩
  · rw [hearning, htally, htally]
    exact hs.earning_eq d k (hcur.trans hk)
  · rw [hshare, credited, htally, howed]
    exact hs.credited_le d
  · rw [hshare, credited, evaluations, htally, htally, howed]
    exact hs.share_le d

/-- Evolutions of an orderly run keep the accounts in step while references can be counted. -/
theorem Evolves.shares {cur' : ℕ} {b' : Bool} (hcur : cur + 2 < 2 ^ 64) (hledger : p.Ledger)
    (hepochs : p.EpochsOk cur b) (hp : p.Sound cur b) (hs : p.Shares cur)
    (hcount : ∀ k, p'.references k < 2 ^ 64) (h : p.Evolves cur b cur' b' p') :
    p'.Shares cur' := by
  cases h with
  | idle => exact hs
  | run hrun => exact hrun.shares hcur hledger hepochs hp hs hcount
  | snapshot hboundary hsnap =>
    exact hs.congr le_rfl hsnap.history_eq hsnap.acc_eq hsnap.delegators_eq hsnap.withdrawals_eq
  | refresh next hlt => exact hs.congr hlt.le rfl rfl rfl rfl
  | skip next hlt => exact hs.congr hlt.le rfl rfl rfl rfl

end Accounts

section Purses

/-- Where the rewards of every delegator are: what it holds and what was taken for it is what it
was credited. -/
def Purses (p : Pool) : Prop :=
  ∀ d, (p.delegators d).rewards + p.tally (PoolEvent.takes d) =
    p.credited d + p.tally (PoolEvent.commissions d)

/-- Rewriting one record along events of its account keeps the purses when the events say what the
record gains and loses. -/
theorem Purses.update {d : Address} {r : Delegator} (hp : p.Purses) (events : List PoolEvent)
    (hhistory : p'.history = events ++ p.history)
    (hdelegators : p'.delegators = Function.update p.delegators d r)
    (haccount : ∀ e ∈ events, e.account = some d)
    (hmove : r.rewards + total (PoolEvent.takes d) events = (p.delegators d).rewards +
      total (PoolEvent.credits d) events + total (PoolEvent.commissions d) events) :
    p'.Purses := by
  intro d'
  have hold := hp d'
  have htally := tally_append hhistory
  rw [credited] at hold ⊢
  rw [htally, htally, htally, hdelegators]
  by_cases hd : d' = d
  · subst hd
    rw [Function.update_self]
    omega
  · rw [Function.update_of_ne hd, total_eq_zero (PoolEvent.takes_about d') haccount hd,
      total_eq_zero (PoolEvent.credits_about d') haccount hd,
      total_eq_zero (PoolEvent.commissions_about d') haccount hd]
    omega

/-- A quiet step keeps the purses. -/
theorem Quiet.purses (hp : p.Purses) (h : p.Quiet cur b i o p') : p'.Purses := by
  cases h with
  | promote d =>
    exact hp.update [] rfl rfl (by simp) (by simp [total, Delegator.shiftNext])
  | compound d rewards =>
    exact hp.update [.settled d rewards] rfl rfl (by simp [PoolEvent.account])
      (by simp [total, PoolEvent.takes, PoolEvent.credits, PoolEvent.commissions,
        Delegator.compounded])
  | accrue d rewards =>
    exact hp.update [.settled d rewards] rfl rfl (by simp [PoolEvent.account])
      (by simp [total, PoolEvent.takes, PoolEvent.credits, PoolEvent.commissions,
        Delegator.accrued])
  | take d =>
    exact hp.update [.claimed d (p.delegators d).rewards] rfl rfl
      (by simp [PoolEvent.account])
      (by simp [total, PoolEvent.takes, PoolEvent.credits, PoolEvent.commissions])
  | pay d w rewards =>
    exact hp.update [.withdrawn d (p.withdrawals d w).amount rewards] rfl
      (Function.update_eq_self d p.delegators).symm (by simp [PoolEvent.account])
      (by simp [total, PoolEvent.takes, PoolEvent.credits, PoolEvent.commissions])
  | commission d =>
    exact hp.update [.commission d i] rfl rfl (by simp [PoolEvent.account])
      (by simp [total, PoolEvent.takes, PoolEvent.credits, PoolEvent.commissions])
  | reward =>
    intro d
    rw [credited, reward_tally (PoolEvent.takes_about d), reward_tally (PoolEvent.credits_about d),
      reward_tally (PoolEvent.commissions_about d)]
    exact hp d

/-- An entering step keeps the purses. -/
theorem Enter.purses (hp : p.Purses) (h : p.Enter cur b i p') : p'.Purses := by
  cases h with
  | join d amount =>
    refine hp.update [.delegated d i (activationEpoch cur b)] rfl rfl
      (by simp [PoolEvent.account]) ?_
    simp only [total, PoolEvent.takes, PoolEvent.credits, PoolEvent.commissions, List.map_singleton,
      List.sum_singleton, Delegator.addTo]
    split <;> rfl
  | leave d w amount =>
    exact hp.update [.undelegated d amount (activationEpoch cur b)] rfl rfl
      (by simp [PoolEvent.account])
      (by simp [total, PoolEvent.takes, PoolEvent.credits, PoolEvent.commissions,
        Delegator.removed])

/-- Quiet runs keep the purses. -/
theorem QuietRun.purses (hp : p.Purses) (h : p.QuietRun cur b i o p') : p'.Purses :=
  h.preserves Purses (fun _ _ _ _ hp hstep => hstep.purses hp) hp

/-- Evolutions keep the purses. -/
theorem Evolves.purses {cur' : ℕ} {b' : Bool} (hp : p.Purses) (h : p.Evolves cur b cur' b' p') :
    p'.Purses := by
  cases h with
  | idle => exact hp
  | run hrun =>
    cases hrun with
    | quiet hrun => exact hrun.purses hp
    | enter hrun hstep => exact hstep.purses (hrun.purses hp)
  | snapshot hboundary hsnap =>
    intro d
    have hold := hp d
    rwa [credited, tally, tally, tally, hsnap.history_eq, hsnap.delegators_eq]
  | refresh next => exact hp
  | skip next => exact hp

end Purses

section Pot

/-- Where all rewards of the pool are: what is not credited yet is unclaimed, and the shares are
all of it but for the rounding of the index. -/
structure Pot (p : Pool) : Prop where
  unclaimed_eq : p.unclaimed + ∑ d, p.credited d = p.tally PoolEvent.inflow
  shared_eq : ∑ d, p.exactShare d + p.tally PoolEvent.rounding =
    unitBias * p.tally PoolEvent.inflow

/-- The events of an account bring nothing in and round no index. -/
theorem total_of_account {d : Address} {events : List PoolEvent}
    (haccount : ∀ e ∈ events, e.account = some d) :
    total PoolEvent.inflow events = 0 ∧ total PoolEvent.rounding events = 0 := by
  constructor <;>
  · refine List.sum_eq_zero fun x hx => ?_
    obtain ⟨e, he, rfl⟩ := List.mem_map.mp hx
    have hsome := haccount e he
    cases e <;> first | rfl | cases hsome

/-- A step on one account keeps the pot. -/
theorem Pot.settles {act exact : ℕ} {d : Address} {events : List PoolEvent} (hact : cur < act)
    (hp : p.Sound cur b) (hpot : p.Pot) (h : p.Settles cur act d exact events p') : p'.Pot := by
  have htally := tally_append h.history_eq
  obtain ⟨hinflow, hrounding⟩ := total_of_account h.account_eq
  have hself : p'.credited d = total (PoolEvent.credits d) events + p.credited d := htally _
  have hoff (d' : Address) (hd : d' ≠ d) : p'.credited d' = p.credited d' := by
    rw [credited, htally, total_eq_zero (PoolEvent.credits_about d') h.account_eq hd, Nat.zero_add,
      credited]
  have hsum := sum_add_eq_of_eq_off d hoff
  have hunclaimed := h.unclaimed_eq
  have hold := hpot.unclaimed_eq
  constructor
  · rw [htally, hinflow, Nat.zero_add]
    omega
  · rw [htally, htally, hinflow, hrounding, Nat.zero_add, Nat.zero_add,
      Finset.sum_congr rfl fun d' _ => h.exactShare_eq hp hact d']
    exact hpot.shared_eq

/-- A reward keeps the pot: those who earn are the stake of the view. -/
theorem Pot.reward (hp : p.Sound cur b) (hs : p.Shares cur) (hpot : p.Pot) (hview : p.view b ≠ 0)
    (amount : ℕ) : (p.reward cur b amount).Pot := by
  have hhistory : (p.reward cur b amount).history =
      [.rewarded cur amount (p.view b)] ++ p.history := rfl
  have hinflow : (p.reward cur b amount).tally PoolEvent.inflow =
      amount + p.tally PoolEvent.inflow := by
    rw [tally_append hhistory]
    rfl
  have hrounding : (p.reward cur b amount).tally PoolEvent.rounding =
      amount * unitBias % p.view b + p.tally PoolEvent.rounding := by
    rw [tally_append hhistory, total, List.map_singleton, List.sum_singleton, PoolEvent.rounding]
  have hunclaimed : (p.reward cur b amount).unclaimed = p.unclaimed + amount := rfl
  have hsplit := Nat.div_add_mod' (amount * unitBias) (p.view b)
  constructor
  · have hcredited (d : Address) : (p.reward cur b amount).credited d = p.credited d :=
      reward_tally (PoolEvent.credits_about d) amount
    have hsum : ∑ d, (p.reward cur b amount).credited d = ∑ d, p.credited d :=
      Finset.sum_congr rfl fun d _ => hcredited d
    have hold := hpot.unclaimed_eq
    rw [hinflow, hunclaimed, hsum]
    omega
  · have hold := hpot.shared_eq
    rw [hinflow, hrounding, Finset.sum_congr rfl fun d _ => hs.reward_exactShare amount d,
      Finset.sum_add_distrib, ← Finset.mul_sum, hp.view hview, Nat.mul_add,
      Nat.mul_comm unitBias amount]
    omega

/-- Quiet runs keep the pot. -/
theorem QuietRun.pot (hcur : cur + 2 < 2 ^ 64) (hledger : p.Ledger) (hepochs : p.EpochsOk cur b)
    (hp : p.Sound cur b) (hs : p.Shares cur) (hpot : p.Pot) (h : p.QuietRun cur b i o p') :
    p'.Pot := by
  induction h with
  | refl => exact hpot
  | step hrun hstep ih =>
    have hsound := hrun.sound hcur hledger hepochs hp
    rcases hstep.settles (hrun.ledger hledger).1 (hrun.epochsOk hepochs) hsound with
      ⟨d, exact, events, hsettles⟩ | ⟨hview, rfl⟩
    · exact ih.settles (activationEpoch_gt hcur b) hsound hsettles
    · exact ih.reward hsound (hrun.shares hcur hledger hepochs hp hs) hview _

/-- Evolutions of an orderly run keep the pot while references can be counted. -/
theorem Evolves.pot {cur' : ℕ} {b' : Bool} (hcur : cur + 2 < 2 ^ 64) (hledger : p.Ledger)
    (hepochs : p.EpochsOk cur b) (hp : p.Sound cur b) (hs : p.Shares cur) (hpot : p.Pot)
    (hcount : ∀ k, p'.references k < 2 ^ 64) (h : p.Evolves cur b cur' b' p') : p'.Pot := by
  cases h with
  | idle => exact hpot
  | run hrun =>
    cases hrun with
    | quiet hrun => exact hrun.pot hcur hledger hepochs hp hs hpot
    | enter hrun hstep =>
      have hsound := hrun.sound hcur hledger hepochs hp
      obtain ⟨d, events, hsettles⟩ := hstep.settles hcur hsound (hrun.ledger hledger).1
        (hrun.epochsOk hepochs) hcount
      exact (hrun.pot hcur hledger hepochs hp hs hpot).settles (activationEpoch_gt hcur b) hsound
        hsettles
  | snapshot hboundary hsnap =>
    obtain ⟨hlog, -⟩ := account_congr hsnap.history_eq hsnap.acc_eq hsnap.delegators_eq
      hsnap.withdrawals_eq
    have htally (measure : PoolEvent → ℕ) : p'.tally measure = p.tally measure := by
      rw [tally, hsnap.history_eq, tally]
    have hshare (d : Address) : p'.exactShare d = p.exactShare d := by
      rw [exactShare, exactShare, hlog]
      exact eagerTotal_congr fun e _ => by rw [weight, weight, htally, htally]
    have hcredited (d : Address) : p'.credited d = p.credited d := htally (PoolEvent.credits d)
    constructor
    · rw [hsnap.unclaimed_eq, htally, Finset.sum_congr rfl fun d _ => hcredited d]
      exact hpot.unclaimed_eq
    · rw [htally, htally, Finset.sum_congr rfl fun d _ => hshare d]
      exact hpot.shared_eq
  | refresh next => exact ⟨hpot.unclaimed_eq, hpot.shared_eq⟩
  | skip next => exact hpot

end Pot

end Pool

section Reachable

variable {s : Storage}

/-- The rewards are where the purses say in every reachable state. -/
theorem reachable_purses {guard : Storage → Message × StakingCall → Storage → Prop}
    (h : Reachable stakingStep guard .empty s) (hcur : s.epoch + 1 < 2 ^ 64) (v : ValId) :
    (s.pool v).Purses :=
  reachable_pool (fun _ _ p => p.Purses) (fun _ _ => rfl)
    (fun _ _ _ _ _ _ _ hp hevolves => hevolves.purses hp) h hcur v

/-- In an orderly run with countable references lazy accounts and eager shares stay in step. -/
theorem reachable_shares (h : Reachable stakingStep OrderlyCounted .empty s) (v : ValId) :
    (s.pool v).Shares s.epoch ∧ (s.pool v).Pot := by
  have hguard (s : Storage) (tx) (s' : Storage) (hg : OrderlyCounted s tx s') :
      s'.epoch < 2 ^ 63 := hg.1.1
  induction h with
  | start =>
    have howed (d : Address) : (Storage.empty.pool v).owedTo d = 0 := by
      have hcell := cell_le_sum (Storage.empty.pool v).owedTo d
      have hsolvent : _ ≤ unitBias * 0 := (sound_empty v).solvent
      omega
    have hearning (d : Address) (k : ℕ) : (Storage.empty.pool v).earningOf d k = 0 := by
      have hrequest (w : WithdrawId) :
          ((Storage.empty.pool v).withdrawals d w).earning k = 0 := if_neg (Nat.not_lt_zero k)
      have hrecord : ((Storage.empty.pool v).delegators d).earning k = 0 := by
        change 0 + (if 0 ≤ k then 0 else 0) + (if 0 ≤ k then 0 else 0) = 0
        simp
      rw [Pool.earningOf, hrecord, Finset.sum_eq_zero fun w _ => hrequest w, Nat.zero_add]
    have htally (measure : PoolEvent → ℕ) : (Storage.empty.pool v).tally measure = 0 := rfl
    have hcredited (d : Address) : (Storage.empty.pool v).credited d = 0 := htally _
    have hshare : (Storage.empty.pool v).exactShare = fun _ => 0 := rfl
    refine ⟨⟨fun d k _ => ?_, fun d => ?_, fun d => ?_⟩, ?_, ?_⟩
    · rw [hearning, htally, htally]
    · rw [howed, hcredited, hshare, Nat.mul_zero]
    · rw [hshare]
      exact Nat.zero_le _
    · rw [Finset.sum_eq_zero fun d _ => hcredited d, htally]
      rfl
    · rw [hshare, Finset.sum_const_zero, htally, htally, Nat.mul_zero]
  | @call s s' tx hreach hs hg ih =>
    obtain ⟨hshares, hpot⟩ := ih
    have hepoch := reachable_epoch_lt hguard hreach
    obtain ⟨hreg, horder⟩ := reachable_inOrder hreach (by omega)
    obtain ⟨-, heffect⟩ := stakingStep_effect hreg horder hs
    have hevolves := heffect.evolves v
    have hledger := reachable_ledger hguard hreach v
    have hsound := reachable_sound hreach v
    exact ⟨hevolves.shares (by omega) hledger (horder v).2 hsound hshares (hg.2 v),
      hevolves.pot (by omega) hledger (horder v).2 hsound hshares hpot (hg.2 v)⟩

/-- The account of a delegator against its shares: the rewards it holds and those taken for it are
those credited, and these with what it is owed are its share, up to one unit for each evaluation. -/
structure PaidShares (p : Pool) (d : Address) (owed : ℕ) : Prop where
  held_eq : (p.delegators d).rewards + p.tally (PoolEvent.takes d) =
    p.credited d + p.tally (PoolEvent.commissions d)
  credited_le : unitBias * p.credited d + owed ≤ p.exactShare d
  share_le : p.exactShare d ≤ unitBias * (p.credited d + p.evaluations d) + owed

/-- A record at rest is owed nothing, so its account is owed what its requests are. -/
theorem Pool.AtRest.owedTo_eq {p : Pool} {cur : ℕ} {b : Bool} {d : Address} (h : p.AtRest cur d)
    (hp : p.Sound cur b) (ht : (p.delegators d).Tracked) :
    p.owedTo d = ∑ w, (p.withdrawals d w).owed p.indexAt := by
  have hstake : (p.delegators d).stake *
      (p.acc - (p.delegators d).accumulatedRewardPerToken) = 0 := by
    by_cases hzero : (p.delegators d).stake = 0
    · rw [hzero, Nat.zero_mul]
    · rw [h.last_eq hzero, Nat.sub_self, Nat.mul_zero]
  have hpending {epoch stake : ℕ} (hdue : epoch = 0 ∨ cur < epoch)
      (htrack : stake ≠ 0 ↔ epoch ≠ 0) : stake * (p.acc - p.indexAt epoch) = 0 := by
    rcases hdue with hzero | hlater
    · rw [not_not.mp (mt htrack.mp (not_not.mpr hzero)), Nat.zero_mul]
    · rw [hp.indexAt_later hlater, Nat.sub_self, Nat.mul_zero]
  have hnext : (p.delegators d).nextDeltaEpoch = 0 ∨ cur < (p.delegators d).nextDeltaEpoch :=
    h.settled.next.imp_right (Nat.lt_succ_self cur).trans
  rw [owedTo, Delegator.owed, hstake, hpending h.settled.delta ht.delta_iff,
    hpending hnext ht.next_iff, Nat.zero_add]

/-- The accumulator scheme refines per-event sharing. In every state of an orderly run the account
of every delegator is paid its shares but for what it is still owed, and a settlement leaves no more
owed than the shares of the open requests. -/
theorem accumulator_refines_shares (h : Reachable stakingStep OrderlyCounted .empty s) (v : ValId)
    (d : Address) :
    PaidShares (s.pool v) d ((s.pool v).owedTo d) ∧
      ∃ del s', pullDelegatorUpToDate s v d = .ok (del, s') ∧
        PaidShares (s'.pool v) d (∑ w, (s.withdrawals v d w).owed (s.pool v).indexAt) := by
  obtain ⟨hshares, -⟩ := reachable_shares h v
  obtain ⟨hepoch, hsolvent⟩ := reachable_solvent h v
  have hpurses := reachable_purses h (by omega) v
  refine ⟨⟨hpurses d, hshares.credited_le d, hshares.share_le d⟩, ?_⟩
  obtain ⟨del, s', hpull, -⟩ := pullDelegatorUpToDate_succeeds (by omega) hsolvent d
  obtain ⟨hrun, -⟩ := pullDelegatorUpToDate_spec (by omega) (hsolvent.epochs d) hpull
  have hrest := pullDelegatorUpToDate_leaves_atRest (by omega) (hsolvent.epochs d) hpull
  obtain ⟨htouches, -⟩ := pullDelegatorUpToDate_touches hpull
  have hsolvent' := hrun.solvent (by omega) hsolvent
  have hshares' := hrun.shares (by omega) hsolvent.ledger hsolvent.epochs hsolvent.sound hshares
  have hwithdrawals : (s'.pool v).withdrawals d = s.withdrawals v d := by
    rw [pullDelegatorUpToDate_pool hpull, ((s.pool v).pulled_upkeep s.epoch d).withdrawals_eq]
    rfl
  have hindex : (s'.pool v).indexAt = (s.pool v).indexAt := by
    funext k
    rw [Pool.indexAt, pullDelegatorUpToDate_pool hpull, Pool.pulled_log, Pool.indexAt]
  rw [htouches.epoch_eq] at hrest
  have howed := hrest.owedTo_eq hsolvent'.sound (hsolvent'.ledger.tracked d)
  rw [hwithdrawals, hindex] at howed
  refine ⟨del, s', hpull, hrun.purses hpurses d, ?_, ?_⟩
  · rw [← howed]
    exact hshares'.credited_le d
  · rw [← howed]
    exact hshares'.share_le d

/-- The settlement of the first delegator of the opened state pays it its share. -/
theorem accumulator_refines_shares_opened :
    PaidShares (openedState.pool 1) 7 ((openedState.pool 1).owedTo 7) ∧
      ∃ del s', pullDelegatorUpToDate openedState 1 7 = .ok (del, s') ∧
        PaidShares (s'.pool 1) 7
          (∑ w, (openedState.withdrawals 1 7 w).owed (openedState.pool 1).indexAt) :=
  accumulator_refines_shares openedState_orderlyCounted 1 7

/-- What a validator's pool holds back. In every state of an orderly run the unclaimed rewards are
what is owed and the rounding of the index, and at most one unit more for each evaluation. -/
theorem unclaimed_accounted (h : Reachable stakingStep OrderlyCounted .empty s) (v : ValId) :
    ∑ d, (s.pool v).owedTo d + (s.pool v).tally PoolEvent.rounding ≤
        unitBias * (s.validators v).unclaimedRewards ∧
      unitBias * (s.validators v).unclaimedRewards ≤ ∑ d, (s.pool v).owedTo d +
        (s.pool v).tally PoolEvent.rounding + unitBias * ∑ d, (s.pool v).evaluations d := by
  obtain ⟨hshares, hpot⟩ := reachable_shares h v
  have hunclaimed : (s.validators v).unclaimedRewards + ∑ d, (s.pool v).credited d =
      (s.pool v).tally PoolEvent.inflow := hpot.unclaimed_eq
  have hshared := hpot.shared_eq
  rw [← hunclaimed, Nat.mul_add, Finset.mul_sum] at hshared
  have hlower := Finset.sum_le_sum fun d (_ : d ∈ univ) => hshares.credited_le d
  have hupper := Finset.sum_le_sum fun d (_ : d ∈ univ) => hshares.share_le d
  simp only [Nat.mul_add, Finset.sum_add_distrib] at hlower hupper
  rw [Finset.mul_sum]
  constructor <;> omega

/-- The unclaimed rewards of the opened state are accounted for. -/
theorem unclaimed_accounted_opened :
    ∑ d, (openedState.pool 1).owedTo d + (openedState.pool 1).tally PoolEvent.rounding ≤
        unitBias * (openedState.validators 1).unclaimedRewards ∧
      unitBias * (openedState.validators 1).unclaimedRewards ≤
        ∑ d, (openedState.pool 1).owedTo d + (openedState.pool 1).tally PoolEvent.rounding +
          unitBias * ∑ d, (openedState.pool 1).evaluations d :=
  unclaimed_accounted openedState_orderlyCounted 1

end Reachable

end SuwappuRevm.Staking
