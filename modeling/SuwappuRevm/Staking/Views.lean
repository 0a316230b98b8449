import SuwappuRevm.Staking.RosterSteps

/-!
# Reward views

A snapshot moves the consensus view into the snapshot view and elects a new consensus view, and
rewards switch to the snapshot view at the same moment. So the view that rewards use does not
change before the next epoch begins: it is the stake and the commission of the elected validators
at the last snapshot before the epoch began.
-/

namespace SuwappuRevm.Staking

open Foundations

/-- The view that rewards use. -/
def Storage.rewardView (s : Storage) (v : ValId) : ConsensusView :=
  if s.inBoundary then s.snapshotView v else s.consensusView v

/-- The active stake is that of the view. -/
theorem activeStake_eq (s : Storage) (v : ValId) : s.activeStake v = (s.rewardView v).stake := by
  unfold Storage.activeStake Storage.rewardView
  split <;> rfl

/-- The commission is that of the view. -/
theorem viewCommission_eq (s : Storage) (v : ValId) :
    s.viewCommission v = (s.rewardView v).commission := by
  unfold Storage.viewCommission Storage.rewardView
  split <;> rfl

/-- The view a snapshot takes of a validator. -/
def Storage.takenView (s : Storage) (v : ValId) : ConsensusView :=
  if v ∈ electedIds s then ⟨(s.validators v).stake, (s.validators v).commission⟩ else .zero

/-- Who is in a set has a view, the others have none. -/
structure ViewsCleared (s : Storage) : Prop where
  consensus : ∀ v, v ∉ s.consensus.toList → s.consensusView v = .zero
  snapshot : ∀ v, v ∉ s.snapshot.toList → s.snapshotView v = .zero

/-- What every call but the two syscalls on the sets leaves alone. -/
structure SameViews (s s' : Storage) : Prop where
  epoch_eq : s'.epoch = s.epoch
  inBoundary_eq : s'.inBoundary = s.inBoundary
  consensus_eq : s'.consensus = s.consensus
  snapshot_eq : s'.snapshot = s.snapshot
  consensusView_eq : s'.consensusView = s.consensusView
  snapshotView_eq : s'.snapshotView = s.snapshotView
  commission_le : (∀ v, (s.validators v).commission ≤ maxCommission) →
    ∀ v, (s'.validators v).commission ≤ maxCommission

namespace SameViews

variable {s s' s'' : Storage} {v : ValId}

/-- A state has its own views. -/
theorem refl (s : Storage) : SameViews s s := ⟨rfl, rfl, rfl, rfl, rfl, rfl, id⟩

/-- Calls that keep the views compose. -/
theorem trans (h : SameViews s s') (h' : SameViews s' s'') : SameViews s s'' :=
  ⟨h'.1.trans h.1, h'.2.trans h.2, h'.3.trans h.3, h'.4.trans h.4, h'.5.trans h.5,
    h'.6.trans h.6, h'.7 ∘ h.7⟩

/-- What keeps clock and terms keeps the views. -/
theorem of_terms (htouches : Touches v s s') (hterms : SameTerms s.roster s'.roster) :
    SameViews s s' := by
  refine ⟨htouches.epoch_eq, htouches.inBoundary_eq, hterms.consensus_eq, hterms.snapshot_eq,
    hterms.consensusView_eq, hterms.snapshotView_eq, fun hle v' => ?_⟩
  have hsame : (s'.validators v').commission = (s.validators v').commission :=
    congrFun hterms.commission_eq v'
  rw [hsame]
  exact hle v'

/-- What keeps clock and roster keeps the views. -/
theorem of_roster (htouches : Touches v s s') (hroster : s'.roster = s.roster) : SameViews s s' :=
  of_terms htouches (hroster ▸ .refl s.roster)

/-- The reward views stay. -/
theorem rewardView_eq (h : SameViews s s') (v : ValId) : s'.rewardView v = s.rewardView v := by
  rw [Storage.rewardView, Storage.rewardView, h.inBoundary_eq, h.consensusView_eq,
    h.snapshotView_eq]

/-- Cleared views stay cleared. -/
theorem cleared (h : SameViews s s') (hs : ViewsCleared s) : ViewsCleared s' := by
  constructor
  · rw [h.consensus_eq, h.consensusView_eq]
    exact hs.consensus
  · rw [h.snapshot_eq, h.snapshotView_eq]
    exact hs.snapshot

end SameViews

/-- How a successful call treats the views. -/
inductive ViewStep (call : StakingCall) (s s' : Storage) : Prop
  | same (hcall : call ≠ .syscallSnapshot) (hsame : SameViews s s')
  | snapshot (hcall : call = .syscallSnapshot) (hboundary : s.inBoundary = false)
      (htake : s' = takeSnapshot s)
  | epochChange (next : Fin (2 ^ 64)) (hcall : call = .syscallOnEpochChange next)
      (hlt : s.epoch < next) (hchange : s' = changeEpoch s next)

section Dispatch

variable {s s' : Storage} {msg : Message} {answer : Answer}

/-- A new validator changes no view, and its commission is checked. -/
theorem handleAddValidator_sameViews {payload : Bytes}
    (h : handleAddValidator s msg payload = .ok answer) : SameViews s answer.storage := by
  obtain ⟨v, s₁, _, _, auth, commission, hcreate, hle, -, hdelegate⟩ := handleAddValidator_creates h
  refine SameViews.trans ?_
    (.of_terms (internalDelegate_touches hdelegate) (internalDelegate_terms hdelegate))
  simp only [createValidator, bind_eq_ok, pure_eq_ok, Prod.mk.injEq] at hcreate
  obtain ⟨-, -, -, -, rfl, rfl⟩ := hcreate
  refine ⟨rfl, rfl, rfl, rfl, rfl, rfl, fun hall v' => ?_⟩
  by_cases hv : v' = s.lastValId + 1
  · subst hv
    exact (congrArg Validator.commission (Function.update_self ..)).trans_le hle
  · exact (congrArg Validator.commission (Function.update_of_ne hv ..)).trans_le (hall v')

/-- A change of commission changes no view. -/
theorem handleChangeCommission_sameViews {v : ValId} {commission : ℕ}
    (h : handleChangeCommission s msg v commission = .ok answer) : SameViews s answer.storage := by
  have htouches := (handleChangeCommission_spec h).touches
  obtain ⟨-, hle, -, hroster⟩ := handleChangeCommission_roster h
  refine ⟨htouches.epoch_eq, htouches.inBoundary_eq, congrArg Roster.consensus hroster,
    congrArg Roster.snapshot hroster, congrArg Roster.consensusView hroster,
    congrArg Roster.snapshotView hroster, fun hall v' => ?_⟩
  have hcommission : (answer.storage.validators v').commission =
      Function.update s.roster.commission v commission v' :=
    congrFun (congrArg Roster.commission hroster) v'
  rw [hcommission, Function.update_apply]
  split
  · exact hle
  · exact hall v'

/-- The dispatch: only the two syscalls on the sets write views. -/
theorem stakingStep_viewStep {tx : Message × StakingCall} (h : stakingStep s tx = .ok s') :
    ViewStep tx.2 s s' := by
  obtain ⟨msg, call⟩ := tx
  simp only [stakingStep, bind_eq_ok, pure_eq_ok] at h
  obtain ⟨answer, h, rfl⟩ := h
  have hcredit : SameViews s (s.credit (income msg call)) := ⟨rfl, rfl, rfl, rfl, rfl, rfl, id⟩
  cases call with
  | addValidator payload => exact .same (by simp) (hcredit.trans (handleAddValidator_sameViews h))
  | delegate v =>
    exact .same (by simp)
      (hcredit.trans (.of_terms (handleDelegate_spec h).touches (handleDelegate_terms h)))
  | undelegate v amount w =>
    obtain ⟨-, h⟩ := notPayable_eq_ok h
    refine .same (by simp) (hcredit.trans ?_)
    by_cases hamount : amount = 0
    · simp only [handleUndelegate, bind_eq_ok, if_pos hamount] at h
      obtain ⟨-, -, h⟩ := h
      cases h
      exact .refl _
    · exact .of_terms (handleUndelegate_spec h).touches (handleUndelegate_terms hamount h)
  | withdraw v w =>
    obtain ⟨-, h⟩ := notPayable_eq_ok h
    obtain ⟨o, hcall⟩ := handleWithdraw_spec h
    exact .same (by simp) (hcredit.trans (.of_roster hcall.touches (handleWithdraw_roster h)))
  | compound v =>
    obtain ⟨-, h⟩ := notPayable_eq_ok h
    obtain ⟨i, o, hcall⟩ := handleCompound_spec h
    exact .same (by simp) (hcredit.trans (.of_terms hcall.touches (handleCompound_terms h)))
  | claimRewards v =>
    obtain ⟨-, h⟩ := notPayable_eq_ok h
    obtain ⟨o, hcall⟩ := handleClaimRewards_spec h
    exact .same (by simp) (hcredit.trans (.of_roster hcall.touches (handleClaimRewards_roster h)))
  | changeCommission v commission =>
    obtain ⟨-, h⟩ := notPayable_eq_ok h
    exact .same (by simp) (hcredit.trans (handleChangeCommission_sameViews h))
  | externalReward v =>
    exact .same (by simp) (hcredit.trans
      (.of_roster (handleExternalReward_spec h).touches (handleExternalReward_roster h)))
  | getDelegator v d =>
    obtain ⟨-, h⟩ := notPayable_eq_ok h
    exact .same (by simp) (hcredit.trans
      (.of_roster (handleGetDelegatorWrite_spec h).touches (handleGetDelegatorWrite_roster h)))
  | syscallReward author reward =>
    exact .same (by simp) (hcredit.trans
      (.of_roster (handleSyscallReward_spec h).touches (handleSyscallReward_roster h)))
  | syscallSnapshot =>
    obtain ⟨hvalue, h⟩ := notPayable_eq_ok h
    obtain ⟨-, hboundary, htake⟩ := handleSyscallSnapshot_eq_ok h
    have hnothing : s.credit (income msg .syscallSnapshot) = s := by
      rw [income, hvalue, Storage.credit_zero]
      simp
    rw [hnothing] at htake
    exact .snapshot rfl hboundary htake
  | syscallOnEpochChange next =>
    obtain ⟨hvalue, h⟩ := notPayable_eq_ok h
    obtain ⟨-, hlt, hchange⟩ := handleSyscallOnEpochChange_eq_ok h
    have hnothing : s.credit (income msg (.syscallOnEpochChange next)) = s := by
      rw [income, hvalue, Storage.credit_zero]
      simp
    rw [hnothing] at hchange
    exact .epochChange next rfl hlt hchange

end Dispatch

/-- The compaction of a snapshot writes neither sets of rewards nor views. -/
theorem compactExecutionSet_sameViews (s : Storage) : SameViews s (compactExecutionSet s) := by
  unfold compactExecutionSet
  generalize (removals s).reverse = idxs
  induction idxs generalizing s with
  | nil => exact .refl s
  | cons idx idxs ih =>
    rw [List.foldl_cons]
    refine SameViews.trans ?_ (ih _)
    exact ⟨rfl, rfl, rfl, rfl, rfl, rfl, id⟩

/-- A snapshot takes new consensus views and keeps the reward views. -/
theorem takeSnapshot_views {s : Storage} (hs : ViewsCleared s) :
    ViewsCleared (takeSnapshot s) ∧ (takeSnapshot s).epoch = s.epoch ∧
      (takeSnapshot s).inBoundary = true ∧
      (∀ v, (takeSnapshot s).consensusView v = s.takenView v) ∧
      (∀ v, (takeSnapshot s).snapshotView v = s.consensusView v) ∧
      (takeSnapshot s).consensus.toList = electedIds s ∧
      (takeSnapshot s).validators = s.validators := by
  have hvalidators := (takeSnapshot_sameLedger s).validators_eq
  have hcompact := compactExecutionSet_sameViews (electSnapshot s)
  have hconsensus := electSnapshot_consensus s
  have hsnapshot := electSnapshot_snapshot s
  have hconsensusView (v) : (electSnapshot s).consensusView v = s.takenView v := by
    change (if v ∈ electedIds s then _ else _) = s.takenView v
    unfold Storage.takenView
    by_cases helected : v ∈ electedIds s
    · rw [if_pos helected, if_pos helected]
    · rw [if_neg helected, if_neg helected]
      split
      · rfl
      · exact hs.consensus v ‹_›
  have hsnapshotView (v) : (electSnapshot s).snapshotView v = s.consensusView v := by
    change (if v ∈ s.consensus.toList then _ else _) = s.consensusView v
    split
    · rfl
    · rw [hs.consensus v ‹_›]
      split
      · rfl
      · exact hs.snapshot v ‹_›
  have hcleared : ViewsCleared (electSnapshot s) := by
    refine ⟨fun v hv => ?_, fun v hv => ?_⟩
    · rw [hconsensus] at hv
      rw [hconsensusView, Storage.takenView, if_neg hv]
    · rw [hsnapshot] at hv
      rw [hsnapshotView, hs.consensus v hv]
  have hepoch : (electSnapshot s).epoch = s.epoch := rfl
  have hboundary : (electSnapshot s).inBoundary = true := rfl
  rw [takeSnapshot_eq] at hvalidators ⊢
  generalize electSnapshot s = t at *
  refine ⟨hcompact.cleared hcleared, hcompact.epoch_eq.trans hepoch,
    hcompact.inBoundary_eq.trans hboundary, fun v => ?_, fun v => ?_, ?_, hvalidators⟩
  · rw [hcompact.consensusView_eq, hconsensusView]
  · rw [hcompact.snapshotView_eq, hsnapshotView]
  · rw [hcompact.consensus_eq, hconsensus]

/-- An epoch change leaves sets, views and commissions alone. -/
theorem changeEpoch_views (s : Storage) (next : ℕ) :
    (changeEpoch s next).consensus = s.consensus ∧ (changeEpoch s next).snapshot = s.snapshot ∧
      (changeEpoch s next).consensusView = s.consensusView ∧
      (changeEpoch s next).snapshotView = s.snapshotView ∧
      ∀ v, ((changeEpoch s next).validators v).commission = (s.validators v).commission := by
  have hroster := changeEpoch_roster s next
  exact ⟨congrArg Roster.consensus hroster, congrArg Roster.snapshot hroster,
    congrArg Roster.consensusView hroster, congrArg Roster.snapshotView hroster,
    congrFun (congrArg Roster.commission hroster)⟩

/-- The state of a run of the contract after its first `n` calls. -/
abbrev runAt (calls : List (Message × StakingCall)) (n : ℕ) : Storage :=
  stateAt stakingStep .empty calls n

/-- A call of a run takes a snapshot. -/
def SnapshotAt (calls : List (Message × StakingCall)) (m : ℕ) : Prop :=
  ∃ hm : m < calls.length, calls[m].2 = .syscallSnapshot ∧
    stakingStep (runAt calls m) calls[m] = .ok (runAt calls (m + 1))

/-- A call takes the last snapshot before the epoch of a later state began: it does so in an
earlier epoch, and all snapshots since are of the epoch of that state. -/
structure LastSnapshotBefore (calls : List (Message × StakingCall)) (m n : ℕ) : Prop where
  lt : m < n
  snapshotAt : SnapshotAt calls m
  epoch_lt : (runAt calls m).epoch < (runAt calls n).epoch
  since : ∀ j, m < j → j < n → SnapshotAt calls j →
    (runAt calls j).epoch = (runAt calls n).epoch

section Run

variable {calls : List (Message × StakingCall)} {m n : ℕ}

/-- What happens between two states of a run. -/
theorem runAt_succ (calls : List (Message × StakingCall)) (n : ℕ) :
    (SameViews (runAt calls n) (runAt calls (n + 1)) ∧ ¬SnapshotAt calls n) ∨
      (SnapshotAt calls n ∧ (runAt calls n).inBoundary = false ∧
        runAt calls (n + 1) = takeSnapshot (runAt calls n)) ∨
      ∃ next : Fin (2 ^ 64), (runAt calls n).epoch < next ∧ ¬SnapshotAt calls n ∧
        runAt calls (n + 1) = changeEpoch (runAt calls n) next := by
  by_cases hn : n < calls.length
  · have hsucc : runAt calls (n + 1) = perform stakingStep (runAt calls n) calls[n] :=
      stateAt_succ stakingStep .empty calls n hn
    rcases hresult : stakingStep (runAt calls n) calls[n] with e | s'
    · rw [perform_of_error hresult] at hsucc
      refine .inl ⟨hsucc ▸ SameViews.refl _, fun ⟨_, _, hok⟩ => ?_⟩
      rw [hresult] at hok
      cases hok
    · rw [perform_of_ok hresult] at hsucc
      have hnot (hcall : calls[n].2 ≠ .syscallSnapshot) : ¬SnapshotAt calls n :=
        fun ⟨_, hsnapshot, _⟩ => hcall hsnapshot
      cases stakingStep_viewStep hresult with
      | same hcall hsame => exact .inl ⟨hsucc ▸ hsame, hnot hcall⟩
      | snapshot hcall hboundary htake =>
        exact .inr (.inl ⟨⟨hn, hcall, hsucc ▸ hresult⟩, hboundary, hsucc.trans htake⟩)
      | epochChange next hcall hlt hchange =>
        refine .inr (.inr ⟨next, hlt, hnot ?_, hsucc.trans hchange⟩)
        rw [hcall]
        simp
  · have hend := stateAt_of_length_le stakingStep .empty calls
    refine .inl ⟨?_, fun ⟨hlt, _⟩ => hn hlt⟩
    have hsame : runAt calls (n + 1) = runAt calls n :=
      (hend (n + 1) (by omega)).trans (hend n (by omega)).symm
    rw [hsame]
    exact .refl _

/-- Epochs do not go back. -/
theorem runAt_epoch_mono (hmn : m ≤ n) : (runAt calls m).epoch ≤ (runAt calls n).epoch := by
  induction hmn with
  | refl => exact le_rfl
  | @step n hmn ih =>
    refine ih.trans ?_
    change _ ≤ (runAt calls (n + 1)).epoch
    rcases runAt_succ calls n with ⟨hsame, -⟩ | ⟨-, -, htake⟩ | ⟨next, hlt, -, hchange⟩
    · exact hsame.epoch_eq.ge
    · rw [htake]
      exact (takeSnapshot_sameLedger (runAt calls n)).epoch_eq.ge
    · rw [hchange]
      exact hlt.le

/-- The views of a state are those of the snapshots before it. -/
structure ViewsAt (calls : List (Message × StakingCall)) (n : ℕ) : Prop where
  cleared : ViewsCleared (runAt calls n)
  commission_le : ∀ v, ((runAt calls n).validators v).commission ≤ maxCommission
  reward : (∃ m, LastSnapshotBefore calls m n ∧
      ∀ v, (runAt calls n).rewardView v = (runAt calls m).takenView v) ∨
    ∀ v, (runAt calls n).rewardView v = .zero
  latest : (∃ m, m < n ∧ SnapshotAt calls m ∧ (∀ j, m < j → j < n → ¬SnapshotAt calls j) ∧
      ∀ v, (runAt calls n).consensusView v = (runAt calls m).takenView v) ∨
    ∀ v, (runAt calls n).consensusView v = .zero
  outside : (runAt calls n).inBoundary = false → ∀ j < n, SnapshotAt calls j →
    (runAt calls j).epoch < (runAt calls n).epoch

/-- One more call that takes no snapshot and stays in the epoch. -/
theorem LastSnapshotBefore.succ (h : LastSnapshotBefore calls m n)
    (hepoch : (runAt calls (n + 1)).epoch = (runAt calls n).epoch) :
    LastSnapshotBefore calls m (n + 1) := by
  refine ⟨by have := h.lt; omega, h.snapshotAt, hepoch ▸ h.epoch_lt, fun j hmj hjn hj => ?_⟩
  rw [hepoch]
  rcases Nat.lt_succ_iff_lt_or_eq.mp hjn with hlt | rfl
  · exact h.since j hmj hlt hj
  · rfl

/-- A call that writes no view keeps the views right. -/
theorem ViewsAt.same (h : ViewsAt calls n) (hsame : SameViews (runAt calls n) (runAt calls (n + 1)))
    (hnot : ¬SnapshotAt calls n) : ViewsAt calls (n + 1) where
  cleared := hsame.cleared h.cleared
  commission_le := hsame.commission_le h.commission_le
  reward := by
    rcases h.reward with ⟨m, hlast, hview⟩ | hzero
    · exact .inl ⟨m, hlast.succ hsame.epoch_eq, fun v => (hsame.rewardView_eq v).trans (hview v)⟩
    · exact .inr fun v => (hsame.rewardView_eq v).trans (hzero v)
  latest := by
    rw [hsame.consensusView_eq]
    rcases h.latest with ⟨m, hmn, hm, hsince, hview⟩ | hzero
    · refine .inl ⟨m, by omega, hm, fun j hmj hjn => ?_, hview⟩
      rcases Nat.lt_succ_iff_lt_or_eq.mp hjn with hlt | rfl
      · exact hsince j hmj hlt
      · exact hnot
    · exact .inr hzero
  outside hboundary j hjn hj := by
    rw [hsame.inBoundary_eq] at hboundary
    rw [hsame.epoch_eq]
    rcases Nat.lt_succ_iff_lt_or_eq.mp hjn with hlt | rfl
    · exact h.outside hboundary j hlt hj
    · exact absurd hj hnot

/-- Outside the boundary rewards use the consensus view. -/
theorem rewardView_outside {s : Storage} (h : s.inBoundary = false) (v : ValId) :
    s.rewardView v = s.consensusView v := by
  rw [Storage.rewardView, h]
  rfl

/-- Inside the boundary rewards use the snapshot view. -/
theorem rewardView_inside {s : Storage} (h : s.inBoundary = true) (v : ValId) :
    s.rewardView v = s.snapshotView v := by
  rw [Storage.rewardView, h]
  rfl

/-- A snapshot keeps the views right. -/
theorem ViewsAt.snapshot (h : ViewsAt calls n) (hn : SnapshotAt calls n)
    (hboundary : (runAt calls n).inBoundary = false)
    (htake : runAt calls (n + 1) = takeSnapshot (runAt calls n)) : ViewsAt calls (n + 1) := by
  obtain ⟨hcleared, hepoch, hinside, hconsensus, hsnapshot, -, hvalidators⟩ :=
    takeSnapshot_views h.cleared
  rw [← htake] at hcleared hepoch hinside hconsensus hsnapshot hvalidators
  have hreward (v) : (runAt calls (n + 1)).rewardView v = (runAt calls n).rewardView v := by
    rw [rewardView_inside hinside, hsnapshot, rewardView_outside hboundary]
  refine ⟨hcleared, ?_, ?_, ?_, fun houtside => ?_⟩
  · rw [hvalidators]
    exact h.commission_le
  · rcases h.reward with ⟨m, hlast, hview⟩ | hzero
    · exact .inl ⟨m, hlast.succ hepoch, fun v => (hreward v).trans (hview v)⟩
    · exact .inr fun v => (hreward v).trans (hzero v)
  · exact .inl ⟨n, by omega, hn, fun j hnj hjn => by omega, hconsensus⟩
  · rw [hinside] at houtside
    cases houtside

/-- An epoch change keeps the views right: those of the latest snapshot come into use. -/
theorem ViewsAt.epochChange (h : ViewsAt calls n) {next : Fin (2 ^ 64)}
    (hlt : (runAt calls n).epoch < next) (hnot : ¬SnapshotAt calls n)
    (hchange : runAt calls (n + 1) = changeEpoch (runAt calls n) next) :
    ViewsAt calls (n + 1) := by
  obtain ⟨hconsensus, hsnapshot, hconsensusView, hsnapshotView, hcommission⟩ :=
    changeEpoch_views (runAt calls n) next
  have hepoch : (runAt calls (n + 1)).epoch = next := congrArg Storage.epoch hchange
  have hboundary : (runAt calls (n + 1)).inBoundary = false := congrArg Storage.inBoundary hchange
  rw [← hchange] at hconsensus hsnapshot hconsensusView hsnapshotView hcommission
  have hearlier (j) (hjn : j < n + 1) : (runAt calls j).epoch < (runAt calls (n + 1)).epoch := by
    rw [hepoch]
    exact (runAt_epoch_mono (Nat.lt_succ_iff.mp hjn)).trans_lt hlt
  have hreward (v) : (runAt calls (n + 1)).rewardView v = (runAt calls n).consensusView v := by
    rw [rewardView_outside hboundary, hconsensusView]
  have hlatest (m) (hsince : ∀ j, m < j → j < n → ¬SnapshotAt calls j) (j) (hmj : m < j)
      (hjn : j < n + 1) : ¬SnapshotAt calls j := by
    rcases Nat.lt_succ_iff_lt_or_eq.mp hjn with hlt | rfl
    · exact hsince j hmj hlt
    · exact hnot
  refine ⟨⟨?_, ?_⟩, fun v => ?_, ?_, ?_, fun _ j hjn _ => hearlier j hjn⟩
  · rw [hconsensus, hconsensusView]
    exact h.cleared.consensus
  · rw [hsnapshot, hsnapshotView]
    exact h.cleared.snapshot
  · rw [hcommission]
    exact h.commission_le v
  · rcases h.latest with ⟨m, hmn, hm, hsince, hview⟩ | hzero
    · refine .inl ⟨m, ⟨by omega, hm, hearlier m (by omega), fun j hmj hjn hj => ?_⟩,
        fun v => (hreward v).trans (hview v)⟩
      exact absurd hj (hlatest m hsince j hmj hjn)
    · exact .inr fun v => (hreward v).trans (hzero v)
  · rw [hconsensusView]
    rcases h.latest with ⟨m, hmn, hm, hsince, hview⟩ | hzero
    · exact .inl ⟨m, by omega, hm, hlatest m hsince, hview⟩
    · exact .inr hzero

/-- The views are right in every state of every run. -/
theorem viewsAt (calls : List (Message × StakingCall)) (n : ℕ) : ViewsAt calls n := by
  induction n with
  | zero =>
    have hstart : runAt calls 0 = .empty := stateAt_zero ..
    refine ⟨?_, ?_, .inr ?_, .inr ?_, fun _ j hj => absurd hj (Nat.not_lt_zero j)⟩
    · rw [hstart]
      exact ⟨fun _ _ => rfl, fun _ _ => rfl⟩
    · rw [hstart]
      exact fun _ => Nat.zero_le _
    · rw [hstart]
      exact fun _ => rfl
    · rw [hstart]
      exact fun _ => rfl
  | succ n ih =>
    rcases runAt_succ calls n with ⟨hsame, hnot⟩ | ⟨hn, hboundary, htake⟩ |
      ⟨next, hlt, hnot, hchange⟩
    · exact ih.same hsame hnot
    · exact ih.snapshot hn hboundary htake
    · exact ih.epochChange hlt hnot hchange

/-- The reward views do not change within an epoch. -/
theorem rewardView_stable (hmn : m ≤ n) (hepoch : (runAt calls m).epoch = (runAt calls n).epoch)
    (v : ValId) : (runAt calls n).rewardView v = (runAt calls m).rewardView v := by
  induction hmn with
  | refl => rfl
  | @step n hmn ih =>
    have hmn : m ≤ n := hmn
    change (runAt calls (n + 1)).rewardView v = _
    change _ = (runAt calls (n + 1)).epoch at hepoch
    have hbefore : (runAt calls m).epoch ≤ (runAt calls n).epoch := runAt_epoch_mono hmn
    have hafter : (runAt calls n).epoch ≤ (runAt calls (n + 1)).epoch :=
      runAt_epoch_mono (Nat.le_succ n)
    have hsame : (runAt calls m).epoch = (runAt calls n).epoch := by
      omega
    rw [← ih hsame]
    rcases runAt_succ calls n with ⟨hkept, -⟩ | ⟨-, hboundary, htake⟩ | ⟨next, hlt, -, hchange⟩
    · exact hkept.rewardView_eq v
    · obtain ⟨-, -, hinside, -, hsnapshot, -, -⟩ := takeSnapshot_views (viewsAt calls n).cleared
      rw [← htake] at hinside hsnapshot
      rw [rewardView_inside hinside, hsnapshot, rewardView_outside hboundary]
    · have hnext : (runAt calls (n + 1)).epoch = next := congrArg Storage.epoch hchange
      omega

/-- Every reward view has a legal commission. -/
theorem rewardView_commission_le (calls : List (Message × StakingCall)) (n : ℕ) (v : ValId) :
    ((runAt calls n).rewardView v).commission ≤ maxCommission := by
  rcases (viewsAt calls n).reward with ⟨m, -, hview⟩ | hzero
  · rw [hview, Storage.takenView]
    split
    · exact (viewsAt calls m).commission_le v
    · exact Nat.zero_le _
  · rw [hzero]
    exact Nat.zero_le _

/-- A view with stake is that of a validator elected by the last snapshot before the epoch. -/
theorem rewardView_eq_of_stake {v : ValId} (hstake : ((runAt calls n).rewardView v).stake ≠ 0) :
    ∃ m, LastSnapshotBefore calls m n ∧ v ∈ (runAt calls (m + 1)).consensus.toList ∧
      (runAt calls n).rewardView v =
        ⟨((runAt calls m).validators v).stake, ((runAt calls m).validators v).commission⟩ := by
  rcases (viewsAt calls n).reward with ⟨m, hlast, hview⟩ | hzero
  · have helected : v ∈ electedIds (runAt calls m) := by
      by_contra hnot
      rw [hview, Storage.takenView, if_neg hnot] at hstake
      exact hstake rfl
    refine ⟨m, hlast, ?_, ?_⟩
    · rcases runAt_succ calls m with ⟨-, hnot⟩ | ⟨-, -, htake⟩ | ⟨-, -, hnot, -⟩
      · exact absurd hlast.snapshotAt hnot
      · obtain ⟨-, -, -, -, -, hconsensus, -⟩ := takeSnapshot_views (viewsAt calls m).cleared
        rwa [htake, hconsensus]
      · exact absurd hlast.snapshotAt hnot
    · rw [hview, Storage.takenView, if_pos helected]
  · rw [hzero] at hstake
    exact absurd rfl hstake

end Run

section Rewards

variable {s s' : Storage} {msg : Message}

/-- The stake of the view in a pool. -/
theorem pool_view (s : Storage) (v : ValId) :
    (s.pool v).view s.inBoundary = (s.rewardView v).stake := by
  unfold Pool.view Storage.rewardView
  split <;> rfl

/-- Record and accumulator of a pool after a block reward. -/
theorem Pool.rewarded_eq (p : Pool) (cur : ℕ) (b : Bool) (d : Address) (commission amount : ℕ) :
    (((p.credit d commission).reward cur b amount).delegators d).rewards =
        (p.delegators d).rewards + commission ∧
      ((p.credit d commission).reward cur b amount).acc =
        p.acc + amount * unitBias / p.view b := by
  have hdelegators : ((p.credit d commission).reward cur b amount).delegators =
      Function.update p.delegators d
        { p.delegators d with rewards := (p.delegators d).rewards + commission } := rfl
  refine ⟨?_, rfl⟩
  rw [hdelegators, Function.update_self]

/-- A block reward is split at the commission and shared by the stake of the view. -/
theorem syscallReward_shares {blockAuthor : Address} {extendedReward : Option ℕ}
    (h : stakingStep s (msg, .syscallReward blockAuthor extendedReward) = .ok s') :
    let v := s.valIdSecp blockAuthor
    let auth := (s.validators v).authAddress
    let reward := extendedReward.getD msg.callValue
    let commission := reward * (s.rewardView v).commission / mon
    (s.rewardView v).stake ≠ 0 ∧
      (s'.delegators v auth).rewards = (s.delegators v auth).rewards + commission ∧
      (s'.validators v).accumulatedRewardPerToken = (s.validators v).accumulatedRewardPerToken +
        (reward - commission) * unitBias / (s.rewardView v).stake := by
  simp only [stakingStep, bind_eq_ok, pure_eq_ok] at h
  obtain ⟨answer, hrun, rfl⟩ := h
  obtain ⟨-, hview, -, -, -, hpool⟩ := handleSyscallReward_reward hrun
  rw [viewCommission_eq] at hpool
  generalize hcredit : s.credit _ = t at hview hpool
  have hsame : t.pool = s.pool ∧ t.rewardView = s.rewardView ∧ t.inBoundary = s.inBoundary ∧
      t.valIdSecp = s.valIdSecp ∧ t.validators = s.validators := by
    rw [← hcredit]
    exact ⟨rfl, rfl, rfl, rfl, rfl⟩
  obtain ⟨hpools, hviews, hboundary, hids, hvalidators⟩ := hsame
  rw [hpools, hviews, hboundary, hids, hvalidators] at hpool
  rw [pool_view, hviews, hids] at hview
  obtain ⟨hrewards, hacc⟩ := (s.pool (s.valIdSecp blockAuthor)).rewarded_eq t.epoch s.inBoundary
    (s.validators (s.valIdSecp blockAuthor)).authAddress _ _
  rw [← hpool] at hrewards hacc
  rw [pool_view] at hacc
  exact ⟨hview, hrewards, hacc⟩

/-- An external reward is shared by the stake of the view. -/
theorem externalReward_shares {v : ValId} (h : stakingStep s (msg, .externalReward v) = .ok s') :
    (s.rewardView v).stake ≠ 0 ∧
      (s'.validators v).accumulatedRewardPerToken = (s.validators v).accumulatedRewardPerToken +
        msg.callValue * unitBias / (s.rewardView v).stake := by
  simp only [stakingStep, bind_eq_ok, pure_eq_ok] at h
  obtain ⟨answer, hrun, rfl⟩ := h
  obtain ⟨-, hview, -, -, hpool⟩ := handleExternalReward_reward hrun
  rw [pool_view] at hview
  have hacc : (answer.storage.pool v).acc = (s.pool v).acc +
      msg.callValue * unitBias / (s.pool v).view s.inBoundary := congrArg Pool.acc hpool
  rw [pool_view] at hacc
  exact ⟨hview, hacc⟩

end Rewards

/-- Reward views are stable for a whole epoch. In every run, a reward that succeeds is shared by
the stake and at the commission of its validator at the last snapshot before its epoch began,
which has elected the validator; within an epoch nothing changes these views; and no commission
exceeds the reward it is taken from. -/
theorem reward_views_stable (calls : List (Message × StakingCall)) (n : ℕ) :
    (∀ hn : n < calls.length, ∀ blockAuthor extendedReward,
      calls[n].2 = .syscallReward blockAuthor extendedReward →
      ∀ s', stakingStep (runAt calls n) calls[n] = .ok s' →
      let s := runAt calls n
      let v := s.valIdSecp blockAuthor
      let auth := (s.validators v).authAddress
      let reward := extendedReward.getD calls[n].1.callValue
      ∃ m, LastSnapshotBefore calls m n ∧ v ∈ (runAt calls (m + 1)).consensus.toList ∧
        let stake := ((runAt calls m).validators v).stake
        let commission := reward * ((runAt calls m).validators v).commission / mon
        (s'.delegators v auth).rewards = (s.delegators v auth).rewards + commission ∧
        (s'.validators v).accumulatedRewardPerToken =
          (s.validators v).accumulatedRewardPerToken + (reward - commission) * unitBias / stake) ∧
    (∀ hn : n < calls.length, ∀ v, calls[n].2 = .externalReward v →
      ∀ s', stakingStep (runAt calls n) calls[n] = .ok s' →
      ∃ m, LastSnapshotBefore calls m n ∧ v ∈ (runAt calls (m + 1)).consensus.toList ∧
        (s'.validators v).accumulatedRewardPerToken =
          ((runAt calls n).validators v).accumulatedRewardPerToken +
            calls[n].1.callValue * unitBias / ((runAt calls m).validators v).stake) ∧
    (∀ n', n ≤ n' → (runAt calls n).epoch = (runAt calls n').epoch → ∀ v,
      (runAt calls n').activeStake v = (runAt calls n).activeStake v ∧
        (runAt calls n').viewCommission v = (runAt calls n).viewCommission v) ∧
    ∀ v, (runAt calls n).viewCommission v ≤ maxCommission ∧ ∀ reward commission,
      checkedMulDiv internalError reward ((runAt calls n).viewCommission v) mon = .ok commission →
      checkedSub internalError reward commission = .ok (reward - commission) := by
  refine ⟨fun hn author extended hcall s' hstep => ?_, fun hn v hcall s' hstep => ?_,
    fun n' hle hepoch v => ?_, fun v => ?_⟩
  · generalize calls[n] = tx at hcall hstep ⊢
    obtain ⟨msg, call⟩ := tx
    dsimp only at hcall hstep ⊢
    subst hcall
    obtain ⟨hstake, hrewards, hacc⟩ := syscallReward_shares hstep
    obtain ⟨m, hlast, helected, hview⟩ := rewardView_eq_of_stake hstake
    rw [hview] at hrewards hacc
    exact ⟨m, hlast, helected, hrewards, hacc⟩
  · generalize calls[n] = tx at hcall hstep ⊢
    obtain ⟨msg, call⟩ := tx
    dsimp only at hcall hstep ⊢
    subst hcall
    obtain ⟨hstake, hacc⟩ := externalReward_shares hstep
    obtain ⟨m, hlast, helected, hview⟩ := rewardView_eq_of_stake hstake
    rw [hview] at hacc
    exact ⟨m, hlast, helected, hacc⟩
  · rw [activeStake_eq, activeStake_eq, viewCommission_eq, viewCommission_eq,
      rewardView_stable hle hepoch]
    exact ⟨rfl, rfl⟩
  · have hle := rewardView_commission_le calls n v
    rw [viewCommission_eq]
    refine ⟨hle, fun reward commission h => ?_⟩
    obtain ⟨-, -, rfl⟩ := checkedMulDiv_eq_ok.mp h
    refine checkedSub_eq_ok.mpr ⟨Nat.div_le_of_le_mul ?_, rfl⟩
    rw [Nat.mul_comm]
    exact Nat.mul_le_mul_right reward hle

/-- The external reward of the opening calls is shared by what a snapshot before its epoch took. -/
theorem reward_views_stable_opening : ∃ m, LastSnapshotBefore openingCalls m 4 ∧
    1 ∈ (runAt openingCalls (m + 1)).consensus.toList := by
  have hok : (stakingStep (runAt openingCalls 4) openingCalls[4]).isOk = true := by decide +kernel
  obtain ⟨s', hs'⟩ := exists_of_isOk hok
  obtain ⟨m, hlast, helected, -⟩ :=
    (reward_views_stable openingCalls 4).2.1 (by decide) 1 rfl s' hs'
  exact ⟨m, hlast, helected⟩

end SuwappuRevm.Staking
