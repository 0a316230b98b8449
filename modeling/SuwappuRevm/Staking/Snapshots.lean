import Mathlib.Data.List.Permutation
import SuwappuRevm.Staking.ExecutionSet
import SuwappuRevm.Staking.Views

/-!
# Snapshots of the validator sets

A snapshot rewrites three arrays and two families of views in place. Between snapshots delegations
only append to the execution array, so its slots beyond the end are clear and it never holds the
reserved id. From such a state a snapshot moves the consensus set to the snapshot set, elects the
flag-free validators of largest stake, and keeps the flag-free members of the execution set.
-/

namespace SuwappuRevm.Staking

open Foundations

open scoped List

/-- An array whose slots beyond its end are clear. -/
def Valset.Clear (a : Valset) : Prop := ∀ i, a.length ≤ i → a.slot i = 0

/-- The validator sets as every call leaves them. -/
structure ValsetsRight (s : Storage) : Prop where
  executionSet : ExecutionSet s
  zero_not_mem : 0 ∉ s.execution.toList
  views : ViewsCleared s
  execution_clear : s.execution.Clear
  consensus_clear : s.consensus.Clear
  snapshot_clear : s.snapshot.Clear

/-- A validator enters the execution set. -/
def Enters (v : ValId) (s s' : Storage) : Prop :=
  s'.execution = (addToValset s v).2.execution ∧ s'.bitset = (addToValset s v).2.bitset

/-- What a call other than a snapshot does to the execution set. -/
def ExecutionStep (s s' : Storage) : Prop :=
  (s'.execution = s.execution ∧ s'.bitset = s.bitset) ∨ ∃ v, v ≠ 0 ∧ Enters v s s'

section Steps

variable {s s₁ s' : Storage} {v : ValId} {d : Address} {amount : ℕ}

/-- What keeps the roster keeps the execution set. -/
theorem ExecutionStep.of_roster (h : s'.roster = s.roster) : ExecutionStep s s' :=
  .inl ⟨congrArg Roster.execution h, congrArg Roster.bitset h⟩

/-- A step from a state with the same execution set. -/
theorem ExecutionStep.congr (hexecution : s₁.execution = s.execution)
    (hbitset : s₁.bitset = s.bitset) (h : ExecutionStep s₁ s') : ExecutionStep s s' := by
  rcases h with ⟨hsame, hsame'⟩ | ⟨v, hne, henters, henters'⟩
  · exact .inl ⟨hsame.trans hexecution, hsame'.trans hbitset⟩
  · obtain ⟨hcongr, hcongr'⟩ := addToValsetIf_congr flagsOk v hexecution hbitset
    exact .inr ⟨v, hne, henters.trans hcongr, henters'.trans hcongr'⟩

/-- A delegation enters its validator, or nothing. -/
theorem internalDelegate_execution (h : internalDelegate s v d amount = .ok s') :
    ExecutionStep s s' := by
  obtain ⟨-, -, hne, -⟩ := internalDelegate_not_reserved h
  obtain ⟨s₁, s₂, hroster, -, -, henlist, hroster'⟩ := internalDelegate_enlist h
  obtain ⟨-, -, hexecution, hbitset, -⟩ := enlist_roster henlist
  have hexecution := (congrArg Roster.execution hroster').trans hexecution
  have hbitset := (congrArg Roster.bitset hroster').trans hbitset
  have hstep : ExecutionStep s₁ s' := by
    unfold addToValsetIf at hexecution hbitset
    split at hexecution
    next hok =>
      rw [if_pos hok] at hbitset
      exact .inr ⟨v, hne, hexecution, hbitset⟩
    next hok =>
      rw [if_neg hok] at hbitset
      exact .inl ⟨hexecution, hbitset⟩
  exact hstep.congr (congrArg Roster.execution hroster) (congrArg Roster.bitset hroster)

/-- An undelegation takes nobody out of the execution set. -/
theorem handleUndelegate_execution {msg : Message} {w : WithdrawId} {answer : Answer}
    (h : handleUndelegate s msg v amount w = .ok answer) : ExecutionStep s answer.storage := by
  by_cases hamount : amount = 0
  · simp only [handleUndelegate, bind_eq_ok, if_pos hamount] at h
    obtain ⟨-, -, h⟩ := h
    cases h
    exact .inl ⟨rfl, rfl⟩
  · obtain ⟨s₁, s₂, hroster, -, hflags, hroster'⟩ := handleUndelegate_delist hamount h
    rw [updateFlagsAfterUndelegate_roster] at hflags
    have hexecution₂ : s₂.execution = s₁.execution := congrArg Roster.execution hflags
    have hbitset₂ : s₂.bitset = s₁.bitset := congrArg Roster.bitset hflags
    obtain ⟨nodes, hremove⟩ := linkedListRemove_nodes s₂ v msg.caller
    rw [hremove] at hroster'
    have hexecution := congrArg Roster.execution hroster'
    have hbitset := congrArg Roster.bitset hroster'
    rw [apply_ite Roster.execution] at hexecution
    rw [apply_ite Roster.bitset] at hbitset
    have hkept : answer.storage.execution = s₂.execution := hexecution.trans (ite_self _)
    have hkept' : answer.storage.bitset = s₂.bitset := hbitset.trans (ite_self _)
    exact .inl ⟨hkept.trans (hexecution₂.trans (congrArg Roster.execution hroster)),
      hkept'.trans (hbitset₂.trans (congrArg Roster.bitset hroster))⟩

/-- The dispatch: a call enters one validator into the execution set, or nothing, unless it takes a
snapshot. -/
theorem runStakingWrite_execution {msg : Message} {call : StakingCall} {answer : Answer}
    (h : runStakingWrite s msg call = .ok answer) :
    ExecutionStep s answer.storage ∨ answer.storage = takeSnapshot s := by
  cases call with
  | addValidator payload =>
    obtain ⟨v, s₁, _, _, auth, commission, hcreate, -, -, hdelegate⟩ := handleAddValidator_creates h
    have hstep := internalDelegate_execution hdelegate
    simp only [createValidator, bind_eq_ok, pure_eq_ok, Prod.mk.injEq] at hcreate
    obtain ⟨-, -, -, -, rfl, rfl⟩ := hcreate
    exact .inl (hstep.congr (by rfl) (by rfl))
  | delegate v =>
    simp only [runStakingWrite, handleDelegate, bind_eq_ok] at h
    obtain ⟨-, -, -, -, h⟩ := h
    split at h
    next =>
      cases h
      exact .inl (.inl ⟨rfl, rfl⟩)
    next =>
      simp only [bind_eq_ok, pure_eq_ok] at h
      obtain ⟨-, -, s₁, hdelegate, rfl⟩ := h
      exact .inl (internalDelegate_execution hdelegate)
  | undelegate v amount w => exact .inl (handleUndelegate_execution (notPayable_eq_ok h).2)
  | withdraw v w => exact .inl (.of_roster (handleWithdraw_roster (notPayable_eq_ok h).2))
  | compound v =>
    obtain ⟨-, h⟩ := notPayable_eq_ok h
    simp only [handleCompound, bind_eq_ok] at h
    obtain ⟨-, -, ⟨del, s₁⟩, hpull, h⟩ := h
    have hroster := pullDelegatorUpToDate_roster hpull
    dsimp only at h
    split at h
    next =>
      cases h
      exact .inl (.of_roster hroster)
    next =>
      simp only [bind_eq_ok, pure_eq_ok] at h
      obtain ⟨s₂, hdelegate, rfl⟩ := h
      have hexecution : (takeRewards s₁ v msg.caller del).execution = s.execution :=
        congrArg Roster.execution hroster
      have hbitset : (takeRewards s₁ v msg.caller del).bitset = s.bitset :=
        congrArg Roster.bitset hroster
      exact .inl ((internalDelegate_execution hdelegate).congr hexecution hbitset)
  | claimRewards v => exact .inl (.of_roster (handleClaimRewards_roster (notPayable_eq_ok h).2))
  | changeCommission v commission =>
    obtain ⟨-, -, -, hroster⟩ := handleChangeCommission_roster (notPayable_eq_ok h).2
    exact .inl (.inl ⟨congrArg Roster.execution hroster, congrArg Roster.bitset hroster⟩)
  | externalReward v => exact .inl (.of_roster (handleExternalReward_roster h))
  | getDelegator v d =>
    exact .inl (.of_roster (handleGetDelegatorWrite_roster (notPayable_eq_ok h).2))
  | syscallReward author reward => exact .inl (.of_roster (handleSyscallReward_roster h))
  | syscallSnapshot => exact .inr (handleSyscallSnapshot_eq_ok (notPayable_eq_ok h).2).2.2
  | syscallOnEpochChange next =>
    obtain ⟨-, -, hchange⟩ := handleSyscallOnEpochChange_eq_ok (notPayable_eq_ok h).2
    rw [hchange]
    exact .inl (.of_roster (changeEpoch_roster s next))

end Steps

section Invariant

variable {s s' : Storage} {v : ValId}

/-- Entering keeps the execution set right. -/
theorem Enters.execution (hs : ValsetsRight s) (hne : v ≠ 0) (h : Enters v s s') :
    ExecutionSet s' ∧ 0 ∉ s'.execution.toList ∧ s'.execution.Clear := by
  obtain ⟨hexecution, hbitset⟩ := h
  obtain ⟨hset, hmem⟩ := addToValset_executionSet hs.executionSet hne hs.zero_not_mem
  refine ⟨hset.congr hexecution hbitset, ?_, ?_⟩
  · rw [hexecution, hmem]
    intro hzero
    rcases hzero with heq | hold
    · exact hne heq.symm
    · exact hs.zero_not_mem hold
  · rw [hexecution]
    unfold addToValset
    dsimp only
    split
    next hnew =>
      have hfree : v ∉ s.execution.toList := by
        rw [hs.executionSet.mem_iff, Bool.not_eq_true]
        exact (and_bitMask_eq_zero _ v).mp hnew
      intro i hi
      dsimp only at hi ⊢
      rw [u64Add_one (length_add_one_lt hs.executionSet.nodup hne hs.zero_not_mem hfree)] at hi
      rw [Function.update_of_ne (by omega)]
      exact hs.execution_clear i (by omega)
    next => exact hs.execution_clear

/-- The compaction clears what it pops. -/
theorem compactExecutionSet_clear (h : s.execution.Clear) :
    (compactExecutionSet s).execution.Clear := by
  rw [compactExecutionSet_eq]
  generalize (removals s).reverse = idxs
  induction idxs generalizing s with
  | nil => exact h
  | cons idx idxs ih =>
    rw [List.foldl_cons]
    refine ih fun i hi => ?_
    have hi : s.execution.length - 1 ≤ i := hi
    change swapPop s.execution.slot (s.execution.length - 1) idx 0 i = 0
    unfold swapPop
    by_cases hlast : i = s.execution.length - 1
    · rw [hlast, Function.update_self]
    · rw [Function.update_of_ne hlast]
      have hclear := h i (by omega)
      split
      · rw [Function.update_of_ne (by omega)]
        exact hclear
      · exact hclear

/-- The compaction writes the execution array and the bitset. -/
theorem compactExecutionSet_frame (s : Storage) :
    compactExecutionSet s = { s with
      execution := (compactExecutionSet s).execution
      bitset := (compactExecutionSet s).bitset } := by
  rw [compactExecutionSet_eq]
  generalize (removals s).reverse = idxs
  induction idxs generalizing s with
  | nil => rfl
  | cons idx idxs ih =>
    rw [List.foldl_cons]
    exact ih (removeAt s idx)

/-- The snapshot array becomes the old consensus array. -/
theorem electSnapshot_snapshot_eq (hconsensus : s.consensus.Clear) (hsnapshot : s.snapshot.Clear) :
    (electSnapshot s).snapshot = s.consensus := by
  have hslot : (fun i => if i < s.consensus.length then s.consensus.slot i
      else if i < s.snapshot.length then 0 else s.snapshot.slot i) = s.consensus.slot := by
    funext i
    by_cases hi : i < s.consensus.length
    · rw [if_pos hi]
    · rw [if_neg hi, hconsensus i (by omega)]
      split
      · rfl
      · exact hsnapshot i (by omega)
  change Valset.mk s.consensus.length _ = s.consensus
  rw [hslot]

/-- The new consensus array is clear beyond its end. -/
theorem electSnapshot_consensus_clear (h : s.consensus.Clear) :
    (electSnapshot s).consensus.Clear := by
  intro i hi
  change (electedIds s).length ≤ i at hi
  change ((electedIds s)[i]?).getD (if i < s.consensus.length then 0 else s.consensus.slot i) = 0
  rw [List.getElem?_eq_none hi, Option.getD_none]
  split
  · rfl
  · exact h i (by omega)

/-- A snapshot keeps the validator sets right. -/
theorem takeSnapshot_valsetsRight (hs : ValsetsRight s) : ValsetsRight (takeSnapshot s) := by
  obtain ⟨hset, hmem⟩ := takeSnapshot_executionSet hs.executionSet
  have hviews := (takeSnapshot_views hs.views).1
  have hexecution : (electSnapshot s).execution.Clear := hs.execution_clear
  have hconsensus := electSnapshot_consensus_clear hs.consensus_clear
  have hsnapshot := electSnapshot_snapshot_eq hs.consensus_clear hs.snapshot_clear
  have hsame := compactExecutionSet_sameViews (electSnapshot s)
  refine ⟨hset, fun hzero => hs.zero_not_mem ((hmem 0).mp hzero).1, hviews, ?_, ?_, ?_⟩
  · rw [takeSnapshot_eq]
    exact compactExecutionSet_clear hexecution
  · rw [takeSnapshot_eq, hsame.consensus_eq]
    exact hconsensus
  · rw [takeSnapshot_eq, hsame.snapshot_eq, hsnapshot]
    exact hs.consensus_clear

/-- Every call keeps the validator sets right. -/
theorem stakingStep_valsetsRight {tx : Message × StakingCall} (hs : ValsetsRight s)
    (h : stakingStep s tx = .ok s') : ValsetsRight s' := by
  have hexecution : ExecutionStep s s' ∨ s' = takeSnapshot (s.credit (income tx.1 tx.2)) := by
    simp only [stakingStep, bind_eq_ok, pure_eq_ok] at h
    obtain ⟨answer, h, rfl⟩ := h
    rcases runStakingWrite_execution h with hstep | htake
    · exact .inl (hstep.congr (by rfl) (by rfl))
    · exact .inr htake
  have hviews : ViewsCleared s' ∧ s'.consensus.Clear ∧ s'.snapshot.Clear := by
    cases stakingStep_viewStep h with
    | same hcall hsame =>
      refine ⟨hsame.cleared hs.views, ?_, ?_⟩
      · rw [hsame.consensus_eq]
        exact hs.consensus_clear
      · rw [hsame.snapshot_eq]
        exact hs.snapshot_clear
    | snapshot hcall hboundary htake =>
      have hright := takeSnapshot_valsetsRight hs
      rw [htake]
      exact ⟨hright.views, hright.consensus_clear, hright.snapshot_clear⟩
    | epochChange next hcall hlt hchange =>
      obtain ⟨hconsensus, hsnapshot, hconsensusView, hsnapshotView, -⟩ := changeEpoch_views s next
      rw [hchange]
      refine ⟨⟨?_, ?_⟩, ?_, ?_⟩
      · rw [hconsensus, hconsensusView]
        exact hs.views.consensus
      · rw [hsnapshot, hsnapshotView]
        exact hs.views.snapshot
      · rw [hconsensus]
        exact hs.consensus_clear
      · rw [hsnapshot]
        exact hs.snapshot_clear
  rcases hexecution with (⟨hsame, hsame'⟩ | ⟨v, hne, henters⟩) | htake
  · refine ⟨hs.executionSet.congr hsame hsame', ?_, hviews.1, ?_, hviews.2.1, hviews.2.2⟩
    · rw [hsame]
      exact hs.zero_not_mem
    · rw [hsame]
      exact hs.execution_clear
  · obtain ⟨hset, hzero, hclear⟩ := henters.execution hs hne
    exact ⟨hset, hzero, hviews.1, hclear, hviews.2.1, hviews.2.2⟩
  · rw [htake]
    exact takeSnapshot_valsetsRight
      ⟨hs.executionSet.congr rfl rfl, hs.zero_not_mem, ⟨hs.views.1, hs.views.2⟩,
        hs.execution_clear, hs.consensus_clear, hs.snapshot_clear⟩

/-- The validator sets are right in every reachable state. -/
theorem reachable_valsetsRight {guard : Storage → Message × StakingCall → Storage → Prop}
    (h : Reachable stakingStep guard .empty s) : ValsetsRight s := by
  refine h.invariant ValsetsRight ?_ fun s tx s' hs hstep _ => stakingStep_valsetsRight hs hstep
  have hclear : (⟨0, fun _ => 0⟩ : Valset).Clear := fun _ _ => rfl
  have hempty : Storage.empty.execution.toList = [] := rfl
  refine ⟨⟨List.nodup_nil, fun v => ?_⟩, ?_, ⟨fun _ _ => rfl, fun _ _ => rfl⟩, hclear, hclear,
    hclear⟩
  · rw [hempty]
    simp [Storage.empty, Storage.inBitset]
  · rw [hempty]
    exact List.not_mem_nil

end Invariant

section Election

/-- The order of the election: larger stake first, then smaller id. -/
def ElectedBefore (a b : ValId × ℕ) : Prop := a.2 > b.2 ∨ a.2 = b.2 ∧ a.1 ≤ b.1

instance : DecidableRel ElectedBefore := fun a b =>
  inferInstanceAs (Decidable (a.2 > b.2 ∨ a.2 = b.2 ∧ a.1 ≤ b.1))

instance : Std.Total ElectedBefore where
  total a b := by
    rcases lt_trichotomy a.2 b.2 with hlt | heq | hgt
    · exact .inr (.inl hlt)
    · rcases le_total a.1 b.1 with hle | hle
      · exact .inl (.inr ⟨heq, hle⟩)
      · exact .inr (.inr ⟨heq.symm, hle⟩)
    · exact .inl (.inl hgt)

instance : IsTrans (ValId × ℕ) ElectedBefore where
  trans a b c hab hbc := by
    unfold ElectedBefore at *
    rcases hab with hab | ⟨hab, hle⟩
    · omega
    · rcases hbc with hbc | ⟨hbc, hle'⟩
      · omega
      · exact .inr ⟨hab.trans hbc, hle.trans hle'⟩

instance : Std.Antisymm ElectedBefore where
  antisymm a b hab hba := by
    unfold ElectedBefore at *
    rcases hab with hab | ⟨hab, hle⟩
    · omega
    · rcases hba with hba | ⟨-, hle'⟩
      · omega
      · exact Prod.ext (le_antisymm hle hle') hab

variable {s t : Storage}

/-- The flag-free members of the execution array. -/
def Storage.candidates (s : Storage) : List ValId :=
  s.execution.toList.filter fun v => (s.validators v).flags = flagsOk

/-- The candidates in the order of the election. -/
def Storage.ranking (s : Storage) : List ValId := (sortedValidators s).map Prod.fst

/-- Sorting ranks the candidates with their stakes. -/
theorem sortedValidators_perm (s : Storage) :
    sortedValidators s ~ s.candidates.map fun v => (v, (s.validators v).stake) :=
  List.perm_insertionSort _ _

/-- Who is elected before whom. -/
theorem sortedValidators_pairwise (s : Storage) : (sortedValidators s).Pairwise ElectedBefore :=
  List.pairwise_insertionSort ElectedBefore _

/-- The ranking is one of the candidates. -/
theorem ranking_perm (s : Storage) : s.ranking ~ s.candidates := by
  have hperm := (sortedValidators_perm s).map Prod.fst
  have hids : ((s.candidates.map fun v => (v, (s.validators v).stake)).map Prod.fst) =
      s.candidates := by
    rw [List.map_map]
    exact List.map_id _
  rwa [hids] at hperm

/-- In the ranking a larger stake comes first, and of equal stakes the smaller id. -/
theorem ranking_pairwise (hs : s.execution.toList.Nodup) :
    s.ranking.Pairwise fun v w => (s.validators w).stake < (s.validators v).stake ∨
      (s.validators v).stake = (s.validators w).stake ∧ v < w := by
  have hnodup : s.ranking.Nodup := (ranking_perm s).nodup_iff.mpr (hs.filter _)
  have hstake (e : ValId × ℕ) (he : e ∈ sortedValidators s) : e.2 = (s.validators e.1).stake := by
    rw [(sortedValidators_perm s).mem_iff, List.mem_map] at he
    obtain ⟨v, -, rfl⟩ := he
    rfl
  unfold Storage.ranking at hnodup ⊢
  rw [List.Nodup, List.pairwise_map] at hnodup
  rw [List.pairwise_map]
  refine ((sortedValidators_pairwise s).and hnodup).imp_of_mem fun ha hb hboth => ?_
  obtain ⟨hbefore, hne⟩ := hboth
  rw [← hstake _ ha, ← hstake _ hb]
  rcases hbefore with hgt | ⟨heq, hle⟩
  · exact .inl hgt
  · exact .inr ⟨heq, lt_of_le_of_ne hle hne⟩

/-- The elected ids are the first of the ranking. -/
theorem electedIds_eq (s : Storage) : electedIds s = s.ranking.take activeValsetSize :=
  List.map_take

/-- The election depends on the candidates only. -/
theorem electedIds_of_candidates (hvalidators : t.validators = s.validators)
    (hcandidates : t.candidates ~ s.candidates) : electedIds t = electedIds s := by
  have hsorted : sortedValidators t ~ sortedValidators s := by
    refine (sortedValidators_perm t).trans ?_
    rw [hvalidators]
    exact (hcandidates.map _).trans (sortedValidators_perm s).symm
  have hsame := hsorted.eq_of_pairwise' (sortedValidators_pairwise t) (sortedValidators_pairwise s)
  rw [electedIds, electedIds, hsame]

/-- The election does not depend on the order of the execution array. -/
theorem electedIds_congr (hvalidators : t.validators = s.validators)
    (hperm : t.execution.toList ~ s.execution.toList) : electedIds t = electedIds s := by
  refine electedIds_of_candidates hvalidators ?_
  unfold Storage.candidates
  rw [hvalidators]
  exact hperm.filter _

/-- A snapshot writes the boundary flag, the three sets and the views. -/
theorem takeSnapshot_frame (s : Storage) : takeSnapshot s = { s with
    inBoundary := true
    execution := (takeSnapshot s).execution
    bitset := (takeSnapshot s).bitset
    consensus := (takeSnapshot s).consensus
    consensusView := (takeSnapshot s).consensusView
    snapshot := (takeSnapshot s).snapshot
    snapshotView := (takeSnapshot s).snapshotView } := by
  rw [takeSnapshot_eq, compactExecutionSet_frame]
  rfl

/-- The execution array becomes the candidates, in some order. -/
theorem takeSnapshot_execution_perm (hs : ExecutionSet s) :
    (takeSnapshot s).execution.toList ~ s.candidates := by
  obtain ⟨hset, hmem⟩ := takeSnapshot_executionSet hs
  refine (List.perm_ext_iff_of_nodup hset.nodup (hs.nodup.filter _)).mpr fun v => ?_
  rw [hmem, List.mem_filter, decide_eq_true_eq]

/-- A successful call of the snapshot takes it. -/
theorem stakingStep_snapshot {msg : Message} {s' : Storage}
    (h : stakingStep s (msg, .syscallSnapshot) = .ok s') :
    s.inBoundary = false ∧ s' = takeSnapshot s := by
  cases stakingStep_viewStep h with
  | same hcall => exact absurd rfl hcall
  | snapshot hcall hboundary htake => exact ⟨hboundary, htake⟩
  | epochChange next hcall => cases hcall

/-- A snapshot rebuilds the three validator sets. The snapshot set is the old consensus set; the
consensus set is the first of the flag-free members of the execution set by stake, then id, with
their current stakes and commissions as views; the execution set keeps its flag-free members; and
the order of the execution array does not matter to the election. -/
theorem snapshot_rebuilds_sets {msg : Message} {s' : Storage}
    (h : Reachable stakingStep (fun _ _ _ => True) .empty s)
    (hstep : stakingStep s (msg, .syscallSnapshot) = .ok s') :
    (s'.snapshot = s.consensus ∧ s'.snapshotView = s.consensusView ∧
      ∀ v, v ∉ s.consensus.toList → s'.snapshotView v = .zero) ∧
    (∃ ranking : List ValId,
      ranking ~ s.execution.toList.filter (fun v => (s.validators v).flags = flagsOk) ∧
      ranking.Pairwise (fun v w => (s.validators w).stake < (s.validators v).stake ∨
        (s.validators v).stake = (s.validators w).stake ∧ v < w) ∧
      s'.consensus.toList = ranking.take activeValsetSize) ∧
    (∀ v, s'.consensusView v = if v ∈ s'.consensus.toList then
      ⟨(s.validators v).stake, (s.validators v).commission⟩ else .zero) ∧
    s'.execution.toList ~ s.execution.toList.filter (fun v => (s.validators v).flags = flagsOk) ∧
    (∀ v : ValId, v ∈ s'.execution.toList ↔
      (s'.bitset (v.val / 256)).getLsbD (v.val % 256) = true) ∧
    (∀ a ∈ [s'.execution, s'.consensus, s'.snapshot], ∀ i, a.length ≤ i → a.slot i = 0) ∧
    s' = { s with
      inBoundary := true
      execution := s'.execution
      bitset := s'.bitset
      consensus := s'.consensus
      consensusView := s'.consensusView
      snapshot := s'.snapshot
      snapshotView := s'.snapshotView } ∧
    ∀ t t' : Storage, t = { s with execution := t.execution } →
      t.execution.toList ~ s.execution.toList →
      stakingStep t (msg, .syscallSnapshot) = .ok t' →
      t'.consensus.toList = s'.consensus.toList ∧ ∀ v ∈ s'.consensus.toList,
        t'.consensusView v = s'.consensusView v := by
  have hs := reachable_valsetsRight h
  obtain ⟨-, htake⟩ := stakingStep_snapshot hstep
  obtain ⟨-, -, -, hconsensusView, hsnapshotView, hconsensus, -⟩ := takeSnapshot_views hs.views
  have hright := takeSnapshot_valsetsRight hs
  have hexecution := takeSnapshot_execution_perm hs.executionSet
  have hframe := takeSnapshot_frame s
  have hsnapshot : (takeSnapshot s).snapshot = s.consensus := by
    rw [takeSnapshot_eq, (compactExecutionSet_sameViews _).snapshot_eq]
    exact electSnapshot_snapshot_eq hs.consensus_clear hs.snapshot_clear
  rw [← htake] at hconsensusView hsnapshotView hconsensus hright hexecution hframe hsnapshot
  clear htake
  refine ⟨⟨hsnapshot, funext hsnapshotView, fun v hv => ?_⟩,
    ⟨s.ranking, ranking_perm s, ranking_pairwise hs.executionSet.nodup, ?_⟩, fun v => ?_,
    hexecution, hright.executionSet.mem_iff, fun a ha => ?_, hframe,
    fun t t' ht hperm hstep' => ?_⟩
  · rw [hsnapshotView]
    exact hs.views.consensus v hv
  · rw [hconsensus, electedIds_eq]
  · rw [hconsensusView, hconsensus]
    rfl
  · simp only [List.mem_cons, List.not_mem_nil, or_false] at ha
    rcases ha with rfl | rfl | rfl
    · exact hright.execution_clear
    · exact hright.consensus_clear
    · exact hright.snapshot_clear
  · obtain ⟨-, htake'⟩ := stakingStep_snapshot hstep'
    have hvalidators : t.validators = s.validators := by rw [ht]
    have hviews : ViewsCleared t := by
      rw [ht]
      exact ⟨hs.views.1, hs.views.2⟩
    obtain ⟨-, -, -, hconsensusView', -, hconsensus', -⟩ := takeSnapshot_views hviews
    have helected := electedIds_congr hvalidators hperm
    rw [← htake'] at hconsensusView' hconsensus'
    refine ⟨by rw [hconsensus', hconsensus, helected], fun v _ => ?_⟩
    rw [hconsensusView', hconsensusView, Storage.takenView, Storage.takenView, helected,
      hvalidators]

/-- The registration of a validator with auth address `8` and twice the active stake. -/
def secondPayload : Bytes :=
  List.replicate 33 4 ++ List.replicate 48 5 ++ beBytes 20 8 ++
    beBytes 32 (2 * activeValidatorStake) ++ beBytes 32 0

/-- The second validator joins in the first epoch and stands in the second election. -/
def electionCalls : List (Message × StakingCall) :=
  openingCalls.take 3 ++
    [(userMessage 8 (2 * activeValidatorStake) (by decide), .addValidator secondPayload),
      (systemMessage, .syscallSnapshot)]

/-- The second election puts the validator with more stake first, and the winner of the first
election becomes the snapshot set. -/
theorem snapshot_rebuilds_sets_election :
    ∃ s', stakingStep (runAt electionCalls 4) (systemMessage, .syscallSnapshot) = .ok s' ∧
      s'.consensus.toList = [2, 1] ∧ s'.snapshot.toList = [1] := by
  have hok : (stakingStep (runAt electionCalls 4) (systemMessage, .syscallSnapshot)).isOk =
      true := by
    decide +kernel
  have hbefore : (runAt electionCalls 4).consensus.toList = [1] := by decide +kernel
  have hcandidates : (runAt electionCalls 4).execution.toList.filter
      (fun v => ((runAt electionCalls 4).validators v).flags = flagsOk) = [1, 2] := by
    decide +kernel
  have hstakes : ((runAt electionCalls 4).validators 1).stake <
      ((runAt electionCalls 4).validators 2).stake := by
    decide +kernel
  obtain ⟨s', hs'⟩ := exists_of_isOk hok
  have hreach : Reachable stakingStep (fun _ _ _ => True) .empty (runAt electionCalls 4) :=
    stateAt_reachable stakingStep .empty electionCalls 4
  obtain ⟨⟨hsnapshot, -⟩, ⟨ranking, hperm, hsorted, helected⟩, -⟩ :=
    snapshot_rebuilds_sets hreach hs'
  rw [hcandidates] at hperm
  refine ⟨s', hs', ?_, by rw [hsnapshot, hbefore]⟩
  rw [helected]
  rcases List.perm_pair.mp hperm with rfl | rfl
  · rw [List.pairwise_pair] at hsorted
    omega
  · rfl

end Election

end SuwappuRevm.Staking
