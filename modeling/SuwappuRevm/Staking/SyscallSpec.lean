import SuwappuRevm.Staking.HandlerSpec

/-!
# What the syscalls do to the pools

A snapshot moves the consensus view of every pool into its snapshot view and takes a new
consensus view. An epoch change refreshes the referenced accumulator entries of the snapshot
set. The loops over the validator sets get closed forms by induction on their iterations.
-/

namespace SuwappuRevm.Staking

open Foundations

/-- The ids in the first positions of an array. -/
def firstIds (slot : ℕ → ValId) (n : ℕ) : List ValId := (List.range n).map slot

/-- One more position. -/
theorem mem_firstIds_succ {slot : ℕ → ValId} {n : ℕ} {v : ValId} :
    v ∈ firstIds slot (n + 1) ↔ v ∈ firstIds slot n ∨ v = slot n := by
  simp [firstIds, List.range_succ, eq_comm]

/-- Writing the next position of a written prefix. -/
theorem update_prefix {A : Type*} (f g : ℕ → A) (n : ℕ) :
    Function.update (fun i => if i < n then f i else g i) n (f n) =
      fun i => if i < n + 1 then f i else g i := by
  funext i
  rcases lt_trichotomy i n with h | h | h
  · simp [h.ne, h, Nat.lt_succ_of_lt h]
  · simp [h]
  · have hsucc : ¬i < n + 1 := by omega
    simp [h.ne', Nat.lt_asymm h, hsucc]

/-- Writing one more id of a written prefix of ids. -/
theorem update_ids {A : Type*} (slot : ℕ → ValId) (f g : ValId → A) (n : ℕ) :
    Function.update (fun v => if v ∈ firstIds slot n then f v else g v) (slot n) (f (slot n)) =
      fun v => if v ∈ firstIds slot (n + 1) then f v else g v := by
  funext v
  by_cases hv : v = slot n
  · simp [hv, mem_firstIds_succ]
  · simp [hv, mem_firstIds_succ]

section Snapshot

variable (s : Storage)

/-- The first iterations of step 1. -/
theorem clearSnapshotSet_loop (n : ℕ) :
    (List.range n).foldl (fun s i =>
      let oldValId := s.snapshot.slot i
      { s with
        snapshotView := Function.update s.snapshotView oldValId .zero
        snapshot := ⟨s.snapshot.length, Function.update s.snapshot.slot i 0⟩ }) s =
      { s with
        snapshotView := fun v => if v ∈ firstIds s.snapshot.slot n then .zero else s.snapshotView v
        snapshot := ⟨s.snapshot.length, fun i => if i < n then 0 else s.snapshot.slot i⟩ } := by
  induction n with
  | zero => rfl
  | succ n ih =>
    have hview := update_ids s.snapshot.slot (fun _ => ConsensusView.zero) s.snapshotView n
    have hslot := update_prefix (fun _ => (0 : ValId)) s.snapshot.slot n
    rw [List.range_succ, List.foldl_append, ih]
    simp only [List.foldl_cons, List.foldl_nil, lt_irrefl, if_false]
    rw [hview, hslot]

/-- Step 1 clears the views of the old snapshot set. -/
theorem clearSnapshotSet_eq :
    clearSnapshotSet s =
      { s with
        snapshotView := fun v => if v ∈ s.snapshot.toList then .zero else s.snapshotView v
        snapshot := ⟨s.snapshot.length,
          fun i => if i < s.snapshot.length then 0 else s.snapshot.slot i⟩ } :=
  clearSnapshotSet_loop s s.snapshot.length

/-- The first iterations of step 2. -/
theorem copyConsensusSet_loop (n : ℕ) :
    (List.range n).foldl (fun s i =>
      let valId := s.consensus.slot i
      { s with
        snapshot := ⟨s.snapshot.length, Function.update s.snapshot.slot i valId⟩
        snapshotView := Function.update s.snapshotView valId (s.consensusView valId) }) s =
      { s with
        snapshot := ⟨s.snapshot.length,
          fun i => if i < n then s.consensus.slot i else s.snapshot.slot i⟩
        snapshotView := fun v =>
          if v ∈ firstIds s.consensus.slot n then s.consensusView v else s.snapshotView v } := by
  induction n with
  | zero => rfl
  | succ n ih =>
    have hview := update_ids s.consensus.slot s.consensusView s.snapshotView n
    have hslot := update_prefix s.consensus.slot s.snapshot.slot n
    rw [List.range_succ, List.foldl_append, ih]
    simp only [List.foldl_cons, List.foldl_nil]
    rw [hview, hslot]

/-- The first iterations of step 3. -/
theorem clearConsensusSet_loop (n : ℕ) :
    (List.range n).foldl (fun s i =>
      let oldValId := s.consensus.slot i
      { s with
        consensusView := Function.update s.consensusView oldValId .zero
        consensus := ⟨s.consensus.length, Function.update s.consensus.slot i 0⟩ }) s =
      { s with
        consensusView := fun v =>
          if v ∈ firstIds s.consensus.slot n then .zero else s.consensusView v
        consensus := ⟨s.consensus.length, fun i => if i < n then 0 else s.consensus.slot i⟩ } := by
  induction n with
  | zero => rfl
  | succ n ih =>
    have hview := update_ids s.consensus.slot (fun _ => ConsensusView.zero) s.consensusView n
    have hslot := update_prefix (fun _ => (0 : ValId)) s.consensus.slot n
    rw [List.range_succ, List.foldl_append, ih]
    simp only [List.foldl_cons, List.foldl_nil, lt_irrefl, if_false]
    rw [hview, hslot]

/-- Steps 1 to 3: the consensus set and its views become those of the snapshot. -/
theorem moveConsensusSet_eq (s : Storage) :
    clearConsensusSet (copyConsensusSet (clearSnapshotSet s) s.consensus.length)
        s.consensus.length =
      { s with
        snapshotView := fun v =>
          if v ∈ s.consensus.toList then s.consensusView v
          else if v ∈ s.snapshot.toList then .zero else s.snapshotView v
        snapshot := ⟨s.consensus.length, fun i => if i < s.consensus.length then s.consensus.slot i
          else if i < s.snapshot.length then 0 else s.snapshot.slot i⟩
        consensusView := fun v => if v ∈ s.consensus.toList then .zero else s.consensusView v
        consensus := ⟨s.consensus.length,
          fun i => if i < s.consensus.length then 0 else s.consensus.slot i⟩ } := by
  rw [clearSnapshotSet_eq]
  unfold clearConsensusSet copyConsensusSet
  rw [copyConsensusSet_loop, clearConsensusSet_loop]
  rfl

/-- Step 5 from an offset of the array. -/
theorem writeConsensusSet_loop (ids : List ValId) (len k : ℕ) (slot : ℕ → ValId) :
    (ids.zipIdx k).foldl (fun s e =>
      { s with
        consensus := ⟨s.consensus.length, Function.update s.consensus.slot e.2 e.1⟩
        consensusView := Function.update s.consensusView e.1
          ⟨(s.validators e.1).stake, (s.validators e.1).commission⟩ })
      { s with consensus := ⟨len, slot⟩ } =
      { s with
        consensus := ⟨len, fun i => if k ≤ i then (ids[i - k]?).getD (slot i) else slot i⟩
        consensusView := fun v =>
          if v ∈ ids then ⟨(s.validators v).stake, (s.validators v).commission⟩
          else s.consensusView v } := by
  induction ids generalizing s k slot with
  | nil => simp
  | cons v ids ih =>
    have hslot : (fun i => if k + 1 ≤ i then
        (ids[i - (k + 1)]?).getD (Function.update slot k v i) else Function.update slot k v i) =
        fun i => if k ≤ i then ((v :: ids)[i - k]?).getD (slot i) else slot i := by
      funext i
      rcases lt_trichotomy i k with h | h | h
      · have h₁ : ¬k + 1 ≤ i := by omega
        have h₂ : ¬k ≤ i := by omega
        simp [h₁, h₂, h.ne]
      · simp [h]
      · obtain ⟨j, rfl⟩ : ∃ j, i = k + 1 + j := ⟨i - (k + 1), by omega⟩
        have h₁ : k + 1 + j - k = j + 1 := by omega
        have h₂ : k ≤ k + 1 + j := by omega
        simp [h₁, h₂, h.ne']
    have hview : (fun v' => if v' ∈ ids then
        ConsensusView.mk (s.validators v').stake (s.validators v').commission
        else Function.update s.consensusView v
          ⟨(s.validators v).stake, (s.validators v).commission⟩ v') =
        fun v' => if v' ∈ v :: ids then
          ⟨(s.validators v').stake, (s.validators v').commission⟩ else s.consensusView v' := by
      funext v'
      by_cases hv : v' = v
      · simp [hv]
      · simp [hv]
    rw [List.zipIdx_cons, List.foldl_cons]
    rw [← hslot, ← hview]
    let view := Function.update s.consensusView v
      ⟨(s.validators v).stake, (s.validators v).commission⟩
    exact ih { s with consensusView := view } (k + 1) (Function.update slot k v)

/-- Step 5 makes the ids the consensus set, with their current stakes as views. -/
theorem writeConsensusSet_eq (ids : List ValId) :
    writeConsensusSet s ids =
      { s with
        consensus := ⟨ids.length, fun i => (ids[i]?).getD (s.consensus.slot i)⟩
        consensusView := fun v =>
          if v ∈ ids then ⟨(s.validators v).stake, (s.validators v).commission⟩
          else s.consensusView v } := by
  have hloop := writeConsensusSet_loop s ids ids.length 0 s.consensus.slot
  simp only [Nat.zero_le, if_true, Nat.sub_zero] at hloop
  exact hloop

/-- The compaction of the execution set changes no pool. -/
theorem compactExecutionSet_samePools : SamePools s (compactExecutionSet s) := by
  unfold compactExecutionSet
  generalize (removals s).reverse = idxs
  induction idxs generalizing s with
  | nil => exact .refl s
  | cons idx idxs ih => exact (SamePools.execution s _ _).trans (ih _)

end Snapshot

/-- What a snapshot does to a pool: the consensus view becomes the snapshot view, and the new
consensus view is the stake of a member and nothing of another. -/
structure Pool.SnapshotTo (p p' : Pool) : Prop where
  history_eq : p'.history = p.history
  stake_eq : p'.stake = p.stake
  acc_eq : p'.acc = p.acc
  unclaimed_eq : p'.unclaimed = p.unclaimed
  delegators_eq : p'.delegators = p.delegators
  withdrawals_eq : p'.withdrawals = p.withdrawals
  accumulators_eq : p'.accumulators = p.accumulators
  inSnapshot_iff : p'.inSnapshot ↔ p.inConsensus
  snapshotStake_of_mem : p.inConsensus → p'.snapshotStake = p.consensusStake
  snapshotStake_of_not_mem : ¬p.inConsensus → p'.snapshotStake = 0 ∨
    p'.snapshotStake = p.snapshotStake ∧ ¬p.inSnapshot
  consensusStake_of_mem : p'.inConsensus → p'.consensusStake = p.stake
  consensusStake_of_not_mem : ¬p'.inConsensus → p'.consensusStake = 0 ∨
    p'.consensusStake = p.consensusStake ∧ ¬p.inConsensus

/-- The list of an array is that of its first positions. -/
theorem toList_eq_of_slot {a b : Valset} (hlen : a.length = b.length)
    (hslot : ∀ i < b.length, a.slot i = b.slot i) : a.toList = b.toList := by
  unfold Valset.toList
  rw [hlen]
  refine List.map_congr_left fun i hi => hslot i ?_
  exact List.mem_range.mp hi

/-- The ids that a snapshot elects: the first of the flag-free validators of the execution set by
stake. -/
def electedIds (s : Storage) : List ValId :=
  ((sortedValidators s).take activeValsetSize).map Prod.fst

/-- A snapshot before its compaction: the consensus set and its views have moved to the snapshot,
and the elected ids with their current stakes and commissions have become the consensus set. -/
def electSnapshot (s : Storage) : Storage :=
  { s with
    inBoundary := true
    snapshotView := fun v =>
      if v ∈ s.consensus.toList then s.consensusView v
      else if v ∈ s.snapshot.toList then .zero else s.snapshotView v
    snapshot := ⟨s.consensus.length, fun i => if i < s.consensus.length then s.consensus.slot i
      else if i < s.snapshot.length then 0 else s.snapshot.slot i⟩
    consensusView := fun v =>
      if v ∈ electedIds s then ⟨(s.validators v).stake, (s.validators v).commission⟩
      else if v ∈ s.consensus.toList then .zero else s.consensusView v
    consensus := ⟨(electedIds s).length, fun i => ((electedIds s)[i]?).getD
      (if i < s.consensus.length then 0 else s.consensus.slot i)⟩ }

/-- A snapshot elects, then compacts the execution set. -/
theorem takeSnapshot_eq (s : Storage) : takeSnapshot s = compactExecutionSet (electSnapshot s) := by
  unfold takeSnapshot
  dsimp only
  have hmove := moveConsensusSet_eq { s with inBoundary := true }
  dsimp only at hmove
  rw [hmove, writeConsensusSet_eq]
  rfl

/-- The snapshot set is the old consensus set. -/
theorem electSnapshot_snapshot (s : Storage) :
    (electSnapshot s).snapshot.toList = s.consensus.toList :=
  toList_eq_of_slot rfl fun _ hi => if_pos hi

/-- The consensus set is what was elected. -/
theorem electSnapshot_consensus (s : Storage) :
    (electSnapshot s).consensus.toList = electedIds s := by
  refine List.ext_getElem (by simp [Valset.toList, electSnapshot]) fun i hi _ => ?_
  have hlt : i < (electedIds s).length := by simpa [Valset.toList, electSnapshot] using hi
  simp [Valset.toList, electSnapshot, hlt]

/-- A snapshot on the pool of each validator. -/
theorem takeSnapshot_pool (s : Storage) (v : ValId) :
    (s.pool v).SnapshotTo ((takeSnapshot s).pool v) := by
  rw [takeSnapshot_eq, (compactExecutionSet_samePools _).pool_eq]
  have hsnapshot := electSnapshot_snapshot s
  have hconsensus := electSnapshot_consensus s
  refine ⟨rfl, rfl, rfl, rfl, rfl, rfl, rfl, ?_, ?_, ?_, ?_, ?_⟩
  · simp [Storage.pool, hsnapshot]
  · intro hmem
    have hmem : v ∈ s.consensus.toList := hmem
    simp [Storage.pool, electSnapshot, hmem]
  · intro hmem
    have hmem : v ∉ s.consensus.toList := hmem
    by_cases hold : v ∈ s.snapshot.toList
    · simp [Storage.pool, electSnapshot, hmem, hold, ConsensusView.zero]
    · simp [Storage.pool, electSnapshot, hmem, hold]
  · intro hmem
    have hmem : v ∈ electedIds s := by simpa [Storage.pool, hconsensus] using hmem
    simp [Storage.pool, electSnapshot, hmem]
  · intro hmem
    have hmem : v ∉ electedIds s := by simpa [Storage.pool, hconsensus] using hmem
    by_cases hold : v ∈ s.consensus.toList
    · simp [Storage.pool, electSnapshot, hmem, hold, ConsensusView.zero]
    · simp [Storage.pool, electSnapshot, hmem, hold]

/-- What the loops of a syscall leave alone. -/
structure SameLedger (s s' : Storage) : Prop where
  epoch_eq : s'.epoch = s.epoch
  inBoundary_eq : s'.inBoundary = s.inBoundary
  lastValId_eq : s'.lastValId = s.lastValId
  validators_eq : s'.validators = s.validators
  received_eq : s'.received = s.received
  balance_eq : s'.balance = s.balance

/-- Two loops after each other. -/
theorem SameLedger.trans {s s' s'' : Storage} (h : SameLedger s s') (h' : SameLedger s' s'') :
    SameLedger s s'' :=
  ⟨h'.1.trans h.1, h'.2.trans h.2, h'.3.trans h.3, h'.4.trans h.4, h'.5.trans h.5, h'.6.trans h.6⟩

/-- The compaction leaves clock, validators and value alone. -/
theorem compactExecutionSet_sameLedger (s : Storage) : SameLedger s (compactExecutionSet s) := by
  unfold compactExecutionSet
  generalize (removals s).reverse = idxs
  induction idxs generalizing s with
  | nil => exact ⟨rfl, rfl, rfl, rfl, rfl, rfl⟩
  | cons idx idxs ih =>
    rw [List.foldl_cons]
    refine SameLedger.trans ?_ (ih _)
    exact ⟨rfl, rfl, rfl, rfl, rfl, rfl⟩

/-- A snapshot sets the boundary flag and leaves epoch, validators and value alone. -/
theorem takeSnapshot_sameLedger (s : Storage) :
    SameLedger { s with inBoundary := true } (takeSnapshot s) := by
  rw [takeSnapshot_eq]
  refine SameLedger.trans ?_ (compactExecutionSet_sameLedger _)
  exact ⟨rfl, rfl, rfl, rfl, rfl, rfl⟩

/-- A referenced entry with the accumulator `acc` as its value. -/
def RefCountedAccumulator.refreshed (acc : ℕ) (entry : RefCountedAccumulator) :
    RefCountedAccumulator :=
  if 0 < entry.refcount then ⟨acc, entry.refcount⟩ else entry

/-- Refreshing keeps the count. -/
@[simp] theorem RefCountedAccumulator.refreshed_refcount (acc : ℕ)
    (entry : RefCountedAccumulator) : (entry.refreshed acc).refcount = entry.refcount := by
  unfold refreshed
  split <;> rfl

/-- Refreshing twice is refreshing once. -/
@[simp] theorem RefCountedAccumulator.refreshed_refreshed (acc : ℕ)
    (entry : RefCountedAccumulator) :
    (entry.refreshed acc).refreshed acc = entry.refreshed acc := by
  by_cases hcount : 0 < entry.refcount
  · simp [refreshed, hcount]
  · simp [refreshed, hcount]

/-- A pool with the entries of two epochs refreshed. -/
def Pool.refreshed (p : Pool) (epoch epoch' : ℕ) : Pool :=
  { p with accumulators := fun k =>
      if k = epoch ∨ k = epoch' then (p.accumulators k).refreshed p.acc else p.accumulators k }

/-- Refreshing a pool keeps the counts. -/
@[simp] theorem Pool.refreshed_refcount (p : Pool) (epoch epoch' k : ℕ) :
    ((p.refreshed epoch epoch').accumulators k).refcount = (p.accumulators k).refcount := by
  simp only [Pool.refreshed]
  split
  · exact RefCountedAccumulator.refreshed_refcount ..
  · rfl

/-- A referenced entry of a refreshed epoch holds the accumulator. -/
theorem Pool.refreshed_value (p : Pool) {epoch epoch' k : ℕ} (hk : k = epoch ∨ k = epoch')
    (hlive : (p.accumulators k).refcount ≠ 0) :
    ((p.refreshed epoch epoch').accumulators k).value = p.acc := by
  simp only [Pool.refreshed, if_pos hk, RefCountedAccumulator.refreshed,
    if_pos (Nat.pos_of_ne_zero hlive)]

/-- Other entries stay. -/
theorem Pool.refreshed_of_ne (p : Pool) {epoch epoch' k : ℕ} (hk : ¬(k = epoch ∨ k = epoch')) :
    (p.refreshed epoch epoch').accumulators k = p.accumulators k :=
  if_neg hk

/-- Refreshing an entry in storage refreshes it in the pool. -/
theorem refreshAccumulator_pool (s : Storage) (epoch : ℕ) (v : ValId) :
    (refreshAccumulator s epoch v).pool v = (s.pool v).refreshed epoch epoch ∧
      Touches v s (refreshAccumulator s epoch v) ∧
      SameLedger s (refreshAccumulator s epoch v) ∧
      (refreshAccumulator s epoch v).snapshot = s.snapshot := by
  have hentry (entry : RefCountedAccumulator) (hvalue : ((s.pool v).accumulators epoch).refreshed
      (s.pool v).acc = entry) : (s.pool v).setEntry epoch entry =
      (s.pool v).refreshed epoch epoch := by
    have haccs : Function.update (s.pool v).accumulators epoch entry = fun k =>
        if k = epoch ∨ k = epoch then ((s.pool v).accumulators k).refreshed (s.pool v).acc
        else (s.pool v).accumulators k := by
      funext k
      by_cases hk : k = epoch
      · simp [hk, hvalue]
      · simp [hk]
    rw [Pool.setEntry, haccs]
    rfl
  unfold refreshAccumulator
  dsimp only
  by_cases hcount : 0 < (s.accumulators epoch v).refcount
  · rw [if_pos hcount, pool_writeAccumulator]
    exact ⟨hentry _ (if_pos hcount), .writeAccumulator .., ⟨rfl, rfl, rfl, rfl, rfl, rfl⟩, rfl⟩
  · rw [if_neg hcount]
    refine ⟨?_, .refl v s, ⟨rfl, rfl, rfl, rfl, rfl, rfl⟩, rfl⟩
    rw [← hentry (s.accumulators epoch v) (if_neg hcount)]
    simp [Pool.setEntry, Storage.pool]

/-- Refreshing two entries after each other. -/
theorem Pool.refreshed_refreshed (p : Pool) (epoch epoch' : ℕ) :
    (p.refreshed epoch epoch).refreshed epoch' epoch' = p.refreshed epoch epoch' := by
  have haccs : ((p.refreshed epoch epoch).refreshed epoch' epoch').accumulators =
      (p.refreshed epoch epoch').accumulators := by
    funext k
    by_cases hk : k = epoch
    · by_cases hk' : epoch = epoch' <;> simp [refreshed, hk, hk']
    · by_cases hk' : k = epoch'
      · subst hk'
        simp [refreshed, hk]
      · simp [refreshed, hk, hk']
  exact Pool.ext rfl rfl rfl rfl rfl rfl haccs rfl rfl rfl rfl

/-- Refreshing the same entries again changes nothing. -/
theorem Pool.refreshed_idem (p : Pool) (epoch epoch' : ℕ) :
    (p.refreshed epoch epoch').refreshed epoch epoch' = p.refreshed epoch epoch' := by
  have haccs : ((p.refreshed epoch epoch').refreshed epoch epoch').accumulators =
      (p.refreshed epoch epoch').accumulators := by
    funext k
    by_cases hk : k = epoch ∨ k = epoch' <;> simp [refreshed, hk]
  exact Pool.ext rfl rfl rfl rfl rfl rfl haccs rfl rfl rfl rfl

/-- The first iterations of the refreshing loop. -/
theorem refreshAccumulators_loop (s : Storage) (nextEpoch n : ℕ) :
    let s' := (List.range n).foldl (fun s i =>
      let valId := s.snapshot.slot i
      refreshAccumulator (refreshAccumulator s nextEpoch valId) (u64Add nextEpoch 1) valId) s
    SameLedger s s' ∧ s'.snapshot = s.snapshot ∧ ∀ v, s'.pool v =
      if v ∈ firstIds s.snapshot.slot n then (s.pool v).refreshed nextEpoch (u64Add nextEpoch 1)
      else s.pool v := by
  induction n with
  | zero => exact ⟨⟨rfl, rfl, rfl, rfl, rfl, rfl⟩, rfl, fun _ => rfl⟩
  | succ n ih =>
    dsimp only at ih ⊢
    rw [List.range_succ, List.foldl_append, List.foldl_cons, List.foldl_nil]
    generalize (List.range n).foldl _ s = t at ih ⊢
    obtain ⟨hledger, hsnapshot, hpool⟩ := ih
    rw [hsnapshot]
    generalize hv : s.snapshot.slot n = v₀
    obtain ⟨hpool₁, htouches₁, hledger₁, hsnapshot₁⟩ := refreshAccumulator_pool t nextEpoch v₀
    obtain ⟨hpool₂, htouches₂, hledger₂, hsnapshot₂⟩ :=
      refreshAccumulator_pool (refreshAccumulator t nextEpoch v₀) (u64Add nextEpoch 1) v₀
    refine ⟨(hledger.trans hledger₁).trans hledger₂,
      (hsnapshot₂.trans hsnapshot₁).trans hsnapshot, fun v => ?_⟩
    by_cases hne : v = v₀
    · subst hne
      have hmem : v ∈ firstIds s.snapshot.slot (n + 1) := mem_firstIds_succ.mpr (.inr hv.symm)
      rw [hpool₂, hpool₁, Pool.refreshed_refreshed, hpool, if_pos hmem]
      split
      · exact Pool.refreshed_idem ..
      · rfl
    · rw [htouches₂.pool_of_ne v hne, htouches₁.pool_of_ne v hne, hpool]
      have hmem : v ∈ firstIds s.snapshot.slot (n + 1) ↔ v ∈ firstIds s.snapshot.slot n := by
        rw [mem_firstIds_succ, hv]
        simp [hne]
      simp only [hmem]

/-- An epoch change refreshes the entries of the next two epochs for the snapshot set. -/
theorem refreshAccumulators_spec (s : Storage) (nextEpoch : ℕ) :
    SameLedger s (refreshAccumulators s nextEpoch) ∧
      ∀ v, ((s.pool v).inSnapshot → (refreshAccumulators s nextEpoch).pool v =
        (s.pool v).refreshed nextEpoch (u64Add nextEpoch 1)) ∧
        (¬(s.pool v).inSnapshot → (refreshAccumulators s nextEpoch).pool v = s.pool v) := by
  obtain ⟨hledger, -, hpool⟩ := refreshAccumulators_loop s nextEpoch s.snapshot.length
  refine ⟨hledger, fun v => ⟨fun hmem => ?_, fun hmem => ?_⟩⟩
  · exact (hpool v).trans (if_pos hmem)
  · exact (hpool v).trans (if_neg hmem)

end SuwappuRevm.Staking
