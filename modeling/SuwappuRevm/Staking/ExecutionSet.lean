import SuwappuRevm.Foundations.SlotArray
import SuwappuRevm.Staking.RosterSteps

/-!
# The execution set

The execution array grows by appending and shrinks by moving its last entry into the gap, while a
bitset says who is in it. Entering and the compaction of a snapshot keep the two in step: the array
lists the ids of the bitset once each.
-/

namespace SuwappuRevm.Staking

open Foundations

open scoped List

/-- Whether the bit of a validator is set in its bucket. -/
def Storage.inBitset (s : Storage) (v : ValId) : Bool :=
  (s.bitset (v.val / 256)).getLsbD (v.val % 256)

/-- The bits of a mask. -/
theorem bitMask_getLsbD (v : ValId) (i : ℕ) :
    (bitMask v).getLsbD i = decide (i = v.val % 256) := by
  have hlt : v.val % 256 < 256 := Nat.mod_lt _ (by decide)
  simp only [bitMask, BitVec.getLsbD_shiftLeft, BitVec.getLsbD_one]
  by_cases h : i = v.val % 256
  · simp [h, hlt]
  · simp [h]
    omega

/-- A masked bucket is empty exactly when the bit is not set. -/
theorem and_bitMask_eq_zero (set : BitVec 256) (v : ValId) :
    set &&& bitMask v = 0 ↔ set.getLsbD (v.val % 256) = false := by
  have hlt : v.val % 256 < 256 := Nat.mod_lt _ (by decide)
  constructor
  · intro h
    have hbit := congrArg (fun x => x.getLsbD (v.val % 256)) h
    simpa [bitMask_getLsbD v] using hbit
  · intro h
    refine BitVec.eq_of_getLsbD_eq fun i hi => ?_
    rw [BitVec.getLsbD_and, bitMask_getLsbD v i]
    by_cases heq : i = v.val % 256
    · rw [heq, h]
      simp
    · simp [heq]

/-- A validator is given by its bucket and its bit. -/
theorem valId_ext {v v' : ValId} (hbucket : v'.val / 256 = v.val / 256)
    (hbit : v'.val % 256 = v.val % 256) : v' = v :=
  Fin.ext (by omega)

/-- Setting the bit of one validator. -/
theorem inBitset_set {s s' : Storage} {v : ValId} (h : s'.bitset = Function.update s.bitset
    (v.val / 256) (s.bitset (v.val / 256) ||| bitMask v)) (v' : ValId) :
    s'.inBitset v' = (decide (v' = v) || s.inBitset v') := by
  have hlt : v'.val % 256 < 256 := Nat.mod_lt _ (by decide)
  unfold Storage.inBitset
  rw [h]
  by_cases hbucket : v'.val / 256 = v.val / 256
  · rw [hbucket, Function.update_self, BitVec.getLsbD_or, bitMask_getLsbD v, Bool.or_comm]
    by_cases hbit : v'.val % 256 = v.val % 256
    · simp [valId_ext hbucket hbit]
    · have hne : v' ≠ v := fun heq => hbit (heq ▸ rfl)
      simp [hbit, hne]
  · have hne : v' ≠ v := fun heq => hbucket (heq ▸ rfl)
    simp [Function.update_of_ne hbucket, hne]

/-- Clearing the bit of one validator. -/
theorem inBitset_clear {s s' : Storage} {v : ValId} (h : s'.bitset = Function.update s.bitset
    (v.val / 256) (s.bitset (v.val / 256) &&& ~~~bitMask v)) (v' : ValId) :
    s'.inBitset v' = (decide (v' ≠ v) && s.inBitset v') := by
  have hlt : v'.val % 256 < 256 := Nat.mod_lt _ (by decide)
  unfold Storage.inBitset
  rw [h]
  by_cases hbucket : v'.val / 256 = v.val / 256
  · rw [hbucket, Function.update_self, BitVec.getLsbD_and, BitVec.getLsbD_not,
      bitMask_getLsbD v, Bool.and_comm]
    by_cases hbit : v'.val % 256 = v.val % 256
    · simp [valId_ext hbucket hbit]
    · have hne : v' ≠ v := fun heq => hbit (heq ▸ rfl)
      simp [hbit, hne, hlt]
  · have hne : v' ≠ v := fun heq => hbucket (heq ▸ rfl)
    simp [Function.update_of_ne hbucket, hne]

/-- The execution array lists every id of its bitset once. -/
structure ExecutionSet (s : Storage) : Prop where
  nodup : s.execution.toList.Nodup
  mem_iff : ∀ v, v ∈ s.execution.toList ↔ s.inBitset v = true

/-- The ids of an array are the entries of its slots. -/
theorem toList_eq (a : Valset) : a.toList = firstSlots a.slot a.length := rfl

/-- An array of distinct ids other than `0` has room for a new one. -/
theorem length_add_one_lt {a : Valset} {v : ValId} (hnodup : a.toList.Nodup) (hv : v ≠ 0)
    (hzero : 0 ∉ a.toList) (hnew : v ∉ a.toList) : a.length + 1 < 2 ^ 64 := by
  have hall : (0 :: v :: a.toList).Nodup := by
    rw [List.nodup_cons, List.nodup_cons, List.mem_cons, not_or]
    exact ⟨⟨hv.symm, hzero⟩, hnew, hnodup⟩
  have hcard := hall.length_le_card
  rw [Fintype.card_fin, List.length_cons, List.length_cons, toList_eq, firstSlots_length] at hcard
  omega

/-- Entering the execution set: the array and the members after it. -/
theorem addToValset_toList {s : Storage} {v : ValId} (hs : ExecutionSet s) (hv : v ≠ 0)
    (hzero : 0 ∉ s.execution.toList) :
    (addToValset s v).2.execution.toList =
      if v ∈ s.execution.toList then s.execution.toList else s.execution.toList ++ [v] := by
  have hinserted : s.bitset (v.val / 256) &&& bitMask v = 0 ↔ v ∉ s.execution.toList := by
    rw [and_bitMask_eq_zero, hs.mem_iff, Bool.not_eq_true]
    rfl
  unfold addToValset
  dsimp only
  by_cases hmem : v ∈ s.execution.toList
  · rw [if_neg (hinserted.not.mpr (not_not.mpr hmem)), if_pos hmem]
  · have hlength := length_add_one_lt hs.nodup hv hzero hmem
    rw [if_pos (hinserted.mpr hmem), if_neg hmem, toList_eq, toList_eq]
    change firstSlots (Function.update _ _ _) (u64Add s.execution.length 1) = _
    rw [u64Add_one hlength, firstSlots_append]

/-- A validator enters the execution set once. -/
theorem addToValset_executionSet {s : Storage} {v : ValId} (hs : ExecutionSet s)
    (hv : v ≠ 0) (hzero : 0 ∉ s.execution.toList) :
    ExecutionSet (addToValset s v).2 ∧ ∀ v', v' ∈ (addToValset s v).2.execution.toList ↔
      v' = v ∨ v' ∈ s.execution.toList := by
  have hbitset : (addToValset s v).2.bitset =
      Function.update s.bitset (v.val / 256) (s.bitset (v.val / 256) ||| bitMask v) := by
    unfold addToValset
    dsimp only
    split <;> rfl
  have hbits := inBitset_set hbitset
  have hlist := addToValset_toList hs hv hzero
  have hmem (v') : v' ∈ (addToValset s v).2.execution.toList ↔
      v' = v ∨ v' ∈ s.execution.toList := by
    rw [hlist]
    split
    next hv =>
      refine ⟨Or.inr, fun h => ?_⟩
      rcases h with rfl | h
      · exact hv
      · exact h
    next => rw [List.mem_append, List.mem_singleton, or_comm]
  refine ⟨⟨?_, fun v' => ?_⟩, hmem⟩
  · rw [hlist]
    split
    next => exact hs.nodup
    next hnew =>
      rw [← List.concat_eq_append]
      exact hs.nodup.concat hnew
  · rw [hmem, hbits, hs.mem_iff]
    simp

/-- A removal of the compaction: move the last entry into the gap and clear the bit. -/
def removeAt (s : Storage) (idx : ℕ) : Storage :=
  { removeFromValset s (s.execution.slot idx) with
    execution := ⟨s.execution.length - 1,
      swapPop s.execution.slot (s.execution.length - 1) idx 0⟩ }

/-- The compaction removes the flagged positions, last one first. -/
theorem compactExecutionSet_eq (s : Storage) :
    compactExecutionSet s = (removals s).reverse.foldl removeAt s := rfl

/-- A removal takes one id out of the execution set. -/
theorem removeAt_executionSet {s : Storage} {idx : ℕ} (hs : ExecutionSet s)
    (hidx : idx < s.execution.length) :
    ExecutionSet (removeAt s idx) ∧ ∀ v, v ∈ (removeAt s idx).execution.toList ↔
      v ≠ s.execution.slot idx ∧ v ∈ s.execution.toList := by
  have hperm : s.execution.slot idx :: (removeAt s idx).execution.toList ~ s.execution.toList := by
    have hswap := swapPop_perm s.execution.slot (0 : ValId) (Nat.le_sub_one_of_lt hidx)
    rwa [Nat.sub_add_cancel (by omega)] at hswap
  have hnodup := hperm.nodup_iff.mpr hs.nodup
  rw [List.nodup_cons] at hnodup
  have hmem (v) : v ∈ (removeAt s idx).execution.toList ↔
      v ≠ s.execution.slot idx ∧ v ∈ s.execution.toList := by
    rw [← hperm.mem_iff, List.mem_cons]
    refine ⟨fun h => ⟨fun heq => hnodup.1 (heq ▸ h), .inr h⟩, fun ⟨hne, h⟩ => ?_⟩
    exact h.resolve_left hne
  have hbitset : (removeAt s idx).bitset = (removeFromValset s (s.execution.slot idx)).bitset := rfl
  have hbits := inBitset_clear (hbitset.trans rfl)
  refine ⟨⟨hnodup.2, fun v => ?_⟩, hmem⟩
  rw [hmem, hbits, hs.mem_iff]
  simp

/-- Removing flagged positions below a bound, from a storage that agrees with the first one on
them. -/
theorem removeAt_loop (s : Storage) (bad : ValId → Prop) [DecidablePred bad] (k : ℕ) (t : Storage)
    (ht : ExecutionSet t) (hlength : k ≤ t.execution.length)
    (hshared : ∀ i < k, t.execution.slot i = s.execution.slot i) :
    let t' := (((List.range k).filter fun i => bad (s.execution.slot i)).reverse).foldl removeAt t
    ExecutionSet t' ∧ ∀ v, v ∈ t'.execution.toList ↔
      v ∈ t.execution.toList ∧ ¬(bad v ∧ v ∈ firstSlots s.execution.slot k) := by
  induction k generalizing t with
  | zero => simpa [firstSlots] using ht
  | succ k ih =>
    rw [List.range_succ, List.filter_append, List.reverse_append, List.foldl_append]
    by_cases hbad : bad (s.execution.slot k)
    · obtain ⟨ht', hmem⟩ := removeAt_executionSet ht (Nat.lt_of_succ_le hlength)
      have hrest := ih (removeAt t k) ht' (Nat.le_sub_one_of_lt hlength) fun i hi => by
        rw [← hshared i (by omega)]
        exact swapPop_of_lt _ _ (Nat.le_sub_one_of_lt hlength) hi
      simp only [List.filter_cons, hbad, decide_true, if_true, List.filter_nil,
        List.reverse_singleton, List.foldl_cons, List.foldl_nil]
      refine ⟨hrest.1, fun v => (hrest.2 v).trans ?_⟩
      rw [hmem, hshared k (by omega), firstSlots_succ, List.mem_append, List.mem_singleton]
      by_cases hv : v = s.execution.slot k
      · simp [hv, hbad]
      · simp [hv]
    · have hrest := ih t ht (by omega) fun i hi => hshared i (by omega)
      simp only [List.filter_cons, hbad, decide_false, Bool.false_eq_true, if_false,
        List.filter_nil, List.reverse_nil, List.foldl_nil]
      refine ⟨hrest.1, fun v => (hrest.2 v).trans ?_⟩
      rw [firstSlots_succ, List.mem_append, List.mem_singleton]
      by_cases hv : v = s.execution.slot k
      · simp [hv, hbad]
      · simp [hv]

/-- The compaction keeps exactly the flag-free members. -/
theorem compactExecutionSet_executionSet {s : Storage} (hs : ExecutionSet s) :
    ExecutionSet (compactExecutionSet s) ∧ ∀ v, v ∈ (compactExecutionSet s).execution.toList ↔
      v ∈ s.execution.toList ∧ (s.validators v).flags = flagsOk := by
  obtain ⟨hset, hmem⟩ := removeAt_loop s (fun v => (s.validators v).flags ≠ flagsOk)
    s.execution.length s hs le_rfl fun _ _ => rfl
  refine ⟨hset, fun v => (hmem v).trans ?_⟩
  change v ∈ s.execution.toList ∧ ¬(_ ∧ v ∈ s.execution.toList) ↔ _
  tauto

/-- The execution set is its array and its bitset. -/
theorem ExecutionSet.congr {s s' : Storage} (hs : ExecutionSet s)
    (hexecution : s'.execution = s.execution) (hbitset : s'.bitset = s.bitset) :
    ExecutionSet s' := by
  have hbits (v) : s'.inBitset v = s.inBitset v := by
    rw [Storage.inBitset, Storage.inBitset, hbitset]
  refine ⟨hexecution ▸ hs.nodup, fun v => ?_⟩
  rw [hexecution, hbits]
  exact hs.mem_iff v

/-- After a snapshot the flag-free members are left. -/
theorem takeSnapshot_executionSet {s : Storage} (hs : ExecutionSet s) :
    ExecutionSet (takeSnapshot s) ∧ ∀ v, v ∈ (takeSnapshot s).execution.toList ↔
      v ∈ s.execution.toList ∧ (s.validators v).flags = flagsOk := by
  have hexecution : (electSnapshot s).execution = s.execution := rfl
  have hbitset : (electSnapshot s).bitset = s.bitset := rfl
  have hvalidators : (electSnapshot s).validators = s.validators := rfl
  rw [takeSnapshot_eq]
  generalize electSnapshot s = t at *
  obtain ⟨hset, hmem⟩ := compactExecutionSet_executionSet (hs.congr hexecution hbitset)
  refine ⟨hset, fun v => (hmem v).trans ?_⟩
  rw [hexecution, hvalidators]

end SuwappuRevm.Staking
