import Mathlib.Algebra.BigOperators.Group.Finset.Basic
import Mathlib.Algebra.GroupWithZero.Nat
import Mathlib.Algebra.Order.BigOperators.Group.Finset

/-!
# Sums over finite ledgers, one cell at a time

A ledger is a function on a finite index type. A transaction rewrites one cell, so a total over
all cells moves by exactly that cell. Truncated subtraction is avoided: the old and the new
contribution stand on opposite sides.

The second part is about weighted quorums: two sets of more than two thirds of the weight
overlap in more than one third of it.
-/

namespace SuwappuRevm.Foundations

open Finset

section Ledger

variable {ι : Type*} [Fintype ι] [DecidableEq ι]

/-- Two ledgers that agree off one cell have totals that differ by that cell. -/
theorem sum_add_eq_of_eq_off {f g : ι → ℕ} (i : ι) (h : ∀ j, j ≠ i → g j = f j) :
    ∑ j, g j + f i = ∑ j, f j + g i := by
  rw [← Finset.sum_erase_add univ f (mem_univ i), ← Finset.sum_erase_add univ g (mem_univ i)]
  have hoff : ∑ j ∈ univ.erase i, g j = ∑ j ∈ univ.erase i, f j :=
    Finset.sum_congr rfl fun j hj => h j (Finset.ne_of_mem_erase hj)
  rw [hoff, Nat.add_right_comm]

/-- Rewriting one cell moves the total of a contribution by that of the cell. -/
theorem sum_update_add {β : Type*} (f : β → ℕ) (g : ι → β) (i : ι) (x : β) :
    ∑ j, f (Function.update g i x j) + f (g i) = ∑ j, f (g j) + f x := by
  have hoff (j : ι) (hj : j ≠ i) : (f ∘ Function.update g i x) j = (f ∘ g) j := by
    rw [Function.comp_apply, Function.update_of_ne hj, Function.comp_apply]
  have h := sum_add_eq_of_eq_off i hoff
  simpa only [Function.comp_apply, Function.update_self] using h

/-- Rewriting one cell of a ledger of ledgers. -/
theorem sum_update_update_add {κ β : Type*} [Fintype κ] [DecidableEq κ] (f : β → ℕ)
    (g : ι → κ → β) (i : ι) (k : κ) (x : β) :
    ∑ j, ∑ l, f (Function.update g i (Function.update (g i) k x) j l) + f (g i k) =
      ∑ j, ∑ l, f (g j l) + f x := by
  have houter := sum_update_add (fun row => ∑ l, f (row l)) g i (Function.update (g i) k x)
  have hinner := sum_update_add f (g i) k x
  omega

omit [DecidableEq ι] in
/-- One cell is at most the total. -/
theorem cell_le_sum (f : ι → ℕ) (i : ι) : f i ≤ ∑ j, f j :=
  Finset.single_le_sum (fun _ _ => Nat.zero_le _) (mem_univ i)

/-- Writing one cell raises the total by at most the written value. -/
theorem sum_update_le (f : ι → ℕ) (i : ι) (x : ℕ) :
    ∑ j, Function.update f i x j ≤ ∑ j, f j + x := by
  have h : ∑ j, Function.update f i x j + f i = ∑ j, f j + Function.update f i x i :=
    sum_add_eq_of_eq_off i fun j hj => Function.update_of_ne hj x f
  rw [Function.update_self] at h
  omega

/-- Writing entries in order, a later entry replacing an earlier one for the same cell. -/
def writeEntries (f : ι → ℕ) (entries : List (ι × ℕ)) : ι → ℕ :=
  entries.foldl (fun g e => Function.update g e.1 e.2) f

/-- The total after writing a list of entries is at most the old total plus all listed values,
repeated cells included. -/
theorem sum_writeEntries_le (f : ι → ℕ) (entries : List (ι × ℕ)) :
    ∑ j, writeEntries f entries j ≤ ∑ j, f j + (entries.map Prod.snd).sum := by
  induction entries generalizing f with
  | nil => simp [writeEntries]
  | cons e rest ih =>
    have hrest := ih (Function.update f e.1 e.2)
    have hhead := sum_update_le f e.1 e.2
    rw [List.map_cons, List.sum_cons]
    change ∑ j, writeEntries (Function.update f e.1 e.2) rest j ≤ _
    omega

omit [Fintype ι] in
/-- The first of some entries is written before the others. -/
theorem writeEntries_cons (f : ι → ℕ) (e : ι × ℕ) (entries : List (ι × ℕ)) :
    writeEntries f (e :: entries) = writeEntries (Function.update f e.1 e.2) entries := rfl

omit [Fintype ι] in
/-- What a cell holds after some entries only depends on what it held before if no entry is for
it. -/
theorem writeEntries_of_notMem (f : ι → ℕ) (entries : List (ι × ℕ)) {i : ι}
    (h : i ∉ entries.map Prod.fst) : writeEntries f entries i = f i := by
  induction entries generalizing f with
  | nil => rfl
  | cons e entries ih =>
    rw [List.map_cons, List.mem_cons, not_or] at h
    rw [writeEntries_cons, ih _ h.2, Function.update_of_ne h.1]

omit [Fintype ι] in
/-- What a cell with an entry holds does not depend on what it held before. -/
theorem writeEntries_of_mem (f g : ι → ℕ) (entries : List (ι × ℕ)) {i : ι}
    (h : i ∈ entries.map Prod.fst) : writeEntries f entries i = writeEntries g entries i := by
  induction entries generalizing f g with
  | nil => cases h
  | cons e entries ih =>
    rw [writeEntries_cons, writeEntries_cons]
    by_cases hrest : i ∈ entries.map Prod.fst
    · exact ih _ _ hrest
    · rw [List.map_cons, List.mem_cons] at h
      rw [writeEntries_of_notMem _ _ hrest, writeEntries_of_notMem _ _ hrest,
        h.resolve_right hrest, Function.update_self, Function.update_self]

/-- The total over the written cells is at most all listed values. -/
theorem sum_written_le (f : ι → ℕ) (entries : List (ι × ℕ)) :
    ∑ i ∈ (entries.map Prod.fst).toFinset, writeEntries f entries i ≤
      (entries.map Prod.snd).sum := by
  have hzero : ∑ i ∈ (entries.map Prod.fst).toFinset, writeEntries f entries i =
      ∑ i ∈ (entries.map Prod.fst).toFinset, writeEntries (fun _ => 0) entries i :=
    Finset.sum_congr rfl fun i hi => writeEntries_of_mem _ _ _ (List.mem_toFinset.mp hi)
  have hall := sum_writeEntries_le (fun _ : ι => 0) entries
  rw [Finset.sum_const_zero, Nat.zero_add] at hall
  rw [hzero]
  exact (Finset.sum_le_sum_of_subset (Finset.subset_univ _)).trans hall

/-- The total over the written cells is all listed values exactly when every entry that a later
one replaces is zero. -/
theorem sum_written_eq_iff (f : ι → ℕ) (entries : List (ι × ℕ)) :
    ∑ i ∈ (entries.map Prod.fst).toFinset, writeEntries f entries i =
        (entries.map Prod.snd).sum ↔
      entries.Pairwise fun e e' => e.1 = e'.1 → e.2 = 0 := by
  induction entries generalizing f with
  | nil => simp
  | cons e entries ih =>
    have hle := sum_written_le (Function.update f e.1 e.2) entries
    have hih := ih (Function.update f e.1 e.2)
    rw [List.pairwise_cons, ← hih, List.map_cons, List.map_cons, List.toFinset_cons,
      List.sum_cons, writeEntries_cons]
    by_cases hmem : e.1 ∈ entries.map Prod.fst
    · rw [Finset.insert_eq_of_mem (List.mem_toFinset.mpr hmem)]
      have hrepeated : (∀ e' ∈ entries, e.1 = e'.1 → e.2 = 0) ↔ e.2 = 0 := by
        refine ⟨fun h => ?_, fun h _ _ _ => h⟩
        obtain ⟨e', he', heq⟩ := List.mem_map.mp hmem
        exact h e' he' heq.symm
      rw [hrepeated]
      omega
    · have hnew : e.1 ∉ (entries.map Prod.fst).toFinset := fun h => hmem (List.mem_toFinset.mp h)
      have hfree : ∀ e' ∈ entries, e.1 = e'.1 → e.2 = 0 := fun e' he' heq =>
        absurd (List.mem_map.mpr ⟨e', he', heq.symm⟩) hmem
      rw [Finset.sum_insert hnew, writeEntries_of_notMem _ _ hmem, Function.update_self]
      rw [and_iff_right hfree]
      omega

end Ledger

section Quorum

variable {V : Type*} [Fintype V] [DecidableEq V]

/-- The threshold `⌊2W/3⌋ + 1` is strictly more than two thirds of `W`. -/
theorem two_thirds_lt_of_threshold_le {W s : ℕ} (h : W * 2 / 3 + 1 ≤ s) : 2 * W < 3 * s := by
  omega

/-- Quorum intersection: two sets of more than two thirds of the weight share more than one
third of it. -/
theorem quorum_inter_weight (w : V → ℕ) {W : ℕ} (hW : ∑ v, w v ≤ W) {S T : Finset V}
    (hS : 2 * W < 3 * ∑ v ∈ S, w v) (hT : 2 * W < 3 * ∑ v ∈ T, w v) :
    W < 3 * ∑ v ∈ S ∩ T, w v := by
  have hsplit : ∑ v ∈ S ∪ T, w v + ∑ v ∈ S ∩ T, w v = ∑ v ∈ S, w v + ∑ v ∈ T, w v :=
    Finset.sum_union_inter
  have hunion : ∑ v ∈ S ∪ T, w v ≤ W :=
    (Finset.sum_le_sum_of_subset (Finset.subset_univ _)).trans hW
  omega

end Quorum

end SuwappuRevm.Foundations
