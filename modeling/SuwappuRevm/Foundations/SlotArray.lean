import Mathlib.Data.List.Perm.Basic
import Mathlib.Logic.Function.Basic

/-!
# Arrays in numbered slots

An array of some length in the first slots of a numbered family: appending at the end, and
removing an entry by moving the last one into its place. The list of its entries says what such an
operation does, up to the order that the removal does not keep.
-/

namespace SuwappuRevm.Foundations

open scoped List

variable {α : Type*}

/-- The entries in the first slots. -/
def firstSlots (slot : ℕ → α) (n : ℕ) : List α := (List.range n).map slot

/-- As many entries as slots. -/
@[simp] theorem firstSlots_length (slot : ℕ → α) (n : ℕ) : (firstSlots slot n).length = n := by
  simp [firstSlots]

/-- An entry by its slot. -/
@[simp] theorem firstSlots_getElem (slot : ℕ → α) (n i : ℕ) (h : i < (firstSlots slot n).length) :
    (firstSlots slot n)[i] = slot i := by
  simp [firstSlots]

/-- One more slot is one more entry at the end. -/
theorem firstSlots_succ (slot : ℕ → α) (n : ℕ) :
    firstSlots slot (n + 1) = firstSlots slot n ++ [slot n] := by
  simp [firstSlots, List.range_succ]

/-- Slots that agree have the same entries. -/
theorem firstSlots_congr {slot slot' : ℕ → α} {n : ℕ} (h : ∀ i < n, slot' i = slot i) :
    firstSlots slot' n = firstSlots slot n :=
  List.map_congr_left fun i hi => h i (List.mem_range.mp hi)

/-- A write past the end changes no entry. -/
theorem firstSlots_update_of_le (slot : ℕ → α) {n i : ℕ} (h : n ≤ i) (a : α) :
    firstSlots (Function.update slot i a) n = firstSlots slot n :=
  firstSlots_congr fun j hj => Function.update_of_ne (by omega) ..

/-- Appending an entry. -/
theorem firstSlots_append (slot : ℕ → α) (n : ℕ) (a : α) :
    firstSlots (Function.update slot n a) (n + 1) = firstSlots slot n ++ [a] := by
  rw [firstSlots_succ, Function.update_self, firstSlots_update_of_le slot (Nat.le_refl _)]

/-- A write to a slot replaces its entry. -/
theorem firstSlots_update (slot : ℕ → α) (n i : ℕ) (a : α) :
    firstSlots (Function.update slot i a) n = (firstSlots slot n).set i a := by
  refine List.ext_getElem (by simp) fun j _ _ => ?_
  rw [firstSlots_getElem, List.getElem_set, firstSlots_getElem]
  by_cases hj : j = i
  · rw [hj, Function.update_self, if_pos rfl]
  · rw [Function.update_of_ne hj, if_neg (Ne.symm hj)]

/-- Remove the entry at an index by moving the entry in the last slot there, and clear the last
slot. -/
def swapPop (slot : ℕ → α) (last i : ℕ) (clear : α) : ℕ → α :=
  Function.update (if i < last then Function.update slot i (slot last) else slot) last clear

/-- The slots before the removed one stay. -/
theorem swapPop_of_lt (slot : ℕ → α) {last i j : ℕ} (clear : α) (hi : i ≤ last) (hj : j < i) :
    swapPop slot last i clear j = slot j := by
  rw [swapPop, Function.update_of_ne (by omega)]
  split
  · exact Function.update_of_ne (by omega) ..
  · rfl

/-- Removal keeps all other entries, in some order. -/
theorem swapPop_perm (slot : ℕ → α) {last i : ℕ} (clear : α) (hi : i ≤ last) :
    slot i :: firstSlots (swapPop slot last i clear) last ~ firstSlots slot (last + 1) := by
  rw [swapPop, firstSlots_update_of_le _ (Nat.le_refl _), firstSlots_succ]
  rcases Nat.lt_or_eq_of_le hi with hlt | rfl
  · rw [if_pos hlt, firstSlots_update]
    have hlength : i < (firstSlots slot last).length := by simpa using hlt
    have hset := List.set_perm_cons_eraseIdx hlength (slot last)
    have herase := List.getElem_cons_eraseIdx_perm hlength
    rw [firstSlots_getElem] at herase
    calc slot i :: (firstSlots slot last).set i (slot last)
        ~ slot i :: slot last :: (firstSlots slot last).eraseIdx i := hset.cons _
      _ ~ slot last :: slot i :: (firstSlots slot last).eraseIdx i := .swap ..
      _ ~ slot last :: firstSlots slot last := herase.cons _
      _ ~ firstSlots slot last ++ [slot last] := (List.perm_append_singleton _ _).symm
  · rw [if_neg (Nat.lt_irrefl _)]
    exact (List.perm_append_singleton _ _).symm

end SuwappuRevm.Foundations
