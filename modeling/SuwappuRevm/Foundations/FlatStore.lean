import Mathlib.Logic.Function.Basic
import Mathlib.Data.List.Basic
import Mathlib.Data.Nat.Notation

/-!
# Cells in a flat store

A flat store is one function from keys to words. When every cell has a key of its own, what the
store holds at the keys of the cells is a function of the cells, and a write to the key of a cell
is a write to that cell. A list of writes leads to an expected content exactly when it writes what
the content has there and the rest is as before.
-/

namespace SuwappuRevm.Foundations

variable {ι κ W : Type*} [DecidableEq ι] [DecidableEq κ]

/-- Write entries in order. -/
def storeAll (store : ι → W) (entries : List (ι × W)) : ι → W :=
  entries.foldl (fun store entry => Function.update store entry.1 entry.2) store

/-- The first of some entries is written before the others. -/
theorem storeAll_cons (store : ι → W) (entry : ι × W) (entries : List (ι × W)) :
    storeAll store (entry :: entries) =
      storeAll (Function.update store entry.1 entry.2) entries := rfl

/-- Entries that hold what a content has at their cells lead to it from any store that holds the
rest of it. -/
theorem storeAll_eq {store content : ι → W} {entries : List (ι × W)}
    (hwritten : ∀ entry ∈ entries, content entry.1 = entry.2)
    (hkept : ∀ i ∉ entries.map Prod.fst, content i = store i) :
    storeAll store entries = content := by
  induction entries generalizing store with
  | nil =>
    funext i
    exact (hkept i List.not_mem_nil).symm
  | cons entry entries ih =>
    rw [List.forall_mem_cons] at hwritten
    rw [storeAll_cons]
    apply ih hwritten.2
    intro i hi
    by_cases hcell : i = entry.1
    · rw [hcell, Function.update_self]
      exact hwritten.1
    · rw [Function.update_of_ne hcell]
      apply hkept
      rw [List.map_cons, List.mem_cons, not_or]
      exact ⟨hcell, hi⟩

section Records

variable {n : ℕ} {cell : Fin n → ι} {old new : Fin n → W} {store content : ι → W}

/-- Entries for the cells of one record lead to a content that differs from the store in that
record only. -/
theorem storeAll_record {entries : List (ι × W)} (hold : ∀ k, store (cell k) = old k)
    (hnew : ∀ k, content (cell k) = new k) (hoff : ∀ i, (∀ k, i ≠ cell k) → content i = store i)
    (hwritten : ∀ entry ∈ entries, ∃ k, entry = (cell k, new k))
    (hkept : ∀ k, cell k ∉ entries.map Prod.fst → new k = old k) :
    storeAll store entries = content := by
  apply storeAll_eq
  · intro entry hentry
    obtain ⟨k, rfl⟩ := hwritten entry hentry
    exact hnew k
  · intro i hi
    by_cases hcell : ∃ k, i = cell k
    · obtain ⟨k, rfl⟩ := hcell
      rw [hnew, hold, hkept k hi]
    · exact hoff i (not_exists.mp hcell)

/-- One entry for one cell of a record. -/
theorem storeAll_field (k₀ : Fin n) (hold : ∀ k, store (cell k) = old k)
    (hnew : ∀ k, content (cell k) = new k) (hoff : ∀ i, (∀ k, i ≠ cell k) → content i = store i)
    (hkept : ∀ k ≠ k₀, new k = old k) : storeAll store [(cell k₀, new k₀)] = content := by
  apply storeAll_record hold hnew hoff
  · intro entry hentry
    exact ⟨k₀, List.mem_singleton.mp hentry⟩
  · intro k hk
    apply hkept
    rintro rfl
    exact hk (List.mem_singleton_self _)

end Records

/-- Writing at the keys of cells that have keys of their own writes those cells. -/
theorem storeAll_comp {key : ι → κ} (hkey : Function.Injective key) (store : κ → W)
    (entries : List (ι × W)) :
    storeAll store (entries.map (Prod.map key id)) ∘ key = storeAll (store ∘ key) entries := by
  induction entries generalizing store with
  | nil => rfl
  | cons entry entries ih =>
    rw [List.map_cons, storeAll_cons, storeAll_cons, ih]
    congr 1
    exact Function.update_comp_eq_of_injective store hkey entry.1 entry.2

end SuwappuRevm.Foundations
