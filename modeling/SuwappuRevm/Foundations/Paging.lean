import Mathlib.Data.List.Basic

/-!
# Paginated enumerations

A getter that answers in pages names the key of the next page and says whether it is done. Calling
it until it is done collects a list; what is left to enumerate at each key says which one.
-/

namespace SuwappuRevm.Foundations

variable {κ α ε : Type*}

/-- One page: whether it is the last one, the key of the next one, and its entries. -/
structure Page (κ α : Type*) where
  isDone : Bool
  next : κ
  entries : List α

/-- The entries of all pages from a key on, in at most so many calls. -/
def collect (page : κ → Except ε (Page κ α)) : ℕ → κ → Option (List α)
  | 0, _ => none
  | n + 1, key =>
    match page key with
    | .error _ => none
    | .ok p => if p.isDone then some p.entries else (collect page n p.next).map (p.entries ++ ·)

/-- Paging rule: if every page is a first part of what is left at its key, empty only at the end,
then the pages together are what is left. -/
theorem collect_of_left {page : κ → Except ε (Page κ α)} (left : κ → List α → Prop)
    (hpage : ∀ key l, left key l → ∃ p rest, page key = .ok p ∧ l = p.entries ++ rest ∧
      (p.isDone = true → rest = []) ∧ (p.isDone = false → p.entries ≠ [] ∧ left p.next rest))
    {key : κ} {l : List α} (h : left key l) : collect page (l.length + 1) key = some l := by
  have hmore (n : ℕ) : ∀ key l, l.length < n → left key l → collect page n key = some l := by
    induction n with
    | zero => exact fun _ _ hlt => absurd hlt (Nat.not_lt_zero _)
    | succ n ih =>
      intro key l hlt h
      obtain ⟨p, rest, hp, rfl, hdone, hnext⟩ := hpage key l h
      rw [collect, hp]
      dsimp only
      by_cases hd : p.isDone = true
      · rw [if_pos hd, hdone hd, List.append_nil]
      · obtain ⟨hne, hleft⟩ := hnext (Bool.eq_false_iff.mpr hd)
        have hpos : 0 < p.entries.length := List.length_pos_iff.mpr hne
        rw [List.length_append] at hlt
        rw [if_neg hd, ih p.next rest (by omega) hleft, Option.map_some]
  exact hmore _ key l (Nat.lt_succ_self _) h

end SuwappuRevm.Foundations
