import Mathlib.Data.List.Induction

/-!
# Stateful computations and their traces

Rules for a computation over a state that may stop with an error, and traces of what it does to the
state: it serves requests in order, and between them it makes moves that keep what matters.
-/

namespace SuwappuRevm.Foundations

universe u

variable {ε σ α β : Type u}

/-- A sequence returns when both parts do. -/
theorem stateBind_eq_ok {m : EStateM ε σ α} {f : α → EStateM ε σ β} {s s' : σ} {b : β} :
    (m >>= f) s = .ok b s' ↔ ∃ a s₁, m s = .ok a s₁ ∧ f a s₁ = .ok b s' := by
  have hbind : (m >>= f) s = EStateM.bind m f s := rfl
  rw [hbind, EStateM.bind]
  cases hrun : m s with
  | ok a s₁ =>
    constructor
    · intro h
      exact ⟨a, s₁, rfl, h⟩
    · rintro ⟨a', s₂, hok, h⟩
      cases hok
      exact h
  | error e s₁ => simp

/-- A sequence stops in its first part or, after that returned, in its second. -/
theorem stateBind_eq_error {m : EStateM ε σ α} {f : α → EStateM ε σ β} {s s' : σ} {e : ε} :
    (m >>= f) s = .error e s' ↔
      m s = .error e s' ∨ ∃ a s₁, m s = .ok a s₁ ∧ f a s₁ = .error e s' := by
  have hbind : (m >>= f) s = EStateM.bind m f s := rfl
  rw [hbind, EStateM.bind]
  cases hrun : m s with
  | ok a s₁ =>
    constructor
    · intro h
      exact .inr ⟨a, s₁, rfl, h⟩
    · rintro (hstop | ⟨a', s₂, hok, h⟩)
      · cases hstop
      · cases hok
        exact h
  | error e s₁ => simp

/-- A loop that stops served a first part of the list and stopped at the next element. -/
theorem forM_eq_error {l : List α} {f : α → EStateM ε σ PUnit} {s s' : σ} {e : ε}
    (h : l.forM f s = .error e s') : ∃ served a rest s₁, l = served ++ a :: rest ∧
      served.forM f s = .ok ⟨⟩ s₁ ∧ f a s₁ = .error e s' := by
  induction l generalizing s with
  | nil => cases h
  | cons a l ih =>
    rcases stateBind_eq_error.mp h with hfirst | ⟨_, s₁, hfirst, hrest⟩
    · exact ⟨[], a, l, s, rfl, rfl, hfirst⟩
    · obtain ⟨served, b, rest, s₂, rfl, hserved, hstop⟩ := ih hrest
      exact ⟨a :: served, b, rest, s₂, rfl, stateBind_eq_ok.mpr ⟨⟨⟩, s₁, hfirst, hserved⟩, hstop⟩

/-- What each element keeps, of the elements done and the state they have led to, holds after the
whole list. -/
theorem forM_invariant {l : List α} {f : α → EStateM ε σ PUnit} {motive : List α → σ → Prop}
    {s s' : σ} (hstart : motive [] s)
    (hstep : ∀ done a rest s₁ s₂, l = done ++ a :: rest → done.forM f s = .ok ⟨⟩ s₁ →
      motive done s₁ → f a s₁ = .ok ⟨⟩ s₂ → motive (done ++ [a]) s₂)
    (h : l.forM f s = .ok ⟨⟩ s') : motive l s' := by
  induction l using List.reverseRecOn generalizing s' with
  | nil =>
    cases h
    exact hstart
  | append_singleton l a ih =>
    rw [List.forM_eq_forM, List.forM_append] at h
    obtain ⟨_, s₁, hdone, hlast⟩ := stateBind_eq_ok.mp h
    obtain ⟨_, s₂, hlast, hend⟩ := stateBind_eq_ok.mp hlast
    cases hend
    refine hstep l a [] s₁ s' rfl hdone (ih ?_ hdone) hlast
    intro done b rest t₁ t₂ hsplit
    exact hstep done b (rest ++ [a]) t₁ t₂ (by simp [hsplit])

section Traces

variable {ρ : Type*}

/-- From one state to another by serving the requests in order, with idle moves before, between and
after them. -/
inductive Trace (idle : σ → σ → Prop) (serve : ρ → σ → σ → Prop) : List ρ → σ → σ → Prop
  | idle {s s' : σ} (h : idle s s') : Trace idle serve [] s s'
  | serve {r : ρ} {rs : List ρ} {s s₁ s₂ s' : σ} (hidle : idle s s₁) (hserve : serve r s₁ s₂)
      (hrest : Trace idle serve rs s₂ s') : Trace idle serve (r :: rs) s s'

variable {idle : σ → σ → Prop} {serve : ρ → σ → σ → Prop}

/-- A trace can start with another idle move. -/
theorem Trace.of_idle (htrans : ∀ s s₁ s₂, idle s s₁ → idle s₁ s₂ → idle s s₂) {rs : List ρ}
    {s s₁ s' : σ} (hidle : idle s s₁) (h : Trace idle serve rs s₁ s') :
    Trace idle serve rs s s' := by
  cases h with
  | idle h => exact .idle (htrans _ _ _ hidle h)
  | serve hfirst hserve hrest => exact .serve (htrans _ _ _ hidle hfirst) hserve hrest

/-- Traces follow each other. -/
theorem Trace.append (htrans : ∀ s s₁ s₂, idle s s₁ → idle s₁ s₂ → idle s s₂)
    {rs rs' : List ρ} {s s₁ s' : σ} (h : Trace idle serve rs s s₁)
    (h' : Trace idle serve rs' s₁ s') : Trace idle serve (rs ++ rs') s s' := by
  induction h with
  | idle h => exact h'.of_idle htrans h
  | serve hidle hserve _ ih => exact .serve hidle hserve (ih h')

/-- What idle moves and served requests keep holds along a trace. -/
theorem Trace.invariant {motive : σ → Prop} (hidle : ∀ s s', motive s → idle s s' → motive s')
    (hserve : ∀ r s s', motive s → serve r s s' → motive s') {rs : List ρ} {s s' : σ}
    (h : Trace idle serve rs s s') (hs : motive s) : motive s' := by
  induction h with
  | idle h => exact hidle _ _ hs h
  | serve hfirst hone _ ih => exact ih (hserve _ _ _ (hidle _ _ hs hfirst) hone)

end Traces

end SuwappuRevm.Foundations
