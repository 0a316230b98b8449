import SuwappuRevm.Foundations.Machine

/-!
# Two runs side by side

A computation follows another when it returns a related value whenever the other returns one.
Following is checked part by part along a sequence. The part of a state that only some calls move
has a run of its own. A run with calls inserted into it stays in a
counted relation to the run without them when kept calls keep the relation and every inserted call
adds one to its count.
-/

namespace SuwappuRevm.Foundations

universe u

variable {ε : Type*}

section Follows

variable {A B C D : Type u} {R : A → C → Prop} {S : B → D → Prop}

/-- Whenever the first computation returns a value the second returns a related one. -/
def Follows (R : A → C → Prop) (x : Except ε A) (y : Except ε C) : Prop :=
  ∀ a, x = .ok a → ∃ c, y = .ok c ∧ R a c

/-- Related values follow each other. -/
theorem follows_ok {a : A} {c : C} (h : R a c) :
    Follows R (.ok a : Except ε A) (.ok c) := by
  intro a' ha
  cases ha
  exact ⟨c, rfl, h⟩

/-- A computation that fails is followed by any other. -/
theorem follows_error (e : ε) (y : Except ε C) : Follows R (.error e) y :=
  fun _ ha => nomatch ha

/-- Following is kept by weakening the relation. -/
theorem Follows.mono {R' : A → C → Prop} {x : Except ε A} {y : Except ε C} (h : Follows R x y)
    (hle : ∀ a c, R a c → R' a c) : Follows R' x y := by
  intro a ha
  obtain ⟨c, hc, hrel⟩ := h a ha
  exact ⟨c, hc, hle a c hrel⟩

/-- A sequence follows a sequence part by part. -/
theorem Follows.bind {x : Except ε A} {y : Except ε C} {f : A → Except ε B} {g : C → Except ε D}
    (hxy : Follows R x y) (hfg : ∀ a c, R a c → Follows S (f a) (g c)) :
    Follows S (x >>= f) (y >>= g) := by
  intro b hb
  obtain ⟨a, ha, hrest⟩ := bind_eq_ok.mp hb
  obtain ⟨c, hc, hrel⟩ := hxy a ha
  obtain ⟨d, hd, hlast⟩ := hfg a c hrel b hrest
  exact ⟨d, bind_eq_ok.mpr ⟨c, hc, hd⟩, hlast⟩

/-- The same first part on both sides. -/
theorem follows_bind_same (x : Except ε A) {f : A → Except ε B} {g : A → Except ε D}
    (hfg : ∀ a, x = .ok a → Follows S (f a) (g a)) : Follows S (x >>= f) (x >>= g) := by
  intro b hb
  obtain ⟨a, ha, hrest⟩ := bind_eq_ok.mp hb
  obtain ⟨d, hd, hlast⟩ := hfg a ha b hrest
  exact ⟨d, bind_eq_ok.mpr ⟨a, ha, hd⟩, hlast⟩

/-- A guard that is no stricter on the second side. -/
theorem follows_failIf {B D : Type} {S : B → D → Prop} {c c' : Prop} [Decidable c] [Decidable c']
    {e e' : ε} {f : Unit → Except ε B} {g : Unit → Except ε D} (hc : ¬c → ¬c')
    (hfg : ¬c → Follows S (f ()) (g ())) :
    Follows S (failIf c e >>= f) (failIf c' e' >>= g) := by
  by_cases h : c
  · rw [failIf_of h, error_bind]
    exact follows_error e _
  · rw [failIf_of_not h, failIf_of_not (hc h), ok_bind, ok_bind]
    exact hfg h

/-- A branch on the same condition. -/
theorem follows_ite {c : Prop} [Decidable c] {x x' : Except ε A} {y y' : Except ε C}
    (hx : c → Follows R x y) (hx' : ¬c → Follows R x' y') :
    Follows R (if c then x else x') (if c then y else y') := by
  split
  next h => exact hx h
  next h => exact hx' h

end Follows

section Projection

variable {σ τ α β ε ε' : Type*}

/-- The part of a machine's state that only some of its calls move, as calls of a machine of its
own, ends up where those calls alone lead. -/
theorem foldl_project {step : σ → α → Except ε σ} {step' : τ → β → Except ε' τ} (view : σ → τ)
    (label : α → Option β)
    (hstep : ∀ s a, view (perform step s a) =
      (label a).elim (view s) fun b => perform step' (view s) b) (s : σ) (calls : List α) :
    view (calls.foldl (perform step) s) =
      (calls.filterMap label).foldl (perform step') (view s) := by
  induction calls generalizing s with
  | nil => rfl
  | cons a calls ih =>
    rw [List.foldl_cons, ih, hstep]
    cases hlabel : label a with
    | none => rw [List.filterMap_cons_none hlabel, Option.elim_none]
    | some b => rw [List.filterMap_cons_some hlabel, Option.elim_some, List.foldl_cons]

/-- So it is at every position of a run where the run of those calls is. -/
theorem stateAt_project {step : σ → α → Except ε σ} {step' : τ → β → Except ε' τ} (view : σ → τ)
    (label : α → Option β)
    (hstep : ∀ s a, view (perform step s a) =
      (label a).elim (view s) fun b => perform step' (view s) b) (init : σ) (calls : List α)
    (n : ℕ) :
    view (stateAt step init calls n) =
      stateAt step' (view init) (calls.filterMap label)
        ((calls.take n).filterMap label).length := by
  have htake : (calls.filterMap label).take ((calls.take n).filterMap label).length =
      (calls.take n).filterMap label := by
    have hsplit : calls.filterMap label =
        (calls.take n).filterMap label ++ (calls.drop n).filterMap label := by
      rw [← List.filterMap_append, List.take_append_drop]
    rw [hsplit, List.take_append_of_le_length (Nat.le_refl _), List.take_length]
  rw [stateAt, stateAt, htake, foldl_project view label hstep]

end Projection

section Runs

variable {σ α ε : Type*} {step : σ → α → Except ε σ} {guard : σ → α → σ → Prop}
  {attempt : σ → α → Prop}

/-- A run in which the calls that succeed meet the guard; those that fail are attempts that a
further condition allows, and change nothing. -/
inductive Runs (step : σ → α → Except ε σ) (guard : σ → α → σ → Prop) (attempt : σ → α → Prop) :
    σ → List α → σ → Prop
  | nil (s : σ) : Runs step guard attempt s [] s
  | call {s s' s'' : σ} {a : α} {calls : List α} (hstep : step s a = .ok s')
      (hguard : guard s a s') (hrest : Runs step guard attempt s' calls s'') :
      Runs step guard attempt s (a :: calls) s''
  | revert {s s' : σ} {a : α} {e : ε} {calls : List α} (hstep : step s a = .error e)
      (hattempt : attempt s a) (hrest : Runs step guard attempt s calls s') :
      Runs step guard attempt s (a :: calls) s'

/-- The second list is the first with some further calls of a kind inserted. -/
inductive Inserted (extra : α → Prop) : ℕ → List α → List α → Prop
  | nil : Inserted extra 0 [] []
  | keep {n : ℕ} {calls calls' : List α} (a : α) (h : Inserted extra n calls calls') :
      Inserted extra n (a :: calls) (a :: calls')
  | insert {n : ℕ} {calls calls' : List α} {a : α} (ha : extra a)
      (h : Inserted extra n calls calls') : Inserted extra (n + 1) calls (a :: calls')

/-- Run rule for insertions: kept calls succeed or fail on both sides and keep a counted relation,
inserted ones add to its count. -/
theorem Runs.insert {R : ℕ → σ → σ → Prop} {allowed extra : α → Prop}
    (hkeep : ∀ k s t a s', R k s t → allowed a → step s a = .ok s' → guard s a s' →
      ∃ t', step t a = .ok t' ∧ guard t a t' ∧ R k s' t')
    (hfail : ∀ k s t a e, R k s t → allowed a → step s a = .error e → attempt s a →
      (∃ e', step t a = .error e') ∧ attempt t a)
    (hinsert : ∀ k s t a, R k s t → extra a →
      (∃ t', step t a = .ok t' ∧ guard t a t' ∧ R (k + 1) s t') ∨
        (∃ e, step t a = .error e) ∧ attempt t a ∧ R (k + 1) s t)
    {n k : ℕ} {calls calls' : List α} (h : Inserted extra n calls calls')
    (hallowed : ∀ a ∈ calls, allowed a) {s s' t : σ} (hrun : Runs step guard attempt s calls s')
    (hrel : R k s t) : ∃ t', Runs step guard attempt t calls' t' ∧ R (k + n) s' t' := by
  induction h generalizing k s t with
  | nil =>
    cases hrun
    exact ⟨t, .nil t, hrel⟩
  | keep a h ih =>
    obtain ⟨ha, hrest⟩ := List.forall_mem_cons.mp hallowed
    cases hrun with
    | call hstep hguard hrun =>
      obtain ⟨t₁, hstep', hguard', hrel'⟩ := hkeep _ _ _ _ _ hrel ha hstep hguard
      obtain ⟨t', hruns, hlast⟩ := ih hrest hrun hrel'
      exact ⟨t', .call hstep' hguard' hruns, hlast⟩
    | revert hstep hattempt hrun =>
      obtain ⟨⟨e', hstep'⟩, hattempt'⟩ := hfail _ _ _ _ _ hrel ha hstep hattempt
      obtain ⟨t', hruns, hlast⟩ := ih hrest hrun hrel
      exact ⟨t', .revert hstep' hattempt' hruns, hlast⟩
  | @insert n calls calls' a ha h ih =>
    have hcount : k + 1 + n = k + (n + 1) := by omega
    rcases hinsert _ _ _ _ hrel ha with ⟨t₁, hstep, hguard, hrel'⟩ | ⟨⟨e, hstep⟩, hattempt, hrel'⟩
    · obtain ⟨t', hruns, hlast⟩ := ih hallowed hrun hrel'
      exact ⟨t', .call hstep hguard hruns, hcount ▸ hlast⟩
    · obtain ⟨t', hruns, hlast⟩ := ih hallowed hrun hrel'
      exact ⟨t', .revert hstep hattempt hruns, hcount ▸ hlast⟩

end Runs

end SuwappuRevm.Foundations
