import Mathlib.Data.List.Basic

/-!
# Transactional state machines

A machine takes calls that either succeed with a new state or fail. A failed call is rolled
back, so a run is a left fold in which failures leave the state unchanged. Safety results are
proved once per successful call and lifted here to every reachable state and to every position
of a run.
-/

namespace SuwappuRevm.Foundations

universe u

variable {σ α ε : Type*}

/-- Peel the first computation off a successful bind, the shape of every handler proof. -/
theorem bind_eq_ok {A B : Type u} {x : Except ε A} {f : A → Except ε B} {b : B} :
    (x >>= f) = .ok b ↔ ∃ a, x = .ok a ∧ f a = .ok b := by
  cases x with
  | error e =>
    constructor
    · intro h
      cases h
    · rintro ⟨a, h, -⟩
      cases h
  | ok a =>
    constructor
    · intro h
      exact ⟨a, rfl, h⟩
    · rintro ⟨a', h, hf⟩
      cases h
      exact hf

/-- Fail with `e` when the condition holds: a guard of the source that returns early. -/
def failIf (c : Prop) [Decidable c] (e : ε) : Except ε Unit := if c then .error e else .ok ()

/-- A guard lets the rest run exactly when its condition is false. -/
theorem failIf_eq_ok {c : Prop} [Decidable c] {e : ε} {u : Unit} : failIf c e = .ok u ↔ ¬c := by
  unfold failIf
  split <;> simp_all

/-- A guard whose condition is false does nothing. -/
theorem failIf_of_not {c : Prop} [Decidable c] {e : ε} (h : ¬c) : failIf c e = .ok () := if_neg h

/-- A guard whose condition holds fails. -/
theorem failIf_of {c : Prop} [Decidable c] {e : ε} (h : c) : failIf c e = .error e := if_pos h

/-- A value runs the rest. -/
theorem ok_bind {A B : Type u} (a : A) (f : A → Except ε B) :
    ((Except.ok a : Except ε A) >>= f) = f a := rfl

/-- An error skips the rest. -/
theorem error_bind {A B : Type u} (e : ε) (f : A → Except ε B) :
    ((Except.error e : Except ε A) >>= f) = .error e := rfl

/-- A pure computation returns its value. -/
theorem pure_eq_ok {A : Type u} {a b : A} : (pure a : Except ε A) = .ok b ↔ a = b := by
  constructor
  · intro h
    cases h
    rfl
  · rintro rfl
    rfl

/-- Mapping over a computation succeeds exactly when the computation does. -/
theorem map_eq_ok {A B : Type u} {x : Except ε A} {f : A → B} {b : B} :
    x.map f = .ok b ↔ ∃ a, x = .ok a ∧ f a = b := by
  cases x <;> simp [Except.map]

/-- A computation that succeeds has a value. -/
theorem exists_of_isOk {A : Type u} {x : Except ε A} (h : x.isOk = true) : ∃ a, x = .ok a := by
  cases x with
  | error e => cases h
  | ok a => exact ⟨a, rfl⟩

/-- Mapping the error does not change what succeeds. -/
theorem mapError_eq_ok {ε' : Type*} {A : Type u} {x : Except ε A} {f : ε → ε'} {a : A} :
    x.mapError f = .ok a ↔ x = .ok a := by
  cases x <;> simp [Except.mapError]

/-- Whatever the computation returns satisfies `P`. -/
def Always {A : Type u} (P : A → Prop) (x : Except ε A) : Prop := ∀ a, x = .ok a → P a

/-- A value is all that returning it can give. -/
theorem always_ok {A : Type u} {P : A → Prop} {a : A} (h : P a) :
    Always P (.ok a : Except ε A) := by
  intro b hb
  cases hb
  exact h

/-- What a sequence returns is returned by its last part. -/
theorem always_bind {A B : Type u} {P : B → Prop} {x : Except ε A} {f : A → Except ε B}
    (h : ∀ a, Always P (f a)) : Always P (x >>= f) := by
  intro b hb
  obtain ⟨a, -, hf⟩ := bind_eq_ok.mp hb
  exact h a b hf

/-- A sequence whose first part returns what satisfies `Q`. -/
theorem Always.bind {A B : Type u} {Q : A → Prop} {P : B → Prop} {x : Except ε A}
    {f : A → Except ε B} (hx : Always Q x) (hf : ∀ a, Q a → Always P (f a)) :
    Always P (x >>= f) := by
  intro b hb
  obtain ⟨a, ha, hrest⟩ := bind_eq_ok.mp hb
  exact hf a (hx a ha) b hrest

/-- What a branch returns is returned by one of its sides. -/
theorem always_ite {A : Type u} {P : A → Prop} {c : Prop} [Decidable c] {x y : Except ε A}
    (hx : Always P x) (hy : Always P y) : Always P (if c then x else y) := by
  split
  · exact hx
  · exact hy

/-- Apply one call; a failed call leaves the state unchanged. -/
def perform (step : σ → α → Except ε σ) (s : σ) (a : α) : σ :=
  match step s a with
  | .ok s' => s'
  | .error _ => s

/-- A successful call moves to its result. -/
theorem perform_of_ok {step : σ → α → Except ε σ} {s s' : σ} {a : α} (h : step s a = .ok s') :
    perform step s a = s' := by
  rw [perform, h]

/-- A failed call does not move. -/
theorem perform_of_error {step : σ → α → Except ε σ} {s : σ} {a : α} {e : ε}
    (h : step s a = .error e) : perform step s a = s := by
  rw [perform, h]

/-- The outcome of one call, split into its two cases. -/
theorem perform_cases (step : σ → α → Except ε σ) (s : σ) (a : α) :
    step s a = .ok (perform step s a) ∨ perform step s a = s := by
  rcases h : step s a with e | s'
  · exact Or.inr (perform_of_error h)
  · exact Or.inl (by rw [perform_of_ok h])

/-- The state after the first `n` calls of a run. -/
def stateAt (step : σ → α → Except ε σ) (init : σ) (calls : List α) (n : ℕ) : σ :=
  (calls.take n).foldl (perform step) init

/-- Before any call the run is in its initial state. -/
@[simp] theorem stateAt_zero (step : σ → α → Except ε σ) (init : σ) (calls : List α) :
    stateAt step init calls 0 = init := by
  simp [stateAt]

/-- Every position of a run is reached from its predecessor by one call. -/
theorem stateAt_succ (step : σ → α → Except ε σ) (init : σ) (calls : List α) (n : ℕ)
    (hn : n < calls.length) :
    stateAt step init calls (n + 1) = perform step (stateAt step init calls n) calls[n] := by
  rw [stateAt, stateAt, List.take_add_one, List.getElem?_eq_getElem hn, Option.toList_some,
    List.foldl_append, List.foldl_cons, List.foldl_nil]

/-- Past its last call a run stays where it is. -/
theorem stateAt_of_length_le (step : σ → α → Except ε σ) (init : σ) (calls : List α) (n : ℕ)
    (hn : calls.length ≤ n) :
    stateAt step init calls n = stateAt step init calls calls.length := by
  rw [stateAt, stateAt, List.take_of_length_le hn, List.take_length]

/-- Run rule: what every successful call of the run preserves holds at all later positions. -/
theorem stateAt_induction {step : σ → α → Except ε σ} {init : σ} {calls : List α}
    (motive : σ → Prop) (m : ℕ) (hm : motive (stateAt step init calls m))
    (hstep : ∀ n (hn : n < calls.length) s', m ≤ n → motive (stateAt step init calls n) →
      step (stateAt step init calls n) calls[n] = .ok s' → motive s')
    (n : ℕ) (hmn : m ≤ n) : motive (stateAt step init calls n) := by
  induction hmn with
  | refl => exact hm
  | @step n hmn ih =>
    change motive (stateAt step init calls (n + 1))
    have hmn : m ≤ n := hmn
    by_cases hn : n < calls.length
    · rw [stateAt_succ step init calls n hn]
      rcases perform_cases step (stateAt step init calls n) calls[n] with h | h
      · exact hstep n hn _ hmn ih h
      · rwa [h]
    · rw [stateAt_of_length_le step init calls (n + 1) (by omega)]
      rwa [stateAt_of_length_le step init calls n (by omega)] at ih

/-- States reachable by successful calls that meet `guard`, which sees the state before the
call, the call and the state after it. Failed calls do not move and need no constructor. -/
inductive Reachable (step : σ → α → Except ε σ) (guard : σ → α → σ → Prop) (init : σ) : σ → Prop
  | start : Reachable step guard init init
  | call {s s' : σ} (a : α) : Reachable step guard init s → step s a = .ok s' → guard s a s' →
      Reachable step guard init s'

/-- Invariant rule: an inductive property holds in every reachable state. -/
theorem Reachable.invariant {step : σ → α → Except ε σ} {guard : σ → α → σ → Prop} {init : σ}
    (motive : σ → Prop) (hinit : motive init)
    (hstep : ∀ s a s', motive s → step s a = .ok s' → guard s a s' → motive s')
    {s : σ} (h : Reachable step guard init s) : motive s := by
  induction h with
  | start => exact hinit
  | call a _ hs hg ih => exact hstep _ a _ ih hs hg

/-- A weaker guard reaches at least as many states. -/
theorem Reachable.mono {step : σ → α → Except ε σ} {guard guard' : σ → α → σ → Prop} {init s : σ}
    (hle : ∀ s a s', guard s a s' → guard' s a s') (h : Reachable step guard init s) :
    Reachable step guard' init s := by
  induction h with
  | start => exact .start
  | call a _ hs hg ih => exact .call a ih hs (hle _ _ _ hg)

/-- A run goes on from where another has ended. -/
theorem Reachable.trans {step : σ → α → Except ε σ} {guard : σ → α → σ → Prop} {init s s' : σ}
    (h : Reachable step guard init s) (h' : Reachable step guard s s') :
    Reachable step guard init s' := by
  induction h' with
  | start => exact h
  | call a _ hs hg ih => exact .call a ih hs hg

/-- Run calls that must all succeed and meet a check. -/
def runAll (step : σ → α → Except ε σ) (check : σ → α → σ → Bool) : σ → List α → Option σ
  | s, [] => some s
  | s, a :: calls =>
    match step s a with
    | .ok s' => if check s a s' then runAll step check s' calls else none
    | .error _ => none

/-- A run continues where its first part has ended. -/
theorem runAll_append (step : σ → α → Except ε σ) (check : σ → α → σ → Bool) (s : σ)
    (calls calls' : List α) : runAll step check s (calls ++ calls') =
      (runAll step check s calls).bind fun s' => runAll step check s' calls' := by
  induction calls generalizing s with
  | nil => rfl
  | cons a calls ih =>
    simp only [List.cons_append, runAll]
    split
    · split
      · exact ih _
      · rfl
    · rfl

/-- A run of one call makes that call. -/
theorem runAll_single {step : σ → α → Except ε σ} {check : σ → α → σ → Bool} {s s' : σ} {a : α}
    (h : runAll step check s [a] = some s') : step s a = .ok s' ∧ check s a s' = true := by
  simp only [runAll] at h
  split at h
  next s₁ hstep =>
    split at h
    next hcheck =>
      cases h
      exact ⟨hstep, hcheck⟩
    next => cases h
  next => cases h

/-- A run of two calls makes the one and then the other. -/
theorem runAll_pair {step : σ → α → Except ε σ} {check : σ → α → σ → Bool} {s s'' : σ} {a a' : α}
    (h : runAll step check s [a, a'] = some s'') : ∃ s', runAll step check s [a] = some s' ∧
      step s a = .ok s' ∧ step s' a' = .ok s'' := by
  have happend := runAll_append step check s [a] [a']
  rw [List.singleton_append, h] at happend
  obtain ⟨s', hfirst, hsecond⟩ := Option.bind_eq_some_iff.mp happend.symm
  exact ⟨s', hfirst, (runAll_single hfirst).1, (runAll_single hsecond).1⟩

/-- A run that passes a stronger check passes a weaker one, with the same result. -/
theorem runAll_mono {step : σ → α → Except ε σ} {check check' : σ → α → σ → Bool}
    (hle : ∀ s a s', check s a s' = true → check' s a s' = true) {s s' : σ} {calls : List α}
    (h : runAll step check s calls = some s') : runAll step check' s calls = some s' := by
  induction calls generalizing s with
  | nil => exact h
  | cons a calls ih =>
    rw [runAll] at h ⊢
    split at h
    next s₁ hstep =>
      split at h
      next hcheck =>
        rw [if_pos (hle s a s₁ hcheck)]
        exact ih h
      next => cases h
    next => cases h

/-- A checked run reaches its last state. -/
theorem reachable_of_runAll {step : σ → α → Except ε σ} {check : σ → α → σ → Bool}
    {guard : σ → α → σ → Prop} (hguard : ∀ s a s', check s a s' = true → guard s a s')
    {init s s' : σ} {calls : List α} (hs : Reachable step guard init s)
    (h : runAll step check s calls = some s') : Reachable step guard init s' := by
  induction calls generalizing s with
  | nil =>
    cases h
    exact hs
  | cons a calls ih =>
    rw [runAll] at h
    split at h
    next s₁ hstep =>
      split at h
      next hcheck => exact ih (.call a hs hstep (hguard s a s₁ hcheck)) h
      next => cases h
    next => cases h

/-- Every position of an unguarded run is reachable. -/
theorem stateAt_reachable (step : σ → α → Except ε σ) (init : σ) (calls : List α) (n : ℕ) :
    Reachable step (fun _ _ _ => True) init (stateAt step init calls n) :=
  stateAt_induction _ 0 (by rw [stateAt_zero]; exact .start)
    (fun _ _ _ _ ih h => .call _ ih h trivial) n (Nat.zero_le n)

/-- At some earlier moment of a run it was switched on, and it has not been switched off since. -/
def OnSince (on off : ℕ → Prop) (n : ℕ) : Prop :=
  ∃ k, k < n ∧ on k ∧ ∀ m, m < n → k < m → ¬off m

/-- Whether it is on can be looked up in the run. -/
instance {on off : ℕ → Prop} [DecidablePred on] [DecidablePred off] :
    DecidablePred (OnSince on off) := fun n =>
  inferInstanceAs (Decidable (∃ k, k < n ∧ on k ∧ ∀ m, m < n → k < m → ¬off m))

/-- Nothing is on before the first call. -/
theorem not_onSince_zero {on off : ℕ → Prop} : ¬OnSince on off 0 := by
  rintro ⟨k, hk, -⟩
  exact Nat.not_lt_zero k hk

/-- It is on after a call that switches it on, and after any other that does not switch it off. -/
theorem onSince_succ {on off : ℕ → Prop} {n : ℕ} :
    OnSince on off (n + 1) ↔ on n ∨ OnSince on off n ∧ ¬off n := by
  constructor
  · rintro ⟨k, hk, hon, hkept⟩
    rcases Nat.lt_succ_iff_lt_or_eq.mp hk with hlt | rfl
    · exact .inr ⟨⟨k, hlt, hon, fun m hm => hkept m (Nat.lt_trans hm (Nat.lt_succ_self n))⟩,
        hkept n (Nat.lt_succ_self n) hlt⟩
    · exact .inl hon
  · rintro (hon | ⟨⟨k, hk, hon, hkept⟩, hoff⟩)
    · exact ⟨n, Nat.lt_succ_self n, hon, fun m hm hnm => by omega⟩
    · refine ⟨k, Nat.lt_trans hk (Nat.lt_succ_self n), hon, fun m hm hkm => ?_⟩
      rcases Nat.lt_succ_iff_lt_or_eq.mp hm with hlt | rfl
      · exact hkept m hlt hkm
      · exact hoff

/-- It stays on as long as nothing switches it off. -/
theorem OnSince.stands {on off : ℕ → Prop} {k n : ℕ} (h : OnSince on off k) (hkn : k ≤ n)
    (hkept : ∀ m, k ≤ m → m < n → ¬off m) : OnSince on off n := by
  obtain ⟨j, hj, hon, hbefore⟩ := h
  refine ⟨j, Nat.lt_of_lt_of_le hj hkn, hon, fun m hm hjm => ?_⟩
  by_cases hmk : m < k
  · exact hbefore m hmk hjm
  · exact hkept m (Nat.le_of_not_lt hmk) hm

end SuwappuRevm.Foundations
