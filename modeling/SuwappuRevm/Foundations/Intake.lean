import Mathlib.Data.List.Induction
import Mathlib.Data.Nat.Notation

/-!
# Machines that accept or refuse what they are given

An intake takes every input it is given, in order. It accepts some of them and moves to a next
state either way, so a refused input may still change parts of the state that nobody looks at.
Results about one input become results about whole sequences here: what no input of a sequence
changes is unchanged after it, a cyclic counter of the accepted inputs holds their number, and
inputs that must name the current value of a counter they then move on are accepted at most once.
-/

namespace SuwappuRevm.Foundations

variable {σ ι κ β : Type*}

/-- What a machine accepts in a state, and the state it moves to. -/
structure Intake (σ ι : Type*) where
  accepts : σ → ι → Prop
  next : σ → ι → σ

namespace Intake

variable (m : Intake σ ι)

/-- The state after a sequence of inputs. -/
def after (s : σ) (inputs : List ι) : σ := inputs.foldl m.next s

/-- No input leaves the machine where it is. -/
@[simp] theorem after_nil (s : σ) : m.after s [] = s := rfl

/-- The first input is taken before the others. -/
@[simp] theorem after_cons (s : σ) (i : ι) (inputs : List ι) :
    m.after s (i :: inputs) = m.after (m.next s i) inputs := rfl

/-- One sequence after another. -/
theorem after_append (s : σ) (inputs later : List ι) :
    m.after s (inputs ++ later) = m.after (m.after s inputs) later := by
  simp only [after, List.foldl_append]

/-- The last input is taken after the others. -/
theorem after_concat (s : σ) (inputs : List ι) (i : ι) :
    m.after s (inputs ++ [i]) = m.next (m.after s inputs) i := by
  rw [after_append, after_cons, after_nil]

/-- A property of the start that every input keeps holds after every sequence. -/
theorem after_invariant {P : σ → Prop} (hstep : ∀ s i, P s → P (m.next s i)) {s : σ} (hs : P s)
    (inputs : List ι) : P (m.after s inputs) := by
  induction inputs generalizing s with
  | nil => exact hs
  | cons i inputs ih => exact ih (hstep s i hs)

/-- What each input of a sequence leaves alone is the same after the sequence. -/
theorem after_kept {f : σ → β} {s : σ} {inputs : List ι}
    (hkept : ∀ before i rest, inputs = before ++ i :: rest →
      f (m.next (m.after s before) i) = f (m.after s before)) :
    f (m.after s inputs) = f s := by
  induction inputs using List.reverseRecOn with
  | nil => rfl
  | append_singleton inputs i ih =>
    rw [after_concat, hkept inputs i [] rfl]
    apply ih
    rintro before j rest rfl
    exact hkept before j (rest ++ [i]) (by simp)

section Count

variable [∀ s i, Decidable (m.accepts s i)]

/-- How many inputs of a sequence are accepted. -/
def acceptedCount (s : σ) : List ι → ℕ
  | [] => 0
  | i :: inputs =>
    (if m.accepts s i then 1 else 0) + acceptedCount (m.next s i) inputs

/-- The count over one sequence after another. -/
theorem acceptedCount_append (s : σ) (inputs later : List ι) :
    m.acceptedCount s (inputs ++ later) =
      m.acceptedCount s inputs + m.acceptedCount (m.after s inputs) later := by
  induction inputs generalizing s with
  | nil => simp [acceptedCount]
  | cons i inputs ih =>
    rw [List.cons_append, acceptedCount, ih, acceptedCount, after_cons]
    exact (Nat.add_assoc _ _ _).symm

/-- The count goes up by one at an accepted input. -/
theorem acceptedCount_concat (s : σ) (inputs : List ι) (i : ι) :
    m.acceptedCount s (inputs ++ [i]) =
      m.acceptedCount s inputs + if m.accepts (m.after s inputs) i then 1 else 0 := by
  rw [acceptedCount_append, acceptedCount, acceptedCount]
  rfl

/-- A counter below `w` that goes up by one at every accepted input, starting again at zero after
the last value, and stands still at every refused one. -/
structure Tallies (w : ℕ) (count : σ → ℕ) : Prop where
  accepted : ∀ s i, m.accepts s i → count (m.next s i) = (count s + 1) % w
  refused : ∀ s i, ¬m.accepts s i → count (m.next s i) = count s

variable {m}

/-- Such a counter holds the number of accepted inputs, up to its range. -/
theorem Tallies.after_eq {w : ℕ} {count : σ → ℕ} (h : m.Tallies w count) {s : σ}
    (hs : count s < w) (inputs : List ι) :
    count (m.after s inputs) = (count s + m.acceptedCount s inputs) % w := by
  induction inputs using List.reverseRecOn with
  | nil =>
    rw [after_nil, acceptedCount, Nat.add_zero, Nat.mod_eq_of_lt hs]
  | append_singleton inputs i ih =>
    rw [after_concat, acceptedCount_concat]
    split
    next haccepted =>
      rw [h.accepted _ _ haccepted, ih, Nat.mod_add_mod, Nat.add_assoc]
    next hrefused =>
      rw [h.refused _ _ hrefused, ih, Nat.add_zero]

end Count

/-- Inputs name an account and a number: an accepted input names the current number of its
account, which is higher afterwards, and no number ever goes down. -/
structure UsesUp (names : ι → κ → ℕ → Prop) (number : σ → κ → ℕ) : Prop where
  current : ∀ s i k n, m.accepts s i → names i k n → number s k = n
  moved : ∀ s i k n, m.accepts s i → names i k n → n < number (m.next s i) k
  grows : ∀ s i k, number s k ≤ number (m.next s i) k

variable {m}
variable {names : ι → κ → ℕ → Prop} {number : σ → κ → ℕ}

/-- Numbers do not go down over a sequence. -/
theorem UsesUp.after_le (h : m.UsesUp names number) (s : σ) (k : κ) (inputs : List ι) :
    number s k ≤ number (m.after s inputs) k := by
  induction inputs generalizing s with
  | nil => exact Nat.le_refl _
  | cons i inputs ih => exact Nat.le_trans (h.grows s i k) (ih (m.next s i))

/-- After an input was accepted, no input that names the same account and number is. -/
theorem UsesUp.not_accepts_later (h : m.UsesUp names number) {s : σ} {i j : ι} {k : κ} {n : ℕ}
    (hi : m.accepts s i) (hnames : names i k n) (hnamesLater : names j k n) (between : List ι) :
    ¬m.accepts (m.after (m.next s i) between) j := by
  intro hj
  have hlow : n < number (m.after (m.next s i) between) k :=
    Nat.lt_of_lt_of_le (h.moved s i k n hi hnames) (h.after_le (m.next s i) k between)
  have hcurrent := h.current _ j k n hj hnamesLater
  omega

end Intake

end SuwappuRevm.Foundations
