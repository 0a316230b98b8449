import SuwappuRevm.Foundations.FiniteSums
import SuwappuRevm.Foundations.Simulation

/-!
# Agents with parts of their own

Every call is made by an agent or by nobody. It moves the part of its agent, as a function of that
part, and takes something from a fund that all share. So the part of an agent ends where its own
calls lead, and the fund loses what the agents take one by one: runs that interleave the same calls
of every agent in different orders end with the same parts and the same fund.
-/

namespace SuwappuRevm.Foundations

open Finset

section Calls

variable {α ι V : Type*} [DecidableEq ι]

/-- The calls of an agent. -/
def callsOf (agent : α → Option ι) (i : ι) (calls : List α) : List α :=
  calls.filter fun a => agent a = some i

/-- What calls take from a fund, when each moves the part that the next one sees. -/
def taken (next : V → α → V) (take : V → α → ℕ) : V → List α → ℕ
  | _, [] => 0
  | x, a :: calls => take x a + taken next take (next x a) calls

variable {agent : α → Option ι} {i : ι} {a : α} {calls : List α}

/-- An agent's call is one of its calls. -/
theorem callsOf_cons_self (h : agent a = some i) :
    callsOf agent i (a :: calls) = a :: callsOf agent i calls :=
  List.filter_cons_of_pos (decide_eq_true h)

/-- A call of somebody else is not. -/
theorem callsOf_cons_of_ne (h : agent a ≠ some i) :
    callsOf agent i (a :: calls) = callsOf agent i calls :=
  List.filter_cons_of_neg (by simpa using h)

end Calls

section Runs

variable {σ α ι V ε : Type*} [DecidableEq ι] {agent : α → Option ι}
  {next : ι → V → α → V} {take : ι → V → α → ℕ} {view : σ → ι → V} {fund : σ → ℕ} {s s' : σ} {a : α}

/-- A call that moves the part of its agent and takes something from the fund. -/
structure MovesOwn (agent : α → Option ι) (next : ι → V → α → V) (take : ι → V → α → ℕ)
    (view : σ → ι → V) (fund : σ → ℕ) (s : σ) (a : α) (s' : σ) : Prop where
  own : ∀ i, agent a = some i → view s' i = next i (view s i) a
  off : ∀ i, agent a ≠ some i → view s' i = view s i
  fund_own : ∀ i, agent a = some i → fund s' = fund s - take i (view s i) a
  fund_off : agent a = none → fund s' = fund s

/-- The part of every agent goes on with its own calls. -/
theorem MovesOwn.foldl_eq (h : MovesOwn agent next take view fund s a s') (calls : List α) (i : ι) :
    (callsOf agent i calls).foldl (next i) (view s' i) =
      (callsOf agent i (a :: calls)).foldl (next i) (view s i) := by
  by_cases hi : agent a = some i
  · rw [callsOf_cons_self hi, List.foldl_cons, h.own i hi]
  · rw [callsOf_cons_of_ne hi, h.off i hi]

/-- What the call takes comes on top of what the agents take afterwards. -/
theorem MovesOwn.fund_sub [Fintype ι] (h : MovesOwn agent next take view fund s a s')
    (calls : List α) :
    fund s' - ∑ i, taken (next i) (take i) (view s' i) (callsOf agent i calls) =
      fund s - ∑ i, taken (next i) (take i) (view s i) (callsOf agent i (a :: calls)) := by
  have hoff (i : ι) (hi : agent a ≠ some i) :
      taken (next i) (take i) (view s i) (callsOf agent i (a :: calls)) =
        taken (next i) (take i) (view s' i) (callsOf agent i calls) := by
    rw [callsOf_cons_of_ne hi, h.off i hi]
  cases hagent : agent a with
  | none =>
    rw [h.fund_off hagent]
    refine congrArg _ (Finset.sum_congr rfl fun i _ => (hoff i ?_).symm)
    rw [hagent]
    exact (Option.some_ne_none i).symm
  | some i =>
    have hown : taken (next i) (take i) (view s i) (callsOf agent i (a :: calls)) =
        take i (view s i) a + taken (next i) (take i) (view s' i) (callsOf agent i calls) := by
      rw [callsOf_cons_self hagent, taken, h.own i hagent]
    have hsum := sum_add_eq_of_eq_off i fun j hj =>
      hoff j (by rw [hagent]; exact fun heq => hj (Option.some.inj heq).symm)
    rw [h.fund_own i hagent, Nat.sub_sub]
    congr 1
    omega

variable {step : σ → α → Except ε σ} {guard : σ → α → σ → Prop} {calls : List α}

/-- Run rule: in a run in which every call is accepted, an agent's part goes where its own calls
lead, and the fund loses what the agents take. -/
theorem Runs.own_parts [Fintype ι] {inv : σ → Prop}
    (hstep : ∀ s a s', inv s → a ∈ calls → step s a = .ok s' → guard s a s' →
      inv s' ∧ MovesOwn agent next take view fund s a s')
    (h : Runs step guard (fun _ _ => False) s calls s') (hs : inv s) :
    inv s' ∧ (∀ i, view s' i = (callsOf agent i calls).foldl (next i) (view s i)) ∧
      fund s' = fund s - ∑ i, taken (next i) (take i) (view s i) (callsOf agent i calls) := by
  induction h with
  | nil s =>
    refine ⟨hs, fun i => rfl, ?_⟩
    have hnone : ∑ i, taken (next i) (take i) (view s i) (callsOf agent i []) = 0 :=
      Finset.sum_eq_zero fun _ _ => rfl
    rw [hnone, Nat.sub_zero]
  | call hok hg _ ih =>
    obtain ⟨hinv, hmoves⟩ := hstep _ _ _ hs List.mem_cons_self hok hg
    obtain ⟨hlast, hview, hfund⟩ :=
      ih (fun s a s' hs ha => hstep s a s' hs (List.mem_cons_of_mem _ ha)) hinv
    exact ⟨hlast, fun i => (hview i).trans (hmoves.foldl_eq _ i), hfund.trans (hmoves.fund_sub _)⟩
  | revert _ hno => exact hno.elim

end Runs

end SuwappuRevm.Foundations
