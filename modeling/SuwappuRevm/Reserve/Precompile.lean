import SuwappuRevm.Reserve.Violations
import SuwappuRevm.Staking.Dispatch

/-!
# The reserve-balance precompile

A contract asks the tracker through a precompile whether the transaction has dipped into a reserve.
The call is checked step by step: how it is made, its gas, its selector, its value and its length.
A call that passes costs a fixed amount and has the tracker's report as its answer, and every other
call loses all its gas.
-/

namespace SuwappuRevm.Reserve

open Foundations ReserveBalanceTracker
open Staking (CallInputs InterpreterResult consumedGas)

/-- `RESERVE_BALANCE_ADDRESS`. -/
def reserveBalanceAddress : Address := 0x1001

/-- `DIPPED_INTO_RESERVE_SELECTOR`. -/
def dippedIntoReserveSelector : Bytes := [0x3a, 0x61, 0x58, 0x4e]

/-- `DIPPED_INTO_RESERVE_GAS`. -/
def dippedIntoReserveGas : ℕ := 100

/-- `ReserveBalanceError`. -/
inductive ReserveBalanceError
  | methodNotSupported
  | valueNonZero
  | invalidInput
  deriving DecidableEq, Repr

/-- The text of an error. -/
def ReserveBalanceError.toString : ReserveBalanceError → String
  | .methodNotSupported => "method not supported"
  | .valueNonZero => "value is nonzero"
  | .invalidInput => "input is invalid"

/-- The word that encodes a boolean. -/
def boolWord (value : Bool) : Bytes := List.replicate 31 0 ++ [if value then 1 else 0]

/-- `success_result`. -/
def successResult (gasLimit gasUsed : ℕ) (value : Bool) : InterpreterResult :=
  ⟨.return, ((Gas.new gasLimit).recordCost gasUsed).getD (.new gasLimit), boolWord value⟩

/-- `revert_result`. -/
def revertResult (gasLimit : ℕ) (output : Bytes) : InterpreterResult :=
  ⟨.revert, ((Gas.new gasLimit).recordCost gasLimit).getD (.new gasLimit), output⟩

/-- `revert_error_result`. -/
def revertErrorResult (gasLimit : ℕ) (error : ReserveBalanceError) : InterpreterResult :=
  revertResult gasLimit error.toString.toUTF8.toList

/-- `oog_result`. -/
def oogResult (gasLimit : ℕ) : InterpreterResult :=
  ⟨.precompileOOG, ((Gas.new gasLimit).recordCost gasLimit).getD (.new gasLimit), []⟩

/-- `run_reserve_balance_precompile`. It reads the journal and changes nothing. -/
def runReserveBalancePrecompile (spec : MonadSpecId) (j : MonadJournal) (inputs : CallInputs) :
    Option InterpreterResult :=
  if inputs.bytecodeAddress ≠ reserveBalanceAddress ∨
      ¬MonadSpecId.monadNine.isEnabledIn spec = true then none
  else if inputs.scheme ≠ .call ∨ inputs.isStatic then some (revertResult inputs.gasLimit [])
  else if inputs.gasLimit < dippedIntoReserveGas then some (oogResult inputs.gasLimit)
  else if ¬(4 ≤ inputs.input.length ∧ inputs.input.take 4 = dippedIntoReserveSelector) then
    some (revertErrorResult inputs.gasLimit .methodNotSupported)
  else if inputs.callValue ≠ 0 then some (revertErrorResult inputs.gasLimit .valueNonZero)
  else if 4 < inputs.input.length then some (revertErrorResult inputs.gasLimit .invalidInput)
  else some (successResult inputs.gasLimit dippedIntoReserveGas j.reserveBalance.hasViolation)

/-- A plain call of `dippedIntoReserve()` with its gas, without value. -/
structure AsksReserve (inputs : CallInputs) : Prop where
  scheme : inputs.scheme = .call
  isStatic : inputs.isStatic = false
  gasLimit : dippedIntoReserveGas ≤ inputs.gasLimit
  input : inputs.input = dippedIntoReserveSelector
  callValue : inputs.callValue = 0

/-- Two different words encode the booleans. -/
theorem boolWord_injective : Function.Injective boolWord := by
  decide

/-- The whole limit is charged. -/
theorem recordCost_limit (gasLimit : ℕ) :
    ((Gas.new gasLimit).recordCost gasLimit).getD (.new gasLimit) = consumedGas gasLimit := by
  rw [Gas.recordCost_of_le (show gasLimit ≤ (Gas.new gasLimit).remaining from le_rfl)]
  exact congrArg (fun remaining => Gas.mk gasLimit remaining {}) (Nat.sub_self gasLimit)

section Calls

variable {spec : MonadSpecId} {j : MonadJournal} {inputs : CallInputs}

/-- A call that passes the checks has the tracker's report. -/
theorem runReserveBalancePrecompile_of_asks
    (haddr : inputs.bytecodeAddress = reserveBalanceAddress)
    (hspec : MonadSpecId.monadNine.isEnabledIn spec = true) (h : AsksReserve inputs) :
    runReserveBalancePrecompile spec j inputs =
      some (successResult inputs.gasLimit dippedIntoReserveGas j.reserveBalance.hasViolation) := by
  have hlength : inputs.input.length = 4 := congrArg List.length h.input
  have hselector : inputs.input.take 4 = dippedIntoReserveSelector := by
    rw [h.input]
    rfl
  rw [runReserveBalancePrecompile, if_neg (by simp [haddr, hspec]),
    if_neg (by simp [h.scheme, h.isStatic]), if_neg (Nat.not_lt.mpr h.gasLimit),
    if_neg (not_not.mpr ⟨hlength.ge, hselector⟩), if_neg (not_not.mpr h.callValue),
    if_neg (Nat.not_lt.mpr hlength.le)]

/-- Any other call fails with all its gas. -/
theorem runReserveBalancePrecompile_of_not_asks
    (haddr : inputs.bytecodeAddress = reserveBalanceAddress)
    (hspec : MonadSpecId.monadNine.isEnabledIn spec = true) (h : ¬AsksReserve inputs) :
    ∃ r, runReserveBalancePrecompile spec j inputs = some r ∧ r.result ≠ .return ∧
      r.gas = consumedGas inputs.gasLimit := by
  rw [runReserveBalancePrecompile, if_neg (by simp [haddr, hspec])]
  have hspent (result output) (h : result ≠ .return) : ∃ r, some (InterpreterResult.mk result
      (((Gas.new inputs.gasLimit).recordCost inputs.gasLimit).getD (.new inputs.gasLimit))
      output) = some r ∧ r.result ≠ .return ∧ r.gas = consumedGas inputs.gasLimit :=
    ⟨_, rfl, h, recordCost_limit _⟩
  by_cases hcall : inputs.scheme ≠ .call ∨ inputs.isStatic = true
  · rw [if_pos hcall]
    exact hspent .revert _ nofun
  rw [if_neg hcall]
  by_cases hgas : inputs.gasLimit < dippedIntoReserveGas
  · rw [if_pos hgas]
    exact hspent .precompileOOG _ nofun
  rw [if_neg hgas]
  by_cases hselector : 4 ≤ inputs.input.length ∧ inputs.input.take 4 = dippedIntoReserveSelector
  · rw [if_neg (not_not.mpr hselector)]
    by_cases hvalue : inputs.callValue = 0
    · rw [if_neg (not_not.mpr hvalue)]
      by_cases hlong : 4 < inputs.input.length
      · rw [if_pos hlong]
        exact hspent .revert _ nofun
      · -- every check has passed
        obtain ⟨hscheme, hstatic⟩ := not_or.mp hcall
        have hinput : inputs.input = dippedIntoReserveSelector := by
          rw [← hselector.2, List.take_of_length_le (Nat.not_lt.mp hlong)]
        exact absurd ⟨not_not.mp hscheme, Bool.eq_false_of_not_eq_true hstatic,
          Nat.not_lt.mp hgas, hinput, hvalue⟩ h
    · rw [if_pos hvalue]
      exact hspent .revert _ nofun
  · rw [if_pos hselector]
    exact hspent .revert _ nofun

end Calls

section Runs

variable {i : ReserveBalanceInit} {codeOf : Word → Bytecode}

/-- What a contract learns about the reserves. In every transaction whose steps look at delegated
accounts only with their code loaded, a call to the precompile returns exactly when it is a plain
call of its only method with the gas and without value; it then costs the fixed gas and answers
whether a loaded account violates the reserve rule now; and any other call loses all its gas. -/
theorem dipped_into_reserve_answers (hcodes : HashesCode codeOf) {inner : JournalInner}
    (hstart : Started i codeOf inner.state) {j : MonadJournal}
    (hrun : Relation.ReflTransGen (LoadedStep codeOf) ⟨inner, init i⟩ j)
    (hspec : MonadSpecId.monadNine.isEnabledIn i.spec = true) (inputs : CallInputs)
    (haddr : inputs.bytecodeAddress = reserveBalanceAddress) :
    ∃ r, runReserveBalancePrecompile i.spec j inputs = some r ∧
      (r.result = .return ↔ AsksReserve inputs) ∧
      (r.result = .return → r.gas.spent = dippedIntoReserveGas ∧
        (r.output = boolWord true ∨ r.output = boolWord false) ∧
        (r.output = boolWord true ↔
          ∃ a acc, j.inner.state a = some acc ∧ Violates i codeOf a acc)) ∧
      (r.result ≠ .return → r.gas.remaining = 0) := by
  have hcoherent := MonadJournal.coherent_of_run hcodes hstart hrun
  by_cases hasks : AsksReserve inputs
  · refine ⟨_, runReserveBalancePrecompile_of_asks haddr hspec hasks, iff_of_true rfl hasks,
      fun _ => ⟨?_, ?_, ?_⟩, fun hfails => absurd rfl hfails⟩
    · have hgas : dippedIntoReserveGas ≤ (Gas.new inputs.gasLimit).remaining := hasks.gasLimit
      rw [successResult, Gas.recordCost_of_le hgas]
      exact Nat.sub_sub_self hasks.gasLimit
    · cases hreport : j.reserveBalance.hasViolation with
      | true => exact .inl rfl
      | false => exact .inr rfl
    · rw [← Reserve.Coherent.reports_iff hcoherent]
      exact boolWord_injective.eq_iff
  · obtain ⟨r, hr, hfails, hgas⟩ := runReserveBalancePrecompile_of_not_asks (j := j) haddr hspec
      hasks
    exact ⟨r, hr, iff_of_false hfails hasks, fun hreturn => absurd hreturn hfails,
      fun _ => congrArg Gas.remaining hgas⟩

/-- The account that asks is not the staking contract. -/
theorem querier_ne : (7 : Address) ≠ Staking.stakingAddress := by decide

/-- A plain call of the method. -/
def reserveQuery : CallInputs where
  toMessage := ⟨7, 100000, 0, 0, querier_ne⟩
  bytecodeAddress := reserveBalanceAddress
  scheme := .call
  isStatic := false
  input := dippedIntoReserveSelector

/-- After the payment of the delegated owner the call answers that it dips. -/
theorem dipped_into_reserve_answers_delegated : ∃ r,
    runReserveBalancePrecompile .monadNine (paidJournal (init delegationInit)) reserveQuery =
      some r ∧
    r.result = .return ∧ r.gas.spent = 100 ∧ r.output = boolWord true := by
  have hcode : ∀ c, some (Bytecode.eip7702 5) = some c → c = .eip7702 5 :=
    fun c hc => (Option.some.inj hc).symm
  have hfirst : LoadedStep delegationCodeOf ⟨⟨senderState, []⟩, init delegationInit⟩
      ⟨⟨ownerState (some (.eip7702 5)), [.accountWarmed 2]⟩, init delegationInit⟩ :=
    ⟨.loadAccount 2 true, step_ownerState _ true hcode, fun _ a ha => by cases ha⟩
  have hpays : LoadedStep delegationCodeOf
      ⟨⟨ownerState (some (.eip7702 5)), [.accountWarmed 2]⟩, init delegationInit⟩
      (paidJournal (init delegationInit)) := by
    refine ⟨.transfer 2 3 10, step_paidJournal _, ?_⟩
    intro _ a ha acc hacc _
    rw [List.mem_singleton.mp ha] at hacc
    cases hacc
    exact .inl (Option.some_ne_none _)
  obtain ⟨r, hr, hreturn, hanswer, -⟩ := dipped_into_reserve_answers delegationCodeOf_hashes
    started_sender ((Relation.ReflTransGen.single hfirst).tail hpays) rfl reserveQuery rfl
  have hasks : AsksReserve reserveQuery := ⟨rfl, rfl, by decide, rfl, rfl⟩
  obtain ⟨hgas, -, hdipped⟩ := hanswer (hreturn.mpr hasks)
  have hbelow : Violates delegationInit delegationCodeOf 2
      ((delegatedOwner (some (.eip7702 5))).withBalance 40) := by
    refine ⟨by decide, .inr rfl, fun hexempt => ?_, by decide⟩
    cases hexempt.2.1
  exact ⟨r, hr, hreturn.mpr hasks, hgas, hdipped.mpr ⟨2, _, rfl, hbelow⟩⟩

end Runs

end SuwappuRevm.Reserve
