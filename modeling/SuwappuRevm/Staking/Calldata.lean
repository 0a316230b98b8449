import SuwappuRevm.Foundations.Simulation
import SuwappuRevm.Staking.GasLaw

/-!
# Runs of raw calls

A call frame on the precompile has calldata, a scheme and a gas limit, and is reverted unless the
precompile returns. A run of such frames is, position by position, the run of the calls that their
calldata decodes to: the checks of gas, value and scheme around the handlers add rejections, and
views, unknown selectors and undecodable arguments change nothing.
-/

namespace SuwappuRevm.Staking

open Foundations

section Decoding

variable (codec : Codec)

/-- The write call of a method on calldata whose arguments decode. -/
def decodeCall (input : Bytes) : Method → Option StakingCall
  | .addValidator => (codec.call .addValidator input).toOption.map fun payload =>
      .addValidator payload
  | .delegate => (codec.call .delegate input).toOption.map fun validatorId => .delegate validatorId
  | .undelegate => (codec.call .undelegate input).toOption.map fun args =>
      .undelegate args.1 args.2.1 args.2.2
  | .withdraw => (codec.call .withdraw input).toOption.map fun args => .withdraw args.1 args.2
  | .compound => (codec.call .compound input).toOption.map fun validatorId => .compound validatorId
  | .claimRewards => (codec.call .claimRewards input).toOption.map fun validatorId =>
      .claimRewards validatorId
  | .changeCommission => (codec.call .changeCommission input).toOption.map fun args =>
      .changeCommission args.1 args.2
  | .externalReward => (codec.call .externalReward input).toOption.map fun validatorId =>
      .externalReward validatorId
  | .getDelegator => (codec.call .getDelegator input).toOption.map fun args =>
      .getDelegator args.1 args.2
  | .syscallReward => (codec.call .syscallReward input).toOption.map fun blockAuthor =>
      .syscallReward blockAuthor (extendedReward input)
  | .syscallSnapshot => some .syscallSnapshot
  | .syscallOnEpochChange => (codec.call .syscallOnEpochChange input).toOption.map fun epoch =>
      .syscallOnEpochChange epoch
  | _ => none

/-- A plain call to the precompile. -/
def CallInputs.Plain (inputs : CallInputs) : Prop :=
  inputs.bytecodeAddress = stakingAddress ∧ inputs.scheme = .call ∧ inputs.isStatic = false

instance (inputs : CallInputs) : Decidable inputs.Plain :=
  inferInstanceAs (Decidable (_ ∧ _ ∧ _))

/-- The message and the call that a plain call decodes to. -/
def CallInputs.decoded (inputs : CallInputs) : Option (Message × StakingCall) :=
  if inputs.Plain then
    ((methodOf inputs.input).bind (decodeCall codec inputs.input)).map (Prod.mk inputs.toMessage)
  else none

/-- What a call brings in: its value, or the reward that the block processor mints when it pays
one. -/
def CallInputs.income (inputs : CallInputs) : ℕ :=
  if inputs.caller = systemAddress ∧ methodOf inputs.input = some .syscallReward then
    (extendedReward inputs.input).getD inputs.callValue
  else inputs.callValue

/-- A call frame on the precompile: what it has written and was paid stays if it returns. -/
def stakingFrame (s : Storage) (inputs : CallInputs) : Option (InterpreterResult × Storage) :=
  (runStakingPrecompile codec (s.credit inputs.income) inputs).map fun outcome =>
    (outcome.1, if outcome.1.result = .return then outcome.2 else s)

/-- The storage after a frame that returns; a frame elsewhere or one that does not return fails. -/
def frameStep (s : Storage) (inputs : CallInputs) :
    Except (Option InterpreterResult) Storage :=
  match stakingFrame codec s inputs with
  | none => .error none
  | some (result, s') => if result.result = .return then .ok s' else .error (some result)

end Decoding

section Handlers

variable {codec : Codec} {s : Storage} {msg : Message}

/-- A computation that fails. -/
def Fails {A : Type} (x : Except PrecompileError A) : Prop := ∃ e, x = .error e

/-- A guard with a failing rest fails. -/
theorem fails_failIf {A : Type} {c : Prop} [Decidable c] {e : PrecompileError}
    {rest : Unit → Except PrecompileError A} (h : Fails (rest ())) :
    Fails (failIf c e >>= rest) := by
  by_cases hc : c
  · exact ⟨e, by rw [failIf_of hc, error_bind]⟩
  · rw [failIf_of_not hc, ok_bind]
    exact h

/-- A guard after a guard on the same condition does nothing. -/
theorem failIf_failIf {A : Type} {c : Prop} [Decidable c] {e : PrecompileError}
    {rest : Except PrecompileError A} :
    (failIf c e >>= fun _ => failIf c e >>= fun _ => rest) = failIf c e >>= fun _ => rest := by
  by_cases hc : c
  · rw [failIf_of hc, error_bind, error_bind]
  · rw [failIf_of_not hc, ok_bind]

/-- So does a pair of guards after the same pair. -/
theorem failIf_pair {A : Type} {c c' : Prop} [Decidable c] [Decidable c'] {e e' : PrecompileError}
    {rest : Except PrecompileError A} :
    (failIf c e >>= fun _ => failIf c' e' >>= fun _ =>
      failIf c e >>= fun _ => failIf c' e' >>= fun _ => rest) =
      failIf c e >>= fun _ => failIf c' e' >>= fun _ => rest := by
  by_cases hc : c
  · rw [failIf_of hc, error_bind, error_bind]
  · rw [failIf_of_not hc, ok_bind, ok_bind, failIf_failIf]

/-- What a method answers is what its decoded call answers, or a failure if none is decoded. -/
def Matches (s : Storage) (msg : Message) :
    Option StakingCall → Except PrecompileError Answer → Prop
  | some call, answer => answer = runStakingWrite s msg call
  | none, answer => Fails answer

/-- A method that decodes its arguments before it answers as the call with them. -/
theorem matches_of {A : Type} {call : Except PrecompileError A} {toCall : A → StakingCall}
    (entry : Except PrecompileError A → Except PrecompileError Answer)
    (hok : ∀ args, entry (.ok args) = runStakingWrite s msg (toCall args))
    (herror : ∀ e, Fails (entry (.error e))) :
    Matches s msg (call.toOption.map toCall) (entry call) := by
  cases call with
  | ok args => exact hok args
  | error e => exact herror e

/-- Arguments that do not decode fail, in a handler and in a syscall. -/
theorem fails_onInput {A B : Type} {gasLimit cost : ℕ} {handler : A → Except PrecompileError B}
    (e : PrecompileError) : Fails (onInput gasLimit cost (.error e) handler) :=
  fails_failIf ⟨e, rfl⟩

/-- A syscall whose arguments do not decode fails. -/
theorem fails_onSyscallInput {A B : Type} {cost : ℕ} {handler : A → Except PrecompileError B}
    (e : PrecompileError) : Fails (onSyscallInput msg cost (.error e) handler) :=
  fails_failIf (fails_failIf ⟨e, rfl⟩)

/-- A non-payable method fails where the payable one does. -/
theorem fails_notPayable {answer : Except PrecompileError Answer} (h : Fails answer) :
    Fails (notPayable msg answer) :=
  fails_failIf h

/-- The dispatch of write methods answers as the decoded calls do. -/
theorem writeHandler_matches {input : Bytes} {m : Method} {answer : Except PrecompileError Answer}
    (h : writeHandler codec s msg input m = some answer) :
    Matches s msg (decodeCall codec input m) answer := by
  cases m with
  | getEpoch | getProposerValId | getValidator | getWithdrawalRequest | getConsensusValidatorSet
  | getSnapshotValidatorSet | getExecutionValidatorSet | getDelegations | getDelegators => cases h
  | delegate | addValidator | externalReward =>
    cases h
    exact matches_of (fun call => onInput msg.gasLimit _ call _) (fun _ => failIf_failIf)
      fun e => fails_onInput e
  | changeCommission | claimRewards | undelegate | withdraw | compound | getDelegator =>
    cases h
    exact matches_of (fun call => notPayable msg (onInput msg.gasLimit _ call _))
      (fun _ => congrArg _ failIf_failIf) fun e => fails_notPayable (fails_onInput e)
  | syscallSnapshot =>
    cases h
    rfl
  | syscallReward =>
    cases h
    exact matches_of (fun call => onSyscallInput msg _ call _) (fun _ => failIf_pair)
      fun e => fails_onSyscallInput e
  | syscallOnEpochChange =>
    cases h
    exact matches_of (fun call => notPayable msg (onSyscallInput msg _ call _))
      (fun _ => congrArg _ failIf_pair) fun e => fails_notPayable (fails_onSyscallInput e)

/-- Every write method has a handler. -/
theorem exists_writeHandler (codec : Codec) (s : Storage) (msg : Message) (input : Bytes)
    {m : Method} (hm : m.isWrite = true) :
    ∃ answer, writeHandler codec s msg input m = some answer := by
  cases m with
  | getEpoch | getProposerValId | getValidator | getWithdrawalRequest | getConsensusValidatorSet
  | getSnapshotValidatorSet | getExecutionValidatorSet | getDelegations | getDelegators => cases hm
  | _ => exact ⟨_, rfl⟩

/-- No write call is decoded for a view. -/
theorem decodeCall_view (codec : Codec) (input : Bytes) {m : Method} (hm : m.isWrite = false) :
    decodeCall codec input m = none := by
  cases m with
  | getEpoch | getProposerValId | getValidator | getWithdrawalRequest | getConsensusValidatorSet
  | getSnapshotValidatorSet | getExecutionValidatorSet | getDelegations | getDelegators => rfl
  | _ => cases hm

/-- The result of a funded answer is a return exactly when there is an answer. -/
theorem convertResult_return (codec : Codec) {gasLimit cost : ℕ}
    {answer : Except PrecompileError Answer} (h : Funded gasLimit cost answer) :
    (convertResult codec gasLimit (codec.answer answer)).result = .return ↔
      ∃ a, answer = .ok a := by
  cases answer with
  | error e =>
    constructor
    · intro hresult
      dsimp only [Codec.answer, convertResult] at hresult
      split at hresult <;> cases hresult
    · rintro ⟨a, ha⟩
      cases ha
  | ok a =>
    obtain ⟨rfl, hcost⟩ : a.gasUsed = cost ∧ cost ≤ gasLimit := h a rfl
    refine iff_of_true ?_ ⟨a, rfl⟩
    dsimp only [Codec.answer, convertResult]
    rw [Gas.recordCost_of_le hcost]

/-- What is decoded for another method than `syscallReward` brings in its value. -/
theorem income_of_decoded {input : Bytes} {m : Method} {call : StakingCall}
    (hm : m ≠ .syscallReward) (hcall : decodeCall codec input m = some call) :
    income msg call = msg.callValue := by
  cases m with
  | getEpoch | getProposerValId | getValidator | getWithdrawalRequest | getConsensusValidatorSet
  | getSnapshotValidatorSet | getExecutionValidatorSet | getDelegations | getDelegators =>
    cases hcall
  | syscallReward => exact absurd rfl hm
  | syscallSnapshot =>
    cases hcall
    rfl
  | _ =>
    obtain ⟨args, -, rfl⟩ := Option.map_eq_some_iff.mp hcall
    rfl

/-- A reward of anyone but the block processor fails before it looks at the state. -/
theorem handleSyscallReward_of_ne (hcaller : msg.caller ≠ systemAddress) (s' : Storage)
    (blockAuthor : Address) (reward reward' : ℕ) :
    handleSyscallReward s msg blockAuthor reward =
      handleSyscallReward s' msg blockAuthor reward' := by
  rw [handleSyscallReward, handleSyscallReward, failIf_of hcaller, error_bind, error_bind]

/-- The frame pays what the decoded call brings in, as far as its outcome can tell. -/
theorem runStakingWrite_income {inputs : CallInputs} {m : Method} {call : StakingCall}
    (hm : methodOf inputs.input = some m) (hcall : decodeCall codec inputs.input m = some call) :
    runStakingWrite (s.credit inputs.income) inputs.toMessage call =
      runStakingWrite (s.credit (income inputs.toMessage call)) inputs.toMessage call := by
  by_cases hreward : m = .syscallReward
  · subst hreward
    obtain ⟨blockAuthor, -, rfl⟩ := Option.map_eq_some_iff.mp hcall
    by_cases hcaller : inputs.caller = systemAddress
    · rw [CallInputs.income, if_pos ⟨hcaller, hm⟩]
      rfl
    · exact handleSyscallReward_of_ne hcaller _ blockAuthor _ _
  · rw [CallInputs.income, if_neg fun h => hreward (Option.some.inj (hm.symm.trans h.2)),
      income_of_decoded hreward hcall]

end Handlers

section Frames

variable {codec : Codec} {s : Storage} {inputs : CallInputs}

/-- A frame that is not a plain call changes nothing. -/
theorem stakingFrame_of_not_plain (haddr : inputs.bytecodeAddress = stakingAddress)
    (hplain : ¬inputs.Plain) : stakingFrame codec s inputs =
      some (⟨.revert, .new inputs.gasLimit, []⟩, s) := by
  have hreject : inputs.scheme ≠ .call ∨ inputs.isStatic = true := by
    by_contra hnot
    obtain ⟨hscheme, hstatic⟩ := not_or.mp hnot
    exact hplain ⟨haddr, not_not.mp hscheme, Bool.eq_false_of_not_eq_true hstatic⟩
  rw [stakingFrame, runStakingPrecompile, if_neg (not_not.mpr haddr), if_pos hreject]
  rfl

/-- A plain frame is routed by its selector. -/
theorem runStakingPrecompile_of_plain (hplain : inputs.Plain) (s : Storage) :
    runStakingPrecompile codec s inputs = match methodOf inputs.input with
      | none => some (fallbackResult inputs.gasLimit, s)
      | some m =>
        if m.isWrite then some (runStakingWriteInput codec s inputs.toMessage inputs.input)
        else match viewHandler codec s inputs.toMessage inputs.input m with
          | none => some (fallbackResult inputs.gasLimit, s)
          | some answer => some (convertResult codec inputs.gasLimit answer, s) := by
  obtain ⟨haddr, hscheme, hstatic⟩ := hplain
  have haccept : ¬(inputs.scheme ≠ .call ∨ inputs.isStatic = true) := by
    rw [hscheme, hstatic]
    decide
  rw [runStakingPrecompile]
  exact (if_neg (not_not.mpr haddr)).trans (if_neg haccept)

/-- The fallback does not return. -/
theorem fallbackResult_ne_return (gasLimit : ℕ) : (fallbackResult gasLimit).result ≠ .return := by
  rw [fallbackResult]
  split <;> simp

/-- A view that returns was paid nothing. -/
theorem callValue_of_view {msg : Message} {input : Bytes} {m : Method} {answer : ViewAnswer}
    {result : ℕ × Bytes} (h : viewHandler codec s msg input m = some answer)
    (hok : answer = .ok result) : msg.callValue = 0 := by
  have hvalue {rest : ViewAnswer} (h : viewNotPayable msg.callValue rest = .ok result) :
      msg.callValue = 0 := by
    obtain ⟨_, hcheck, -⟩ := bind_eq_ok.mp h
    exact not_not.mp (failIf_eq_ok.mp hcheck)
  subst hok
  cases m with
  | addValidator | delegate | undelegate | withdraw | compound | claimRewards | changeCommission
  | externalReward | syscallOnEpochChange | syscallReward | syscallSnapshot => cases h
  | _ => exact hvalue (Option.some.inj h)

/-- A frame that decodes to no call leaves the storage as it is. -/
theorem stakingFrame_of_none (haddr : inputs.bytecodeAddress = stakingAddress)
    (hnone : inputs.decoded codec = none) :
    ∃ result, stakingFrame codec s inputs = some (result, s) := by
  by_cases hplain : inputs.Plain
  · rw [CallInputs.decoded, if_pos hplain, Option.map_eq_none_iff] at hnone
    rw [stakingFrame, runStakingPrecompile_of_plain hplain]
    rcases hm : methodOf inputs.input with _ | m
    · exact ⟨_, congrArg some (congrArg _ (if_neg (fallbackResult_ne_return _)))⟩
    · rw [hm, Option.bind_some] at hnone
      dsimp only
      split
      next hwrite =>
        obtain ⟨answer, hanswer⟩ :=
          exists_writeHandler codec (s.credit inputs.income) inputs.toMessage inputs.input hwrite
        have hfails := writeHandler_matches hanswer
        rw [hnone] at hfails
        obtain ⟨e, rfl⟩ := hfails
        have hreturn := convertResult_return codec (writeHandler_funded hanswer)
        rw [runStakingWriteInput, hm, Option.bind_some, hanswer]
        refine ⟨_, congrArg some (congrArg _ (if_neg fun h => ?_))⟩
        obtain ⟨a, ha⟩ := hreturn.mp h
        cases ha
      next hview =>
        cases hanswer : viewHandler codec (s.credit inputs.income) inputs.toMessage inputs.input
          m with
        | none => exact ⟨_, congrArg some (congrArg _ (if_neg (fallbackResult_ne_return _)))⟩
        | some answer =>
          refine ⟨convertResult codec inputs.gasLimit answer, congrArg some (congrArg _ ?_)⟩
          dsimp only
          split
          next hreturn =>
            cases answer with
            | error e =>
              dsimp only [convertResult] at hreturn
              split at hreturn <;> cases hreturn
            | ok result =>
              have hvalue : inputs.callValue = 0 := callValue_of_view hanswer rfl
              have hreward : m ≠ .syscallReward := by
                rintro rfl
                exact hview rfl
              rw [CallInputs.income, if_neg fun h => hreward (Option.some.inj (hm.symm.trans h.2)),
                hvalue]
              rfl
          next => rfl
  · exact ⟨_, stakingFrame_of_not_plain haddr hplain⟩

/-- A frame that decodes to a call has the converted answer of that call, and leaves what the call
leaves. -/
theorem stakingFrame_of_some {tx : Message × StakingCall} (hsome : inputs.decoded codec = some tx) :
    stakingFrame codec s inputs = some (convertResult codec inputs.gasLimit (codec.answer
      (runStakingWrite (s.credit (income tx.1 tx.2)) tx.1 tx.2)), perform stakingStep s tx) := by
  by_cases hplain : inputs.Plain
  · rw [CallInputs.decoded, if_pos hplain] at hsome
    obtain ⟨call, hcall, rfl⟩ := Option.map_eq_some_iff.mp hsome
    obtain ⟨m, hm, hcall⟩ := Option.bind_eq_some_iff.mp hcall
    have hwrite : m.isWrite = true := by
      by_contra hview
      rw [decodeCall_view codec inputs.input (Bool.eq_false_of_not_eq_true hview)] at hcall
      cases hcall
    obtain ⟨answer, hanswer⟩ :=
      exists_writeHandler codec (s.credit inputs.income) inputs.toMessage inputs.input hwrite
    have hfunded := writeHandler_funded hanswer
    have hmatches := writeHandler_matches hanswer
    rw [hcall] at hmatches
    have hanswer' : answer = runStakingWrite (s.credit (income inputs.toMessage call))
        inputs.toMessage call := hmatches.trans (runStakingWrite_income hm hcall)
    have hreturn := convertResult_return codec hfunded
    rw [stakingFrame, runStakingPrecompile_of_plain hplain, hm]
    dsimp only
    rw [if_pos hwrite, runStakingWriteInput, hm, Option.bind_some, hanswer]
    dsimp only [Option.map_some]
    rw [← hanswer']
    refine congrArg some (congrArg _ ?_)
    cases answer with
    | error e =>
      have hstep : stakingStep s (inputs.toMessage, call) = .error e := by
        rw [stakingStep, ← hanswer', error_bind]
      rw [perform_of_error hstep, if_neg fun h => ?_]
      obtain ⟨a, ha⟩ := hreturn.mp h
      cases ha
    | ok a =>
      have hstep : stakingStep s (inputs.toMessage, call) = .ok a.storage := by
        rw [stakingStep, ← hanswer', ok_bind]
        rfl
      rw [perform_of_ok hstep, if_pos (hreturn.mpr ⟨a, rfl⟩)]
      exact if_pos (hreturn.mpr ⟨a, rfl⟩)
  · rw [CallInputs.decoded, if_neg hplain] at hsome
    cases hsome

/-- A frame that does not return leaves the storage as it is. -/
theorem stakingFrame_of_ne_return {result : InterpreterResult} {s' : Storage}
    (h : stakingFrame codec s inputs = some (result, s')) (hresult : result.result ≠ .return) :
    s' = s := by
  obtain ⟨outcome, -, houtcome⟩ := Option.map_eq_some_iff.mp h
  cases houtcome
  exact if_neg hresult

/-- A frame moves the storage as the call that it decodes to. -/
theorem perform_frameStep (s : Storage) (inputs : CallInputs) :
    perform (frameStep codec) s inputs =
      (inputs.decoded codec).elim s fun tx => perform stakingStep s tx := by
  have hframe {result : InterpreterResult} {s' : Storage}
      (h : stakingFrame codec s inputs = some (result, s')) :
      perform (frameStep codec) s inputs = s' := by
    by_cases hreturn : result.result = .return
    · refine perform_of_ok ?_
      rw [frameStep, h]
      exact if_pos hreturn
    · have hstep : frameStep codec s inputs = .error (some result) := by
        rw [frameStep, h]
        exact if_neg hreturn
      rw [perform_of_error hstep, stakingFrame_of_ne_return h hreturn]
  by_cases haddr : inputs.bytecodeAddress = stakingAddress
  · rcases hdecoded : inputs.decoded codec with _ | tx
    · obtain ⟨result, h⟩ := stakingFrame_of_none (s := s) haddr hdecoded
      exact hframe h
    · exact hframe (stakingFrame_of_some hdecoded)
  · have hnone : inputs.decoded codec = none := if_neg fun h => haddr h.1
    have hstep : frameStep codec s inputs = .error none := by
      rw [frameStep, stakingFrame, runStakingPrecompile, if_pos haddr]
      rfl
    rw [hnone, perform_of_error hstep]
    rfl

/-- Runs of raw calls are runs of the decoded calls. From any storage, after any number of frames of
a run with any calldata, schemes, values and gas limits, the storage is the one that the decoded
calls among them lead to. And in every state a frame that decodes to a call has the converted answer
of that call and leaves what the call leaves, while any other frame on the precompile changes
nothing. -/
theorem frames_run_calls (codec : Codec) (init : Storage) (frames : List CallInputs) (n : ℕ) :
    stateAt (frameStep codec) init frames n =
        stateAt stakingStep init (frames.filterMap (CallInputs.decoded codec))
          ((frames.take n).filterMap (CallInputs.decoded codec)).length ∧
      ∀ (s : Storage) (inputs : CallInputs),
        (∀ tx, inputs.decoded codec = some tx → stakingFrame codec s inputs =
          some (convertResult codec inputs.gasLimit (codec.answer
            (runStakingWrite (s.credit (income tx.1 tx.2)) tx.1 tx.2)), perform stakingStep s tx)) ∧
        (inputs.bytecodeAddress = stakingAddress → inputs.decoded codec = none →
          ∃ result, stakingFrame codec s inputs = some (result, s)) :=
  ⟨stateAt_project id (CallInputs.decoded codec) perform_frameStep init frames n,
    fun _ _ => ⟨fun _ => stakingFrame_of_some, stakingFrame_of_none⟩⟩

end Frames

end SuwappuRevm.Staking
