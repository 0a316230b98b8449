import SuwappuRevm.Staking.Dispatch

/-!
# Gas law of the staking precompile

A call that returns has spent the tabulated cost of its method, and a call that reverts all its
gas. The one result built without charging is the rejection of call schemes, so the law holds of
plain calls exactly, and of rejected ones that had no gas to begin with.
-/

namespace SuwappuRevm.Staking

open Foundations

/-- Whatever the handler answers has used the cost. -/
abbrev Uses (cost : ℕ) : Except PrecompileError Answer → Prop :=
  Always fun answer => answer.gasUsed = cost

/-- `handle_change_commission` costs its tabulated gas. -/
theorem uses_changeCommission (s : Storage) (msg : Message) (validatorId : ValId)
    (commission : ℕ) :
    Uses gas.changeCommission (handleChangeCommission s msg validatorId commission) := by
  apply always_bind
  intro _
  apply always_bind
  intro _
  apply always_bind
  intro _
  apply always_bind
  intro _
  exact always_ok rfl

/-- `handle_claim_rewards` costs its tabulated gas. -/
theorem uses_claimRewards (s : Storage) (msg : Message) (validatorId : ValId) :
    Uses gas.claimRewards (handleClaimRewards s msg validatorId) := by
  apply always_bind
  intro _
  apply always_bind
  rintro ⟨del, s'⟩
  apply always_ite
  · exact always_ok rfl
  · apply always_bind
    intro _
    exact always_ok rfl

/-- `handle_external_reward` costs its tabulated gas. -/
theorem uses_externalReward (s : Storage) (msg : Message) (validatorId : ValId) :
    Uses gas.externalReward (handleExternalReward s msg validatorId) := by
  apply always_bind
  intro _
  apply always_bind
  intro _
  apply always_bind
  intro _
  apply always_bind
  intro _
  apply always_bind
  intro _
  apply always_bind
  intro rewardAcc
  apply always_bind
  intro newAcc
  apply always_bind
  intro unclaimed
  exact always_ok rfl

/-- `handle_delegate` costs its tabulated gas. -/
theorem uses_delegate (s : Storage) (msg : Message) (validatorId : ValId) :
    Uses gas.delegate (handleDelegate s msg validatorId) := by
  apply always_bind
  intro _
  apply always_bind
  intro _
  apply always_ite
  · exact always_ok rfl
  · apply always_bind
    intro _
    apply always_bind
    intro s'
    exact always_ok rfl

/-- `handle_undelegate` costs its tabulated gas. -/
theorem uses_undelegate (s : Storage) (msg : Message) (validatorId : ValId) (amount : ℕ)
    (withdrawId : WithdrawId) :
    Uses gas.undelegate (handleUndelegate s msg validatorId amount withdrawId) := by
  apply always_bind
  intro _
  apply always_ite
  · exact always_ok rfl
  · apply always_bind
    intro _
    apply always_bind
    intro _
    apply always_bind
    rintro ⟨del, s'⟩
    apply always_bind
    intro _
    apply always_bind
    intro remaining
    apply always_bind
    intro left
    apply always_bind
    intro stake
    exact always_ok rfl

/-- `handle_withdraw` costs its tabulated gas. -/
theorem uses_withdraw (s : Storage) (msg : Message) (validatorId : ValId)
    (withdrawId : WithdrawId) :
    Uses gas.withdraw (handleWithdraw s msg validatorId withdrawId) := by
  apply always_bind
  intro _
  apply always_bind
  intro _
  apply always_bind
  intro _
  apply always_bind
  intro rewards
  apply always_bind
  intro _
  apply always_bind
  intro unclaimed
  apply always_bind
  intro totalPayout
  apply always_bind
  intro s'
  exact always_ok rfl

/-- `handle_compound` costs its tabulated gas. -/
theorem uses_compound (s : Storage) (msg : Message) (validatorId : ValId) :
    Uses gas.compound (handleCompound s msg validatorId) := by
  apply always_bind
  intro _
  apply always_bind
  rintro ⟨del, s'⟩
  apply always_ite
  · exact always_ok rfl
  · apply always_bind
    intro _
    exact always_ok rfl

/-- `handle_add_validator` costs its tabulated gas. -/
theorem uses_addValidator (s : Storage) (msg : Message) (payload : Bytes) :
    Uses gas.addValidator (handleAddValidator s msg payload) := by
  apply always_bind
  intro _
  apply always_bind
  intro _
  apply always_bind
  intro _
  apply always_bind
  intro _
  apply always_bind
  intro _
  apply always_bind
  rintro ⟨newValId, s'⟩
  apply always_bind
  intro _
  exact always_ok rfl

/-- `handle_get_delegator_write` costs its tabulated gas. -/
theorem uses_getDelegatorWrite (s : Storage) (msg : Message) (validatorId : ValId)
    (delegator : Address) :
    Uses gas.getDelegator (handleGetDelegatorWrite s msg validatorId delegator) := by
  apply always_bind
  intro _
  apply always_bind
  rintro ⟨del, s'⟩
  exact always_ok rfl

/-- `handle_syscall_reward` costs its tabulated gas. -/
theorem uses_syscallReward (s : Storage) (msg : Message) (blockAuthor : Address)
    (blockReward : ℕ) :
    Uses gas.syscallReward (handleSyscallReward s msg blockAuthor blockReward) := by
  apply always_bind
  intro _
  apply always_bind
  intro _
  apply always_bind
  intro _
  apply always_bind
  intro _
  apply always_bind
  intro commissionAmount
  apply always_bind
  intro delReward
  apply always_bind
  intro rewards
  apply always_bind
  intro unclaimed
  apply always_bind
  intro s'
  exact always_ok rfl

/-- `handle_syscall_snapshot` costs its tabulated gas. -/
theorem uses_syscallSnapshot (s : Storage) (msg : Message) :
    Uses gas.syscallSnapshot (handleSyscallSnapshot s msg) := by
  apply always_bind
  intro _
  apply always_bind
  intro _
  apply always_bind
  intro _
  exact always_ok rfl

/-- `handle_syscall_on_epoch_change` costs its tabulated gas. -/
theorem uses_syscallOnEpochChange (s : Storage) (msg : Message) (epoch : Fin (2 ^ 64)) :
    Uses gas.syscallOnEpochChange (handleSyscallOnEpochChange s msg epoch) := by
  apply always_bind
  intro _
  apply always_bind
  intro _
  apply always_bind
  intro _
  exact always_ok rfl

/-- Whatever the handler answers has used the cost, and the gas limit covers it. -/
abbrev Funded (gasLimit cost : ℕ) : Except PrecompileError Answer → Prop :=
  Always fun answer => answer.gasUsed = cost ∧ cost ≤ gasLimit

/-- A handler on raw calldata has checked its gas. -/
theorem funded_onInput {A : Type} {gasLimit cost : ℕ} {call : Except PrecompileError A}
    {handler : A → Except PrecompileError Answer} (hhandler : ∀ args, Uses cost (handler args)) :
    Funded gasLimit cost (onInput gasLimit cost call handler) := by
  intro answer h
  obtain ⟨_, hgas, hrest⟩ := bind_eq_ok.mp h
  obtain ⟨args, -, hok⟩ := bind_eq_ok.mp hrest
  exact ⟨hhandler args answer hok, Nat.not_lt.mp (failIf_eq_ok.mp hgas)⟩

/-- So has a syscall. -/
theorem funded_onSyscallInput {A : Type} {msg : Message} {cost : ℕ}
    {call : Except PrecompileError A} {handler : A → Except PrecompileError Answer}
    (hhandler : ∀ args, Uses cost (handler args)) :
    Funded msg.gasLimit cost (onSyscallInput msg cost call handler) := by
  intro answer h
  obtain ⟨_, hgas, hrest⟩ := bind_eq_ok.mp h
  obtain ⟨_, -, hrest⟩ := bind_eq_ok.mp hrest
  obtain ⟨args, -, hok⟩ := bind_eq_ok.mp hrest
  exact ⟨hhandler args answer hok, Nat.not_lt.mp (failIf_eq_ok.mp hgas)⟩

/-- The snapshot has no arguments to decode. -/
theorem funded_syscallSnapshot (s : Storage) (msg : Message) :
    Funded msg.gasLimit gas.syscallSnapshot (handleSyscallSnapshot s msg) := by
  intro answer h
  obtain ⟨_, hgas, -⟩ := bind_eq_ok.mp h
  exact ⟨uses_syscallSnapshot s msg answer h, Nat.not_lt.mp (failIf_eq_ok.mp hgas)⟩

/-- The check of the value does not change the cost. -/
theorem funded_notPayable {msg : Message} {cost : ℕ} {answer : Except PrecompileError Answer}
    (h : Funded msg.gasLimit cost answer) : Funded msg.gasLimit cost (notPayable msg answer) := by
  apply always_bind
  intro _
  exact h

/-- Every write method is funded at its tabulated cost. -/
theorem writeHandler_funded {codec : Codec} {s : Storage} {msg : Message} {input : Bytes}
    {m : Method} {answer : Except PrecompileError Answer}
    (h : writeHandler codec s msg input m = some answer) : Funded msg.gasLimit m.cost answer := by
  cases m with
  | getEpoch | getProposerValId | getValidator | getWithdrawalRequest | getConsensusValidatorSet
  | getSnapshotValidatorSet | getExecutionValidatorSet | getDelegations | getDelegators => cases h
  | delegate =>
    cases h
    apply funded_onInput
    exact uses_delegate s msg
  | addValidator =>
    cases h
    apply funded_onInput
    exact uses_addValidator s msg
  | externalReward =>
    cases h
    apply funded_onInput
    exact uses_externalReward s msg
  | changeCommission =>
    cases h
    apply funded_notPayable
    apply funded_onInput
    rintro ⟨validatorId, commission⟩
    exact uses_changeCommission s msg validatorId commission
  | claimRewards =>
    cases h
    apply funded_notPayable
    apply funded_onInput
    exact uses_claimRewards s msg
  | undelegate =>
    cases h
    apply funded_notPayable
    apply funded_onInput
    rintro ⟨validatorId, amount, withdrawId⟩
    exact uses_undelegate s msg validatorId amount withdrawId
  | withdraw =>
    cases h
    apply funded_notPayable
    apply funded_onInput
    rintro ⟨validatorId, withdrawId⟩
    exact uses_withdraw s msg validatorId withdrawId
  | compound =>
    cases h
    apply funded_notPayable
    apply funded_onInput
    exact uses_compound s msg
  | getDelegator =>
    cases h
    apply funded_notPayable
    apply funded_onInput
    rintro ⟨validatorId, delegator⟩
    exact uses_getDelegatorWrite s msg validatorId delegator
  | syscallReward =>
    cases h
    apply funded_onSyscallInput
    intro blockAuthor
    exact uses_syscallReward s msg blockAuthor _
  | syscallSnapshot =>
    cases h
    apply funded_notPayable
    exact funded_syscallSnapshot s msg
  | syscallOnEpochChange =>
    cases h
    apply funded_notPayable
    apply funded_onSyscallInput
    exact uses_syscallOnEpochChange s msg

/-- The encoded answer charges the cost, and the gas limit covers it. -/
abbrev Charges (gasLimit cost : ℕ) : ViewAnswer → Prop :=
  Always fun answer => answer.1 = cost ∧ cost ≤ gasLimit

/-- Encoding the output of a write method keeps its charge. -/
theorem Funded.charges {codec : Codec} {gasLimit cost : ℕ}
    {answer : Except PrecompileError Answer} (h : Funded gasLimit cost answer) :
    Charges gasLimit cost (codec.answer answer) := by
  cases answer with
  | error e =>
    intro a ha
    cases ha
  | ok answer => exact always_ok (h answer rfl)

/-- A view charges what its gas check requires. -/
theorem charges_of_check {gasLimit cost : ℕ} {rest : Unit → ViewAnswer}
    (hrest : ∀ u, Always (fun answer => answer.1 = cost) (rest u)) :
    Charges gasLimit cost (failIf (gasLimit < cost) .outOfGas >>= rest) := by
  intro answer h
  obtain ⟨u, hgas, hok⟩ := bind_eq_ok.mp h
  exact ⟨hrest u answer hok, Nat.not_lt.mp (failIf_eq_ok.mp hgas)⟩

/-- Every view charges its tabulated cost. -/
theorem viewHandler_charges {codec : Codec} {s : Storage} {msg : Message} {input : Bytes}
    {m : Method} {answer : ViewAnswer} (h : viewHandler codec s msg input m = some answer) :
    Charges msg.gasLimit m.cost answer := by
  cases m with
  | addValidator | delegate | undelegate | withdraw | compound | claimRewards | changeCommission
  | externalReward | syscallOnEpochChange | syscallReward | syscallSnapshot => cases h
  | getEpoch | getProposerValId =>
    cases h
    apply always_bind
    intro _
    apply charges_of_check
    intro _
    exact always_ok rfl
  | getValidator | getDelegator | getWithdrawalRequest =>
    cases h
    apply always_bind
    intro _
    apply charges_of_check
    intro _
    apply always_bind
    intro args
    exact always_ok rfl
  | getConsensusValidatorSet | getSnapshotValidatorSet | getExecutionValidatorSet
  | getDelegations | getDelegators =>
    cases h
    apply always_bind
    intro _
    apply charges_of_check
    intro _
    apply always_bind
    intro args answer h
    -- the decoded getter answers with the cost it checked
    obtain ⟨⟨gasCost, page⟩, hpage, hanswer⟩ := bind_eq_ok.mp h
    obtain ⟨_, -, hpage⟩ := bind_eq_ok.mp hpage
    cases hpage
    cases hanswer
    rfl

/-- A result within the law: the meter never shows more than the limit, a return has spent the
cost, and a revert everything. -/
structure Lawful (gasLimit cost : ℕ) (r : InterpreterResult) : Prop where
  limit : r.gas.limit = gasLimit
  remaining : r.gas.remaining ≤ gasLimit
  returned : r.result = .return → r.gas.spent = cost ∧ cost ≤ gasLimit
  reverted : r.result = .revert → r.gas.remaining = 0

/-- Converting an answer that charges the cost gives a result within the law. -/
theorem convertResult_lawful {codec : Codec} {gasLimit cost : ℕ} {answer : ViewAnswer}
    (h : Charges gasLimit cost answer) :
    Lawful gasLimit cost (convertResult codec gasLimit answer) := by
  cases answer with
  | error e =>
    refine ⟨rfl, Nat.zero_le _, ?_, ?_⟩
    · intro hresult
      rw [convertResult] at hresult
      split at hresult <;> cases hresult
    · intro _
      rfl
  | ok answer =>
    obtain ⟨gasUsed, output⟩ := answer
    obtain ⟨rfl, hcost⟩ : gasUsed = cost ∧ cost ≤ gasLimit := h _ rfl
    rw [convertResult, Gas.recordCost_of_le hcost]
    refine ⟨rfl, Nat.sub_le _ _, ?_, ?_⟩
    · intro _
      exact ⟨Nat.sub_sub_self hcost, hcost⟩
    · intro hresult
      cases hresult

/-- The fallback is within the law whatever the cost: it never returns. -/
theorem fallbackResult_lawful (gasLimit cost : ℕ) :
    Lawful gasLimit cost (fallbackResult gasLimit) := by
  rw [fallbackResult]
  split
  · refine ⟨rfl, le_rfl, ?_, ?_⟩
    · intro hresult
      cases hresult
    · intro hresult
      cases hresult
  · refine ⟨rfl, Nat.zero_le _, ?_, ?_⟩
    · intro hresult
      cases hresult
    · intro _
      rfl

/-- The cost of calldata: that of its method, or of the fallback. -/
def callCost (input : Bytes) : ℕ := ((methodOf input).map Method.cost).getD fallbackGas

/-- The gas law of one call. -/
structure GasLaw (s : Storage) (inputs : CallInputs) (outcome : InterpreterResult × Storage) :
    Prop where
  spent : outcome.1.gas.limit = inputs.gasLimit ∧ outcome.1.gas.remaining ≤ inputs.gasLimit
  returned : outcome.1.result = .return →
    ∃ m, methodOf inputs.input = some m ∧ outcome.1.gas.spent = m.cost
  reverted : outcome.1.result = .revert → outcome.1.gas.remaining = 0
  unfunded : inputs.gasLimit < callCost inputs.input → outcome.2 = s

/-- A result within the law, with a state that a call below the cost does not change, is the gas
law. -/
theorem Lawful.gasLaw {s : Storage} {inputs : CallInputs} {m : Method} {r : InterpreterResult}
    {s' : Storage} (hm : methodOf inputs.input = some m) (h : Lawful inputs.gasLimit m.cost r)
    (hstate : r.result ≠ .return → s' = s) : GasLaw s inputs (r, s') := by
  refine ⟨⟨h.limit, h.remaining⟩, ?_, h.reverted, ?_⟩
  · intro hresult
    exact ⟨m, hm, (h.returned hresult).1⟩
  · intro hgas
    apply hstate
    intro hresult
    rw [callCost, hm] at hgas
    exact absurd (h.returned hresult).2 (Nat.not_le.mpr hgas)

/-- The fallback is within the law of any call. -/
theorem fallbackResult_gasLaw (s : Storage) (inputs : CallInputs) :
    GasLaw s inputs (fallbackResult inputs.gasLimit, s) := by
  have hlawful := fallbackResult_lawful inputs.gasLimit fallbackGas
  refine ⟨⟨hlawful.limit, hlawful.remaining⟩, ?_, hlawful.reverted, ?_⟩
  · intro hresult
    rw [fallbackResult] at hresult
    split at hresult <;> cases hresult
  · intro _
    rfl

/-- Every call that is routed to a write method is within the law. -/
theorem runStakingWriteInput_gasLaw {codec : Codec} {s : Storage} {inputs : CallInputs}
    {m : Method} (hm : methodOf inputs.input = some m) :
    GasLaw s inputs (runStakingWriteInput codec s inputs.toMessage inputs.input) := by
  rw [runStakingWriteInput, hm, Option.bind_some]
  cases hanswer : writeHandler codec s inputs.toMessage inputs.input m with
  | none =>
    apply (fallbackResult_lawful inputs.gasLimit m.cost).gasLaw hm
    intro _
    rfl
  | some answer =>
    apply (convertResult_lawful (writeHandler_funded hanswer).charges).gasLaw hm
    intro hresult
    cases answer with
    | error e => rfl
    | ok answer => exact if_neg hresult

/-- Every call that is routed to a view is within the law. -/
theorem viewHandler_gasLaw {codec : Codec} {s : Storage} {inputs : CallInputs} {m : Method}
    {answer : ViewAnswer} (hm : methodOf inputs.input = some m)
    (hanswer : viewHandler codec s inputs.toMessage inputs.input m = some answer) :
    GasLaw s inputs (convertResult codec inputs.gasLimit answer, s) := by
  apply (convertResult_lawful (viewHandler_charges hanswer)).gasLaw hm
  intro _
  rfl

/-- The gas law holds of a call to the staking address exactly if the call is a plain one, or has
no gas. -/
theorem gas_law_iff (codec : Codec) (s : Storage) (inputs : CallInputs)
    (haddr : inputs.bytecodeAddress = stakingAddress) :
    ∃ outcome, runStakingPrecompile codec s inputs = some outcome ∧
      (GasLaw s inputs outcome ↔
        inputs.scheme = .call ∧ inputs.isStatic = false ∨ inputs.gasLimit = 0) := by
  rw [runStakingPrecompile, if_neg (not_not.mpr haddr)]
  by_cases hreject : inputs.scheme ≠ .call ∨ inputs.isStatic
  · rw [if_pos hreject]
    refine ⟨_, rfl, ?_⟩
    constructor
    · intro hlaw
      exact .inr (hlaw.reverted rfl)
    · rintro (⟨hscheme, hstatic⟩ | hgas)
      · rcases hreject with h | h
        · exact absurd hscheme h
        · rw [hstatic] at h
          cases h
      · refine ⟨⟨rfl, le_rfl⟩, ?_, ?_, ?_⟩
        · intro hresult
          cases hresult
        · intro _
          exact hgas
        · intro _
          rfl
  · rw [if_neg hreject]
    obtain ⟨hscheme, hstatic⟩ := not_or.mp hreject
    have hplain : inputs.scheme = .call ∧ inputs.isStatic = false ∨ inputs.gasLimit = 0 :=
      .inl ⟨not_not.mp hscheme, Bool.eq_false_of_not_eq_true hstatic⟩
    cases hm : methodOf inputs.input with
    | none =>
      refine ⟨_, rfl, ?_⟩
      rw [iff_true_right hplain]
      exact fallbackResult_gasLaw s inputs
    | some m =>
      dsimp only
      split
      · refine ⟨_, rfl, ?_⟩
        rw [iff_true_right hplain]
        exact runStakingWriteInput_gasLaw hm
      · split
        next hnone =>
          refine ⟨_, rfl, ?_⟩
          rw [iff_true_right hplain]
          apply (fallbackResult_lawful inputs.gasLimit m.cost).gasLaw hm
          intro _
          rfl
        next answer hanswer =>
          refine ⟨_, rfl, ?_⟩
          rw [iff_true_right hplain]
          exact viewHandler_gasLaw hm hanswer

/-- A plain call of `getEpoch` is within the law. -/
theorem gas_law_epochCall : ∃ outcome,
    runStakingPrecompile wordCodec .empty (epochCall .call false) = some outcome ∧
      GasLaw .empty (epochCall .call false) outcome := by
  obtain ⟨outcome, hrun, hiff⟩ := gas_law_iff wordCodec .empty (epochCall .call false) rfl
  exact ⟨outcome, hrun, hiff.mpr (.inl ⟨rfl, rfl⟩)⟩

/-- A static call of it reverts with all its gas left. -/
theorem rejected_call_keeps_gas : ∃ outcome,
    runStakingPrecompile wordCodec .empty (epochCall .staticCall true) = some outcome ∧
      outcome.1.result = .revert ∧ outcome.1.gas.remaining = 100000 ∧
      ¬GasLaw .empty (epochCall .staticCall true) outcome := by
  refine ⟨(⟨.revert, .new 100000, []⟩, .empty), rfl, rfl, rfl, ?_⟩
  intro hlaw
  have hremaining : (Gas.new 100000).remaining = 0 := hlaw.reverted rfl
  cases hremaining

end SuwappuRevm.Staking
