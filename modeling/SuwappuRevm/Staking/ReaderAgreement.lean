import SuwappuRevm.Staking.Reader
import SuwappuRevm.Staking.SettlementSpec

/-!
# When the two entry points agree

The reader and the precompile give the same result for every getter, except that the reader
answers `getDelegator` with the record as it is stored. The answers of a reachable state differ
exactly where settling the record would change it.
-/

namespace SuwappuRevm.Staking

open Foundations

section Idle

variable {s : Storage} {v : ValId} {d : Address}

/-- Settling the record would not change it: no track is due and no reward has accrued. -/
structure Storage.NothingToSettle (s : Storage) (v : ValId) (d : Address) : Prop where
  unpromoted : ¬((s.delegators v d).deltaEpoch = 0 ∧
    (s.delegators v d).nextDeltaEpoch ≤ u64Add s.epoch 1 ∧ (s.delegators v d).nextDeltaEpoch ≠ 0)
  delta : isEpochActive s.epoch (s.delegators v d).deltaEpoch = false
  next : isEpochActive s.epoch (s.delegators v d).nextDeltaEpoch = false
  accrued : (s.delegators v d).stake = 0 ∨ (s.delegators v d).accumulatedRewardPerToken =
    (s.validators v).accumulatedRewardPerToken

/-- Accruing against the accumulator that the record holds leaves the record. -/
theorem accrueActive_of_current {x : Settling} (hfits : x.del.rewards < wordBound)
    (h : x.del.stake = 0 ∨
      x.del.accumulatedRewardPerToken = (x.storage.validators v).accumulatedRewardPerToken) :
    ∃ y, accrueActive v d x = .ok y ∧ y.del = x.del := by
  by_cases hstake : x.del.stake = 0
  · rw [accrueActive, if_pos hstake]
    exact ⟨x, rfl, rfl⟩
  · have hacc : (x.storage.pool v).acc = x.del.accumulatedRewardPerToken :=
      (h.resolve_left hstake).symm
    have hshare : rewardShare x.del.stake (x.storage.pool v).acc
        x.del.accumulatedRewardPerToken = 0 := by
      rw [hacc]
      simp [rewardShare]
    refine ⟨_, (accrueActive_eq_ok hstake).mpr ⟨hacc.ge, ?_, ?_, ?_, rfl⟩, ?_⟩
    · rw [hacc, Nat.sub_self, Nat.zero_mul]
      exact wordBound_pos
    · rw [hshare]
      exact Nat.zero_le _
    · rw [hshare]
      exact hfits
    · rw [hshare, hacc]
      rfl

/-- A settlement with nothing to settle returns the stored record. -/
theorem pull_of_nothingToSettle (hfits : (s.delegators v d).rewards < wordBound)
    (h : s.NothingToSettle v d) :
    ∃ s', pullDelegatorUpToDate s v d = .ok (s.delegators v d, s') := by
  have hpromote : promoteNext s.epoch (s.delegators v d) = s.delegators v d :=
    if_neg h.unpromoted
  obtain ⟨x, hx, hdel⟩ : ∃ x, accrueActive v d ⟨s, s.delegators v d,
      (s.validators v).unclaimedRewards⟩ = .ok x ∧ x.del = s.delegators v d :=
    accrueActive_of_current hfits h.accrued
  refine ⟨(x.storage.writeValidatorUnclaimedRewards v x.unclaimedRewards).writeDelegator v d x.del,
    ?_⟩
  simp only [pullDelegatorUpToDate, bind_eq_ok, pure_eq_ok, hpromote, h.next, h.delta]
  exact ⟨_, rfl, _, rfl, x, hx, by rw [hdel]⟩

/-- The epochs after a compounding: the next track takes the place of the first. -/
theorem compoundIf_epochs {can : Bool} {x y : Settling} (h : compoundIf can v d x = .ok y) :
    (can = false ∧ y = x) ∨
      (can = true ∧ y.del.deltaEpoch = x.del.nextDeltaEpoch ∧ y.del.nextDeltaEpoch = 0) := by
  cases can with
  | false =>
    cases h
    exact .inl ⟨rfl, rfl⟩
  | true =>
    obtain ⟨-, -, -, -, -, rfl⟩ := compoundTrack_eq_ok.mp h
    exact .inr ⟨rfl, rfl, rfl⟩

/-- Accruing keeps the epochs and the stake, and brings a staked record to the accumulator. -/
theorem accrueActive_current {x y : Settling} (h : accrueActive v d x = .ok y) :
    y.del.deltaEpoch = x.del.deltaEpoch ∧ y.del.nextDeltaEpoch = x.del.nextDeltaEpoch ∧
      (y.del.stake = 0 ∨
        y.del.accumulatedRewardPerToken = (x.storage.validators v).accumulatedRewardPerToken) := by
  by_cases hstake : x.del.stake = 0
  · rw [accrueActive, if_pos hstake] at h
    cases h
    exact ⟨rfl, rfl, .inl hstake⟩
  · obtain ⟨-, -, -, -, rfl⟩ := (accrueActive_eq_ok hstake).mp h
    exact ⟨rfl, rfl, .inr rfl⟩

/-- The epochs that promotion and compounding leave unchanged are those with nothing due. -/
theorem nothingDue_of_epochs {cur : ℕ} {r : Delegator} {x x₁ x₂ : Settling}
    (hstart : x.del = promoteNext cur r)
    (h₁ : compoundIf (isEpochActive cur (promoteNext cur r).nextDeltaEpoch) v d x = .ok x₁)
    (h₂ : compoundIf (isEpochActive cur (promoteNext cur r).deltaEpoch) v d x₁ = .ok x₂)
    (hdelta : x₂.del.deltaEpoch = r.deltaEpoch) (hnext : x₂.del.nextDeltaEpoch = r.nextDeltaEpoch) :
    ¬(r.deltaEpoch = 0 ∧ r.nextDeltaEpoch ≤ u64Add cur 1 ∧ r.nextDeltaEpoch ≠ 0) ∧
      isEpochActive cur r.deltaEpoch = false ∧ isEpochActive cur r.nextDeltaEpoch = false ∧
      x₂ = x := by
  by_cases hpromote : r.deltaEpoch = 0 ∧ r.nextDeltaEpoch ≤ u64Add cur 1 ∧ r.nextDeltaEpoch ≠ 0
  · -- a promoted record has no next track, and no step gives it one back
    have hpromoted : (promoteNext cur r).nextDeltaEpoch = 0 := by
      rw [promoteNext, if_pos hpromote]
    have hfirst : x₁ = x := by
      rcases compoundIf_epochs h₁ with ⟨-, hsame⟩ | ⟨hactive, -⟩
      · exact hsame
      · exact absurd hpromoted (isEpochActive_iff.mp hactive).1
    have hzero : x₂.del.nextDeltaEpoch = 0 := by
      rcases compoundIf_epochs h₂ with ⟨-, hsame⟩ | ⟨-, -, hzero⟩
      · rw [hsame, hfirst, hstart, hpromoted]
      · exact hzero
    exact absurd (hnext.symm.trans hzero) hpromote.2.2
  · have hkept : promoteNext cur r = r := if_neg hpromote
    rw [hkept] at hstart h₁ h₂
    have hzero_of : isEpochActive cur r.nextDeltaEpoch = true → x₂.del.nextDeltaEpoch ≠ 0 := by
      intro hactive
      rw [hnext]
      exact (isEpochActive_iff.mp hactive).1
    rcases compoundIf_epochs h₁ with ⟨hboundary, hsame⟩ | ⟨hboundary, -, hshift⟩
    · rcases compoundIf_epochs h₂ with ⟨hactive, hsame'⟩ | ⟨hactive, hshift, hzero⟩
      · exact ⟨hpromote, hactive, hboundary, hsame'.trans hsame⟩
      · -- the first track would have become the next one, which is empty
        rw [hsame, hstart, ← hnext, hzero, hdelta] at hshift
        exact absurd hshift (isEpochActive_iff.mp hactive).1
    · exfalso
      rcases compoundIf_epochs h₂ with ⟨-, hsame⟩ | ⟨-, -, hzero⟩
      · rw [hsame] at hzero_of
        exact hzero_of hboundary hshift
      · exact hzero_of hboundary hzero

/-- A settlement that returns the stored record had nothing to settle. -/
theorem nothingToSettle_of_pull {s' : Storage}
    (h : pullDelegatorUpToDate s v d = .ok (s.delegators v d, s')) : s.NothingToSettle v d := by
  simp only [pullDelegatorUpToDate, bind_eq_ok, pure_eq_ok, Prod.mk.injEq] at h
  obtain ⟨x₁, h₁, x₂, h₂, x₃, h₃, hdel, -⟩ := h
  obtain ⟨hdelta, hnext, hacc⟩ := accrueActive_current h₃
  rw [hdel] at hdelta hnext hacc
  obtain ⟨hunpromoted, hfirst, hsecond, hsame⟩ :=
    nothingDue_of_epochs rfl h₁ h₂ hdelta.symm hnext.symm
  rw [hsame] at hacc
  exact ⟨hunpromoted, hfirst, hsecond, hacc⟩

/-- A settlement of a state in range returns the stored record exactly if nothing is to settle. -/
theorem pull_unchanged_iff (hs : Ranged s) :
    (∃ s', pullDelegatorUpToDate s v d = .ok (s.delegators v d, s')) ↔
      s.NothingToSettle v d := by
  constructor
  · rintro ⟨s', h⟩
    exact nothingToSettle_of_pull h
  · exact pull_of_nothingToSettle ((hs v).delegators d).rewards

end Idle

section Results

/-- Two results with the same status, the same remaining gas and the same output. -/
structure Alike (r r' : InterpreterResult) : Prop where
  result : r.result = r'.result
  remaining : r.gas.remaining = r'.gas.remaining
  output : r.output = r'.output

/-- A result is like itself. -/
theorem Alike.refl (r : InterpreterResult) : Alike r r := ⟨rfl, rfl, rfl⟩

/-- The view methods of the interface. -/
def Method.isView : Method → Bool
  | .getEpoch | .getProposerValId | .getValidator | .getDelegator | .getWithdrawalRequest
  | .getConsensusValidatorSet | .getSnapshotValidatorSet | .getExecutionValidatorSet
  | .getDelegations | .getDelegators => true
  | _ => false

/-- Encoding the answer of a write method commutes with what comes before it. -/
theorem Codec.answer_bind (codec : Codec) {A : Type} (x : Except PrecompileError A)
    (rest : A → Except PrecompileError Answer) :
    codec.answer (x >>= rest) = x >>= fun a => codec.answer (rest a) := by
  cases x with
  | error e => rfl
  | ok a => rfl

/-- Two getters behind the same checks and the same decoding give like results exactly if their
answers do once those pass. -/
theorem alike_onInput_iff {codec : Codec} {A : Type} {gasLimit cost callValue : ℕ}
    {call : Except PrecompileError A} {handler handler' : A → ViewAnswer} :
    Alike (convertResult codec gasLimit (viewNotPayable callValue
        (onInput gasLimit cost call handler)))
      (convertResult codec gasLimit (viewNotPayable callValue
        (onInput gasLimit cost call handler'))) ↔
      ∀ args, callValue = 0 → cost ≤ gasLimit → call = .ok args →
        Alike (convertResult codec gasLimit (handler args))
          (convertResult codec gasLimit (handler' args)) := by
  unfold viewNotPayable onInput
  by_cases hvalue : callValue = 0
  · by_cases hgas : cost ≤ gasLimit
    · rw [failIf_of_not (not_not.mpr hvalue), failIf_of_not (Nat.not_lt.mpr hgas)]
      cases call with
      | error e =>
        constructor
        · intro _ args _ _ hcall
          cases hcall
        · intro _
          exact .refl _
      | ok args =>
        constructor
        · intro halike args' _ _ hcall
          cases hcall
          exact halike
        · intro halike
          exact halike args hvalue hgas rfl
    · rw [failIf_of (Nat.not_le.mp hgas)]
      constructor
      · intro _ args _ hle _
        exact absurd hle hgas
      · intro _
        exact .refl _
  · rw [failIf_of hvalue]
    constructor
    · intro _ args hzero _ _
      exact absurd hzero hvalue
    · intro _
      exact .refl _

/-- Encoding the answer behind the checks encodes what the handler answers. -/
theorem Codec.answer_onInput (codec : Codec) (msg : Message) {A : Type} (cost : ℕ)
    (call : Except PrecompileError A) (handler : A → Except PrecompileError Answer) :
    codec.answer (notPayable msg (onInput msg.gasLimit cost call handler)) =
      viewNotPayable msg.callValue (onInput msg.gasLimit cost call
        fun args => codec.answer (handler args)) := by
  unfold notPayable viewNotPayable onInput
  simp only [Codec.answer_bind]

/-- The encoding of records loses nothing. -/
def Codec.Faithful (codec : Codec) : Prop :=
  ∀ r r' : Delegator, r.Fits → r'.Fits → codec.encodeDelegator r = codec.encodeDelegator r' → r = r'

/-- An answer that the gas limit covers is returned with its output. -/
theorem convertResult_ok (codec : Codec) {gasLimit cost : ℕ} (h : cost ≤ gasLimit)
    (output : Bytes) :
    convertResult codec gasLimit (.ok (cost, output)) =
      ⟨.return, { Gas.new gasLimit with remaining := gasLimit - cost }, output⟩ := by
  have hle : cost ≤ (Gas.new gasLimit).remaining := h
  rw [convertResult, Gas.recordCost_of_le hle]
  rfl

/-- An error is never returned. -/
theorem convertResult_error_result (codec : Codec) (gasLimit : ℕ) (e : PrecompileError) :
    (convertResult codec gasLimit (.error e)).result ≠ .return := by
  rw [convertResult]
  split
  · simp
  · simp

/-- Past the checks, `getDelegator` answers through the reader as through the context exactly if
the record has nothing to settle. -/
theorem getDelegator_alike_iff {codec : Codec} (hcodec : codec.Faithful) {s : Storage}
    (hs : Ranged s) {msg : Message} (hgas : gas.getDelegator ≤ msg.gasLimit) (v : ValId)
    (d : Address) :
    Alike (convertResult codec msg.gasLimit (codec.answer (handleGetDelegatorWrite s msg v d)))
      (convertResult codec msg.gasLimit
        (.ok (gas.getDelegator, codec.encodeDelegator (s.delegators v d)))) ↔
      s.NothingToSettle v d := by
  rw [← pull_unchanged_iff hs, handleGetDelegatorWrite, failIf_of_not (Nat.not_lt.mpr hgas),
    convertResult_ok codec hgas]
  cases hpull : pullDelegatorUpToDate s v d with
  | error e =>
    constructor
    · intro halike
      exact absurd halike.result (convertResult_error_result codec msg.gasLimit e)
    · rintro ⟨s', hs'⟩
      cases hs'
  | ok result =>
    obtain ⟨del, s'⟩ := result
    have hanswer : codec.answer (.ok ⟨s', gas.getDelegator, .delegator del⟩) =
        .ok (gas.getDelegator, codec.encodeDelegator del) := rfl
    change Alike (convertResult codec msg.gasLimit
      (codec.answer (.ok ⟨s', gas.getDelegator, .delegator del⟩))) _ ↔ _
    rw [hanswer, convertResult_ok codec hgas]
    obtain ⟨hdel, -⟩ := pullDelegatorUpToDate_fits hs v d _ hpull
    constructor
    · intro halike
      have hsame : del = s.delegators v d :=
        hcodec del _ hdel ((hs v).delegators d) halike.output
      exact ⟨s', by rw [hsame]⟩
    · rintro ⟨s'', hs''⟩
      cases hs''
      exact .refl _

/-- Only `getDelegator` is both a view and routed as a write. -/
theorem Method.isWrite_of_isView {m : Method} (h : m.isView = true) (hm : m ≠ .getDelegator) :
    m.isWrite = false := by
  cases m with
  | getDelegator => exact absurd rfl hm
  | getEpoch | getProposerValId | getValidator | getWithdrawalRequest | getConsensusValidatorSet
  | getSnapshotValidatorSet | getExecutionValidatorSet | getDelegations | getDelegators => rfl
  | addValidator | delegate | undelegate | withdraw | compound | claimRewards | changeCommission
  | externalReward | syscallOnEpochChange | syscallReward | syscallSnapshot => cases h

/-- A view method has a handler, and it does not read the balance. -/
theorem viewHandler_credit (codec : Codec) (s : Storage) (msg : Message) (input : Bytes)
    (amount : ℕ) {m : Method} (h : m.isView = true) :
    ∃ answer, viewHandler codec (s.credit amount) msg input m = some answer ∧
      viewHandler codec s msg input m = some answer := by
  cases m with
  | getEpoch | getProposerValId | getValidator | getDelegator | getWithdrawalRequest
  | getConsensusValidatorSet | getSnapshotValidatorSet | getExecutionValidatorSet
  | getDelegations | getDelegators => exact ⟨_, rfl, rfl⟩
  | addValidator | delegate | undelegate | withdraw | compound | claimRewards | changeCommission
  | externalReward | syscallOnEpochChange | syscallReward | syscallSnapshot => cases h

/-- The reader and a plain call answer every getter of a reachable state alike, except for
`getDelegator` exactly when it reaches a record with something to settle. -/
theorem getters_alike_iff {guard : Storage → Message × StakingCall → Storage → Prop} {s : Storage}
    {codec : Codec} (hcodec : codec.Faithful) (hs : Reachable stakingStep guard .empty s)
    (inputs : CallInputs) (haddr : inputs.bytecodeAddress = stakingAddress)
    (hplain : inputs.scheme = .call ∧ inputs.isStatic = false)
    (hview : ∀ m, methodOf inputs.input = some m → m.isView = true) :
    ∃ outcome, runStakingPrecompile codec (s.credit inputs.callValue) inputs = some outcome ∧
      (Alike outcome.1
          (runStakingWithReader codec s inputs.input inputs.gasLimit inputs.callValue) ↔
        ∀ args, methodOf inputs.input = some .getDelegator → inputs.callValue = 0 →
          gas.getDelegator ≤ inputs.gasLimit →
          codec.call .getDelegator inputs.input = .ok args →
          s.NothingToSettle args.1 args.2) := by
  have hreject : ¬(inputs.scheme ≠ .call ∨ inputs.isStatic) := by
    simp [hplain.1, hplain.2]
  rw [runStakingPrecompile, if_neg (not_not.mpr haddr), if_neg hreject, runStakingWithReader]
  cases hm : methodOf inputs.input with
  | none =>
    refine ⟨_, rfl, ?_⟩
    constructor
    · intro _ args hmethod
      cases hmethod
    · intro _
      exact .refl _
  | some m =>
    rw [Option.bind_some, readerHandler_eq codec s inputs.input inputs.toMessage m]
    by_cases hdel : m = .getDelegator
    · subst hdel
      refine ⟨_, rfl, ?_⟩
      have hranged : Ranged (s.credit inputs.callValue) := by
        have hs' := reachable_ranged hs
        exact hs'
      have hidle_iff (v : ValId) (d : Address) :
          (s.credit inputs.callValue).NothingToSettle v d ↔ s.NothingToSettle v d := by
        constructor
        · intro h
          exact ⟨h.unpromoted, h.delta, h.next, h.accrued⟩
        · intro h
          exact ⟨h.unpromoted, h.delta, h.next, h.accrued⟩
      have hwrite : (runStakingWriteInput codec (s.credit inputs.callValue) inputs.toMessage
          inputs.input).1 = convertResult codec inputs.gasLimit (viewNotPayable inputs.callValue
            (onInput inputs.gasLimit gas.getDelegator (codec.call .getDelegator inputs.input)
              fun args => codec.answer (handleGetDelegatorWrite (s.credit inputs.callValue)
                inputs.toMessage args.1 args.2))) := by
        rw [← Codec.answer_onInput, runStakingWriteInput, hm]
        rfl
      rw [hwrite]
      change Alike _ (convertResult codec inputs.gasLimit (viewNotPayable inputs.callValue
        (onInput inputs.gasLimit gas.getDelegator (codec.call .getDelegator inputs.input)
          fun args => .ok (gas.getDelegator,
            codec.encodeDelegator (s.delegators args.1 args.2))))) ↔ _
      rw [alike_onInput_iff]
      constructor
      · intro halike args _ hvalue hgas hcall
        apply (hidle_iff _ _).mp
        apply (getDelegator_alike_iff hcodec hranged hgas args.1 args.2).mp
        exact halike args hvalue hgas hcall
      · intro hidle args hvalue hgas hcall
        apply (getDelegator_alike_iff hcodec hranged hgas args.1 args.2).mpr
        apply (hidle_iff _ _).mpr
        exact hidle args rfl hvalue hgas hcall
    · obtain ⟨answer, hcredit, hanswer⟩ :=
        viewHandler_credit codec s inputs.toMessage inputs.input inputs.callValue (hview m hm)
      simp only [Method.isWrite_of_isView (hview m hm) hdel, hcredit, hanswer]
      refine ⟨_, rfl, ?_⟩
      constructor
      · intro _ args hmethod
        cases hmethod
        exact absurd rfl hdel
      · intro _
        exact .refl _

end Results

section Sample

/-- Words in a row determine the words. -/
theorem abiWords_inj {words words' : List ℕ} (hlength : words.length = words'.length)
    (hfits : ∀ w ∈ words, w < wordBound) (hfits' : ∀ w ∈ words', w < wordBound)
    (h : abiWords words = abiWords words') : words = words' := by
  induction words generalizing words' with
  | nil => exact (List.length_eq_zero_iff.mp hlength.symm).symm
  | cons w words ih =>
    cases words' with
    | nil => cases hlength
    | cons w' words' =>
      rw [List.forall_mem_cons] at hfits hfits'
      have hlengths : (beBytes 32 w).length = (beBytes 32 w').length := by simp
      have happend : beBytes 32 w ++ abiWords words = beBytes 32 w' ++ abiWords words' := h
      obtain ⟨hhead, htail⟩ := List.append_inj happend hlengths
      have hwidth : 256 ^ 32 = wordBound := by norm_num [wordBound]
      have hword : w = w' := by
        have hdecode := congrArg beNat hhead
        rw [beNat_beBytes, beNat_beBytes, hwidth, Nat.mod_eq_of_lt hfits.1,
          Nat.mod_eq_of_lt hfits'.1] at hdecode
        exact hdecode
      rw [hword, ih (Nat.succ.inj hlength) hfits.2 hfits'.2 htail]

/-- The words of a record. -/
def Delegator.words (r : Delegator) : List ℕ :=
  [r.stake, r.accumulatedRewardPerToken, r.rewards, r.deltaStake, r.nextDeltaStake, r.deltaEpoch,
    r.nextDeltaEpoch]

/-- The words of a record in range are in range. -/
theorem Delegator.Fits.words {r : Delegator} (h : r.Fits) : ∀ w ∈ r.words, w < wordBound := by
  have hbound : 2 ^ 64 < wordBound := by decide +kernel
  intro w hw
  simp only [Delegator.words, List.mem_cons, List.not_mem_nil, or_false] at hw
  rcases hw with rfl | rfl | rfl | rfl | rfl | rfl | rfl
  · exact h.stake
  · exact h.acc
  · exact h.rewards
  · exact h.deltaStake
  · exact h.nextDeltaStake
  · exact h.deltaEpoch.trans hbound
  · exact h.nextDeltaEpoch.trans hbound

/-- The codec of the interface encodes records faithfully. -/
theorem wordCodec_faithful : wordCodec.Faithful := by
  intro r r' hr hr' h
  have hencode (r : Delegator) : wordCodec.encodeDelegator r = abiWords r.words := by
    rw [Delegator.words, wordCodec]
  have hencoded : abiWords r.words = abiWords r'.words := by
    rw [← hencode, ← hencode]
    exact h
  have hlength : r.words.length = r'.words.length := rfl
  have hwords := abiWords_inj hlength hr.words hr'.words hencoded
  obtain ⟨stake, acc, rewards, deltaStake, nextDeltaStake, deltaEpoch, nextDeltaEpoch⟩ := r
  simp only [Delegator.words, List.cons.injEq] at hwords
  obtain ⟨rfl, rfl, rfl, rfl, rfl, rfl, rfl, -⟩ := hwords
  rfl

/-- A plain call of `getDelegator` at validator `1`, with its cost as gas. -/
def delegatorCall (delegator : ℕ) : CallInputs where
  toMessage := ⟨7, gas.getDelegator, 0, 0, opener_ne_staking⟩
  bytecodeAddress := stakingAddress
  scheme := .call
  isStatic := false
  input := beBytes 4 0x573c1ce0 ++ abiWords [1, delegator]

/-- The opening calls, and somebody has the record of the opener settled. -/
def settlingCalls : List (Message × StakingCall) :=
  openingCalls ++ [(userMessage 9 0 payer_ne_staking, .getDelegator 1 7)]

/-- The state after them. -/
abbrev settledState : Storage := stateAt stakingStep .empty settlingCalls 7

/-- For the opener, whose record has been settled, the two entry points answer alike. -/
theorem getters_alike_delegatorCall :
    (settledState.delegators 1 7).stake = activeValidatorStake ∧
    ∃ outcome, runStakingPrecompile wordCodec (settledState.credit 0) (delegatorCall 7) =
        some outcome ∧
      Alike outcome.1 (runStakingWithReader wordCodec settledState (delegatorCall 7).input
        gas.getDelegator 0) := by
  have hview : ∀ m, methodOf (delegatorCall 7).input = some m → m.isView = true := by
    have hmethod : methodOf (delegatorCall 7).input = some .getDelegator := by decide +kernel
    intro m hm
    rw [hmethod] at hm
    cases hm
    rfl
  have hreach := stateAt_reachable stakingStep .empty settlingCalls 7
  obtain ⟨outcome, hrun, hiff⟩ := getters_alike_iff wordCodec_faithful hreach
    (delegatorCall 7) rfl ⟨rfl, rfl⟩ hview
  refine ⟨by decide +kernel, outcome, hrun, hiff.mpr ?_⟩
  intro args _ _ _ hcall
  have hargs : wordCodec.call .getDelegator (delegatorCall 7).input = .ok (1, 7) := by rfl
  cases hargs.symm.trans hcall
  exact ⟨by decide +kernel, by decide +kernel, by decide +kernel, .inr (by decide +kernel)⟩

/-- For the opener of the validator, whose delegation has become active, they do not. -/
theorem opener_answers_differ : Reachable stakingStep (fun _ _ _ => True) .empty openedState ∧
    ∃ outcome, runStakingPrecompile wordCodec (openedState.credit 0) (delegatorCall 7) =
        some outcome ∧
      ¬Alike outcome.1 (runStakingWithReader wordCodec openedState (delegatorCall 7).input
        gas.getDelegator 0) := by
  refine ⟨openedState_reachable, runStakingWriteInput wordCodec (openedState.credit 0)
    (delegatorCall 7).toMessage (delegatorCall 7).input, rfl, ?_⟩
  intro halike
  have hdiffer : (runStakingWriteInput wordCodec (openedState.credit 0)
      (delegatorCall 7).toMessage (delegatorCall 7).input).1.output ≠
      (runStakingWithReader wordCodec openedState (delegatorCall 7).input
        gas.getDelegator 0).output := by decide +kernel
  exact hdiffer halike.output

end Sample

end SuwappuRevm.Staking
