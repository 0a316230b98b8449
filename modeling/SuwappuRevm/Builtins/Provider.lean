import SuwappuRevm.Builtins.Repriced
import SuwappuRevm.Reserve.Precompile
import SuwappuRevm.Staking.Calldata

/-!
# The precompile provider

`MonadPrecompiles` puts the staking and the reserve-balance precompiles before the table of the EVM
library, whose entries it overrides with repriced ones, and is rebuilt when the hardfork changes.
The library's own tables are a parameter.
-/

namespace SuwappuRevm.Builtins

open Foundations
open Contracts (suwappuMldsa65VerifyRun suwappuBlake3Run)
open Reserve (MonadJournal reserveBalanceAddress runReserveBalancePrecompile)
open Staking (CallInputs Codec InterpreterResult Storage stakingAddress stakingFrame stakingStep)

section Tables

/-- `Precompile`: its address and what it runs. -/
structure Precompile where
  address : Address
  run : Bytes → ℕ → PrecompileResult

/-- `Precompiles`: the precompile of each address, and the addresses that have one. -/
structure Precompiles where
  get : Address → Option Precompile
  addresses : List Address
  mem_addresses : ∀ a, a ∈ addresses ↔ (get a).isSome = true

/-- Add a precompile, in the place of one that its address has. -/
def Precompiles.insert (table : Precompiles) (precompile : Precompile) : Precompiles where
  get := Function.update table.get precompile.address (some precompile)
  addresses := precompile.address :: table.addresses
  mem_addresses a := by
    by_cases ha : a = precompile.address
    · simp [ha]
    · rw [List.mem_cons, or_iff_right ha, table.mem_addresses, Function.update_of_ne ha]

/-- `Precompiles::extend`. -/
def Precompiles.extend (table : Precompiles) (precompiles : List Precompile) : Precompiles :=
  precompiles.foldl .insert table

/-- The Ethereum hardforks under those of Monad. -/
inductive SpecId
  | prague
  | osaka
  deriving DecidableEq

/-- `into_eth_spec`. -/
def intoEthSpec : MonadSpecId → SpecId
  | .monadEight => .prague
  | .monadNine => .osaka
  | .monadNext => .osaka

/-- The failure of a precompile that only runs out of gas. -/
def PrecompileError.ofGas : Contracts.PrecompileError → PrecompileError
  | .outOfGas => .outOfGas

variable (lib : Library)

/-- The precompiles that override or extend the library's. -/
def monadTable : List Precompile :=
  [⟨1, monadEcrecoverRun lib⟩, ⟨6, monadEcAddRun lib⟩, ⟨7, monadEcMulRun lib⟩,
    ⟨8, monadEcPairingRun lib⟩, ⟨9, monadBlake2fRun lib⟩, ⟨0x0a, monadPointEvaluationRun lib⟩,
    ⟨0x0100, lib.p256Verify⟩,
    ⟨0x0101, fun input gasLimit =>
      (suwappuMldsa65VerifyRun lib.mldsaVerify input gasLimit).mapError .ofGas⟩,
    ⟨0x0102, fun input gasLimit =>
      (suwappuBlake3Run lib.blake3Hash input gasLimit).mapError .ofGas⟩]

end Tables

section Providers

/-- `MonadPrecompiles`. -/
structure MonadPrecompiles where
  inner : Precompiles
  spec : MonadSpecId

variable (lib : Library) (ethPrecompiles : SpecId → Precompiles)

/-- `new_with_spec`. -/
def newWithSpec (spec : MonadSpecId) : MonadPrecompiles :=
  ⟨(ethPrecompiles (intoEthSpec spec)).extend (monadTable lib), spec⟩

/-- `set_spec`. -/
def MonadPrecompiles.setSpec (p : MonadPrecompiles) (spec : MonadSpecId) :
    Bool × MonadPrecompiles :=
  if spec = p.spec then (false, p) else (true, newWithSpec lib ethPrecompiles spec)

/-- `contains`. -/
def MonadPrecompiles.contains (p : MonadPrecompiles) (a : Address) : Bool :=
  a = stakingAddress || (MonadSpecId.monadNine.isEnabledIn p.spec && a = reserveBalanceAddress) ||
    (p.inner.get a).isSome

/-- `warm_addresses`. -/
def MonadPrecompiles.warmAddresses (p : MonadPrecompiles) : List Address :=
  stakingAddress :: (if MonadSpecId.monadNine.isEnabledIn p.spec then [reserveBalanceAddress]
    else []) ++ p.inner.addresses

variable (codec : Codec) (convert : (gasLimit : ℕ) → PrecompileResult → InterpreterResult)

/-- `run`, with the frame around the staking precompile; `convert` is how the library turns the
result of a precompile of its table into that of the call. -/
def MonadPrecompiles.run (p : MonadPrecompiles) (s : Storage) (j : MonadJournal)
    (inputs : CallInputs) : Option (InterpreterResult × Storage) :=
  match stakingFrame codec s inputs with
  | some outcome => some outcome
  | none =>
    match runReserveBalancePrecompile p.spec j inputs with
    | some result => some (result, s)
    | none => (p.inner.get inputs.bytecodeAddress).map fun precompile =>
        (convert inputs.gasLimit (precompile.run inputs.input inputs.gasLimit), s)

/-- What happens to a provider: a transaction under some hardfork, and a call to some address. -/
inductive ProviderEvent
  | setSpec (spec : MonadSpecId)
  | frame (j : MonadJournal) (inputs : CallInputs)

/-- A provider and the staking storage. -/
structure ProviderState where
  precompiles : MonadPrecompiles
  storage : Storage

/-- One event. -/
def providerStep (state : ProviderState) : ProviderEvent → Except Unit ProviderState
  | .setSpec spec => .ok { state with
      precompiles := (state.precompiles.setSpec lib ethPrecompiles spec).2 }
  | .frame j inputs =>
    match state.precompiles.run codec convert state.storage j inputs with
    | some (_, storage) => .ok { state with storage }
    | none => .ok state

end Providers

section Sessions

variable {lib : Library} {ethPrecompiles : SpecId → Precompiles} {codec : Codec}
  {convert : (gasLimit : ℕ) → PrecompileResult → InterpreterResult}

/-- The hardfork in force after some events. -/
def specAfter (spec : MonadSpecId) (events : List ProviderEvent) : MonadSpecId :=
  events.foldl (fun spec event => match event with
    | .setSpec spec' => spec'
    | .frame _ _ => spec) spec

/-- The decoded staking call of an event. -/
def ProviderEvent.decoded (codec : Codec) : ProviderEvent → Option (Staking.Message ×
    Staking.StakingCall)
  | .setSpec _ => none
  | .frame _ inputs => inputs.decoded codec

/-- A provider that is rebuilt for each hardfork is always the one for the last. -/
theorem setSpec_newWithSpec (spec spec' : MonadSpecId) :
    ((newWithSpec lib ethPrecompiles spec).setSpec lib ethPrecompiles spec').2 =
      newWithSpec lib ethPrecompiles spec' := by
  rw [MonadPrecompiles.setSpec]
  split
  next h => rw [h]; rfl
  next => rfl

/-- A provider contains what it warms. -/
theorem contains_iff_warm (p : MonadPrecompiles) (a : Address) :
    p.contains a = true ↔ a ∈ p.warmAddresses := by
  rw [MonadPrecompiles.contains, MonadPrecompiles.warmAddresses, List.cons_append, List.mem_cons,
    List.mem_append, p.inner.mem_addresses, Bool.or_eq_true, Bool.or_eq_true, Bool.and_eq_true,
    decide_eq_true_iff, decide_eq_true_iff]
  cases MonadSpecId.monadNine.isEnabledIn p.spec <;> simp [or_assoc]

/-- The runs that the header oracle calls are under their addresses, whatever the library's table
has there. -/
theorem newWithSpec_oracle (spec : MonadSpecId) :
    ((newWithSpec lib ethPrecompiles spec).inner.get 0x0101).map Precompile.run =
        some (fun input gasLimit =>
          (suwappuMldsa65VerifyRun lib.mldsaVerify input gasLimit).mapError .ofGas) ∧
      ((newWithSpec lib ethPrecompiles spec).inner.get 0x0102).map Precompile.run =
        some (fun input gasLimit =>
          (suwappuBlake3Run lib.blake3Hash input gasLimit).mapError .ofGas) := by
  constructor
  · rfl
  · rfl

/-- The staking precompile answers at its own address only. -/
theorem stakingFrame_elsewhere {inputs : CallInputs} (h : inputs.bytecodeAddress ≠ stakingAddress)
    (s : Storage) : stakingFrame codec s inputs = none := by
  rw [stakingFrame, Staking.runStakingPrecompile, if_pos h]
  rfl

/-- The reserve-balance precompile answers at its own address, once there is one. -/
theorem runReserveBalancePrecompile_isSome (spec : MonadSpecId) (j : MonadJournal)
    (inputs : CallInputs) : (runReserveBalancePrecompile spec j inputs).isSome = true ↔
      MonadSpecId.monadNine.isEnabledIn spec = true ∧
        inputs.bytecodeAddress = reserveBalanceAddress := by
  by_cases haddr : inputs.bytecodeAddress = reserveBalanceAddress
  · by_cases hspec : MonadSpecId.monadNine.isEnabledIn spec = true
    · refine iff_of_true ?_ ⟨hspec, haddr⟩
      by_cases hasks : Reserve.AsksReserve inputs
      · rw [Reserve.runReserveBalancePrecompile_of_asks haddr hspec hasks]
        rfl
      · obtain ⟨r, hr, -⟩ :=
          Reserve.runReserveBalancePrecompile_of_not_asks (j := j) haddr hspec hasks
        rw [hr]
        rfl
    · rw [runReserveBalancePrecompile, if_pos (.inr hspec)]
      exact iff_of_false Bool.false_ne_true fun h => hspec h.1
  · rw [runReserveBalancePrecompile, if_pos (.inl haddr)]
    exact iff_of_false Bool.false_ne_true fun h => haddr h.2

variable (codec convert)

/-- Every call to the staking precompile is answered, and moves the storage as the call that it
decodes to. -/
theorem stakingFrame_answers {inputs : CallInputs} (h : inputs.bytecodeAddress = stakingAddress)
    (s : Storage) : ∃ result, stakingFrame codec s inputs =
      some (result, (inputs.decoded codec).elim s fun tx => perform stakingStep s tx) := by
  cases hdecoded : inputs.decoded codec with
  | none => exact Staking.stakingFrame_of_none h hdecoded
  | some tx => exact ⟨_, Staking.stakingFrame_of_some hdecoded⟩

/-- A provider answers the calls to the addresses that it contains, and an answer moves the storage
as the staking call that it decodes to. -/
theorem run_answers (p : MonadPrecompiles) (s : Storage) (j : MonadJournal) (inputs : CallInputs) :
    ((p.run codec convert s j inputs).isSome = true ↔ p.contains inputs.bytecodeAddress = true) ∧
      (p.run codec convert s j inputs).elim s Prod.snd =
        (inputs.decoded codec).elim s fun tx => perform stakingStep s tx := by
  by_cases hstaking : inputs.bytecodeAddress = stakingAddress
  · obtain ⟨result, hframe⟩ := stakingFrame_answers codec hstaking s
    rw [MonadPrecompiles.run, hframe]
    exact ⟨iff_of_true rfl (by simp [MonadPrecompiles.contains, hstaking]), rfl⟩
  · have hdecoded : inputs.decoded codec = none := if_neg fun h => hstaking h.1
    rw [MonadPrecompiles.run, stakingFrame_elsewhere hstaking, hdecoded]
    have hreserve := runReserveBalancePrecompile_isSome p.spec j inputs
    cases hrun : runReserveBalancePrecompile p.spec j inputs with
    | some result =>
      rw [hrun] at hreserve
      exact ⟨iff_of_true rfl (by simp [MonadPrecompiles.contains, hreserve.mp rfl]), rfl⟩
    | none =>
      rw [hrun] at hreserve
      have hother : ¬(MonadSpecId.monadNine.isEnabledIn p.spec = true ∧
          inputs.bytecodeAddress = reserveBalanceAddress) := fun h => by cases hreserve.mpr h
      refine ⟨?_, ?_⟩
      · rw [Option.isSome_map, MonadPrecompiles.contains]
        simp only [hstaking, decide_false, Bool.false_or, Bool.or_eq_true, Bool.and_eq_true,
          decide_eq_true_eq, hother, false_or]
      · cases p.inner.get inputs.bytecodeAddress <;> rfl

variable {codec convert}

/-- What an event does to the provider and to the storage. -/
theorem perform_providerStep (state : ProviderState) (event : ProviderEvent) :
    (perform (providerStep lib ethPrecompiles codec convert) state event).storage =
        ((event.decoded codec).elim state.storage fun tx =>
          perform stakingStep state.storage tx) ∧
      ∀ spec, state.precompiles = newWithSpec lib ethPrecompiles spec →
        (perform (providerStep lib ethPrecompiles codec convert) state event).precompiles =
          newWithSpec lib ethPrecompiles (specAfter spec [event]) := by
  cases event with
  | setSpec spec' =>
    refine ⟨rfl, fun spec h => ?_⟩
    change (state.precompiles.setSpec lib ethPrecompiles spec').2 = _
    rw [h]
    exact setSpec_newWithSpec spec spec'
  | frame j inputs =>
    have hanswers := (run_answers codec convert state.precompiles state.storage j inputs).2
    rw [ProviderEvent.decoded, ← hanswers]
    rcases hrun : state.precompiles.run codec convert state.storage j inputs with - | ⟨result, s⟩
    · have hstep : providerStep lib ethPrecompiles codec convert state (.frame j inputs) =
          .ok state := by
        rw [providerStep, hrun]
      rw [perform_of_ok hstep]
      exact ⟨rfl, fun spec h => h⟩
    · have hstep : providerStep lib ethPrecompiles codec convert state (.frame j inputs) =
          .ok { state with storage := s } := by
        rw [providerStep, hrun]
      rw [perform_of_ok hstep]
      exact ⟨rfl, fun spec h => h⟩

/-- The provider after some events. -/
theorem precompiles_after (spec : MonadSpecId) (state : ProviderState)
    (hstate : state.precompiles = newWithSpec lib ethPrecompiles spec)
    (events : List ProviderEvent) :
    (events.foldl (perform (providerStep lib ethPrecompiles codec convert)) state).precompiles =
      newWithSpec lib ethPrecompiles (specAfter spec events) := by
  induction events generalizing spec state with
  | nil => exact hstate
  | cons event events ih =>
    exact ih (specAfter spec [event]) _ ((perform_providerStep state event).2 spec hstate)

/-- Sessions of the provider. After any number of hardfork changes and calls to any addresses, with
any calldata, the provider is the one built for the hardfork in force; it answers exactly the calls
to the addresses that it warms; the runs that the header oracle calls are under their addresses; and
the staking storage is the one that the decoded staking calls lead to, so that no other precompile
and no change of hardfork moves it. -/
theorem provider_sessions (lib : Library) (ethPrecompiles : SpecId → Precompiles) (codec : Codec)
    (convert : (gasLimit : ℕ) → PrecompileResult → InterpreterResult) (spec : MonadSpecId)
    (init : Storage) (events : List ProviderEvent) (n : ℕ) :
    let state := stateAt (providerStep lib ethPrecompiles codec convert)
      ⟨newWithSpec lib ethPrecompiles spec, init⟩ events n
    state.precompiles = newWithSpec lib ethPrecompiles (specAfter spec (events.take n)) ∧
      state.storage = stateAt stakingStep init (events.filterMap (ProviderEvent.decoded codec))
        ((events.take n).filterMap (ProviderEvent.decoded codec)).length ∧
      (∀ j inputs, (state.precompiles.run codec convert state.storage j inputs).isSome = true ↔
        inputs.bytecodeAddress ∈ state.precompiles.warmAddresses) ∧
      (state.precompiles.inner.get 0x0101).map Precompile.run = some (fun input gasLimit =>
        (suwappuMldsa65VerifyRun lib.mldsaVerify input gasLimit).mapError .ofGas) ∧
      (state.precompiles.inner.get 0x0102).map Precompile.run = some (fun input gasLimit =>
        (suwappuBlake3Run lib.blake3Hash input gasLimit).mapError .ofGas) := by
  intro state
  have hprecompiles : state.precompiles =
      newWithSpec lib ethPrecompiles (specAfter spec (events.take n)) :=
    precompiles_after spec ⟨newWithSpec lib ethPrecompiles spec, init⟩ rfl (events.take n)
  refine ⟨hprecompiles, ?_, fun j inputs => ?_, ?_⟩
  · exact stateAt_project ProviderState.storage (ProviderEvent.decoded codec)
      (fun state event => (perform_providerStep state event).1) _ events n
  · rw [(run_answers codec convert state.precompiles state.storage j inputs).1, contains_iff_warm]
  · rw [hprecompiles]
    exact newWithSpec_oracle _

end Sessions

end SuwappuRevm.Builtins
