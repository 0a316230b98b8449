import SuwappuRevm.Foundations.Intake
import SuwappuRevm.Node.NodeState

/-!
# What one submission does

A submission is accepted exactly when its bytes read as a transaction of a sender, its chain is
the node's and the EVM returns a result; then the state is the EVM's database with one more block.
A rejected submission changes nothing but the database, and that only when the EVM itself returned
an error. The node is the machine that takes submissions one after the other.
-/

namespace SuwappuRevm.Node

open Foundations

/-- A stage of the decoding goes on with its value. -/
theorem orFail_eq_ok {α : Type} {stage : String} {x : Except String α} {s s' : NodeState}
    {a : α} : orFail stage x s = .ok a s' ↔ x = .ok a ∧ s = s' := by
  cases x with
  | error e =>
    constructor
    · intro h
      cases h
    · rintro ⟨h, -⟩
      cases h
  | ok b =>
    constructor
    · intro h
      cases h
      exact ⟨rfl, rfl⟩
    · rintro ⟨h, rfl⟩
      cases h
      rfl

/-- A stage that stops leaves the state as it is. -/
theorem orFail_eq_error {α : Type} {stage : String} {x : Except String α} {s s' : NodeState}
    {e : String} (h : orFail stage x s = .error e s') :
    s' = s ∧ ∃ cause, x = .error cause ∧ e = stage ++ cause := by
  cases x with
  | error cause =>
    cases h
    exact ⟨rfl, cause, rfl, rfl⟩
  | ok b => cases h

/-- The check passes when the transaction names no chain or the node's. -/
theorem checkChainId_eq_ok {chainIdOpt : Option UInt64} {chainId : UInt64} {u : Unit} :
    checkChainId chainIdOpt chainId = .ok u ↔ ∀ cid, chainIdOpt = some cid → cid = chainId := by
  cases chainIdOpt with
  | none => simp [checkChainId]
  | some cid => simp [checkChainId, failIf_eq_ok]

variable (lib : Libraries)

/-- What the decoding stages read from the bytes of a submission. -/
structure Libraries.Reads (raw : Bytes) (envelope : TxEnvelope) (sender : Address)
    (fields : TxFields) : Prop where
  decoded : ∃ rest, lib.decode raw = .ok (envelope, rest)
  recovered : lib.recoverSigner envelope = .ok sender
  extracted : extractTxFields envelope = .ok fields

/-- Bytes read in one way only. -/
theorem Libraries.Reads.unique {lib : Libraries} {raw : Bytes} {envelope envelope' : TxEnvelope}
    {sender sender' : Address} {fields fields' : TxFields}
    (h : lib.Reads raw envelope sender fields) (h' : lib.Reads raw envelope' sender' fields') :
    envelope' = envelope ∧ sender' = sender ∧ fields' = fields := by
  obtain ⟨rest, hrest⟩ := h.decoded
  obtain ⟨rest', hrest'⟩ := h'.decoded
  rw [hrest] at hrest'
  cases hrest'
  have hsender := h'.recovered
  have hfields := h'.extracted
  rw [h.recovered] at hsender
  rw [h.extracted] at hfields
  cases hsender
  cases hfields
  exact ⟨rfl, rfl, rfl⟩

/-- The EVM run of a transaction on the node's database, in the next block. -/
def execute (s : NodeState) (sender : Address) (fields : TxFields) :
    Except String ExecutionResult × MonadContext :=
  lib.transactCommit (nodeContext s.db (s.blockNumber + 1) s.chainId) (txEnv sender fields)

/-- The state takes back the database the EVM left. -/
def NodeState.withDb (s : NodeState) (db : InMemoryDB) : NodeState := { s with db := db }

/-- The bytes read as a transaction of the node's chain and the EVM returns its result. -/
structure Mines (s : NodeState) (raw : Bytes) (envelope : TxEnvelope) (sender : Address)
    (fields : TxFields) (result : ExecutionResult) : Prop where
  reads : lib.Reads raw envelope sender fields
  chain : ∀ cid, fields.chainIdOpt = some cid → cid = s.chainId
  executed : (execute lib s sender fields).1 = .ok result

/-- The state after an executed transaction was recorded. -/
def minedState (s : NodeState) (raw : Bytes) (sender : Address) (fields : TxFields)
    (result : ExecutionResult) : NodeState :=
  (s.withDb (execute lib s sender fields).2.db).mine lib (lib.keccak256 raw) sender fields result

variable {lib}

/-- A submission is accepted exactly when it is mined, under the hash of its bytes. -/
theorem sendRawTransaction_eq_ok {raw : Bytes} {s s' : NodeState} {hash : Word} :
    sendRawTransaction lib raw s = .ok hash s' ↔
      ∃ envelope sender fields result, Mines lib s raw envelope sender fields result ∧
        hash = lib.keccak256 raw ∧ s' = minedState lib s raw sender fields result := by
  constructor
  · intro h
    obtain ⟨⟨envelope, rest⟩, s₁, hstage₁, h⟩ := stateBind_eq_ok.mp h
    obtain ⟨hdecode, rfl⟩ := orFail_eq_ok.mp hstage₁
    obtain ⟨sender, s₂, hstage₂, h⟩ := stateBind_eq_ok.mp h
    obtain ⟨hsender, rfl⟩ := orFail_eq_ok.mp hstage₂
    obtain ⟨fields, s₃, hstage₃, h⟩ := stateBind_eq_ok.mp h
    obtain ⟨hfields, rfl⟩ := orFail_eq_ok.mp hstage₃
    obtain ⟨state, s₄, hget, h⟩ := stateBind_eq_ok.mp h
    cases hget
    obtain ⟨_, s₅, hstage₅, h⟩ := stateBind_eq_ok.mp h
    obtain ⟨hchain, rfl⟩ := orFail_eq_ok.mp hstage₅
    obtain ⟨_, s₆, hset, h⟩ := stateBind_eq_ok.mp h
    cases hset
    obtain ⟨_, s₇, hback, h⟩ := stateBind_eq_ok.mp h
    cases hback
    obtain ⟨result, s₈, hstage₈, h⟩ := stateBind_eq_ok.mp h
    obtain ⟨hresult, rfl⟩ := orFail_eq_ok.mp hstage₈
    cases h
    exact ⟨envelope, sender, fields, result,
      ⟨⟨⟨rest, hdecode⟩, hsender, hfields⟩, checkChainId_eq_ok.mp hchain, hresult⟩, rfl, rfl⟩
  · rintro ⟨envelope, sender, fields, result,
      ⟨⟨⟨rest, hdecode⟩, hsender, hfields⟩, hchain, hresult⟩, rfl, rfl⟩
    refine stateBind_eq_ok.mpr ⟨_, _, orFail_eq_ok.mpr ⟨hdecode, rfl⟩, ?_⟩
    refine stateBind_eq_ok.mpr ⟨_, _, orFail_eq_ok.mpr ⟨hsender, rfl⟩, ?_⟩
    refine stateBind_eq_ok.mpr ⟨_, _, orFail_eq_ok.mpr ⟨hfields, rfl⟩, ?_⟩
    refine stateBind_eq_ok.mpr ⟨_, _, rfl, ?_⟩
    refine stateBind_eq_ok.mpr ⟨⟨⟩, _, orFail_eq_ok.mpr ⟨checkChainId_eq_ok.mpr hchain, rfl⟩, ?_⟩
    refine stateBind_eq_ok.mpr ⟨_, _, rfl, ?_⟩
    refine stateBind_eq_ok.mpr ⟨_, _, rfl, ?_⟩
    exact stateBind_eq_ok.mpr ⟨_, _, orFail_eq_ok.mpr ⟨hresult, rfl⟩, rfl⟩

/-- A rejected submission leaves the state as it is, or with the database the EVM gave back with
an error. -/
theorem sendRawTransaction_eq_error {raw : Bytes} {s s' : NodeState} {e : String}
    (h : sendRawTransaction lib raw s = .error e s') :
    s' = s ∨ ∃ sender fields cause, (execute lib s sender fields).1 = .error cause ∧
      s' = s.withDb (execute lib s sender fields).2.db := by
  rcases stateBind_eq_error.mp h with h | ⟨⟨envelope, rest⟩, s₁, hdecode, h⟩
  · exact .inl (orFail_eq_error h).1
  obtain ⟨-, rfl⟩ := orFail_eq_ok.mp hdecode
  rcases stateBind_eq_error.mp h with h | ⟨sender, s₂, hsender, h⟩
  · exact .inl (orFail_eq_error h).1
  obtain ⟨-, rfl⟩ := orFail_eq_ok.mp hsender
  rcases stateBind_eq_error.mp h with h | ⟨fields, s₃, hfields, h⟩
  · exact .inl (orFail_eq_error h).1
  obtain ⟨-, rfl⟩ := orFail_eq_ok.mp hfields
  rcases stateBind_eq_error.mp h with h | ⟨state, s₄, hget, h⟩
  · cases h
  cases hget
  rcases stateBind_eq_error.mp h with h | ⟨_, s₅, hchain, h⟩
  · exact .inl (orFail_eq_error h).1
  obtain ⟨-, rfl⟩ := orFail_eq_ok.mp hchain
  rcases stateBind_eq_error.mp h with h | ⟨_, s₆, hset, h⟩
  · cases h
  cases hset
  rcases stateBind_eq_error.mp h with h | ⟨_, s₇, hback, h⟩
  · cases h
  cases hback
  rcases stateBind_eq_error.mp h with h | ⟨result, s₈, -, h⟩
  · obtain ⟨rfl, cause, hcause, -⟩ := orFail_eq_error h
    exact .inr ⟨sender, fields, cause, hcause, rfl⟩
  · rcases stateBind_eq_error.mp h with h | ⟨_, _, _, h⟩
    · cases h
    · cases h

/-- A rejected submission leaves the counter, the chain and the maps as they are. -/
theorem sendRawTransaction_error_record {raw : Bytes} {s s' : NodeState} {e : String}
    (h : sendRawTransaction lib raw s = .error e s') : s' = s.withDb s'.db := by
  rcases sendRawTransaction_eq_error h with rfl | ⟨sender, fields, cause, -, rfl⟩
  · rfl
  · rfl

section Machine

variable (lib)

/-- Whether a submission is accepted. -/
def accepted (s : NodeState) (raw : Bytes) : Bool :=
  match sendRawTransaction lib raw s with
  | .ok _ _ => true
  | .error _ _ => false

/-- The state after a submission, accepted or not. -/
def afterSubmission (s : NodeState) (raw : Bytes) : NodeState :=
  match sendRawTransaction lib raw s with
  | .ok _ s' => s'
  | .error _ s' => s'

/-- The node as a machine that takes submissions. -/
def node : Intake NodeState Bytes where
  accepts s raw := accepted lib s raw = true
  next := afterSubmission lib

/-- Acceptance is decided by running the submission. -/
instance (s : NodeState) (raw : Bytes) : Decidable ((node lib).accepts s raw) :=
  inferInstanceAs (Decidable (accepted lib s raw = true))

variable {lib}

/-- The next state after an accepted submission. -/
theorem node_of_ok {s s' : NodeState} {raw : Bytes} {hash : Word}
    (h : sendRawTransaction lib raw s = .ok hash s') :
    (node lib).accepts s raw ∧ (node lib).next s raw = s' := by
  constructor
  · show accepted lib s raw = true
    rw [accepted, h]
  · show afterSubmission lib s raw = s'
    rw [afterSubmission, h]

/-- The next state after a rejected submission. -/
theorem node_of_error {s s' : NodeState} {raw : Bytes} {e : String}
    (h : sendRawTransaction lib raw s = .error e s') :
    ¬(node lib).accepts s raw ∧ (node lib).next s raw = s' := by
  constructor
  · show ¬accepted lib s raw = true
    rw [accepted, h]
    exact Bool.false_ne_true
  · show afterSubmission lib s raw = s'
    rw [afterSubmission, h]

/-- An accepted submission returns a hash. -/
theorem node_accepts {s : NodeState} {raw : Bytes} (h : (node lib).accepts s raw) :
    ∃ hash, sendRawTransaction lib raw s = .ok hash ((node lib).next s raw) := by
  cases hsend : sendRawTransaction lib raw s with
  | ok hash s' => exact ⟨hash, by rw [(node_of_ok hsend).2]⟩
  | error e s' => exact absurd h (node_of_error hsend).1

/-- A submission that is not accepted returns an error. -/
theorem node_rejects {s : NodeState} {raw : Bytes} (h : ¬(node lib).accepts s raw) :
    ∃ e, sendRawTransaction lib raw s = .error e ((node lib).next s raw) := by
  cases hsend : sendRawTransaction lib raw s with
  | ok hash s' => exact absurd (node_of_ok hsend).1 h
  | error e s' => exact ⟨e, by rw [(node_of_error hsend).2]⟩

end Machine

end SuwappuRevm.Node
