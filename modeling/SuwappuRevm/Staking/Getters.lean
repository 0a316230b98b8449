import SuwappuRevm.Foundations.Paging
import SuwappuRevm.Staking.Lists

/-!
# Paginated getters

The getters of the delegation lists and of the validator sets answer in pages. A traversal reads
the node at a pointer only when it still has room for it, and hands over the pointer it has not
read; a set getter hands over the next index. Following the pages lists everything exactly once.
-/

namespace SuwappuRevm.Staking

open Foundations

/-- `LINKED_LIST_PAGINATION`. -/
def linkedListPagination : ℕ := 50

/-- `MAX_VALIDATORS_PER_CALL`. -/
def maxValidatorsPerCall : ℕ := 100

/-- `GET_DELEGATIONS`, `GET_DELEGATORS` and `GET_CONSENSUS_VALIDATOR_SET` of the `gas` module. -/
def getterGas : ℕ := 814000

/-- Unchecked `u32` addition. -/
def u32Add (a b : ℕ) : ℕ := (a + b) % 2 ^ 32

section Traversal

variable {κ : Type*} [DecidableEq κ] (links : Links ListNode κ) (read : κ → ListNode)

/-- The loop of the traversals with room for so many more entries. The next node is read only when
there is one and there is room for it. -/
def traverseLoop (nil : κ) : ℕ → κ → ListNode → List κ → κ × List κ
  | 0, currentPtr, _, results => (currentPtr, results)
  | room + 1, currentPtr, currentNode, results =>
    if currentPtr = nil then (currentPtr, results)
    else
      let next := links.next currentNode
      let currentNode := if next ≠ nil ∧ 0 < room then read next else currentNode
      traverseLoop nil room next currentNode (results ++ [currentPtr])

/-- A traversal of one list: from the pointer behind the sentinel, or from a given one. -/
def traverse (nil sentinel start : κ) (limit : ℕ) : Page κ κ :=
  let ptr := if start = nil then links.next (read sentinel) else start
  if ptr = nil then ⟨true, nil, []⟩
  else
    let firstNode := read ptr
    if links.prev firstNode = nil then ⟨true, ptr, []⟩
    else
      let (currentPtr, results) := traverseLoop links read nil limit ptr firstNode []
      ⟨decide (currentPtr = nil), currentPtr, results⟩

end Traversal

/-- `traverse_validators_for_delegator`. -/
def traverseValidatorsForDelegator (s : Storage) (delegator : Address) (startValId : ValId)
    (limit : ℕ) : Page ValId ValId :=
  traverse validatorLinks (fun valId => s.listNodes valId delegator) 0 sentinelValId startValId
    limit

/-- `traverse_delegators_for_validator`. -/
def traverseDelegatorsForValidator (s : Storage) (valId : ValId) (startDelegator : Address)
    (limit : ℕ) : Page Address Address :=
  traverse delegatorLinks (fun addr => s.listNodes valId addr) 0 sentinelAddress startDelegator
    limit

/-- `handle_get_delegations`: the gas it uses and its page. -/
def handleGetDelegations (s : Storage) (gasLimit : ℕ) (delegator : Address) (startValId : ValId) :
    Except PrecompileError (ℕ × Page ValId ValId) := do
  failIf (gasLimit < getterGas) .outOfGas
  return (getterGas, traverseValidatorsForDelegator s delegator startValId linkedListPagination)

/-- `handle_get_delegators`. -/
def handleGetDelegators (s : Storage) (gasLimit : ℕ) (validatorId : ValId)
    (startDelegator : Address) : Except PrecompileError (ℕ × Page Address Address) := do
  failIf (gasLimit < getterGas) .outOfGas
  return (getterGas, traverseDelegatorsForValidator s validatorId startDelegator
    linkedListPagination)

/-- The word of a `StorageArray` at an offset from its base slot: its length, then its elements. -/
def Valset.word (a : Valset) : ℕ → ValId
  | 0 => Fin.ofNat _ a.length
  | i + 1 => a.slot i

/-- `handle_get_validator_set_impl` on the array at a base slot. -/
def handleGetValidatorSet (a : Valset) (gasLimit startIndex : ℕ) :
    Except PrecompileError (ℕ × Page ℕ ValId) := do
  failIf (gasLimit < getterGas) .outOfGas
  let remaining := a.length - startIndex
  let count := min remaining maxValidatorsPerCall
  let valIds := (List.range count).map fun i => a.word (u32Add (u32Add 1 startIndex) i)
  let nextIndex := u32Add startIndex count
  return (getterGas, ⟨decide (a.length ≤ nextIndex), nextIndex, valIds⟩)

/-- The dispatch of a getter: not payable, and the caller gets the page. -/
def viewCall {A : Type} (msg : Message) (handler : ℕ → Except PrecompileError (ℕ × A)) :
    Except PrecompileError A := do
  failIf (msg.callValue ≠ 0) (.other "value non-zero")
  let (_, page) ← handler msg.gasLimit
  return page

/-- `getDelegations`. -/
def getDelegations (s : Storage) (msg : Message) (delegator : Address) (startValId : ValId) :
    Except PrecompileError (Page ValId ValId) :=
  viewCall msg fun gasLimit => handleGetDelegations s gasLimit delegator startValId

/-- `getDelegators`. -/
def getDelegators (s : Storage) (msg : Message) (validatorId : ValId) (startDelegator : Address) :
    Except PrecompileError (Page Address Address) :=
  viewCall msg fun gasLimit => handleGetDelegators s gasLimit validatorId startDelegator

/-- `getExecutionValidatorSet`. -/
def getExecutionValidatorSet (s : Storage) (msg : Message) (startIndex : ℕ) :
    Except PrecompileError (Page ℕ ValId) :=
  viewCall msg fun gasLimit => handleGetValidatorSet s.execution gasLimit startIndex

/-- `getConsensusValidatorSet`. -/
def getConsensusValidatorSet (s : Storage) (msg : Message) (startIndex : ℕ) :
    Except PrecompileError (Page ℕ ValId) :=
  viewCall msg fun gasLimit => handleGetValidatorSet s.consensus gasLimit startIndex

/-- `getSnapshotValidatorSet`. -/
def getSnapshotValidatorSet (s : Storage) (msg : Message) (startIndex : ℕ) :
    Except PrecompileError (Page ℕ ValId) :=
  viewCall msg fun gasLimit => handleGetValidatorSet s.snapshot gasLimit startIndex

section Traversal

variable {κ : Type*} [DecidableEq κ] {links : Links ListNode κ} {read : κ → ListNode}
  {nil sentinel : κ} {l : List κ}

/-- The loop takes what it has room for, and stops at what is ahead then. -/
theorem traverseLoop_ahead (room : ℕ) (ptr : κ) (node : ListNode) (results ahead : List κ)
    (hahead : Ahead (links.next ∘ read) nil ptr ahead) (hnil : nil ∉ ahead)
    (hnode : ahead ≠ [] → 0 < room → node = read ptr) :
    (traverseLoop links read nil room ptr node results).2 = results ++ ahead.take room ∧
      Ahead (links.next ∘ read) nil (traverseLoop links read nil room ptr node results).1
        (ahead.drop room) := by
  induction room generalizing ptr node results ahead with
  | zero =>
    refine ⟨?_, hahead⟩
    rw [List.take_zero, List.append_nil]
    rfl
  | succ room ih =>
    rw [traverseLoop]
    cases ahead with
    | nil =>
      have hptr : ptr = nil := hahead
      rw [if_pos hptr, List.take_nil, List.append_nil]
      exact ⟨rfl, hahead⟩
    | cons x l =>
      obtain ⟨rfl, hpath⟩ := hahead
      rw [List.mem_cons, not_or] at hnil
      rw [if_neg (Ne.symm hnil.1)]
      have hread := hnode (List.cons_ne_nil _ _) (Nat.succ_pos room)
      subst hread
      have hnext := Path.ahead hpath
      obtain ⟨hresults, hrest⟩ := ih (links.next (read ptr)) (if links.next (read ptr) ≠ nil ∧
        0 < room then read (links.next (read ptr)) else read ptr) (results ++ [ptr]) l hnext hnil.2
        fun hne hroom => by
          cases l with
          | nil => exact absurd rfl hne
          | cons y l =>
            have hy : links.next (read ptr) = y := hnext.1
            have hynil : y ≠ nil := fun heq => hnil.2 (heq ▸ List.mem_cons_self)
            rw [hy, if_pos ⟨hynil, hroom⟩]
      refine ⟨hresults.trans ?_, hrest⟩
      rw [List.take_succ_cons, List.append_assoc, List.singleton_append]

/-- What is left to enumerate at a key: everything at the null pointer, else what is ahead. -/
def Left (next : κ → κ) (nil : κ) (l : List κ) (key : κ) (left : List κ) : Prop :=
  if key = nil then left = l else Ahead next nil key left ∧ left <:+ l

/-- Everything is left at the null pointer. -/
theorem left_nil (next : κ → κ) (nil : κ) (l : List κ) : Left next nil l nil l := by
  unfold Left
  rw [if_pos rfl]

variable (links) in
/-- A page of a traversal is the first part of what is left. -/
theorem traverse_page (h : Linked (links.next ∘ read) (links.prev ∘ read) nil sentinel l)
    {key : κ} {left : List κ} (hleft : Left (links.next ∘ read) nil l key left) {limit : ℕ}
    (hlimit : 0 < limit) :
    let p := traverse links read nil sentinel key limit
    ∃ rest, left = p.entries ++ rest ∧ (p.isDone = true → rest = []) ∧
      (p.isDone = false → p.entries ≠ [] ∧ Left (links.next ∘ read) nil l p.next rest) := by
  -- the pointer at which the traversal starts has what is left ahead
  obtain ⟨ptr, hptr, hahead, hsuffix⟩ : ∃ ptr,
      (if key = nil then links.next (read sentinel) else key) = ptr ∧
      Ahead (links.next ∘ read) nil ptr left ∧ left <:+ l := by
    unfold Left at hleft
    split at hleft
    next hkey =>
      subst hleft
      refine ⟨links.next (read sentinel), if_pos hkey, Path.ahead h.path, List.suffix_rfl⟩
    next hkey => exact ⟨key, if_neg hkey, hleft⟩
  have hnil : nil ∉ left := fun hmem => h.nil_notMem (hsuffix.subset hmem)
  dsimp only
  unfold traverse
  simp only [hptr]
  by_cases hend : ptr = nil
  · rw [if_pos hend]
    exact ⟨[], by simpa using (hahead.eq_nil_iff hnil).mp hend, fun _ => rfl, nofun⟩
  · have hne : left ≠ [] := fun heq => hend ((hahead.eq_nil_iff hnil).mpr heq)
    have hmem : ptr ∈ l := by
      refine hsuffix.subset ?_
      cases left with
      | nil => exact absurd rfl hne
      | cons x left => exact hahead.1 ▸ List.mem_cons_self
    have hin : links.prev (read ptr) ≠ nil := h.prev_ne_nil_iff.mpr hmem
    rw [if_neg hend, if_neg hin]
    obtain ⟨hresults, hrest⟩ := traverseLoop_ahead limit ptr (read ptr) [] left hahead hnil
      fun _ _ => rfl
    have hdrop : nil ∉ left.drop limit := fun hmem => hnil (List.drop_subset _ _ hmem)
    generalize traverseLoop links read nil limit ptr (read ptr) [] = result at *
    obtain ⟨currentPtr, results⟩ := result
    rw [List.nil_append] at hresults
    dsimp only at hresults hrest ⊢
    refine ⟨left.drop limit, ?_, fun hdone => ?_, fun hmore => ⟨?_, ?_⟩⟩
    · rw [hresults, List.take_append_drop]
    · exact (hrest.eq_nil_iff hdrop).mp (of_decide_eq_true hdone)
    · rw [hresults]
      exact fun heq => hne ((List.take_eq_nil_iff.mp heq).resolve_left (by omega))
    · unfold Left
      rw [if_neg (of_decide_eq_false hmore)]
      exact ⟨hrest, (List.drop_suffix _ _).trans hsuffix⟩

end Traversal

section Reachable

variable {s : Storage} {msg : Message}

/-- With gas and without value a getter of delegators answers with a page of the traversal. -/
theorem getDelegators_eq (hvalue : msg.callValue = 0) (hgas : getterGas ≤ msg.gasLimit) (v : ValId)
    (key : Address) : getDelegators s msg v key =
      .ok (traverseDelegatorsForValidator s v key linkedListPagination) := by
  rw [getDelegators, viewCall, failIf_of_not (not_not.mpr hvalue), ok_bind, handleGetDelegators,
    failIf_of_not (not_lt.mpr hgas)]
  rfl

/-- With gas and without value a getter of delegations answers with a page of the traversal. -/
theorem getDelegations_eq (hvalue : msg.callValue = 0) (hgas : getterGas ≤ msg.gasLimit)
    (d : Address) (key : ValId) : getDelegations s msg d key =
      .ok (traverseValidatorsForDelegator s d key linkedListPagination) := by
  rw [getDelegations, viewCall, failIf_of_not (not_not.mpr hvalue), ok_bind, handleGetDelegations,
    failIf_of_not (not_lt.mpr hgas)]
  rfl

/-- The pages of a set getter list the array. -/
theorem collect_validatorSet {a : Valset} (hvalue : msg.callValue = 0)
    (hgas : getterGas ≤ msg.gasLimit) (hlength : a.length < 2 ^ 32) :
    ∃ n,
      collect (fun key => viewCall msg fun gasLimit => handleGetValidatorSet a gasLimit key) n 0 =
      some a.toList := by
  refine ⟨_, collect_of_left (fun key left => key ≤ a.length ∧ left = a.toList.drop key)
    (fun key left ⟨hkey, hleft⟩ => ?_) ⟨Nat.zero_le _, rfl⟩⟩
  have hcount : key + min (a.length - key) maxValidatorsPerCall < 2 ^ 32 := by omega
  have hnext : u32Add key (min (a.length - key) maxValidatorsPerCall) =
      key + min (a.length - key) maxValidatorsPerCall := Nat.mod_eq_of_lt hcount
  have hentries : ((List.range (min (a.length - key) maxValidatorsPerCall)).map fun i =>
      a.word (u32Add (u32Add 1 key) i)) =
        (a.toList.drop key).take (min (a.length - key) maxValidatorsPerCall) := by
    refine List.ext_getElem (by simp [Valset.toList]) fun i hi _ => ?_
    rw [List.length_map, List.length_range] at hi
    have hslot : u32Add (u32Add 1 key) i = key + i + 1 := by
      unfold u32Add
      omega
    simp [hslot, Valset.word, Valset.toList]
  refine ⟨⟨decide (a.length ≤ key + min (a.length - key) maxValidatorsPerCall),
    key + min (a.length - key) maxValidatorsPerCall,
    (a.toList.drop key).take (min (a.length - key) maxValidatorsPerCall)⟩,
    (a.toList.drop key).drop (min (a.length - key) maxValidatorsPerCall), ?_, ?_, ?_, ?_⟩
  · rw [viewCall, failIf_of_not (not_not.mpr hvalue), ok_bind, handleGetValidatorSet,
      failIf_of_not (not_lt.mpr hgas), ok_bind]
    dsimp only
    rw [hnext, hentries]
    rfl
  · rw [hleft, List.take_append_drop]
  · intro hdone
    have hlast := of_decide_eq_true hdone
    rw [List.drop_drop]
    refine List.drop_eq_nil_of_le ?_
    rw [Valset.toList, List.length_map, List.length_range]
    exact hlast
  · intro hmore
    have hmore := of_decide_eq_false hmore
    have hpage : 0 < maxValidatorsPerCall := by decide
    refine ⟨fun hnone => ?_, ?_, by rw [List.drop_drop]⟩
    · have hempty := congrArg List.length hnone
      simp [Valset.toList] at hempty
      omega
    · change key + min (a.length - key) maxValidatorsPerCall ≤ a.length
      omega

/-- Paginated getters enumerate exactly. Following the pages of a delegation list from the null
pointer collects every address, or every validator, whose record has stake, once each; following
those of a validator set from index `0` collects the stored array. -/
theorem getters_enumerate (h : Reachable stakingStep EpochsBounded .empty s)
    (hvalue : msg.callValue = 0) (hgas : getterGas ≤ msg.gasLimit) :
    (∀ v, ∃ n l, collect (getDelegators s msg v) n 0 = some l ∧ l.Nodup ∧
      ∀ d, d ∈ l ↔ (s.delegators v d).stake ≠ 0 ∨ (s.delegators v d).deltaStake ≠ 0 ∨
        (s.delegators v d).nextDeltaStake ≠ 0) ∧
    (∀ d, ∃ n l, collect (getDelegations s msg d) n 0 = some l ∧ l.Nodup ∧
      ∀ v, v ∈ l ↔ (s.delegators v d).stake ≠ 0 ∨ (s.delegators v d).deltaStake ≠ 0 ∨
        (s.delegators v d).nextDeltaStake ≠ 0) ∧
    (s.execution.length < 2 ^ 32 →
      ∃ n, collect (getExecutionValidatorSet s msg) n 0 = some s.execution.toList) ∧
    (s.consensus.length < 2 ^ 32 →
      ∃ n, collect (getConsensusValidatorSet s msg) n 0 = some s.consensus.toList) ∧
    (s.snapshot.length < 2 ^ 32 →
      ∃ n, collect (getSnapshotValidatorSet s msg) n 0 = some s.snapshot.toList) := by
  have hguard (s : Storage) (tx) (s' : Storage) (hg : EpochsBounded s tx s') :
      s'.epoch < 2 ^ 63 := hg
  obtain ⟨delegatorsOf, validatorsOf, hlinked, hmem⟩ := reachable_listsRight hguard h
  have hlimit : 0 < linkedListPagination := by decide
  refine ⟨fun v => ?_, fun d => ?_, collect_validatorSet hvalue hgas,
    collect_validatorSet hvalue hgas, collect_validatorSet hvalue hgas⟩
  · have hlist := hlinked.delegators v
    refine ⟨_, delegatorsOf v, collect_of_left (Left (fun d => (s.listNodes v d).anext) 0
      (delegatorsOf v)) (fun key left hleft => ?_) (left_nil _ _ _), hlist.list_nodup, fun d => ?_⟩
    · obtain ⟨rest, hpage⟩ := traverse_page delegatorLinks hlist hleft hlimit
      exact ⟨_, rest, getDelegators_eq hvalue hgas v key, hpage⟩
    · rw [(hmem v d).1, ← Delegator.exists_iff_principal]
      rfl
  · have hlist := hlinked.validators d
    refine ⟨_, validatorsOf d, collect_of_left (Left (fun v => (s.listNodes v d).inext) 0
      (validatorsOf d)) (fun key left hleft => ?_) (left_nil _ _ _), hlist.list_nodup, fun v => ?_⟩
    · obtain ⟨rest, hpage⟩ := traverse_page validatorLinks hlist hleft hlimit
      exact ⟨_, rest, getDelegations_eq hvalue hgas d key, hpage⟩
    · rw [(hmem v d).2, ← Delegator.exists_iff_principal]
      rfl

/-- In the opened state the pages collect the small delegator. -/
theorem getters_enumerate_opened : ∃ n l,
    collect (getDelegators openedState (userMessage 9 0 (by decide)) 1) n 0 = some l ∧ 9 ∈ l := by
  have hvalue : (userMessage 9 0 (by decide)).callValue = 0 := rfl
  have hgas : getterGas ≤ (userMessage 9 0 (by decide)).gasLimit := by decide
  obtain ⟨n, l, hpages, -, hmem⟩ := (getters_enumerate openedState_bounded hvalue hgas).1 1
  have hstake : (openedState.delegators 1 9).stake ≠ 0 ∨
      (openedState.delegators 1 9).deltaStake ≠ 0 ∨
      (openedState.delegators 1 9).nextDeltaStake ≠ 0 := by decide +kernel
  exact ⟨n, l, hpages, (hmem 9).mpr hstake⟩

end Reachable

end SuwappuRevm.Staking
