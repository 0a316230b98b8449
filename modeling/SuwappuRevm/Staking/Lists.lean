import Mathlib.Data.List.TFAE
import SuwappuRevm.Foundations.LinkedList
import SuwappuRevm.Staking.RosterSteps

/-!
# Delegation lists

Every record carries the pointers of two doubly linked lists: the delegators of its validator and
the validators of its delegator. Both lists are spliced by reading and writing whole nodes, so that
each leaves the pointers of the other alone. In every reachable state the two say the same: who has
stake with whom.
-/

namespace SuwappuRevm.Staking

open Foundations

/-- The pointers of the delegator list of a validator. -/
def delegatorLinks : Links ListNode Address where
  next := ListNode.anext
  prev := ListNode.aprev
  setNext node anext := { node with anext }
  setPrev node aprev := { node with aprev }
  next_setNext _ _ := rfl
  next_setPrev _ _ := rfl
  prev_setNext _ _ := rfl
  prev_setPrev _ _ := rfl

/-- The pointers of the validator list of a delegator. -/
def validatorLinks : Links ListNode ValId where
  next := ListNode.inext
  prev := ListNode.iprev
  setNext node inext := { node with inext }
  setPrev node iprev := { node with iprev }
  next_setNext _ _ := rfl
  next_setPrev _ _ := rfl
  prev_setNext _ _ := rfl
  prev_setPrev _ _ := rfl

/-- The nodes of a delegator, by validator. -/
def Storage.validatorNodes (s : Storage) (d : Address) (v : ValId) : ListNode := s.listNodes v d

section Writes

variable {s s' : Storage} {v : ValId} {d : Address}

/-- The nodes of the delegators after a write. -/
theorem validatorNodes_writeListNode (s : Storage) (v : ValId) (d : Address) (node : ListNode) :
    (s.writeListNode v d node).validatorNodes =
      Function.update s.validatorNodes d (Function.update (s.validatorNodes d) v node) := by
  funext d' v'
  change Function.update s.listNodes v (Function.update (s.listNodes v) d node) v' d' = _
  by_cases hv : v' = v <;> by_cases hd : d' = d <;>
    simp [hv, hd, Function.update_of_ne, Storage.validatorNodes]

/-- The nodes of the validators after a write. -/
theorem listNodes_writeListNode (s : Storage) (v : ValId) (d : Address) (node : ListNode) :
    (s.writeListNode v d node).listNodes =
      Function.update s.listNodes v (Function.update (s.listNodes v) d node) := rfl

/-- A delegator outside the list of a validator is inserted at its front. -/
theorem linkedListInsertAddress_nodes (h : linkedListInsertAddress s v d = .ok s')
    (hout : (s.listNodes v d).aprev = 0) :
    s'.listNodes = Function.update s.listNodes v
      (delegatorLinks.insertNode 0 sentinelAddress (s.listNodes v) d) := by
  simp only [linkedListInsertAddress, bind_eq_ok] at h
  obtain ⟨-, -, h⟩ := h
  rw [if_neg (not_not.mpr hout), pure_eq_ok] at h
  subst h
  unfold Links.insertNode
  by_cases hfirst : (s.listNodes v sentinelAddress).anext = 0
  · rw [if_neg (not_not.mpr hfirst)]
    dsimp only [delegatorLinks]
    rw [if_neg (not_not.mpr hfirst)]
    simp only [listNodes_writeListNode, Function.update_idem, Function.update_self]
  · rw [if_pos hfirst]
    dsimp only [delegatorLinks]
    rw [if_pos hfirst]
    simp only [listNodes_writeListNode, Function.update_idem, Function.update_self]

/-- A validator outside the list of a delegator is inserted at its front. -/
theorem linkedListInsertValId_nodes (h : linkedListInsertValId s v d = .ok s')
    (hout : (s.listNodes v d).iprev = 0) :
    s'.validatorNodes = Function.update s.validatorNodes d
      (validatorLinks.insertNode 0 sentinelValId (s.validatorNodes d) v) := by
  simp only [linkedListInsertValId, bind_eq_ok] at h
  obtain ⟨-, -, h⟩ := h
  rw [if_neg (not_not.mpr hout), pure_eq_ok] at h
  subst h
  unfold Links.insertNode
  by_cases hfirst : (s.validatorNodes d sentinelValId).inext = 0
  · have hnode : (s.listNodes sentinelValId d).inext = 0 := hfirst
    rw [if_neg (not_not.mpr hnode)]
    dsimp only [validatorLinks]
    rw [if_neg (not_not.mpr hfirst)]
    simp only [validatorNodes_writeListNode, Function.update_idem, Function.update_self]
    rfl
  · have hnode : (s.listNodes sentinelValId d).inext ≠ 0 := hfirst
    rw [if_pos hnode]
    dsimp only [validatorLinks]
    rw [if_pos hfirst]
    simp only [validatorNodes_writeListNode, Function.update_idem, Function.update_self]
    rfl

/-- A delegator in the list of a validator is unlinked. -/
theorem linkedListRemoveAddress_nodes (hin : (s.listNodes v d).aprev ≠ 0) :
    (linkedListRemoveAddress s v d).listNodes =
      Function.update s.listNodes v (delegatorLinks.removeNode 0 (s.listNodes v) d) := by
  unfold linkedListRemoveAddress Links.removeNode
  dsimp only [delegatorLinks]
  rw [if_neg hin]
  by_cases hafter : (s.listNodes v d).anext = 0
  · rw [if_neg (not_not.mpr hafter), if_neg (not_not.mpr hafter)]
    simp only [listNodes_writeListNode, Function.update_idem, Function.update_self]
  · rw [if_pos hafter, if_pos hafter]
    simp only [listNodes_writeListNode, Function.update_idem, Function.update_self]

/-- A validator in the list of a delegator is unlinked. -/
theorem linkedListRemoveValId_nodes (hin : (s.listNodes v d).iprev ≠ 0) :
    (linkedListRemoveValId s v d).validatorNodes = Function.update s.validatorNodes d
      (validatorLinks.removeNode 0 (s.validatorNodes d) v) := by
  have hread (t : Storage) (v' : ValId) : t.listNodes v' d = t.validatorNodes d v' := rfl
  unfold linkedListRemoveValId Links.removeNode
  dsimp only [validatorLinks]
  rw [if_neg hin]
  simp only [hread]
  by_cases hafter : (s.validatorNodes d v).inext = 0
  · rw [if_neg (not_not.mpr hafter), if_neg (not_not.mpr hafter)]
    simp only [validatorNodes_writeListNode, Function.update_idem, Function.update_self]
  · rw [if_pos hafter, if_pos hafter]
    simp only [validatorNodes_writeListNode, Function.update_idem, Function.update_self]

/-- A field that is kept in the nodes of one validator is kept by every delegator. -/
theorem comp_validatorNodes {γ : Type*} {f : ListNode → γ} {nodes : Address → ListNode}
    (h : s'.listNodes = Function.update s.listNodes v nodes) (hf : f ∘ nodes = f ∘ s.listNodes v)
    (d : Address) : f ∘ s'.validatorNodes d = f ∘ s.validatorNodes d := by
  funext v'
  change f (s'.listNodes v' d) = f (s.listNodes v' d)
  rw [h]
  by_cases hv : v' = v
  · subst hv
    rw [Function.update_self]
    exact congrFun hf d
  · rw [Function.update_of_ne hv]

/-- A field that is kept in the nodes of one delegator is kept by every validator. -/
theorem comp_listNodes {γ : Type*} {f : ListNode → γ} {nodes : ValId → ListNode}
    (h : s'.validatorNodes = Function.update s.validatorNodes d nodes)
    (hf : f ∘ nodes = f ∘ s.validatorNodes d) (v : ValId) :
    f ∘ s'.listNodes v = f ∘ s.listNodes v := by
  funext d'
  change f (s'.validatorNodes d' v) = f (s.validatorNodes d' v)
  rw [h]
  by_cases hd : d' = d
  · subst hd
    rw [Function.update_self]
    exact congrFun hf v
  · rw [Function.update_of_ne hd]

end Writes

/-- The lists that the nodes hold: the delegators of every validator and the validators of every
delegator. -/
structure Lists (s : Storage) (delegatorsOf : ValId → List Address)
    (validatorsOf : Address → List ValId) : Prop where
  delegators : ∀ v, Linked (fun d => (s.listNodes v d).anext) (fun d => (s.listNodes v d).aprev)
    0 sentinelAddress (delegatorsOf v)
  validators : ∀ d, Linked (fun v => (s.listNodes v d).inext) (fun v => (s.listNodes v d).iprev)
    0 sentinelValId (validatorsOf d)

namespace Lists

variable {s s' : Storage} {v : ValId} {d : Address} {delegatorsOf : ValId → List Address}
  {validatorsOf : Address → List ValId}

/-- New nodes of one validator that keep the pointers to validators. -/
theorem of_listNodes (hs : Lists s delegatorsOf validatorsOf) {nodes : Address → ListNode}
    {l : List Address} (h : s'.listNodes = Function.update s.listNodes v nodes)
    (hinext : ListNode.inext ∘ nodes = ListNode.inext ∘ s.listNodes v)
    (hiprev : ListNode.iprev ∘ nodes = ListNode.iprev ∘ s.listNodes v)
    (hl : Linked (ListNode.anext ∘ nodes) (ListNode.aprev ∘ nodes) 0 sentinelAddress l) :
    Lists s' (Function.update delegatorsOf v l) validatorsOf := by
  refine ⟨fun v' => ?_, fun d' => ?_⟩
  · change Linked (ListNode.anext ∘ s'.listNodes v') (ListNode.aprev ∘ s'.listNodes v') _ _ _
    rw [h]
    by_cases hv : v' = v
    · subst hv
      rw [Function.update_self, Function.update_self]
      exact hl
    · rw [Function.update_of_ne hv, Function.update_of_ne hv]
      exact hs.delegators v'
  · change Linked (ListNode.inext ∘ s'.validatorNodes d') (ListNode.iprev ∘ s'.validatorNodes d')
      _ _ _
    rw [comp_validatorNodes h hinext, comp_validatorNodes h hiprev]
    exact hs.validators d'

/-- New nodes of one delegator that keep the pointers to delegators. -/
theorem of_validatorNodes (hs : Lists s delegatorsOf validatorsOf) {nodes : ValId → ListNode}
    {l : List ValId} (h : s'.validatorNodes = Function.update s.validatorNodes d nodes)
    (hanext : ListNode.anext ∘ nodes = ListNode.anext ∘ s.validatorNodes d)
    (haprev : ListNode.aprev ∘ nodes = ListNode.aprev ∘ s.validatorNodes d)
    (hl : Linked (ListNode.inext ∘ nodes) (ListNode.iprev ∘ nodes) 0 sentinelValId l) :
    Lists s' delegatorsOf (Function.update validatorsOf d l) := by
  refine ⟨fun v' => ?_, fun d' => ?_⟩
  · change Linked (ListNode.anext ∘ s'.listNodes v') (ListNode.aprev ∘ s'.listNodes v') _ _ _
    rw [comp_listNodes h hanext, comp_listNodes h haprev]
    exact hs.delegators v'
  · change Linked (ListNode.inext ∘ s'.validatorNodes d') (ListNode.iprev ∘ s'.validatorNodes d')
      _ _ _
    rw [h]
    by_cases hd : d' = d
    · subst hd
      rw [Function.update_self, Function.update_self]
      exact hl
    · rw [Function.update_of_ne hd, Function.update_of_ne hd]
      exact hs.validators d'

/-- The lists are read off the nodes. -/
theorem congr (hs : Lists s delegatorsOf validatorsOf) (h : s'.listNodes = s.listNodes) :
    Lists s' delegatorsOf validatorsOf := by
  refine ⟨fun v => ?_, fun d => ?_⟩
  · rw [h]
    exact hs.delegators v
  · rw [h]
    exact hs.validators d

/-- A delegator enters the list of a validator once. -/
theorem insertAddress (hs : Lists s delegatorsOf validatorsOf)
    (h : linkedListInsertAddress s v d = .ok s') :
    ∃ l, Lists s' (Function.update delegatorsOf v l) validatorsOf ∧
      ∀ d', d' ∈ l ↔ d' = d ∨ d' ∈ delegatorsOf v := by
  by_cases hin : (s.listNodes v d).aprev = 0
  · have hnodes := linkedListInsertAddress_nodes h hin
    simp only [linkedListInsertAddress, bind_eq_ok, failIf_eq_ok, not_or] at h
    obtain ⟨-, ⟨hnil, hsentinel⟩, -⟩ := h
    have hout : d ∉ delegatorsOf v := fun hmem => (hs.delegators v).prev_ne_nil_iff.mpr hmem hin
    refine ⟨d :: delegatorsOf v, hs.of_listNodes hnodes ?_ ?_ ?_, fun d' => List.mem_cons⟩
    · exact delegatorLinks.insertNode_comp _ _ _ _ _ (fun _ _ => rfl) fun _ _ => rfl
    · exact delegatorLinks.insertNode_comp _ _ _ _ _ (fun _ _ => rfl) fun _ _ => rfl
    · exact delegatorLinks.insertNode_linked (hs.delegators v) hnil hsentinel hout
  · have hmem : d ∈ delegatorsOf v := (hs.delegators v).prev_ne_nil_iff.mp hin
    simp only [linkedListInsertAddress, bind_eq_ok] at h
    obtain ⟨-, -, h⟩ := h
    rw [if_pos hin, pure_eq_ok] at h
    subst h
    refine ⟨delegatorsOf v, by rwa [Function.update_eq_self], fun d' => ⟨.inr, fun h => ?_⟩⟩
    rcases h with rfl | h
    · exact hmem
    · exact h

/-- A validator enters the list of a delegator once. -/
theorem insertValId (hs : Lists s delegatorsOf validatorsOf)
    (h : linkedListInsertValId s v d = .ok s') :
    ∃ l, Lists s' delegatorsOf (Function.update validatorsOf d l) ∧
      ∀ v', v' ∈ l ↔ v' = v ∨ v' ∈ validatorsOf d := by
  by_cases hin : (s.listNodes v d).iprev = 0
  · have hnodes := linkedListInsertValId_nodes h hin
    simp only [linkedListInsertValId, bind_eq_ok, failIf_eq_ok, not_or] at h
    obtain ⟨-, ⟨hnil, hsentinel⟩, -⟩ := h
    have hout : v ∉ validatorsOf d := fun hmem => (hs.validators d).prev_ne_nil_iff.mpr hmem hin
    refine ⟨v :: validatorsOf d, hs.of_validatorNodes hnodes ?_ ?_ ?_, fun v' => List.mem_cons⟩
    · exact validatorLinks.insertNode_comp _ _ _ _ _ (fun _ _ => rfl) fun _ _ => rfl
    · exact validatorLinks.insertNode_comp _ _ _ _ _ (fun _ _ => rfl) fun _ _ => rfl
    · exact validatorLinks.insertNode_linked (hs.validators d) hnil hsentinel hout
  · have hmem : v ∈ validatorsOf d := (hs.validators d).prev_ne_nil_iff.mp hin
    simp only [linkedListInsertValId, bind_eq_ok] at h
    obtain ⟨-, -, h⟩ := h
    rw [if_pos hin, pure_eq_ok] at h
    subst h
    refine ⟨validatorsOf d, by rwa [Function.update_eq_self], fun v' => ⟨.inr, fun h => ?_⟩⟩
    rcases h with rfl | h
    · exact hmem
    · exact h

/-- A delegator leaves the list of a validator. -/
theorem removeAddress (hs : Lists s delegatorsOf validatorsOf) (v : ValId) (d : Address) :
    ∃ l, Lists (linkedListRemoveAddress s v d) (Function.update delegatorsOf v l) validatorsOf ∧
      ∀ d', d' ∈ l ↔ d' ≠ d ∧ d' ∈ delegatorsOf v := by
  by_cases hin : (s.listNodes v d).aprev = 0
  · have hsame : linkedListRemoveAddress s v d = s := if_pos hin
    have hout : d ∉ delegatorsOf v := fun hmem => (hs.delegators v).prev_ne_nil_iff.mpr hmem hin
    rw [hsame]
    refine ⟨delegatorsOf v, by rwa [Function.update_eq_self], fun d' => ⟨fun h => ?_, And.right⟩⟩
    exact ⟨fun heq => hout (heq ▸ h), h⟩
  · have hnodes := linkedListRemoveAddress_nodes hin
    have hlinked := hs.delegators v
    have hmem : d ∈ delegatorsOf v := hlinked.prev_ne_nil_iff.mp hin
    obtain ⟨l₁, l₂, hsplit⟩ := List.append_of_mem hmem
    rw [hsplit] at hlinked ⊢
    refine ⟨l₁ ++ l₂, hs.of_listNodes hnodes ?_ ?_ ?_, fun d' => ?_⟩
    · exact delegatorLinks.removeNode_comp _ _ _ _ (fun _ _ => rfl) fun _ _ => rfl
    · exact delegatorLinks.removeNode_comp _ _ _ _ (fun _ _ => rfl) fun _ _ => rfl
    · exact delegatorLinks.removeNode_linked hlinked
    · exact hlinked.mem_append_iff d'

/-- A validator leaves the list of a delegator. -/
theorem removeValId (hs : Lists s delegatorsOf validatorsOf) (v : ValId) (d : Address) :
    ∃ l, Lists (linkedListRemoveValId s v d) delegatorsOf (Function.update validatorsOf d l) ∧
      ∀ v', v' ∈ l ↔ v' ≠ v ∧ v' ∈ validatorsOf d := by
  by_cases hin : (s.listNodes v d).iprev = 0
  · have hsame : linkedListRemoveValId s v d = s := if_pos hin
    have hout : v ∉ validatorsOf d := fun hmem => (hs.validators d).prev_ne_nil_iff.mpr hmem hin
    rw [hsame]
    refine ⟨validatorsOf d, by rwa [Function.update_eq_self], fun v' => ⟨fun h => ?_, And.right⟩⟩
    exact ⟨fun heq => hout (heq ▸ h), h⟩
  · have hnodes := linkedListRemoveValId_nodes hin
    have hlinked := hs.validators d
    have hmem : v ∈ validatorsOf d := hlinked.prev_ne_nil_iff.mp hin
    obtain ⟨l₁, l₂, hsplit⟩ := List.append_of_mem hmem
    rw [hsplit] at hlinked ⊢
    refine ⟨l₁ ++ l₂, hs.of_validatorNodes hnodes ?_ ?_ ?_, fun v' => ?_⟩
    · exact validatorLinks.removeNode_comp _ _ _ _ (fun _ _ => rfl) fun _ _ => rfl
    · exact validatorLinks.removeNode_comp _ _ _ _ (fun _ _ => rfl) fun _ _ => rfl
    · exact validatorLinks.removeNode_linked hlinked
    · exact hlinked.mem_append_iff v'

end Lists

/-- The lists say who has stake with whom. -/
def ListsRight (s : Storage) : Prop :=
  ∃ delegatorsOf validatorsOf, Lists s delegatorsOf validatorsOf ∧
    ∀ v d, (d ∈ delegatorsOf v ↔ (s.delegators v d).principal ≠ 0) ∧
      (v ∈ validatorsOf d ↔ (s.delegators v d).principal ≠ 0)

section Steps

variable {s s' : Storage} {v : ValId} {d : Address} {amount : ℕ}

/-- Membership in an updated family of lists. -/
theorem mem_update {κ ι : Type*} [DecidableEq ι] {lists : ι → List κ} {i : ι} {l : List κ}
    (P : ι → κ → Prop) (hl : ∀ k, k ∈ l ↔ P i k) (hlists : ∀ j, j ≠ i → ∀ k, k ∈ lists j ↔ P j k)
    (j : ι) (k : κ) : k ∈ Function.update lists i l j ↔ P j k := by
  by_cases hj : j = i
  · subst hj
    rw [Function.update_self]
    exact hl k
  · rw [Function.update_of_ne hj]
    exact hlists j hj k

/-- New lists that differ in one record, whose principal has become zero or nonzero. -/
theorem ListsRight.update (hs : ListsRight s) (b : Bool)
    (hlists : ∀ delegatorsOf validatorsOf, Lists s delegatorsOf validatorsOf → ∃ l l',
      Lists s' (Function.update delegatorsOf v l) (Function.update validatorsOf d l') ∧
      (∀ d', d' ∈ l ↔ if d' = d then b = true else d' ∈ delegatorsOf v) ∧
      ∀ v', v' ∈ l' ↔ if v' = v then b = true else v' ∈ validatorsOf d)
    (hself : (s'.delegators v d).principal ≠ 0 ↔ b = true)
    (hoff : ∀ v' d', ¬(v' = v ∧ d' = d) →
      (s'.delegators v' d').principal = (s.delegators v' d').principal) : ListsRight s' := by
  obtain ⟨delegatorsOf, validatorsOf, hlinked, hmem⟩ := hs
  obtain ⟨l, l', hlinked', hl, hl'⟩ := hlists delegatorsOf validatorsOf hlinked
  refine ⟨_, _, hlinked', fun v' d' => ⟨?_, ?_⟩⟩
  · refine mem_update (fun v' d' => (s'.delegators v' d').principal ≠ 0) ?_ ?_ v' d'
    · intro d'
      rw [hl]
      by_cases hd : d' = d
      · rw [if_pos hd, hd, hself]
      · rw [if_neg hd, hoff v d' fun h => hd h.2, (hmem v d').1]
    · intro v' hv d'
      rw [hoff v' d' fun h => hv h.1, (hmem v' d').1]
  · refine mem_update (fun d' v' => (s'.delegators v' d').principal ≠ 0) ?_ ?_ d' v'
    · intro v'
      rw [hl']
      by_cases hv : v' = v
      · rw [if_pos hv, hv, hself]
      · rw [if_neg hv, hoff v' d fun h => hv h.1, (hmem v' d).2]
    · intro d' hd v'
      rw [hoff v' d' fun h => hd h.2, (hmem v' d').2]

/-- A record that gets stake enters both lists. -/
theorem Joins.listsRight (h : Joins v d amount s s') (hamount : amount ≠ 0) (hs : ListsRight s) :
    ListsRight s' := by
  obtain ⟨s₁, s₂, hroster, -, -, henlist, hroster'⟩ := h.enlisted
  obtain ⟨-, -, -, -, t, ht, hinsert⟩ := enlist_roster henlist
  have hbefore : t.listNodes = s.listNodes := ht.trans (congrArg Roster.listNodes hroster)
  have hafter : s'.listNodes = s₂.listNodes := congrArg Roster.listNodes hroster'
  simp only [linkedListInsert, bind_eq_ok] at hinsert
  obtain ⟨t', haddress, hval⟩ := hinsert
  refine hs.update true (fun delegatorsOf validatorsOf hlinked => ?_) ?_ h.principal_off
  · obtain ⟨l, hlinked₁, hl⟩ := (hlinked.congr hbefore).insertAddress haddress
    obtain ⟨l', hlinked₂, hl'⟩ := hlinked₁.insertValId hval
    refine ⟨l, l', hlinked₂.congr hafter, fun d' => (hl d').trans ?_, fun v' => (hl' v').trans ?_⟩
    · by_cases hd : d' = d <;> simp [hd]
    · by_cases hv : v' = v <;> simp [hv]
  · rw [h.principal_eq]
    simp [hamount]

/-- A record that loses all its stake leaves both lists. -/
theorem Leaves.listsRight (h : Leaves v d amount s s') (hs : ListsRight s) : ListsRight s' := by
  obtain ⟨s₁, s₂, hroster, -, hflags, hroster'⟩ := h.delisted
  rw [updateFlagsAfterUndelegate_roster, hroster] at hflags
  have hbefore : s₂.listNodes = s.listNodes := congrArg Roster.listNodes hflags
  have hold := h.principal_eq
  by_cases hexists : (s'.delegators v d).Exists
  · rw [if_pos hexists] at hroster'
    have hafter : s'.listNodes = s.listNodes :=
      (congrArg Roster.listNodes hroster').trans hbefore
    obtain ⟨delegatorsOf, validatorsOf, hlinked, hmem⟩ := hs
    refine ⟨delegatorsOf, validatorsOf, hlinked.congr hafter, fun v' d' => ?_⟩
    have hsame : (s'.delegators v' d').principal ≠ 0 ↔ (s.delegators v' d').principal ≠ 0 := by
      by_cases hself : v' = v ∧ d' = d
      · obtain ⟨rfl, rfl⟩ := hself
        have hne := Delegator.exists_iff_principal.mp hexists
        omega
      · rw [h.principal_off v' d' hself]
    rw [hsame]
    exact hmem v' d'
  · rw [if_neg hexists] at hroster'
    have hafter : s'.listNodes = (linkedListRemove s₂ v d).listNodes :=
      congrArg Roster.listNodes hroster'
    refine hs.update false (fun delegatorsOf validatorsOf hlinked => ?_) ?_ h.principal_off
    · obtain ⟨l, hlinked₁, hl⟩ := (hlinked.congr hbefore).removeAddress v d
      obtain ⟨l', hlinked₂, hl'⟩ := hlinked₁.removeValId v d
      refine ⟨l, l', hlinked₂.congr hafter, fun d' => (hl d').trans ?_, fun v' => (hl' v').trans ?_⟩
      · by_cases hd : d' = d <;> simp [hd]
      · by_cases hv : v' = v <;> simp [hv]
    · rw [← Delegator.exists_iff_principal]
      simp [hexists]

/-- Every step of the roster keeps the lists right. -/
theorem RosterStep.listsRight {caller : Address} (h : RosterStep caller s s') (hs : ListsRight s) :
    ListsRight s' := by
  have hsame {s s' : Storage} (hs : ListsRight s) (hnodes : s'.listNodes = s.listNodes)
      (hprincipal : ∀ v d, (s'.delegators v d).principal = (s.delegators v d).principal) :
      ListsRight s' := by
    obtain ⟨delegatorsOf, validatorsOf, hlinked, hmem⟩ := hs
    refine ⟨delegatorsOf, validatorsOf, hlinked.congr hnodes, fun v d => ?_⟩
    rw [hprincipal]
    exact hmem v d
  cases h with
  | keeps hkeeps =>
    exact hsame hs (congrArg Roster.listNodes hkeeps.roster_eq) hkeeps.principal_eq
  | joins v d amount s₁ hexists hamount hkeeps hjoins =>
    exact hjoins.listsRight hamount
      (hsame hs (congrArg Roster.listNodes hkeeps.roster_eq) hkeeps.principal_eq)
  | leaves v amount hexists hamount hleaves => exact hleaves.listsRight hs
  | creates v s₁ _ _ auth commission amount hcreate hauth hne hsentinel hle hmin hjoins =>
    have hamount : amount ≠ 0 := by
      have hpos : 0 < minAuthAddressStake := by decide
      omega
    simp only [createValidator, bind_eq_ok, pure_eq_ok, Prod.mk.injEq] at hcreate
    obtain ⟨-, -, -, -, -, rfl⟩ := hcreate
    exact hjoins.listsRight hamount (hsame hs rfl fun _ _ => rfl)
  | recommissions v commission hcaller hle hpools hroster =>
    exact hsame hs (congrArg Roster.listNodes hroster)
      fun v' d => congrArg (fun p => (p.delegators d).principal) (hpools v')
  | snapshot hboundary htake =>
    obtain ⟨hnodes, hdelegators⟩ := takeSnapshot_lists s
    rw [htake]
    exact hsame hs hnodes fun v d => by rw [hdelegators]
  | epochChange next hlt hchange =>
    rw [hchange]
    exact hsame hs (congrArg Roster.listNodes (changeEpoch_roster s next))
      fun v d => congrArg Delegator.principal (congrFun (changeEpoch_delegators s next v) d)

end Steps

section Reachable

variable {guard : Storage → Message × StakingCall → Storage → Prop} {s : Storage}

/-- The lists are right in every reachable state. -/
theorem reachable_listsRight (hguard : ∀ s tx s', guard s tx s' → s'.epoch < 2 ^ 63)
    (h : Reachable stakingStep guard .empty s) : ListsRight s := by
  refine reachable_roster ListsRight hguard ?_ (fun s income hs => ?_) ?_ h
  · refine ⟨fun _ => [], fun _ => [], ⟨fun v => ?_, fun d => ?_⟩, fun v d => ?_⟩
    · exact .empty (by decide +kernel) rfl fun _ => rfl
    · exact .empty (by decide +kernel) rfl fun _ => rfl
    · have hzero : (Storage.empty.delegators v d).principal = 0 := rfl
      simp [hzero]
  · obtain ⟨delegatorsOf, validatorsOf, hlinked, hmem⟩ := hs
    exact ⟨delegatorsOf, validatorsOf, hlinked.congr rfl, hmem⟩
  · exact fun caller s s' _ _ _ _ hstep hs => hstep.listsRight hs

/-- Delegation lists are well formed and say who delegates: the delegators of every validator and
the validators of every delegator form a list from the sentinel, without repetition and mirrored,
and a delegator is in the one, a validator in the other and their node points back in either
exactly when the record has stake. -/
theorem delegation_lists_right (h : Reachable stakingStep EpochsBounded .empty s) :
    ∃ (delegatorsOf : ValId → List Address) (validatorsOf : Address → List ValId),
      (∀ v, Linked (fun d => (s.listNodes v d).anext) (fun d => (s.listNodes v d).aprev)
        0 sentinelAddress (delegatorsOf v)) ∧
      (∀ d, Linked (fun v => (s.listNodes v d).inext) (fun v => (s.listNodes v d).iprev)
        0 sentinelValId (validatorsOf d)) ∧
      ∀ v d, List.TFAE [d ∈ delegatorsOf v, v ∈ validatorsOf d, (s.listNodes v d).aprev ≠ 0,
        (s.listNodes v d).iprev ≠ 0, (s.delegators v d).stake ≠ 0 ∨
          (s.delegators v d).deltaStake ≠ 0 ∨ (s.delegators v d).nextDeltaStake ≠ 0] := by
  have hguard (s : Storage) (tx) (s' : Storage) (hg : EpochsBounded s tx s') :
      s'.epoch < 2 ^ 63 := hg
  obtain ⟨delegatorsOf, validatorsOf, hlinked, hmem⟩ := reachable_listsRight hguard h
  refine ⟨delegatorsOf, validatorsOf, hlinked.delegators, hlinked.validators, fun v d => ?_⟩
  have hrecord : d ∈ delegatorsOf v ↔ (s.delegators v d).Exists := by
    rw [Delegator.exists_iff_principal, (hmem v d).1]
  tfae_have 1 ↔ 5 := hrecord
  tfae_have 1 ↔ 2 := by rw [(hmem v d).1, (hmem v d).2]
  tfae_have 3 ↔ 1 := (hlinked.delegators v).prev_ne_nil_iff
  tfae_have 4 ↔ 2 := (hlinked.validators d).prev_ne_nil_iff
  tfae_finish

/-- In the opened state the node of the small delegator points back, so its record has stake. -/
theorem delegation_lists_right_opened : (openedState.delegators 1 9).stake ≠ 0 ∨
    (openedState.delegators 1 9).deltaStake ≠ 0 ∨
      (openedState.delegators 1 9).nextDeltaStake ≠ 0 := by
  obtain ⟨delegatorsOf, validatorsOf, -, -, hall⟩ := delegation_lists_right openedState_bounded
  have hpointer : (openedState.listNodes 1 9).aprev ≠ 0 := by decide +kernel
  exact ((hall 1 9).out 2 4).mp hpointer

end Reachable

end SuwappuRevm.Staking
