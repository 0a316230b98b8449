import Mathlib.Data.List.Nodup
import Mathlib.Logic.Function.Basic
import Mathlib.Tactic.Tauto

/-!
# Doubly linked lists in memory

A doubly linked list kept in two pointer maps, with a sentinel before its first node and a null
pointer after its last. Inserting at the front and unlinking a node are a few pointer writes; the
list of nodes says what they do. The pointers may be fields of larger nodes that are read and
written whole, as when several lists are threaded through the same nodes.
-/

namespace SuwappuRevm.Foundations

variable {α : Type*}

/-- Following `next` from `a` visits the nodes of the list and then arrives at `b`. -/
def Path (next : α → α) : α → List α → α → Prop
  | a, [], b => next a = b
  | a, x :: l, b => next a = x ∧ Path next x l b

/-- Each node of the list points back to the one before it, the first one to `a`. -/
def Mirror (prev : α → α) : α → List α → Prop
  | _, [] => True
  | a, x :: l => prev x = a ∧ Mirror prev x l

/-- The last node of a list, or `a` when it is empty. -/
def lastNode : α → List α → α
  | a, [] => a
  | _, x :: l => lastNode x l

section Paths

variable {next next' prev prev' : α → α} {a b x : α} {l l₁ l₂ : List α}

/-- The last node is one of the nodes. -/
theorem lastNode_mem (a : α) (l : List α) : lastNode a l ∈ a :: l := by
  induction l generalizing a with
  | nil => exact List.mem_singleton_self a
  | cons x l ih => exact List.mem_cons_of_mem a (ih x)

/-- Maps that agree on the nodes have the same paths. -/
theorem Path.congr (h : Path next a l b) (hsame : ∀ y ∈ a :: l, next' y = next y) :
    Path next' a l b := by
  induction l generalizing a with
  | nil => exact (hsame a List.mem_cons_self).trans h
  | cons x l ih =>
    exact ⟨(hsame a List.mem_cons_self).trans h.1,
      ih h.2 fun y hy => hsame y (List.mem_cons_of_mem a hy)⟩

/-- Maps that agree on the nodes mirror the same lists. -/
theorem Mirror.congr (h : Mirror prev a l) (hsame : ∀ y ∈ l, prev' y = prev y) :
    Mirror prev' a l := by
  induction l generalizing a with
  | nil => trivial
  | cons x l ih =>
    exact ⟨(hsame x List.mem_cons_self).trans h.1,
      ih h.2 fun y hy => hsame y (List.mem_cons_of_mem x hy)⟩

/-- A path through a node is a path to it and a path from it. -/
theorem path_append : Path next a (l₁ ++ x :: l₂) b ↔ Path next a l₁ x ∧ Path next x l₂ b := by
  induction l₁ generalizing a with
  | nil => rfl
  | cons y l₁ ih =>
    rw [List.cons_append, Path, Path, ih, and_assoc]

/-- A mirrored list through a node. -/
theorem mirror_append : Mirror prev a (l₁ ++ x :: l₂) ↔
    Mirror prev a l₁ ∧ prev x = lastNode a l₁ ∧ Mirror prev x l₂ := by
  induction l₁ generalizing a with
  | nil => simp [Mirror, lastNode]
  | cons y l₁ ih =>
    rw [List.cons_append, Mirror, Mirror, ih, and_assoc]
    rfl

/-- Redirecting the last node of a path redirects the path. -/
theorem Path.redirect [DecidableEq α] (h : Path next a l b) (hnodup : (a :: l).Nodup) (c : α) :
    Path (Function.update next (lastNode a l) c) a l c := by
  induction l generalizing a with
  | nil => exact Function.update_self ..
  | cons x l ih =>
    rw [List.nodup_cons] at hnodup
    have hne : a ≠ lastNode x l := fun heq => hnodup.1 (heq ▸ lastNode_mem x l)
    exact ⟨(Function.update_of_ne hne ..).trans h.1, ih h.2 hnodup.2⟩

end Paths

section Ahead

variable {next : α → α} {nil ptr x : α} {l : List α}

/-- Following a pointer visits the list and ends at the null pointer. -/
def Ahead (next : α → α) (nil ptr : α) : List α → Prop
  | [] => ptr = nil
  | x :: l => ptr = x ∧ Path next x l nil

/-- What is ahead behind a node. -/
theorem Path.ahead (h : Path next x l nil) :
    Ahead next nil (next x) l := by
  cases l with
  | nil => exact h
  | cons y l => exact h

/-- Whether something is ahead can be seen at the pointer. -/
theorem Ahead.eq_nil_iff (h : Ahead next nil ptr l) (hnil : nil ∉ l) :
    ptr = nil ↔ l = [] := by
  cases l with
  | nil => exact ⟨fun _ => rfl, fun _ => h⟩
  | cons x l =>
    obtain ⟨rfl, -⟩ := h
    rw [List.mem_cons, not_or] at hnil
    exact ⟨fun heq => absurd heq.symm hnil.1, fun heq => absurd heq (List.cons_ne_nil _ _)⟩

end Ahead

/-- The list that two pointer maps hold: from the sentinel to the null pointer, without
repetition, mirrored, and no other node points back. -/
structure Linked (next prev : α → α) (nil sentinel : α) (l : List α) : Prop where
  nodup : (nil :: sentinel :: l).Nodup
  path : Path next sentinel l nil
  mirror : Mirror prev sentinel l
  prev_off : ∀ a, a ∉ l → prev a = nil

namespace Linked

variable {next prev : α → α} {nil sentinel x : α} {l : List α}

/-- The sentinel is not the null pointer. -/
theorem sentinel_ne_nil (h : Linked next prev nil sentinel l) : sentinel ≠ nil := by
  have hnodup := h.nodup
  rw [List.nodup_cons, List.mem_cons, not_or] at hnodup
  exact fun heq => hnodup.1.1 heq.symm

/-- The null pointer is no node. -/
theorem nil_notMem (h : Linked next prev nil sentinel l) : nil ∉ l := by
  have hnodup := h.nodup
  rw [List.nodup_cons, List.mem_cons, not_or] at hnodup
  exact hnodup.1.2

/-- The sentinel is no node. -/
theorem sentinel_notMem (h : Linked next prev nil sentinel l) : sentinel ∉ l :=
  (List.nodup_cons.mp h.nodup.of_cons).1

/-- The nodes are distinct. -/
theorem list_nodup (h : Linked next prev nil sentinel l) : l.Nodup := h.nodup.of_cons.of_cons

/-- The nodes but one. -/
theorem mem_append_iff {l₁ l₂ : List α} (h : Linked next prev nil sentinel (l₁ ++ x :: l₂))
    (a : α) :
    a ∈ l₁ ++ l₂ ↔ a ≠ x ∧ a ∈ l₁ ++ x :: l₂ := by
  have hnodup := h.list_nodup
  rw [List.nodup_middle, List.nodup_cons] at hnodup
  have hne (hmem : a ∈ l₁ ++ l₂) : a ≠ x := fun heq => hnodup.1 (heq ▸ hmem)
  rw [List.mem_append] at hne ⊢
  rw [List.mem_append, List.mem_cons]
  tauto

/-- A node points back, the others do not. -/
theorem prev_ne_nil_iff (h : Linked next prev nil sentinel l) : prev x ≠ nil ↔ x ∈ l := by
  refine ⟨fun hprev => by_contra fun hnot => hprev (h.prev_off x hnot), fun hmem => ?_⟩
  obtain ⟨l₁, l₂, rfl⟩ := List.append_of_mem hmem
  obtain ⟨-, hback, -⟩ := mirror_append.mp h.mirror
  rw [hback]
  rcases List.mem_cons.mp (lastNode_mem sentinel l₁) with heq | hmem'
  · rw [heq]
    exact h.sentinel_ne_nil
  · exact fun heq => h.nil_notMem (List.mem_append_left _ (heq ▸ hmem'))

/-- The sentinel points to a node or to nothing. -/
theorem next_sentinel_mem (h : Linked next prev nil sentinel l) (hne : next sentinel ≠ nil) :
    next sentinel ∈ l := by
  cases l with
  | nil => exact absurd h.path hne
  | cons y l => exact h.path.1 ▸ List.mem_cons_self

/-- The sentinel does not point to itself. -/
theorem next_sentinel_ne (h : Linked next prev nil sentinel l) : next sentinel ≠ sentinel := by
  intro heq
  have hne : next sentinel ≠ nil := by
    rw [heq]
    exact h.sentinel_ne_nil
  have hmem := h.next_sentinel_mem hne
  rw [heq] at hmem
  exact h.sentinel_notMem hmem

/-- The empty list. -/
theorem empty (hne : nil ≠ sentinel) (hnext : next sentinel = nil) (hprev : ∀ a, prev a = nil) :
    Linked next prev nil sentinel [] :=
  ⟨by simpa using hne, hnext, trivial, fun a _ => hprev a⟩

variable [DecidableEq α]

/-- The pointers after inserting a node at the front. -/
theorem insert (h : Linked next prev nil sentinel l) (hnil : x ≠ nil) (hsentinel : x ≠ sentinel)
    (hx : x ∉ l) {next' prev' : α → α}
    (hnext : next' = Function.update (Function.update next x (next sentinel)) sentinel x)
    (hprev : prev' = Function.update
      (if next sentinel ≠ nil then Function.update prev (next sentinel) x else prev) x sentinel) :
    Linked next' prev' nil sentinel (x :: l) := by
  have hfirst : next' sentinel = x := by rw [hnext, Function.update_self]
  have hsecond : next' x = next sentinel := by
    rw [hnext, Function.update_of_ne hsentinel, Function.update_self]
  have hback : prev' x = sentinel := by rw [hprev, Function.update_self]
  have hrest (y) (hy : y ∈ l) : next' y = next y := by
    have hys : y ≠ sentinel := fun heq => h.sentinel_notMem (heq ▸ hy)
    have hyx : y ≠ x := fun heq => hx (heq ▸ hy)
    rw [hnext, Function.update_of_ne hys, Function.update_of_ne hyx]
  refine ⟨?_, ⟨hfirst, ?_⟩, ⟨hback, ?_⟩, fun a ha => ?_⟩
  · have hnodup := h.nodup
    simp only [List.nodup_cons, List.mem_cons, not_or] at hnodup ⊢
    exact ⟨⟨hnodup.1.1, hnil.symm, hnodup.1.2⟩, ⟨hsentinel.symm, hnodup.2.1⟩, hx, hnodup.2.2⟩
  · cases l with
    | nil => exact hsecond.trans h.path
    | cons y l =>
      refine ⟨hsecond.trans h.path.1, h.path.2.congr hrest⟩
  · cases l with
    | nil => trivial
    | cons y l =>
      have hy : next sentinel = y := h.path.1
      have hyx : y ≠ x := fun heq => hx (heq ▸ List.mem_cons_self)
      have hynil : y ≠ nil := fun heq => h.nil_notMem (heq ▸ List.mem_cons_self)
      rw [hy, if_pos hynil] at hprev
      refine ⟨by rw [hprev, Function.update_of_ne hyx, Function.update_self],
        h.mirror.2.congr fun z hz => ?_⟩
      have hzx : z ≠ x := fun heq => hx (heq ▸ List.mem_cons_of_mem y hz)
      have hzy : z ≠ y := fun heq => (List.nodup_cons.mp h.list_nodup).1 (heq ▸ hz)
      rw [hprev, Function.update_of_ne hzx, Function.update_of_ne hzy]
  · rw [List.mem_cons, not_or] at ha
    rw [hprev, Function.update_of_ne ha.1]
    split
    next hne =>
      have hfirst := h.next_sentinel_mem hne
      have hne : a ≠ next sentinel := fun heq => ha.2 (heq ▸ hfirst)
      rw [Function.update_of_ne hne]
      exact h.prev_off a ha.2
    next => exact h.prev_off a ha.2

/-- The pointers after unlinking a node. -/
theorem erase {l₁ l₂ : List α} (h : Linked next prev nil sentinel (l₁ ++ x :: l₂))
    {next' prev' : α → α}
    (hnext : next' = Function.update (Function.update next (prev x) (next x)) x nil)
    (hprev : prev' = Function.update
      (if next x ≠ nil then Function.update prev (next x) (prev x) else prev) x nil) :
    Linked next' prev' nil sentinel (l₁ ++ l₂) := by
  obtain ⟨hpath₁, hpath₂⟩ := path_append.mp h.path
  obtain ⟨hmirror₁, hback, hmirror₂⟩ := mirror_append.mp h.mirror
  have hnodup : (sentinel :: (l₁ ++ x :: l₂)).Nodup := h.nodup.of_cons
  have hmiddle : (sentinel :: l₁ ++ x :: l₂).Perm (x :: (sentinel :: l₁ ++ l₂)) :=
    List.perm_middle
  have hsplit : (x :: (sentinel :: l₁ ++ l₂)).Nodup := hmiddle.nodup_iff.mp hnodup
  rw [List.nodup_cons, List.mem_append, not_or] at hsplit
  obtain ⟨⟨hx₁, hx₂⟩, hkept⟩ := hsplit
  have hnodup₁ : (sentinel :: l₁).Nodup := (List.nodup_append.mp hkept).1
  have hlast : lastNode sentinel l₁ ∉ l₂ := fun hmem =>
    (List.nodup_append.mp hkept).2.2 _ (lastNode_mem sentinel l₁) _ hmem rfl
  have hxne (y) (hy : y ∈ sentinel :: l₁) : y ≠ x := fun heq => hx₁ (heq ▸ hy)
  -- the node before the unlinked one now points to the node after it
  have hfirst : Path next' sentinel l₁ (next x) := by
    refine (hpath₁.redirect hnodup₁ (next x)).congr fun y hy => ?_
    rw [hnext, hback, Function.update_of_ne (hxne y hy)]
  have hrest (y) (hy : y ∈ l₂) : next' y = next y := by
    have hyx : y ≠ x := fun heq => hx₂ (heq ▸ hy)
    have hyp : y ≠ lastNode sentinel l₁ := fun heq => hlast (heq ▸ hy)
    rw [hnext, hback, Function.update_of_ne hyx, Function.update_of_ne hyp]
  refine ⟨?_, ?_, ?_, fun a ha => ?_⟩
  · refine h.nodup.sublist ?_
    exact ((List.sublist_cons_self x l₂).append_left l₁).cons_cons sentinel |>.cons_cons nil
  · cases l₂ with
    | nil =>
      rw [List.append_nil]
      exact hpath₂ ▸ hfirst
    | cons n l₂ => exact path_append.mpr ⟨hpath₂.1 ▸ hfirst, hpath₂.2.congr hrest⟩
  · cases l₂ with
    | nil =>
      have hnone : ¬next x ≠ nil := not_not.mpr hpath₂
      rw [if_neg hnone] at hprev
      rw [List.append_nil]
      refine hmirror₁.congr fun y hy => ?_
      rw [hprev, Function.update_of_ne (hxne y (List.mem_cons_of_mem sentinel hy))]
    | cons n l₂ =>
      have hn : next x = n := hpath₂.1
      have hnnil : n ≠ nil := fun heq => h.nil_notMem
        (List.mem_append_right l₁ (List.mem_cons_of_mem x (heq ▸ List.mem_cons_self)))
      have hnx : n ≠ x := fun heq => hx₂ (heq ▸ List.mem_cons_self)
      rw [hn, if_pos hnnil] at hprev
      refine mirror_append.mpr ⟨hmirror₁.congr fun y hy => ?_, ?_, hmirror₂.2.congr fun y hy => ?_⟩
      · have hyn : y ≠ n := fun heq => (List.nodup_append.mp hkept).2.2 y
          (List.mem_cons_of_mem sentinel hy) n List.mem_cons_self heq
        rw [hprev, Function.update_of_ne (hxne y (List.mem_cons_of_mem sentinel hy)),
          Function.update_of_ne hyn]
      · rw [hprev, Function.update_of_ne hnx, Function.update_self, hback]
      · have hyn : y ≠ n := fun heq =>
          (List.nodup_cons.mp (List.nodup_append.mp hkept).2.1).1 (heq ▸ hy)
        have hyx : y ≠ x := fun heq => hx₂ (heq ▸ List.mem_cons_of_mem n hy)
        rw [hprev, Function.update_of_ne hyx, Function.update_of_ne hyn]
  · by_cases hax : a = x
    · rw [hprev, hax, Function.update_self]
    · have hoff : a ∉ l₁ ++ x :: l₂ := by
        rw [List.mem_append, not_or] at ha
        simp [ha.1, ha.2, hax]
      rw [hprev, Function.update_of_ne hax]
      split
      next hne =>
        have hmem : next x ∈ l₁ ++ x :: l₂ := by
          cases l₂ with
          | nil => exact absurd hpath₂ hne
          | cons n l₂ => simp [hpath₂.1]
        have hne : a ≠ next x := fun heq => hoff (heq ▸ hmem)
        rw [Function.update_of_ne hne]
        exact h.prev_off a hoff
      next => exact h.prev_off a hoff

end Linked

/-- The pointers of one list in a node of type `β`. -/
structure Links (β κ : Type*) where
  next : β → κ
  prev : β → κ
  setNext : β → κ → β
  setPrev : β → κ → β
  next_setNext : ∀ b k, next (setNext b k) = k
  next_setPrev : ∀ b k, next (setPrev b k) = next b
  prev_setNext : ∀ b k, prev (setNext b k) = prev b
  prev_setPrev : ∀ b k, prev (setPrev b k) = k

namespace Links

variable {β κ : Type*} [DecidableEq κ] (L : Links β κ) (nil sentinel : κ) (node : κ → β) (x : κ)

/-- The nodes after inserting one at the front. -/
def insertNode : κ → β :=
  let first := L.next (node sentinel)
  let node₁ := if first ≠ nil then Function.update node first (L.setPrev (node first) x) else node
  let node₂ := Function.update node₁ x (L.setNext (L.setPrev (node x) sentinel) first)
  Function.update node₂ sentinel (L.setNext (node sentinel) x)

/-- The nodes after unlinking one. -/
def removeNode : κ → β :=
  let before := L.prev (node x)
  let after := L.next (node x)
  let node₁ := Function.update node before (L.setNext (node before) after)
  let node₂ :=
    if after ≠ nil then Function.update node₁ after (L.setPrev (node₁ after) before) else node₁
  Function.update node₂ x (L.setNext (L.setPrev (node x) nil) nil)

/-- A field of a node that is written with its old value stays. -/
theorem comp_update_self {γ : Type*} (f : β → γ) (k : κ) (b : β) (h : f b = f (node k)) :
    f ∘ Function.update node k b = f ∘ node := by
  rw [Function.comp_update, h]
  exact Function.update_eq_self ..

/-- The two maps of pointers after the node behind one has been pointed back. -/
theorem comp_setPrev (a : κ) :
    let node₁ := if a ≠ nil then Function.update node a (L.setPrev (node a) x) else node
    L.next ∘ node₁ = L.next ∘ node ∧ L.prev ∘ node₁ =
      if a ≠ nil then Function.update (L.prev ∘ node) a x else L.prev ∘ node := by
  dsimp only
  split
  · refine ⟨comp_update_self node L.next a _ (L.next_setPrev ..), ?_⟩
    rw [Function.comp_update, L.prev_setPrev]
  · exact ⟨rfl, rfl⟩

/-- Fields that the pointers are not part of stay in an insertion. -/
theorem insertNode_comp {γ : Type*} (f : β → γ) (hnext : ∀ b k, f (L.setNext b k) = f b)
    (hprev : ∀ b k, f (L.setPrev b k) = f b) : f ∘ L.insertNode nil sentinel node x = f ∘ node := by
  funext k
  simp only [insertNode, Function.comp_apply, Function.update_apply]
  split
  next h => rw [hnext, h]
  next =>
    split
    next h => rw [hnext, hprev, h]
    next =>
      split
      · rw [Function.update_apply]
        split
        next h => rw [hprev, h]
        next => rfl
      · rfl

/-- Fields that the pointers are not part of stay in a removal. -/
theorem removeNode_comp {γ : Type*} (f : β → γ) (hnext : ∀ b k, f (L.setNext b k) = f b)
    (hprev : ∀ b k, f (L.setPrev b k) = f b) : f ∘ L.removeNode nil node x = f ∘ node := by
  have hfirst : f ∘ Function.update node (L.prev (node x))
      (L.setNext (node (L.prev (node x))) (L.next (node x))) = f ∘ node :=
    comp_update_self node f _ _ (hnext ..)
  unfold removeNode
  dsimp only
  generalize Function.update node (L.prev (node x)) _ = node₁ at *
  have hsecond : f ∘ (if L.next (node x) ≠ nil then Function.update node₁ (L.next (node x))
      (L.setPrev (node₁ (L.next (node x))) (L.prev (node x))) else node₁) = f ∘ node := by
    split
    · exact (comp_update_self node₁ f _ _ (hprev ..)).trans hfirst
    · exact hfirst
  rw [Function.comp_update, hnext, hprev, hsecond]
  exact Function.update_eq_self ..

variable {nil sentinel node x} {l : List κ}

/-- Inserting a node at the front of its list. -/
theorem insertNode_linked (h : Linked (L.next ∘ node) (L.prev ∘ node) nil sentinel l)
    (hnil : x ≠ nil) (hsentinel : x ≠ sentinel) (hx : x ∉ l) :
    Linked (L.next ∘ L.insertNode nil sentinel node x) (L.prev ∘ L.insertNode nil sentinel node x)
      nil sentinel (x :: l) := by
  obtain ⟨hnext, hprev⟩ := L.comp_setPrev nil node x (L.next (node sentinel))
  refine h.insert hnil hsentinel hx ?_ ?_
  · unfold insertNode
    dsimp only
    rw [Function.comp_update, Function.comp_update, hnext, L.next_setNext, L.next_setNext]
    rfl
  · unfold insertNode
    dsimp only
    rw [Function.comp_update, Function.comp_update, hprev, L.prev_setNext, L.prev_setNext,
      L.prev_setPrev]
    -- the sentinel is written with its old backward pointer
    refine Function.update_eq_self_iff.mpr ?_
    rw [Function.update_of_ne hsentinel.symm]
    change (L.prev ∘ node) sentinel =
      (if (L.next ∘ node) sentinel ≠ nil then _ else L.prev ∘ node) sentinel
    split
    · exact (Function.update_of_ne h.next_sentinel_ne.symm ..).symm
    · rfl

/-- Unlinking a node of the list. -/
theorem removeNode_linked {l₁ l₂ : List κ}
    (h : Linked (L.next ∘ node) (L.prev ∘ node) nil sentinel (l₁ ++ x :: l₂)) :
    Linked (L.next ∘ L.removeNode nil node x) (L.prev ∘ L.removeNode nil node x) nil sentinel
      (l₁ ++ l₂) := by
  have hsame : L.prev ∘ Function.update node (L.prev (node x))
      (L.setNext (node (L.prev (node x))) (L.next (node x))) = L.prev ∘ node :=
    comp_update_self node L.prev _ _ (L.prev_setNext ..)
  have hredirect := Function.comp_update L.next node (L.prev (node x))
    (L.setNext (node (L.prev (node x))) (L.next (node x)))
  rw [L.next_setNext] at hredirect
  refine h.erase ?_ ?_
  · unfold removeNode
    dsimp only
    generalize Function.update node (L.prev (node x)) _ = node₁ at *
    obtain ⟨hnext, -⟩ := L.comp_setPrev nil node₁ (L.prev (node x)) (L.next (node x))
    rw [Function.comp_update, hnext, L.next_setNext, hredirect]
    rfl
  · unfold removeNode
    dsimp only
    generalize Function.update node (L.prev (node x)) _ = node₁ at *
    obtain ⟨-, hprev⟩ := L.comp_setPrev nil node₁ (L.prev (node x)) (L.next (node x))
    rw [Function.comp_update, hprev, L.prev_setNext, L.prev_setPrev, hsame]
    rfl

end Links

end SuwappuRevm.Foundations
