import Mathlib.Data.List.Induction
import Mathlib.Data.Nat.Notation

/-!
# Tasks that share a state

Tasks work on one state behind a lock. A task goes on section by section and holds the lock during
each, so that others may move the state between two of its sections. When the first section of
every task settles its answer, and the later ones only read and find nothing else, the tasks might
as well have run in one piece: whatever the interleaving, the state and the answers are those of
the tasks one after the other, in the order of their first sections.
-/

namespace SuwappuRevm.Foundations

/-- A task has its answer, or a section to run: what it leaves and how the task goes on are read
from the state. -/
inductive Task (σ α : Type*)
  | done (answer : α)
  | locked (leave : σ → σ) (rest : σ → Task σ α)

namespace Task

variable {σ α β : Type*}

/-- Read from the state and go on. -/
def query (read : σ → β) (rest : β → Task σ α) : Task σ α := .locked id fun s => rest (read s)

/-- The next section, if there is one. -/
def advance : Task σ α → σ → Task σ α × σ
  | done answer, s => (done answer, s)
  | locked leave rest, s => (rest s, leave s)

/-- All sections in one piece. -/
def run : Task σ α → σ → α × σ
  | done answer, s => (answer, s)
  | locked leave rest, s => (rest s).run (leave s)

/-- The answer, once there is one. -/
def answer? : Task σ α → Option α
  | done answer => some answer
  | locked _ _ => none

/-- In the states of an invariant, the task only reads from now on and ends with this answer. -/
inductive Settled (I : σ → Prop) (a : α) : Task σ α → Prop
  | done : Settled I a (done a)
  | locked (leave : σ → σ) (rest : σ → Task σ α) (hleave : ∀ s, I s → leave s = s)
      (hrest : ∀ s, I s → Settled I a (rest s)) : Settled I a (locked leave rest)

/-- The task has its answer after some more sections. -/
def Within : ℕ → Task σ α → Prop
  | _, done _ => True
  | 0, locked _ _ => False
  | k + 1, locked _ rest => ∀ s, (rest s).Within k

/-- The first section of the task keeps the invariant and settles the answer. -/
def Linear (I : σ → Prop) (t : Task σ α) : Prop :=
  ∀ s, I s → I (t.advance s).2 ∧ ∃ a, Settled I a (t.advance s).1

variable {I : σ → Prop} {a : α} {t : Task σ α} {s : σ}

/-- A section of a settled task changes nothing. -/
theorem Settled.advance (h : Settled I a t) (hs : I s) :
    (t.advance s).2 = s ∧ Settled I a (t.advance s).1 := by
  cases h with
  | done => exact ⟨rfl, .done⟩
  | locked leave rest hleave hrest => exact ⟨hleave s hs, hrest s hs⟩

/-- The rest of a settled task gives its answer. -/
theorem Settled.run (h : Settled I a t) (hs : I s) : t.run s = (a, s) := by
  induction h with
  | done => rfl
  | locked leave rest hleave hrest ih =>
    rw [Task.run, hleave s hs]
    exact ih s hs

/-- A settled task that has an answer has this one. -/
theorem Settled.answer_eq {b : α} (h : Settled I a t) (hb : t.answer? = some b) : b = a := by
  cases h with
  | done => exact (Option.some.inj hb).symm
  | locked leave rest hleave hrest => cases hb

/-- One section less. -/
theorem Within.advance {k : ℕ} (h : t.Within (k + 1)) (s : σ) : (t.advance s).1.Within k := by
  cases t with
  | done answer => cases k <;> trivial
  | locked leave rest => exact h s

/-- More sections are enough too. -/
theorem Within.succ {k : ℕ} (h : t.Within k) : t.Within (k + 1) := by
  induction t generalizing k with
  | done answer => trivial
  | locked leave rest ih =>
    cases k with
    | zero => exact h.elim
    | succ k => exact fun s => ih s (h s)

/-- Without more sections there is an answer. -/
theorem Within.answered (h : t.Within 0) : ∃ a, t.answer? = some a := by
  cases t with
  | done answer => exact ⟨answer, rfl⟩
  | locked leave rest => exact h.elim

/-- A task is the first section and then the rest. -/
theorem run_eq_advance (t : Task σ α) (s : σ) :
    t.run s = (t.advance s).1.run (t.advance s).2 := by
  cases t with
  | done answer => rfl
  | locked leave rest => rfl

/-- In one piece, the task leaves what its first section leaves and has the answer it settles. -/
theorem Linear.run (h : Linear I t) (hs : I s) :
    (t.run s).2 = (t.advance s).2 ∧ Settled I (t.run s).1 (t.advance s).1 := by
  obtain ⟨hkept, a, hsettled⟩ := h s hs
  rw [run_eq_advance, hsettled.run hkept]
  exact ⟨rfl, hsettled⟩

/-- A task with its answer needs no section. -/
theorem linear_done (a : α) : Linear I (done a) := fun _ hs => ⟨hs, a, .done⟩

/-- A task of one section that keeps the invariant. -/
theorem linear_locked {leave : σ → σ} (hleave : ∀ s, I s → I (leave s)) (answer : σ → α) :
    Linear I (locked leave fun s => done (answer s)) :=
  fun s hs => ⟨hleave s hs, answer s, .done⟩

/-- A task that reads and then settles its answer. -/
theorem linear_query {read : σ → β} {rest : β → Task σ α}
    (hrest : ∀ s, I s → ∃ a, Settled I a (rest (read s))) : Linear I (query read rest) :=
  fun s hs => ⟨hs, hrest s hs⟩

/-- A later reading that is the same in all states of the invariant. -/
theorem settled_query {read : σ → β} {rest : β → Task σ α} {b : β} (hread : ∀ s, I s → read s = b)
    (hrest : Settled I a (rest b)) : Settled I a (query read rest) :=
  .locked id _ (fun _ _ => rfl) fun s hs => (hread s hs).symm ▸ hrest

end Task

section Service

variable {σ ρ α : Type*}

/-- Another second part leaves the first parts as they are. -/
theorem map_fst_set {β : Type*} {entries : List (ρ × β)} {n : ℕ} {request : ρ} {b : β}
    (h : entries[n]? = some (request, b)) (b' : β) :
    (entries.set n (request, b')).map Prod.fst = entries.map Prod.fst := by
  obtain ⟨hlt, hentry⟩ := List.getElem?_eq_some_iff.mp h
  have hlt' : n < (entries.map Prod.fst).length := by rwa [List.length_map]
  have hrequest : request = (entries.map Prod.fst)[n] := by rw [List.getElem_map, hentry]
  rw [List.map_set, hrequest]
  exact List.set_getElem_self hlt'

/-- Requests being served: the state, and the requests in the order of their first sections with
what is left of their tasks. -/
structure Service (σ ρ α : Type*) where
  state : σ
  served : List (ρ × Task σ α)

/-- What the scheduler lets happen next: the first section of a new request, or another section of
the request with a number. -/
inductive ServiceEvent (ρ : Type*)
  | start (request : ρ)
  | resume (n : ℕ)

/-- The requests in the order of their first sections. -/
def Service.taken (c : Service σ ρ α) : List ρ := c.served.map Prod.fst

/-- The answer to the request with a number, once there is one. -/
def Service.answer (c : Service σ ρ α) (n : ℕ) : Option α := c.served[n]?.bind fun e => e.2.answer?

/-- The request that an event brings in. -/
def ServiceEvent.request : ServiceEvent ρ → Option ρ
  | .start request => some request
  | .resume _ => none

variable (task : ρ → Task σ α)

/-- One section. -/
def Service.next (c : Service σ ρ α) : ServiceEvent ρ → Service σ ρ α
  | .start request =>
    let (rest, state) := (task request).advance c.state
    ⟨state, c.served ++ [(request, rest)]⟩
  | .resume n =>
    match c.served[n]? with
    | none => c
    | some (request, t) =>
      let (rest, state) := t.advance c.state
      ⟨state, c.served.set n (request, rest)⟩

/-- The service after some sections, from a state that nobody has worked on. -/
def serve (init : σ) (events : List (ServiceEvent ρ)) : Service σ ρ α :=
  events.foldl (Service.next task) ⟨init, []⟩

/-- The state after the requests one after the other. -/
def serialState (init : σ) (requests : List ρ) : σ :=
  requests.foldl (fun s request => ((task request).run s).2) init

/-- The answer to the request at a position when they are served one after the other. -/
def serialAnswer (init : σ) (requests : List ρ) (n : ℕ) : Option α :=
  requests[n]?.map fun request => ((task request).run (serialState task init (requests.take n))).1

variable {task} {I : σ → Prop} {init : σ}

/-- The requests of a service are those that its events bring in, in their order. -/
theorem serve_taken (task : ρ → Task σ α) (init : σ) (events : List (ServiceEvent ρ)) :
    (serve task init events).taken = events.filterMap ServiceEvent.request := by
  induction events using List.reverseRecOn with
  | nil => rfl
  | append_singleton events event ih =>
    rw [List.filterMap_append, ← ih, serve, List.foldl_append, ← serve, List.foldl_cons,
      List.foldl_nil]
    cases event with
    | start request =>
      rw [Service.taken, Service.next, List.map_append]
      rfl
    | resume n =>
      rw [Service.next, List.filterMap_cons_none rfl, List.filterMap_nil, List.append_nil]
      split
      next => rfl
      next request t hn => exact map_fst_set hn _

/-- One more request, served last. -/
theorem serialState_concat (init : σ) (requests : List ρ) (request : ρ) :
    serialState task init (requests ++ [request]) =
      ((task request).run (serialState task init requests)).2 := by
  rw [serialState, List.foldl_append]
  rfl

/-- The invariant holds between the requests. -/
theorem serialState_invariant (htask : ∀ request, (task request).Linear I) (hinit : I init)
    (requests : List ρ) : I (serialState task init requests) := by
  induction requests using List.reverseRecOn with
  | nil => exact hinit
  | append_singleton requests request ih =>
    rw [serialState_concat, ((htask request).run ih).1]
    exact ((htask request) _ ih).1

/-- The service has come as far as the requests one after the other: the state is theirs, and what
is left of each task has the answer that its request has among them. -/
structure Service.Serial (task : ρ → Task σ α) (I : σ → Prop) (init : σ) (c : Service σ ρ α) :
    Prop where
  state : c.state = serialState task init c.taken
  settled : ∀ n request t, c.served[n]? = some (request, t) →
    Task.Settled I ((task request).run (serialState task init (c.taken.take n))).1 t

/-- A section keeps the service serial. -/
theorem Service.Serial.next {c : Service σ ρ α} (h : c.Serial task I init)
    (htask : ∀ request, (task request).Linear I) (hinit : I init) (event : ServiceEvent ρ) :
    (c.next task event).Serial task I init := by
  have hstate : I c.state := h.state ▸ serialState_invariant htask hinit c.taken
  cases event with
  | start request =>
    obtain ⟨hleave, hsettled⟩ := (htask request).run hstate
    have htaken : (c.next task (.start request)).taken = c.taken ++ [request] := by
      rw [Service.taken, Service.next, List.map_append]
      rfl
    refine ⟨?_, fun n request' t hn => ?_⟩
    · rw [htaken, serialState_concat, ← h.state, hleave]
      rfl
    · rw [htaken]
      rcases Nat.lt_or_ge n c.served.length with hlt | hge
      · -- an earlier request is as before
        have hold : c.served[n]? = some (request', t) := by
          rw [← hn, Service.next]
          exact (List.getElem?_append_left hlt).symm
        have hle : n ≤ c.taken.length := by
          rw [Service.taken, List.length_map]
          exact Nat.le_of_lt hlt
        rw [List.take_append_of_le_length hle]
        exact h.settled n request' t hold
      · have hnew : (c.served ++ [(request, ((task request).advance c.state).1)])[n]? =
            some (request', t) := hn
        rw [List.getElem?_append_right hge] at hnew
        obtain ⟨hzero, hpair⟩ := List.getElem?_eq_some_iff.mp hnew
        have hlast : n = c.served.length := by
          rw [List.length_singleton] at hzero
          omega
        subst hlast
        simp only [Nat.sub_self, List.getElem_cons_zero, Prod.mk.injEq] at hpair
        obtain ⟨rfl, rfl⟩ := hpair
        have hlength : c.served.length = c.taken.length := (List.length_map _).symm
        rw [hlength, List.take_left, ← h.state]
        exact hsettled
  | resume n =>
    rw [Service.next]
    cases hn : c.served[n]? with
    | none => exact h
    | some entry =>
      obtain ⟨request, t⟩ := entry
      obtain ⟨hleave, hrest⟩ := (h.settled n request t hn).advance hstate
      have htaken : (c.served.set n (request, (t.advance c.state).1)).map Prod.fst = c.taken :=
        map_fst_set hn _
      refine ⟨?_, fun m request' t' hm => ?_⟩
      · rw [Service.taken]
        dsimp only
        rw [htaken, hleave]
        exact h.state
      · rw [Service.taken]
        dsimp only at hm ⊢
        rw [htaken]
        rw [List.getElem?_set] at hm
        split at hm
        next hsame =>
          subst hsame
          split at hm
          next hlt =>
            cases hm
            exact hrest
          next => cases hm
        next hother => exact h.settled m request' t' hm

/-- Whatever the interleaving, the service is serial. -/
theorem serve_serial (htask : ∀ request, (task request).Linear I) (hinit : I init)
    (events : List (ServiceEvent ρ)) : (serve task init events).Serial task I init := by
  induction events using List.reverseRecOn with
  | nil => exact ⟨rfl, fun n request t hn => by cases hn⟩
  | append_singleton events event ih =>
    rw [serve, List.foldl_append]
    exact ih.next htask hinit event

/-- The tasks under way are as far as their first sections have brought them. -/
theorem serve_within {k : ℕ} (htask : ∀ request, (task request).Within (k + 1)) (init : σ)
    (events : List (ServiceEvent ρ)) : ∀ e ∈ (serve task init events).served, e.2.Within k := by
  induction events using List.reverseRecOn with
  | nil => exact fun e he => nomatch he
  | append_singleton events event ih =>
    rw [serve, List.foldl_append, ← serve, List.foldl_cons, List.foldl_nil]
    cases event with
    | start request =>
      intro e he
      rcases List.mem_append.mp he with hold | hnew
      · exact ih e hold
      · rw [List.mem_singleton.mp hnew]
        exact (htask request).advance _
    | resume n =>
      rw [Service.next]
      split
      next => exact ih
      next request t hn =>
        intro e he
        rcases List.mem_or_eq_of_mem_set he with hold | rfl
        · exact ih e hold
        · have hmem := ih (request, t) (List.mem_of_getElem? hn)
          exact hmem.succ.advance _

/-- A request whose task needs no more than one section is answered by its next section. -/
theorem Service.answered_by_next {c : Service σ ρ α} (h : ∀ e ∈ c.served, e.2.Within 1) {n : ℕ}
    (hn : n < c.taken.length) : ∃ a, (c.next task (.resume n)).answer n = some a := by
  rw [Service.taken, List.length_map] at hn
  have hentry : c.served[n]? = some c.served[n] := List.getElem?_eq_getElem hn
  obtain ⟨a, ha⟩ := ((h _ (List.getElem_mem hn)).advance c.state).answered
  refine ⟨a, ?_⟩
  rw [Service.answer, Service.next, hentry]
  dsimp only
  rw [List.getElem?_set_self hn]
  exact ha

/-- An answer is the one that the request has when they are served one after the other. -/
theorem Service.Serial.answer_eq {c : Service σ ρ α} (h : c.Serial task I init) {n : ℕ} {a : α}
    (ha : c.answer n = some a) : serialAnswer task init c.taken n = some a := by
  rw [Service.answer] at ha
  obtain ⟨⟨request, t⟩, hn, hanswer⟩ := Option.bind_eq_some_iff.mp ha
  have hrequest : c.taken[n]? = some request := by
    rw [Service.taken, List.getElem?_map, hn]
    rfl
  rw [serialAnswer, hrequest, (h.settled n request t hn).answer_eq hanswer]
  rfl

end Service

end SuwappuRevm.Foundations
