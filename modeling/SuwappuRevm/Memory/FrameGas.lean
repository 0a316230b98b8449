import Mathlib.Data.List.Induction
import SuwappuRevm.Memory.OpcodeRanges

/-!
# Memory gas of a frame

The opcodes that take a memory range are exactly the replaced ones, so the price of memory is linear
in every frame that runs through the MonadNine table, and the unchecked unwrap always has a value.
What a frame pays for memory depends only on the largest range that its operands have named, unless
a build without limits runs with enough gas to pay for memory up to the end of the machine words.
-/

namespace SuwappuRevm.Memory

open SuwappuRevm.Foundations

section Requests

/-- The words of the largest request. -/
def requestedWords (requests : List Request) : ℕ := peakWords (requests.map Request.range)

/-- The gas that the requests were charged. -/
def chargedGas (requests : List Request) : ℕ := (requests.map Request.charged).sum

/-- The size that the last request has left the memory with. -/
def servedLen (requests : List Request) : ℕ := (requests.getLast?.map Request.len).getD 0

/-- The stored cost is linear, and the memory has its limit and is as the last request has left
it. -/
structure Orderly (limit : Option ℕ) (i : Interpreter) : Prop where
  cost : LinearCost i.frame
  limit : i.frame.memory.limit = limit
  len : i.frame.memory.len = servedLen i.requests

/-- The memory of a frame has the size of its largest request and is paid for at the linear price,
and no request can bring it to the end of the machine words. -/
structure Paid (i : Interpreter) : Prop where
  priced : Priced i.frame (requestedWords i.requests)
  charged : chargedGas i.requests = requestedWords i.requests / 2
  capped : Capped i.frame (requestedWords i.requests)

variable {limit : Option ℕ} {i i' : Interpreter} {range : Range} {ranges : List Range}

/-- A served request has resized the memory and is logged. -/
theorem ServesRange.spec (h : ServesRange range i i') : ∃ frame,
    monadResizeMemory range.offset range.len i.frame = .ok () frame ∧
      i' = { i with
        frame
        requests := i.requests ++
          [⟨range, i.frame.gas.remaining - frame.gas.remaining, frame.memory.len⟩] } := by
  rw [ServesRange, resizeMemoryMip3] at h
  cases hresize : monadResizeMemory range.offset range.len i.frame with
  | ok u frame =>
    simp only [hresize] at h
    cases h
    exact ⟨frame, rfl, rfl⟩
  | error e frame =>
    simp only [hresize] at h
    cases h

/-- A request that fails has stopped the frame where the resize has left it. -/
theorem resizeMemoryMip3_error {offset len : ℕ} {stop : Stop}
    (h : resizeMemoryMip3 offset len i = .error stop i') : ∃ frame,
    monadResizeMemory offset len i.frame = .error stop frame ∧ i' = { i with frame } := by
  rw [resizeMemoryMip3] at h
  cases hresize : monadResizeMemory offset len i.frame with
  | ok u frame =>
    simp only [hresize] at h
    cases h
  | error e frame =>
    simp only [hresize] at h
    cases h
    exact ⟨frame, rfl, rfl⟩

/-- One more request raises the largest one to its own. -/
theorem requestedWords_concat (requests : List Request) (request : Request) :
    requestedWords (requests ++ [request]) =
      max (requestedWords requests) request.range.words := by
  rw [requestedWords, peakWords, List.map_append, List.map_append, peak_append]
  rfl

/-- Gas that is spent between requests leaves a frame orderly. -/
theorem Orderly.spend (h : Orderly limit i) (hspends : Spends i i') : Orderly limit i' where
  cost := by
    rw [LinearCost, hspends.memoryGas]
    exact h.cost
  limit := by
    rw [hspends.memory]
    exact h.limit
  len := by
    rw [hspends.memory, hspends.requests]
    exact h.len

/-- A served request leaves a frame orderly. -/
theorem Orderly.serve (h : Orderly limit i) (hserves : ServesRange range i i') :
    Orderly limit i' := by
  obtain ⟨frame, hresize, rfl⟩ := hserves.spec
  obtain ⟨hcost, hlimit⟩ := h.cost.serve hresize
  refine ⟨hcost, hlimit.trans h.limit, ?_⟩
  simp [servedLen]

/-- What requests are served leaves a frame orderly. -/
theorem Orderly.served (h : Orderly limit i) (hserved : Served ranges i i') : Orderly limit i' :=
  hserved.invariant (fun _ _ h => h.spend) (fun _ _ _ h => h.serve) h

/-- Gas that is spent between requests leaves the memory paid for. -/
theorem Paid.spend (h : Paid i) (hspends : Spends i i') : Paid i' := by
  obtain ⟨⟨hwords, hcost, hlen⟩, hcharged, hcapped⟩ := h
  rw [← hspends.requests] at hwords hcost hlen hcharged hcapped
  refine ⟨⟨?_, ?_, ?_⟩, hcharged, ?_⟩
  · rw [hspends.memoryGas, hwords]
  · rw [hspends.memoryGas, hcost]
  · rw [hspends.memory, hlen]
  · apply hcapped.of_paid (congrArg SharedMemory.limit hspends.memory)
    exact Nat.add_le_add_right hspends.remaining _

/-- A served request raises the size to its own and is charged the difference in price. -/
theorem Paid.serve (h : Paid i) (hserves : ServesRange range i i') : Paid i' := by
  obtain ⟨frame, hresize, rfl⟩ := hserves.spec
  obtain ⟨hpriced, hpaid, -, hlimit⟩ := h.priced.serve h.capped hresize
  have hmono : requestedWords i.requests / 2 ≤
      max (requestedWords i.requests) (numWords (range.offset + range.len)) / 2 :=
    Nat.div_le_div_right (le_max_left _ _)
  have hcharged : (i.requests.map Request.charged).sum = requestedWords i.requests / 2 := h.charged
  refine ⟨?_, ?_, ?_⟩
  · rw [requestedWords_concat]
    exact hpriced
  · rw [requestedWords_concat, chargedGas, List.map_append, List.sum_append, List.map_singleton,
      List.sum_singleton, hcharged]
    change _ = max (requestedWords i.requests) (numWords (range.offset + range.len)) / 2
    dsimp only
    omega
  · rw [requestedWords_concat]
    exact h.capped.of_paid hlimit hpaid.le

/-- What requests are served leaves the memory paid for. -/
theorem Paid.served (h : Paid i) (hserved : Served ranges i i') : Paid i' :=
  hserved.invariant (fun _ _ h => h.spend) (fun _ _ _ h => h.serve) h

/-- The log has the served requests in order. -/
theorem served_requests (h : Served ranges i i') :
    i'.requests.map Request.range = i.requests.map Request.range ++ ranges := by
  induction h with
  | idle hspends => rw [hspends.requests, List.append_nil]
  | serve hspends hserves _ ih =>
    obtain ⟨frame, -, rfl⟩ := hserves.spec
    rw [ih, List.map_append, hspends.requests, List.append_assoc]
    rfl

/-- An orderly frame stops with a result, and with the memory and the log as they were. -/
theorem StopsAt.spec {stop : Stop} (h : StopsAt stop i i') (horderly : Orderly limit i) :
    stop ≠ .undefinedBehavior ∧ i'.frame.memory = i.frame.memory ∧ i'.requests = i.requests := by
  cases h with
  | halts hdefined hspends => exact ⟨hdefined, hspends.memory, hspends.requests⟩
  | refuses range h =>
    obtain ⟨frame, hresize, rfl⟩ := resizeMemoryMip3_error h
    obtain ⟨hresult, hmemory⟩ := horderly.cost.refuse hresize
    refine ⟨?_, hmemory, rfl⟩
    rintro rfl
    rcases hresult with h | h <;> cases h

end Requests

section Table

/-- Subcalls return no more gas than they were handed: what is left to a frame and what its memory
has cost stay within its gas limit. -/
def ReturnsWithin (table : UInt8 → Instruction) (start : Interpreter) (events : List Event) :
    Prop :=
  ∀ done returned rest i, events = done ++ .resume returned :: rest →
    runFrame table done start = .ok () i →
    i.frame.gas.remaining + returned + i.frame.gas.memory.expansionCost ≤ start.frame.gas.limit

/-- A computation that leaves the memory and its gas, serves no request and gets no gas. -/
def LeavesMemory {α : Type} (m : Interp α) : Prop :=
  ∀ i, (∀ a i', m i = .ok a i' → Spends i i') ∧
    ∀ stop i', m i = .error stop i' → stop ≠ .undefinedBehavior ∧ Spends i i'

/-- It requests nothing. -/
theorem LeavesMemory.serves {α : Type} {m : Interp α} (hm : LeavesMemory m) (stack : List ℕ) :
    Serves stack [] m where
  ok i a i' _ h := .idle ((hm i).1 a i' h)
  error i stop i' _ h := by
    obtain ⟨hdefined, hspends⟩ := (hm i).2 stop i' h
    exact Serves.error_of_halts hdefined (fun _ => rfl) hspends

/-- After replacing entries of a table, an opcode has a replacing entry or its own, which none
replaced. -/
theorem foldl_update_mem (entries : List (UInt8 × Instruction)) (base : UInt8 → Instruction)
    (opcode : UInt8) :
    let table := entries.foldl (fun table entry => Function.update table entry.1 entry.2) base
    (∃ entry ∈ entries, entry.1 = opcode ∧ table opcode = entry.2) ∨
      opcode ∉ entries.map Prod.fst ∧ table opcode = base opcode := by
  induction entries using List.reverseRecOn with
  | nil => exact .inr ⟨List.not_mem_nil, rfl⟩
  | append_singleton entries last ih =>
    simp only [List.foldl_append, List.foldl_cons, List.foldl_nil]
    by_cases hop : opcode = last.1
    · subst hop
      exact .inl ⟨last, by simp, rfl, Function.update_self ..⟩
    · rw [Function.update_of_ne hop]
      rcases ih with ⟨entry, hentry, hopcode, htable⟩ | ⟨hnone, htable⟩
      · exact .inl ⟨entry, by simp [hentry], hopcode, htable⟩
      · refine .inr ⟨?_, htable⟩
        simpa [hop] using hnone

/-- Every opcode that takes a memory range is replaced. -/
theorem memoryExpanding_replaced : ∀ opcode ∈ memoryExpanding,
    opcode ∈ mip3Instructions.map Prod.fst := by
  decide +kernel

/-- The other opcodes name no memory. -/
theorem operandRanges_of_notMem {opcode : UInt8} (h : opcode ∉ memoryExpanding)
    (operand : ℕ → ℕ) : operandRanges opcode operand = [] := by
  unfold operandRanges
  split
  all_goals first
    | rfl
    | exact absurd (by decide) h

variable {base : UInt8 → Instruction}
  (hbase : ∀ opcode ∉ memoryExpanding, ∀ host, LeavesMemory ((base opcode).run host))
  {spec : MonadSpecId} (hspec : MonadSpecId.monadNine.isEnabledIn spec = true)
include hbase hspec

/-- Every entry of the table requests the memory that its operands name. -/
theorem serves_monadInstructions (opcode : UInt8) (host : Host) (stack : List ℕ) :
    Serves stack (operandRanges opcode (stack.getD · 0))
      ((monadInstructions base spec opcode).run host) := by
  rw [monadInstructions, if_pos hspec]
  rcases foldl_update_mem mip3Instructions base opcode with
    ⟨entry, hentry, rfl, htable⟩ | ⟨hnone, htable⟩
  · rw [htable]
    exact serves_mip3Instructions host stack hentry
  · have hother : opcode ∉ memoryExpanding :=
      fun hmem => hnone (memoryExpanding_replaced opcode hmem)
    rw [htable, operandRanges_of_notMem hother]
    exact (hbase opcode hother host).serves stack

/-- An instruction of a frame requests the memory that its operands name. -/
theorem serves_instruction (opcode : UInt8) (host : Host) (stack : List ℕ) (i : Interpreter) :
    let event := Event.instruction opcode host stack
    (∀ i', event.apply (monadInstructions base spec) i = .ok () i' → Served event.ranges i i') ∧
      ∀ stop i', event.apply (monadInstructions base spec) i = .error stop i' →
        ∃ served mid, served <+: event.ranges ∧ Served served i mid ∧ StopsAt stop mid i' ∧
          (stop.Returns → served = event.ranges) := by
  have hstacked : Spends i { i with stack } := ⟨rfl, rfl, le_rfl, rfl⟩
  have hserves : Serves stack (operandRanges opcode (stack.getD · 0)) (do
      charge (monadInstructions base spec opcode).staticGas
      (monadInstructions base spec opcode).run host) :=
    (quiet_charge _).serves fun _ _ => serves_monadInstructions hbase hspec opcode host stack
  constructor
  · intro i' h
    exact (hserves.ok { i with stack } () i' rfl h).of_idle Spends.trans hstacked
  · intro stop i' h
    obtain ⟨served, mid, hprefix, hserved, hstops, hreturns⟩ :=
      hserves.error { i with stack } stop i' rfl h
    exact ⟨served, mid, hprefix, hserved.of_idle Spends.trans hstacked, hstops, hreturns⟩

/-- An event that ends well has requested the memory it needs and leaves the frame orderly. -/
theorem Orderly.event {limit : Option ℕ} {i i' : Interpreter} {event : Event}
    (h : Orderly limit i) (happly : event.apply (monadInstructions base spec) i = .ok () i') :
    Orderly limit i' ∧
      i'.requests.map Request.range = i.requests.map Request.range ++ event.ranges := by
  cases event with
  | instruction opcode host stack =>
    have hserved := (serves_instruction hbase hspec opcode host stack i).1 i' happly
    exact ⟨h.served hserved, served_requests hserved⟩
  | resume returned =>
    cases happly
    exact ⟨⟨h.cost, h.limit, h.len⟩, (List.append_nil _).symm⟩

/-- A run of a frame requests the memory that its events need, in their order. -/
theorem runFrame_ok {limit : Option ℕ} {events : List Event} {start i : Interpreter}
    (h : Orderly limit start) (hrun : runFrame (monadInstructions base spec) events start =
      .ok () i) :
    Orderly limit i ∧ i.requests.map Request.range =
      start.requests.map Request.range ++ events.flatMap Event.ranges := by
  apply forM_invariant (motive := fun done i => Orderly limit i ∧ i.requests.map Request.range =
    start.requests.map Request.range ++ done.flatMap Event.ranges) _ _ hrun
  · exact ⟨h, (List.append_nil _).symm⟩
  · rintro done event rest i₁ i₂ - - ⟨horderly, hrequests⟩ happly
    obtain ⟨horderly', hevent⟩ := horderly.event hbase hspec happly
    refine ⟨horderly', ?_⟩
    rw [hevent, hrequests, List.append_assoc, List.flatMap_append, List.flatMap_singleton]

/-- A run of a frame keeps the memory paid for. In a build without limits the gas has to be too
little for the end of the machine words. -/
theorem runFrame_paid {limit : Option ℕ} {events : List Event} {start i : Interpreter}
    (h : Orderly limit start) (hpaid : Paid start)
    (hbounded : (∃ bound, limit = some bound ∧ bound + 32 ≤ usizeRange) ∨
      start.frame.gas.limit < 2 ^ 58 ∧ ReturnsWithin (monadInstructions base spec) start events)
    (hrun : runFrame (monadInstructions base spec) events start = .ok () i) : Paid i := by
  apply forM_invariant (motive := fun _ => Paid) hpaid _ hrun
  intro done event rest i₁ i₂ hevents hdone hpaid happly
  cases event with
  | instruction opcode host stack =>
    exact hpaid.served ((serves_instruction hbase hspec opcode host stack i₁).1 i₂ happly)
  | resume returned =>
    obtain ⟨horderly, -⟩ := runFrame_ok hbase hspec h hdone
    cases happly
    refine ⟨⟨hpaid.priced.wordsNum, hpaid.priced.expansionCost, hpaid.priced.len⟩,
      hpaid.charged, ?_⟩
    rcases hbounded with ⟨bound, rfl, hbound⟩ | ⟨hgas, hreturns⟩
    · exact .inl ⟨bound, horderly.limit, hbound⟩
    · have hwithin := hreturns done returned rest i₁ hevents hdone
      rw [hpaid.priced.expansionCost] at hwithin
      exact .inr (hwithin.trans_lt hgas)

/-- A run that stops has served a first part of what the event that stopped it needs. -/
theorem runFrame_error {events : List Event} {stop : Stop} {start i : Interpreter}
    (hrun : runFrame (monadInstructions base spec) events start = .error stop i) :
    ∃ done event rest served i₁ mid, events = done ++ event :: rest ∧
      runFrame (monadInstructions base spec) done start = .ok () i₁ ∧ served <+: event.ranges ∧
      Served served i₁ mid ∧ StopsAt stop mid i ∧ (stop.Returns → served = event.ranges) := by
  obtain ⟨done, event, rest, i₁, rfl, hdone, hstop⟩ := forM_eq_error hrun
  cases event with
  | instruction opcode host stack =>
    obtain ⟨served, mid, hprefix, hserved, hstops, hreturns⟩ :=
      (serves_instruction hbase hspec opcode host stack i₁).2 stop i hstop
    exact ⟨done, _, rest, served, i₁, mid, rfl, hdone, hprefix, hserved, hstops, hreturns⟩
  | resume returned => cases hstop

end Table

section Frames

/-- A frame whose requests were the ranges has the memory of the largest of them and has paid for it
at the linear price. -/
structure PaidFor (ranges : List Range) (i : Interpreter) : Prop where
  requests : i.requests.map Request.range = ranges
  charged : chargedGas i.requests = peakWords ranges / 2
  len : i.frame.memory.len = 32 * peakWords ranges

/-- What is paid for the logged requests is paid for their ranges. -/
theorem Paid.paidFor {ranges : List Range} {i : Interpreter} (h : Paid i)
    (hrequests : i.requests.map Request.range = ranges) : PaidFor ranges i := by
  subst hrequests
  exact ⟨rfl, h.charged, h.priced.len⟩

/-- The limit of a MonadNine configuration is representable with a word to spare. -/
theorem memoryLimit_le {spec : MonadSpecId}
    (hspec : MonadSpecId.monadNine.isEnabledIn spec = true) (fallback : ℕ) :
    memoryLimit spec fallback + 32 ≤ usizeRange := by
  rw [memoryLimit, if_pos hspec]
  decide

/-- From fresh gas, in every build and with any gas, neither requests nor a frame under the
MonadNine table unwrap an absent value, a failed request leaves the memory as it was, and a frame
requests what the operands of its opcodes name. Under the MonadNine limit, or with a gas limit below
`2 ^ 58`, half the words of the largest request are charged, and that request is the size of the
memory. -/
theorem memory_gas_linear {base : UInt8 → Instruction}
    (hbase : ∀ opcode ∉ memoryExpanding, ∀ host, LeavesMemory ((base opcode).run host))
    {spec : MonadSpecId} (hspec : MonadSpecId.monadNine.isEnabledIn spec = true)
    (limit : Option ℕ) (gasLimit checkpoint fallback : ℕ) :
    let table := monadInstructions base spec
    let start : Interpreter := { frame := .new gasLimit checkpoint limit }
    let limited := limit = some (memoryLimit spec fallback)
    (∀ ranges frame, limited ∨ gasLimit < 2 ^ 58 →
      resizeAll ranges start.frame = .ok () frame →
      frame.gas.spent = peakWords ranges / 2 ∧ frame.memory.len = 32 * peakWords ranges ∧
        frame.gas.memory.expansionCost = peakWords ranges / 2) ∧
    (∀ ranges stop frame, resizeAll ranges start.frame = .error stop frame →
      stop ≠ .undefinedBehavior ∧ ∃ served range rest frame₁, ranges = served ++ range :: rest ∧
        resizeAll served start.frame = .ok () frame₁ ∧
        monadResizeMemory range.offset range.len frame₁ = .error stop frame ∧
        frame.memory = frame₁.memory) ∧
    (∀ events i, runFrame table events start = .ok () i →
      i.requests.map Request.range = events.flatMap Event.ranges ∧
      (limited ∨ gasLimit < 2 ^ 58 ∧ ReturnsWithin table start events →
        PaidFor (events.flatMap Event.ranges) i ∧
        i.frame.gas.memory.expansionCost = peakWords (events.flatMap Event.ranges) / 2)) ∧
    ∀ events stop i, runFrame table events start = .error stop i →
      stop ≠ .undefinedBehavior ∧ i.frame.memory.len = servedLen i.requests ∧
      ∃ done event rest served, events = done ++ event :: rest ∧ served <+: event.ranges ∧
        (stop.Returns → served = event.ranges) ∧
        i.requests.map Request.range = done.flatMap Event.ranges ++ served ∧
        (limited ∨ gasLimit < 2 ^ 58 ∧ ReturnsWithin table start events →
          PaidFor (done.flatMap Event.ranges ++ served) i) := by
  intro table start limited
  have horderly : Orderly limit start :=
    ⟨(priced_new gasLimit checkpoint limit).linearCost, rfl, rfl⟩
  have hlimited (h : limited) : ∃ bound, limit = some bound ∧ bound + 32 ≤ usizeRange :=
    ⟨_, h, memoryLimit_le hspec fallback⟩
  have hcapped (h : limited ∨ gasLimit < 2 ^ 58) : Capped start.frame 0 := h.imp hlimited id
  have hpaid (h : limited ∨ gasLimit < 2 ^ 58) : Paid start :=
    ⟨priced_new gasLimit checkpoint limit, (Nat.zero_div 2).symm, hcapped h⟩
  refine ⟨?_, ?_, ?_, ?_⟩
  · intro ranges frame hbounded h
    exact resizeAll_new (hcapped hbounded) h
  · intro ranges stop frame h
    exact resizeAll_error horderly.cost h
  · intro events i h
    have hrequests : i.requests.map Request.range = events.flatMap Event.ranges :=
      (runFrame_ok hbase hspec horderly h).2
    refine ⟨hrequests, ?_⟩
    intro hbounded
    have hend : Paid i := runFrame_paid hbase hspec horderly
      (hpaid (hbounded.imp_right And.left)) (hbounded.imp_left hlimited) h
    refine ⟨hend.paidFor hrequests, ?_⟩
    rw [hend.priced.expansionCost, ← hrequests]
    rfl
  · intro events stop i h
    obtain ⟨done, event, rest, served, i₁, mid, rfl, hdone, hprefix, hserved, hstops, hreturns⟩ :=
      runFrame_error hbase hspec h
    obtain ⟨horderly₁, hrequests₁⟩ := runFrame_ok hbase hspec horderly hdone
    have hmid := horderly₁.served hserved
    obtain ⟨hdefined, hmemory, hrequests⟩ := hstops.spec hmid
    have hlog : i.requests.map Request.range = done.flatMap Event.ranges ++ served := by
      rw [hrequests, served_requests hserved, hrequests₁]
      rfl
    refine ⟨hdefined, ?_, done, event, rest, served, rfl, hprefix, hreturns, hlog, ?_⟩
    · rw [hmemory, hrequests, hmid.len]
    · intro hbounded
      have hpaid₁ : Paid i₁ := by
        apply runFrame_paid hbase hspec horderly (hpaid (hbounded.imp_right And.left)) _ hdone
        refine hbounded.imp hlimited (And.imp_right ?_)
        intro hreturns done' returned rest' i' hevents
        exact hreturns done' returned (rest' ++ event :: rest) i' (by simp [hevents])
      have hend := hpaid₁.served hserved
      rw [← hlog]
      refine ⟨rfl, ?_, ?_⟩
      · rw [hrequests]
        exact hend.charged
      · rw [hmemory, hrequests]
        exact hend.priced.len

/-- A table that pops a word at `POP` and knows no other opcode. -/
def popTable (opcode : UInt8) : Instruction :=
  if opcode = 0x50 then ⟨fun _ => discard pop, 2⟩ else ⟨fun _ => halt .notActivated, 0⟩

/-- Its handlers leave the memory. -/
theorem popTable_leavesMemory (opcode : UInt8) (host : Host) :
    LeavesMemory ((popTable opcode).run host) := by
  rw [popTable]
  split
  · rintro ⟨frame, stack, requests⟩
    cases stack with
    | nil =>
      constructor
      · intro u i' h
        cases h
      · intro stop i' h
        cases h
        exact ⟨by simp, .refl _⟩
    | cons word stack =>
      constructor
      · intro u i' h
        cases h
        exact ⟨rfl, rfl, le_rfl, rfl⟩
      · intro stop i' h
        cases h
  · intro i
    constructor
    · intro u i' h
      cases h
    · intro stop i' h
      cases h
      exact ⟨by simp, .refl _⟩

/-- A host with every hardfork, on which a call costs 60 units of gas and the rest is free. -/
def callingHost : Host where
  isStatic := false
  isEnabledIn _ := true
  copyCost _ := 0
  mcopyCost _ := 0
  keccak256Cost _ := 0
  extcodecopyCost _ := 0
  logCost _ _ := 0
  initcodeCost _ := 0
  createCost := 0
  create2Cost _ := 0
  callStipendReduction _ := 0
  maxInitcodeSize := 0
  returnDataLen := 0
  loadAccountCode := .ok 0
  loadAccAndCalcGas := .ok 60

/-- The frame that a run leaves unless it stops. -/
def frameAfter (table : UInt8 → Instruction) (events : List Event) (start : Interpreter) :
    Option Interpreter :=
  match runFrame table events start with
  | .ok _ i => some i
  | .error _ _ => none

/-- A run that leaves a frame has not stopped. -/
theorem frameAfter_eq_some {table : UInt8 → Instruction} {events : List Event}
    {start i : Interpreter} :
    frameAfter table events start = some i ↔ runFrame table events start = .ok () i := by
  rw [frameAfter]
  cases runFrame table events start with
  | ok u i' => simp
  | error stop i' => simp

/-- A frame stores a word, calls with room for a word of output, gets gas back and loads a word. -/
def callingEvents : List Event :=
  [.instruction 0x52 callingHost [0, 7], .instruction 0xf1 callingHost [60, 1, 0, 0, 0, 96, 32],
    .resume 40, .instruction 0x51 callingHost [32]]

/-- The calling frame gets back less gas than its call has cost. -/
theorem callingEvents_returnsWithin : ReturnsWithin (monadInstructions popTable .monadNine)
    { frame := .new 400 0 none } callingEvents := by
  have hcall : frameAfter (monadInstructions popTable .monadNine) (callingEvents.take 2)
      { frame := .new 400 0 none } =
        some ⟨⟨⟨400, 235, ⟨4, 2⟩⟩, ⟨0, 128, none⟩⟩, [],
          [⟨⟨0, 32⟩, 0, 32⟩, ⟨⟨96, 32⟩, 2, 128⟩]⟩ := by
    decide +kernel
  intro done returned rest i hevents hdone
  -- The events have one return of gas, after the first two.
  have hsplit : done = callingEvents.take 2 ∧ returned = 40 := by
    rcases done with _ | ⟨_, _ | ⟨_, _ | ⟨_, _ | ⟨_, done⟩⟩⟩⟩
    · simp [callingEvents] at hevents
    · simp [callingEvents] at hevents
    · simp only [callingEvents, List.cons_append, List.nil_append, List.cons.injEq,
        Event.resume.injEq] at hevents
      obtain ⟨rfl, rfl, rfl, -⟩ := hevents
      exact ⟨rfl, rfl⟩
    · simp [callingEvents] at hevents
    · simp [callingEvents] at hevents
  obtain ⟨rfl, rfl⟩ := hsplit
  rw [← frameAfter_eq_some, hcall] at hdone
  cases hdone
  decide

/-- In a build without limits, three requests spend two units of gas, and so does the memory of a
frame that calls. -/
theorem memory_gas_linear_calling : ∃ frame i,
    resizeAll [⟨0, 64⟩, ⟨64, 64⟩, ⟨0, 1⟩] (.new 400 0 none) = .ok () frame ∧
    frame.gas.spent = peakWords [⟨0, 64⟩, ⟨64, 64⟩, ⟨0, 1⟩] / 2 ∧
    runFrame (monadInstructions popTable .monadNine) callingEvents { frame := .new 400 0 none } =
      .ok () i ∧ PaidFor [⟨0, 32⟩, ⟨96, 32⟩, ⟨32, 32⟩] i := by
  have hresize : resizeAll [⟨0, 64⟩, ⟨64, 64⟩, ⟨0, 1⟩] (.new 400 0 none) =
      .ok () ⟨⟨400, 398, ⟨4, 2⟩⟩, ⟨0, 128, none⟩⟩ := by
    rfl
  have hrun : frameAfter (monadInstructions popTable .monadNine) callingEvents
      { frame := .new 400 0 none } =
        some ⟨⟨⟨400, 272, ⟨4, 2⟩⟩, ⟨0, 128, none⟩⟩, [],
          [⟨⟨0, 32⟩, 0, 32⟩, ⟨⟨96, 32⟩, 2, 128⟩, ⟨⟨32, 32⟩, 0, 128⟩]⟩ := by
    decide +kernel
  rw [frameAfter_eq_some] at hrun
  have hspec : MonadSpecId.monadNine.isEnabledIn .monadNine = true := by decide
  obtain ⟨hspent, -, hpaid, -⟩ := memory_gas_linear
    (fun opcode _ host => popTable_leavesMemory opcode host) hspec none 400 0 0
  exact ⟨_, _, hresize, (hspent _ _ (.inr (by decide)) hresize).1, hrun,
    ((hpaid _ _ hrun).2 (.inr ⟨by decide, callingEvents_returnsWithin⟩)).1⟩

/-- With more gas and no limit on memory, a request past the end of the machine words resizes the
memory to nothing and is charged for less than it names. -/
theorem unlimited_request_wraps : ∃ frame,
    resizeAll [⟨usizeRange - 1, usizeRange - 1⟩] (.new (2 ^ 58) 0 none) = .ok () frame ∧
    frame.gas.spent ≠ peakWords [⟨usizeRange - 1, usizeRange - 1⟩] / 2 ∧
    frame.memory.len ≠ 32 * peakWords [⟨usizeRange - 1, usizeRange - 1⟩] := by
  have hrun : resizeAll [⟨usizeRange - 1, usizeRange - 1⟩] (.new (2 ^ 58) 0 none) =
      .ok () ⟨⟨2 ^ 58, 0, ⟨2 ^ 59, 2 ^ 58⟩⟩, ⟨0, 0, none⟩⟩ := by
    rfl
  refine ⟨_, hrun, ?_, ?_⟩
  · decide +kernel
  · decide +kernel

end Frames

end SuwappuRevm.Memory
