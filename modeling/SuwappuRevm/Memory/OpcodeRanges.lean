import SuwappuRevm.Memory.Opcodes

/-!
# What the opcodes request

Each replaced opcode requests the memory that its operands name, in their order, and nothing else;
between the requests it spends gas and leaves the memory. An opcode that stops the frame has
requested a first part of that memory, and all of it when it ends the frame with an output.
-/

namespace SuwappuRevm.Memory

open SuwappuRevm.Foundations

section Judgement

/-- Between requests a frame keeps its memory, the memory part of its gas and its log, and gets no
gas. -/
structure Spends (i i' : Interpreter) : Prop where
  memory : i'.frame.memory = i.frame.memory
  memoryGas : i'.frame.gas.memory = i.frame.gas.memory
  remaining : i'.frame.gas.remaining ≤ i.frame.gas.remaining
  requests : i'.requests = i.requests

/-- A frame that does nothing spends nothing. -/
theorem Spends.refl (i : Interpreter) : Spends i i := ⟨rfl, rfl, le_rfl, rfl⟩

/-- Moves without requests follow each other. -/
theorem Spends.trans (i i₁ i' : Interpreter) (h : Spends i i₁) (h' : Spends i₁ i') :
    Spends i i' where
  memory := h'.memory.trans h.memory
  memoryGas := h'.memoryGas.trans h.memoryGas
  remaining := h'.remaining.trans h.remaining
  requests := h'.requests.trans h.requests

/-- A request is served. -/
def ServesRange (range : Range) (i i' : Interpreter) : Prop :=
  resizeMemoryMip3 range.offset range.len i = .ok () i'

/-- From one state of a frame to another by serving the requests in order. -/
abbrev Served : List Range → Interpreter → Interpreter → Prop := Trace Spends ServesRange

/-- The frame has ended with an output. -/
def Stop.Returns (stop : Stop) : Prop := stop = .halt .return ∨ stop = .halt .revert

/-- How a computation stops after the last request that it has served: with a result, or by a
request that fails. -/
inductive StopsAt (stop : Stop) (i i' : Interpreter) : Prop
  | halts (hdefined : stop ≠ .undefinedBehavior) (hspends : Spends i i')
  | refuses (range : Range) (h : resizeMemoryMip3 range.offset range.len i = .error stop i')

/-- On a stack a computation requests the ranges, or stops after some of them, and after all of them
if it stops with an output. -/
structure Serves {α : Type} (stack : List ℕ) (ranges : List Range) (m : Interp α) : Prop where
  ok : ∀ i a i', i.stack = stack → m i = .ok a i' → Served ranges i i'
  error : ∀ i stop i', i.stack = stack → m i = .error stop i' → ∃ served mid,
    served <+: ranges ∧ Served served i mid ∧ StopsAt stop mid i' ∧
      (stop.Returns → served = ranges)

/-- A computation that requests nothing, keeps the stack and does not end the frame with an output;
what it gives is known. -/
structure Quiet {α : Type} (gives : α → Prop) (m : Interp α) : Prop where
  ok : ∀ i a i', m i = .ok a i' → gives a ∧ i'.stack = i.stack ∧ Spends i i'
  error : ∀ i stop i', m i = .error stop i' →
    stop ≠ .undefinedBehavior ∧ ¬stop.Returns ∧ Spends i i'

variable {α β : Type} {stack : List ℕ} {ranges : List Range}

/-- A stop with a result requests nothing more, so it may come early if it has no output. -/
theorem Serves.error_of_halts {i i' : Interpreter} {stop : Stop}
    (hdefined : stop ≠ .undefinedBehavior) (hreturns : stop.Returns → ranges = [])
    (hspends : Spends i i') : ∃ served mid, served <+: ranges ∧ Served served i mid ∧
      StopsAt stop mid i' ∧ (stop.Returns → served = ranges) :=
  ⟨[], i, List.nil_prefix, .idle (.refl i), .halts hdefined hspends, fun h => (hreturns h).symm⟩

/-- Returning requests nothing. -/
theorem serves_pure (a : α) : Serves stack [] (pure a : Interp α) where
  ok := by
    intro i b i' _ h
    cases h
    exact .idle (.refl i)
  error := by
    intro i stop i' _ h
    cases h

/-- Ending the frame with an output requests nothing. -/
theorem serves_halt (result : InstructionResult) :
    Serves stack [] (halt result : Interp α) where
  ok := by
    intro i a i' _ h
    cases h
  error := by
    intro i stop i' _ h
    cases h
    exact Serves.error_of_halts (by simp) (fun _ => rfl) (.refl i)

/-- A quiet computation before the rest. -/
theorem Quiet.serves {gives : α → Prop} {m : Interp α} {f : α → Interp β} (hm : Quiet gives m)
    (hf : ∀ a, gives a → Serves stack ranges (f a)) : Serves stack ranges (m >>= f) where
  ok := by
    intro i b i' hstack h
    obtain ⟨a, i₁, hfirst, hrest⟩ := stateBind_eq_ok.mp h
    obtain ⟨hgives, hkept, hspends⟩ := hm.ok i a i₁ hfirst
    exact ((hf a hgives).ok i₁ b i' (hkept.trans hstack) hrest).of_idle Spends.trans hspends
  error := by
    intro i stop i' hstack h
    rcases stateBind_eq_error.mp h with hfirst | ⟨a, i₁, hfirst, hrest⟩
    · obtain ⟨hdefined, hreturns, hspends⟩ := hm.error i stop i' hfirst
      exact Serves.error_of_halts hdefined (fun h => absurd h hreturns) hspends
    · obtain ⟨hgives, hkept, hspends⟩ := hm.ok i a i₁ hfirst
      obtain ⟨served, mid, hprefix, hserved, hstops, hreturns⟩ :=
        (hf a hgives).error i₁ stop i' (hkept.trans hstack) hrest
      exact ⟨served, mid, hprefix, hserved.of_idle Spends.trans hspends, hstops, hreturns⟩

/-- A popped operand is the first word of the stack. -/
theorem serves_pop {f : ℕ → Interp β}
    (hf : ∀ word rest, stack = word :: rest → Serves rest ranges (f word)) :
    Serves stack ranges (pop >>= f) where
  ok := by
    rintro i b i' rfl h
    obtain ⟨word, i₁, hfirst, hrest⟩ := stateBind_eq_ok.mp h
    rw [pop] at hfirst
    split at hfirst
    · cases hfirst
    next rest hstack =>
      cases hfirst
      have hspends : Spends i { i with stack := rest } := ⟨rfl, rfl, le_rfl, rfl⟩
      exact ((hf word rest hstack).ok _ b i' rfl hrest).of_idle Spends.trans hspends
  error := by
    rintro i stop i' rfl h
    rcases stateBind_eq_error.mp h with hfirst | ⟨word, i₁, hfirst, hrest⟩
    · rw [pop] at hfirst
      split at hfirst
      · cases hfirst
        exact Serves.error_of_halts (by simp) (by simp [Stop.Returns]) (.refl i)
      · cases hfirst
    · rw [pop] at hfirst
      split at hfirst
      · cases hfirst
      next rest hstack =>
        cases hfirst
        have hspends : Spends i { i with stack := rest } := ⟨rfl, rfl, le_rfl, rfl⟩
        obtain ⟨served, mid, hprefix, hserved, hstops, hreturns⟩ :=
          (hf word rest hstack).error _ stop i' rfl hrest
        exact ⟨served, mid, hprefix, hserved.of_idle Spends.trans hspends, hstops, hreturns⟩

/-- A request keeps the stack, and if it fails the frame has no output. -/
theorem resizeMemoryMip3_spec (offset len : ℕ) (i : Interpreter) :
    (∀ i', resizeMemoryMip3 offset len i = .ok () i' → i'.stack = i.stack) ∧
      ∀ stop i', resizeMemoryMip3 offset len i = .error stop i' → ¬stop.Returns := by
  rw [resizeMemoryMip3]
  cases hresize : monadResizeMemory offset len i.frame with
  | ok u frame =>
    constructor
    · intro i' h
      cases h
      rfl
    · intro stop i' h
      cases h
  | error e frame =>
    constructor
    · intro i' h
      cases h
    · intro stop i' h
      cases h
      rw [monadResizeMemory] at hresize
      split at hresize
      · cases hresize
        simp [Stop.Returns]
      dsimp only at hresize
      split at hresize
      · rw [monadResizeMemoryCold] at hresize
        dsimp only at hresize
        split at hresize
        · cases hresize
          simp [Stop.Returns]
        split at hresize
        · cases hresize
          simp [Stop.Returns]
        · cases hresize
      · cases hresize

/-- A request before the rest. -/
theorem serves_resize {f : Unit → Interp β} (offset len : ℕ)
    (hf : Serves stack ranges (f ())) :
    Serves stack (⟨offset, len⟩ :: ranges) (resizeMemoryMip3 offset len >>= f) where
  ok := by
    intro i b i' hstack h
    obtain ⟨_, i₁, hfirst, hrest⟩ := stateBind_eq_ok.mp h
    have hkept := (resizeMemoryMip3_spec offset len i).1 i₁ hfirst
    exact .serve (.refl i) hfirst (hf.ok i₁ b i' (hkept.trans hstack) hrest)
  error := by
    intro i stop i' hstack h
    rcases stateBind_eq_error.mp h with hfirst | ⟨_, i₁, hfirst, hrest⟩
    · have hreturns := (resizeMemoryMip3_spec offset len i).2 stop i' hfirst
      exact ⟨[], i, List.nil_prefix, .idle (.refl i), .refuses ⟨offset, len⟩ hfirst,
        fun h => absurd h hreturns⟩
    · have hkept := (resizeMemoryMip3_spec offset len i).1 i₁ hfirst
      obtain ⟨served, mid, hprefix, hserved, hstops, hreturns⟩ :=
        hf.error i₁ stop i' (hkept.trans hstack) hrest
      exact ⟨⟨offset, len⟩ :: served, mid, (List.prefix_cons_inj _).mpr hprefix,
        .serve (.refl i) hfirst hserved, hstops, fun h => congrArg _ (hreturns h)⟩

/-- A request at the end. -/
theorem serves_resizeMemoryMip3 (offset len : ℕ) :
    Serves stack [⟨offset, len⟩] (resizeMemoryMip3 offset len) := by
  have hend : (resizeMemoryMip3 offset len >>= fun _ => pure ()) = resizeMemoryMip3 offset len :=
    bind_pure _
  rw [← hend]
  exact serves_resize offset len (serves_pure ())

/-- What requests nothing, whatever the stack, after the rest. -/
theorem Serves.bind {m : Interp α} {f : α → Interp β} (hm : Serves stack ranges m)
    (hf : ∀ a stack', Serves stack' [] (f a)) : Serves stack ranges (m >>= f) where
  ok := by
    intro i b i' hstack h
    obtain ⟨a, i₁, hfirst, hrest⟩ := stateBind_eq_ok.mp h
    have happend := (hm.ok i a i₁ hstack hfirst).append Spends.trans
      ((hf a i₁.stack).ok i₁ b i' rfl hrest)
    rwa [List.append_nil] at happend
  error := by
    intro i stop i' hstack h
    rcases stateBind_eq_error.mp h with hfirst | ⟨a, i₁, hfirst, hrest⟩
    · exact hm.error i stop i' hstack hfirst
    · obtain ⟨served, mid, hprefix, hserved, hstops, -⟩ :=
        (hf a i₁.stack).error i₁ stop i' rfl hrest
      obtain rfl := List.prefix_nil.mp hprefix
      have happend := (hm.ok i a i₁ hstack hfirst).append Spends.trans hserved
      rw [List.append_nil] at happend
      exact ⟨ranges, mid, List.prefix_rfl, happend, hstops, fun _ => rfl⟩

/-- A branch requests the ranges if both sides do. -/
theorem serves_ite {c : Prop} [Decidable c] {m m' : Interp α} (hm : c → Serves stack ranges m)
    (hm' : ¬c → Serves stack ranges m') : Serves stack ranges (if c then m else m') := by
  split
  next h => exact hm h
  next h => exact hm' h

/-- Reading the state requests nothing. -/
theorem serves_get {f : Interpreter → Interp β} (hf : ∀ i, Serves stack ranges (f i)) :
    Serves stack ranges (get >>= f) where
  ok i b i' hstack h := (hf i).ok i b i' hstack h
  error i stop i' hstack h := (hf i).error i stop i' hstack h

end Judgement

section Parts

variable {α : Type} {stack : List ℕ} {ranges : List Range}

/-- Charging is quiet. -/
theorem quiet_charge (cost : ℕ) : Quiet (fun _ => True) (charge cost) := by
  constructor
  · intro i a i' h
    rw [charge, Gas.recordCost] at h
    by_cases hcost : cost ≤ i.frame.gas.remaining
    · rw [if_pos hcost] at h
      cases h
      exact ⟨trivial, rfl, rfl, rfl, Nat.sub_le _ _, rfl⟩
    · rw [if_neg hcost] at h
      cases h
  · intro i stop i' h
    rw [charge, Gas.recordCost] at h
    by_cases hcost : cost ≤ i.frame.gas.remaining
    · rw [if_pos hcost] at h
      cases h
    · rw [if_neg hcost] at h
      cases h
      exact ⟨by simp, by simp [Stop.Returns], .refl i⟩

/-- Stopping without an output is quiet. -/
theorem quiet_halt {result : InstructionResult} (hreturns : ¬(Stop.halt result).Returns) :
    Quiet (fun _ => False) (halt result : Interp α) := by
  constructor
  · intro i a i' h
    cases h
  · intro i stop i' h
    cases h
    exact ⟨by simp, hreturns, .refl i⟩

/-- A guard that lets a value pass or stops without an output is quiet. -/
theorem quiet_guard {c : Prop} [Decidable c] {result : InstructionResult} (a : α)
    (hreturns : ¬(Stop.halt result).Returns) :
    Quiet (fun b => b = a) (if c then pure a else halt result : Interp α) := by
  split
  · constructor
    · intro i b i' h
      cases h
      exact ⟨rfl, rfl, .refl i⟩
    · intro i stop i' h
      cases h
  · constructor
    · intro i b i' h
      cases h
    · intro i stop i' h
      cases h
      exact ⟨by simp, hreturns, .refl i⟩

/-- Reading an operand as a machine word gives the operand. -/
theorem quiet_asUsizeOrFail (word : ℕ) : Quiet (fun a => a = word) (asUsizeOrFail word) :=
  quiet_guard word (by simp [Stop.Returns])

/-- Requiring a hardfork is quiet. -/
theorem quiet_check (host : Host) (spec : SpecId) : Quiet (fun a => a = ()) (check host spec) :=
  quiet_guard () (by simp [Stop.Returns])

/-- Requiring a frame that may change state is quiet. -/
theorem quiet_requireNonStaticcall (host : Host) :
    Quiet (fun a => a = ()) (requireNonStaticcall host) := by
  rw [requireNonStaticcall, ← ite_not]
  exact quiet_guard () (by simp [Stop.Returns])

/-- Loading an account requests nothing. -/
theorem serves_load (answer : Except InstructionResult ℕ) : Serves stack [] (load answer) := by
  cases answer with
  | error result => exact serves_halt result
  | ok cost =>
    have hend : (charge cost >>= fun _ => pure ()) = charge cost := bind_pure _
    rw [load, ← hend]
    exact (quiet_charge cost).serves fun _ _ => serves_pure ()

/-- Two operands request their range before the rest, which goes on at once if the range is
empty. -/
theorem serves_room {m m' : Interp α} {offset len : ℕ} (hempty : Serves stack ranges m')
    (hroom : Serves stack (⟨offset, len⟩ :: ranges) m) :
    Serves stack (room offset len ++ ranges) (if len = 0 then m' else m) := by
  rw [room]
  split
  · exact hempty
  · exact hroom

/-- The last range of an opcode. -/
theorem serves_last {m m' : Interp α} {offset len : ℕ} (hempty : Serves stack [] m')
    (hroom : Serves stack [⟨offset, len⟩] m) :
    Serves stack (room offset len) (if len = 0 then m' else m) := by
  have happend := serves_room hempty hroom
  rwa [List.append_nil] at happend

/-- The range at a memory offset, of a length that has been read, and what requests nothing
after it. -/
theorem serves_offset {rest : Interp α} (hrest : ∀ stack', Serves stack' [] rest)
    (offset len : ℕ) :
    Serves stack (room offset len) (if len ≠ 0 then do
      let offset ← asUsizeOrFail offset
      resizeMemoryMip3 offset len
      rest
    else rest) := by
  simp only [ne_eq, ite_not]
  apply serves_last (hrest stack)
  apply (quiet_asUsizeOrFail offset).serves
  rintro offset rfl
  exact serves_resize _ len (hrest stack)

/-- A copy requests the range it fills. -/
theorem serves_monadCopyCostAndMemoryResize (host : Host) (memoryOffset len : ℕ) :
    Serves stack (room memoryOffset len) (monadCopyCostAndMemoryResize host memoryOffset len) := by
  apply (quiet_charge _).serves
  intro _ _
  apply serves_last (serves_pure none)
  apply (quiet_asUsizeOrFail memoryOffset).serves
  rintro memoryOffset rfl
  exact serves_resize _ len (serves_pure _)

/-- The output of a frame is requested before the frame ends with it. -/
theorem serves_monadReturnInner (stack : List ℕ) (result : InstructionResult) :
    Serves stack (room (stack.getD 0 0) (stack.getD 1 0)) (monadReturnInner result) := by
  apply serves_pop
  rintro offset rest rfl
  apply serves_pop
  rintro len rest rfl
  apply (quiet_asUsizeOrFail len).serves
  rintro len rfl
  exact serves_offset (fun _ => serves_halt result) offset len

/-- One range of a call, before the rest. -/
theorem serves_monadCallResizeMemory {f : Range → Interp α} (offset len : ℕ)
    (hf : ∀ range, Serves stack ranges (f range)) :
    Serves stack (room offset len ++ ranges) (monadCallResizeMemory offset len >>= f) := by
  have hbind : monadCallResizeMemory offset len >>= f = (do
      let len ← asUsizeOrFail len
      if len = 0 then f ⟨usizeRange - 1, len⟩
      else
        let offset ← asUsizeOrFail offset
        resizeMemoryMip3 offset len
        f ⟨offset, len⟩) := by
    rw [monadCallResizeMemory, bind_assoc]
    congr
    funext len
    split
    · exact pure_bind _ _
    · simp only [bind_assoc, pure_bind]
  rw [hbind]
  apply (quiet_asUsizeOrFail len).serves
  rintro len rfl
  apply serves_room (hf _)
  apply (quiet_asUsizeOrFail offset).serves
  rintro offset rfl
  exact serves_resize _ _ (hf _)

/-- A call requests its input and then its output. -/
theorem serves_monadGetMemoryInputAndOutRanges (stack : List ℕ) :
    Serves stack (room (stack.getD 0 0) (stack.getD 1 0) ++
      room (stack.getD 2 0) (stack.getD 3 0)) monadGetMemoryInputAndOutRanges := by
  apply serves_pop
  rintro inOffset rest rfl
  apply serves_pop
  rintro inLen rest rfl
  apply serves_pop
  rintro outOffset rest rfl
  apply serves_pop
  rintro outLen rest rfl
  change Serves rest (room inOffset inLen ++ room outOffset outLen) _
  apply serves_monadCallResizeMemory
  intro inRange
  apply serves_get
  intro i
  rw [← List.append_nil (room outOffset outLen)]
  apply serves_monadCallResizeMemory
  intro retRange
  exact serves_pure _

end Parts

section Handlers

variable (host : Host) (stack : List ℕ)

/-- `MLOAD` requests the word it reads. -/
theorem serves_mload : Serves stack (operandRanges 0x51 (stack.getD · 0)) (mload host) := by
  apply serves_pop
  rintro top rest rfl
  apply (quiet_asUsizeOrFail top).serves
  rintro offset rfl
  exact serves_resizeMemoryMip3 offset 32

/-- `MSTORE` requests the word it writes. -/
theorem serves_mstore : Serves stack (operandRanges 0x52 (stack.getD · 0)) (mstore host) := by
  apply serves_pop
  rintro offset rest rfl
  apply serves_pop
  rintro value rest rfl
  apply (quiet_asUsizeOrFail offset).serves
  rintro offset rfl
  exact serves_resizeMemoryMip3 offset 32

/-- `MSTORE8` requests the byte it writes. -/
theorem serves_mstore8 : Serves stack (operandRanges 0x53 (stack.getD · 0)) (mstore8 host) := by
  apply serves_pop
  rintro offset rest rfl
  apply serves_pop
  rintro value rest rfl
  apply (quiet_asUsizeOrFail offset).serves
  rintro offset rfl
  exact serves_resizeMemoryMip3 offset 1

/-- `MCOPY` requests up to the end of the later of its two ranges. -/
theorem serves_mcopy : Serves stack (operandRanges 0x5e (stack.getD · 0)) (mcopy host) := by
  apply (quiet_check host .cancun).serves
  intro _ _
  apply serves_pop
  rintro dst rest rfl
  apply serves_pop
  rintro src rest rfl
  apply serves_pop
  rintro len rest rfl
  apply (quiet_asUsizeOrFail len).serves
  rintro len rfl
  apply (quiet_charge _).serves
  intro _ _
  change Serves rest (room (max dst src) len) _
  apply serves_last (serves_pure ())
  apply (quiet_asUsizeOrFail dst).serves
  rintro dst rfl
  apply (quiet_asUsizeOrFail src).serves
  rintro src rfl
  exact serves_resizeMemoryMip3 (max dst src) len

/-- `KECCAK256` requests what it hashes. -/
theorem serves_keccak256 :
    Serves stack (operandRanges 0x20 (stack.getD · 0)) (keccak256 host) := by
  apply serves_pop
  rintro offset rest rfl
  apply serves_pop
  rintro top rest rfl
  apply (quiet_asUsizeOrFail top).serves
  rintro len rfl
  apply (quiet_charge _).serves
  intro _ _
  change Serves rest (room offset len) _
  apply serves_last (serves_pure ())
  apply (quiet_asUsizeOrFail offset).serves
  rintro offset rfl
  exact serves_resizeMemoryMip3 offset len

/-- A copy makes room through the shared helper, after its operands are read. -/
theorem serves_copy (memoryOffset len : ℕ) :
    Serves stack (room memoryOffset len) (do
      let len ← asUsizeOrFail len
      let _ ← monadCopyCostAndMemoryResize host memoryOffset len) := by
  apply (quiet_asUsizeOrFail len).serves
  rintro len rfl
  apply (serves_monadCopyCostAndMemoryResize host memoryOffset len).bind
  intro _ _
  exact serves_pure ()

/-- `CALLDATACOPY` requests what it writes. -/
theorem serves_calldatacopy :
    Serves stack (operandRanges 0x37 (stack.getD · 0)) (calldatacopy host) := by
  apply serves_pop
  rintro memoryOffset rest rfl
  apply serves_pop
  rintro dataOffset rest rfl
  apply serves_pop
  rintro len rest rfl
  exact serves_copy host rest memoryOffset len

/-- `CODECOPY` requests what it writes. -/
theorem serves_codecopy :
    Serves stack (operandRanges 0x39 (stack.getD · 0)) (codecopy host) := by
  apply serves_pop
  rintro memoryOffset rest rfl
  apply serves_pop
  rintro codeOffset rest rfl
  apply serves_pop
  rintro len rest rfl
  exact serves_copy host rest memoryOffset len

/-- `RETURNDATACOPY` requests what it writes, unless it would read past its source. -/
theorem serves_returndatacopy :
    Serves stack (operandRanges 0x3e (stack.getD · 0)) (returndatacopy host) := by
  apply (quiet_check host .byzantium).serves
  intro _ _
  apply serves_pop
  rintro memoryOffset rest rfl
  apply serves_pop
  rintro offset rest rfl
  apply serves_pop
  rintro len rest rfl
  apply (quiet_asUsizeOrFail len).serves
  rintro len rfl
  change Serves rest (room memoryOffset len) _
  have hcopy : Serves rest (room memoryOffset len)
      (monadCopyCostAndMemoryResize host memoryOffset len >>= fun _ => pure ()) :=
    (serves_monadCopyCostAndMemoryResize host memoryOffset len).bind fun _ _ => serves_pure ()
  apply serves_ite
  · intro _
    exact (quiet_halt (by simp [Stop.Returns])).serves fun _ _ => hcopy
  · intro _
    exact hcopy

/-- `EXTCODECOPY` requests what it writes. -/
theorem serves_extcodecopy :
    Serves stack (operandRanges 0x3c (stack.getD · 0)) (extcodecopy host) := by
  apply serves_pop
  rintro address rest rfl
  apply serves_pop
  rintro memoryOffset rest rfl
  apply serves_pop
  rintro codeOffset rest rfl
  apply serves_pop
  rintro len rest rfl
  apply (quiet_asUsizeOrFail len).serves
  rintro len rfl
  apply (quiet_charge _).serves
  intro _ _
  exact serves_offset (fun _ => serves_load _) memoryOffset len

/-- Popping the topics of a log requests nothing. -/
theorem serves_popTopics (n : ℕ) : Serves stack [] (popTopics n) := by
  have hpop (stack : List ℕ) : Serves stack [] (discard pop : Interp PUnit) :=
    serves_pop fun _ _ _ => serves_pure PUnit.unit
  rw [popTopics]
  induction List.range n generalizing stack with
  | nil => exact serves_pure PUnit.unit
  | cons topic topics ih => exact (hpop stack).bind fun _ stack' => ih stack'

/-- `LOG0` to `LOG4` request what they log. -/
theorem serves_log (n : ℕ) : Serves stack (operandRanges 0xa0 (stack.getD · 0)) (log n host) := by
  apply (quiet_requireNonStaticcall host).serves
  intro _ _
  apply serves_pop
  rintro offset rest rfl
  apply serves_pop
  rintro len rest rfl
  apply (quiet_asUsizeOrFail len).serves
  rintro len rfl
  apply (quiet_charge _).serves
  intro _ _
  exact serves_offset (fun stack' => serves_popTopics stack' n) offset len

/-- The code of a creation gets room once its size is paid for. -/
theorem serves_createInitcode (codeOffset len : ℕ) :
    Serves stack (room codeOffset len) (createInitcode host codeOffset len) := by
  have hroom : Serves stack [⟨codeOffset, len⟩] (do
      let codeOffset ← asUsizeOrFail codeOffset
      resizeMemoryMip3 codeOffset len) := by
    apply (quiet_asUsizeOrFail codeOffset).serves
    rintro codeOffset rfl
    exact serves_resizeMemoryMip3 codeOffset len
  have hpaid : Serves stack [⟨codeOffset, len⟩] (do
      charge (host.initcodeCost len)
      let codeOffset ← asUsizeOrFail codeOffset
      resizeMemoryMip3 codeOffset len) := (quiet_charge _).serves fun _ _ => hroom
  apply serves_last (serves_pure ())
  apply serves_ite
  · intro _
    apply serves_ite
    · intro _
      exact (quiet_halt (by simp [Stop.Returns])).serves fun _ _ => hpaid
    · intro _
      exact hpaid
  · intro _
    exact hroom

/-- Paying for a creation requests nothing. -/
theorem serves_createGas (isCreate2 : Bool) (len : ℕ) :
    Serves stack [] (createGas isCreate2 host len) := by
  have hcharge (stack : List ℕ) (cost : ℕ) : Serves stack [] (charge cost) := serves_load (.ok cost)
  have hhanded (stack : List ℕ) : Serves stack [] (do
      let interpreter ← get
      let gasLimit := interpreter.frame.gas.remaining
      charge (if host.isEnabledIn .tangerine then host.callStipendReduction gasLimit
        else gasLimit)) := serves_get fun _ => hcharge stack _
  apply serves_ite
  · intro _
    apply serves_pop
    rintro salt rest rfl
    exact (quiet_charge _).serves fun _ _ => hhanded rest
  · intro _
    exact (quiet_charge _).serves fun _ _ => hhanded stack

/-- `CREATE` and `CREATE2` request the code they create with. -/
theorem serves_create (isCreate2 : Bool) :
    Serves stack (operandRanges 0xf0 (stack.getD · 0)) (create isCreate2 host) := by
  have hrest : Serves stack (operandRanges 0xf0 (stack.getD · 0)) (do
      let _value ← pop
      let codeOffset ← pop
      let len ← pop
      let len ← asUsizeOrFail len
      createInitcode host codeOffset len
      createGas isCreate2 host len) := by
    apply serves_pop
    rintro value rest rfl
    apply serves_pop
    rintro codeOffset rest rfl
    apply serves_pop
    rintro len rest rfl
    apply (quiet_asUsizeOrFail len).serves
    rintro len rfl
    exact (serves_createInitcode host rest codeOffset len).bind
      fun _ stack' => serves_createGas host stack' isCreate2 len
  apply (quiet_requireNonStaticcall host).serves
  intro _ _
  apply serves_ite
  · intro _
    exact (quiet_check host .petersburg).serves fun _ _ => hrest
  · intro _
    exact hrest

/-- The ranges of a call, and what the call is charged. -/
theorem serves_ranges (answer : Except InstructionResult ℕ) :
    Serves stack (room (stack.getD 0 0) (stack.getD 1 0) ++
        room (stack.getD 2 0) (stack.getD 3 0)) (do
      let _ ← monadGetMemoryInputAndOutRanges
      load answer) :=
  (serves_monadGetMemoryInputAndOutRanges stack).bind fun _ _ => serves_load answer

/-- `CALL` requests its input and its output. -/
theorem serves_call : Serves stack (operandRanges 0xf1 (stack.getD · 0)) (call host) := by
  apply serves_pop
  rintro localGasLimit rest rfl
  apply serves_pop
  rintro callee rest rfl
  apply serves_pop
  rintro value rest rfl
  have hranges := serves_ranges rest host.loadAccAndCalcGas
  apply serves_ite
  · intro _
    exact (quiet_halt (by simp [Stop.Returns])).serves fun _ _ => hranges
  · intro _
    exact hranges

/-- `CALLCODE` requests its input and its output. -/
theorem serves_callCode :
    Serves stack (operandRanges 0xf2 (stack.getD · 0)) (callCode host) := by
  apply serves_pop
  rintro localGasLimit rest rfl
  apply serves_pop
  rintro callee rest rfl
  apply serves_pop
  rintro value rest rfl
  exact serves_ranges rest host.loadAccAndCalcGas

/-- `DELEGATECALL` and `STATICCALL` request their input and their output. -/
theorem serves_valuelessCall (spec : SpecId) :
    Serves stack (operandRanges 0xf4 (stack.getD · 0)) (valuelessCall spec host) := by
  apply (quiet_check host spec).serves
  intro _ _
  apply serves_pop
  rintro localGasLimit rest rfl
  apply serves_pop
  rintro callee rest rfl
  exact serves_ranges rest host.loadAccAndCalcGas

/-- `RETURN` requests the output of the frame. -/
theorem serves_ret : Serves stack (operandRanges 0xf3 (stack.getD · 0)) (ret host) :=
  serves_monadReturnInner stack .return

/-- `REVERT` requests the output of the frame. -/
theorem serves_revert : Serves stack (operandRanges 0xfd (stack.getD · 0)) (revert host) := by
  apply (quiet_check host .byzantium).serves
  intro _ _
  exact serves_monadReturnInner stack .revert

/-- Every replaced opcode requests the memory that its operands name. -/
theorem serves_mip3Instructions {entry : UInt8 × Instruction} (hentry : entry ∈ mip3Instructions) :
    Serves stack (operandRanges entry.1 (stack.getD · 0)) (entry.2.run host) := by
  simp only [mip3Instructions, List.mem_cons, List.not_mem_nil, or_false] at hentry
  rcases hentry with rfl | rfl | rfl | rfl | rfl | rfl | rfl | rfl | rfl | rfl | rfl | rfl | rfl |
    rfl | rfl | rfl | rfl | rfl | rfl | rfl | rfl | rfl
  · exact serves_mload host stack
  · exact serves_mstore host stack
  · exact serves_mstore8 host stack
  · exact serves_mcopy host stack
  · exact serves_keccak256 host stack
  · exact serves_calldatacopy host stack
  · exact serves_codecopy host stack
  · exact serves_returndatacopy host stack
  · exact serves_extcodecopy host stack
  · exact serves_log host stack 0
  · exact serves_log host stack 1
  · exact serves_log host stack 2
  · exact serves_log host stack 3
  · exact serves_log host stack 4
  · exact serves_create host stack false
  · exact serves_create host stack true
  · exact serves_call host stack
  · exact serves_callCode host stack
  · exact serves_valuelessCall host stack .homestead
  · exact serves_valuelessCall host stack .byzantium
  · exact serves_ret host stack
  · exact serves_revert host stack

end Handlers

end SuwappuRevm.Memory
