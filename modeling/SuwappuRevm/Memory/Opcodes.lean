import SuwappuRevm.Memory.LinearGas

/-!
# Opcodes with linear memory cost

The handlers that replace the memory-expanding opcodes from MonadNine on, as far as they read the
stack, charge gas and request memory. What they read from memory or write into it stays inside the
requested range and is left out. Gas schedules, account loads and the handlers of the other opcodes
belong to the interpreter and are parameters.
-/

namespace SuwappuRevm.Memory

open SuwappuRevm.Foundations

/-- A served request, what it was charged and the size it left the memory with. -/
structure Request where
  range : Range
  charged : ℕ
  len : ℕ
  deriving DecidableEq, Repr

/-- A running frame, with a log of the requests it has served. -/
structure Interpreter where
  frame : Frame
  stack : List ℕ := []
  requests : List Request := []
  deriving DecidableEq, Repr

/-- An instruction's effect on the running frame. -/
abbrev Interp := EStateM Stop Interpreter

/-- The underlying hardforks that a handler asks for. -/
inductive SpecId
  | homestead
  | tangerine
  | byzantium
  | petersburg
  | berlin
  | shanghai
  | cancun
  deriving DecidableEq, Repr

/-- What the interpreter and its host answer to a handler: flags, the gas schedule, and the cost of
loading an account or the result it stops with. -/
structure Host where
  isStatic : Bool
  isEnabledIn : SpecId → Bool
  copyCost : ℕ → ℕ
  mcopyCost : ℕ → ℕ
  keccak256Cost : ℕ → ℕ
  extcodecopyCost : ℕ → ℕ
  logCost : ℕ → ℕ → ℕ
  initcodeCost : ℕ → ℕ
  createCost : ℕ
  create2Cost : ℕ → ℕ
  callStipendReduction : ℕ → ℕ
  maxInitcodeSize : ℕ
  returnDataLen : ℕ
  loadAccountCode : Except InstructionResult ℕ
  loadAccAndCalcGas : Except InstructionResult ℕ

/-- Stop with a result. -/
def halt {α : Type} (result : InstructionResult) : Interp α := throw (.halt result)

/-- Pop a word. -/
def pop : Interp ℕ := fun interpreter =>
  match interpreter.stack with
  | [] => .error (.halt .stackUnderflow) interpreter
  | word :: stack => .ok word { interpreter with stack }

/-- Charge gas. -/
def charge (cost : ℕ) : Interp Unit := fun interpreter =>
  match interpreter.frame.gas.recordCost cost with
  | none => .error (.halt .outOfGas) interpreter
  | some gas => .ok () { interpreter with frame := { interpreter.frame with gas } }

/-- An operand that is no machine word stops the frame. -/
def asUsizeOrFail (word : ℕ) : Interp ℕ :=
  if word < usizeRange then pure word else halt .invalidOperandOOG

/-- An operand that is no machine word counts as the greatest one. -/
def asUsizeSaturated (word : ℕ) : ℕ := min word (usizeRange - 1)

/-- Require a hardfork. -/
def check (host : Host) (spec : SpecId) : Interp Unit :=
  if host.isEnabledIn spec then pure () else halt .notActivated

/-- Require a frame that may change state. -/
def requireNonStaticcall (host : Host) : Interp Unit :=
  if host.isStatic then halt .stateChangeDuringStaticCall else pure ()

/-- Pay for loading an account, or stop with the result that the load gives. -/
def load (answer : Except InstructionResult ℕ) : Interp Unit :=
  match answer with
  | .error result => halt result
  | .ok cost => charge cost

/-- Resize the memory of the frame at the linear price. -/
def resizeMemoryMip3 (offset len : ℕ) : Interp Unit := fun interpreter =>
  match monadResizeMemory offset len interpreter.frame with
  | .error e frame => .error e { interpreter with frame }
  | .ok _ frame =>
    .ok () { interpreter with
      frame
      requests := interpreter.requests ++
        [⟨⟨offset, len⟩, interpreter.frame.gas.remaining - frame.gas.remaining,
          frame.memory.len⟩] }

/-- Pay for a copy and make room for it; nothing is copied when its length is zero. -/
def monadCopyCostAndMemoryResize (host : Host) (memoryOffset len : ℕ) : Interp (Option ℕ) := do
  charge (host.copyCost len)
  if len = 0 then return none
  let memoryOffset ← asUsizeOrFail memoryOffset
  resizeMemoryMip3 memoryOffset len
  return some memoryOffset

/-- End the frame with the output range in memory. -/
def monadReturnInner (result : InstructionResult) : Interp Unit := do
  let offset ← pop
  let len ← pop
  let len ← asUsizeOrFail len
  if len ≠ 0 then
    let offset ← asUsizeOrFail offset
    resizeMemoryMip3 offset len
  halt result

/-- Make room for one range of a call; an empty one starts nowhere. -/
def monadCallResizeMemory (offset len : ℕ) : Interp Range := do
  let len ← asUsizeOrFail len
  if len = 0 then return ⟨usizeRange - 1, len⟩
  let offset ← asUsizeOrFail offset
  resizeMemoryMip3 offset len
  return ⟨offset, len⟩

/-- Make room for the input and the output of a call; the input is placed in the shared buffer. -/
def monadGetMemoryInputAndOutRanges : Interp (Range × Range) := do
  let inOffset ← pop
  let inLen ← pop
  let outOffset ← pop
  let outLen ← pop
  let inRange ← monadCallResizeMemory inOffset inLen
  let interpreter ← get
  let start := if inRange.len = 0 then inRange.offset
    else saturatingAdd inRange.offset interpreter.frame.memory.checkpoint
  let retRange ← monadCallResizeMemory outOffset outLen
  return (⟨start, inRange.len⟩, retRange)

/-- `MLOAD`. -/
def mload (_host : Host) : Interp Unit := do
  let top ← pop
  let offset ← asUsizeOrFail top
  resizeMemoryMip3 offset 32

/-- `MSTORE`. -/
def mstore (_host : Host) : Interp Unit := do
  let offset ← pop
  let _value ← pop
  let offset ← asUsizeOrFail offset
  resizeMemoryMip3 offset 32

/-- `MSTORE8`. -/
def mstore8 (_host : Host) : Interp Unit := do
  let offset ← pop
  let _value ← pop
  let offset ← asUsizeOrFail offset
  resizeMemoryMip3 offset 1

/-- `MCOPY`. -/
def mcopy (host : Host) : Interp Unit := do
  check host .cancun
  let dst ← pop
  let src ← pop
  let len ← pop
  let len ← asUsizeOrFail len
  charge (host.mcopyCost len)
  if len = 0 then return
  let dst ← asUsizeOrFail dst
  let src ← asUsizeOrFail src
  resizeMemoryMip3 (max dst src) len

/-- `KECCAK256`. -/
def keccak256 (host : Host) : Interp Unit := do
  let offset ← pop
  let top ← pop
  let len ← asUsizeOrFail top
  charge (host.keccak256Cost len)
  if len = 0 then return
  let offset ← asUsizeOrFail offset
  resizeMemoryMip3 offset len

/-- `CALLDATACOPY`. -/
def calldatacopy (host : Host) : Interp Unit := do
  let memoryOffset ← pop
  let _dataOffset ← pop
  let len ← pop
  let len ← asUsizeOrFail len
  let _ ← monadCopyCostAndMemoryResize host memoryOffset len

/-- `CODECOPY`. -/
def codecopy (host : Host) : Interp Unit := do
  let memoryOffset ← pop
  let _codeOffset ← pop
  let len ← pop
  let len ← asUsizeOrFail len
  let _ ← monadCopyCostAndMemoryResize host memoryOffset len

/-- `RETURNDATACOPY`, the only copy that may not read past its source. -/
def returndatacopy (host : Host) : Interp Unit := do
  check host .byzantium
  let memoryOffset ← pop
  let offset ← pop
  let len ← pop
  let len ← asUsizeOrFail len
  if host.returnDataLen < saturatingAdd (asUsizeSaturated offset) len then halt .outOfOffset
  let _ ← monadCopyCostAndMemoryResize host memoryOffset len

/-- `EXTCODECOPY`; the memory grows before the account is loaded. -/
def extcodecopy (host : Host) : Interp Unit := do
  let _address ← pop
  let memoryOffset ← pop
  let _codeOffset ← pop
  let len ← pop
  let len ← asUsizeOrFail len
  charge (host.extcodecopyCost len)
  if len ≠ 0 then
    let memoryOffset ← asUsizeOrFail memoryOffset
    resizeMemoryMip3 memoryOffset len
  load host.loadAccountCode

/-- Pop the topics of a log. -/
def popTopics (n : ℕ) : Interp Unit := (List.range n).forM fun _ => discard pop

/-- `LOG0` to `LOG4`, by the number of topics. -/
def log (n : ℕ) (host : Host) : Interp Unit := do
  requireNonStaticcall host
  let offset ← pop
  let len ← pop
  let len ← asUsizeOrFail len
  charge (host.logCost n len)
  if len ≠ 0 then
    let offset ← asUsizeOrFail offset
    resizeMemoryMip3 offset len
  popTopics n

/-- The code of a creation: its size is limited and paid for, then it gets room. -/
def createInitcode (host : Host) (codeOffset len : ℕ) : Interp Unit := do
  if len = 0 then return
  if host.isEnabledIn .shanghai then
    if host.maxInitcodeSize < len then halt .createInitCodeSizeLimit
    charge (host.initcodeCost len)
  let codeOffset ← asUsizeOrFail codeOffset
  resizeMemoryMip3 codeOffset len

/-- The price of a creation and the gas handed to the new frame. -/
def createGas (isCreate2 : Bool) (host : Host) (len : ℕ) : Interp Unit := do
  if isCreate2 then
    let _salt ← pop
    charge (host.create2Cost len)
  else
    charge host.createCost
  let interpreter ← get
  let gasLimit := interpreter.frame.gas.remaining
  charge (if host.isEnabledIn .tangerine then host.callStipendReduction gasLimit else gasLimit)

/-- `CREATE` and `CREATE2`. -/
def create (isCreate2 : Bool) (host : Host) : Interp Unit := do
  requireNonStaticcall host
  if isCreate2 then check host .petersburg
  let _value ← pop
  let codeOffset ← pop
  let len ← pop
  let len ← asUsizeOrFail len
  createInitcode host codeOffset len
  createGas isCreate2 host len

/-- `CALL`, which may not transfer value in a static frame. -/
def call (host : Host) : Interp Unit := do
  let _localGasLimit ← pop
  let _to ← pop
  let value ← pop
  if host.isStatic ∧ value ≠ 0 then halt .callNotAllowedInsideStatic
  let _ ← monadGetMemoryInputAndOutRanges
  load host.loadAccAndCalcGas

/-- `CALLCODE`. -/
def callCode (host : Host) : Interp Unit := do
  let _localGasLimit ← pop
  let _to ← pop
  let _value ← pop
  let _ ← monadGetMemoryInputAndOutRanges
  load host.loadAccAndCalcGas

/-- A call without value: `DELEGATECALL` and `STATICCALL` differ in the hardfork they need. -/
def valuelessCall (spec : SpecId) (host : Host) : Interp Unit := do
  check host spec
  let _localGasLimit ← pop
  let _to ← pop
  let _ ← monadGetMemoryInputAndOutRanges
  load host.loadAccAndCalcGas

/-- `DELEGATECALL`. -/
def delegateCall : Host → Interp Unit := valuelessCall .homestead

/-- `STATICCALL`. -/
def staticCall : Host → Interp Unit := valuelessCall .byzantium

/-- `RETURN`. -/
def ret (_host : Host) : Interp Unit := monadReturnInner .return

/-- `REVERT`. -/
def revert (host : Host) : Interp Unit := do
  check host .byzantium
  monadReturnInner .revert

/-- An entry of the instruction table: a handler and the gas charged before it runs. -/
structure Instruction where
  run : Host → Interp Unit
  staticGas : ℕ

/-- The entries that MonadNine puts in place of the memory-expanding opcodes. -/
def mip3Instructions : List (UInt8 × Instruction) :=
  [(0x51, ⟨mload, 3⟩), (0x52, ⟨mstore, 3⟩), (0x53, ⟨mstore8, 3⟩), (0x5e, ⟨mcopy, 3⟩),
    (0x20, ⟨keccak256, 30⟩),
    (0x37, ⟨calldatacopy, 3⟩), (0x39, ⟨codecopy, 3⟩), (0x3e, ⟨returndatacopy, 3⟩),
    (0x3c, ⟨extcodecopy, 100⟩),
    (0xa0, ⟨log 0, 375⟩), (0xa1, ⟨log 1, 375⟩), (0xa2, ⟨log 2, 375⟩), (0xa3, ⟨log 3, 375⟩),
    (0xa4, ⟨log 4, 375⟩),
    (0xf0, ⟨create false, 0⟩), (0xf5, ⟨create true, 0⟩),
    (0xf1, ⟨call, 100⟩), (0xf2, ⟨callCode, 100⟩), (0xf4, ⟨delegateCall, 100⟩),
    (0xfa, ⟨staticCall, 100⟩),
    (0xf3, ⟨ret, 0⟩), (0xfd, ⟨revert, 0⟩)]

/-- The instruction table of a hardfork over the table of the interpreter. -/
def monadInstructions (base : UInt8 → Instruction) (spec : MonadSpecId) : UInt8 → Instruction :=
  if MonadSpecId.monadNine.isEnabledIn spec then
    mip3Instructions.foldl (fun table entry => Function.update table entry.1 entry.2) base
  else base

/-- The opcodes of the virtual machine that take a memory range. -/
def memoryExpanding : List UInt8 :=
  [0x20, 0x37, 0x39, 0x3c, 0x3e, 0x51, 0x52, 0x53, 0x5e, 0xa0, 0xa1, 0xa2, 0xa3, 0xa4,
    0xf0, 0xf1, 0xf2, 0xf3, 0xf4, 0xf5, 0xfa, 0xfd]

/-- The range of two operands, unless it is empty: then its offset means nothing. -/
def room (offset len : ℕ) : List Range := if len = 0 then [] else [⟨offset, len⟩]

/-- The memory that the operands of an opcode name, by their positions on the stack. -/
def operandRanges (opcode : UInt8) (operand : ℕ → ℕ) : List Range :=
  match opcode with
  | 0x51 | 0x52 => [⟨operand 0, 32⟩]
  | 0x53 => [⟨operand 0, 1⟩]
  | 0x5e => room (max (operand 0) (operand 1)) (operand 2)
  | 0x20 | 0xa0 | 0xa1 | 0xa2 | 0xa3 | 0xa4 | 0xf3 | 0xfd => room (operand 0) (operand 1)
  | 0x37 | 0x39 | 0x3e => room (operand 0) (operand 2)
  | 0x3c => room (operand 1) (operand 3)
  | 0xf0 | 0xf5 => room (operand 1) (operand 2)
  | 0xf1 | 0xf2 => room (operand 3) (operand 4) ++ room (operand 5) (operand 6)
  | 0xf4 | 0xfa => room (operand 2) (operand 3) ++ room (operand 4) (operand 5)
  | _ => []

/-- Something that happens in a frame: an instruction runs, on a stack and with a host that are
whatever the code has made them, or a subcall ends, returns gas and leaves its output in the range
that the call made room for. -/
inductive Event
  | instruction (opcode : UInt8) (host : Host) (stack : List ℕ)
  | resume (returned : ℕ)

/-- The memory that an event needs. -/
def Event.ranges : Event → List Range
  | .instruction opcode _ stack => operandRanges opcode (stack.getD · 0)
  | .resume _ => []

/-- The effect of an event under an instruction table. -/
def Event.apply (table : UInt8 → Instruction) : Event → Interp Unit
  | .instruction opcode host stack => do
    modify fun interpreter => { interpreter with stack }
    charge (table opcode).staticGas
    (table opcode).run host
  | .resume returned => modify fun interpreter =>
    let gas := { interpreter.frame.gas with
      remaining := interpreter.frame.gas.remaining + returned }
    { interpreter with frame := { interpreter.frame with gas } }

/-- Run a frame until it stops. -/
def runFrame (table : UInt8 → Instruction) (events : List Event) : Interp Unit :=
  events.forM (Event.apply table)

end SuwappuRevm.Memory
