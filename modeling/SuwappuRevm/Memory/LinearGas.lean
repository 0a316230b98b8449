import Mathlib.Tactic.Ring
import SuwappuRevm.Foundations.GasMeter
import SuwappuRevm.Foundations.HighWater
import SuwappuRevm.Foundations.StateInvariant
import SuwappuRevm.Spec

/-!
# Linear memory gas

The memory of a frame grows word by word and the MonadNine hardfork prices `n` words at `n / 2`.
`monad_resize_memory` serves one request and unwraps, unchecked, the difference between the new
cost and the stored one. Gas, machine words and the shared memory follow the interpreter; the
contents of the memory decide nothing here and only its size is kept.
-/

namespace SuwappuRevm.Memory

open SuwappuRevm.Foundations

/-- The pooled memory limit of a transaction, eight megabytes. -/
def monadMemoryLimit : ℕ := 8 * 1024 * 1024

/-- The memory limit of the configuration; `fallback` is the limit of the general one. -/
def memoryLimit (spec : MonadSpecId) (fallback : ℕ) : ℕ :=
  if MonadSpecId.monadNine.isEnabledIn spec then monadMemoryLimit else fallback

/-- The number of values of a machine word. -/
def usizeRange : ℕ := 2 ^ 64

/-- Addition that stays at the greatest machine word. -/
def saturatingAdd (a b : ℕ) : ℕ := min (a + b) (usizeRange - 1)

/-- The words that hold `len` bytes. -/
def numWords (len : ℕ) : ℕ := (len + 31) / 32

/-- The memory of a frame: where it starts in the buffer shared along the call stack, its size,
and the limit on the shared buffer, absent in a build without limits. -/
structure SharedMemory where
  checkpoint : ℕ
  len : ℕ
  limit : Option ℕ
  deriving DecidableEq, Repr

/-- The request would push the shared buffer over the limit. -/
def SharedMemory.limitReached (memory : SharedMemory) (offset len : ℕ) : Bool :=
  memory.limit.any fun limit =>
    decide (limit < saturatingAdd (saturatingAdd memory.checkpoint offset) len)

/-- How a computation stops: with a result, or by unwrapping an absent value unchecked, after which
nothing is known. -/
inductive Stop
  | halt (result : InstructionResult)
  | undefinedBehavior
  deriving DecidableEq, Repr

/-- What a resize reads and writes: the gas meter and the memory of the frame. -/
structure Frame where
  gas : Gas
  memory : SharedMemory
  deriving DecidableEq, Repr

/-- Half a unit of gas for each word. -/
def monadMemoryCost (numWords : ℕ) : ℕ := numWords >>> 1

/-- Grow the memory to more words than it has. The new words and their cost are stored before the
charge is tried. -/
def monadResizeMemoryCold (newNumWords : ℕ) : EStateM Stop Frame Unit := fun frame =>
  let totalCost := monadMemoryCost newNumWords
  let stored := frame.gas.memory.setWordsNum newNumWords totalCost
  let gas := { frame.gas with memory := stored.2 }
  match stored.1 with
  | none => .error .undefinedBehavior { frame with gas }
  | some delta =>
    match gas.recordCost delta with
    | none => .error (.halt .memoryOOG) { frame with gas }
    | some gas =>
      .ok () { gas, memory := { frame.memory with len := newNumWords * 32 % usizeRange } }

/-- Serve one request for `len` bytes at `offset`. -/
def monadResizeMemory (offset len : ℕ) : EStateM Stop Frame Unit := fun frame =>
  if frame.memory.limitReached offset len then .error (.halt .memoryLimitOOG) frame
  else
    let newNumWords := numWords (saturatingAdd offset len)
    if frame.gas.memory.wordsNum < newNumWords then monadResizeMemoryCold newNumWords frame
    else .ok () frame

/-- A request for `len` bytes at `offset`. -/
structure Range where
  offset : ℕ
  len : ℕ
  deriving DecidableEq, Repr

/-- The words up to the end of a range. -/
def Range.words (range : Range) : ℕ := numWords (range.offset + range.len)

/-- The words of the largest of the ranges. -/
def peakWords (ranges : List Range) : ℕ := peak 0 (ranges.map Range.words)

/-- Serve requests until one fails. -/
def resizeAll (ranges : List Range) : EStateM Stop Frame Unit :=
  ranges.forM fun range => monadResizeMemory range.offset range.len

/-- The frame a call starts with: fresh gas and no memory. -/
def Frame.new (gasLimit checkpoint : ℕ) (limit : Option ℕ) : Frame :=
  ⟨.new gasLimit, ⟨checkpoint, 0, limit⟩⟩

/-- The stored cost is the linear price of the stored words. -/
def LinearCost (frame : Frame) : Prop :=
  frame.gas.memory.expansionCost = frame.gas.memory.wordsNum / 2

/-- The memory is priced at `words` words, all of them paid for at the linear price and present. -/
structure Priced (frame : Frame) (words : ℕ) : Prop where
  wordsNum : frame.gas.memory.wordsNum = words
  expansionCost : frame.gas.memory.expansionCost = words / 2
  len : frame.memory.len = 32 * words

/-- No request can bring the size of the memory to the end of the machine words: either the limit
on memory or the gas is in the way. -/
def Capped (frame : Frame) (words : ℕ) : Prop :=
  (∃ limit, frame.memory.limit = some limit ∧ limit + 32 ≤ usizeRange) ∨
    frame.gas.remaining + words / 2 < 2 ^ 58

/-- The shift halves. -/
@[simp] theorem monadMemoryCost_eq (numWords : ℕ) : monadMemoryCost numWords = numWords / 2 :=
  Nat.shiftRight_one numWords

/-- The price grows with the size. -/
theorem monadMemoryCost_mono : Monotone monadMemoryCost := by
  intro a b h
  simpa using Nat.div_le_div_right h

/-- What a request does to a frame whose stored cost is linear: it is refused at the limit, served
by what is there, refused for want of gas, or served by growth. -/
theorem monadResizeMemory_eq {frame : Frame} (hcost : LinearCost frame) (offset len : ℕ) :
    monadResizeMemory offset len frame =
      let words := numWords (saturatingAdd offset len)
      let gas := { frame.gas with memory := ⟨words, words / 2⟩ }
      let delta := words / 2 - frame.gas.memory.wordsNum / 2
      if frame.memory.limitReached offset len then .error (.halt .memoryLimitOOG) frame
      else if words ≤ frame.gas.memory.wordsNum then .ok () frame
      else if frame.gas.remaining < delta then .error (.halt .memoryOOG) { frame with gas }
      else .ok () ⟨{ gas with remaining := frame.gas.remaining - delta },
        { frame.memory with len := words * 32 % usizeRange }⟩ := by
  dsimp only
  rw [monadResizeMemory]
  by_cases hlimit : frame.memory.limitReached offset len = true
  · rw [if_pos hlimit, if_pos hlimit]
  rw [if_neg hlimit, if_neg hlimit]
  dsimp only
  by_cases hgrow : frame.gas.memory.wordsNum < numWords (saturatingAdd offset len)
  · have hmono : frame.gas.memory.wordsNum / 2 ≤ numWords (saturatingAdd offset len) / 2 :=
      Nat.div_le_div_right hgrow.le
    have hlinear : frame.gas.memory.expansionCost = frame.gas.memory.wordsNum / 2 := hcost
    rw [if_pos hgrow, if_neg (Nat.not_le.mpr hgrow), monadResizeMemoryCold]
    simp only [MemoryGas.setWordsNum, monadMemoryCost_eq, hlinear, if_pos hmono, Gas.recordCost]
    by_cases hpaid : numWords (saturatingAdd offset len) / 2 - frame.gas.memory.wordsNum / 2 ≤
        frame.gas.remaining
    · rw [if_pos hpaid, if_neg (Nat.not_lt.mpr hpaid)]
    · rw [if_neg hpaid, if_pos (Nat.lt_of_not_le hpaid)]
  · rw [if_neg hgrow, if_pos (Nat.le_of_not_lt hgrow)]

/-- A served request keeps the stored cost linear and the limit as it was. -/
theorem LinearCost.serve {frame frame' : Frame} {offset len : ℕ} (hcost : LinearCost frame)
    (h : monadResizeMemory offset len frame = .ok () frame') :
    LinearCost frame' ∧ frame'.memory.limit = frame.memory.limit := by
  rw [monadResizeMemory_eq hcost] at h
  dsimp only at h
  split at h
  · cases h
  split at h
  · cases h
    exact ⟨hcost, rfl⟩
  split at h
  · cases h
  · cases h
    exact ⟨rfl, rfl⟩

/-- A failed request stops with a result, never undefined, and leaves the memory as it was. -/
theorem LinearCost.refuse {frame frame' : Frame} {offset len : ℕ} {stop : Stop}
    (hcost : LinearCost frame) (h : monadResizeMemory offset len frame = .error stop frame') :
    (stop = .halt .memoryLimitOOG ∨ stop = .halt .memoryOOG) ∧ frame'.memory = frame.memory := by
  rw [monadResizeMemory_eq hcost] at h
  dsimp only at h
  split at h
  · cases h
    exact ⟨.inl rfl, rfl⟩
  split at h
  · cases h
  split at h
  · cases h
    exact ⟨.inr rfl, rfl⟩
  · cases h

/-- A request that is served ends at least a word before the end of the machine words. -/
theorem Capped.fits {frame : Frame} {words offset len : ℕ} (hcap : Capped frame words)
    (hlimit : frame.memory.limitReached offset len = false)
    (hpaid : numWords (saturatingAdd offset len) / 2 ≤ frame.gas.remaining + words / 2) :
    offset + len + 32 ≤ usizeRange := by
  rcases hcap with ⟨limit, hsome, hle⟩ | hgas
  · have hreached : ¬limit < saturatingAdd (saturatingAdd frame.memory.checkpoint offset) len := by
      simpa [SharedMemory.limitReached, hsome] using hlimit
    unfold saturatingAdd usizeRange at *
    omega
  · unfold numWords saturatingAdd usizeRange at *
    omega

/-- The sum of a request that fits does not saturate. -/
theorem saturatingAdd_of_fits {offset len : ℕ} (h : offset + len + 32 ≤ usizeRange) :
    saturatingAdd offset len = offset + len := by
  unfold saturatingAdd
  omega

/-- The bytes of the words of a request that fits are representable. -/
theorem numWords_mul_lt {len : ℕ} (h : len + 32 ≤ usizeRange) :
    numWords len * 32 % usizeRange = 32 * numWords len := by
  unfold numWords usizeRange at *
  omega

/-- The price of the priced words is what is stored. -/
theorem Priced.linearCost {frame : Frame} {words : ℕ} (h : Priced frame words) :
    LinearCost frame := by
  rw [LinearCost, h.wordsNum, h.expansionCost]

/-- A served request raises the priced words to its own and charges the difference in price. -/
theorem Priced.serve {frame frame' : Frame} {words offset len : ℕ}
    (hpriced : Priced frame words) (hcap : Capped frame words)
    (h : monadResizeMemory offset len frame = .ok () frame') :
    Priced frame' (max words (numWords (offset + len))) ∧
      frame'.gas.remaining + max words (numWords (offset + len)) / 2 =
        frame.gas.remaining + words / 2 ∧
      frame'.gas.limit = frame.gas.limit ∧ frame'.memory.limit = frame.memory.limit := by
  rw [monadResizeMemory_eq hpriced.linearCost, hpriced.wordsNum] at h
  dsimp only at h
  split at h
  · cases h
  next hlimit =>
    have hlimit : frame.memory.limitReached offset len = false := by simpa using hlimit
    split at h
    next hfits =>
      have hend : offset + len + 32 ≤ usizeRange := by
        apply hcap.fits hlimit
        omega
      rw [saturatingAdd_of_fits hend] at hfits
      rw [max_eq_left hfits]
      cases h
      exact ⟨hpriced, rfl, rfl, rfl⟩
    next hgrow =>
      split at h
      · cases h
      next hpaid =>
        have hend : offset + len + 32 ≤ usizeRange := hcap.fits hlimit (by omega)
        rw [saturatingAdd_of_fits hend] at h hgrow hpaid
        have hmono : words / 2 ≤ numWords (offset + len) / 2 :=
          Nat.div_le_div_right (Nat.le_of_not_le hgrow)
        rw [max_eq_right (Nat.le_of_not_le hgrow)]
        rw [numWords_mul_lt hend] at h
        cases h
        refine ⟨⟨rfl, rfl, rfl⟩, ?_, rfl, rfl⟩
        dsimp only
        omega

/-- The cap stays as long as the memory is paid for at the linear price. -/
theorem Capped.of_paid {frame frame' : Frame} {words words' : ℕ} (hcap : Capped frame words)
    (hlimit : frame'.memory.limit = frame.memory.limit)
    (hpaid : frame'.gas.remaining + words' / 2 ≤ frame.gas.remaining + words / 2) :
    Capped frame' words' := by
  rcases hcap with ⟨limit, hsome, hle⟩ | hgas
  · exact .inl ⟨limit, hlimit.trans hsome, hle⟩
  · exact .inr (hpaid.trans_lt hgas)

/-- A served sequence raises the priced words to the peak and charges each growth on its way. -/
theorem resizeAll_ok {ranges : List Range} {frame frame' : Frame} {words : ℕ}
    (hpriced : Priced frame words) (hcap : Capped frame words)
    (h : resizeAll ranges frame = .ok () frame') :
    Priced frame' (peak words (ranges.map Range.words)) ∧
      frame'.gas.remaining + toll monadMemoryCost words (ranges.map Range.words) =
        frame.gas.remaining ∧ frame'.gas.limit = frame.gas.limit := by
  induction ranges generalizing frame words with
  | nil =>
    cases h
    exact ⟨hpriced, rfl, rfl⟩
  | cons range ranges ih =>
    obtain ⟨_, frame₁, hfirst, hrest⟩ := stateBind_eq_ok.mp h
    obtain ⟨hpriced₁, hpaid₁, hlimit₁, hcap₁⟩ := hpriced.serve hcap hfirst
    obtain ⟨hpriced', hpaid', hlimit'⟩ := ih hpriced₁ (hcap.of_paid hcap₁ hpaid₁.le) hrest
    refine ⟨hpriced', ?_, hlimit'.trans hlimit₁⟩
    have hmono : words / 2 ≤ max words range.words / 2 := Nat.div_le_div_right (le_max_left ..)
    have hfirst : frame₁.gas.remaining + max words range.words / 2 =
        frame.gas.remaining + words / 2 := hpaid₁
    have hrest : frame'.gas.remaining +
        toll monadMemoryCost (max words range.words) (ranges.map Range.words) =
          frame₁.gas.remaining := hpaid'
    rw [List.map_cons, toll, monadMemoryCost_eq, monadMemoryCost_eq]
    omega

/-- Served requests keep the stored cost linear. -/
theorem LinearCost.serveAll {ranges : List Range} {frame frame' : Frame} (hcost : LinearCost frame)
    (h : resizeAll ranges frame = .ok () frame') : LinearCost frame' := by
  induction ranges generalizing frame with
  | nil =>
    cases h
    exact hcost
  | cons range ranges ih =>
    obtain ⟨_, frame₁, hfirst, hrest⟩ := stateBind_eq_ok.mp h
    exact ih (hcost.serve hfirst).1 hrest

/-- A sequence that fails stops with a result, at a request that left the memory as the served
ones had made it. -/
theorem resizeAll_error {ranges : List Range} {frame frame' : Frame} {stop : Stop}
    (hcost : LinearCost frame) (h : resizeAll ranges frame = .error stop frame') :
    stop ≠ .undefinedBehavior ∧ ∃ served range rest frame₁, ranges = served ++ range :: rest ∧
      resizeAll served frame = .ok () frame₁ ∧
      monadResizeMemory range.offset range.len frame₁ = .error stop frame' ∧
      frame'.memory = frame₁.memory := by
  obtain ⟨served, range, rest, frame₁, rfl, hserved, hstop⟩ := forM_eq_error h
  obtain ⟨hresult, hmemory⟩ := (hcost.serveAll hserved).refuse hstop
  refine ⟨?_, served, range, rest, frame₁, rfl, hserved, hstop, hmemory⟩
  rintro rfl
  rcases hresult with h | h <;> cases h

/-- A new frame has no words. -/
theorem priced_new (gasLimit checkpoint : ℕ) (limit : Option ℕ) :
    Priced (.new gasLimit checkpoint limit) 0 :=
  ⟨rfl, rfl, rfl⟩

/-- From a new frame the gas spent on memory is half the words of the largest request. A build
without limits needs a gas limit that cannot pay for memory up to the end of the machine words. -/
theorem resizeAll_new {ranges : List Range} {gasLimit checkpoint : ℕ} {limit : Option ℕ}
    {frame : Frame} (hcap : Capped (.new gasLimit checkpoint limit) 0)
    (h : resizeAll ranges (.new gasLimit checkpoint limit) = .ok () frame) :
    frame.gas.spent = peakWords ranges / 2 ∧ frame.memory.len = 32 * peakWords ranges ∧
      frame.gas.memory.expansionCost = peakWords ranges / 2 := by
  obtain ⟨hpriced, hpaid, hgas⟩ := resizeAll_ok (priced_new gasLimit checkpoint limit) hcap h
  refine ⟨?_, hpriced.len, hpriced.expansionCost⟩
  have hstart : frame.gas.remaining + toll monadMemoryCost 0 (ranges.map Range.words) = gasLimit :=
    hpaid
  have htoll := toll_add_cost monadMemoryCost_mono 0 (ranges.map Range.words)
  have hstop : frame.gas.limit = gasLimit := hgas
  rw [monadMemoryCost_eq, monadMemoryCost_eq] at htoll
  rw [Gas.spent, hstop, peakWords]
  omega

end SuwappuRevm.Memory
