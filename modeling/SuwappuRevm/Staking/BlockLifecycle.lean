import SuwappuRevm.Staking.Calldata
import SuwappuRevm.Staking.EpochBoundary

/-!
# The calls of a block

The block processor rewards the author before the transactions of a block and makes the two calls of
an epoch boundary after them, all as system calls with calldata of its own making. The dispatch
reads that calldata as the calls it was made for, so a chain of blocks on raw calldata is one of
decoded calls.
-/

namespace SuwappuRevm.Staking

open Foundations

section Encoding

/-- Calldata of a call: its selector, then `len` bytes that are read as its arguments, whatever
comes after them. -/
def Codec.Encodes (codec : Codec) (m : Method) (args : m.Args) (len : ℕ) (data : Bytes) : Prop :=
  ∃ words, data = beBytes 4 m.selector ++ words ∧ words.length = len ∧
    ∀ rest, codec.decode m (words ++ rest) = .ok args

/-- A codec that reads the system calls it has encoded. -/
structure Codec.ReadsOwn (codec : Codec) : Prop where
  reward : ∀ blockAuthor : Address,
    codec.Encodes .syscallReward blockAuthor 32 (codec.encodeSyscallReward blockAuthor)
  snapshot : codec.Encodes .syscallSnapshot () 0 codec.encodeSyscallSnapshot
  epochChange : ∀ epoch : Fin (2 ^ 64),
    codec.Encodes .syscallOnEpochChange epoch 32 (codec.encodeSyscallOnEpochChange epoch)

section Calldata

variable (codec : Codec)

/-- `syscall_reward_calldata`: the call, with the reward appended. -/
def syscallRewardCalldata (blockAuthor : Address) (blockReward : ℕ) : Bytes :=
  codec.encodeSyscallReward blockAuthor ++ beBytes 32 blockReward

/-- `syscall_snapshot_calldata`. -/
def syscallSnapshotCalldata : Bytes := codec.encodeSyscallSnapshot

/-- `syscall_on_epoch_change_calldata`. -/
def syscallOnEpochChangeCalldata (newEpoch : Fin (2 ^ 64)) : Bytes :=
  codec.encodeSyscallOnEpochChange newEpoch

end Calldata

/-- What `system_call_one_with_caller` sends to the precompile. -/
def systemCallInputs (gasLimit : ℕ) (data : Bytes) : CallInputs where
  toMessage := systemCallMessage gasLimit
  bytecodeAddress := stakingAddress
  scheme := .call
  isStatic := false
  input := data

/-- Calldata behind a selector selects its method. -/
theorem methodOf_selector (m : Method) (rest : Bytes) :
    methodOf (beBytes 4 m.selector ++ rest) = some m := by
  have hlong : ¬(beBytes 4 m.selector ++ rest).length < 4 := by
    rw [List.length_append, beBytes_length]
    omega
  have hfits : m.selector < 256 ^ 4 := by cases m <;> decide
  rw [methodOf, if_neg hlong, List.take_left' (beBytes_length 4 _), beNat_beBytes_of_lt hfits]
  cases m <;> decide

/-- The arguments of calldata behind a selector. -/
theorem drop_selector (m : Method) (rest : Bytes) : (beBytes 4 m.selector ++ rest).drop 4 = rest :=
  List.drop_left' (beBytes_length 4 _)

variable {codec : Codec} {gasLimit : ℕ}

/-- A system call decodes to the call of its calldata. -/
theorem decoded_systemCallInputs (m : Method) (rest : Bytes) :
    (systemCallInputs gasLimit (beBytes 4 m.selector ++ rest)).decoded codec =
      (decodeCall codec (beBytes 4 m.selector ++ rest) m).map
        (Prod.mk (systemCallMessage gasLimit)) := by
  have hplain : (systemCallInputs gasLimit (beBytes 4 m.selector ++ rest)).Plain := ⟨rfl, rfl, rfl⟩
  have hm : methodOf (systemCallInputs gasLimit (beBytes 4 m.selector ++ rest)).input = some m :=
    methodOf_selector m rest
  rw [CallInputs.decoded, if_pos hplain, hm]
  rfl

/-- The reward calldata is read as the reward it was made for. -/
theorem decoded_reward (hcodec : codec.ReadsOwn) (blockAuthor : Address) {blockReward : ℕ}
    (hfits : blockReward < 2 ^ 256) :
    (systemCallInputs gasLimit (syscallRewardCalldata codec blockAuthor blockReward)).decoded
        codec =
      some (systemCallMessage gasLimit, .syscallReward blockAuthor (some blockReward)) := by
  obtain ⟨words, hdata, hlen, hreads⟩ := hcodec.reward blockAuthor
  have hprefix : (beBytes 4 Method.syscallReward.selector ++ words).length = 36 := by
    rw [List.length_append, beBytes_length, hlen]
  have hreward : extendedReward (beBytes 4 Method.syscallReward.selector ++
      (words ++ beBytes 32 blockReward)) = some blockReward := by
    have hlong : 68 ≤ (beBytes 4 Method.syscallReward.selector ++
        (words ++ beBytes 32 blockReward)).length := by
      rw [← List.append_assoc, List.length_append, hprefix, beBytes_length]
    rw [extendedReward, if_pos hlong, ← List.append_assoc, List.drop_left' hprefix,
      List.take_of_length_le (by rw [beBytes_length]),
      beNat_beBytes_of_lt (by rwa [show 256 ^ 32 = 2 ^ 256 by norm_num])]
  rw [syscallRewardCalldata, hdata, List.append_assoc, decoded_systemCallInputs, decodeCall,
    Codec.call, drop_selector, hreads, hreward]
  rfl

/-- The snapshot calldata is read as a snapshot. -/
theorem decoded_snapshot (hcodec : codec.ReadsOwn) :
    (systemCallInputs gasLimit (syscallSnapshotCalldata codec)).decoded codec =
      some (systemCallMessage gasLimit, .syscallSnapshot) := by
  obtain ⟨words, hdata, -, -⟩ := hcodec.snapshot
  rw [syscallSnapshotCalldata, hdata, decoded_systemCallInputs]
  rfl

/-- The epoch change calldata is read as a change to its epoch. -/
theorem decoded_epochChange (hcodec : codec.ReadsOwn) (newEpoch : Fin (2 ^ 64)) :
    (systemCallInputs gasLimit (syscallOnEpochChangeCalldata codec newEpoch)).decoded codec =
      some (systemCallMessage gasLimit, .syscallOnEpochChange newEpoch) := by
  obtain ⟨words, hdata, -, hreads⟩ := hcodec.epochChange newEpoch
  have hown := hreads []
  rw [List.append_nil] at hown
  rw [syscallOnEpochChangeCalldata, hdata, decoded_systemCallInputs, decodeCall, Codec.call,
    drop_selector, hown]
  rfl

end Encoding

section Blocks

/-- A block: its reward, the call frames its transactions open on the precompile, and the epoch
change after it, if there is one. -/
structure Block where
  author : Address
  reward : ℕ
  frames : List CallInputs
  newEpoch : Option (Fin (2 ^ 64))

/-- The frames of a block on raw calldata: the reward, the transactions, and the boundary. -/
def Block.rawFrames (codec : Codec) (gasLimit : ℕ) (block : Block) : List CallInputs :=
  systemCallInputs gasLimit (syscallRewardCalldata codec block.author block.reward) ::
    block.frames ++
    match block.newEpoch with
    | none => []
    | some newEpoch => [systemCallInputs gasLimit (syscallSnapshotCalldata codec),
        systemCallInputs gasLimit (syscallOnEpochChangeCalldata codec newEpoch)]

/-- `apply_syscall_reward` on the decoded call. -/
def applySyscallReward (gasLimit : ℕ) (s : Storage) (blockAuthor : Address) (blockReward : ℕ) :
    ExecutionResult × Storage :=
  systemCall gasLimit s (.syscallReward blockAuthor (some blockReward))

/-- A block on decoded calls. -/
def Block.apply (codec : Codec) (gasLimit : ℕ) (s : Storage) (block : Block) : Storage :=
  let s := (applySyscallReward gasLimit s block.author block.reward).2
  let s := (block.frames.filterMap (CallInputs.decoded codec)).foldl (perform stakingStep) s
  match block.newEpoch with
  | none => s
  | some newEpoch => (applyEpochBoundary gasLimit s newEpoch).2

variable {codec : Codec} {gasLimit : ℕ}

/-- The storage after a system call is the one after its call. -/
theorem systemCall_snd (s : Storage) (call : StakingCall) :
    (systemCall gasLimit s call).2 = perform stakingStep s (systemCallMessage gasLimit, call) := by
  rw [systemCall]
  rcases h : stakingStep s (systemCallMessage gasLimit, call) with e | s'
  · exact (perform_of_error h).symm
  · exact (perform_of_ok h).symm

/-- The storage after an epoch boundary is the one after its two calls. -/
theorem applyEpochBoundary_snd (s : Storage) (newEpoch : Fin (2 ^ 64)) :
    (applyEpochBoundary gasLimit s newEpoch).2 =
      perform stakingStep (perform stakingStep s (systemCallMessage gasLimit, .syscallSnapshot))
        (systemCallMessage gasLimit, .syscallOnEpochChange newEpoch) := by
  rw [← systemCall_snd, ← systemCall_snd]
  rfl

/-- A block on raw calldata is the block on decoded calls. -/
theorem block_frames (hcodec : codec.ReadsOwn) (s : Storage) {block : Block}
    (hreward : block.reward < 2 ^ 256) :
    (block.rawFrames codec gasLimit).foldl (perform (frameStep codec)) s =
      block.apply codec gasLimit s := by
  have hproject : (block.rawFrames codec gasLimit).foldl (perform (frameStep codec)) s =
      ((block.rawFrames codec gasLimit).filterMap (CallInputs.decoded codec)).foldl
        (perform stakingStep) s :=
    foldl_project id (CallInputs.decoded codec) perform_frameStep s (block.rawFrames codec gasLimit)
  rw [hproject, Block.rawFrames, List.filterMap_append, List.foldl_append,
    List.filterMap_cons_some (decoded_reward hcodec block.author hreward), List.foldl_cons,
    Block.apply, applySyscallReward, systemCall_snd]
  cases block.newEpoch with
  | none => rfl
  | some newEpoch =>
    dsimp only
    rw [List.filterMap_cons_some (decoded_snapshot hcodec),
      List.filterMap_cons_some (decoded_epochChange hcodec newEpoch), applyEpochBoundary_snd]
    rfl

/-- Chains of blocks on raw calldata are chains of decoded calls. With any codec that reads the
system calls it has encoded, for all blocks whose rewards are words: the frames that the block
processor and the transactions open on the precompile lead to the storage to which the reward, the
decoded calls and the epoch boundary of each block lead. -/
theorem blocks_run_calls (codec : Codec) (hcodec : codec.ReadsOwn) (gasLimit : ℕ) (init : Storage)
    (blocks : List Block) (hreward : ∀ block ∈ blocks, block.reward < 2 ^ 256) :
    (blocks.flatMap (Block.rawFrames codec gasLimit)).foldl (perform (frameStep codec)) init =
      blocks.foldl (Block.apply codec gasLimit) init := by
  induction blocks generalizing init with
  | nil => rfl
  | cons block blocks ih =>
    obtain ⟨hfirst, hrest⟩ := List.forall_mem_cons.mp hreward
    rw [List.flatMap_cons, List.foldl_append, block_frames hcodec init hfirst, List.foldl_cons]
    exact ih _ hrest

/-- The codec of the interface reads the system calls it has encoded. -/
theorem wordCodec_readsOwn : wordCodec.ReadsOwn := by
  have hword {n : ℕ} (hn : n < 2 ^ 256) (rest : Bytes) :
      abiWord (abiWords [n] ++ rest) 0 = .ok n := by
    have hlong : 32 * (0 + 1) ≤ (beBytes 32 n ++ rest).length := by
      rw [List.length_append, beBytes_length]
      omega
    rw [abiWords, List.flatMap_singleton, abiWord, if_pos hlong, Nat.mul_zero, List.drop_zero,
      List.take_left' (beBytes_length 32 _),
      beNat_beBytes_of_lt (by rwa [show 256 ^ 32 = 2 ^ 256 by norm_num])]
  have hlen (n : ℕ) : (abiWords [n]).length = 32 := by
    rw [abiWords, List.flatMap_singleton, beBytes_length]
  refine ⟨fun blockAuthor => ⟨_, rfl, hlen _, fun rest => ?_⟩,
    ⟨[], (List.append_nil _).symm, rfl, fun _ => rfl⟩,
    fun epoch => ⟨_, rfl, hlen _, fun rest => ?_⟩⟩
  · dsimp only [wordCodec]
    rw [hword (blockAuthor.isLt.trans (Nat.pow_lt_pow_right (by decide) (by decide))), ok_bind,
      Fin.ofNat_val_eq_self]
    rfl
  · dsimp only [wordCodec]
    rw [hword (epoch.isLt.trans (Nat.pow_lt_pow_right (by decide) (by decide))), ok_bind,
      Fin.ofNat_val_eq_self]
    rfl

/-- A transaction's frame on the precompile, a call of `delegate` with some value and arguments. -/
def delegateCall (value : ℕ) (args : Bytes) : CallInputs where
  toMessage := userMessage 9 value payer_ne_staking
  bytecodeAddress := stakingAddress
  scheme := .call
  isStatic := false
  input := beBytes 4 Method.delegate.selector ++ args

/-- A block that rewards its author, opens a malformed and a well-formed frame, and ends the
epoch. -/
def sampleBlock : Block :=
  ⟨7, 5, [delegateCall dustThreshold [1], delegateCall dustThreshold (abiWords [1])], some 2⟩

/-- In the opened state the block pays its reward, delegates once and ends the epoch. -/
theorem blocks_run_calls_sample : ∃ s, ([sampleBlock].flatMap
    (Block.rawFrames wordCodec 30000000)).foldl (perform (frameStep wordCodec)) openedState = s ∧
      s.epoch = 2 ∧ (s.delegators 1 9).nextDeltaStake = dustThreshold ∧
      (s.validators 1).stake = (openedState.validators 1).stake + dustThreshold := by
  refine ⟨_, blocks_run_calls wordCodec wordCodec_readsOwn 30000000 openedState
    [sampleBlock] (by decide), ?_⟩
  decide +kernel

end Blocks

end SuwappuRevm.Staking
