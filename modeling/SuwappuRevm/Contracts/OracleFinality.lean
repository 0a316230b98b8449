import Mathlib.Tactic.IntervalCases
import SuwappuRevm.Contracts.OracleQuorum

/-!
# Finality of stored headers

Two roots stored for one block under the same epoch have quorums that overlap in more than one
third of that epoch, so some of the overlap signed both. The digest does not bind the epoch and
the caller names it, so nothing relates the quorums of two epochs: finality holds in runs that
do not submit a second root for a block under another epoch than the first.
-/

namespace SuwappuRevm.Contracts

open Foundations

section Signers

variable (crypto : Crypto) (d : Deployment) (oracle : Address)

/-- The validator with this key hash has a signature over the header. -/
def SignsHeader (blockNumber : ℕ) (stateRoot pkHash : Word) : Prop :=
  ∃ pubkey sig, crypto.keccak256 pubkey = pkHash ∧
    accepts crypto (digestOf crypto d.networkId oracle blockNumber stateRoot) pubkey sig = true

/-- The validator has signatures over two different roots for the block. -/
def DoubleSigner (blockNumber : ℕ) (pkHash : Word) : Prop :=
  ∃ root root', root ≠ root' ∧ SignsHeader crypto d oracle blockNumber root pkHash ∧
    SignsHeader crypto d oracle blockNumber root' pkHash

open Classical in
/-- The stake at an epoch of the validators that signed two roots for the block. -/
noncomputable def doubleSignedStake (r : Registry) (epoch blockNumber : ℕ) : ℕ :=
  ∑ pkHash with DoubleSigner crypto d oracle blockNumber pkHash, r.stakeAt epoch pkHash

/-- In every finalized epoch and for every block the double signers hold at most one third of the
epoch's total. -/
def FewDoubleSigners (r : Registry) : Prop :=
  ∀ epoch blockNumber, r.Finalized epoch →
    3 * doubleSignedStake crypto d oracle r epoch blockNumber ≤ r.totalStakeByEpoch epoch

/-- Two quorums of one epoch for different roots make its double signers hold more than one
third of it. -/
theorem total_lt_doubleSignedStake {r : Registry} (hr : r.EpochsSound) {epoch blockNumber : ℕ}
    {root root' : Word} (hne : root ≠ root') {S T : Finset Word}
    (hS : ∀ pkHash ∈ S, SignsHeader crypto d oracle blockNumber root pkHash)
    (hT : ∀ pkHash ∈ T, SignsHeader crypto d oracle blockNumber root' pkHash)
    (hquorumS : 2 * r.totalStakeByEpoch epoch < 3 * ∑ pkHash ∈ S, r.stakeAt epoch pkHash)
    (hquorumT : 2 * r.totalStakeByEpoch epoch < 3 * ∑ pkHash ∈ T, r.stakeAt epoch pkHash) :
    r.totalStakeByEpoch epoch < 3 * doubleSignedStake crypto d oracle r epoch blockNumber := by
  classical
  have hoverlap := quorum_inter_weight (r.stakeAt epoch) (hr.covered epoch) hquorumS hquorumT
  have hsub : S ∩ T ⊆ Finset.univ.filter (DoubleSigner crypto d oracle blockNumber) := by
    intro pkHash hmem
    obtain ⟨hmemS, hmemT⟩ := Finset.mem_inter.mp hmem
    exact Finset.mem_filter.mpr ⟨Finset.mem_univ _, root, root', hne, hS _ hmemS, hT _ hmemT⟩
  have hle : ∑ pkHash ∈ S ∩ T, r.stakeAt epoch pkHash ≤
      doubleSignedStake crypto d oracle r epoch blockNumber := by
    unfold doubleSignedStake
    exact Finset.sum_le_sum_of_subset hsub
  omega

end Signers

section Runs

variable (crypto : Crypto) (d : Deployment) (o : Oracle) (calls : List BridgeCall)

/-- The two contracts after the first `n` transactions of a run from deployment. -/
def bridgeAt (n : ℕ) : Bridge := stateAt (bridgeStep crypto d) ⟨Registry.initial, o⟩ calls n

/-- Transaction `i` submits the root for the block under the epoch. -/
def SubmitsAt (i blockNumber : ℕ) (stateRoot : Word) (epoch : ℕ) : Prop :=
  ∃ gas pubkeys sigs, calls[i]? = some (.submit gas blockNumber stateRoot epoch pubkeys sigs)

/-- Transaction `i` submits the root for the block under the epoch and succeeds. -/
def StoresAt (i blockNumber : ℕ) (stateRoot : Word) (epoch : ℕ) : Prop :=
  ∃ gas pubkeys sigs, calls[i]? = some (.submit gas blockNumber stateRoot epoch pubkeys sigs) ∧
    (bridgeStep crypto d (bridgeAt crypto d o calls i)
      (.submit gas blockNumber stateRoot epoch pubkeys sigs)).isOk = true

/-- No transaction submits another root for a block under another epoch than the one under
which the block's root has been stored. -/
def OneEpochPerBlock : Prop :=
  ∀ i j blockNumber root root' epoch epoch', i < j →
    StoresAt crypto d o calls i blockNumber root epoch →
    SubmitsAt calls j blockNumber root' epoch' → root' ≠ root → epoch' = epoch

/-- No transaction stores another root for a block under another epoch than the one under which the
block's root has been stored: rejected submissions do not count. -/
def OneStoredEpochPerBlock : Prop :=
  ∀ i j blockNumber root root' epoch epoch', i < j →
    StoresAt crypto d o calls i blockNumber root epoch →
    StoresAt crypto d o calls j blockNumber root' epoch' → root' ≠ root → epoch' = epoch

variable {crypto d o calls}

/-- A registry transaction of the pair is one of the registry. -/
theorem bridgeStep_registry {s s' : Bridge} {tx : RegistryTx}
    (h : bridgeStep crypto d s (.registry tx) = .ok s') :
    ∃ r', registryStep crypto.keccak256 d s.registry tx = .ok r' ∧
      s' = { s with registry := r' } := by
  simp only [bridgeStep, bind_eq_ok, pure_eq_ok, mapError_eq_ok] at h
  obtain ⟨r', hstep, rfl⟩ := h
  exact ⟨r', hstep, rfl⟩

/-- Step lemma: the epoch data stay sound, finalized epochs keep their stakes and total, and the
oracle keeps its immutables. -/
theorem bridgeStep_frame {s s' : Bridge} {call : BridgeCall} (hs : s.registry.EpochsSound)
    (h : bridgeStep crypto d s call = .ok s') :
    s'.registry.EpochsSound ∧
      (∀ epoch, s.registry.Finalized epoch → s'.registry.Finalized epoch ∧
        s'.registry.stakeByEpoch epoch = s.registry.stakeByEpoch epoch ∧
        s'.registry.totalStakeByEpoch epoch = s.registry.totalStakeByEpoch epoch) ∧
      s'.oracle.address = s.oracle.address ∧ s'.oracle.chainId = s.oracle.chainId := by
  cases call with
  | registry tx =>
    obtain ⟨r', hstep, rfl⟩ := bridgeStep_registry h
    exact ⟨registryStep_epochsSound hs hstep, fun _ hfin => registryStep_finalized hfin hstep,
      rfl, rfl⟩
  | submit gas blockNumber stateRoot epoch pubkeys sigs =>
    obtain ⟨o', hsubmit, rfl⟩ := bridgeStep_submit h
    obtain ⟨_, -, -, -, rfl⟩ := submitHeader_spec hsubmit
    exact ⟨hs, fun _ hfin => ⟨hfin, rfl, rfl⟩, rfl, rfl⟩

/-- Run lemma: the epoch data are sound and the immutables unchanged at every position. -/
theorem bridgeAt_sound (n : ℕ) :
    (bridgeAt crypto d o calls n).registry.EpochsSound ∧
      (bridgeAt crypto d o calls n).oracle.address = o.address ∧
      (bridgeAt crypto d o calls n).oracle.chainId = o.chainId := by
  refine stateAt_induction (fun s : Bridge => s.registry.EpochsSound ∧
    s.oracle.address = o.address ∧ s.oracle.chainId = o.chainId) 0 ?_ ?_ n (Nat.zero_le n)
  · rw [stateAt_zero]
    exact ⟨initial_epochsSound, rfl, rfl⟩
  · rintro k hk s' - ⟨hsound, haddress, hchain⟩ h
    obtain ⟨hsound', -, haddress', hchain'⟩ := bridgeStep_frame hsound h
    exact ⟨hsound', haddress'.trans haddress, hchain'.trans hchain⟩

/-- Run lemma: an epoch finalized at some position keeps its stakes and total from there on. -/
theorem bridgeAt_finalized {m n : ℕ} (hmn : m ≤ n) {epoch : ℕ}
    (hfin : (bridgeAt crypto d o calls m).registry.Finalized epoch) :
    (bridgeAt crypto d o calls n).registry.Finalized epoch ∧
      (bridgeAt crypto d o calls n).registry.stakeByEpoch epoch =
        (bridgeAt crypto d o calls m).registry.stakeByEpoch epoch ∧
      (bridgeAt crypto d o calls n).registry.totalStakeByEpoch epoch =
        (bridgeAt crypto d o calls m).registry.totalStakeByEpoch epoch := by
  refine stateAt_induction (fun s : Bridge => s.registry.Finalized epoch ∧
    s.registry.stakeByEpoch epoch =
      (bridgeAt crypto d o calls m).registry.stakeByEpoch epoch ∧
    s.registry.totalStakeByEpoch epoch =
      (bridgeAt crypto d o calls m).registry.totalStakeByEpoch epoch) m ⟨hfin, rfl, rfl⟩ ?_ n hmn
  rintro k hk s' - ⟨hfin, hstake, htotal⟩ h
  obtain ⟨-, hkeep, -, -⟩ := bridgeStep_frame (bridgeAt_sound k).1 h
  obtain ⟨hfin', hstake', htotal'⟩ := hkeep epoch hfin
  exact ⟨hfin', hstake'.trans hstake, htotal'.trans htotal⟩

/-- A stored root stands on signers with more than two thirds of a finalized epoch, measured at
any later position. -/
theorem storesAt_quorum {i n blockNumber epoch : ℕ} {root : Word} (hin : i ≤ n)
    (h : StoresAt crypto d o calls i blockNumber root epoch) :
    (bridgeAt crypto d o calls n).registry.Finalized epoch ∧
      ∃ S : Finset Word, (∀ pkHash ∈ S, SignsHeader crypto d o.address blockNumber root pkHash) ∧
        2 * (bridgeAt crypto d o calls n).registry.totalStakeByEpoch epoch <
          3 * ∑ pkHash ∈ S, (bridgeAt crypto d o calls n).registry.stakeAt epoch pkHash := by
  obtain ⟨gas, pubkeys, sigs, -, hok⟩ := h
  obtain ⟨s', hstep⟩ := exists_of_isOk hok
  obtain ⟨o', hsubmit, -⟩ := bridgeStep_submit hstep
  obtain ⟨hashes, hhashes, hnodup, hquorum, -⟩ := submitHeader_spec hsubmit
  have hsound : (bridgeAt crypto d o calls i).registry.EpochsSound := (bridgeAt_sound i).1
  have haddress : (bridgeAt crypto d o calls i).oracle.address = o.address :=
    (bridgeAt_sound i).2.1
  have hfin := finalized_of_stake hsound ((Nat.le_add_left 1 _).trans hquorum)
  obtain ⟨hfin', hstake, htotal⟩ := bridgeAt_finalized hin hfin
  refine ⟨hfin', hashes.toFinset, ?_, ?_⟩
  · intro pkHash hmem
    rw [List.mem_toFinset, hhashes, haddress] at hmem
    obtain ⟨e, he, rfl⟩ := List.mem_map.mp hmem
    exact ⟨e.1, e.2, rfl, (List.mem_filter.mp he).2⟩
  · have hsum : ∑ pkHash ∈ hashes.toFinset,
        (bridgeAt crypto d o calls n).registry.stakeAt epoch pkHash =
          (hashes.map ((bridgeAt crypto d o calls i).registry.stakeAt epoch)).sum := by
      rw [← List.sum_toFinset _ hnodup]
      exact Finset.sum_congr rfl fun pkHash _ => congrFun hstake pkHash
    rw [hsum, htotal]
    exact two_thirds_lt_of_threshold_le hquorum

/-- Two roots stored for a block under one epoch agree when its double signers are few. -/
theorem stored_roots_agree {i j blockNumber epoch : ℕ} {root root' : Word}
    (hi : StoresAt crypto d o calls i blockNumber root epoch)
    (hj : StoresAt crypto d o calls j blockNumber root' epoch) {n : ℕ} (hin : i ≤ n) (hjn : j ≤ n)
    (hdouble : 3 * doubleSignedStake crypto d o.address (bridgeAt crypto d o calls n).registry
      epoch blockNumber ≤ (bridgeAt crypto d o calls n).registry.totalStakeByEpoch epoch) :
    root' = root := by
  by_contra hne
  obtain ⟨-, S, hS, hquorumS⟩ := storesAt_quorum hin hi
  obtain ⟨-, T, hT, hquorumT⟩ := storesAt_quorum hjn hj
  have hlt := total_lt_doubleSignedStake crypto d o.address (bridgeAt_sound n).1 (Ne.symm hne)
    hS hT hquorumS hquorumT
  omega

/-- A position of a run at which something happens is one of its transactions. -/
theorem StoresAt.lt_length {i blockNumber epoch : ℕ} {root : Word}
    (h : StoresAt crypto d o calls i blockNumber root epoch) : i < calls.length := by
  obtain ⟨_, _, _, hcall, -⟩ := h
  exact (List.getElem?_eq_some_iff.mp hcall).1

/-- Right after it is stored a root is in the oracle. -/
theorem StoresAt.root_succ {i blockNumber epoch : ℕ} {root : Word}
    (h : StoresAt crypto d o calls i blockNumber root epoch) :
    (bridgeAt crypto d o calls (i + 1)).oracle.headerStateRoot o.chainId blockNumber = root := by
  have hlt := h.lt_length
  obtain ⟨gas, pubkeys, sigs, hcall, hok⟩ := h
  obtain ⟨s', hstep⟩ := exists_of_isOk hok
  have hchain : (bridgeAt crypto d o calls i).oracle.chainId = o.chainId := (bridgeAt_sound i).2.2
  have hget : calls[i] = .submit gas blockNumber root epoch pubkeys sigs :=
    (List.getElem?_eq_some_iff.mp hcall).2
  have hnext : bridgeAt crypto d o calls (i + 1) = s' := by
    rw [bridgeAt, stateAt_succ _ _ _ _ hlt, hget]
    exact perform_of_ok hstep
  obtain ⟨o', hsubmit, rfl⟩ := bridgeStep_submit hstep
  obtain ⟨_, -, -, -, rfl⟩ := submitHeader_spec hsubmit
  rw [hnext, Oracle.store_headerStateRoot, if_pos ⟨hchain.symm, rfl⟩]

/-- A transaction leaves a block's root alone unless it stores one for that block. -/
theorem bridgeAt_succ_root (n blockNumber : ℕ) :
    (bridgeAt crypto d o calls (n + 1)).oracle.headerStateRoot o.chainId blockNumber =
        (bridgeAt crypto d o calls n).oracle.headerStateRoot o.chainId blockNumber ∨
      ∃ root epoch, StoresAt crypto d o calls n blockNumber root epoch := by
  by_cases hn : n < calls.length
  · have hsucc := stateAt_succ (bridgeStep crypto d) ⟨Registry.initial, o⟩ calls n hn
    rcases perform_cases (bridgeStep crypto d) (bridgeAt crypto d o calls n) calls[n] with
      hok | hstay
    · cases hcall : calls[n] with
      | registry tx =>
        rw [hcall] at hok
        obtain ⟨r', -, hs'⟩ := bridgeStep_registry hok
        left
        rw [bridgeAt, hsucc, hcall]
        exact (congrArg (fun s : Bridge => s.oracle.headerStateRoot o.chainId blockNumber)
          hs').trans rfl
      | submit gas block root epoch pubkeys sigs =>
        rw [hcall] at hok
        by_cases hblock : block = blockNumber
        · subst hblock
          exact Or.inr ⟨root, epoch, gas, pubkeys, sigs, hcall ▸ List.getElem?_eq_getElem hn,
            by rw [hok]; rfl⟩
        · left
          obtain ⟨o', hsubmit, hs'⟩ := bridgeStep_submit hok
          obtain ⟨_, -, -, -, rfl⟩ := submitHeader_spec hsubmit
          rw [bridgeAt, hsucc, hcall]
          refine (congrArg (fun s : Bridge => s.oracle.headerStateRoot o.chainId blockNumber)
            hs').trans ?_
          rw [Oracle.store_headerStateRoot, if_neg fun h => hblock h.2.symm]
    · left
      rw [bridgeAt, hsucc]
      exact congrArg (fun s : Bridge => s.oracle.headerStateRoot o.chainId blockNumber) hstay
  · left
    rw [bridgeAt, bridgeAt, stateAt_of_length_le _ _ _ (n + 1) (by omega),
      stateAt_of_length_le _ _ _ n (by omega)]

/-- A stored submission is a submission. -/
theorem OneEpochPerBlock.stored (h : OneEpochPerBlock crypto d o calls) :
    OneStoredEpochPerBlock crypto d o calls := by
  intro i j blockNumber root root' epoch epoch' hij hstored hagain hne
  obtain ⟨gas, pubkeys, sigs, hcall, -⟩ := hagain
  exact h i j blockNumber root root' epoch epoch' hij hstored ⟨gas, pubkeys, sigs, hcall⟩ hne

/-- With few double signers, a stored root is in the oracle ever after unless another one is stored
for its block under another epoch. -/
theorem stored_root_stays
    (hdouble : FewDoubleSigners crypto d o.address
      (bridgeAt crypto d o calls calls.length).registry)
    (hepoch : OneStoredEpochPerBlock crypto d o calls) {i n blockNumber epoch : ℕ} {root : Word}
    (hin : i < n) (hstored : StoresAt crypto d o calls i blockNumber root epoch) :
    (bridgeAt crypto d o calls n).oracle.headerStateRoot o.chainId blockNumber = root := by
  induction hin with
  | refl => exact hstored.root_succ
  | @step n hin ih =>
    rcases bridgeAt_succ_root n blockNumber with hsame | ⟨root', epoch', hagain⟩
    · exact hsame.trans ih
    · rw [hagain.root_succ]
      by_contra hne
      obtain rfl := hepoch i n blockNumber root root' epoch epoch' hin hstored hagain hne
      have hi := Nat.le_of_lt hstored.lt_length
      have hn := Nat.le_of_lt hagain.lt_length
      exact hne (stored_roots_agree hstored hagain hi hn
        (hdouble epoch' blockNumber (storesAt_quorum hi hstored).1))

/-- Finality. In every run of registry and oracle transactions whose double signers hold at most
one third of each finalized epoch, and which never submits another root for a block under another
epoch than the one its root is stored under, a stored root is in the oracle ever after. -/
theorem stored_header_final
    (hdouble : FewDoubleSigners crypto d o.address
      (bridgeAt crypto d o calls calls.length).registry)
    (hepoch : OneEpochPerBlock crypto d o calls) {i n blockNumber epoch : ℕ} {root : Word}
    (hin : i < n) (hstored : StoresAt crypto d o calls i blockNumber root epoch) :
    (bridgeAt crypto d o calls n).oracle.headerStateRoot o.chainId blockNumber = root :=
  stored_root_stays hdouble hepoch.stored hin hstored

end Runs

/-- Stand-ins that run: the key `[1]` has signed root 9 and the key `[2]` has signed root 8. -/
def finalityCrypto : Crypto where
  keccak256 bytes := Word.ofBytes (1 :: bytes)
  blake3Hash bytes := Word.ofBytes (bytes.drop 116)
  mldsaVerify input := if input = 1 :: Word.toBytes 9 ∨ input = 2 :: Word.toBytes 8 then 1 else 0

/-- The stand-in digest of a header is its root. -/
theorem finalityCrypto_digestOf (networkId : ℕ) (oracle : Address) (blockNumber : ℕ)
    (root : Word) : digestOf finalityCrypto networkId oracle blockNumber root = root := by
  have hdrop : (headerPreimage finalityCrypto networkId oracle blockNumber root).drop 116 =
      root.toBytes := List.drop_left' (by simp)
  change Word.ofBytes ((headerPreimage finalityCrypto networkId oracle blockNumber root).drop
    116) = root
  rw [hdrop, Word.ofBytes_toBytes]

/-- All signatures there are: key hash 257 over root 9, 258 over root 8, and the empty key's
hash 1 over both. -/
theorem finalityCrypto_signs {d : Deployment} {oracle : Address} {blockNumber : ℕ}
    {root pkHash : Word} (h : SignsHeader finalityCrypto d oracle blockNumber root pkHash) :
    root = 9 ∧ (pkHash = 1 ∨ pkHash = 257) ∨ root = 8 ∧ (pkHash = 1 ∨ pkHash = 258) := by
  obtain ⟨pubkey, sig, rfl, haccepts⟩ := h
  have hzero : (0 : Word).toBytes[31]? ≠ some 1 := by decide +kernel
  rw [finalityCrypto_digestOf, accepts, beq_iff_eq] at haccepts
  have hinput : pubkey ++ sig ++ root.toBytes = [1] ++ Word.toBytes 9 ∨
      pubkey ++ sig ++ root.toBytes = [2] ++ Word.toBytes 8 := by
    by_contra hnot
    have hanswer : finalityCrypto.mldsaVerify (pubkey ++ sig ++ root.toBytes) = 0 := if_neg hnot
    rw [hanswer] at haccepts
    exact hzero haccepts
  have hkey {byte : UInt8} (hbyte : pubkey ++ sig = [byte]) : pubkey = [] ∨ pubkey = [byte] := by
    rcases List.append_eq_singleton_iff.mp hbyte with ⟨hnil, -⟩ | ⟨hone, -⟩
    · exact Or.inl hnil
    · exact Or.inr hone
  rcases hinput with h9 | h8
  · obtain ⟨hfront, hroot⟩ := List.append_inj' h9 (by simp)
    refine Or.inl ⟨Word.toBytes_injective hroot, ?_⟩
    rcases hkey hfront with rfl | rfl
    · exact Or.inl (by decide +kernel)
    · exact Or.inr (by decide +kernel)
  · obtain ⟨hfront, hroot⟩ := List.append_inj' h8 (by simp)
    refine Or.inr ⟨Word.toBytes_injective hroot, ?_⟩
    rcases hkey hfront with rfl | rfl
    · exact Or.inl (by decide +kernel)
    · exact Or.inr (by decide +kernel)

/-- Where the empty key has no stake nobody with stake signs two roots. -/
theorem finalityCrypto_doubleSignedStake {d : Deployment} {oracle : Address} {r : Registry}
    {epoch : ℕ} (hempty : r.stakeAt epoch 1 = 0) (blockNumber : ℕ) :
    doubleSignedStake finalityCrypto d oracle r epoch blockNumber = 0 := by
  classical
  refine Finset.sum_eq_zero fun pkHash hmem => ?_
  obtain ⟨-, root, root', hne, hroot, hroot'⟩ := Finset.mem_filter.mp hmem
  have hone : pkHash = 1 := by
    have hkeys : (257 : Word) ≠ 258 := by decide +kernel
    rcases finalityCrypto_signs hroot with ⟨rfl, h | h⟩ | ⟨rfl, h | h⟩ <;>
      rcases finalityCrypto_signs hroot' with ⟨rfl, h' | h'⟩ | ⟨rfl, h' | h'⟩ <;>
      first | exact h | exact h' | exact absurd rfl hne | exact absurd (h.symm.trans h') hkeys |
        exact absurd (h'.symm.trans h) hkeys
  rw [hone, hempty]

/-- Epoch 0 belongs to the first key, whose signature stores root 9 for block 4; then epoch 1
belongs to the second key. -/
def twoEpochs : List BridgeCall :=
  [.registry ⟨5, 1, .propose 0 [257] [1]⟩,
   .registry ⟨6, 1, .execute (finalityCrypto.keccak256 (abiEncodeProposal 0 [257] [1]))⟩,
   .submit ⟨1000, fun _ => 20000⟩ 4 9 0 [[1]] [[]],
   .registry ⟨7, 1, .propose 1 [258] [2]⟩,
   .registry ⟨8, 1, .execute (finalityCrypto.keccak256 (abiEncodeProposal 1 [258] [2]))⟩]

/-- The same, after which the second key submits root 8 for block 4 under epoch 1. -/
def twoEpochsOneBlock : List BridgeCall :=
  twoEpochs ++ [.submit ⟨1000, fun _ => 20000⟩ 4 8 1 [[2]] [[]]]

/-- Both runs end with two finalized epochs in which the empty key has no stake. -/
theorem twoEpochs_fewDoubleSigners {r : Registry} (hcurrent : r.currentEpoch = 1)
    (hempty : r.stakeAt 0 1 = 0 ∧ r.stakeAt 1 1 = 0) :
    FewDoubleSigners finalityCrypto sampleDeployment sampleOracle.address r := by
  intro epoch blockNumber hfin
  have hle : epoch ≤ 1 := hcurrent ▸ hfin.2
  have hzero : r.stakeAt epoch 1 = 0 := by
    interval_cases epoch
    · exact hempty.1
    · exact hempty.2
  rw [finalityCrypto_doubleSignedStake hzero]
  exact Nat.zero_le _

/-- Nobody with stake signs two roots, root 9 is stored for block 4 under epoch 0, and the last
transaction replaces it by root 8. -/
theorem stored_header_replaced :
    FewDoubleSigners finalityCrypto sampleDeployment sampleOracle.address
        (bridgeAt finalityCrypto sampleDeployment sampleOracle twoEpochsOneBlock
          twoEpochsOneBlock.length).registry ∧
      StoresAt finalityCrypto sampleDeployment sampleOracle twoEpochsOneBlock 2 4 9 0 ∧
      (bridgeAt finalityCrypto sampleDeployment sampleOracle twoEpochsOneBlock
        3).oracle.headerStateRoot 1 4 = 9 ∧
      (bridgeAt finalityCrypto sampleDeployment sampleOracle twoEpochsOneBlock
        6).oracle.headerStateRoot 1 4 = 8 :=
  ⟨twoEpochs_fewDoubleSigners (by decide +kernel) (by decide +kernel),
    ⟨_, _, _, rfl, by decide +kernel⟩, by decide +kernel, by decide +kernel⟩

/-- The run up to there submits one header. -/
theorem twoEpochs_oneEpochPerBlock :
    OneEpochPerBlock finalityCrypto sampleDeployment sampleOracle twoEpochs := by
  rintro i j blockNumber root root' epoch epoch' hij ⟨gas, pubkeys, sigs, hi, -⟩
    ⟨gas', pubkeys', sigs', hj⟩ -
  have hlt : j < 5 := (List.getElem?_eq_some_iff.mp hj).1
  interval_cases j <;> interval_cases i <;> simp [twoEpochs] at hi hj

/-- Finality applied to the run that stops before the second submission. -/
theorem stored_header_final_sample :
    (bridgeAt finalityCrypto sampleDeployment sampleOracle twoEpochs
      5).oracle.headerStateRoot sampleOracle.chainId 4 = 9 := by
  have hstored : StoresAt finalityCrypto sampleDeployment sampleOracle twoEpochs 2 4 9 0 :=
    ⟨_, _, _, rfl, by decide +kernel⟩
  have hdouble : FewDoubleSigners finalityCrypto sampleDeployment sampleOracle.address
      (bridgeAt finalityCrypto sampleDeployment sampleOracle twoEpochs
        twoEpochs.length).registry :=
    twoEpochs_fewDoubleSigners (by decide +kernel) (by decide +kernel)
  have hlater : 2 < 5 := by decide
  exact stored_header_final hdouble twoEpochs_oneEpochPerBlock hlater hstored

end SuwappuRevm.Contracts
