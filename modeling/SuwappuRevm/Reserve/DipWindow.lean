import SuwappuRevm.Reserve.Violations

/-!
# Dips over the blocks of a chain

Before a transaction runs, the handler gives the tracker the sender's account and the chain context:
who has sent transactions or signed authorizations in the two blocks before, and so far in this one.
Over a chain whose contexts say that of its blocks, the context lets a sender go below its reserve
only where it has been silent, so that the blocks of two such transactions are three apart.
-/

namespace SuwappuRevm.Reserve

open Foundations ReserveBalanceTracker
open Staking (stakingAddress)

section Window

/-- What the handler reads of a transaction, and the authorities of its authorization list. -/
structure ChainTx where
  sender : Address
  authorities : List Address
  effectiveGasPrice : ℕ
  gasLimit : ℕ

/-- The transaction has the account as its sender or among its authorities. -/
def ChainTx.Names (tx : ChainTx) (a : Address) : Prop := a = tx.sender ∨ a ∈ tx.authorities

/-- The context of transaction `index` of block `height`, as its fields are documented. The lists of
the current block may go on beyond the transaction. -/
structure MonadChainContext.PlacedAt (chain : MonadChainContext) (blocks : ℕ → List ChainTx)
    (height index : ℕ) : Prop where
  parent : ∀ a, a ∈ chain.parentSendersAndAuthorities ↔
    ∃ m, m + 1 = height ∧ ∃ tx ∈ blocks m, tx.Names a
  grandparent : ∀ a, a ∈ chain.grandparentSendersAndAuthorities ↔
    ∃ m, m + 2 = height ∧ ∃ tx ∈ blocks m, tx.Names a
  senders : chain.currentBlockSenders.take index =
    ((blocks height).take index).map ChainTx.sender
  authorities : chain.currentBlockAuthorities.take (index + 1) =
    ((blocks height).take (index + 1)).map ChainTx.authorities
  index : chain.currentTxIndex = index

/-- The account is named in one of the two blocks before, by an earlier transaction of the block, or
among the authorities of the transaction itself. -/
def Busy (blocks : ℕ → List ChainTx) (height index : ℕ) (a : Address) : Prop :=
  ∃ m k tx, (blocks m)[k]? = some tx ∧ height ≤ m + 2 ∧
    ((m < height ∨ m = height ∧ k < index) ∧ tx.Names a ∨
      m = height ∧ k = index ∧ a ∈ tx.authorities)

variable {blocks : ℕ → List ChainTx} {chain : MonadChainContext} {height index : ℕ} {a : Address}

/-- The first elements of a list are those at the first positions. -/
theorem mem_take_iff {α : Type} {l : List α} {n : ℕ} {x : α} :
    x ∈ l.take n ↔ ∃ k, k < n ∧ l[k]? = some x := by
  simp only [List.mem_iff_getElem?, List.getElem?_take, Option.ite_none_right_eq_some]

/-- An earlier transaction of the block names the account, or the transaction itself has it as an
authority, when one of the two lists of the current block has it. -/
theorem MonadChainContext.PlacedAt.current_iff (h : chain.PlacedAt blocks height index) :
    a ∈ chain.currentBlockSenders.take index ∨
        (∃ authorities ∈ chain.currentBlockAuthorities.take (index + 1), a ∈ authorities) ↔
      ∃ k tx, (blocks height)[k]? = some tx ∧
        (k < index ∧ tx.Names a ∨ k = index ∧ a ∈ tx.authorities) := by
  rw [h.senders, h.authorities]
  simp only [List.mem_map, exists_exists_and_eq_and, mem_take_iff]
  constructor
  · rintro (⟨tx, ⟨k, hk, htx⟩, rfl⟩ | ⟨tx, ⟨k, hk, htx⟩, ha⟩)
    · exact ⟨k, tx, htx, .inl ⟨hk, .inl rfl⟩⟩
    · rcases Nat.lt_succ_iff_lt_or_eq.mp hk with hlt | heq
      · exact ⟨k, tx, htx, .inl ⟨hlt, .inr ha⟩⟩
      · exact ⟨k, tx, htx, .inr ⟨heq, ha⟩⟩
  · rintro ⟨k, tx, htx, ⟨hk, rfl | ha⟩ | ⟨rfl, ha⟩⟩
    · exact .inl ⟨tx, ⟨k, hk, htx⟩, rfl⟩
    · exact .inr ⟨tx, ⟨k, hk.trans (Nat.lt_succ_self index), htx⟩, ha⟩
    · exact .inr ⟨tx, ⟨k, Nat.lt_succ_self k, htx⟩, ha⟩

/-- The context lets a sender dip exactly when it is not delegated and has been silent. -/
theorem MonadChainContext.PlacedAt.senderCanDip_iff (h : chain.PlacedAt blocks height index)
    (senderIsDelegated : Bool) : chain.senderCanDip a senderIsDelegated = true ↔
      senderIsDelegated = false ∧ ¬Busy blocks height index a := by
  have hcurrent := h.current_iff (a := a)
  have hbusy : Busy blocks height index a ↔
      (a ∈ chain.grandparentSendersAndAuthorities ∨ a ∈ chain.parentSendersAndAuthorities) ∨
        a ∈ chain.currentBlockSenders.take index ∨
        ∃ authorities ∈ chain.currentBlockAuthorities.take (index + 1), a ∈ authorities := by
    rw [hcurrent, h.parent, h.grandparent]
    constructor
    · rintro ⟨m, k, tx, htx, hrecent, ⟨hlt | ⟨rfl, hk⟩, hnames⟩ | ⟨rfl, hk, ha⟩⟩
      · obtain hm | hm : m + 2 = height ∨ m + 1 = height := by omega
        · exact .inl (.inl ⟨m, hm, tx, List.mem_of_getElem? htx, hnames⟩)
        · exact .inl (.inr ⟨m, hm, tx, List.mem_of_getElem? htx, hnames⟩)
      · exact .inr ⟨k, tx, htx, .inl ⟨hk, hnames⟩⟩
      · exact .inr ⟨k, tx, htx, .inr ⟨hk, ha⟩⟩
    · rintro ((⟨m, hm, tx, htx, hnames⟩ | ⟨m, hm, tx, htx, hnames⟩) | ⟨k, tx, htx, hcase⟩)
      · obtain ⟨k, hk⟩ := List.mem_iff_getElem?.mp htx
        exact ⟨m, k, tx, hk, hm.ge, .inl ⟨.inl (by omega), hnames⟩⟩
      · obtain ⟨k, hk⟩ := List.mem_iff_getElem?.mp htx
        exact ⟨m, k, tx, hk, by omega, .inl ⟨.inl (by omega), hnames⟩⟩
      · rcases hcase with ⟨hk, hnames⟩ | ⟨hk, ha⟩
        · exact ⟨height, k, tx, htx, by omega, .inl ⟨.inr ⟨rfl, hk⟩, hnames⟩⟩
        · exact ⟨height, k, tx, htx, by omega, .inr ⟨rfl, hk, ha⟩⟩
  rw [hbusy, senderCanDip, h.index]
  simp only [Bool.and_eq_true, Bool.not_eq_true', Bool.or_eq_false_iff, List.any_eq_false,
    List.contains_eq_mem, decide_eq_false_iff_not, decide_eq_true_eq, not_or, not_exists, not_and,
    and_assoc]

end Window

section Executions

variable (codeOf : Word → Bytecode) (blocks : ℕ → List ChainTx)

/-- What `pre_execution` gives the tracker. -/
def preExecutionInit (chain : MonadChainContext) (spec : MonadSpecId) (tx : ChainTx)
    (senderAccount : Account) : ReserveBalanceInit where
  chain := chain
  spec := spec
  sender := tx.sender
  effectiveGasPrice := tx.effectiveGasPrice
  gasLimit := tx.gasLimit
  senderIsDelegated := senderAccount.info.code.any Bytecode.isEip7702
  senderAccount := some senderAccount

/-- A transaction of the chain that has been run, from the accounts `pre_execution` leaves. -/
structure Execution where
  height : ℕ
  index : ℕ
  tx : ChainTx
  chain : MonadChainContext
  spec : MonadSpecId
  senderAccount : Account
  before : JournalInner
  after : MonadJournal
  tx_eq : (blocks height)[index]? = some tx
  placed : chain.PlacedAt blocks height index
  started : Started (preExecutionInit chain spec tx senderAccount) codeOf before.state
  run : Relation.ReflTransGen (LoadedStep codeOf)
    ⟨before, init (preExecutionInit chain spec tx senderAccount)⟩ after

variable {codeOf blocks}

namespace Execution

/-- The data of the tracker. -/
def init (x : Execution codeOf blocks) : ReserveBalanceInit :=
  preExecutionInit x.chain x.spec x.tx x.senderAccount

/-- The sender has ended below its reserve less the fees. -/
def Dips (x : Execution codeOf blocks) : Prop :=
  ∃ acc, x.after.inner.state x.tx.sender = some acc ∧ x.tx.sender ≠ stakingAddress ∧
    Plain codeOf acc ∧ ¬Exempt x.init acc ∧
    (reserve x.init acc < gasFees x.init ∨
      acc.info.balance < reserve x.init acc - gasFees x.init)

/-- The sender counts as one that violates exactly when it dips and the context does not let it. -/
theorem sender_failed_iff (hcodes : HashesCode codeOf) (x : Execution codeOf blocks) :
    x.tx.sender ∈ x.after.reserveBalance.failed ↔ x.Dips ∧
      (x.senderAccount.info.code.any Bytecode.isEip7702 = true ∨
        Busy blocks x.height x.index x.tx.sender) := by
  have hcoherent : x.after.Coherent x.init codeOf :=
    MonadJournal.coherent_of_run hcodes x.started x.run
  have hentry := hcoherent.entries x.tx.sender
  have hdip : MayDip x.init ↔ x.senderAccount.info.code.any Bytecode.isEip7702 = false ∧
      ¬Busy blocks x.height x.index x.tx.sender := x.placed.senderCanDip_iff _
  obtain ⟨acc, hacc⟩ := Option.ne_none_iff_exists'.mp hcoherent.sender
  change x.after.inner.state x.tx.sender = some acc at hacc
  rw [hacc] at hentry
  rw [hentry.failed, Violates, ViolatesUnless, if_pos (show x.tx.sender = x.init.sender from rfl)]
  constructor
  · rintro ⟨hstaking, hplain, hexempt, hkept, hbelow⟩
    refine ⟨⟨acc, hacc, hstaking, hplain, hexempt, hbelow⟩, ?_⟩
    by_contra hsilent
    obtain ⟨hcode, hsilent⟩ := not_or.mp hsilent
    exact hkept (hdip.mpr ⟨Bool.eq_false_of_not_eq_true hcode, hsilent⟩)
  · rintro ⟨⟨acc', hacc', hstaking, hplain, hexempt, hbelow⟩, hkept⟩
    obtain rfl : acc = acc' := Option.some.inj (hacc.symm.trans hacc')
    refine ⟨hstaking, hplain, hexempt, fun hmay => ?_, hbelow⟩
    obtain ⟨hcode, hsilent⟩ := hdip.mp hmay
    rcases hkept with hdelegated | hbusy
    · rw [hcode] at hdelegated
      cases hdelegated
    · exact hsilent hbusy

/-- A transaction that names the sender of a later one in the window keeps it busy there. -/
theorem busy_of_earlier {x y : Execution codeOf blocks} (hsame : x.tx.sender = y.tx.sender)
    (hearlier : x.height < y.height ∨ x.height = y.height ∧ x.index < y.index)
    (hrecent : y.height ≤ x.height + 2) : Busy blocks y.height y.index y.tx.sender :=
  ⟨x.height, x.index, x.tx, x.tx_eq, hrecent, .inl ⟨hearlier, .inl hsame.symm⟩⟩

/-- A dip that the tracker does not report is of a sender that is not delegated and silent. -/
theorem silent_of_unreported (hcodes : HashesCode codeOf) {x : Execution codeOf blocks}
    (hdips : x.Dips) (hunreported : x.after.reserveBalance.hasViolation = false) :
    ¬Busy blocks x.height x.index x.tx.sender := by
  intro hbusy
  have hfailed := (x.sender_failed_iff hcodes).mpr ⟨hdips, .inr hbusy⟩
  rw [hasViolation, decide_eq_false_iff_not, not_not] at hunreported
  rw [hunreported] at hfailed
  exact Finset.notMem_empty _ hfailed

end Execution

/-- Dips over a chain. In every chain of blocks and for every run of its transactions, the sender of
a transaction counts as one that violates exactly when it has ended below its reserve less the fees
and either is delegated or was named in the two blocks before, earlier in the block or among the
transaction's own authorities; so two dips of one sender that no tracker reports lie in blocks at
least three apart. -/
theorem unreported_dips_apart (hcodes : HashesCode codeOf) :
    (∀ x : Execution codeOf blocks, x.tx.sender ∈ x.after.reserveBalance.failed ↔ x.Dips ∧
      (x.senderAccount.info.code.any Bytecode.isEip7702 = true ∨
        Busy blocks x.height x.index x.tx.sender)) ∧
    ∀ x y : Execution codeOf blocks, x.tx.sender = y.tx.sender → x.Dips → y.Dips →
      x.after.reserveBalance.hasViolation = false → y.after.reserveBalance.hasViolation = false →
      (x.height, x.index) = (y.height, y.index) ∨ x.height + 3 ≤ y.height ∨
        y.height + 3 ≤ x.height := by
  refine ⟨fun x => x.sender_failed_iff hcodes, fun x y hsame hx hy hquietx hquiety => ?_⟩
  have hsilentx := Execution.silent_of_unreported hcodes hx hquietx
  have hsilenty := Execution.silent_of_unreported hcodes hy hquiety
  by_contra hclose
  rw [Prod.mk.injEq] at hclose
  rcases lt_trichotomy x.height y.height with hlt | heq | hgt
  · exact hsilenty (Execution.busy_of_earlier hsame (.inl hlt) (by omega))
  · rcases lt_trichotomy x.index y.index with hlt | hindex | hgt
    · exact hsilenty (Execution.busy_of_earlier hsame (.inr ⟨heq, hlt⟩) (by omega))
    · exact hclose (.inl ⟨heq, hindex⟩)
    · exact hsilentx (Execution.busy_of_earlier hsame.symm (.inr ⟨heq.symm, hgt⟩) (by omega))
  · exact hsilentx (Execution.busy_of_earlier hsame.symm (.inl hgt) (by omega))

/-- A transaction without fees, in which the sender gives most of its balance away. -/
def giftTx : ChainTx := ⟨1, [], 0, 21000⟩

/-- It is sent in blocks zero and three. -/
def giftBlocks : ℕ → List ChainTx
  | 0 | 3 => [giftTx]
  | _ => []

/-- The context of a first transaction after two empty blocks. -/
def silentContext : MonadChainContext := { MonadChainContext.default with
  currentBlockAuthorities := [[]] }

/-- That context is right where no earlier transaction of the window is. -/
theorem placedAt_silent {blocks : ℕ → List ChainTx} {height : ℕ} (htx : blocks height = [giftTx])
    (hempty : ∀ m, m < height → height ≤ m + 2 → blocks m = []) :
    silentContext.PlacedAt blocks height 0 := by
  refine ⟨fun a => ?_, fun a => ?_, ?_, ?_, rfl⟩
  · refine iff_of_false List.not_mem_nil ?_
    rintro ⟨m, rfl, tx, hmem, -⟩
    rw [hempty m (by omega) (by omega)] at hmem
    cases hmem
  · refine iff_of_false List.not_mem_nil ?_
    rintro ⟨m, rfl, tx, hmem, -⟩
    rw [hempty m (by omega) (by omega)] at hmem
    cases hmem
  · rw [htx]
    rfl
  · rw [htx]
    rfl

/-- The sender, who has sent nothing before, and the recipient of the gift. -/
def giftState : EvmState := Function.update senderState 3 (some plainRecipient)

/-- What the tracker is told of it. -/
def giftInit : ReserveBalanceInit := preExecutionInit silentContext .monadNine giftTx plainSender

/-- The journal after the gift. -/
def giftJournal : MonadJournal :=
  let s : JournalInner := ⟨moveBalance giftState 1 3 60, [.accountWarmed 3, .balanceTransfer 1 3]⟩
  ⟨s, onTransfer (init giftInit) s.state 1 3⟩

/-- The gift is a step of the journal, and the sender has no code to load. -/
theorem step_giftJournal : LoadedStep delegationCodeOf ⟨⟨senderState, []⟩, init giftInit⟩
    giftJournal := by
  refine ⟨.transfer 1 3 60, .applies _ (.transfer 1 3 60 giftState _ ?_ plainSender rfl
    (Option.some_ne_none plainRecipient) (by decide) rfl List.nil_prefix), ?_⟩
  · exact loads_update truthful_sender ⟨⟨rfl, rfl, rfl, rfl⟩, truthful_plain.2⟩
  · intro _ a ha acc hacc hdelegated
    rw [List.mem_singleton.mp ha] at hacc
    cases hacc
    cases hdelegated

/-- The transaction at one of its places. -/
def giftExecution (height : ℕ) (htx : giftBlocks height = [giftTx])
    (hempty : ∀ m, m < height → height ≤ m + 2 → giftBlocks m = []) :
    Execution delegationCodeOf giftBlocks where
  height := height
  index := 0
  tx := giftTx
  chain := silentContext
  spec := .monadNine
  senderAccount := plainSender
  before := ⟨senderState, []⟩
  after := giftJournal
  tx_eq := by rw [htx]; rfl
  placed := placedAt_silent htx hempty
  started := ⟨started_sender.sender, started_sender.truthful, started_sender.others⟩
  run := .single step_giftJournal

/-- Both times the sender dips by its gift and nobody reports it, three blocks apart. -/
theorem unreported_dips_apart_gift : ∃ x y : Execution delegationCodeOf giftBlocks,
    x.height = 0 ∧ y.height = 3 ∧ x.Dips ∧ y.Dips ∧
    x.after.reserveBalance.hasViolation = false ∧ y.after.reserveBalance.hasViolation = false ∧
    (x.height + 3 ≤ y.height ∨ y.height + 3 ≤ x.height) := by
  have hbelow : 40 < reserve giftInit (plainSender.withBalance 40) - gasFees giftInit := by
    decide +kernel
  have hdips : ∀ height htx hempty, (giftExecution height htx hempty).Dips := by
    intro height htx hempty
    refine ⟨plainSender.withBalance 40, rfl, show (1 : Address) ≠ stakingAddress by decide,
      .inl rfl, fun hexempt => ?_, .inr hbelow⟩
    cases hexempt.2.1
  let x := giftExecution 0 rfl fun m hm => absurd hm (Nat.not_lt_zero m)
  let y := giftExecution 3 rfl fun m hm hrecent => by
    obtain rfl | rfl : m = 1 ∨ m = 2 := by omega
    · rfl
    · rfl
  have hquiet : giftJournal.reserveBalance.hasViolation = false := by decide +kernel
  have hapart := (unreported_dips_apart delegationCodeOf_hashes).2 x y rfl (hdips ..) (hdips ..)
    hquiet hquiet
  exact ⟨x, y, rfl, rfl, hdips .., hdips .., hquiet, hquiet, hapart.resolve_left (by decide)⟩

end Executions

end SuwappuRevm.Reserve
