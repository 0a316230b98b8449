import SuwappuRevm.Reserve.Journal
import Mathlib.Logic.Relation

/-!
# The tracker and the journal agree

What the tracker says is compared with a recomputation over the loaded accounts, account by
account. An account's entry in the tracker is right when the account is in the failed set exactly
if it violates the reserve rule and its cached threshold is the one the rule gives. An operation
changes accounts in ways that keep a threshold right, and each account whose entry may no longer be
right is looked at again.
-/

namespace SuwappuRevm.Reserve

open Foundations ReserveBalanceTracker
open Staking (stakingAddress)

section Rule

variable (i : ReserveBalanceInit) (codeOf : Word → Bytecode)

/-- The code of the account is empty or a delegation. -/
def Plain (acc : Account) : Prop :=
  (codeOf acc.info.codeHash).originalBytes = [] ∨ (codeOf acc.info.codeHash).isEip7702 = true

/-- Whether the code is plain is decided by looking at it. -/
instance (acc : Account) : Decidable (Plain codeOf acc) :=
  inferInstanceAs (Decidable (_ ∨ _))

/-- The tracker's test for letting an account off, under a hardfork that has it: the account is
marked as self-destructed, by whichever transaction of the journal, and was created in this one. -/
def Exempt (acc : Account) : Prop :=
  MonadSpecId.monadNine.isEnabledIn i.spec = true ∧ acc.isSelfdestructed = true ∧
    acc.isCreatedLocally = true

/-- The account was both created and self-destructed in this transaction, under a hardfork that lets
it off. -/
def LetOff (acc : Account) : Prop :=
  MonadSpecId.monadNine.isEnabledIn i.spec = true ∧ acc.isSelfdestructedLocally = true ∧
    acc.isCreatedLocally = true

/-- What an account has to keep: its balance before the transaction, up to the maximum. -/
def reserve (acc : Account) : ℕ := min i.chain.maxReserveBalance acc.originalInfo.balance

/-- The gas fees of the transaction. -/
def gasFees : ℕ := i.effectiveGasPrice * i.gasLimit

/-- The sender may go below its reserve. -/
def MayDip : Prop := i.chain.senderCanDip i.sender i.senderIsDelegated = true

/-- Whether the sender may go below its reserve is a computation. -/
instance : Decidable (MayDip i) := inferInstanceAs (Decidable (_ = true))

/-- A rule of reserves, recomputed for one account: a plain account that is not let off is below its
reserve, from which the sender's fees have gone. -/
def ViolatesUnless (off : Prop) (a : Address) (acc : Account) : Prop :=
  a ≠ stakingAddress ∧ Plain codeOf acc ∧ ¬off ∧
    if a = i.sender then
      ¬MayDip i ∧ (reserve i acc < gasFees i ∨ acc.info.balance < reserve i acc - gasFees i)
    else acc.info.balance < reserve i acc

/-- The rule with the tracker's test for letting an account off. -/
def Violates (a : Address) (acc : Account) : Prop :=
  ViolatesUnless i codeOf (Exempt i acc) a acc

/-- The reserve rule: it lets off the accounts that this transaction has created and
self-destructed. -/
def ViolatesReserve (a : Address) (acc : Account) : Prop :=
  ViolatesUnless i codeOf (LetOff i acc) a acc

/-- The threshold that the rule gives. -/
def limit (a : Address) (acc : Account) : Option ℕ :=
  if a = stakingAddress ∨ ¬Plain codeOf acc then some 0
  else if a = i.sender then
    if MayDip i then some 0
    else if gasFees i ≤ reserve i acc then some (reserve i acc - gasFees i)
    else none
  else some (reserve i acc)

/-- A balance below a threshold. -/
def Below (balance : ℕ) : Option ℕ → Prop
  | none => True
  | some threshold => balance < threshold

variable {i codeOf}

/-- The rule in terms of the threshold. -/
theorem violates_iff {a : Address} {acc : Account} : Violates i codeOf a acc ↔
    ¬Exempt i acc ∧ Below acc.info.balance (limit i codeOf a acc) := by
  rw [Violates, ViolatesUnless, limit]
  by_cases hplain : a = stakingAddress ∨ ¬Plain codeOf acc
  · rw [if_pos hplain]
    simp only [Below, Nat.not_lt_zero, and_false, iff_false]
    rintro ⟨hstaking, hcode, -⟩
    rcases hplain with h | h
    · exact hstaking h
    · exact h hcode
  · obtain ⟨hstaking, hcode⟩ := not_or.mp hplain
    rw [if_neg hplain]
    simp only [hstaking, ne_eq, not_false_eq_true, not_not.mp hcode, true_and]
    apply and_congr_right
    intro _
    split
    next hsender =>
      by_cases hdip : MayDip i
      · simp [hdip, Below]
      · by_cases hfees : gasFees i ≤ reserve i acc
        · simp [hdip, hfees, Below]
        · simp [hdip, hfees, Below, Nat.lt_of_not_le hfees]
    next hsender => rfl

end Rule

section Thresholds

variable {i : ReserveBalanceInit} {codeOf : Word → Bytecode} {t : ReserveBalanceTracker}

/-- Only the hash of the empty code, or no hash at all, is the hash of an empty code. -/
def HashesCode (codeOf : Word → Bytecode) : Prop :=
  ∀ hash, (codeOf hash).originalBytes = [] ↔ hash = 0 ∨ hash = keccakEmpty

/-- The tracker has the data of the transaction. -/
structure Configured (i : ReserveBalanceInit) (t : ReserveBalanceTracker) : Prop where
  trackingEnabled : t.trackingEnabled = true
  chain : t.chain = i.chain
  useRecentCodeHash : t.useRecentCodeHash = true
  sender : t.sender = i.sender
  senderGasFees : t.senderGasFees = gasFees i
  senderCanDip : t.senderCanDip = i.chain.senderCanDip i.sender i.senderIsDelegated
  exemption : t.allowInitSelfdestructExemption = MonadSpecId.monadNine.isEnabledIn i.spec

/-- A delegated account has its code loaded. -/
def CodeKnown (codeOf : Word → Bytecode) (acc : Account) : Prop :=
  (codeOf acc.info.codeHash).isEip7702 = true →
    acc.info.code ≠ none ∨ acc.originalInfo.code ≠ none

/-- The tracker sees whether an account is plain when the code it needs for that is loaded. -/
theorem isSubjectAccount_iff (hcodes : HashesCode codeOf) (hconf : Configured i t) {acc : Account}
    (htruth : acc.Truthful codeOf) (hknown : CodeKnown codeOf acc) (a : Address) :
    t.isSubjectAccount acc a = true ↔ a ≠ stakingAddress ∧ Plain codeOf acc := by
  rw [isSubjectAccount, hconf.useRecentCodeHash, Plain, hcodes]
  by_cases hstaking : a = stakingAddress
  · simp [hstaking]
  by_cases hempty : acc.info.codeHash = 0 ∨ acc.info.codeHash = keccakEmpty
  · simp [hstaking, hempty]
  simp only [hstaking, if_false, if_true, hempty, ne_eq, not_false_eq_true, true_and, false_or]
  cases hcode : acc.info.code with
  | some code =>
    rw [htruth.code code hcode]
    rfl
  | none =>
    have hhash : acc.info.codeHash = acc.originalInfo.codeHash := by
      rcases htruth.unloaded hcode with h | h | h
      · exact absurd (.inl h) hempty
      · exact absurd (.inr h) hempty
      · exact h
    cases horiginal : acc.originalInfo.code with
    | some code =>
      rw [hhash, htruth.originalCode code horiginal]
      rfl
    | none =>
      have hunknown : ¬(codeOf acc.info.codeHash).isEip7702 = true := by
        intro hdelegated
        rcases hknown hdelegated with h | h
        · exact h hcode
        · exact h horiginal
      simp [hunknown]

/-- Then the threshold it computes is the rule's. -/
theorem computeViolationThreshold_eq (hcodes : HashesCode codeOf) (hconf : Configured i t)
    {acc : Account} (htruth : acc.Truthful codeOf) (hknown : CodeKnown codeOf acc) (a : Address) :
    t.computeViolationThreshold acc a = limit i codeOf a acc := by
  have hsubject := isSubjectAccount_iff hcodes hconf htruth hknown a
  rw [computeViolationThreshold, limit, pretxReserve, hconf.chain, hconf.sender,
    hconf.senderGasFees, hconf.senderCanDip]
  by_cases h : t.isSubjectAccount acc a = true
  · obtain ⟨hstaking, hplain⟩ := hsubject.mp h
    simp [h, hstaking, hplain, MayDip, reserve]
  · have hnot : a = stakingAddress ∨ ¬Plain codeOf acc := by
      by_contra hno
      obtain ⟨hstaking, hplain⟩ := not_or.mp hno
      exact h (hsubject.mpr ⟨hstaking, not_not.mp hplain⟩)
    simp [h, hnot]

end Thresholds

section Entry

variable {i : ReserveBalanceInit} {codeOf : Word → Bytecode} {t t' : ReserveBalanceTracker}

/-- The entry of a loaded account is right. -/
structure JudgedAt (i : ReserveBalanceInit) (codeOf : Word → Bytecode) (t : ReserveBalanceTracker)
    (a : Address) (acc : Account) : Prop where
  failed : a ∈ t.failed ↔ Violates i codeOf a acc
  cached : ∀ threshold, t.violationThresholds a = some threshold →
    Exempt i acc ∨ threshold = limit i codeOf a acc
  looked : a ∈ t.failed → t.violationThresholds a ≠ none

/-- The entry of an address is right; there is none for an account that is not loaded. -/
def CoherentAt (i : ReserveBalanceInit) (codeOf : Word → Bytecode) (t : ReserveBalanceTracker)
    (a : Address) : Option Account → Prop
  | none => a ∉ t.failed ∧ t.violationThresholds a = none
  | some acc => JudgedAt i codeOf t a acc

/-- Two trackers have one entry for an address. -/
structure SameEntry (t t' : ReserveBalanceTracker) (a : Address) : Prop where
  failed : a ∈ t'.failed ↔ a ∈ t.failed
  cached : t'.violationThresholds a = t.violationThresholds a

/-- An entry is the same as itself. -/
theorem SameEntry.refl (t : ReserveBalanceTracker) (a : Address) : SameEntry t t a := ⟨.rfl, rfl⟩

/-- Entries that are the same in turn are the same. -/
theorem SameEntry.trans {t'' : ReserveBalanceTracker} {a : Address} (h : SameEntry t t' a)
    (h' : SameEntry t' t'' a) : SameEntry t t'' a :=
  ⟨h'.failed.trans h.failed, h'.cached.trans h.cached⟩

/-- The same entry is right for the same account. -/
theorem CoherentAt.congr {a : Address} {account : Option Account}
    (h : CoherentAt i codeOf t a account) (hsame : SameEntry t t' a) :
    CoherentAt i codeOf t' a account := by
  cases account with
  | none => exact ⟨fun hfailed => h.1 (hsame.failed.mp hfailed), hsame.cached.trans h.2⟩
  | some acc =>
    refine ⟨hsame.failed.trans h.failed, ?_, ?_⟩
    · intro threshold hthreshold
      exact h.cached threshold (hsame.cached ▸ hthreshold)
    · intro hfailed
      rw [hsame.cached]
      exact h.looked (hsame.failed.mp hfailed)

/-- A tracker that differs from another in the entry of one address. -/
structure Touches (i : ReserveBalanceInit) (t t' : ReserveBalanceTracker) (a : Address) : Prop where
  configured : Configured i t → Configured i t'
  others : ∀ b, b ≠ a → SameEntry t t' b

/-- One change of an entry after another. -/
theorem Touches.trans {t'' : ReserveBalanceTracker} {a : Address} (h : Touches i t t' a)
    (h' : Touches i t' t'' a) : Touches i t t'' a :=
  ⟨fun hconf => h'.configured (h.configured hconf),
    fun b hb => (h.others b hb).trans (h'.others b hb)⟩

/-- Dropping an account from the failed set changes its entry only. -/
theorem touches_pass (i : ReserveBalanceInit) (t : ReserveBalanceTracker) (a : Address) :
    Touches i t (t.pass a) a where
  configured h := ⟨h.1, h.2, h.3, h.4, h.5, h.6, h.7⟩
  others b hb := ⟨by simp [ReserveBalanceTracker.pass, hb], rfl⟩

/-- Adding an account to the failed set changes its entry only. -/
theorem touches_fail (i : ReserveBalanceInit) (t : ReserveBalanceTracker) (a : Address) :
    Touches i t (t.fail a) a where
  configured h := ⟨h.1, h.2, h.3, h.4, h.5, h.6, h.7⟩
  others b hb := ⟨by simp [ReserveBalanceTracker.fail, hb], rfl⟩

/-- Storing a threshold changes the entry of its account only. -/
theorem touches_setThreshold (i : ReserveBalanceInit) (t : ReserveBalanceTracker) (a : Address)
    (threshold : Option (Option ℕ)) : Touches i t (t.setThreshold a threshold) a where
  configured h := ⟨h.1, h.2, h.3, h.4, h.5, h.6, h.7⟩
  others _ hb := ⟨.rfl, Function.update_of_ne hb _ _⟩

/-- Comparing a balance with a threshold changes the entry of its account only. -/
theorem touches_judge (i : ReserveBalanceInit) (t : ReserveBalanceTracker) (balance : ℕ)
    (a : Address) (threshold : Option ℕ) : Touches i t (t.judge balance a threshold) a := by
  cases threshold with
  | none => exact touches_fail i t a
  | some threshold =>
    rw [judge]
    split
    · exact touches_pass i t a
    · exact touches_fail i t a

/-- Looking at an account changes its entry only. -/
theorem touches_updateLoadedAccount (i : ReserveBalanceInit) (t : ReserveBalanceTracker)
    (account : Option Account) (a : Address) :
    Touches i t (t.updateLoadedAccount account a) a := by
  unfold updateLoadedAccount
  split
  · exact ⟨id, fun b _ => .refl t b⟩
  cases account with
  | none => exact (touches_pass i t a).trans (touches_setThreshold i _ a _)
  | some acc =>
    dsimp only
    split
    · exact (touches_pass i t a).trans (touches_setThreshold i _ a _)
    · cases t.violationThresholds a with
      | some threshold => exact touches_judge i t _ a _
      | none => exact (touches_setThreshold i t a _).trans (touches_judge i _ _ a _)

/-- The comparison puts the account in the failed set exactly if it is below the threshold. -/
theorem mem_judge_failed (t : ReserveBalanceTracker) (balance : ℕ) (a : Address)
    (threshold : Option ℕ) :
    a ∈ (t.judge balance a threshold).failed ↔ Below balance threshold := by
  cases threshold with
  | none => simp [judge, ReserveBalanceTracker.fail, Below]
  | some threshold =>
    rw [judge, Below]
    split
    next h =>
      simp only [ReserveBalanceTracker.pass, Finset.mem_erase, ne_eq, not_true_eq_false,
        false_and, false_iff]
      omega
    next h =>
      simp only [ReserveBalanceTracker.fail, Finset.mem_insert_self, true_iff]
      omega

/-- The comparison keeps the thresholds. -/
@[simp] theorem judge_violationThresholds (t : ReserveBalanceTracker) (balance : ℕ) (a : Address)
    (threshold : Option ℕ) :
    (t.judge balance a threshold).violationThresholds = t.violationThresholds := by
  cases threshold with
  | none => rfl
  | some threshold =>
    rw [judge]
    split <;> rfl

/-- An account that is compared with the rule's threshold has a right entry. -/
theorem judgedAt_judge {a : Address} {acc : Account} (hexempt : ¬Exempt i acc)
    (hstored : t.violationThresholds a = some (limit i codeOf a acc)) :
    JudgedAt i codeOf (t.judge acc.info.balance a (limit i codeOf a acc)) a acc := by
  refine ⟨?_, ?_, ?_⟩
  · rw [mem_judge_failed, violates_iff]
    exact (and_iff_right hexempt).symm
  · intro threshold hthreshold
    rw [judge_violationThresholds, hstored] at hthreshold
    exact .inr (Option.some.inj hthreshold).symm
  · intro _
    rw [judge_violationThresholds, hstored]
    exact Option.some_ne_none _

/-- Looking at a loaded account makes its entry right, when the threshold that is stored for it is
right or the code it takes to compute one is loaded. -/
theorem judgedAt_updateLoadedAccount (hcodes : HashesCode codeOf) (hconf : Configured i t)
    {a : Address} {acc : Account} (htruth : acc.Truthful codeOf)
    (hknown : t.violationThresholds a = none → CodeKnown codeOf acc)
    (hcached : ∀ threshold, t.violationThresholds a = some threshold →
      Exempt i acc ∨ threshold = limit i codeOf a acc) :
    JudgedAt i codeOf (t.updateLoadedAccount (some acc) a) a acc := by
  rw [updateLoadedAccount, hconf.trackingEnabled, hconf.exemption]
  by_cases hexempt : Exempt i acc
  · obtain ⟨hspec, hdestroyed, hcreated⟩ := hexempt
    simp only [Bool.not_true, Bool.false_eq_true, if_false, hspec, hdestroyed, hcreated,
      Bool.and_self, if_true]
    refine ⟨?_, fun _ _ => .inl ⟨hspec, hdestroyed, hcreated⟩, ?_⟩
    · simp [setThreshold, ReserveBalanceTracker.pass, violates_iff, Exempt, hspec, hdestroyed,
        hcreated]
    · intro hfailed
      simp [setThreshold, ReserveBalanceTracker.pass] at hfailed
  · have hflags : (MonadSpecId.monadNine.isEnabledIn i.spec && acc.isSelfdestructed &&
        acc.isCreatedLocally) = false := by
      rw [← Bool.not_eq_true, Bool.and_eq_true, Bool.and_eq_true, and_assoc]
      exact hexempt
    simp only [Bool.not_true, Bool.false_eq_true, if_false, hflags]
    cases hthreshold : t.violationThresholds a with
    | some threshold =>
      rcases hcached threshold hthreshold with h | rfl
      · exact absurd h hexempt
      · exact judgedAt_judge hexempt hthreshold
    | none =>
      dsimp only
      rw [computeViolationThreshold_eq hcodes hconf htruth (hknown hthreshold)]
      exact judgedAt_judge hexempt (Function.update_self _ _ _)

end Entry

section Changes

variable {i : ReserveBalanceInit} {codeOf : Word → Bytecode} {t t' : ReserveBalanceTracker}
  {a : Address} {acc acc' : Account}

/-- A change of an account that leaves its threshold right. -/
structure Evolves (acc acc' : Account) : Prop where
  original : acc'.originalInfo.balance = acc.originalInfo.balance
  codeHash : acc'.info.codeHash = acc.info.codeHash
  isSelfdestructed : acc.isSelfdestructed = true → acc'.isSelfdestructed = true
  isCreatedLocally : acc.isCreatedLocally = true → acc'.isCreatedLocally = true

/-- The threshold stays what it was. -/
theorem Evolves.limit_eq (h : Evolves acc acc') :
    limit i codeOf a acc' = limit i codeOf a acc := by
  have hplain : Plain codeOf acc' ↔ Plain codeOf acc := by rw [Plain, Plain, h.codeHash]
  have hreserve : reserve i acc' = reserve i acc := by rw [reserve, reserve, h.original]
  rw [limit, limit, hreserve]
  simp only [hplain]

/-- An account that was let off still is. -/
theorem Evolves.exempt (h : Evolves acc acc') (hexempt : Exempt i acc) : Exempt i acc' :=
  ⟨hexempt.1, h.isSelfdestructed hexempt.2.1, h.isCreatedLocally hexempt.2.2⟩

/-- A stored threshold stays right. -/
theorem JudgedAt.cached_of_evolves (h : JudgedAt i codeOf t a acc) (hchange : Evolves acc acc')
    (threshold : Option ℕ) (hstored : t.violationThresholds a = some threshold) :
    Exempt i acc' ∨ threshold = limit i codeOf a acc' := by
  rcases h.cached threshold hstored with hexempt | hlimit
  · exact .inl (hchange.exempt hexempt)
  · exact .inr (hlimit.trans hchange.limit_eq.symm)

/-- An account that was not below does not get there by a credit. -/
theorem not_violates_of_credit (h : Evolves acc acc')
    (hbalance : acc.info.balance ≤ acc'.info.balance) (hno : ¬Violates i codeOf a acc) :
    ¬Violates i codeOf a acc' := by
  rw [violates_iff] at hno ⊢
  rintro ⟨hexempt, hbelow⟩
  apply hno
  refine ⟨fun h' => hexempt (h.exempt h'), ?_⟩
  rw [h.limit_eq] at hbelow
  cases hlimit : limit i codeOf a acc with
  | none => trivial
  | some threshold =>
    rw [hlimit] at hbelow
    exact lt_of_le_of_lt hbalance hbelow

/-- A debit is followed by a look at the account. -/
theorem JudgedAt.debit (h : JudgedAt i codeOf t a acc) (hcodes : HashesCode codeOf)
    (hconf : Configured i t) (hchange : Evolves acc acc') (htruth : acc'.Truthful codeOf)
    (hknown : CodeKnown codeOf acc') : JudgedAt i codeOf (t.onDebit (some acc') a) a acc' :=
  judgedAt_updateLoadedAccount hcodes hconf htruth (fun _ => hknown)
    (h.cached_of_evolves hchange)

/-- A credit is followed by a look at a failing account. -/
theorem JudgedAt.credit (h : JudgedAt i codeOf t a acc) (hcodes : HashesCode codeOf)
    (hconf : Configured i t) (hchange : Evolves acc acc')
    (hbalance : acc.info.balance ≤ acc'.info.balance) (htruth : acc'.Truthful codeOf) :
    JudgedAt i codeOf (t.onCredit (some acc') a) a acc' := by
  rw [onCredit]
  split
  next hfailed =>
    exact judgedAt_updateLoadedAccount hcodes hconf htruth
      (fun hnone => absurd hnone (h.looked hfailed)) (h.cached_of_evolves hchange)
  next hpassed =>
    have hno := not_violates_of_credit hchange hbalance (mt h.failed.mpr hpassed)
    exact ⟨iff_of_false hpassed hno, h.cached_of_evolves hchange, fun hf => absurd hf hpassed⟩

/-- A credit changes the entry of its account only. -/
theorem touches_onCredit (i : ReserveBalanceInit) (t : ReserveBalanceTracker)
    (account : Option Account) (a : Address) : Touches i t (t.onCredit account a) a := by
  rw [onCredit]
  split
  · exact touches_updateLoadedAccount i t account a
  · exact ⟨id, fun b _ => .refl t b⟩

/-- A new code is followed by a look at the account, unless it can be let pass at once. -/
theorem judgedAt_onSetCode (hcodes : HashesCode codeOf) (hconf : Configured i t) {code : Bytecode}
    (hcode : codeOf acc.info.codeHash = code) (hloaded : acc.info.code = some code)
    (htruth : acc.Truthful codeOf) : JudgedAt i codeOf (t.onSetCode (some acc) a code) a acc := by
  rw [onSetCode, hconf.trackingEnabled, hconf.useRecentCodeHash]
  simp only [Bool.not_true, Bool.or_self, Bool.false_eq_true, if_false]
  split
  next hcontract =>
    have hplain : ¬Plain codeOf acc := by
      rw [isSmartContractCode, Bool.and_eq_true] at hcontract
      rw [Plain, hcode]
      rintro (hempty | hdelegated)
      · simp [hempty] at hcontract
      · simp [hdelegated] at hcontract
    have hlimit : limit i codeOf a acc = some 0 := by simp [limit, hplain]
    refine ⟨?_, ?_, ?_⟩
    · simp [ReserveBalanceTracker.pass, setThreshold, violates_iff, hlimit, Below]
    · intro threshold hstored
      simp only [ReserveBalanceTracker.pass, setThreshold, Function.update_self,
        Option.some.injEq] at hstored
      exact .inr (hstored.symm.trans hlimit.symm)
    · intro hfailed
      simp [ReserveBalanceTracker.pass, setThreshold] at hfailed
  next hplain =>
    have hreset := touches_setThreshold i t a none
    apply judgedAt_updateLoadedAccount hcodes (hreset.configured hconf) htruth
    · intro _ _
      exact .inl (hloaded ▸ Option.some_ne_none _)
    · intro threshold hstored
      simp [setThreshold] at hstored

/-- A new code changes the entry of its account only. -/
theorem touches_onSetCode (i : ReserveBalanceInit) (t : ReserveBalanceTracker)
    (account : Option Account) (a : Address) (code : Bytecode) :
    Touches i t (t.onSetCode account a code) a := by
  rw [onSetCode]
  split
  · exact ⟨id, fun b _ => .refl t b⟩
  split
  · exact (touches_setThreshold i t a _).trans (touches_pass i _ a)
  · exact (touches_setThreshold i t a _).trans (touches_updateLoadedAccount i _ _ a)

/-- A load leaves the entries right; only the sender's account has to be there already. -/
theorem CoherentAt.load {before after : Option Account} (h : CoherentAt i codeOf t a before)
    (hload : LoadsTo codeOf before after) (hsender : before = none → a ≠ i.sender) :
    CoherentAt i codeOf t a after := by
  cases before with
  | none =>
    cases after with
    | none => exact h
    | some acc =>
      obtain ⟨hpassed, hnone⟩ := h
      refine ⟨iff_of_false hpassed ?_, fun threshold hstored => ?_, fun hf => absurd hf hpassed⟩
      · rintro ⟨-, -, -, hbelow⟩
        rw [if_neg (hsender rfl), reserve, ← hload.1.balance] at hbelow
        omega
      · rw [hnone] at hstored
        cases hstored
  | some acc =>
    cases after with
    | none => exact absurd hload id
    | some acc' =>
      obtain ⟨-, heq, -⟩ := hload
      rw [heq]
      exact ⟨h.failed, h.cached, h.looked⟩

end Changes

section States

variable {i : ReserveBalanceInit} {codeOf : Word → Bytecode} {t : ReserveBalanceTracker}
  {st st' : EvmState}

/-- The tracker agrees with the loaded accounts. -/
structure Coherent (i : ReserveBalanceInit) (codeOf : Word → Bytecode) (t : ReserveBalanceTracker)
    (st : EvmState) : Prop where
  configured : Configured i t
  sender : st i.sender ≠ none
  truthful : ∀ a acc, st a = some acc → acc.Truthful codeOf
  entries : ∀ a, CoherentAt i codeOf t a (st a)

/-- The tracker of an agreeing state says whether an account violates the rule. -/
theorem Coherent.reports_iff (h : Coherent i codeOf t st) :
    t.hasViolation = true ↔ ∃ a acc, st a = some acc ∧ Violates i codeOf a acc := by
  rw [hasViolation, decide_eq_true_iff, ← Finset.nonempty_iff_ne_empty]
  constructor
  · rintro ⟨a, hfailed⟩
    have hentry := h.entries a
    cases hst : st a with
    | none =>
      rw [hst] at hentry
      exact absurd hfailed hentry.1
    | some acc =>
      rw [hst] at hentry
      exact ⟨a, acc, hst, hentry.failed.mp hfailed⟩
  · rintro ⟨a, acc, hst, hviolates⟩
    have hentry := h.entries a
    rw [hst] at hentry
    exact ⟨a, hentry.failed.mpr hviolates⟩

/-- Loads keep the agreement. -/
theorem Coherent.load (h : Coherent i codeOf t st) (hload : Loads codeOf st st') :
    Coherent i codeOf t st' where
  configured := h.configured
  sender := by
    intro hnone
    have hsender := hload i.sender
    rw [hnone] at hsender
    cases hst : st i.sender with
    | none => exact h.sender hst
    | some acc => simp [hst, LoadsTo] at hsender
  truthful := by
    intro a acc hst'
    have hone := hload a
    rw [hst'] at hone
    cases hst : st a with
    | none =>
      rw [hst] at hone
      exact hone.2
    | some before =>
      rw [hst] at hone
      exact hone.1
  entries := by
    intro a
    apply (h.entries a).load (hload a)
    rintro hnone rfl
    exact h.sender hnone

/-- Two loaded accounts change: the first may lose balance and is looked at, the second gains. -/
theorem Coherent.transferred (h : Coherent i codeOf t st) (hcodes : HashesCode codeOf)
    {src dst : Address} {payer payer' payee payee' : Account} (hsrc : st src = some payer)
    (hsrc' : st' src = some payer') (hdebit : Evolves payer payer') (hdst : st dst = some payee)
    (hdst' : st' dst = some payee') (hcredit : Evolves payee payee')
    (hgain : dst ≠ src → payee.info.balance ≤ payee'.info.balance)
    (hother : ∀ a, a ≠ src → a ≠ dst → st' a = st a)
    (htruth : ∀ a acc, st' a = some acc → acc.Truthful codeOf) (hknown : CodeKnown codeOf payer') :
    Coherent i codeOf (onTransfer t st' src dst) st' := by
  have hdebits := touches_updateLoadedAccount i t (st' src) src
  have hcredits := touches_onCredit i (t.onDebit (st' src) src) (st' dst) dst
  have hconf := hdebits.configured h.configured
  have hpaid : JudgedAt i codeOf (t.onDebit (st' src) src) src payer' := by
    have hentry := h.entries src
    rw [hsrc] at hentry
    rw [hsrc']
    exact hentry.debit hcodes h.configured hdebit (htruth src payer' hsrc') hknown
  have hgained : JudgedAt i codeOf (onTransfer t st' src dst) dst payee' := by
    rw [onTransfer, hdst']
    by_cases hself : dst = src
    · subst hself
      cases hsrc'.symm.trans hdst'
      exact hpaid.credit hcodes hconf ⟨rfl, rfl, id, id⟩ le_rfl (htruth _ _ hsrc')
    · have hentry := (h.entries dst).congr (hdebits.others dst hself)
      rw [hdst] at hentry
      exact hentry.credit hcodes hconf hcredit (hgain hself) (htruth dst payee' hdst')
  refine ⟨hcredits.configured hconf, ?_, htruth, ?_⟩
  · by_cases hs : i.sender = src
    · rw [hs, hsrc']
      exact Option.some_ne_none _
    by_cases hd : i.sender = dst
    · rw [hd, hdst']
      exact Option.some_ne_none _
    rw [hother _ hs hd]
    exact h.sender
  · intro a
    by_cases hd : a = dst
    · rw [hd, hdst']
      exact hgained
    by_cases hs : a = src
    · have hsame := hcredits.others a hd
      rw [hs] at hsame ⊢
      rw [hsrc']
      have hentry : CoherentAt i codeOf (t.onDebit (st' src) src) src (some payer') := hpaid
      exact hentry.congr hsame
    · rw [hother a hs hd]
      exact ((h.entries a).congr (hdebits.others a hs)).congr (hcredits.others a hd)

end States

end SuwappuRevm.Reserve
