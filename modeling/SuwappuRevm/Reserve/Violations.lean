import SuwappuRevm.Reserve.Coherence

/-!
# Violations over a transaction

Each operation of the journal keeps the tracker in agreement with the loaded accounts, as long as
every delegated account that it makes the tracker look at has its code loaded. Without the code a
delegated account passes for a contract, and the threshold of zero stays cached when the code is
loaded later. The tracker also lets off an account that the transaction creates where an earlier one
of the same journal has self-destructed one, so the reserve rule, which does not, asks of a run that
it creates no account there.
-/

namespace SuwappuRevm.Reserve

open Foundations ReserveBalanceTracker
open Staking (stakingAddress)

variable {i : ReserveBalanceInit} {codeOf : Word → Bytecode} {t : ReserveBalanceTracker}
  {st st' : EvmState} {a b src dst : Address} {acc payer payee : Account} {balance : ℕ}

section Updates

/-- The changed account. -/
theorem modifyAccount_self {f : Account → Account} (h : st a = some acc) :
    modifyAccount st a f a = some (f acc) := by
  rw [modifyAccount, Function.update_self, h, Option.map_some]

/-- The other accounts are as before. -/
theorem modifyAccount_of_ne {f : Account → Account} (h : b ≠ a) :
    modifyAccount st a f b = st b := Function.update_of_ne h _ _

/-- A balance of its own does not matter to the codes. -/
theorem Account.Truthful.withBalance (h : acc.Truthful codeOf) (balance : ℕ) :
    (acc.withBalance balance).Truthful codeOf := ⟨h.1, h.2, h.3⟩

/-- Another balance leaves the threshold right. -/
theorem evolves_withBalance (acc : Account) (balance : ℕ) : Evolves acc (acc.withBalance balance) :=
  ⟨rfl, rfl, id, id⟩

/-- Destruction leaves the threshold right. -/
theorem evolves_destroyed (acc : Account) : Evolves acc acc.destroyed :=
  ⟨rfl, rfl, fun _ => rfl, id⟩

/-- Creation leaves the threshold right. -/
theorem evolves_created (acc : Account) : Evolves acc acc.created := ⟨rfl, rfl, id, fun _ => rfl⟩

/-- Changes in turn. -/
theorem Evolves.trans {acc' acc'' : Account} (h : Evolves acc acc') (h' : Evolves acc' acc'') :
    Evolves acc acc'' where
  original := h'.original.trans h.original
  codeHash := h'.codeHash.trans h.codeHash
  isSelfdestructed hd := h'.isSelfdestructed (h.isSelfdestructed hd)
  isCreatedLocally hc := h'.isCreatedLocally (h.isCreatedLocally hc)

/-- A payment leaves the accounts that take no part in it. -/
theorem moveBalance_of_ne (hsrc : b ≠ src) (hdst : b ≠ dst) :
    moveBalance st src dst balance b = st b := by
  rw [moveBalance, modifyAccount_of_ne hdst, modifyAccount_of_ne hsrc]

/-- A payment changes the balance of the payer only. -/
theorem moveBalance_src (h : st src = some payer) (dst : Address) (balance : ℕ) :
    ∃ left, moveBalance st src dst balance src = some (payer.withBalance left) := by
  by_cases hself : src = dst
  · subst hself
    rw [moveBalance, modifyAccount_self (modifyAccount_self h)]
    exact ⟨_, rfl⟩
  · rw [moveBalance, modifyAccount_of_ne hself, modifyAccount_self h]
    exact ⟨_, rfl⟩

/-- A payment changes the balance of the payee only, which goes up. -/
theorem moveBalance_dst (h : st dst = some payee) (src : Address) (balance : ℕ) :
    ∃ left, moveBalance st src dst balance dst = some (payee.withBalance left) ∧
      (dst ≠ src → payee.info.balance ≤ left) := by
  by_cases hself : dst = src
  · subst hself
    rw [moveBalance, modifyAccount_self (modifyAccount_self h)]
    exact ⟨_, rfl, fun hne => absurd rfl hne⟩
  · rw [moveBalance, modifyAccount_self ((modifyAccount_of_ne hself).trans h)]
    exact ⟨_, rfl, fun _ => Nat.le_add_right _ _⟩

/-- Truth is kept by a payment. -/
theorem truthful_moveBalance (htruth : ∀ a acc, st a = some acc → acc.Truthful codeOf)
    (hsrc : st src = some payer) (hdst : st dst = some payee) :
    ∀ a acc, moveBalance st src dst balance a = some acc → acc.Truthful codeOf := by
  intro a acc hacc
  obtain ⟨left, hpaid⟩ := moveBalance_src hsrc dst balance
  obtain ⟨gained, hgot, -⟩ := moveBalance_dst hdst src balance
  by_cases hs : a = src
  · rw [hs, hpaid] at hacc
    cases hacc
    exact (htruth src payer hsrc).withBalance left
  by_cases hd : a = dst
  · rw [hd, hgot] at hacc
    cases hacc
    exact (htruth dst payee hdst).withBalance gained
  · rw [moveBalance_of_ne hs hd] at hacc
    exact htruth a acc hacc

/-- Truth is kept by a change of one account that keeps it. -/
theorem truthful_modifyAccount {f : Account → Account}
    (htruth : ∀ a acc, st a = some acc → acc.Truthful codeOf) (hloaded : st a = some acc)
    (hf : acc.Truthful codeOf → (f acc).Truthful codeOf) :
    ∀ b acc, modifyAccount st a f b = some acc → acc.Truthful codeOf := by
  intro b acc' hacc
  by_cases hb : b = a
  · rw [hb, modifyAccount_self hloaded] at hacc
    cases hacc
    exact hf (htruth a acc hloaded)
  · rw [modifyAccount_of_ne hb] at hacc
    exact htruth b acc' hacc

end Updates

section Operations

/-- A payment keeps the agreement. -/
theorem Coherent.transfer (h : Coherent i codeOf t st) (hcodes : HashesCode codeOf) (balance : ℕ)
    (hsrc : st src = some payer) (hdst : st dst = some payee)
    (hknown : ∀ acc, moveBalance st src dst balance src = some acc → CodeKnown codeOf acc) :
    Coherent i codeOf (onTransfer t (moveBalance st src dst balance) src dst)
      (moveBalance st src dst balance) := by
  obtain ⟨left, hpaid⟩ := moveBalance_src hsrc dst balance
  obtain ⟨gained, hgot, hgain⟩ := moveBalance_dst hdst src balance
  exact h.transferred hcodes hsrc hpaid (evolves_withBalance _ _) hdst hgot
    (evolves_withBalance _ _) hgain (fun a => moveBalance_of_ne)
    (truthful_moveBalance h.truthful hsrc hdst) (hknown _ hpaid)

/-- A creation keeps the agreement. -/
theorem Coherent.createAccount (h : Coherent i codeOf t st) (hcodes : HashesCode codeOf)
    (hsrc : st src = some payer) (hdst : st dst = some payee)
    (hempty : payee.info.codeHash = 0 ∨ payee.info.codeHash = keccakEmpty)
    (hstate : st' = modifyAccount (moveBalance st src dst balance) dst Account.created)
    (hknown : ∀ acc, st' src = some acc → CodeKnown codeOf acc) :
    Coherent i codeOf (onTransfer t st' src dst) st' := by
  obtain ⟨left, hpaid⟩ := moveBalance_src hsrc dst balance
  obtain ⟨gained, hgot, hgain⟩ := moveBalance_dst hdst src balance
  have hcreated : st' dst = some (payee.withBalance gained).created := by
    rw [hstate, modifyAccount_self hgot]
  have hpayee := (evolves_withBalance payee gained).trans (evolves_created _)
  have hother : ∀ a, a ≠ src → a ≠ dst → st' a = st a := by
    intro a hs hd
    rw [hstate, modifyAccount_of_ne hd, moveBalance_of_ne hs hd]
  have htruth : ∀ a acc, st' a = some acc → acc.Truthful codeOf := by
    rw [hstate]
    apply truthful_modifyAccount (truthful_moveBalance h.truthful hsrc hdst) hgot
    intro hpayee
    refine ⟨?_, hpayee.originalCode, fun _ => hempty.imp_right .inl⟩
    intro _ hnone
    cases hnone
  by_cases hself : src = dst
  · subst hself
    cases hsrc.symm.trans hdst
    exact h.transferred hcodes hsrc hcreated hpayee hsrc hcreated hpayee
      (fun hne => absurd rfl hne) hother htruth (hknown _ hcreated)
  · have hpaid' : st' src = some (payer.withBalance left) := by
      rw [hstate, modifyAccount_of_ne hself, hpaid]
    exact h.transferred hcodes hsrc hpaid' (evolves_withBalance _ _) hdst hcreated hpayee hgain
      hother htruth (hknown _ hpaid')

/-- A self-destruction keeps the agreement. -/
theorem Coherent.selfdestruct (h : Coherent i codeOf t st) (hcodes : HashesCode codeOf)
    (hsrc : st src = some payer) (hdst : st dst = some payee)
    (hstate : st' = destroyAccount st src dst payer)
    (hknown : ∀ acc, st' src = some acc → CodeKnown codeOf acc) :
    Coherent i codeOf (onTransfer t st' src dst) st' := by
  by_cases hself : src = dst
  · subst hself
    cases hsrc.symm.trans hdst
    by_cases hcreated : payer.isCreatedLocally = true
    · have hst' : st' = modifyAccount st src Account.destroyed := by
        rw [hstate, destroyAccount, if_pos rfl, if_pos hcreated]
      have hgone : st' src = some payer.destroyed := by rw [hst', modifyAccount_self hsrc]
      have hchange := evolves_destroyed payer
      apply h.transferred hcodes hsrc hgone hchange hsrc hgone hchange
        (fun hne => absurd rfl hne) ?_ ?_ (hknown _ hgone)
      · intro a hs _
        rw [hst', modifyAccount_of_ne hs]
      · rw [hst']
        exact truthful_modifyAccount h.truthful hsrc fun htruth => ⟨htruth.1, htruth.2, htruth.3⟩
    · have hst' : st' = st := by
        rw [hstate, destroyAccount, if_pos rfl, if_neg hcreated]
      rw [hst'] at hknown ⊢
      exact h.transferred hcodes hsrc hsrc ⟨rfl, rfl, id, id⟩ hsrc hsrc ⟨rfl, rfl, id, id⟩
        (fun _ => le_rfl) (fun _ _ _ => rfl) h.truthful (hknown _ hsrc)
  · by_cases hcreated : payer.isCreatedLocally = true
    · obtain ⟨left, hpaid⟩ := moveBalance_src hsrc dst payer.info.balance
      obtain ⟨gained, hgot, hgain⟩ :=
        moveBalance_dst hdst src payer.info.balance
      have hst' : st' = modifyAccount (moveBalance st src dst payer.info.balance) src
          Account.destroyed := by
        rw [hstate, destroyAccount, if_neg hself, if_pos hcreated]
      have hgone : st' src = some (payer.withBalance left).destroyed := by
        rw [hst', modifyAccount_self hpaid]
      have hgot' : st' dst = some (payee.withBalance gained) := by
        rw [hst', modifyAccount_of_ne (Ne.symm hself), hgot]
      apply h.transferred hcodes hsrc hgone
        ((evolves_withBalance payer left).trans (evolves_destroyed _)) hdst hgot'
        (evolves_withBalance _ _) hgain ?_ ?_ (hknown _ hgone)
      · intro a hs hd
        rw [hst', modifyAccount_of_ne hs, moveBalance_of_ne hs hd]
      · rw [hst']
        exact truthful_modifyAccount (truthful_moveBalance h.truthful hsrc hdst) hpaid
          fun htruth => ⟨htruth.1, htruth.2, htruth.3⟩
    · have hst' : st' = moveBalance st src dst payer.info.balance := by
        rw [hstate, destroyAccount, if_neg hself, if_neg hcreated]
      rw [hst'] at hknown ⊢
      exact h.transfer hcodes _ hsrc hdst hknown

/-- A credit keeps the agreement. -/
theorem Coherent.balanceIncr (h : Coherent i codeOf t st) (hcodes : HashesCode codeOf)
    (hloaded : st a = some acc)
    (hstate : st' = modifyAccount st a fun acc => acc.withBalance (acc.info.balance + balance)) :
    Coherent i codeOf (t.onCredit (st' a) a) st' := by
  have hcredit := touches_onCredit i t (st' a) a
  have hgot : st' a = some (acc.withBalance (acc.info.balance + balance)) := by
    rw [hstate, modifyAccount_self hloaded]
  have htruth : ∀ b acc, st' b = some acc → acc.Truthful codeOf := by
    rw [hstate]
    exact truthful_modifyAccount h.truthful hloaded fun htruth => htruth.withBalance _
  have hjudged : CoherentAt i codeOf (t.onCredit (st' a) a) a (st' a) := by
    have hentry := h.entries a
    rw [hloaded] at hentry
    rw [hgot]
    exact hentry.credit hcodes h.configured (evolves_withBalance _ _) (Nat.le_add_right _ _)
      (htruth a _ hgot)
  refine ⟨hcredit.configured h.configured, ?_, htruth, ?_⟩
  · by_cases hs : i.sender = a
    · rw [hs, hgot]
      exact Option.some_ne_none _
    · rw [hstate, modifyAccount_of_ne hs]
      exact h.sender
  · intro b
    by_cases hb : b = a
    · rw [hb]
      exact hjudged
    · have hkeeps : st' b = st b := by rw [hstate, modifyAccount_of_ne hb]
      rw [hkeeps]
      exact (h.entries b).congr (hcredit.others b hb)

/-- A new code keeps the agreement. -/
theorem Coherent.setCode (h : Coherent i codeOf t st) (hcodes : HashesCode codeOf)
    {code : Bytecode} {hash : Word} (hloaded : st a = some acc) (hhash : codeOf hash = code)
    (hstate : st' = modifyAccount st a fun acc => acc.withCode hash (some code)) :
    Coherent i codeOf (t.onSetCode (st' a) a code) st' := by
  have htouch := touches_onSetCode i t (st' a) a code
  have hgot : st' a = some (acc.withCode hash (some code)) := by
    rw [hstate, modifyAccount_self hloaded]
  have htruth : ∀ b acc, st' b = some acc → acc.Truthful codeOf := by
    rw [hstate]
    apply truthful_modifyAccount h.truthful hloaded
    intro htruth
    refine ⟨?_, htruth.originalCode, ?_⟩
    · intro _ hcode
      cases hcode
      exact hhash
    · intro hnone
      cases hnone
  refine ⟨htouch.configured h.configured, ?_, htruth, ?_⟩
  · by_cases hs : i.sender = a
    · rw [hs, hgot]
      exact Option.some_ne_none _
    · rw [hstate, modifyAccount_of_ne hs]
      exact h.sender
  · intro b
    by_cases hb : b = a
    · rw [hb, hgot]
      exact judgedAt_onSetCode hcodes h.configured hhash rfl (htruth a _ hgot)
    · have hkeeps : st' b = st b := by rw [hstate, modifyAccount_of_ne hb]
      rw [hkeeps]
      exact (h.entries b).congr (htouch.others b hb)

end Operations

section Reverts

/-- Looking at a reverted account afresh makes its entry right. -/
theorem coherentAt_afresh (hcodes : HashesCode codeOf) (hconf : Configured i t)
    (account : Option Account) (htruth : ∀ acc, account = some acc → acc.Truthful codeOf)
    (hknown : ∀ acc, account = some acc → CodeKnown codeOf acc) :
    CoherentAt i codeOf ((t.setThreshold a none).updateLoadedAccount account a) a account := by
  have hreset := (touches_setThreshold i t a none).configured hconf
  cases account with
  | none =>
    rw [updateLoadedAccount, hreset.trackingEnabled]
    exact ⟨Finset.notMem_erase a _, Function.update_self _ _ _⟩
  | some acc =>
    apply judgedAt_updateLoadedAccount hcodes hreset (htruth acc rfl) (fun _ => hknown acc rfl)
    intro threshold hstored
    simp [setThreshold] at hstored

/-- The loop of `on_checkpoint_revert`: the entries of the reverted accounts are right, the others
are as before. -/
theorem revert_loop (hcodes : HashesCode codeOf) (hconf : Configured i t) {reverted : List Address}
    (htruth : ∀ a acc, st a = some acc → acc.Truthful codeOf)
    (hknown : ∀ a ∈ reverted, ∀ acc, st a = some acc → CodeKnown codeOf acc) :
    let t' := reverted.foldl (fun t a => (t.setThreshold a none).updateLoadedAccount (st a) a) t
    Configured i t' ∧ (∀ a ∈ reverted, CoherentAt i codeOf t' a (st a)) ∧
      ∀ a ∉ reverted, SameEntry t t' a := by
  induction reverted generalizing t with
  | nil => exact ⟨hconf, by simp, fun a _ => SameEntry.refl t a⟩
  | cons b reverted ih =>
    have htouch := (touches_setThreshold i t b none).trans
      (touches_updateLoadedAccount i _ (st b) b)
    obtain ⟨hb, hrest⟩ := List.forall_mem_cons.mp hknown
    obtain ⟨hconf', hlooked, hother⟩ := ih (htouch.configured hconf) hrest
    have hfirst := coherentAt_afresh (a := b) hcodes hconf (st b) (htruth b) hb
    refine ⟨hconf', ?_, ?_⟩
    · intro a ha
      by_cases hagain : a ∈ reverted
      · exact hlooked a hagain
      · obtain rfl | hmem := List.mem_cons.mp ha
        · exact hfirst.congr (hother a hagain)
        · exact absurd hmem hagain
    · intro a ha
      obtain ⟨hne, hnot⟩ := not_or.mp (mt List.mem_cons.mpr ha)
      exact (htouch.others a hne).trans (hother a hnot)

/-- A revert keeps the agreement. -/
theorem Coherent.revert (h : Coherent i codeOf t st) (hcodes : HashesCode codeOf)
    {reverted : List Address} (hnamed : ∀ a ∈ reverted, RevertsTo codeOf (st a) (st' a))
    (hother : ∀ a ∉ reverted, st' a = st a)
    (hknown : ∀ a ∈ reverted, ∀ acc, st' a = some acc → CodeKnown codeOf acc) :
    Coherent i codeOf (t.onCheckpointRevert reverted st') st' := by
  have htruth : ∀ a acc, st' a = some acc → acc.Truthful codeOf := by
    intro a acc hacc
    by_cases ha : a ∈ reverted
    · have hrevert := hnamed a ha
      rw [hacc] at hrevert
      cases hst : st a with
      | none => simp [hst, RevertsTo] at hrevert
      | some before =>
        rw [hst] at hrevert
        exact hrevert.1
    · rw [hother a ha] at hacc
      exact h.truthful a acc hacc
  obtain ⟨hconf, hlooked, hkept⟩ := revert_loop hcodes h.configured htruth hknown
  rw [onCheckpointRevert, h.configured.trackingEnabled]
  refine ⟨hconf, ?_, htruth, ?_⟩
  · by_cases hs : i.sender ∈ reverted
    · have hrevert := hnamed i.sender hs
      intro hnone
      rw [hnone] at hrevert
      cases hst : st i.sender with
      | none => exact h.sender hst
      | some before => simp [hst, RevertsTo] at hrevert
    · rw [hother _ hs]
      exact h.sender
  · intro a
    by_cases ha : a ∈ reverted
    · exact hlooked a ha
    · rw [hother a ha]
      exact (h.entries a).congr (hkept a ha)

end Reverts

section Runs

/-- The accounts whose threshold the tracker may have to compute after an operation. -/
def JournalOp.lookedAt (s : JournalInner) : JournalOp → List Address
  | .transfer src _ _ => [src]
  | .transferLoaded src _ _ => [src]
  | .selfdestruct address _ => [address]
  | .createAccountCheckpoint caller _ _ => [caller]
  | .checkpointRevert journalI => s.reverted journalI
  | _ => []

/-- Every delegated account that the tracker looks at after the operation has its code loaded. -/
def CodesLoaded (codeOf : Word → Bytecode) (j : MonadJournal) (op : JournalOp)
    (j' : MonadJournal) : Prop :=
  Applies codeOf j.inner op j'.inner →
    ∀ a ∈ op.lookedAt j.inner, ∀ acc, j'.inner.state a = some acc → CodeKnown codeOf acc

/-- The tracker of the journal agrees with its accounts. -/
def MonadJournal.Coherent (i : ReserveBalanceInit) (codeOf : Word → Bytecode)
    (j : MonadJournal) : Prop :=
  Reserve.Coherent i codeOf j.reserveBalance j.inner.state

/-- A step keeps the agreement. -/
theorem MonadJournal.Coherent.step {j j' : MonadJournal} {op : JournalOp}
    (h : j.Coherent i codeOf) (hcodes : HashesCode codeOf)
    (hstep : MonadJournal.Step codeOf j op j') (hloaded : CodesLoaded codeOf j op j') :
    j'.Coherent i codeOf := by
  cases hstep with
  | fails s' hfails => exact Reserve.Coherent.load h hfails.load
  | applies s' happly =>
    have hknown := hloaded happly
    cases happly with
    | loadAccount address loadCode _ hload => exact Reserve.Coherent.load h hload
    | transfer src dst balance mid _ hload payer hsrc hdst _ hstate =>
      obtain ⟨payee, hdst⟩ := Option.ne_none_iff_exists'.mp hdst
      have hmid := Reserve.Coherent.load h hload
      have hsent := hmid.transfer hcodes balance hsrc hdst
      rw [← hstate] at hsent
      exact hsent (hknown src (List.mem_singleton_self src))
    | transferLoaded src dst balance _ payer hsrc hdst _ hstate =>
      obtain ⟨payee, hdst⟩ := Option.ne_none_iff_exists'.mp hdst
      have hsent := Reserve.Coherent.transfer h hcodes balance hsrc hdst
      rw [← hstate] at hsent
      exact hsent (hknown src (List.mem_singleton_self src))
    | balanceIncr address balance mid _ hload hthere hstate =>
      obtain ⟨acc, hacc⟩ := Option.ne_none_iff_exists'.mp hthere
      exact (Reserve.Coherent.load h hload).balanceIncr hcodes hacc hstate
    | selfdestruct address target mid _ hload acc hacc htarget hstate =>
      obtain ⟨payee, htarget⟩ := Option.ne_none_iff_exists'.mp htarget
      exact (Reserve.Coherent.load h hload).selfdestruct hcodes hacc htarget hstate
        (hknown address (List.mem_singleton_self address))
    | createAccountCheckpoint caller address balance _ payer acc hcaller _ hacc hempty hstate =>
      exact Reserve.Coherent.createAccount h hcodes hcaller hacc hempty hstate
        (hknown caller (List.mem_singleton_self caller))
    | setCodeWithHash address code hash _ hthere hhash hstate =>
      obtain ⟨acc, hacc⟩ := Option.ne_none_iff_exists'.mp hthere
      exact Reserve.Coherent.setCode h hcodes hacc hhash hstate
    | checkpoint => exact h
    | checkpointCommit => exact h
    | checkpointRevert journalI _ hnamed hother =>
      exact Reserve.Coherent.revert h hcodes hnamed hother hknown

/-- The accounts at the start of the execution, as the handler leaves them: the sender is loaded
with its code and given to the tracker, and nobody else has less than before the transaction. -/
structure Started (i : ReserveBalanceInit) (codeOf : Word → Bytecode) (st : EvmState) : Prop where
  sender : ∃ acc, st i.sender = some acc ∧ i.senderAccount = some acc ∧ CodeKnown codeOf acc
  truthful : ∀ a acc, st a = some acc → acc.Truthful codeOf
  others : ∀ a acc, a ≠ i.sender → st a = some acc → acc.originalInfo.balance ≤ acc.info.balance

/-- The tracker that is told of the transaction knows its data. -/
theorem configured_start (i : ReserveBalanceInit) : Configured i (start i) :=
  ⟨rfl, rfl, monadEight_isEnabledIn i.spec, rfl, rfl, rfl, rfl⟩

/-- After `init` the tracker agrees with the accounts. -/
theorem coherent_init (hcodes : HashesCode codeOf) (hstart : Started i codeOf st) :
    Coherent i codeOf (init i) st := by
  obtain ⟨sender, hst, hgiven, hknown⟩ := hstart.sender
  have htouch := touches_updateLoadedAccount i (start i) i.senderAccount i.sender
  refine ⟨htouch.configured (configured_start i), hst ▸ Option.some_ne_none sender,
    hstart.truthful, ?_⟩
  intro a
  by_cases ha : a = i.sender
  · rw [ha, hst, init, hgiven]
    exact judgedAt_updateLoadedAccount hcodes (configured_start i)
      (hstart.truthful _ sender hst) (fun _ => hknown) (fun _ hstored => nomatch hstored)
  · apply CoherentAt.congr ?_ (htouch.others a ha)
    cases hacc : st a with
    | none => exact ⟨Finset.notMem_empty a, rfl⟩
    | some acc =>
      have hpassed : a ∉ (start i).failed := Finset.notMem_empty a
      refine ⟨iff_of_false hpassed ?_, ?_, fun hfailed => absurd hfailed hpassed⟩
      · rintro ⟨-, -, -, hbelow⟩
        have hkept := hstart.others a acc ha hacc
        rw [if_neg ha, reserve] at hbelow
        omega
      · intro threshold hstored
        cases hstored

/-- A step of the journal. -/
def AnyStep (codeOf : Word → Bytecode) (j j' : MonadJournal) : Prop :=
  ∃ op, MonadJournal.Step codeOf j op j'

/-- A step after which the tracker looks at delegated accounts only with their code loaded. -/
def LoadedStep (codeOf : Word → Bytecode) (j j' : MonadJournal) : Prop :=
  ∃ op, MonadJournal.Step codeOf j op j' ∧ CodesLoaded codeOf j op j'

/-- Such steps keep the agreement from the start of the execution on. -/
theorem MonadJournal.coherent_of_run (hcodes : HashesCode codeOf) {inner : JournalInner}
    (hstart : Started i codeOf inner.state) {j : MonadJournal}
    (hrun : Relation.ReflTransGen (LoadedStep codeOf) ⟨inner, init i⟩ j) : j.Coherent i codeOf := by
  induction hrun with
  | refl => exact coherent_init hcodes hstart
  | tail _ hstep ih =>
    obtain ⟨op, hstep, hloaded⟩ := hstep
    exact ih.step hcodes hstep hloaded

section Marks

/-- The marks that the transaction has set so far: none. -/
structure Unmarked (st : EvmState) : Prop where
  selfdestructed : ∀ a acc, st a = some acc → acc.isSelfdestructedLocally = false
  created : ∀ a acc, st a = some acc → acc.isCreatedLocally = false

/-- No account that the transaction has created was self-destructed by an earlier one of the
journal. -/
def OwnMarks (st : EvmState) : Prop :=
  ∀ a acc, st a = some acc → acc.isCreatedLocally = true → acc.selfdestructedBefore = false

/-- A creation that succeeds is of an account that no earlier transaction of the journal has
self-destructed. -/
def CreatesNew (codeOf : Word → Bytecode) (j : MonadJournal) (op : JournalOp)
    (j' : MonadJournal) : Prop :=
  Applies codeOf j.inner op j'.inner → ∀ caller address balance,
    op = .createAccountCheckpoint caller address balance →
    ∀ acc, j.inner.state address = some acc → acc.selfdestructedBefore = false

/-- A change of one account that keeps its two marks. -/
theorem OwnMarks.modify (h : OwnMarks st) (a : Address) {f : Account → Account}
    (hf : ∀ acc, (f acc).selfdestructedBefore = acc.selfdestructedBefore ∧
      (f acc).isCreatedLocally = acc.isCreatedLocally) : OwnMarks (modifyAccount st a f) := by
  intro b acc hacc hcreated
  by_cases hb : b = a
  · subst hb
    rw [modifyAccount, Function.update_self, Option.map_eq_some_iff] at hacc
    obtain ⟨before, hst, rfl⟩ := hacc
    rw [(hf before).1]
    exact h b before hst ((hf before).2 ▸ hcreated)
  · rw [modifyAccount_of_ne hb] at hacc
    exact h b acc hacc hcreated

/-- Payments keep the marks. -/
theorem OwnMarks.moveBalance (h : OwnMarks st) (src dst : Address) (balance : ℕ) :
    OwnMarks (moveBalance st src dst balance) := by
  apply OwnMarks.modify
  · exact OwnMarks.modify h src fun _ => ⟨rfl, rfl⟩
  · exact fun _ => ⟨rfl, rfl⟩

/-- Loads bring in accounts that the transaction has not created. -/
theorem OwnMarks.load (h : OwnMarks st) (hload : Loads codeOf st st') : OwnMarks st' := by
  intro a acc' hacc' hcreated
  have hone := hload a
  rw [hacc'] at hone
  cases hst : st a with
  | none =>
    rw [hst] at hone
    rw [hone.1.isCreatedLocally] at hcreated
    cases hcreated
  | some acc =>
    rw [hst] at hone
    obtain ⟨-, heq, -⟩ := hone
    rw [heq] at hcreated ⊢
    exact h a acc hst hcreated

/-- Reverts set no mark. -/
theorem OwnMarks.revert (h : OwnMarks st) {reverted : List Address}
    (hnamed : ∀ a ∈ reverted, RevertsTo codeOf (st a) (st' a))
    (hother : ∀ a ∉ reverted, st' a = st a) : OwnMarks st' := by
  intro a acc' hacc' hcreated
  by_cases ha : a ∈ reverted
  · have hrevert := hnamed a ha
    rw [hacc'] at hrevert
    cases hst : st a with
    | none => simp [hst, RevertsTo] at hrevert
    | some acc =>
      rw [hst] at hrevert
      obtain ⟨-, -, hbefore, -, hkept⟩ := hrevert
      rw [hbefore]
      exact h a acc hst (hkept hcreated)
  · rw [hother a ha] at hacc'
    exact h a acc' hacc' hcreated

/-- Step lemma: the accounts that the transaction creates stay its own. -/
theorem OwnMarks.step {j j' : MonadJournal} {op : JournalOp} (h : OwnMarks j.inner.state)
    (hstep : MonadJournal.Step codeOf j op j') (hnew : CreatesNew codeOf j op j') :
    OwnMarks j'.inner.state := by
  cases hstep with
  | fails s' hfails => exact h.load hfails.load
  | applies s' happly =>
    have hcreates := hnew happly
    cases happly with
    | loadAccount address loadCode _ hload => exact h.load hload
    | transfer src dst balance mid _ hload payer _ _ _ hstate =>
      exact hstate ▸ (h.load hload).moveBalance src dst balance
    | transferLoaded src dst balance _ payer _ _ _ hstate =>
      exact hstate ▸ h.moveBalance src dst balance
    | balanceIncr address balance mid _ hload _ hstate =>
      dsimp only
      rw [hstate]
      exact OwnMarks.modify (h.load hload) address fun _ => ⟨rfl, rfl⟩
    | selfdestruct address target mid _ hload acc _ _ hstate =>
      have hmid := h.load hload
      have hpaid : OwnMarks (if address = target then mid
          else Reserve.moveBalance mid address target acc.info.balance) := by
        split
        · exact hmid
        · exact hmid.moveBalance address target _
      dsimp only
      rw [hstate, destroyAccount]
      split
      · exact OwnMarks.modify hpaid address fun _ => ⟨rfl, rfl⟩
      · exact hpaid
    | createAccountCheckpoint caller address balance _ payer acc _ _ hloaded _ hstate =>
      intro b created hcreated hmark
      dsimp only at hcreated
      rw [hstate] at hcreated
      by_cases hb : b = address
      · subst hb
        obtain ⟨gained, hgot, -⟩ := moveBalance_dst hloaded caller balance
        rw [modifyAccount_self hgot] at hcreated
        cases hcreated
        exact hcreates caller b balance rfl acc hloaded
      · rw [modifyAccount_of_ne hb] at hcreated
        exact h.moveBalance caller address balance b created hcreated hmark
    | setCodeWithHash address code hash _ _ _ hstate =>
      dsimp only
      rw [hstate]
      exact OwnMarks.modify h address fun _ => ⟨rfl, rfl⟩
    | checkpoint => exact h
    | checkpointCommit => exact h
    | checkpointRevert journalI _ hnamed hother => exact h.revert hnamed hother

/-- Where the transaction has created only accounts of its own, the tracker's test lets off exactly
those that it has also self-destructed. -/
theorem OwnMarks.violates_iff (h : OwnMarks st) (hst : st a = some acc) :
    Violates i codeOf a acc ↔ ViolatesReserve i codeOf a acc := by
  have hoff : Exempt i acc ↔ LetOff i acc := by
    rw [Exempt, LetOff, Account.isSelfdestructed]
    constructor
    · rintro ⟨hspec, hdestroyed, hcreated⟩
      rw [h a acc hst hcreated, Bool.or_false] at hdestroyed
      exact ⟨hspec, hdestroyed, hcreated⟩
    · rintro ⟨hspec, hdestroyed, hcreated⟩
      rw [hdestroyed, Bool.true_or]
      exact ⟨hspec, rfl, hcreated⟩
  rw [Violates, ViolatesReserve, ViolatesUnless, ViolatesUnless, hoff]

end Marks

/-- A step after which the tracker looks at delegated accounts only with their code loaded, and that
creates no account self-destructed by an earlier transaction of the journal. -/
def ProperStep (codeOf : Word → Bytecode) (j j' : MonadJournal) : Prop :=
  ∃ op, MonadJournal.Step codeOf j op j' ∧ CodesLoaded codeOf j op j' ∧ CreatesNew codeOf j op j'

/-- Run lemma: the accounts that the transaction has created are its own. -/
theorem OwnMarks.of_run {inner : JournalInner} (hmarks : Unmarked inner.state) {j : MonadJournal}
    (hrun : Relation.ReflTransGen (ProperStep codeOf) ⟨inner, init i⟩ j) :
    OwnMarks j.inner.state := by
  induction hrun with
  | refl =>
    intro a acc hacc hcreated
    rw [hmarks.created a acc hacc] at hcreated
    cases hcreated
  | tail _ hstep ih =>
    obtain ⟨op, hstep, -, hnew⟩ := hstep
    exact ih.step hstep hnew

/-- In every run whose steps look at delegated accounts only with their code loaded, and create no
account that an earlier transaction of the journal has self-destructed, the tracker reports a
violation exactly when a loaded account violates the reserve rule. -/
theorem hasViolation_iff (hcodes : HashesCode codeOf) {inner : JournalInner}
    (hstart : Started i codeOf inner.state) (hmarks : Unmarked inner.state) {j : MonadJournal}
    (hrun : Relation.ReflTransGen (ProperStep codeOf) ⟨inner, init i⟩ j) :
    j.reserveBalance.hasViolation = true ↔
      ∃ a acc, j.inner.state a = some acc ∧ ViolatesReserve i codeOf a acc := by
  have hloaded : ∀ j j', ProperStep codeOf j j' → LoadedStep codeOf j j' :=
    fun _ _ ⟨op, hstep, hloaded, _⟩ => ⟨op, hstep, hloaded⟩
  have hcoherent := MonadJournal.coherent_of_run hcodes hstart
    (Relation.ReflTransGen.mono hloaded _ _ hrun)
  have hown := OwnMarks.of_run hmarks hrun
  rw [Reserve.Coherent.reports_iff hcoherent]
  constructor
  · rintro ⟨a, acc, hacc, hviolates⟩
    exact ⟨a, acc, hacc, (hown.violates_iff hacc).mp hviolates⟩
  · rintro ⟨a, acc, hacc, hviolates⟩
    exact ⟨a, acc, hacc, (hown.violates_iff hacc).mpr hviolates⟩

section Delegation

/-- Loading one account, or its code. -/
theorem loads_update (htruth : ∀ a acc, st a = some acc → acc.Truthful codeOf) {acc : Account}
    (h : LoadsTo codeOf (st a) (some acc)) : Loads codeOf st (Function.update st a (some acc)) := by
  intro b
  by_cases hb : b = a
  · rw [hb, Function.update_self]
    exact h
  · rw [Function.update_of_ne hb]
    cases hst : st b with
    | none => trivial
    | some other => exact ⟨htruth b other hst, rfl, fun _ => rfl⟩

/-- Truth is kept when a true account is stored. -/
theorem truthful_update (htruth : ∀ a acc, st a = some acc → acc.Truthful codeOf) {acc : Account}
    (h : acc.Truthful codeOf) :
    ∀ b acc', Function.update st a (some acc) b = some acc' → acc'.Truthful codeOf := by
  intro b acc' hacc
  by_cases hb : b = a
  · rw [hb, Function.update_self] at hacc
    cases hacc
    exact h
  · rw [Function.update_of_ne hb] at hacc
    exact htruth b acc' hacc

/-- The hash of the designator of a delegation to address five. -/
def delegationHash : Word := 0x92830cc62315d404934860fe49bcf325061e0f8a1ee9b7bfecc29cc54a9953eb

/-- The codes behind the hashes: nothing, the designator, and a contract that does nothing. -/
def delegationCodeOf (hash : Word) : Bytecode :=
  if hash = 0 ∨ hash = keccakEmpty then .legacy []
  else if hash = delegationHash then .eip7702 5
  else .legacy [0x00]

/-- Only the two empty hashes stand for the empty code. -/
theorem delegationCodeOf_hashes : HashesCode delegationCodeOf := by
  intro hash
  rw [delegationCodeOf]
  split
  next hempty => simp [Bytecode.originalBytes, hempty]
  next hcode => split <;> simp [Bytecode.originalBytes, hcode]

/-- A sender without code. -/
def plainSender : Account :=
  let info : AccountInfo := ⟨100, keccakEmpty, some (.legacy [])⟩
  ⟨info, info, false, false, false⟩

/-- A delegated account, loaded with or without its code. -/
def delegatedOwner (code : Option Bytecode) : Account :=
  ⟨⟨50, delegationHash, code⟩, ⟨50, delegationHash, none⟩, false, false, false⟩

/-- A recipient without code. -/
def plainRecipient : Account :=
  let info : AccountInfo := ⟨0, keccakEmpty, none⟩
  ⟨info, info, false, false, false⟩

/-- A transaction of the sender, at address one, without fees. -/
def delegationInit : ReserveBalanceInit where
  chain := MonadChainContext.default
  spec := .monadNine
  sender := 1
  effectiveGasPrice := 0
  gasLimit := 0
  senderIsDelegated := false
  senderAccount := some plainSender

/-- Only the sender is loaded. -/
def senderState : EvmState := Function.update (fun _ => none) 1 (some plainSender)

/-- The owner, at address two, is loaded too. -/
def ownerState (code : Option Bytecode) : EvmState :=
  Function.update senderState 2 (some (delegatedOwner code))

/-- The recipient, at address three, is loaded too. -/
def recipientState : EvmState :=
  Function.update (ownerState (some (.eip7702 5))) 3 (some plainRecipient)

/-- Empty accounts are what they say. -/
theorem truthful_plain : plainSender.Truthful delegationCodeOf ∧
    plainRecipient.Truthful delegationCodeOf := by
  have hempty : delegationCodeOf keccakEmpty = .legacy [] := rfl
  refine ⟨⟨?_, ?_, fun _ => .inr (.inl rfl)⟩, ⟨?_, ?_, fun _ => .inr (.inl rfl)⟩⟩
  · intro code hcode
    cases hcode
    exact hempty
  · intro code hcode
    cases hcode
    exact hempty
  · intro code hcode
    cases hcode
  · intro code hcode
    cases hcode

/-- The owner is what it says, with and without its code. -/
theorem truthful_owner {code : Option Bytecode} (hcode : ∀ c, code = some c → c = .eip7702 5) :
    (delegatedOwner code).Truthful delegationCodeOf := by
  refine ⟨?_, ?_, fun _ => .inr (.inr rfl)⟩
  · intro c hc
    rw [hcode c hc]
    rfl
  · intro c hc
    cases hc

/-- The accounts of the start are what they say. -/
theorem truthful_sender :
    ∀ a acc, senderState a = some acc → acc.Truthful delegationCodeOf := by
  apply truthful_update ?_ truthful_plain.1
  intro a acc hacc
  cases hacc

/-- The transaction starts as the handler starts one. -/
theorem started_sender : Started delegationInit delegationCodeOf senderState where
  sender := by
    refine ⟨plainSender, rfl, rfl, fun hdelegated => ?_⟩
    cases hdelegated
  truthful := truthful_sender
  others := by
    intro a acc ha hacc
    have hnone : senderState a = none := Function.update_of_ne ha _ _
    rw [hnone] at hacc
    cases hacc

/-- The journal after the owner was loaded with its code and paid the recipient. -/
def paidJournal (t : ReserveBalanceTracker) : MonadJournal :=
  let s : JournalInner := ⟨moveBalance recipientState 2 3 10, [.accountWarmed 2,
    .accountWarmed 3, .balanceTransfer 2 3]⟩
  ⟨s, onTransfer t s.state 2 3⟩

/-- The payment of the owner, from any tracker. -/
theorem step_paidJournal (t : ReserveBalanceTracker) : MonadJournal.Step delegationCodeOf
    ⟨⟨ownerState (some (.eip7702 5)), [.accountWarmed 2]⟩, t⟩ (.transfer 2 3 10)
    (paidJournal t) := by
  apply MonadJournal.Step.applies
  refine .transfer 2 3 10 recipientState _ ?_ (delegatedOwner (some (.eip7702 5))) rfl
    (Option.some_ne_none plainRecipient) (by decide) rfl ⟨_, rfl⟩
  apply loads_update
  · apply truthful_update truthful_sender
    exact truthful_owner fun c hc => (Option.some.inj hc).symm
  · exact ⟨⟨rfl, rfl, rfl, rfl⟩, truthful_plain.2⟩

/-- Loading the owner, from any tracker. -/
theorem step_ownerState (t : ReserveBalanceTracker) (loadCode : Bool) {code : Option Bytecode}
    (hcode : ∀ c, code = some c → c = .eip7702 5) : MonadJournal.Step delegationCodeOf
      ⟨⟨senderState, []⟩, t⟩ (.loadAccount 2 loadCode)
      ⟨⟨ownerState code, [.accountWarmed 2]⟩, t⟩ := by
  apply MonadJournal.Step.applies
  refine .loadAccount 2 loadCode _ (loads_update truthful_sender ?_) ⟨_, rfl⟩
  exact ⟨⟨rfl, rfl, rfl, rfl⟩, truthful_owner hcode⟩

/-- Nothing has been marked when the transaction starts. -/
theorem unmarked_sender : Unmarked senderState := by
  have honly : ∀ a acc, senderState a = some acc → acc = plainSender := by
    intro a acc hacc
    by_cases ha : a = 1
    · rw [senderState, ha, Function.update_self] at hacc
      exact (Option.some.inj hacc).symm
    · rw [senderState, Function.update_of_ne ha] at hacc
      cases hacc
  exact ⟨fun a acc hacc => honly a acc hacc ▸ rfl, fun a acc hacc => honly a acc hacc ▸ rfl⟩

/-- Creations apart, an operation creates nothing. -/
theorem createsNew_of_ne {j j' : MonadJournal} {op : JournalOp}
    (h : ∀ caller address balance, op ≠ .createAccountCheckpoint caller address balance) :
    CreatesNew codeOf j op j' :=
  fun _ caller address balance hop => absurd hop (h caller address balance)

/-- The owner pays with its code loaded: the violation is reported. -/
theorem hasViolation_iff_delegated : ∃ j : MonadJournal, j.reserveBalance.hasViolation = true ∧
    ∃ a acc, j.inner.state a = some acc ∧
      ViolatesReserve delegationInit delegationCodeOf a acc := by
  have hcode : ∀ c, some (Bytecode.eip7702 5) = some c → c = .eip7702 5 :=
    fun c hc => (Option.some.inj hc).symm
  have hfirst : ProperStep delegationCodeOf ⟨⟨senderState, []⟩, init delegationInit⟩
      ⟨⟨ownerState (some (.eip7702 5)), [.accountWarmed 2]⟩, init delegationInit⟩ :=
    ⟨.loadAccount 2 true, step_ownerState _ true hcode, fun _ a ha => (by cases ha),
      createsNew_of_ne fun _ _ _ h => (by cases h)⟩
  have hpays : ProperStep delegationCodeOf
      ⟨⟨ownerState (some (.eip7702 5)), [.accountWarmed 2]⟩, init delegationInit⟩
      (paidJournal (init delegationInit)) := by
    refine ⟨.transfer 2 3 10, step_paidJournal _, ?_, createsNew_of_ne fun _ _ _ h => (by cases h)⟩
    intro _ a ha acc hacc _
    rw [List.mem_singleton.mp ha] at hacc
    cases hacc
    exact .inl (Option.some_ne_none _)
  have hiff := hasViolation_iff delegationCodeOf_hashes started_sender unmarked_sender
    ((Relation.ReflTransGen.single hfirst).tail hpays)
  have hreported : (paidJournal (init delegationInit)).reserveBalance.hasViolation = true := by
    decide +kernel
  exact ⟨paidJournal (init delegationInit), hreported, hiff.mp hreported⟩

/-- The owner is loaded without its code by a call that is reverted, then with it, and pays: the
violation is not reported. -/
theorem delegated_violation_missed : ∃ j : MonadJournal,
    Relation.ReflTransGen (AnyStep delegationCodeOf)
      ⟨⟨senderState, []⟩, init delegationInit⟩ j ∧
    j.reserveBalance.hasViolation = false ∧ ∃ a acc, j.inner.state a = some acc ∧
      ViolatesReserve delegationInit delegationCodeOf a acc := by
  let t := (init delegationInit).onCheckpointRevert [2] (ownerState none)
  have hcode : ∀ c, some (Bytecode.eip7702 5) = some c → c = .eip7702 5 :=
    fun c hc => (Option.some.inj hc).symm
  have hcheckpoint : AnyStep delegationCodeOf ⟨⟨senderState, []⟩, init delegationInit⟩
      ⟨⟨senderState, []⟩, init delegationInit⟩ := ⟨.checkpoint, .applies _ .checkpoint⟩
  have hfirst : AnyStep delegationCodeOf ⟨⟨senderState, []⟩, init delegationInit⟩
      ⟨⟨ownerState none, [.accountWarmed 2]⟩, init delegationInit⟩ :=
    ⟨_, step_ownerState _ false fun c hc => by cases hc⟩
  have hrevert : AnyStep delegationCodeOf
      ⟨⟨ownerState none, [.accountWarmed 2]⟩, init delegationInit⟩ ⟨⟨ownerState none, []⟩, t⟩ := by
    refine ⟨.checkpointRevert 0, .applies _ (.checkpointRevert 0 _ ?_ (fun _ _ => rfl) rfl)⟩
    intro a ha
    rw [List.mem_singleton.mp ha]
    exact ⟨truthful_owner fun c hc => (by cases hc), rfl, rfl, id, id⟩
  have hagain : AnyStep delegationCodeOf ⟨⟨ownerState none, []⟩, t⟩
      ⟨⟨ownerState (some (.eip7702 5)), [.accountWarmed 2]⟩, t⟩ := by
    have hunloaded : (delegatedOwner none).Truthful delegationCodeOf :=
      truthful_owner fun c hc => by cases hc
    have htruth := truthful_update (a := 2) truthful_sender hunloaded
    have hstate : ownerState (some (.eip7702 5)) =
        Function.update (ownerState none) 2 (some (delegatedOwner (some (.eip7702 5)))) := by
      rw [ownerState, ownerState, Function.update_idem]
    refine ⟨.loadAccount 2 true, .applies _ (.loadAccount 2 true _ ?_ ⟨_, rfl⟩)⟩
    show Loads delegationCodeOf (ownerState none) (ownerState (some (.eip7702 5)))
    rw [hstate]
    apply loads_update htruth
    exact ⟨truthful_owner hcode, rfl, fun hno => absurd rfl hno⟩
  have hpays : AnyStep delegationCodeOf
      ⟨⟨ownerState (some (.eip7702 5)), [.accountWarmed 2]⟩, t⟩ (paidJournal t) :=
    ⟨_, step_paidJournal t⟩
  have hrun := ((((Relation.ReflTransGen.single hcheckpoint).tail hfirst).tail hrevert).tail
    hagain).tail hpays
  refine ⟨paidJournal t, hrun, by decide +kernel, 2,
    (delegatedOwner (some (.eip7702 5))).withBalance 40, rfl, ?_⟩
  refine ⟨by decide, .inr rfl, fun hexempt => ?_, by decide⟩
  cases hexempt.2.1

/-- An account that an earlier transaction of the journal has self-destructed, and that has got
balance since. -/
def ruinedAccount : Account :=
  let info : AccountInfo := ⟨50, keccakEmpty, some (.legacy [])⟩
  ⟨info, info, true, false, false⟩

/-- The sender, the recipient and the account, at address four. -/
def ruinedState : EvmState :=
  Function.update (Function.update senderState 3 (some plainRecipient)) 4 (some ruinedAccount)

/-- The sender creates a contract at the account. -/
def recreatedState : EvmState := modifyAccount (moveBalance ruinedState 1 4 0) 4 Account.created

/-- The account, created anew, pays the recipient: the violation is not reported, though this
transaction has not self-destructed the account. -/
theorem recreated_violation_missed : ∃ j : MonadJournal,
    Relation.ReflTransGen (AnyStep delegationCodeOf)
      ⟨⟨senderState, []⟩, init delegationInit⟩ j ∧
    j.reserveBalance.hasViolation = false ∧ ∃ a acc, j.inner.state a = some acc ∧
      ViolatesReserve delegationInit delegationCodeOf a acc := by
  let t := init delegationInit
  have hempty : delegationCodeOf keccakEmpty = .legacy [] := rfl
  have htruthful : ruinedAccount.Truthful delegationCodeOf := by
    refine ⟨?_, ?_, fun _ => .inr (.inl rfl)⟩ <;>
    · intro code hcode
      cases hcode
      exact hempty
  have hrecipient : AnyStep delegationCodeOf ⟨⟨senderState, []⟩, t⟩
      ⟨⟨Function.update senderState 3 (some plainRecipient), []⟩, t⟩ := by
    refine ⟨.loadAccount 3 false, .applies _ (.loadAccount 3 false _ ?_ List.prefix_rfl)⟩
    exact loads_update truthful_sender ⟨⟨rfl, rfl, rfl, rfl⟩, truthful_plain.2⟩
  have hruined : AnyStep delegationCodeOf
      ⟨⟨Function.update senderState 3 (some plainRecipient), []⟩, t⟩ ⟨⟨ruinedState, []⟩, t⟩ := by
    refine ⟨.loadAccount 4 true, .applies _ (.loadAccount 4 true _ ?_ List.prefix_rfl)⟩
    exact loads_update (truthful_update truthful_sender truthful_plain.2)
      ⟨⟨rfl, rfl, rfl, rfl⟩, htruthful⟩
  have hcreates : AnyStep delegationCodeOf ⟨⟨ruinedState, []⟩, t⟩
      ⟨⟨recreatedState, []⟩, onTransfer t recreatedState 1 4⟩ :=
    ⟨.createAccountCheckpoint 1 4 0, .applies ⟨recreatedState, []⟩ (.createAccountCheckpoint 1 4 0 _
      plainSender ruinedAccount rfl (Nat.zero_le _) rfl (.inr rfl) rfl List.prefix_rfl)⟩
  have hpays : AnyStep delegationCodeOf
      ⟨⟨recreatedState, []⟩, onTransfer t recreatedState 1 4⟩
      ⟨⟨moveBalance recreatedState 4 3 10, []⟩,
        onTransfer (onTransfer t recreatedState 1 4) (moveBalance recreatedState 4 3 10) 4 3⟩ :=
    ⟨.transferLoaded 4 3 10, .applies ⟨moveBalance recreatedState 4 3 10, []⟩
      (.transferLoaded 4 3 10 _ ((ruinedAccount.withBalance 50).created) rfl
        (Option.some_ne_none plainRecipient) (by decide) rfl List.prefix_rfl)⟩
  have hrun := (((Relation.ReflTransGen.single hrecipient).tail hruined).tail hcreates).tail hpays
  refine ⟨_, hrun, by decide +kernel, 4,
    (((ruinedAccount.withBalance 50).created).withBalance 40), rfl, ?_⟩
  refine ⟨by decide, .inl (congrArg Bytecode.originalBytes hempty), fun hoff => ?_, by decide⟩
  cases hoff.2.1

end Delegation

end Runs

end SuwappuRevm.Reserve
