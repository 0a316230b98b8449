import SuwappuRevm.Staking.StepSpec

/-!
# Freshness of the accumulator entries

A reference snapshots the accumulator, which then moves only by rewards, and only a member of the
view that rewards use gets one. So a referenced entry of a later epoch is fresh or belongs to a
member, and the loop of an epoch change, which visits the members, makes the entries of the new
epoch fresh. Entries of epochs that the change skips are left as they are.
-/

namespace SuwappuRevm.Staking

open Foundations

namespace Pool

variable {cur : ℕ} {b : Bool} {p p' : Pool} {i o : ℕ}

/-- Membership in the set whose view rewards use. -/
def member (b : Bool) (p : Pool) : Prop := if b then p.inSnapshot else p.inConsensus

/-- Where references are and how old their entries can be. -/
structure EntriesOk (cur : ℕ) (b : Bool) (p : Pool) : Prop where
  le : ∀ k, (p.accumulators k).refcount ≠ 0 →
    k < 2 ^ 64 ∧ (k ≤ cur + 1 ∨ b = true ∧ k = cur + 2)
  fresh : ∀ k, cur < k → (p.accumulators k).refcount ≠ 0 →
    (p.accumulators k).value = p.acc ∨ p.member b
  consensus : p.consensusStake ≠ 0 → p.inConsensus
  snapshot : p.snapshotStake ≠ 0 → p.inSnapshot

/-- Rewards go to members. -/
theorem EntriesOk.member_of_view (hp : p.EntriesOk cur b) (hview : p.view b ≠ 0) : p.member b := by
  cases b with
  | false => exact hp.consensus hview
  | true => exact hp.snapshot hview

/-- A released entry that is still referenced keeps its value. -/
theorem releaseEntry_live {entry : RefCountedAccumulator}
    (h : (releaseEntry entry).refcount ≠ 0) :
    entry.refcount ≠ 0 ∧ (releaseEntry entry).value = entry.value := by
  unfold releaseEntry at h ⊢
  split at h
  next hzero => exact absurd hzero h
  next hne =>
    split at h
    next => exact absurd rfl h
    next hone => simp [hne, hone]

/-- A pool in which every referenced entry was referenced before, with the same value. -/
theorem EntriesOk.of_live (hp : p.EntriesOk cur b)
    (hlive : ∀ k, (p'.accumulators k).refcount ≠ 0 → (p.accumulators k).refcount ≠ 0 ∧
      (p'.accumulators k).value = (p.accumulators k).value)
    (hacc : p'.acc = p.acc) (hmember : p'.member b ↔ p.member b)
    (hconsensus : p'.consensusStake ≠ 0 → p'.inConsensus)
    (hsnapshot : p'.snapshotStake ≠ 0 → p'.inSnapshot) : p'.EntriesOk cur b where
  le k hk := hp.le k (hlive k hk).1
  fresh k hlt hk := by
    rw [(hlive k hk).2, hacc, hmember]
    exact hp.fresh k hlt (hlive k hk).1
  consensus := hconsensus
  snapshot := hsnapshot

/-- Releasing a reference leaves the live entries alone. -/
theorem release_live (p : Pool) (epoch : ℕ) (k : ℕ)
    (hk : ((p.release epoch).accumulators k).refcount ≠ 0) :
    (p.accumulators k).refcount ≠ 0 ∧
      ((p.release epoch).accumulators k).value = (p.accumulators k).value := by
  by_cases heq : k = epoch
  · subst heq
    simp only [release, setEntry, Function.update_self] at hk ⊢
    exact releaseEntry_live hk
  · simp only [release, setEntry, Function.update_of_ne heq] at hk ⊢
    exact ⟨hk, trivial⟩

/-- Quiet steps keep the entries. -/
theorem Quiet.entriesOk (hp : p.EntriesOk cur b) (h : p.Quiet cur b i o p') :
    p'.EntriesOk cur b := by
  cases h with
  | promote d => exact ⟨hp.le, hp.fresh, hp.consensus, hp.snapshot⟩
  | compound d rewards =>
    exact hp.of_live (p.release_live _) rfl Iff.rfl hp.consensus hp.snapshot
  | accrue d rewards => exact ⟨hp.le, hp.fresh, hp.consensus, hp.snapshot⟩
  | take d => exact ⟨hp.le, hp.fresh, hp.consensus, hp.snapshot⟩
  | pay d w rewards => exact hp.of_live (p.release_live _) rfl Iff.rfl hp.consensus hp.snapshot
  | commission d amount => exact ⟨hp.le, hp.fresh, hp.consensus, hp.snapshot⟩
  | reward amount hview =>
    exact ⟨hp.le, fun k _ _ => .inr (hp.member_of_view hview), hp.consensus, hp.snapshot⟩

/-- The epoch of a new reference is one or two ahead. -/
theorem activationEpoch_le (hcur : cur + 1 < 2 ^ 64) (b : Bool) :
    activationEpoch cur b < 2 ^ 64 ∧
      (activationEpoch cur b ≤ cur + 1 ∨ b = true ∧ activationEpoch cur b = cur + 2) := by
  cases b with
  | false =>
    have hact : activationEpoch cur false = cur + 1 := u64Add_one hcur
    omega
  | true =>
    simp only [activationEpoch, if_true, u64Add, true_and]
    omega

/-- A new reference is fresh. -/
theorem EntriesOk.retain (hcur : cur + 1 < 2 ^ 64) (hp : p.EntriesOk cur b) :
    (p.retain (activationEpoch cur b)).EntriesOk cur b := by
  refine ⟨fun k hk => ?_, fun k hlt hk => ?_, hp.consensus, hp.snapshot⟩
  · by_cases heq : k = activationEpoch cur b
    · rw [heq]
      exact activationEpoch_le hcur b
    · simp only [Pool.retain, setEntry, Function.update_of_ne heq] at hk
      exact hp.le k hk
  · by_cases heq : k = activationEpoch cur b
    · refine .inl ?_
      simp only [Pool.retain, setEntry, heq, Function.update_self]
    · simp only [Pool.retain, setEntry, Function.update_of_ne heq] at hk ⊢
      exact hp.fresh k hlt hk

/-- Entering steps keep the entries. -/
theorem Enter.entriesOk (hcur : cur + 1 < 2 ^ 64) (hp : p.EntriesOk cur b)
    (h : p.Enter cur b i p') : p'.EntriesOk cur b := by
  cases h with
  | join d amount hamount hsettled =>
    have hretain : (p.retainIf ((p.delegators d).trackEpoch b = 0)
        (activationEpoch cur b)).EntriesOk cur b := by
      by_cases hneed : (p.delegators d).trackEpoch b = 0
      · simp only [retainIf, hneed, if_true]
        have hnew := hp.retain hcur
        exact ⟨hnew.le, hnew.fresh, hnew.consensus, hnew.snapshot⟩
      · simp only [retainIf, hneed, if_false]
        exact ⟨hp.le, hp.fresh, hp.consensus, hp.snapshot⟩
    exact ⟨hretain.le, hretain.fresh, hp.consensus, hp.snapshot⟩
  | leave d w amount hamount hle hpool hfree =>
    have hretain := hp.retain hcur
    exact ⟨hretain.le, hretain.fresh, hp.consensus, hp.snapshot⟩

/-- Runs keep the entries. -/
theorem Run.entriesOk (hcur : cur + 1 < 2 ^ 64) (hp : p.EntriesOk cur b)
    (h : p.Run cur b i o p') : p'.EntriesOk cur b := by
  have hquiet {p' : Pool} {o : ℕ} {i : ℕ} (h : p.QuietRun cur b i o p') : p'.EntriesOk cur b :=
    h.preserves (EntriesOk cur b) (fun _ _ _ _ hp hstep => hstep.entriesOk hp) hp
  cases h with
  | quiet hrun => exact hquiet hrun
  | enter hrun hstep => exact hstep.entriesOk hcur (hquiet hrun)

/-- A snapshot keeps the entries. -/
theorem SnapshotTo.entriesOk (hp : p.EntriesOk cur false) (h : p.SnapshotTo p') :
    p'.EntriesOk cur true := by
  refine ⟨fun k hk => ?_, fun k hlt hk => ?_, fun hne => ?_, fun hne => ?_⟩
  · rw [h.accumulators_eq] at hk
    obtain ⟨hbound, hle⟩ := hp.le k hk
    exact ⟨hbound, by simp at hle; omega⟩
  · rw [h.accumulators_eq] at hk ⊢
    rw [h.acc_eq]
    exact (hp.fresh k hlt hk).imp_right h.inSnapshot_iff.mpr
  · by_contra hnot
    rcases h.consensusStake_of_not_mem hnot with hzero | ⟨hsame, hout⟩
    · exact hne hzero
    · exact hout (hp.consensus (hsame ▸ hne))
  · by_contra hnot
    have hout : ¬p.inConsensus := fun hmem => hnot (h.inSnapshot_iff.mpr hmem)
    rcases h.snapshotStake_of_not_mem hout with hzero | ⟨hsame, hold⟩
    · exact hne hzero
    · exact hold (hp.snapshot (hsame ▸ hne))

/-- A later epoch leaves nothing referenced but the epochs up to the next one. -/
theorem EntriesOk.later (hp : p.EntriesOk cur b) {next k : ℕ} (hlt : cur < next)
    (hk : (p.accumulators k).refcount ≠ 0) (hafter : next < k) :
    k = next + 1 ∧ u64Add next 1 = k ∧ b = true ∧ k = cur + 2 := by
  obtain ⟨hbound, hle⟩ := hp.le k hk
  have hboundary : b = true ∧ k = cur + 2 := by
    rcases hle with hle | hle
    · omega
    · exact hle
  have hnext : k = next + 1 := by omega
  exact ⟨hnext, by rw [hnext]; exact u64Add_one (by omega), hboundary⟩

/-- Evolutions keep the entries. -/
theorem Evolves.entriesOk {cur' : ℕ} {b' : Bool} (hcur : cur + 1 < 2 ^ 64)
    (hp : p.EntriesOk cur b) (h : p.Evolves cur b cur' b' p') : p'.EntriesOk cur' b' := by
  -- references stay in the range of the new epoch
  have hle {next : ℕ} (hlt : cur < next) (k : ℕ) (hk : (p.accumulators k).refcount ≠ 0) :
      k < 2 ^ 64 ∧ (k ≤ next + 1 ∨ false = true ∧ k = next + 2) := by
    obtain ⟨hbound, hle⟩ := hp.le k hk
    exact ⟨hbound, .inl (by omega)⟩
  cases h with
  | idle => exact hp
  | run hrun => exact hrun.entriesOk hcur hp
  | snapshot hboundary hsnap =>
    subst hboundary
    exact hsnap.entriesOk hp
  | refresh next hlt hbound hmem =>
    refine ⟨fun k hk => ?_, fun k hafter hk => .inl ?_, hp.consensus, hp.snapshot⟩
    · rw [refreshed_refcount] at hk
      exact hle hlt k hk
    · rw [refreshed_refcount] at hk
      obtain ⟨-, hnext, -⟩ := hp.later hlt hk hafter
      exact p.refreshed_value (.inr hnext.symm) hk
  | skip next hlt hbound hmem =>
    refine ⟨hle hlt, fun k hafter hk => .inl ?_, hp.consensus, hp.snapshot⟩
    obtain ⟨-, -, hboundary, -⟩ := hp.later hlt hk hafter
    subst hboundary
    exact (hp.fresh k (by omega) hk).resolve_right hmem

/-- An entry is unreferenced or holds the accumulator. -/
def EntryFresh (k : ℕ) (p : Pool) : Prop :=
  (p.accumulators k).refcount ≠ 0 → (p.accumulators k).value = p.acc

/-- The accumulator has only moved up from a value, and an entry is fresh as long as it has not. -/
structure FreshAt (a k : ℕ) (p : Pool) : Prop where
  le : a ≤ p.acc
  fresh : p.acc = a → p.EntryFresh k

/-- A pool in which every referenced entry was referenced before, with the same value. -/
theorem FreshAt.of_live {a k : ℕ} (h : p.FreshAt a k)
    (hlive : (p'.accumulators k).refcount ≠ 0 → (p.accumulators k).refcount ≠ 0 ∧
      (p'.accumulators k).value = (p.accumulators k).value)
    (hacc : p'.acc = p.acc) : p'.FreshAt a k where
  le := h.le.trans_eq hacc.symm
  fresh hsame hk := by
    obtain ⟨hold, hvalue⟩ := hlive hk
    rw [hvalue, hacc]
    exact h.fresh (hacc.symm.trans hsame) hold

/-- A quiet step that is no reward keeps the accumulator. -/
theorem Quiet.reward_or_acc_eq (h : p.Quiet cur b i o p') :
    (∃ amount, p' = p.reward cur b amount) ∨ p'.acc = p.acc := by
  cases h with
  | reward amount hview => exact .inl ⟨_, rfl⟩
  | _ => exact .inr rfl

/-- A quiet step references no entry, and leaves what is still referenced as it was. -/
theorem Quiet.entry (h : p.Quiet cur b i o p') (k : ℕ) :
    (p'.accumulators k).refcount ≤ (p.accumulators k).refcount ∧
      ((p'.accumulators k).refcount ≠ 0 → (p.accumulators k).refcount ≠ 0 ∧
        (p'.accumulators k).value = (p.accumulators k).value) := by
  have hrelease (epoch : ℕ) :
      ((p.release epoch).accumulators k).refcount ≤ (p.accumulators k).refcount := by
    by_cases heq : k = epoch
    · subst heq
      simp only [release, setEntry, Function.update_self, releaseEntry]
      split_ifs
      · exact le_rfl
      · exact Nat.zero_le _
      · exact Nat.sub_le _ _
    · simp only [release, setEntry, Function.update_of_ne heq, le_refl]
  cases h with
  | compound d rewards => exact ⟨hrelease _, p.release_live _ k⟩
  | pay d w rewards => exact ⟨hrelease _, p.release_live _ k⟩
  | _ => exact ⟨le_rfl, fun hk => ⟨hk, rfl⟩⟩

/-- Quiet runs leave what is still referenced as it was. -/
theorem QuietRun.live {k : ℕ} (h : p.QuietRun cur b i o p')
    (hk : (p'.accumulators k).refcount ≠ 0) :
    (p.accumulators k).refcount ≠ 0 ∧
      (p'.accumulators k).value = (p.accumulators k).value := by
  induction h with
  | refl => exact ⟨hk, rfl⟩
  | step _ hstep ih =>
    obtain ⟨hlive, hvalue⟩ := (hstep.entry k).2 hk
    obtain ⟨hlive', hvalue'⟩ := ih hlive
    exact ⟨hlive', hvalue.trans hvalue'⟩

/-- An entering step keeps the accumulator. -/
theorem Enter.acc_eq (h : p.Enter cur b i p') : p'.acc = p.acc := by
  cases h <;> rfl

/-- An entering step leaves an entry alone or takes a reference to it, in its own epoch. -/
theorem Enter.entry (h : p.Enter cur b i p') (k : ℕ) :
    p'.accumulators k = p.accumulators k ∨ k = activationEpoch cur b ∧
      p'.accumulators k = ⟨p'.acc, u64Add (p.accumulators k).refcount 1⟩ := by
  have hretain : (p.retain (activationEpoch cur b)).accumulators k = p.accumulators k ∨
      k = activationEpoch cur b ∧ (p.retain (activationEpoch cur b)).accumulators k =
        ⟨p.acc, u64Add (p.accumulators k).refcount 1⟩ := by
    by_cases hk : k = activationEpoch cur b
    · subst hk
      exact .inr ⟨rfl, Function.update_self ..⟩
    · exact .inl (Function.update_of_ne hk ..)
  cases h with
  | join d amount =>
    by_cases hneed : (p.delegators d).trackEpoch b = 0
    · have hentries : (p.join b (activationEpoch cur b) d i).accumulators =
        (p.retain (activationEpoch cur b)).accumulators := if_pos hneed
      rw [hentries]
      exact hretain
    · exact .inl (congrFun (if_neg hneed) k)
  | leave d w amount => exact hretain

/-- Quiet steps keep an entry fresh until a reward. -/
theorem Quiet.freshAt {a k : ℕ} (h : p.FreshAt a k) (hstep : p.Quiet cur b i o p') :
    p'.FreshAt a k := by
  rcases hstep.reward_or_acc_eq with ⟨amount, rfl⟩ | hacc
  · have hgrows : p.acc ≤ (p.reward cur b amount).acc := Nat.le_add_right ..
    refine ⟨h.le.trans hgrows, fun hsame hk => ?_⟩
    have hold : p.acc = a := le_antisymm (hgrows.trans_eq hsame) h.le
    exact (h.fresh hold hk).trans (hold.trans hsame.symm)
  · exact h.of_live (hstep.entry k).2 hacc

/-- Evolutions keep an entry fresh until a reward. -/
theorem Evolves.freshAt {a k cur' : ℕ} {b' : Bool} (h : p.FreshAt a k)
    (hstep : p.Evolves cur b cur' b' p') : p'.FreshAt a k := by
  have hquiet {q : Pool} {i o : ℕ} (hrun : p.QuietRun cur b i o q) : q.FreshAt a k :=
    hrun.preserves (FreshAt a k) (fun _ _ _ _ h hstep => hstep.freshAt h) h
  cases hstep with
  | idle => exact h
  | run hrun =>
    cases hrun with
    | quiet hrun => exact hquiet hrun
    | enter hrun henter =>
      have hacc := henter.acc_eq
      have hbefore := hquiet hrun
      refine ⟨hbefore.le.trans_eq hacc.symm, fun hsame hk => ?_⟩
      rcases henter.entry k with hkept | ⟨-, hwritten⟩
      · rw [hkept] at hk ⊢
        exact (hbefore.fresh (hacc.symm.trans hsame) hk).trans hacc.symm
      · rw [hwritten]
  | snapshot hboundary hsnap =>
    refine h.of_live (fun hk => ?_) hsnap.acc_eq
    rw [hsnap.accumulators_eq] at hk ⊢
    exact ⟨hk, rfl⟩
  | refresh next hlt hbound hmem =>
    refine ⟨h.le, fun hsame hk => ?_⟩
    rw [refreshed_refcount] at hk
    by_cases heq : k = cur' ∨ k = u64Add cur' 1
    · exact p.refreshed_value heq hk
    · rw [p.refreshed_of_ne heq]
      exact h.fresh hsame hk
  | skip next hlt hbound hmem => exact ⟨h.le, h.fresh⟩

/-- An evolution that references an entry leaves it fresh. -/
theorem Evolves.entryFresh_of_lt {k cur' : ℕ} {b' : Bool} (hstep : p.Evolves cur b cur' b' p')
    (hmore : (p.accumulators k).refcount < (p'.accumulators k).refcount) : p'.EntryFresh k := by
  have hquiet {q : Pool} {i o : ℕ} (hrun : p.QuietRun cur b i o q) :
      (q.accumulators k).refcount ≤ (p.accumulators k).refcount :=
    hrun.preserves (fun q => (q.accumulators k).refcount ≤ (p.accumulators k).refcount)
      (fun _ _ _ _ hle hstep => (hstep.entry k).1.trans hle) le_rfl
  cases hstep with
  | idle => exact absurd hmore (lt_irrefl _)
  | run hrun =>
    cases hrun with
    | quiet hrun => exact absurd (hquiet hrun) (not_le.mpr hmore)
    | enter hrun henter =>
      rcases henter.entry k with hkept | ⟨-, hwritten⟩
      · rw [hkept] at hmore
        exact absurd (hquiet hrun) (not_le.mpr hmore)
      · intro _
        rw [hwritten]
  | snapshot hboundary hsnap =>
    rw [hsnap.accumulators_eq] at hmore
    exact absurd hmore (lt_irrefl _)
  | refresh next hlt hbound hmem =>
    rw [refreshed_refcount] at hmore
    exact absurd hmore (lt_irrefl _)
  | skip next hlt hbound hmem => exact absurd hmore (lt_irrefl _)

/-- The entries of an empty pool. -/
theorem entriesOk_empty (v : ValId) : (Storage.empty.pool v).EntriesOk 0 false :=
  ⟨fun _ h => absurd rfl h, fun _ _ h => absurd rfl h, fun h => absurd rfl h,
    fun h => absurd rfl h⟩

end Pool

section Reachable

variable {guard : Storage → Message × StakingCall → Storage → Prop} {s s' : Storage}

/-- The entries of every pool, in every reachable state whose epoch is below its last value. -/
theorem reachable_entriesOk (h : Reachable stakingStep guard .empty s)
    (hcur : s.epoch + 1 < 2 ^ 64) (v : ValId) :
    (s.pool v).EntriesOk s.epoch s.inBoundary :=
  reachable_pool Pool.EntriesOk Pool.entriesOk_empty
    (fun _ _ _ _ _ _ horder hp hevolves => hevolves.entriesOk horder.1 hp) h hcur v

/-- All referenced entries of the epochs that a change from `s` to `s'` begins or skips hold the
accumulator at the change. -/
def FreshAfterChange (s s' : Storage) : Prop :=
  ∀ v k, s.epoch < k → k ≤ s'.epoch → (s'.accumulators k v).refcount ≠ 0 →
    (s'.accumulators k v).value = (s.validators v).accumulatedRewardPerToken

/-- All referenced entries of the epochs strictly between two hold the accumulator. -/
def SkippedFresh (s : Storage) (next : ℕ) : Prop :=
  ∀ v k, s.epoch < k → k < next → (s.accumulators k v).refcount ≠ 0 →
    (s.accumulators k v).value = (s.validators v).accumulatedRewardPerToken

/-- An entry that is fresh in a state stays fresh on a run that leaves the accumulator. -/
theorem entryFresh_of_unrewarded {t : Storage} (hs : Reachable stakingStep guard .empty s)
    (ht : Reachable stakingStep guard s t) (hcur : t.epoch + 1 < 2 ^ 64) {v : ValId} {k : ℕ}
    (hfresh : (s.pool v).EntryFresh k) (hacc : (t.pool v).acc = (s.pool v).acc) :
    (t.pool v).EntryFresh k := by
  have hrun : (t.pool v).FreshAt (s.pool v).acc k := by
    clear hacc
    induction ht with
    | start => exact ⟨le_rfl, fun _ => hfresh⟩
    | @call t t' tx hreach hstep hg ih =>
      have hle := stakingStep_epoch_le hstep
      obtain ⟨hreg, horder⟩ := reachable_inOrder (hs.trans hreach) (by omega)
      obtain ⟨-, heffect⟩ := stakingStep_effect hreg horder hstep
      exact (heffect.evolves v).freshAt (ih (by omega))
  exact hrun.fresh hacc

/-- A call that references an entry leaves it fresh. -/
theorem entryFresh_of_reference (hs : Reachable stakingStep guard .empty s)
    (hcur : s.epoch + 1 < 2 ^ 64) {tx : Message × StakingCall} (hstep : stakingStep s tx = .ok s')
    {v : ValId} {k : ℕ} (hmore : (s.accumulators k v).refcount < (s'.accumulators k v).refcount) :
    (s'.pool v).EntryFresh k := by
  obtain ⟨hreg, horder⟩ := reachable_inOrder hs hcur
  obtain ⟨-, heffect⟩ := stakingStep_effect hreg horder hstep
  exact (heffect.evolves v).entryFresh_of_lt hmore

/-- The skipped entries of a state are fresh if each of them was referenced by a call since which
its validator has got no reward. -/
theorem skippedFresh_of_unrewarded {t : Storage} {next : Fin (2 ^ 64)}
    (hrewards : ∀ v k, t.epoch < k → k < next → (t.accumulators k v).refcount ≠ 0 →
      ∃ s tx s', Reachable stakingStep guard .empty s ∧ stakingStep s tx = .ok s' ∧
        guard s tx s' ∧ (s.accumulators k v).refcount < (s'.accumulators k v).refcount ∧
        Reachable stakingStep guard s' t ∧ (t.pool v).acc = (s'.pool v).acc) :
    SkippedFresh t next := by
  intro v k hafter hbefore hlive
  obtain ⟨s, tx, s', hs, hstep, hg, hmore, ht, hacc⟩ := hrewards v k hafter hbefore hlive
  have hle : s'.epoch ≤ t.epoch :=
    ht.invariant (fun t => s'.epoch ≤ t.epoch) le_rfl
      fun _ _ _ ih hstep _ => ih.trans (stakingStep_epoch_le hstep)
  have hbound := next.isLt
  have hfirst := stakingStep_epoch_le hstep
  have hreferenced := entryFresh_of_reference hs (by omega) hstep hmore
  exact entryFresh_of_unrewarded (.call tx hs hstep hg) ht (by omega) hreferenced hacc hlive

/-- An accepted epoch change changes the epoch. -/
theorem epochChange_eq_ok {msg : Message} {next : Fin (2 ^ 64)}
    (h : stakingStep s (msg, .syscallOnEpochChange next) = .ok s') :
    s.epoch < next ∧ s' = changeEpoch s next := by
  simp only [stakingStep, bind_eq_ok, pure_eq_ok, runStakingWrite] at h
  obtain ⟨answer, h, rfl⟩ := h
  obtain ⟨hvalue, h⟩ := notPayable_eq_ok h
  simp only [handleSyscallOnEpochChange, bind_eq_ok, failIf_eq_ok, pure_eq_ok, income, hvalue,
    Storage.credit_zero] at h
  obtain ⟨-, -, -, -, -, hlt, rfl⟩ := h
  exact ⟨not_le.mp hlt, rfl⟩

/-- The entries of an epoch change: those of the new epoch hold the accumulator, those of skipped
epochs stay. -/
theorem changeEpoch_entries {next : Fin (2 ^ 64)} (hlt : s.epoch < next)
    (hentries : ∀ v, (s.pool v).EntriesOk s.epoch s.inBoundary) (hboundary : s.inBoundary = true)
    (v : ValId) :
    (∀ k, ((changeEpoch s next).accumulators k v).refcount = (s.accumulators k v).refcount) ∧
      ((s.accumulators next v).refcount ≠ 0 → ((changeEpoch s next).accumulators next v).value =
        (s.validators v).accumulatedRewardPerToken) ∧
      ∀ k, s.epoch < k → k < next →
        (changeEpoch s next).accumulators k v = s.accumulators k v := by
  obtain ⟨hrefresh, hskip⟩ := (refreshAccumulators_spec s next).2 v
  have hpool (k : ℕ) : (changeEpoch s next).accumulators k v =
      ((refreshAccumulators s next).pool v).accumulators k := rfl
  have hentry (k : ℕ) : s.accumulators k v = (s.pool v).accumulators k := rfl
  simp only [hpool, hentry]
  by_cases hmem : (s.pool v).inSnapshot
  · rw [hrefresh hmem]
    refine ⟨fun k => Pool.refreshed_refcount .., fun hlive => Pool.refreshed_value _ (.inl rfl)
      hlive, fun k hafter hbefore => Pool.refreshed_of_ne _ ?_⟩
    have hwrap : u64Add next 1 = next + 1 ∨ u64Add next 1 = 0 := by
      have hbound := next.isLt
      unfold u64Add
      omega
    omega
  · rw [hskip hmem]
    refine ⟨fun _ => rfl, fun hlive => ?_, fun _ _ _ => rfl⟩
    have hfresh := (hentries v).fresh next hlt hlive
    rw [hboundary] at hfresh
    exact hfresh.resolve_right hmem

/-- An accepted epoch change out of the boundary leaves all referenced entries of the epochs it
begins or skips fresh exactly when those of the skipped epochs were fresh before. -/
theorem epochChange_fresh_iff (h : Reachable stakingStep (fun _ _ _ => True) .empty s)
    (hboundary : s.inBoundary = true) (msg : Message) (next : Fin (2 ^ 64))
    (hstep : stakingStep s (msg, .syscallOnEpochChange next) = .ok s') :
    FreshAfterChange s s' ↔ SkippedFresh s next := by
  obtain ⟨hlt, rfl⟩ := epochChange_eq_ok hstep
  have hentries := reachable_entriesOk h (by omega)
  constructor
  · intro hfresh v k hafter hbefore hlive
    obtain ⟨hcount, -, hsame⟩ := changeEpoch_entries hlt hentries hboundary v
    have hvalue := hfresh v k hafter hbefore.le (by rw [hcount]; exact hlive)
    rwa [hsame k hafter hbefore] at hvalue
  · intro hskipped v k hafter hle hlive
    obtain ⟨hcount, hnext, hsame⟩ := changeEpoch_entries hlt hentries hboundary v
    rw [hcount] at hlive
    rcases Nat.lt_or_eq_of_le hle with hbefore | heq
    · rw [hsame k hafter hbefore]
      exact hskipped v k hafter hbefore hlive
    · subst heq
      exact hnext hlive

/-- The change of the opened state to the next epoch skips none and is fresh. -/
theorem epochChange_fresh_opened :
    ∃ s', stakingStep openedState (systemMessage, .syscallOnEpochChange 2) = .ok s' ∧
      FreshAfterChange openedState s' := by
  have hboundary : openedState.inBoundary = true := by decide +kernel
  have hepoch : openedState.epoch = 1 := by decide +kernel
  have hok : (stakingStep openedState (systemMessage, .syscallOnEpochChange 2)).isOk = true := by
    decide +kernel
  obtain ⟨s', hs'⟩ := exists_of_isOk hok
  refine ⟨s', hs', (epochChange_fresh_iff openedState_reachable hboundary systemMessage 2 hs').mpr
    fun v k hafter hbefore => ?_⟩
  change k < 2 at hbefore
  omega

/-- A change that skips epoch `2` leaves the delegation made in epoch `1` with the accumulator of
that time, `0`, although a reward came after it. -/
theorem skipped_epoch_stale :
    ¬∀ (s s' : Storage) (msg : Message) (next : Fin (2 ^ 64)),
      Reachable stakingStep (fun _ _ _ => True) .empty s → s.inBoundary = true →
      stakingStep s (msg, .syscallOnEpochChange next) = .ok s' → FreshAfterChange s s' := by
  intro hclaim
  have hboundary : openedState.inBoundary = true := by decide +kernel
  have hok : (stakingStep openedState (systemMessage, .syscallOnEpochChange 3)).isOk = true := by
    decide +kernel
  obtain ⟨s', hs'⟩ := exists_of_isOk hok
  have hfresh := hclaim openedState s' systemMessage 3 openedState_reachable hboundary hs' 1 2
  obtain ⟨-, rfl⟩ := epochChange_eq_ok hs'
  revert hfresh
  decide +kernel

end Reachable

end SuwappuRevm.Staking
