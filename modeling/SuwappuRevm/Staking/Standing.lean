import SuwappuRevm.Staking.ExecutionSet
import SuwappuRevm.Staking.Ownership

/-!
# Status flags

The flags of a validator are updated by the delegations and undelegations that can change them,
from the record in memory. In every reachable state they are what stake and auth stake call for,
and nobody without a flag is missing from the execution set.
-/

namespace SuwappuRevm.Staking

open Foundations

/-- The flags that a stake and the auth address's own stake call for. -/
def standingFlags (stake authStake : ℕ) : Flags :=
  (if stake < activeValidatorStake then stakeTooLow else 0) |||
    if authStake < minAuthAddressStake then withdrawn else 0

/-- No flag is called for exactly when both stakes suffice. -/
theorem standingFlags_eq_ok {stake authStake : ℕ} : standingFlags stake authStake = flagsOk ↔
    activeValidatorStake ≤ stake ∧ minAuthAddressStake ≤ authStake := by
  unfold standingFlags
  rw [← not_lt, ← not_lt]
  by_cases hstake : stake < activeValidatorStake <;>
    by_cases hauth : authStake < minAuthAddressStake <;>
    simp only [hstake, hauth, if_true, if_false, not_true, not_false_iff, false_and, and_false,
      and_self] <;> decide

/-- The flag of the stake is called for exactly when the stake is too low. -/
theorem standingFlags_stakeTooLow {stake authStake : ℕ} :
    standingFlags stake authStake &&& stakeTooLow ≠ 0 ↔ stake < activeValidatorStake := by
  unfold standingFlags
  by_cases hstake : stake < activeValidatorStake <;>
    by_cases hauth : authStake < minAuthAddressStake <;>
    simp only [hstake, hauth, if_true, if_false, iff_true, iff_false] <;> decide

/-- The flag of the auth stake is called for exactly when the auth stake is too low. -/
theorem standingFlags_withdrawn {stake authStake : ℕ} :
    standingFlags stake authStake &&& withdrawn ≠ 0 ↔ authStake < minAuthAddressStake := by
  unfold standingFlags
  by_cases hstake : stake < activeValidatorStake <;>
    by_cases hauth : authStake < minAuthAddressStake <;>
    simp only [hstake, hauth, if_true, if_false, iff_true, iff_false] <;> decide

/-- The saturating total of a record is below the least auth stake when its principal is. -/
theorem totalStake_lt_iff (r : Delegator) :
    r.totalStake < minAuthAddressStake ↔ r.principal < minAuthAddressStake := by
  have hbound : minAuthAddressStake < wordBound := by decide
  simp only [Delegator.totalStake, Delegator.principal, saturatingAdd]
  omega

/-- The auth stake after the call of an account: its record's if the account is the auth
address. -/
theorem delegateFlags_eq (val : Validator) (r : Delegator) (caller : Address) {stake authStake : ℕ}
    (hflags : val.flags = standingFlags stake authStake) (hstake : stake ≤ val.stake)
    (hauth : caller = val.authAddress → r.principal < minAuthAddressStake →
      authStake < minAuthAddressStake) :
    delegateFlags val r caller = standingFlags val.stake
      (if caller = val.authAddress then r.principal else authStake) := by
  have hlow : val.stake < activeValidatorStake → stake < activeValidatorStake := by omega
  simp only [delegateFlags, hflags, standingFlags, ← not_lt, totalStake_lt_iff]
  by_cases hcaller : caller = val.authAddress
  · by_cases hrecord : r.principal < minAuthAddressStake
    · have hold := hauth hcaller hrecord
      by_cases hnew : val.stake < activeValidatorStake
      · simp only [hcaller, hrecord, hold, hnew, hlow hnew, if_true, if_false, not_true, and_false]
      · by_cases hwas : stake < activeValidatorStake <;>
          simp only [hcaller, hrecord, hold, hnew, hwas, if_true, if_false, not_true, not_false_iff,
            and_false] <;> decide
    · by_cases hold : authStake < minAuthAddressStake <;>
        by_cases hwas : stake < activeValidatorStake <;>
        by_cases hnew : val.stake < activeValidatorStake <;>
        simp only [hcaller, hrecord, hold, hnew, hwas, if_true, if_false, not_true, not_false_iff,
          and_self] <;> first | decide | exact absurd (hlow hnew) hwas
  · by_cases hold : authStake < minAuthAddressStake <;>
      by_cases hwas : stake < activeValidatorStake <;>
      by_cases hnew : val.stake < activeValidatorStake <;>
      simp only [hcaller, hold, hnew, hwas, if_true, if_false, not_true, not_false_iff,
        false_and] <;> first | decide | exact absurd (hlow hnew) hwas

/-- The flags after an undelegation are what the stakes after it call for. -/
theorem undelegateFlags_eq (val : Validator) (r : Delegator) (caller : Address)
    {stake authStake : ℕ} (hflags : val.flags = standingFlags stake authStake)
    (hstake : val.stake ≤ stake)
    (hauth : caller = val.authAddress → authStake < minAuthAddressStake →
      r.principal < minAuthAddressStake) :
    undelegateFlags val r caller = standingFlags val.stake
      (if caller = val.authAddress then r.principal else authStake) := by
  have hlow : stake < activeValidatorStake → val.stake < activeValidatorStake := by omega
  simp only [undelegateFlags, hflags, standingFlags, totalStake_lt_iff]
  by_cases hcaller : caller = val.authAddress
  · have hkept := hauth hcaller
    by_cases hrecord : r.principal < minAuthAddressStake <;>
      by_cases hold : authStake < minAuthAddressStake <;>
      by_cases hwas : stake < activeValidatorStake <;>
      by_cases hnew : val.stake < activeValidatorStake <;>
      simp only [hcaller, hrecord, hold, hnew, hwas, if_true, if_false, and_self, and_false] <;>
      first | decide | exact absurd (hlow hwas) hnew | exact absurd (hkept hold) hrecord
  · by_cases hold : authStake < minAuthAddressStake <;>
      by_cases hwas : stake < activeValidatorStake <;>
      by_cases hnew : val.stake < activeValidatorStake <;>
      simp only [hcaller, hold, hnew, hwas, if_true, if_false, false_and] <;>
      first | decide | exact absurd (hlow hwas) hnew

/-- What the auth address of a validator has in its own stake. -/
def Storage.authStake (s : Storage) (v : ValId) : ℕ :=
  (s.delegators v (s.validators v).authAddress).principal

/-- Flags and execution set are right, but for the flags of one validator. -/
structure StandingOff (off : ValId → Prop) (s : Storage) : Prop where
  executionSet : ExecutionSet s
  exists_of_mem : ∀ v ∈ s.execution.toList, (s.validators v).Exists
  flags_eq : ∀ v, ¬off v → (s.validators v).Exists →
    (s.validators v).flags = standingFlags (s.validators v).stake (s.authStake v)
  mem_of_ok : ∀ v, ¬off v → (s.validators v).Exists → (s.validators v).flags = flagsOk →
    v ∈ s.execution.toList

/-- Flags and execution set are right. -/
abbrev Standing (s : Storage) : Prop := StandingOff (fun _ => False) s

section Preservation

variable {s s' : Storage} {v : ValId} {d : Address} {amount : ℕ}

/-- The standing is read off stakes, principals, auth addresses, flags and the execution set. -/
theorem StandingOff.congr {off : ValId → Prop} (hs : StandingOff off s)
    (hexecution : s'.execution = s.execution) (hbitset : s'.bitset = s.bitset)
    (hauth : ∀ v, (s'.validators v).authAddress = (s.validators v).authAddress)
    (hflags : ∀ v, (s'.validators v).flags = (s.validators v).flags)
    (hstake : ∀ v, (s'.validators v).stake = (s.validators v).stake)
    (hprincipal : ∀ v d, (s'.delegators v d).principal = (s.delegators v d).principal) :
    StandingOff off s' := by
  have hauthStake (v) : s'.authStake v = s.authStake v := by
    rw [Storage.authStake, Storage.authStake, hauth, hprincipal]
  have hexists (v) : (s'.validators v).Exists ↔ (s.validators v).Exists := by
    rw [Validator.Exists, Validator.Exists, hauth]
  refine ⟨hs.executionSet.congr hexecution hbitset, fun v hv => ?_, fun v hoff hv => ?_,
    fun v hoff hv hok => ?_⟩
  · rw [hexecution] at hv
    exact (hexists v).mpr (hs.exists_of_mem v hv)
  · rw [hflags, hstake, hauthStake]
    exact hs.flags_eq v hoff ((hexists v).mp hv)
  · rw [hflags] at hok
    rw [hexecution]
    exact hs.mem_of_ok v hoff ((hexists v).mp hv) hok

/-- What keeps stake, principals and roster keeps the standing. -/
theorem Keeps.standing {off : ValId → Prop} (h : Keeps s s') (hs : StandingOff off s) :
    StandingOff off s' :=
  hs.congr (congrArg Roster.execution h.roster_eq) (congrArg Roster.bitset h.roster_eq)
    (congrFun (congrArg Roster.authAddress h.roster_eq))
    (congrFun (congrArg Roster.flags h.roster_eq)) h.stake_eq h.principal_eq

/-- A delegation sets the standing of its validator right, from flags that some auth stake called
for. -/
theorem Joins.standing {authStake : ℕ} (hzero : ¬(s.validators 0).Exists)
    (h : Joins v d amount s s')
    (hv : (s.validators v).Exists) (hs : StandingOff (· = v) s)
    (hflags : (s.validators v).flags = standingFlags (s.validators v).stake authStake)
    (hself : d = (s.validators v).authAddress →
      (s'.delegators v d).principal < minAuthAddressStake → authStake < minAuthAddressStake)
    (hother : d ≠ (s.validators v).authAddress → authStake = s.authStake v) : Standing s' := by
  obtain ⟨s₁, s₂, hroster, hrecord, hstake, henlist, hroster'⟩ := h.enlisted
  obtain ⟨hterms, hflags₂, hexecution₂, hbitset₂, -⟩ := enlist_roster henlist
  have hauth (v') : (s'.validators v').authAddress = (s.validators v').authAddress :=
    congrFun h.terms.authAddress_eq v'
  have hexists (v') : (s'.validators v').Exists ↔ (s.validators v').Exists := by
    rw [Validator.Exists, Validator.Exists, hauth]
  have hauth₁ : (s₁.validators v).authAddress = (s.validators v).authAddress :=
    congrFun (congrArg Roster.authAddress hroster) v
  have hflags₁ : (s₁.validators v).flags = (s.validators v).flags :=
    congrFun (congrArg Roster.flags hroster) v
  have hexecution₁ : s₁.execution = s.execution := congrArg Roster.execution hroster
  have hbitset₁ : s₁.bitset = s.bitset := congrArg Roster.bitset hroster
  have hexecution' : s'.execution = s₂.execution := congrArg Roster.execution hroster'
  have hbitset' : s'.bitset = s₂.bitset := congrArg Roster.bitset hroster'
  have hne : v ≠ 0 := fun heq => hzero (heq ▸ hv)
  -- the new flags are what the new stakes call for
  have hnew : delegateFlags (s₁.validators v) (s₁.delegators v d) d =
      standingFlags (s'.validators v).stake (s'.authStake v) := by
    have heq := delegateFlags_eq (s₁.validators v) (s₁.delegators v d) d
      (hflags₁.trans hflags) (by rw [hstake, h.stake_eq]; exact Nat.le_add_right ..)
      (by rw [hauth₁, hrecord]; exact hself)
    rw [heq, hstake, hauth₁, hrecord, Storage.authStake, hauth]
    by_cases hd : d = (s.validators v).authAddress
    · rw [if_pos hd, ← hd]
    · rw [if_neg hd, hother hd, Storage.authStake,
        h.principal_off v _ fun heq => hd heq.2.symm]
  have hflags' (v') : (s'.validators v').flags = if v' = v then
      standingFlags (s'.validators v).stake (s'.authStake v) else (s.validators v').flags := by
    have hupdate := congrFun (congrArg Roster.flags hroster') v'
    rw [hflags₂, hnew, hroster, Function.update_apply] at hupdate
    exact hupdate
  rw [hnew] at hexecution₂ hbitset₂
  have hset : ExecutionSet s' ∧ ∀ v', v' ∈ s'.execution.toList ↔
      (standingFlags (s'.validators v).stake (s'.authStake v) = flagsOk ∧ v' = v) ∨
        v' ∈ s.execution.toList := by
    have hset₁ := hs.executionSet.congr hexecution₁ hbitset₁
    have hfree : 0 ∉ s₁.execution.toList := by
      rw [hexecution₁]
      exact fun hmem => hzero (hs.exists_of_mem 0 hmem)
    obtain ⟨hadd, hmem⟩ := addToValset_executionSet hset₁ hne hfree
    rw [hexecution']
    by_cases hok : standingFlags (s'.validators v).stake (s'.authStake v) = flagsOk
    · rw [addToValsetIf, if_pos hok] at hexecution₂ hbitset₂
      refine ⟨hadd.congr (hexecution'.trans hexecution₂) (hbitset'.trans hbitset₂), fun v' => ?_⟩
      rw [hexecution₂, hmem, hexecution₁]
      simp [hok]
    · rw [addToValsetIf, if_neg hok] at hexecution₂ hbitset₂
      refine ⟨hset₁.congr (hexecution'.trans hexecution₂) (hbitset'.trans hbitset₂), fun v' => ?_⟩
      rw [hexecution₂, hexecution₁]
      simp [hok]
  refine ⟨hset.1, fun v' hmem => ?_, fun v' _ hv' => ?_, fun v' _ hv' hok => ?_⟩
  · rw [hexists]
    rcases (hset.2 v').mp hmem with ⟨-, rfl⟩ | hmem
    · exact hv
    · exact hs.exists_of_mem v' hmem
  · rw [hflags']
    by_cases heq : v' = v
    · rw [if_pos heq, heq]
    · have hsame : s'.authStake v' = s.authStake v' := by
        rw [Storage.authStake, Storage.authStake, hauth, h.principal_off v' _ fun h => heq h.1]
      rw [if_neg heq, h.stake_off v' heq, hsame]
      exact hs.flags_eq v' heq ((hexists v').mp hv')
  · rw [hflags'] at hok
    rw [hset.2]
    by_cases heq : v' = v
    · rw [if_pos heq] at hok
      exact .inl ⟨hok, heq⟩
    · rw [if_neg heq] at hok
      exact .inr (hs.mem_of_ok v' heq ((hexists v').mp hv') hok)

/-- An undelegation keeps the standing. -/
theorem Leaves.standing (h : Leaves v d amount s s') (hv : (s.validators v).Exists)
    (hs : Standing s) : Standing s' := by
  obtain ⟨s₁, s₂, hroster, hstake, hroster₂, hroster'⟩ := h.delisted
  rw [updateFlagsAfterUndelegate_roster, hroster] at hroster₂
  obtain ⟨nodes, hremove⟩ := linkedListRemove_roster s₂ v d
  have hkept : s'.roster.flags = s₂.roster.flags ∧ s'.roster.execution = s.roster.execution ∧
      s'.roster.bitset = s.roster.bitset := by
    rw [hroster', hremove, hroster₂]
    split <;> exact ⟨rfl, rfl, rfl⟩
  obtain ⟨hflags₂, hexecution, hbitset⟩ := hkept
  have hexecution : s'.execution = s.execution := hexecution
  have hauth (v') : (s'.validators v').authAddress = (s.validators v').authAddress :=
    congrFun h.terms.authAddress_eq v'
  have hexists (v') : (s'.validators v').Exists ↔ (s.validators v').Exists := by
    rw [Validator.Exists, Validator.Exists, hauth]
  have hauth₁ : (s₁.validators v).authAddress = (s.validators v).authAddress :=
    congrFun (congrArg Roster.authAddress hroster) v
  have hflags₁ : (s₁.validators v).flags = (s.validators v).flags :=
    congrFun (congrArg Roster.flags hroster) v
  have hauthStake : s'.authStake v = (s'.delegators v (s.validators v).authAddress).principal := by
    rw [Storage.authStake, hauth]
  have hself (hd : d = (s.validators v).authAddress) :
      (s'.delegators v d).principal ≤ s.authStake v := by
    rw [Storage.authStake, ← hd, ← h.principal_eq]
    exact Nat.le_add_right ..
  have hnew : undelegateFlags (s₁.validators v) (s'.delegators v d) d =
      standingFlags (s'.validators v).stake (s'.authStake v) := by
    have heq := undelegateFlags_eq (s₁.validators v) (s'.delegators v d) d
      (hflags₁.trans (hs.flags_eq v id hv))
      (by rw [hstake, ← h.stake_eq]; exact Nat.le_add_right ..)
      (by rw [hauth₁]; exact fun hd hlow => (hself hd).trans_lt hlow)
    rw [heq, hstake, hauth₁, hauthStake]
    by_cases hd : d = (s.validators v).authAddress
    · rw [if_pos hd, ← hd]
    · rw [if_neg hd, Storage.authStake, h.principal_off v _ fun heq => hd heq.2.symm]
  have hflags' (v') : (s'.validators v').flags = if v' = v then
      standingFlags (s'.validators v).stake (s'.authStake v) else (s.validators v').flags := by
    have hwritten : s₂.roster.flags = Function.update s.roster.flags v
        (undelegateFlags (s₁.validators v) (s'.delegators v d) d) := by rw [hroster₂]
    have hupdate := congrFun (hflags₂.trans hwritten) v'
    rw [hnew, Function.update_apply] at hupdate
    exact hupdate
  refine ⟨hs.executionSet.congr hexecution hbitset, fun v' hmem => ?_, fun v' _ hv' => ?_,
    fun v' _ hv' hok => ?_⟩
  · rw [hexecution] at hmem
    exact (hexists v').mpr (hs.exists_of_mem v' hmem)
  · rw [hflags']
    by_cases heq : v' = v
    · rw [if_pos heq, heq]
    · have hsame : s'.authStake v' = s.authStake v' := by
        rw [Storage.authStake, Storage.authStake, hauth, h.principal_off v' _ fun h => heq h.1]
      rw [if_neg heq, h.stake_off v' heq, hsame]
      exact hs.flags_eq v' id ((hexists v').mp hv')
  · rw [hexecution]
    refine hs.mem_of_ok v' id ((hexists v').mp hv') ?_
    rw [hflags'] at hok
    by_cases heq : v' = v
    · rw [if_pos heq, standingFlags_eq_ok] at hok
      rw [heq, hs.flags_eq v id hv, standingFlags_eq_ok]
      have hstake' := h.stake_eq
      refine ⟨by omega, hok.2.trans ?_⟩
      rw [hauthStake]
      by_cases hd : d = (s.validators v).authAddress
      · rw [← hd]
        exact hself hd
      · rw [h.principal_off v _ fun heq => hd heq.2.symm]
        exact le_rfl
    · rwa [if_neg heq] at hok

/-- A new validator has its flags right after the first delegation. -/
theorem createValidator_standing {s₁ : Storage} {secpPubkey blsPubkey : Bytes} {auth : Address}
    {commission : ℕ} (hfounded : Founded s) (hs : Standing s) (hne : v ≠ 0) (hauth : auth ≠ 0)
    (hcreate : createValidator s secpPubkey blsPubkey auth commission = .ok (v, s₁))
    (hmin : minAuthAddressStake ≤ amount) (hjoins : Joins v auth amount s₁ s') : Standing s' := by
  have hnew := createValidator_new hfounded hne hcreate
  simp only [createValidator, bind_eq_ok, pure_eq_ok, Prod.mk.injEq] at hcreate
  obtain ⟨-, -, -, -, rfl, rfl⟩ := hcreate
  generalize hval : (⟨0, 0, commission, secpPubkey, blsPubkey, auth, stakeTooLow, 0⟩ : Validator) =
    val at hjoins
  generalize hv : s.lastValId + 1 = v at *
  generalize hs₁ : Storage.writeValidator _ v val = s₁ at hjoins
  have hself : s₁.validators v = val := by rw [← hs₁]; exact Function.update_self ..
  have hoff (v') (hne : v' ≠ v) : s₁.validators v' = s.validators v' := by
    rw [← hs₁]
    exact Function.update_of_ne hne ..
  have hdelegators : s₁.delegators = s.delegators := by rw [← hs₁]; rfl
  have hexecution : s₁.execution = s.execution := by rw [← hs₁]; rfl
  have hbitset : s₁.bitset = s.bitset := by rw [← hs₁]; rfl
  have hstanding : StandingOff (· = v) s₁ := by
    refine ⟨hs.executionSet.congr hexecution hbitset, fun v' hmem => ?_, fun v' hoff' hv' => ?_,
      fun v' hoff' hv' hok => ?_⟩
    · rw [hexecution] at hmem
      have hexists := hs.exists_of_mem v' hmem
      rwa [hoff v' fun heq => hnew (heq ▸ hexists)]
    · rw [hoff v' hoff'] at hv' ⊢
      rw [Storage.authStake, hdelegators, hoff v' hoff']
      exact hs.flags_eq v' id hv'
    · rw [hoff v' hoff'] at hv' hok
      rw [hexecution]
      exact hs.mem_of_ok v' id hv' hok
  have hzero : ¬(s₁.validators 0).Exists := by
    rw [hoff 0 hne.symm]
    exact hfounded.zero
  have hauth' : (s₁.validators v).authAddress = auth := by rw [hself, ← hval]
  have hexists : (s₁.validators v).Exists := by
    rw [Validator.Exists, hauth']
    exact hauth
  have hflags : (s₁.validators v).flags =
      standingFlags (s₁.validators v).stake minAuthAddressStake := by
    rw [hself, ← hval]
    exact (show stakeTooLow = standingFlags 0 minAuthAddressStake by decide)
  refine hjoins.standing hzero hexists hstanding hflags (fun _ hlow => ?_) fun h => ?_
  · rw [hjoins.principal_eq] at hlow
    omega
  · exact absurd hauth'.symm h

/-- A snapshot keeps the standing. -/
theorem takeSnapshot_standing (hs : Standing s) : Standing (takeSnapshot s) := by
  obtain ⟨hcompact, hmem⟩ := takeSnapshot_executionSet hs.executionSet
  have hpool := takeSnapshot_pool s
  obtain ⟨-, -, -, hvalidators, -, -⟩ := takeSnapshot_sameLedger s
  generalize takeSnapshot s = s' at *
  have hauthStake (v) : s'.authStake v = s.authStake v := by
    have hdelegators : s'.delegators v = s.delegators v := (hpool v).delegators_eq
    rw [Storage.authStake, Storage.authStake, hdelegators, hvalidators]
  refine ⟨hcompact, fun v hv => ?_, fun v hoff hv => ?_, fun v hoff hv hok => ?_⟩
  · rw [hvalidators]
    exact hs.exists_of_mem v ((hmem v).mp hv).1
  · rw [hvalidators] at hv ⊢
    rw [hauthStake]
    exact hs.flags_eq v hoff hv
  · rw [hvalidators] at hv hok
    exact (hmem v).mpr ⟨hs.mem_of_ok v hoff hv hok, hok⟩

/-- An epoch change keeps the standing. -/
theorem changeEpoch_standing (hs : Standing s) (next : ℕ) : Standing (changeEpoch s next) := by
  have hroster := changeEpoch_roster s next
  have hvalidators : (changeEpoch s next).validators = s.validators :=
    (refreshAccumulators_spec s next).1.validators_eq
  refine hs.congr (congrArg Roster.execution hroster) (congrArg Roster.bitset hroster) ?_ ?_ ?_ ?_
  · exact fun v => by rw [hvalidators]
  · exact fun v => by rw [hvalidators]
  · exact fun v => by rw [hvalidators]
  · exact fun v d => congrArg Delegator.principal (congrFun (changeEpoch_delegators s next v) d)

/-- Every step of the roster keeps the standing. -/
theorem RosterStep.standing {caller : Address} (hfounded : Founded s)
    (h : RosterStep caller s s') (hs : Standing s) : Standing s' := by
  cases h with
  | keeps hkeeps => exact hkeeps.standing hs
  | joins v d amount s₁ hexists hamount hkeeps hjoins =>
    have hs₁ := hkeeps.standing hs
    have hauth (v) : (s₁.validators v).authAddress = (s.validators v).authAddress :=
      congrFun (congrArg Roster.authAddress hkeeps.roster_eq) v
    have hv : (s₁.validators v).Exists := by rwa [Validator.Exists, hauth]
    have hzero : ¬(s₁.validators 0).Exists := by
      rw [Validator.Exists, hauth]
      exact hfounded.zero
    refine hjoins.standing hzero hv ?_ (hs₁.flags_eq v id hv) (fun hd hlow => ?_) fun _ => rfl
    · exact ⟨hs₁.executionSet, hs₁.exists_of_mem, fun v' _ => hs₁.flags_eq v' id,
        fun v' _ => hs₁.mem_of_ok v' id⟩
    · rw [hjoins.principal_eq] at hlow
      rw [Storage.authStake, ← hd]
      omega
  | leaves v amount hexists hamount hleaves => exact hleaves.standing hexists hs
  | creates v s₁ _ _ auth commission amount hcreate hauth hne hsentinel hle hmin hjoins =>
    exact createValidator_standing hfounded hs hne hauth hcreate hmin hjoins
  | recommissions v commission hcaller hle hpools hroster =>
    exact hs.congr (congrArg Roster.execution hroster) (congrArg Roster.bitset hroster)
      (congrFun (congrArg Roster.authAddress hroster)) (congrFun (congrArg Roster.flags hroster))
      (fun v' => congrArg Pool.stake (hpools v'))
      fun v' d => congrArg (fun p => (p.delegators d).principal) (hpools v')
  | snapshot hboundary htake =>
    rw [htake]
    exact takeSnapshot_standing hs
  | epochChange next hlt hchange =>
    rw [hchange]
    exact changeEpoch_standing hs next

end Preservation

section Reachable

variable {guard : Storage → Message × StakingCall → Storage → Prop} {s : Storage}

/-- Flags and execution set are right in every reachable state. -/
theorem reachable_standing (hguard : ∀ s tx s', guard s tx s' → s'.epoch < 2 ^ 63)
    (h : Reachable stakingStep guard .empty s) : Standing s := by
  refine reachable_roster Standing hguard ?_ (fun s income hs => ?_) ?_ h
  · refine ⟨⟨List.nodup_nil, fun v => ?_⟩, fun v hv => ?_, fun v _ hv => absurd rfl hv,
      fun v _ hv => absurd rfl hv⟩
    · simp [Storage.empty, Valset.toList, Storage.inBitset]
    · simp [Storage.empty, Valset.toList] at hv
  · exact ⟨hs.executionSet.congr rfl rfl, hs.exists_of_mem, hs.flags_eq, hs.mem_of_ok⟩
  · exact fun caller s s' hfounded _ _ _ hstep hs => hstep.standing hfounded hs

/-- Status flags and the execution set are always right: the flag of a validator's stake and the
flag of its auth stake are set exactly when these are too low, whoever has neither is in the
execution array, and the array has the ids of the bitset once each. -/
theorem flags_and_execution_set_right (h : Reachable stakingStep EpochsBounded .empty s) :
    (∀ v, (s.validators v).Exists →
      ((s.validators v).flags &&& stakeTooLow ≠ 0 ↔
        (s.validators v).stake < activeValidatorStake) ∧
      ((s.validators v).flags &&& withdrawn ≠ 0 ↔
        (s.delegators v (s.validators v).authAddress).stake +
            (s.delegators v (s.validators v).authAddress).deltaStake +
            (s.delegators v (s.validators v).authAddress).nextDeltaStake < minAuthAddressStake) ∧
      ((s.validators v).flags = flagsOk → v ∈ s.execution.toList)) ∧
    s.execution.toList.Nodup ∧
    ∀ v : ValId, v ∈ s.execution.toList ↔
      (s.bitset (v.val / 256)).getLsbD (v.val % 256) = true := by
  have hguard (s : Storage) (tx) (s' : Storage) (hg : EpochsBounded s tx s') :
      s'.epoch < 2 ^ 63 := hg
  have hs := reachable_standing hguard h
  refine ⟨fun v hv => ⟨?_, ?_, hs.mem_of_ok v id hv⟩, hs.executionSet.nodup,
    hs.executionSet.mem_iff⟩
  · rw [hs.flags_eq v id hv, standingFlags_stakeTooLow]
  · rw [hs.flags_eq v id hv, standingFlags_withdrawn]
    rfl

/-- In the opened state the validator has no flag and is in the execution array. -/
theorem flags_and_execution_set_right_opened :
    (openedState.validators 1).flags = flagsOk ∧ 1 ∈ openedState.execution.toList := by
  have hexists : (openedState.validators 1).Exists := by decide +kernel
  have hflags : (openedState.validators 1).flags = flagsOk := by decide +kernel
  exact ⟨hflags, ((flags_and_execution_set_right openedState_bounded).1 1 hexists).2.2 hflags⟩

end Reachable

end SuwappuRevm.Staking
