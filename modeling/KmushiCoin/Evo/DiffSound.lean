import KmushiCoin.Evo.BuildListSound
import KmushiCoin.Evo.Diff

/-!
# KmushiCoin.Evo.DiffSound

**`ApplyDiff` rebuilds the next list of a chain** from the previous one and the stored
difference.

`ApplyDiff` removes, adds and updates, in this order, while a block does the same in the
order of its transactions. `Succeeds l l'` says what makes the two orders agree: a member
of both lists keeps its identity, and a value of a member of `l'` has no *other* owner in
`l` that is still in `l'`. Every list on the way is `Between` the two, so nothing on the
way finds a value taken.

The checks against the previous list make the list of a block succeed it
(`build_succeeds`): an address or a key is only given to a masternode when no other one
had it, with the one exception of a masternode that is replaced.
-/

namespace KmushiCoin

open Codec DeterministicMNList DeterministicMN FMap List UniqueProperty

variable {p : Uint256} {d : DeterministicMN} {nHeight : Int32} {tx : Transaction} {pl : ProRegPL}
  {prev : PrevIndex} {txs : List Transaction}

namespace DeterministicMNList

/-- The list `l'` comes after `l`. -/
structure Succeeds (l l' : DeterministicMNList) : Prop where
  /-- A member changes in its state only. -/
  kept : ∀ {p : Uint256} {d d' : DeterministicMN}, l.mnMap[p]? = some d → l'.mnMap[p]? = some d' →
    d' = { d with pdmnState := d'.pdmnState }
  /-- A new member has an owner key and an operator key. -/
  added : ∀ {p : Uint256} {d' : DeterministicMN}, l'.mnMap[p]? = some d' → l.mnMap[p]? = none →
    d'.pdmnState.keyIDOwner ≠ 0 ∧ d'.pdmnState.keyIDOperator ≠ 0
  /-- Another owner that a value had before is gone. -/
  apart : ∀ {p q : Uint256} {d' : DeterministicMN} {v : UniqueProperty},
    l'.mnMap[p]? = some d' → v ∈ d'.uniqueProperties → v ∈ l.owned q → q ≠ p →
      l'.mnMap[q]? = none

/-- The list `r` has members of `l'` only, each as it is in one of the two lists. -/
structure Between (serializeHash : UniqueProperty → Nat) (l l' r : DeterministicMNList) : Prop where
  wf : Wf serializeHash r
  mixed : ∀ {p : Uint256} {d : DeterministicMN}, r.mnMap[p]? = some d →
    l.mnMap[p]? = some d ∨ l'.mnMap[p]? = some d
  stays : ∀ {p : Uint256} {d : DeterministicMN}, r.mnMap[p]? = some d →
    ∃ d', l'.mnMap[p]? = some d'

variable {serializeHash : UniqueProperty → Nat} {l l' r r' : DeterministicMNList}

variable {d' : DeterministicMN}

/-- On the way, no value of a member of `l'` has another owner. -/
theorem Between.free (h : Between serializeHash l l' r) (hs : Succeeds l l')
    (hl' : Wf serializeHash l') {q} {v} (hd' : l'.mnMap[p]? = some d')
    (hv : v ∈ d'.uniqueProperties) (hq : q ≠ p) : v ∉ r.owned q := by
  intro hmem
  obtain ⟨d, hd, hvd⟩ := mem_owned.mp hmem
  rcases h.mixed hd with hold | hnew
  · obtain ⟨t, ht⟩ := h.stays hd
    simp [hs.apart hd' hv (mem_owned.mpr ⟨d, hold, hvd⟩) hq] at ht
  · exact hq (hl'.owns.unique (mem_owned.mpr ⟨d, hnew, hvd⟩) (mem_owned.mpr ⟨d', hd', hv⟩))

/-- On the way, the internal ids are those of `l'`. -/
theorem Between.id_eq (h : Between serializeHash l l' r) (hs : Succeeds l l')
    (hd : r.mnMap[p]? = some d) (hd' : l'.mnMap[p]? = some d') : d.internalId = d'.internalId := by
  rcases h.mixed hd with hold | hnew
  · rw [hs.kept hold hd']
  · rw [Option.mem_unique hnew hd']

/-- A new member of `l'` can be added on the way. -/
theorem Between.canAdd (h : Between serializeHash l l' r) (hs : Succeeds l l')
    (hl' : Wf serializeHash l') (hd : l'.mnMap[d.proTxHash]? = some d)
    (hnew : l.mnMap[d.proTxHash]? = none) (hr : r.mnMap[d.proTxHash]? = none) : CanAdd r d := by
  obtain ⟨howner, hoperator⟩ := hs.added hd hnew
  refine ⟨hr, ?_, hl'.assigned hd, hl'.collateral hd, howner, hoperator, fun v hv q => ?_⟩
  · cases hid : r.mnInternalIdMap[d.internalId]? with
    | none => rfl
    | some q =>
      obtain ⟨e, he, heid⟩ := (h.wf.ids _ _).mp hid
      obtain ⟨e', he'⟩ := h.stays he
      have hq := (hl'.id_injective hd he' (heid.symm.trans (h.id_eq hs he he'))).1
      rw [← hq, hr] at he
      cases he
  · by_cases hq : q = d.proTxHash
    · simp [hq, owned_of_none hr]
    · exact h.free hs hl' hd hv hq

/-! ### Removing -/

section

variable (hinj : Function.Injective serializeHash)
include hinj

/-- The removals complete when the removed members have their keys. -/
theorem removes_run {ids : List UInt64} (hnodup : ids.Nodup) (hr : Wf serializeHash r)
    (hids : ∀ i ∈ ids, ∃ d : DeterministicMN, r.mnMap[d.proTxHash]? = some d ∧ d.internalId = i ∧
      d.pdmnState.keyIDOwner ≠ 0 ∧ d.pdmnState.keyIDOperator ≠ 0) :
    ∃ r', ids.foldlM (removeById serializeHash) r = .ok r' ∧ Wf serializeHash r' ∧
      (∀ (p : Uint256) d, r'.mnMap[p]? = some d ↔ r.mnMap[p]? = some d ∧ d.internalId ∉ ids) ∧
      r'.blockHash = r.blockHash ∧ r'.nHeight = r.nHeight ∧
      r'.nTotalRegisteredCount = r.nTotalRegisteredCount := by
  induction ids generalizing r with
  | nil => exact ⟨r, rfl, hr, by simp, rfl, rfl, rfl⟩
  | cons i ids ih =>
    rw [nodup_cons] at hnodup
    obtain ⟨d, hd, rfl, howner, hoperator⟩ := hids i (by simp)
    obtain ⟨r₁, hrem⟩ := removeMN_run hinj hr hd howner hoperator
    obtain ⟨-, -, -, -, hwf₁, hmn₁, htotal₁, hhash₁, hheight₁⟩ := removeMN_inv hinj hr hrem
    have hget₁ : ∀ (p : Uint256) d₁, r₁.mnMap[p]? = some d₁ ↔
        r.mnMap[p]? = some d₁ ∧ d₁.internalId ≠ d.internalId := by
      intro p d₁
      rw [hmn₁, get_erase]
      constructor
      · intro h
        split_ifs at h with heq
        exact ⟨h, fun hid => heq (hr.id_injective hd h hid.symm).1⟩
      · rintro ⟨h, hid⟩
        rw [if_neg]
        · exact h
        · rintro rfl
          exact hid (congrArg _ (Option.mem_unique h hd))
    obtain ⟨r', hrest, hwf', hget', hhash', hheight', htotal'⟩ := ih hnodup.2 hwf₁
      fun j hj => by
        obtain ⟨e, he, rfl, hkeys⟩ := hids j (by simp [hj])
        exact ⟨e, (hget₁ _ _).mpr ⟨he, fun heq => hnodup.1 (heq ▸ hj)⟩, rfl, hkeys⟩
    refine ⟨r', ?_, hwf', fun p e => ?_, hhash'.trans hhash₁, hheight'.trans hheight₁,
      htotal'.trans htotal₁⟩
    · rw [foldlM_cons, removeById, hr.getMNByInternalId_eq_some.mpr ⟨hd, rfl⟩]
      exact bind_ok.mpr ⟨r₁, hrem, hrest⟩
    · rw [hget', hget₁, mem_cons, not_or, and_assoc]

/-- Removals that completed found an operator key. -/
theorem removes_inv {ids : List UInt64} (hnodup : ids.Nodup) (hr : Wf serializeHash r)
    (hrun : ids.foldlM (removeById serializeHash) r = .ok r') (hd : r.mnMap[p]? = some d)
    (hid : d.internalId ∈ ids) : d.pdmnState.keyIDOperator ≠ 0 := by
  induction ids generalizing r with
  | nil => cases hid
  | cons i ids ih =>
    rw [nodup_cons] at hnodup
    obtain ⟨r₁, hstep, hrest⟩ := bind_ok.mp hrun
    unfold removeById at hstep
    split at hstep
    · cases hstep
    rename_i e hget
    obtain ⟨he, rfl⟩ := hr.getMNByInternalId_eq_some.mp hget
    obtain ⟨e₀, he₀, -, hop, hwf₁, hmn₁, -⟩ := removeMN_inv hinj hr hstep
    obtain rfl := Option.mem_unique he₀ he
    by_cases heq : p = e₀.proTxHash
    · subst heq
      rwa [Option.mem_unique hd he]
    · have hne : d.internalId ≠ e₀.internalId := fun h => heq (hr.id_injective hd he h).1
      refine ih hnodup.2 hwf₁ hrest ?_ ((mem_cons.mp hid).resolve_left hne)
      rwa [hmn₁, get_erase_ne (Ne.symm heq)]

/-! ### Adding -/

/-- The counter after additions. -/
def totalAfterAdds (total : UInt32) (ds : List DeterministicMN) : UInt32 :=
  ds.foldl (fun n d => (max (d.internalId + 1) n.toUInt64).toUInt32) total

/-- The additions complete. -/
theorem adds_run (hs : Succeeds l l') (hl' : Wf serializeHash l') {ds}
    (hnodup : (ds.map proTxHash).Nodup)
    (hds : ∀ d ∈ ds, l'.mnMap[d.proTxHash]? = some d ∧ l.mnMap[d.proTxHash]? = none)
    (h : Between serializeHash l l' r) (hnew : ∀ d ∈ ds, r.mnMap[d.proTxHash]? = none) :
    ∃ r', ds.foldlM (fun l d => l.addMN serializeHash d) r = .ok r' ∧
      Between serializeHash l l' r' ∧ (∀ (p : Uint256) d, r'.mnMap[p]? = some d ↔
        r.mnMap[p]? = some d ∨ (d ∈ ds ∧ d.proTxHash = p)) ∧
      r'.blockHash = r.blockHash ∧ r'.nHeight = r.nHeight ∧
      r'.nTotalRegisteredCount = totalAfterAdds r.nTotalRegisteredCount ds := by
  induction ds generalizing r with
  | nil => exact ⟨r, rfl, h, by simp, rfl, rfl, rfl⟩
  | cons d ds ih =>
    rw [map_cons, nodup_cons] at hnodup
    obtain ⟨hd, hdnew⟩ := hds d (by simp)
    have hrd := hnew d (by simp)
    obtain ⟨r₁, hadd⟩ := addMN_run hinj h.wf (h.canAdd hs hl' hd hdnew hrd) true
    obtain ⟨-, hwf₁, hmn₁, htotal₁, hhash₁, hheight₁⟩ := addMN_inv hinj h.wf hadd
    have hget₁ : ∀ (p : Uint256) e, r₁.mnMap[p]? = some e ↔
        r.mnMap[p]? = some e ∨ (e = d ∧ e.proTxHash = p) := by
      intro p e
      rw [hmn₁, get_insert]
      split_ifs with heq
      · subst heq
        simpa [hrd, eq_comm] using fun h : d = e => congrArg proTxHash h
      · exact (or_iff_left (by rintro ⟨rfl, hp⟩; exact heq hp)).symm
    have hbetween : Between serializeHash l l' r₁ := by
      refine ⟨hwf₁, ?_, ?_⟩ <;> intro p e he <;> rcases (hget₁ p e).mp he with he | ⟨rfl, rfl⟩
      · exact h.mixed he
      · exact .inr hd
      · exact h.stays he
      · exact ⟨e, hd⟩
    obtain ⟨r', hrest, hb', hget', hhash', hheight', htotal'⟩ := ih hnodup.2
      (fun e he => hds e (by simp [he])) hbetween fun e he => by
        have hne : d.proTxHash ≠ e.proTxHash := fun heq =>
          hnodup.1 (heq ▸ mem_map_of_mem he)
        rw [hmn₁, get_insert_ne hne]
        exact hnew e (by simp [he])
    refine ⟨r', bind_ok.mpr ⟨r₁, hadd, hrest⟩, hb', fun p e => ?_, hhash'.trans hhash₁,
      hheight'.trans hheight₁, ?_⟩
    · rw [hget', hget₁, or_assoc, mem_cons, or_and_right]
    · rw [htotal', htotal₁]
      rfl

/-! ### Updating -/

/-- The updates complete: the members with these ids are as in `l'`, the others unchanged. -/
theorem updates_run (hs : Succeeds l l') (hl' : Wf serializeHash l')
    {us : List (UInt64 × DeterministicMNStateDiff)} (hnodup : (us.map Prod.fst).Nodup)
    (hus : ∀ e ∈ us, ∃ t f : DeterministicMN, l'.mnMap[t.proTxHash]? = some t ∧
      l.mnMap[t.proTxHash]? = some f ∧ r.mnMap[t.proTxHash]? = some f ∧
      e = (t.internalId, .ofStates f.pdmnState t.pdmnState)) (h : Between serializeHash l l' r) :
    ∃ r', us.foldlM (updateById serializeHash) r = .ok r' ∧ Wf serializeHash r' ∧
      (∀ (p : Uint256) t, l'.mnMap[p]? = some t → t.internalId ∈ us.map Prod.fst →
        r'.mnMap[p]? = some t) ∧
      (∀ p : Uint256, (∀ t, l'.mnMap[p]? = some t → t.internalId ∉ us.map Prod.fst) →
        r'.mnMap[p]? = r.mnMap[p]?) ∧ r'.blockHash = r.blockHash ∧ r'.nHeight = r.nHeight ∧
      r'.nTotalRegisteredCount = r.nTotalRegisteredCount := by
  induction us generalizing r with
  | nil => exact ⟨r, rfl, h.wf, by simp, by simp, rfl, rfl, rfl⟩
  | cons e us ih =>
    rw [map_cons, nodup_cons] at hnodup
    obtain ⟨t, f, ht, hf, hrf, rfl⟩ := hus e (by simp)
    -- the updated member is the one of `l'`
    have hupd : { f with pdmnState :=
        DeterministicMNStateDiff.applyToState (.ofStates f.pdmnState t.pdmnState) f.pdmnState } =
        t := by
      rw [DeterministicMNStateDiff.applyToState_ofStates, ← hs.kept hf ht]
    have hid : t.internalId = f.internalId := by rw [hs.kept hf ht]
    obtain ⟨r₁, hrun⟩ := updateMN_run hinj h.wf hrf
      (DeterministicMNStateDiff.applyToState (.ofStates f.pdmnState t.pdmnState) f.pdmnState)
      (by rw [hupd]; exact fun v hv q hq => h.free hs hl' ht hv hq)
    obtain ⟨hwf₁, hmn₁, htotal₁, hhash₁, hheight₁⟩ := updateMN_inv hinj h.wf hrf hrun
    rw [hupd] at hmn₁
    have hbetween : Between serializeHash l l' r₁ := by
      refine ⟨hwf₁, ?_, ?_⟩ <;> intro p d hd <;> rw [hmn₁, get_insert] at hd <;>
        split_ifs at hd with heq
      · exact .inr (heq ▸ Option.some.inj hd ▸ ht)
      · exact h.mixed hd
      · exact ⟨t, heq ▸ ht⟩
      · exact h.stays hd
    have hother : ∀ {p : Uint256}, t.proTxHash ≠ p → r₁.mnMap[p]? = r.mnMap[p]? := fun hne => by
      rw [hmn₁, get_insert_ne hne]
    obtain ⟨r', hrest, hwf', hin', hout', hhash', hheight', htotal'⟩ := ih hnodup.2 (fun e he => by
        obtain ⟨t₂, f₂, ht₂, hf₂, hrf₂, rfl⟩ := hus e (by simp [he])
        refine ⟨t₂, f₂, ht₂, hf₂, ?_, rfl⟩
        rw [hother]
        · exact hrf₂
        · intro heq
          obtain rfl : t = t₂ := Option.some.inj (ht.symm.trans (heq ▸ ht₂))
          exact hnodup.1 (mem_map.mpr ⟨_, he, rfl⟩)) hbetween
    refine ⟨r', ?_, hwf', fun p t₂ ht₂ hmem => ?_, fun p hp => ?_, hhash'.trans hhash₁,
      hheight'.trans hheight₁, htotal'.trans htotal₁⟩
    · rw [foldlM_cons, updateById,
        h.wf.getMNByInternalId_eq_some.mpr ⟨(h.wf.key hrf).symm ▸ hrf, hid.symm⟩]
      exact bind_ok.mpr ⟨r₁, hrun, hrest⟩
    · rw [map_cons, mem_cons] at hmem
      by_cases hlater : t₂.internalId ∈ us.map Prod.fst
      · exact hin' p t₂ ht₂ hlater
      · obtain ⟨rfl, rfl⟩ := hl'.id_injective ht₂ ht (hmem.resolve_right hlater)
        rw [hout' t₂.proTxHash, hmn₁, get_insert_self]
        intro t₃ ht₃
        rwa [← Option.mem_unique ht₂ ht₃]
    · have hne : t.proTxHash ≠ p := by
        rintro rfl
        exact hp t ht (by simp)
      rw [hout' p fun t₂ ht₂ hmem => hp t₂ ht₂ (by simp [hmem]), hother hne]

/-! ### The whole difference -/

/-- No member that is gone in `l'` is without operator key in `l`. -/
def RemovedKeyed (l l' : DeterministicMNList) : Prop :=
  ∀ d ∈ l.members, l'.getMN d.proTxHash = none → d.pdmnState.keyIDOperator ≠ 0

/-- The same list, up to the registration counter. -/
structure SameList (r l' : DeterministicMNList) : Prop where
  mnMap : r.mnMap = l'.mnMap
  mnInternalIdMap : r.mnInternalIdMap = l'.mnInternalIdMap
  mnUniquePropertyMap : r.mnUniquePropertyMap = l'.mnUniquePropertyMap
  blockHash : r.blockHash = l'.blockHash
  nHeight : r.nHeight = l'.nHeight

/-- **`ApplyDiff` rebuilds the list** when the removed members have their operator keys. -/
theorem applyDiff_run (hl : Wf serializeHash l) (hl' : Wf serializeHash l') (hs : Succeeds l l')
    (howner : ∀ d ∈ l.members, d.pdmnState.keyIDOwner ≠ 0) (hkeyed : RemovedKeyed l l') :
    ∃ r, l.applyDiff serializeHash l'.blockHash l'.nHeight (l.buildDiff l') = .ok r ∧
      SameList r l' ∧ r.nTotalRegisteredCount =
        totalAfterAdds l.nTotalRegisteredCount (l.buildDiff l').addedMNs := by
  have hl₀ : Wf serializeHash { l with blockHash := l'.blockHash, nHeight := l'.nHeight } :=
    hl.of_maps_eq rfl rfl rfl
  obtain ⟨r₁, hrun₁, hwf₁, hget₁, hhash₁, hheight₁, htotal₁⟩ := removes_run hinj
    (nodup_keys (l.buildDiff l').removedMns) hl₀ fun i hi => by
      obtain ⟨d, hd, hnone, hid⟩ := (mem_removedMns hl).mp hi
      have hmem := hl.mem_members.mpr hd
      exact ⟨d, hd, hid, howner d hmem, hkeyed d hmem hnone⟩
  -- exactly the members that stay are left
  have hleft : ∀ (p : Uint256) d, r₁.mnMap[p]? = some d ↔
      l.mnMap[p]? = some d ∧ l'.mnMap[p]? ≠ none := by
    intro p d
    rw [hget₁, mem_removedMns hl]
    refine and_congr_right fun hd => ?_
    constructor
    · intro hid hnone
      have hp := hl.key hd
      exact hid ⟨d, hp.symm ▸ hd, hp.symm ▸ hnone, rfl⟩
    · rintro hsome ⟨e, he, hnone, hid⟩
      obtain ⟨rfl, -⟩ := hl.id_injective hd he hid.symm
      exact hsome hnone
  have hb₁ : Between serializeHash l l' r₁ :=
    ⟨hwf₁, fun hd => .inl ((hleft _ _).mp hd).1, fun hd =>
      Option.ne_none_iff_exists'.mp ((hleft _ _).mp hd).2⟩
  obtain ⟨r₂, hrun₂, hb₂, hget₂, hhash₂, hheight₂, htotal₂⟩ := adds_run hinj hs hl'
    (nodup_addedMNs hl') (fun d hd => (mem_addedMNs hl').mp hd) hb₁ fun d hd => by
      obtain ⟨-, hnew⟩ := (mem_addedMNs hl').mp hd
      refine Option.eq_none_iff_forall_ne_some.mpr fun e he => ?_
      have hold := ((hleft _ _).mp he).1
      simp [hnew] at hold
  have hstays : ∀ {t f : DeterministicMN}, l'.mnMap[t.proTxHash]? = some t →
      l.mnMap[t.proTxHash]? = some f → r₂.mnMap[t.proTxHash]? = some f := fun ht hf =>
    (hget₂ _ _).mpr (.inl ((hleft _ _).mpr ⟨hf, by simp [ht]⟩))
  obtain ⟨r₃, hrun₃, hwf₃, hin₃, hout₃, hhash₃, hheight₃, htotal₃⟩ := updates_run hinj hs hl'
    (nodup_keys (l.buildDiff l').updatedMNs) (fun e he => by
      obtain ⟨t, f, ht, hf, -, rfl⟩ := (mem_updatedMNs hl').mp he
      exact ⟨t, f, ht, hf, hstays ht hf, rfl⟩) hb₂
  -- an id of the updates belongs to a member that both lists have, in different states
  have hupdated : ∀ {p : Uint256} {t : DeterministicMN}, l'.mnMap[p]? = some t →
      (t.internalId ∈ (l.buildDiff l').updatedMNs.toList.map Prod.fst ↔
        ∃ f, l.mnMap[p]? = some f ∧ f.pdmnState ≠ t.pdmnState) := by
    intro p t ht
    obtain rfl := hl'.key ht
    rw [mem_map]
    constructor
    · rintro ⟨e, he, hid⟩
      obtain ⟨t₂, f, ht₂, hf, hne, rfl⟩ := (mem_updatedMNs hl').mp he
      obtain ⟨hp, rfl⟩ := hl'.id_injective ht₂ ht hid
      exact ⟨f, hf, hne⟩
    · rintro ⟨f, hf, hne⟩
      exact ⟨_, (mem_updatedMNs hl').mpr ⟨t, f, ht, hf, hne, rfl⟩, rfl⟩
  have hmn : r₃.mnMap = l'.mnMap := by
    refine ext fun p => ?_
    cases ht : l'.mnMap[p]? with
    | none =>
      rw [hout₃ p fun t ht' => by rw [ht] at ht'; cases ht']
      refine Option.eq_none_iff_forall_ne_some.mpr fun d hd => ?_
      obtain ⟨t, ht'⟩ := hb₂.stays hd
      rw [ht] at ht'
      cases ht'
    | some t =>
      obtain rfl := hl'.key ht
      by_cases hid : t.internalId ∈ (l.buildDiff l').updatedMNs.toList.map Prod.fst
      · exact hin₃ _ t ht hid
      · rw [hout₃ _ fun t₂ ht₂ => by rwa [← Option.mem_unique ht ht₂]]
        cases hf : l.mnMap[t.proTxHash]? with
        | none => exact (hget₂ _ _).mpr (.inr ⟨(mem_addedMNs hl').mpr ⟨ht, hf⟩, rfl⟩)
        | some f =>
          have hstate : f.pdmnState = t.pdmnState := by
            by_contra hne
            exact hid ((hupdated ht).mpr ⟨f, hf, hne⟩)
          rw [hstays ht hf, hs.kept hf ht, ← hstate]
  obtain ⟨hids, hprops⟩ := hwf₃.maps_eq hl' hmn
  refine ⟨r₃, ?_, ⟨hmn, hids, hprops, ?_, ?_⟩, ?_⟩
  · exact bind_ok.mpr ⟨r₁, hrun₁, bind_ok.mpr ⟨r₂, hrun₂, hrun₃⟩⟩
  · rw [hhash₃, hhash₂, hhash₁]
  · rw [hheight₃, hheight₂, hheight₁]
  · rw [htotal₃, htotal₂, htotal₁]

/-- A difference that could be applied removes no member without operator key. -/
theorem applyDiff_inv (hl : Wf serializeHash l) {blockHash : Uint256}
    (hrun : l.applyDiff serializeHash blockHash nHeight (l.buildDiff l') = .ok r) :
    RemovedKeyed l l' := by
  obtain ⟨r₁, hremoves, -⟩ := bind_ok.mp hrun
  intro d hmem hnone
  have hd := hl.mem_members.mp hmem
  have hl₀ : Wf serializeHash { l with blockHash := blockHash, nHeight := nHeight } :=
    hl.of_maps_eq rfl rfl rfl
  exact removes_inv hinj (nodup_keys _) hl₀ hremoves hd
    ((mem_removedMns hl).mpr ⟨d, hd, hnone, rfl⟩)

/-- **The exact condition**: the list is rebuilt from the stored difference if and only if
the difference fits and no removed member is without operator key. -/
theorem rebuild_iff (hl : Wf serializeHash l) (hl' : Wf serializeHash l') (hs : Succeeds l l')
    (howner : ∀ d ∈ l.members, d.pdmnState.keyIDOwner ≠ 0)
    (hfit : ∀ d ∈ l'.members, d.pdmnState.ScriptsFit) (h64 : l.members.length < 2 ^ 64)
    (h64' : l'.members.length < 2 ^ 64) :
    (∃ r, l.rebuild serializeHash l' = .ok r ∧ SameList r l') ↔
      ChangesFit l l' ∧ RemovedKeyed l l' := by
  have hread := fun hchanges => reads_buildDiff hl hl' hfit hchanges []
  simp only [append_nil] at hread
  unfold rebuild
  constructor
  · rintro ⟨r, hrun, -⟩
    by_cases hchanges : ChangesFit l l'
    · rw [hread hchanges] at hrun
      exact ⟨hchanges, applyDiff_inv hinj hl hrun⟩
    · obtain ⟨e, hread⟩ := unserialize_too_many_changes hl hl' hfit h64 h64' hchanges
      simp [hread] at hrun
  · rintro ⟨hchanges, hkeyed⟩
    rw [hread hchanges]
    obtain ⟨r, hrun, hsame, -⟩ := applyDiff_run hinj hl hl' hs howner hkeyed
    exact ⟨r, hrun, hsame⟩

end

/-! ### What keeps a list a successor -/

theorem Wf.not_heldByOther (h : Wf serializeHash l) {v}
    (hheld : l.heldByOther serializeHash v p = .ok false) : ∀ q, q ≠ p → v ∉ l.owned q := by
  obtain ⟨b, hb, hiff⟩ := h.heldByOther_eq v p
  rw [hheld] at hb
  obtain rfl : false = b := Except.ok.inj hb
  exact fun q hq hv => by cases hiff.mpr ⟨q, hq, hv⟩

namespace Succeeds

variable {l₁ l₂ : DeterministicMNList}

/-- A list comes after itself. -/
theorem refl (hl : Wf serializeHash l) : Succeeds l l := by
  refine ⟨?_, ?_, ?_⟩
  · intro p d d' hd hd'
    obtain rfl := Option.mem_unique hd hd'
    rfl
  · intro p d' hd' hnone
    rw [hnone] at hd'
    cases hd'
  · intro p q d' v hd' hv hq hne
    exact absurd (hl.owns.unique hq (mem_owned.mpr ⟨d', hd', hv⟩)) hne

/-- A list with members that a successor has, with the same identity, is a successor. -/
theorem next {paid} (h : Succeeds l l₁) (hold : ∀ {p : Uint256} {d₂ : DeterministicMN},
    l₂.mnMap[p]? = some d₂ → ∃ d₁, l₁.mnMap[p]? = some d₁ ∧ d₁.SameIdentity paid d₂) :
    Succeeds l l₂ := by
  refine ⟨?_, ?_, ?_⟩
  · intro p d d₂ hd hd₂
    obtain ⟨d₁, hd₁, hs⟩ := hold hd₂
    rw [hs.eq, h.kept hd hd₁]
  · intro p d₂ hd₂ hnone
    obtain ⟨d₁, hd₁, hs⟩ := hold hd₂
    rw [hs.state.keyIDOwner, hs.state.keyIDOperator]
    exact h.added hd₁ hnone
  · intro p q d₂ v hd₂ hv hvq hne
    obtain ⟨d₁, hd₁, hs⟩ := hold hd₂
    rw [hs.uniqueProperties] at hv
    refine Option.eq_none_iff_forall_ne_some.mpr fun e he => ?_
    obtain ⟨e₁, he₁, -⟩ := hold he
    simp [h.apart hd₁ hv hvq hne] at he₁

/-- Removing members keeps a successor. -/
theorem sub (h : Succeeds l l₁)
    (hsub : ∀ (p : Uint256) d, l₂.mnMap[p]? = some d → l₁.mnMap[p]? = some d) : Succeeds l l₂ :=
  h.next fun {_ d} hd => ⟨d, hsub _ d hd, (.refl d : d.SameIdentity false d)⟩

/-- Updating a member of `l` keeps a successor when its new values had no other owner. -/
theorem updated (h : Succeeds l l₁) {s}
    (hu : Updated serializeHash l₁ l₂ p d s) (hold : ∃ d₀, l.mnMap[p]? = some d₀)
    (hvalues : ∀ v ∈ uniqueProperties { d with pdmnState := s }, v ∈ d.uniqueProperties ∨ ∀ q, q ≠ p → v ∉ l.owned q)
    : Succeeds l l₂ := by
  have hnone : ∀ {q : Uint256}, l₁.mnMap[q]? = none → l₂.mnMap[q]? = none := by
    intro q hq
    rw [hu.mnMap, get_insert]
    split_ifs with heq
    · rw [← heq, hu.get] at hq
      cases hq
    · exact hq
  refine ⟨?_, ?_, ?_⟩
  · intro q d₀ d' hd₀ hd'
    rw [hu.mnMap] at hd'
    rcases of_get_insert hd' with ⟨rfl, rfl⟩ | ⟨-, hd'⟩
    · rw [h.kept hd₀ hu.get]
    · exact h.kept hd₀ hd'
  · intro q d' hd' hq
    rw [hu.mnMap, get_insert] at hd'
    split_ifs at hd' with heq
    · subst heq
      obtain ⟨d₀, hd₀⟩ := hold
      simp [hq] at hd₀
    · exact h.added hd' hq
  · intro q q' d' v hd' hv hvq hne
    rw [hu.mnMap] at hd'
    rcases of_get_insert hd' with ⟨rfl, rfl⟩ | ⟨-, hd'⟩
    · rcases hvalues v hv with hv | hfree
      · exact hnone (h.apart hu.get hv hvq hne)
      · exact absurd hvq (hfree q' hne)
    · exact hnone (h.apart hd' hv hvq hne)

/-- Registering a member that `l` does not have keeps a successor when the earlier owners of
its values had the collateral that is taken over. -/
theorem registered (h : Succeeds l l₁) {lw}
    (hr : Registered serializeHash nHeight tx pl l₁ lw l₂) (hnew : l.mnMap[tx.hash]? = none)
    (hvalues : ∀ v ∈ (pl.newMN tx l₁.nTotalRegisteredCount.toUInt64 nHeight).uniqueProperties, ∀ (q : Uint256) (f : DeterministicMN), l.mnMap[q]? = some f → v ∈ f.uniqueProperties → f.collateralOutpoint = pl.collateral tx)
    : Succeeds l l₂ := by
  have hw : Succeeds l lw := h.sub fun p d hd => ((hr.without.mem p d).mp hd).1
  have hget : ∀ {q : Uint256}, q ≠ tx.hash → l₂.mnMap[q]? = lw.mnMap[q]? := by
    intro q hq
    rw [hr.mnMap, get_insert_ne (Ne.symm hq)]
  have hne : ∀ {q : Uint256} {d}, l.mnMap[q]? = some d → q ≠ tx.hash := by
    rintro q d hd rfl
    simp [hnew] at hd
  refine ⟨?_, ?_, ?_⟩
  · intro q d d' hd hd'
    rw [hget (hne hd)] at hd'
    exact hw.kept hd hd'
  · intro q d' hd' hq
    by_cases heq : q = tx.hash
    · subst heq
      rw [hr.mnMap, get_insert_self] at hd'
      obtain rfl := Option.some.inj hd'
      exact ⟨hr.canAdd.owner, hr.canAdd.operator⟩
    · rw [hget heq] at hd'
      exact hw.added hd' hq
  · intro q q' d' v hd' hv hvq hqq'
    obtain ⟨f, hf, hvf⟩ := mem_owned.mp hvq
    rw [hget (hne hf)]
    by_cases heq : q = tx.hash
    · subst heq
      rw [hr.mnMap, get_insert_self] at hd'
      obtain rfl := Option.some.inj hd'
      -- the earlier owner had the collateral, so it was removed
      refine Option.eq_none_iff_forall_ne_some.mpr fun e he => ?_
      obtain ⟨he₁, hc⟩ := (hr.without.mem q' e).mp he
      refine hc ?_
      rw [h.kept hf he₁]
      exact hvalues v hv q' f hf hvf
    · rw [hget heq] at hd'
      exact hw.apart hd' hv hvq hqq'

end Succeeds

end DeterministicMNList

/-! ### The list of a block -/

variable {env : Env}

/-- An update that passed is of a masternode of the previous list, and gives it only values
that no other masternode had there. -/
theorem txUpdate_values {f : DeterministicMNState → DeterministicMNState}
    (hwf : Wf env.serializeHash prev.mnList) (hpass : checkSpecialTx env tx prev = .ok ())
    (hu : txUpdate nHeight tx = some (p, f)) (d : DeterministicMN) :
    (∃ d₀, prev.mnList.mnMap[p]? = some d₀) ∧
      ∀ v ∈ uniqueProperties { d with pdmnState := f d.pdmnState },
        v ∈ d.uniqueProperties ∨ ∀ q, q ≠ p → v ∉ prev.mnList.owned q := by
  obtain ⟨pl, hchecked, rfl, rfl⟩ | ⟨pl, hchecked, rfl, rfl⟩ | ⟨pl, hchecked, rfl, rfl⟩ :=
    txUpdate_passed hpass hu
  all_goals
    refine ⟨hchecked.member, fun v hv => ?_⟩
    obtain ⟨hnull, hv⟩ := mem_uniqueProperties.mp hv
  · simp only [ProUpServPL.newState_fields] at hv
    by_cases haddr : v = .service pl.addr
    · exact .inr (haddr ▸ hwf.not_heldByOther hchecked.addr)
    · refine .inl (mem_uniqueProperties.mpr ⟨hnull, ?_⟩)
      exact hv.imp_right fun hv => .inr (hv.resolve_left haddr)
  · simp only [ProUpRegPL.newState_fields] at hv
    by_cases hkey : v = .keyID pl.keyIDOperator
    · exact .inr (hkey ▸ hwf.not_heldByOther hchecked.key)
    · refine .inl (mem_uniqueProperties.mpr ⟨hnull, ?_⟩)
      rcases hv with hv | hv | hv | hv
      · exact .inl hv
      · split_ifs at hv with hsame
        · -- the address was reset
          subst hv
          simp [isNull] at hnull
        · exact .inr (.inl hv)
      · exact .inr (.inr (.inl hv))
      · exact absurd hv hkey
  · simp only [ProUpRevPL.newState_fields] at hv
    refine .inl (mem_uniqueProperties.mpr ⟨hnull, ?_⟩)
    rcases hv with hv | rfl | hv | rfl
    · exact .inl hv
    · simp [isNull] at hnull
    · exact .inr (.inr (.inl hv))
    · simp [isNull] at hnull

/-- No transaction has the null hash. -/
def HashesNonNull (txs : List Transaction) : Prop := ∀ tx ∈ txs, tx.hash ≠ 0

/-- The collateral of a member is an output of a transaction. -/
theorem Registry.collateral_hash {n : Nat} {l} (h : Registry env txs n l)
    (hnonnull : HashesNonNull txs) (hd : l.mnMap[p]? = some d) : d.collateralOutpoint.hash ≠ 0 := by
  obtain ⟨tx, htx, -, pl, -, -, hc⟩ := h.origin hd
  rw [← hc, ProRegPL.collateral]
  split_ifs with hnull
  · exact hnonnull tx htx
  · exact hnull

/-- A registration that passed is of a masternode that the previous list does not have. -/
theorem Registry.registration_new {n : Nat} (h : Registry env txs n prev.mnList)
    (hident : HashesIdentify txs) (htx : tx ∈ txs) (hpl : getTxPayload getProRegPL tx = some pl)
    (hchecked : ProRegChecked env tx prev pl) : prev.mnList.mnMap[tx.hash]? = none := by
  refine Option.eq_none_iff_forall_ne_some.mpr fun d hd => ?_
  obtain ⟨tx', htx', hhash, pl', hpl', howner, -⟩ := h.origin hd
  obtain rfl := hident tx' htx' tx htx hhash
  obtain rfl := Option.mem_unique hpl' hpl
  -- its owner key would be in use
  refine h.wf.hasUniqueProperty_false.mp hchecked.newOwner tx'.hash (mem_owned.mpr ⟨d, hd, ?_⟩)
  refine mem_uniqueProperties.mpr ⟨?_, by simp [howner]⟩
  simpa [isNull] using hchecked.owner

/-- The values of a registration that passed had no owner in the previous list, except the
masternode whose collateral it takes over. -/
theorem proReg_values (hwf : Wf env.serializeHash prev.mnList)
    (hcoll : ∀ {q : Uint256} {f : DeterministicMN}, prev.mnList.mnMap[q]? = some f → f.collateralOutpoint.hash ≠ 0)
    (hchecked : ProRegChecked env tx prev pl) (id : UInt64) (nHeight : Int32) :
    ∀ v ∈ (pl.newMN tx id nHeight).uniqueProperties, ∀ (q : Uint256) (f : DeterministicMN),
      prev.mnList.mnMap[q]? = some f → v ∈ f.uniqueProperties →
        f.collateralOutpoint = pl.collateral tx := by
  intro v hv q f hf hvf
  have howned : v ∈ prev.mnList.owned q := mem_owned.mpr ⟨f, hf, hvf⟩
  obtain ⟨hnull, hv⟩ := mem_uniqueProperties.mp hv
  rcases hv with rfl | rfl | rfl | rfl
  · simpa [mem_uniqueProperties, ProRegPL.newMN, eq_comm] using
      (mem_uniqueProperties.mp hvf).2
  · have hkey := hwf.key hf
    have haddr := hchecked.addr f (hwf.getUniquePropertyMN_eq_some.mpr ⟨hkey.symm ▸ hf, hvf⟩)
    have hext : pl.collateralOutpoint.hash ≠ 0 := haddr ▸ hcoll hf
    rw [haddr, ProRegPL.collateral, if_neg hext]
  · exact absurd howned (hwf.hasUniqueProperty_false.mp hchecked.newOwner q)
  · exact absurd howned (hwf.hasUniqueProperty_false.mp hchecked.newOperator q)

/-- **The list of a block comes after the previous list.** -/
theorem build_succeeds (hinj : Function.Injective env.serializeHash) {vtx}
    {n : Nat} {l'} (hreg : Registry env txs n prev.mnList)
    (hpass : SpecialTxsPass env vtx prev) (hident : HashesIdentify (txs ++ vtx))
    (hnonnull : HashesNonNull txs) (hr : buildNewListFromBlock env vtx prev = .ok l')
    : Succeeds prev.mnList l' := by
  have hreg' : Registry env (txs ++ vtx) n prev.mnList :=
    hreg.mono (fun tx htx => mem_append_left _ htx) le_rfl
  have hinv : BlockInv env prev vtx fun _ _ l => Succeeds prev.mnList l := by
    refine ⟨?_, ?_, ?_⟩
    · intro l hquiet
      exact (Succeeds.refl hreg.wf).next fun hd => hquiet.old hd
    · intro pre tx post l l' hsplit hwf hs hstep
      have htx : tx ∈ vtx := mem_of_mem_tail (by simp [hsplit])
      rcases applyTx_cases hinj hwf hstep with ⟨htype, pl, lw, hpl, hregd⟩ |
        ⟨-, p, f, d, hu, hupd⟩ | ⟨-, -, rfl⟩
      · have hchecked := proReg_checked (hpass tx htx) htype hpl
        refine hs.registered hregd ?_ ?_
        · exact hreg'.registration_new hident (mem_append_right _ htx) hpl hchecked
        · exact proReg_values hreg.wf (fun hf => hreg.collateral_hash hnonnull hf) hchecked _ _
      · obtain ⟨hold, hvalues⟩ := txUpdate_values hreg.wf (hpass tx htx) hu d
        exact hs.updated hupd hold hvalues
      · exact hs
    · exact fun pre txin post l l' _ hs hw => hs.sub fun p d hd => ((hw.mem p d).mp hd).1
  exact hinv.build hinj hreg.wf (fun _ _ hs hquiet => hs.next fun hd => hquiet.old hd) hr

/-- **The next list of a chain is rebuilt from the stored difference exactly if no masternode
that the block removes is without operator key before the block** (and the difference fits). -/
theorem chain_rebuild_iff (hinj : Function.Injective env.serializeHash)
    {txs vtx : List Transaction} {prev : PrevIndex} {l' : DeterministicMNList}
    (hchain : ChainList env txs prev.nHeight prev.mnList) (hpass : SpecialTxsPass env vtx prev)
    (hident : HashesIdentify (txs ++ vtx)) (hnonnull : HashesNonNull txs)
    (hcount : regCount (txs ++ vtx) < 2 ^ 32) (hr : buildNewListFromBlock env vtx prev = .ok l')
    (blockHash : Uint256) :
    (∃ r, prev.mnList.rebuild env.serializeHash (l'.setBlockHash blockHash) = .ok r ∧
        SameList r (l'.setBlockHash blockHash)) ↔
      ChangesFit prev.mnList (l'.setBlockHash blockHash) ∧
        RemovedKeyed prev.mnList (l'.setBlockHash blockHash) := by
  rw [regCount_append] at hcount
  have hreg := hchain.registry hinj (by omega)
  have hreg' : Registry env (txs ++ vtx) (regCount txs + regCount vtx)
      (l'.setBlockHash blockHash) := (hreg.build hinj hpass hcount hr).header rfl rfl rfl rfl
  have hs : Succeeds prev.mnList (l'.setBlockHash blockHash) :=
    (build_succeeds hinj hreg hpass hident hnonnull hr).sub fun _ _ hd => hd
  refine rebuild_iff hinj hreg.wf hreg'.wf hs ?_ ?_ hreg.length_members_lt hreg'.length_members_lt
  · exact fun d hd => hreg.owner (hreg.wf.mem_members.mp hd)
  · exact hreg'.scriptsFit

namespace Sample

/-- Give the revoked masternode a new operator key. -/
def rekey : Transaction :=
  { revoke with
    hash := 5, nType := .proUpReg, vin := [⟨⟨7, 2⟩, []⟩]
    extraPayload := some (putProUpRegPL
      { proTxHash := 2, keyIDOperator := 6, keyIDVoting := 3, scriptPayout := p2pkh 4,
        inputsHash := 0, vchSig := [] }) }

/-- The list after the masternode was spent with its operator key. -/
def spentList : DeterministicMNList := (nextIndex regtest registered 120 [coinbase, spend]).mnList

/-- The list after the revoked masternode got a new key and was spent in the same block. -/
def rekeyedSpentList : DeterministicMNList :=
  (nextIndex regtest revoked 120 [coinbase, rekey, spend]).mnList

theorem nextIndex_spend :
    ∃ l', buildNewListFromBlock regtest [coinbase, spend] registered = .ok l' ∧
      spentList = l'.setBlockHash 120 :=
  nextIndex_mnList (by decide +kernel)

end Sample

open Sample

/-- The spend of a masternode with its operator key can be rebuilt. -/
theorem spend_rebuilds : ∃ r, registered.mnList.rebuild regtest.serializeHash spentList = .ok r ∧
      SameList r spentList := by
  obtain ⟨l', hr, hl'⟩ := nextIndex_spend
  rw [hl']
  refine (chain_rebuild_iff serializeHash_injective registered_chain
    (by decide +kernel) (by unfold HashesIdentify; decide +kernel)
    (by unfold HashesNonNull; decide +kernel) (by decide) hr 120).mpr ?_
  rw [← hl']
  refine ⟨⟨?_, ?_, ?_⟩, ?_⟩
  · decide +kernel
  · decide +kernel
  · decide +kernel
  · unfold RemovedKeyed
    decide +kernel

/-- **A new key and a spend in one block**: the block is accepted, but its difference to the
list with the revoked masternode cannot be applied. -/
theorem rekeyed_spend_not_rebuilt : ChainList regtest [coinbase, register, coinbase, revoke]
      revoked.nHeight revoked.mnList ∧ SpecialTxsPass regtest [coinbase, rekey, spend] revoked ∧
    (∃ l', buildNewListFromBlock regtest [coinbase, rekey, spend]
      revoked = .ok l' ∧ rekeyedSpentList = l'.setBlockHash 120) ∧
    revoked.mnList.rebuild regtest.serializeHash rekeyedSpentList =
      .error (.abort "oldValue != nullValue") :=
  ⟨revoked_chain, by decide +kernel, nextIndex_mnList (by decide +kernel),
    by decide +kernel⟩

end KmushiCoin
