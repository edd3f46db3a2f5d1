import KmushiCoin.Evo.MNList

/-!
# KmushiCoin.Evo.MNListSound

The **representation invariant** of the masternode list (`Wf`) and what it gives
the users of the list.

* Every member owns the multiset of its non-null unique properties
  (`uniqueProperties`), and the unique-property map is the reference-counted
  index of that ownership (`RefIndex.Owns`).
* Each of the three index operations has an inversion lemma (what a completed
  call did to the ownership) and a progress lemma (when it completes); the list
  operations are read off these, field by field.
* `Reachable` collects the lists built from the empty one by completed calls;
  they are all well formed.
-/

namespace KmushiCoin

open Function DeterministicMN UniqueProperty FMap Option

open RefIndex (Owns)

/-! ### What a member owns -/

/-- The contribution of one property: nothing when it is null. -/
def UniqueProperty.single (v : UniqueProperty) : Multiset UniqueProperty :=
  if v.isNull then 0 else {v}

variable {v : UniqueProperty}

theorem UniqueProperty.isNull_keyID {k} : (keyID k).isNull = false ↔ k ≠ 0 := by
  simp [isNull]

theorem UniqueProperty.isNull_outpoint {o} : (outpoint o).isNull = false ↔ o ≠ .null := by
  simp [isNull]

theorem UniqueProperty.single_of_null (h : v.isNull = true) : v.single = 0 := by
  simp [single, h]

theorem UniqueProperty.single_of_not_null (h : v.isNull = false) : v.single = {v} := by
  simp [single, h]

theorem UniqueProperty.mem_single {w} : w ∈ v.single ↔ w = v ∧ v.isNull = false := by
  cases h : v.isNull <;> simp [single, h]

/-- A numbering of the properties: the assumption that hashes do not collide can be met. -/
def UniqueProperty.numbering : UniqueProperty → Nat
  | .outpoint o => 3 * (o.hash.val * 2 ^ 32 + o.n.toNat)
  | .service s => 3 * (s.ip.val * 2 ^ 16 + s.port.toNat) + 1
  | .keyID k => 3 * k.val + 2

theorem UniqueProperty.numbering_injective : Injective numbering := by
  intro v w h
  -- the remainder by three tells the kinds apart
  cases v <;> cases w <;> simp only [numbering] at h <;> try omega
  case outpoint.outpoint o o' =>
    obtain ⟨⟨a, ha⟩, n⟩ := o
    obtain ⟨⟨b, hb⟩, n'⟩ := o'
    dsimp only at h
    have h1 := n.toNat_lt
    have h2 := n'.toNat_lt
    obtain rfl : a = b := by omega
    obtain rfl : n = n' := UInt32.toNat_inj.mp (by omega)
    rfl
  case service.service s s' =>
    obtain ⟨⟨a, ha⟩, n⟩ := s
    obtain ⟨⟨b, hb⟩, n'⟩ := s'
    dsimp only at h
    have h1 := n.toNat_lt
    have h2 := n'.toNat_lt
    obtain rfl : a = b := by omega
    obtain rfl : n = n' := UInt16.toNat_inj.mp (by omega)
    rfl
  case keyID.keyID k k' => rw [Fin.ext (show k.val = k'.val by omega)]

open UniqueProperty (outpoint service keyID isNull_keyID isNull_outpoint mem_single numbering
  numbering_injective)

/-- The values a masternode uses: its collateral, address, owner key and operator key,
as far as they are not null. -/
def DeterministicMN.uniqueProperties (dmn : DeterministicMN) : Multiset UniqueProperty :=
  (outpoint dmn.collateralOutpoint).single +
    (service dmn.pdmnState.addr).single +
    (keyID dmn.pdmnState.keyIDOwner).single +
    (keyID dmn.pdmnState.keyIDOperator).single

theorem DeterministicMN.mem_uniqueProperties {dmn : DeterministicMN} :
    v ∈ dmn.uniqueProperties ↔ v.isNull = false ∧
      (v = .outpoint dmn.collateralOutpoint ∨ v = .service dmn.pdmnState.addr ∨
        v = .keyID dmn.pdmnState.keyIDOwner ∨ v = .keyID dmn.pdmnState.keyIDOperator) := by
  simp only [uniqueProperties, Multiset.mem_add, mem_single]
  constructor
  · rintro (((⟨rfl, h⟩ | ⟨rfl, h⟩) | ⟨rfl, h⟩) | ⟨rfl, h⟩) <;> simp [h]
  · rintro ⟨h, rfl | rfl | rfl | rfl⟩ <;> simp [h]

/-! ### The index operations -/

section Index

variable {serializeHash : UniqueProperty → Nat}
variable {m m' : MnUniquePropertyMap} {own : Uint256 → Multiset UniqueProperty}
variable {v w : UniqueProperty} (dmn : DeterministicMN)
variable (hinj : Injective serializeHash) (h : Owns serializeHash m own)
include hinj h

/-- `AddUniqueProperty` completes for a value that nobody else uses. -/
theorem addUniqueProperty_run (hnull : v.isNull = false)
    (hfree : ∀ p, p ≠ dmn.proTxHash → v ∉ own p) :
    ∃ m', addUniqueProperty serializeHash m dmn v = .ok m' ∧ Owns serializeHash m'
        (update own dmn.proTxHash (own dmn.proTxHash + v.single)) := by
  have hadd := h.add hinj (k := dmn.proTxHash) hfree
  rw [← Multiset.singleton_add, Multiset.add_comm, ← single_of_not_null hnull] at hadd
  refine ⟨_, ?_, hadd⟩
  unfold addUniqueProperty
  cases he : m[serializeHash v]? with
  | none =>
    have hcount := Multiset.count_eq_zero.mpr (h.not_mem_of_lookup_none (k := dmn.proTxHash) he)
    simp [hnull, hcount, assert, bind, Except.bind]
  | some oldEntry =>
    obtain ⟨p, c⟩ := oldEntry
    have hp : p = dmn.proTxHash := by
      by_contra hne
      exact hfree p hne (h.mem_of_lookup he)
    rw [hp] at he
    simp [hnull, hp, ((h.entry _ _ _).mp he).2, assert, bind, Except.bind]

/-- What a completed `AddUniqueProperty` did. -/
theorem addUniqueProperty_inv (hr : addUniqueProperty serializeHash m dmn v = .ok m') :
    v.isNull = false ∧ (∀ p, p ≠ dmn.proTxHash → v ∉ own p) ∧ Owns serializeHash m'
        (update own dmn.proTxHash (own dmn.proTxHash + v.single)) := by
  have hcond : v.isNull = false ∧ ∀ p, p ≠ dmn.proTxHash → v ∉ own p := by
    unfold addUniqueProperty at hr
    obtain ⟨_, hnull, hr⟩ := bind_ok.mp hr
    rw [assert_ok, Bool.not_eq_true'] at hnull
    refine ⟨hnull, fun p hp hv => hp ?_⟩
    rw [h.lookup_of_mem hv] at hr
    obtain ⟨_, howner, -⟩ := bind_ok.mp hr
    rwa [assert_ok, beq_iff_eq] at howner
  obtain ⟨m'', hrun, ho⟩ := addUniqueProperty_run dmn hinj h hcond.1 hcond.2
  exact ⟨hcond.1, hcond.2, ok_unique hrun hr ▸ ho⟩

/-- `DeleteUniqueProperty` completes for a non-null value that the masternode uses. -/
theorem deleteUniqueProperty_run (hnull : v.isNull = false) (hmem : v ∈ own dmn.proTxHash) :
    ∃ m', deleteUniqueProperty serializeHash m dmn v = .ok m' ∧ Owns serializeHash m'
        (update own dmn.proTxHash (own dmn.proTxHash - v.single)) := by
  have hpos := Multiset.count_pos.mpr hmem
  rw [deleteUniqueProperty, h.lookup_of_mem hmem, single_of_not_null hnull, Multiset.sub_singleton]
  by_cases hc : (own dmn.proTxHash).count v = 1
  · exact ⟨_, by simp [hnull, hc, assert, bind, Except.bind], h.dropLast hinj hc⟩
  · exact ⟨_, by simp [hnull, hc, assert, bind, Except.bind], h.drop hinj (by omega)⟩

/-- What a completed `DeleteUniqueProperty` did. -/
theorem deleteUniqueProperty_inv (hr : deleteUniqueProperty serializeHash m dmn v = .ok m') :
    v.isNull = false ∧ v ∈ own dmn.proTxHash ∧ Owns serializeHash m'
        (update own dmn.proTxHash (own dmn.proTxHash - v.single)) := by
  have hcond : v.isNull = false ∧ v ∈ own dmn.proTxHash := by
    unfold deleteUniqueProperty at hr
    obtain ⟨_, hnull, hr⟩ := bind_ok.mp hr
    rw [assert_ok, Bool.not_eq_true'] at hnull
    split at hr
    · cases hr
    rename_i p he
    obtain ⟨_, howner, -⟩ := bind_ok.mp hr
    rw [assert_ok, beq_iff_eq] at howner
    exact ⟨hnull, howner ▸ h.mem_of_lookup (k := p.1) (c := p.2) he⟩
  obtain ⟨m'', hrun, ho⟩ := deleteUniqueProperty_run dmn hinj h hcond.1 hcond.2
  exact ⟨hcond.1, hcond.2, ok_unique hrun hr ▸ ho⟩

theorem addUnlessNull_run (hfree : v.isNull = false → ∀ p, p ≠ dmn.proTxHash → v ∉ own p) :
    ∃ m', addUnlessNull serializeHash m dmn v = .ok m' ∧ Owns serializeHash m'
        (update own dmn.proTxHash (own dmn.proTxHash + v.single)) := by
  unfold addUnlessNull
  cases hv : v.isNull with
  | true =>
    rw [single_of_null hv, add_zero, update_eq_self]
    exact ⟨m, rfl, h⟩
  | false => exact addUniqueProperty_run dmn hinj h hv (hfree hv)

theorem addUnlessNull_inv (hr : addUnlessNull serializeHash m dmn v = .ok m') :
    Owns serializeHash m' (update own dmn.proTxHash (own dmn.proTxHash + v.single)) := by
  have hadd : v.isNull = false → addUniqueProperty serializeHash m dmn v = .ok m' := fun hv => by
    simpa [addUnlessNull, hv] using hr
  obtain ⟨m'', hrun, ho⟩ := addUnlessNull_run dmn hinj h fun hv =>
    (addUniqueProperty_inv dmn hinj h (hadd hv)).2.1
  exact ok_unique hrun hr ▸ ho

theorem deleteUnlessNull_run (hmem : v.single ≤ own dmn.proTxHash) :
    ∃ m', deleteUnlessNull serializeHash m dmn v = .ok m' ∧ Owns serializeHash m'
        (update own dmn.proTxHash (own dmn.proTxHash - v.single)) := by
  unfold deleteUnlessNull
  cases hv : v.isNull with
  | true =>
    rw [single_of_null hv, tsub_zero, update_eq_self]
    exact ⟨m, rfl, h⟩
  | false =>
    exact deleteUniqueProperty_run dmn hinj h hv (Multiset.mem_of_le hmem (mem_single.mpr ⟨rfl, hv⟩))

theorem deleteUnlessNull_inv (hr : deleteUnlessNull serializeHash m dmn v = .ok m') :
    Owns serializeHash m' (update own dmn.proTxHash (own dmn.proTxHash - v.single)) := by
  have hmem : v.single ≤ own dmn.proTxHash := by
    cases hv : v.isNull with
    | true => simp [single_of_null hv]
    | false =>
      have hdel : deleteUniqueProperty serializeHash m dmn v = .ok m' := by
        simpa [deleteUnlessNull, hv] using hr
      rw [single_of_not_null hv, Multiset.singleton_le]
      exact (deleteUniqueProperty_inv dmn hinj h hdel).2.1
  obtain ⟨m'', hrun, ho⟩ := deleteUnlessNull_run dmn hinj h hmem
  exact ok_unique hrun hr ▸ ho

/-- `UpdateUniqueProperty` completes when the masternode uses the old value and nobody
else uses the new one. -/
theorem updateUniqueProperty_run (hold : v.single ≤ own dmn.proTxHash)
    (hfree : ∀ p, p ≠ dmn.proTxHash → w ∉ own p) :
    ∃ m', updateUniqueProperty serializeHash m dmn v w = .ok m' ∧ Owns serializeHash m'
        (update own dmn.proTxHash (own dmn.proTxHash - v.single + w.single)) := by
  unfold updateUniqueProperty
  split_ifs with heq
  · rw [heq, tsub_add_cancel_of_le (heq ▸ hold), update_eq_self]
    exact ⟨m, rfl, h⟩
  · obtain ⟨m₁, hdel, ho₁⟩ := deleteUnlessNull_run dmn hinj h hold
    obtain ⟨m₂, hadd, ho₂⟩ := addUnlessNull_run (v := w) dmn hinj ho₁
      fun _ p hp => by rw [update_of_ne hp]; exact hfree p hp
    rw [update_self, update_idem] at ho₂
    exact ⟨m₂, bind_ok.mpr ⟨m₁, hdel, hadd⟩, ho₂⟩

/-- What a completed `UpdateUniqueProperty` did, for a masternode that uses the old value. -/
theorem updateUniqueProperty_inv (hold : v.single ≤ own dmn.proTxHash)
    (hr : updateUniqueProperty serializeHash m dmn v w = .ok m') : Owns serializeHash m'
      (update own dmn.proTxHash (own dmn.proTxHash - v.single + w.single)) := by
  unfold updateUniqueProperty at hr
  split_ifs at hr with heq
  · cases hr
    rwa [heq, tsub_add_cancel_of_le (heq ▸ hold), update_eq_self]
  · obtain ⟨m₁, hdel, hadd⟩ := bind_ok.mp hr
    have ho := addUnlessNull_inv dmn hinj (deleteUnlessNull_inv dmn hinj h hdel) hadd
    rwa [update_self, update_idem] at ho

end Index

namespace DeterministicMNList

/-! ### The invariant -/

/-- What the member under a registration hash owns. -/
def owned (l : DeterministicMNList) (p : Uint256) : Multiset UniqueProperty :=
  match l.mnMap[p]? with
  | none => 0
  | some dmn => dmn.uniqueProperties

variable {serializeHash : UniqueProperty → Nat}
variable {l l' : DeterministicMNList} {dmn : DeterministicMN} {p : Uint256} {v : UniqueProperty}

theorem owned_of_get (h : l.mnMap[p]? = some dmn) : l.owned p = dmn.uniqueProperties := by
  simp [owned, h]

theorem owned_of_none (h : l.mnMap[p]? = none) : l.owned p = 0 := by
  simp [owned, h]

theorem mem_owned : v ∈ l.owned p ↔ ∃ dmn, l.mnMap[p]? = some dmn ∧ v ∈ dmn.uniqueProperties := by
  cases h : l.mnMap[p]? <;> simp [owned, h]

theorem not_isNull_of_mem_owned (h : v ∈ l.owned p) : v.isNull = false := by
  obtain ⟨dmn, -, hv⟩ := mem_owned.mp h
  exact (mem_uniqueProperties.mp hv).1

/-- The **representation invariant**: the two auxiliary maps are the ones the members
determine. -/
structure Wf (serializeHash : UniqueProperty → Nat) (l : DeterministicMNList) : Prop where
  /-- A member is stored under its registration hash. -/
  key : ∀ {p : Uint256} {dmn : DeterministicMN}, l.mnMap[p]? = some dmn → dmn.proTxHash = p
  /-- The internal-id map is the inverse of the members' internal ids. -/
  ids : ∀ (i : UInt64) (p : Uint256), l.mnInternalIdMap[i]? = some p ↔
    ∃ dmn, l.mnMap[p]? = some dmn ∧ dmn.internalId = i
  /-- Every member was given an internal id. -/
  assigned : ∀ {p : Uint256} {dmn : DeterministicMN}, l.mnMap[p]? = some dmn →
    dmn.internalId ≠ noInternalId
  /-- Every member has a collateral. -/
  collateral : ∀ {p : Uint256} {dmn : DeterministicMN}, l.mnMap[p]? = some dmn →
    dmn.collateralOutpoint ≠ OutPoint.null
  /-- The unique-property map is the index of what the members own. -/
  owns : Owns serializeHash l.mnUniquePropertyMap l.owned

theorem wf_empty (blockHash : Uint256) (nHeight : Int32) (nTotalRegisteredCount : UInt32) :
    Wf serializeHash ⟨blockHash, nHeight, nTotalRegisteredCount, ∅, ∅, ∅⟩ := by
  refine ⟨?_, ?_, ?_, ?_, ?_⟩
  · intro p dmn h
    simp at h
  · intro i p
    simp
  · intro p dmn h
    simp at h
  · intro p dmn h
    simp at h
  · exact Owns.empty.congr fun p => (owned_of_none (by simp)).symm

section
variable (h : Wf serializeHash l)
include h

/-- Only the maps matter for the invariant. -/
theorem Wf.of_maps_eq (hmn : l'.mnMap = l.mnMap) (hid : l'.mnInternalIdMap = l.mnInternalIdMap)
    (hup : l'.mnUniquePropertyMap = l.mnUniquePropertyMap) : Wf serializeHash l' := by
  obtain ⟨bh, nh, nt, mn, ids, ups⟩ := l'
  obtain rfl := hmn
  obtain rfl := hid
  obtain rfl := hup
  exact ⟨h.key, h.ids, h.assigned, h.collateral, h.owns⟩

/-- The members determine the auxiliary maps. -/
theorem Wf.maps_eq (h' : Wf serializeHash l') (hmn : l.mnMap = l'.mnMap) :
    l.mnInternalIdMap = l'.mnInternalIdMap ∧ l.mnUniquePropertyMap = l'.mnUniquePropertyMap := by
  constructor
  · refine ext fun i => ext fun p => ?_
    rw [h.ids, h'.ids, hmn]
  · refine h.owns.eq (h'.owns.congr fun p => ?_)
    simp [owned, hmn]

/-- A well-formed list is its header and its members. -/
theorem Wf.ext (h' : Wf serializeHash l') (hbh : l.blockHash = l'.blockHash)
    (hnh : l.nHeight = l'.nHeight) (hnt : l.nTotalRegisteredCount = l'.nTotalRegisteredCount)
    (hmn : l.mnMap = l'.mnMap) : l = l' := by
  obtain ⟨hid, hup⟩ := h.maps_eq h' hmn
  obtain ⟨bh, nh, nt, mn, ids, ups⟩ := l
  obtain ⟨bh', nh', nt', mn', ids', ups'⟩ := l'
  simp_all

/-! ### Reading the list -/

theorem Wf.mem_members : dmn ∈ l.members ↔ l.mnMap[dmn.proTxHash]? = some dmn := by
  rw [members, List.mem_map]
  constructor
  · rintro ⟨⟨p, d⟩, hmem, rfl⟩
    have hget := mem_toList.mp hmem
    rwa [h.key hget]
  · intro hget
    exact ⟨(dmn.proTxHash, dmn), mem_toList.mpr hget, rfl⟩

/-- The members have different registration hashes. -/
theorem Wf.nodup_members : (l.members.map proTxHash).Nodup := by
  have hkeys : l.members.map proTxHash = l.mnMap.toList.map Prod.fst := by
    rw [members, List.map_map]
    refine List.map_congr_left fun e he => ?_
    obtain ⟨p, d⟩ := e
    exact h.key (mem_toList.mp he)
  rw [hkeys]
  exact nodup_keys l.mnMap

/-- A member is determined by its internal id. -/
theorem Wf.id_injective {d d'} {q} (hd : l.mnMap[p]? = some d)
    (hd' : l.mnMap[q]? = some d') (hid : d.internalId = d'.internalId) : p = q ∧ d = d' := by
  have hp := (h.ids d.internalId p).mpr ⟨d, hd, rfl⟩
  have hq := (h.ids d.internalId q).mpr ⟨d', hd', hid.symm⟩
  obtain rfl := mem_unique hp hq
  exact ⟨rfl, mem_unique hd hd'⟩

/-- The members have different internal ids. -/
theorem Wf.nodup_ids : (l.members.map internalId).Nodup := by
  refine (List.Nodup.of_map _ h.nodup_members).map_on fun d hd d' hd' hid => ?_
  exact (h.id_injective (h.mem_members.mp hd) (h.mem_members.mp hd') hid).2

theorem Wf.hasUniqueProperty_iff :
    l.hasUniqueProperty serializeHash v = true ↔ ∃ p, v ∈ l.owned p := by
  rw [hasUniqueProperty, isSome_iff_exists]
  constructor
  · rintro ⟨⟨p, c⟩, he⟩
    exact ⟨p, h.owns.mem_of_lookup he⟩
  · rintro ⟨p, hv⟩
    exact ⟨_, h.owns.lookup_of_mem hv⟩

theorem Wf.hasUniqueProperty_false :
    l.hasUniqueProperty serializeHash v = false ↔ ∀ p, v ∉ l.owned p := by
  rw [← Bool.not_eq_true, h.hasUniqueProperty_iff, not_exists]

theorem Wf.getUniquePropertyMN_eq_some : l.getUniquePropertyMN serializeHash v = some dmn ↔
      l.mnMap[dmn.proTxHash]? = some dmn ∧ v ∈ dmn.uniqueProperties := by
  unfold getUniquePropertyMN getMN
  constructor
  · intro hget
    split at hget
    · cases hget
    rename_i e he
    have hp := h.key hget
    have hmem := h.owns.mem_of_lookup (k := e.1) (c := e.2) he
    rw [owned_of_get hget] at hmem
    rw [hp]
    exact ⟨hget, hmem⟩
  · rintro ⟨hget, hv⟩
    rwa [h.owns.lookup_of_mem (k := dmn.proTxHash) (by rw [owned_of_get hget]; exact hv)]

/-- The member that owns a value is found, so the test never meets a null pointer. -/
theorem Wf.heldByOther_eq (v : UniqueProperty) (p : Uint256) :
    ∃ b, l.heldByOther serializeHash v p = .ok b ∧ (b = true ↔ ∃ q, q ≠ p ∧ v ∈ l.owned q) := by
  unfold heldByOther
  cases hhas : l.hasUniqueProperty serializeHash v with
  | false =>
    refine ⟨false, rfl, ?_⟩
    have hnone := h.hasUniqueProperty_false.mp hhas
    simp [hnone]
  | true =>
    obtain ⟨q, hq⟩ := h.hasUniqueProperty_iff.mp hhas
    obtain ⟨dmn, hget, hv⟩ := mem_owned.mp hq
    have hkey := h.key hget
    have hmn : l.getUniquePropertyMN serializeHash v = some dmn :=
      h.getUniquePropertyMN_eq_some.mpr ⟨hkey ▸ hget, hv⟩
    refine ⟨dmn.proTxHash != p, by simp [hmn], ?_⟩
    rw [bne_iff_ne, hkey]
    constructor
    · intro hne
      exact ⟨q, hne, hq⟩
    · rintro ⟨q', hne, hq'⟩
      rwa [h.owns.unique hq hq']

end

/-! ### Ownership after an update of the members -/

theorem owned_insert (hmn : l'.mnMap = l.mnMap.insert p dmn) :
    l'.owned = update l.owned p dmn.uniqueProperties := by
  funext q
  by_cases hq : q = p
  · subst hq
    rw [update_self, owned_of_get (by rw [hmn, get_insert_self])]
  · rw [update_of_ne hq]
    simp only [owned, hmn, get_insert_ne (Ne.symm hq)]

theorem owned_erase (hmn : l'.mnMap = l.mnMap.erase p) : l'.owned = update l.owned p 0 := by
  funext q
  by_cases hq : q = p
  · subst hq
    rw [update_self, owned_of_none (by rw [hmn, get_erase_self])]
  · rw [update_of_ne hq]
    simp only [owned, hmn, get_erase_ne (Ne.symm hq)]

/-! ### Adding a member -/

/-- What `AddMN` demands of the list and the new member. -/
structure CanAdd (l : DeterministicMNList) (dmn : DeterministicMN) : Prop where
  fresh : l.mnMap[dmn.proTxHash]? = none
  freshId : l.mnInternalIdMap[dmn.internalId]? = none
  assigned : dmn.internalId ≠ noInternalId
  collateral : dmn.collateralOutpoint ≠ OutPoint.null
  owner : dmn.pdmnState.keyIDOwner ≠ 0
  operator : dmn.pdmnState.keyIDOperator ≠ 0
  /-- No member uses a value of the new one. -/
  unused : ∀ v ∈ dmn.uniqueProperties, ∀ p, v ∉ l.owned p

/-- The value of the registration counter after an addition. -/
def totalAfterAdd (l : DeterministicMNList) (dmn : DeterministicMN) (fBumpTotalCount : Bool) :
    UInt32 :=
  if fBumpTotalCount then (max (dmn.internalId + 1) l.nTotalRegisteredCount.toUInt64).toUInt32
  else l.nTotalRegisteredCount

/-- Storing a member under its hash keeps the invariant, when the ids and the index follow. -/
theorem Wf.insert (h : Wf serializeHash l) (d : DeterministicMN)
    (hmember : d.internalId ≠ noInternalId ∧ d.collateralOutpoint ≠ OutPoint.null)
    (hmn : l'.mnMap = l.mnMap.insert d.proTxHash d)
    (hids : ∀ (i : UInt64) (p : Uint256), l'.mnInternalIdMap[i]? = some p ↔
      ∃ dmn, l'.mnMap[p]? = some dmn ∧ dmn.internalId = i)
    (hup : Owns serializeHash l'.mnUniquePropertyMap
      (update l.owned d.proTxHash d.uniqueProperties)) : Wf serializeHash l' := by
  have hmem : ∀ {q : Uint256} {d : DeterministicMN}, l'.mnMap[q]? = some d → d.proTxHash = q ∧
      d.internalId ≠ noInternalId ∧ d.collateralOutpoint ≠ OutPoint.null := by
    intro q d hq
    rcases of_get_insert (hmn ▸ hq) with ⟨rfl, rfl⟩ | ⟨-, hold⟩
    · exact ⟨rfl, hmember⟩
    · exact ⟨h.key hold, h.assigned hold, h.collateral hold⟩
  exact ⟨fun hq => (hmem hq).1, hids, fun hq => (hmem hq).2.1, fun hq => (hmem hq).2.2,
    owned_insert hmn ▸ hup⟩

/-- Entering a new member in all three maps keeps the invariant. -/
theorem Wf.insertNew (h : Wf serializeHash l) (hc : CanAdd l dmn)
    (hmn : l'.mnMap = l.mnMap.insert dmn.proTxHash dmn)
    (hid : l'.mnInternalIdMap = l.mnInternalIdMap.insert dmn.internalId dmn.proTxHash)
    (hup : Owns serializeHash l'.mnUniquePropertyMap
      (update l.owned dmn.proTxHash dmn.uniqueProperties)) : Wf serializeHash l' := by
  refine h.insert dmn ⟨hc.assigned, hc.collateral⟩ hmn (fun i q => ?_) hup
  rw [hid, hmn, get_insert, get_insert]
  -- an old member has neither the new hash nor the new id
  by_cases hi : dmn.internalId = i
  · subst hi
    rw [if_pos rfl]
    by_cases hq : dmn.proTxHash = q
    · simp [hq]
    · rw [if_neg hq, ← h.ids, hc.freshId]
      simp [hq]
  · rw [if_neg hi, h.ids]
    by_cases hq : dmn.proTxHash = q
    · subst hq
      simp [hc.fresh, hi]
    · rw [if_neg hq]

/-- What a completed `AddMN` did. -/
theorem addMN_inv (hinj : Injective serializeHash) (h : Wf serializeHash l)
    {fBumpTotalCount : Bool} (hr : l.addMN serializeHash dmn fBumpTotalCount = .ok l') :
    CanAdd l dmn ∧ Wf serializeHash l' ∧ l'.mnMap = l.mnMap.insert dmn.proTxHash dmn ∧
      l'.nTotalRegisteredCount = l.totalAfterAdd dmn fBumpTotalCount ∧
      l'.blockHash = l.blockHash ∧ l'.nHeight = l.nHeight := by
  unfold addMN at hr
  obtain ⟨_, hfresh, hr⟩ := bind_ok.mp hr
  obtain ⟨_, hassigned, hr⟩ := bind_ok.mp hr
  obtain ⟨_, hfreshId, hr⟩ := bind_ok.mp hr
  obtain ⟨_, haddr, hr⟩ := bind_ok.mp hr
  obtain ⟨_, hkeys, hr⟩ := bind_ok.mp hr
  obtain ⟨m₁, hadd₁, hr⟩ := bind_ok.mp hr
  obtain ⟨m₂, hadd₂, hr⟩ := bind_ok.mp hr
  obtain ⟨m₃, hadd₃, hr⟩ := bind_ok.mp hr
  obtain ⟨m₄, hadd₄, hr⟩ := bind_ok.mp hr
  cases hr
  rw [throwIf_ok, isSome_eq_false_iff, isNone_iff_eq_none] at hfresh hfreshId
  rw [assert_ok, bne_iff_ne] at hassigned
  rw [throwIf_ok, h.hasUniqueProperty_false] at haddr
  rw [throwIf_ok, Bool.or_eq_false_iff, h.hasUniqueProperty_false, h.hasUniqueProperty_false]
    at hkeys
  obtain ⟨hcoll, hcollFree, ho₁⟩ := addUniqueProperty_inv dmn hinj h.owns hadd₁
  have ho₂ := addUnlessNull_inv dmn hinj ho₁ hadd₂
  obtain ⟨howner, -, ho₃⟩ := addUniqueProperty_inv dmn hinj ho₂ hadd₃
  obtain ⟨hoperator, -, ho₄⟩ := addUniqueProperty_inv dmn hinj ho₃ hadd₄
  simp only [update_self, update_idem, owned_of_none hfresh, zero_add] at ho₄
  simp only [isNull, beq_eq_false_iff_ne] at hcoll howner hoperator
  have hcan : CanAdd l dmn := by
    refine ⟨hfresh, hfreshId, hassigned, hcoll, howner, hoperator, ?_⟩
    intro v hv q
    rcases (mem_uniqueProperties.mp hv).2 with rfl | rfl | rfl | rfl
    · by_cases hq : q = dmn.proTxHash
      · subst hq
        simp [owned_of_none hfresh]
      · exact hcollFree q hq
    · exact haddr q
    · exact hkeys.1 q
    · exact hkeys.2 q
  exact ⟨hcan, h.insertNew hcan rfl rfl ho₄, rfl, rfl, rfl, rfl⟩

/-- `AddMN` completes when its demands are met. -/
theorem addMN_run (hinj : Injective serializeHash) (h : Wf serializeHash l)
    (hc : CanAdd l dmn) (fBumpTotalCount : Bool) :
    ∃ l', l.addMN serializeHash dmn fBumpTotalCount = .ok l' := by
  have hown := isNull_keyID.mpr hc.owner
  have hop := isNull_keyID.mpr hc.operator
  have hcol := isNull_outpoint.mpr hc.collateral
  -- a null address is in no member's multiset either
  have haddr : ∀ p, service dmn.pdmnState.addr ∉ l.owned p := by
    intro q hq
    refine hc.unused _ ?_ q hq
    exact mem_uniqueProperties.mpr ⟨not_isNull_of_mem_owned hq, by simp⟩
  have hkey₁ := hc.unused (.keyID dmn.pdmnState.keyIDOwner)
    (mem_uniqueProperties.mpr ⟨hown, by simp⟩)
  have hkey₂ := hc.unused (.keyID dmn.pdmnState.keyIDOperator)
    (mem_uniqueProperties.mpr ⟨hop, by simp⟩)
  have hcoll := hc.unused (.outpoint dmn.collateralOutpoint)
    (mem_uniqueProperties.mpr ⟨hcol, by simp⟩)
  obtain ⟨m₁, hadd₁, ho₁⟩ := addUniqueProperty_run dmn hinj h.owns hcol fun q _ => hcoll q
  obtain ⟨m₂, hadd₂, ho₂⟩ := addUnlessNull_run dmn hinj ho₁
    fun _ q hq => by rw [update_of_ne hq]; exact haddr q
  obtain ⟨m₃, hadd₃, ho₃⟩ := addUniqueProperty_run dmn hinj ho₂ hown
    fun q hq => by simp only [update_of_ne hq]; exact hkey₁ q
  obtain ⟨m₄, hadd₄, -⟩ := addUniqueProperty_run dmn hinj ho₃ hop
    fun q hq => by simp only [update_of_ne hq]; exact hkey₂ q
  unfold addMN
  refine exists_bind_ok.mpr ⟨(), throwIf_ok.mpr (by simp [hc.fresh]), ?_⟩
  refine exists_bind_ok.mpr ⟨(), assert_ok.mpr (by simpa using hc.assigned), ?_⟩
  refine exists_bind_ok.mpr ⟨(), throwIf_ok.mpr (by simp [hc.freshId]), ?_⟩
  refine exists_bind_ok.mpr ⟨(), throwIf_ok.mpr (h.hasUniqueProperty_false.mpr haddr), ?_⟩
  refine exists_bind_ok.mpr ⟨(), throwIf_ok.mpr ?_, ?_⟩
  · rw [h.hasUniqueProperty_false.mpr hkey₁, h.hasUniqueProperty_false.mpr hkey₂]
    rfl
  · refine exists_bind_ok.mpr ⟨m₁, hadd₁, ?_⟩
    refine exists_bind_ok.mpr ⟨m₂, hadd₂, ?_⟩
    refine exists_bind_ok.mpr ⟨m₃, hadd₃, ?_⟩
    exact exists_bind_ok.mpr ⟨m₄, hadd₄, _, rfl⟩

/-! ### Updating a member -/

/-- The multiset of a member after the three property updates of `UpdateMN`. -/
theorem uniqueProperties_update (dmn : DeterministicMN) (s : DeterministicMNState) :
    dmn.uniqueProperties - (service dmn.pdmnState.addr).single + (service s.addr).single -
        (keyID dmn.pdmnState.keyIDOwner).single + (keyID s.keyIDOwner).single -
        (keyID dmn.pdmnState.keyIDOperator).single + (keyID s.keyIDOperator).single =
      uniqueProperties { dmn with pdmnState := s } := by
  ext v
  simp only [uniqueProperties, Multiset.count_add, Multiset.count_sub]
  omega

/-- Each of the three updates of `UpdateMN` finds its old value. -/
theorem update_le (dmn : DeterministicMN) (a o : Multiset UniqueProperty) :
    (service dmn.pdmnState.addr).single ≤ dmn.uniqueProperties ∧
    (keyID dmn.pdmnState.keyIDOwner).single ≤
      dmn.uniqueProperties - (service dmn.pdmnState.addr).single + a ∧
    (keyID dmn.pdmnState.keyIDOperator).single ≤
      dmn.uniqueProperties - (service dmn.pdmnState.addr).single + a -
        (keyID dmn.pdmnState.keyIDOwner).single + o := by
  simp only [Multiset.le_iff_count, uniqueProperties, Multiset.count_add,
    Multiset.count_sub]
  refine ⟨fun v => ?_, fun v => ?_, fun v => ?_⟩ <;> omega

variable {s : DeterministicMNState}

/-- Replacing a member's state keeps the invariant when the index follows. -/
theorem Wf.replace (h : Wf serializeHash l) (hget : l.mnMap[p]? = some dmn)
    (hmn : l'.mnMap = l.mnMap.insert p { dmn with pdmnState := s })
    (hid : l'.mnInternalIdMap = l.mnInternalIdMap)
    (hup : Owns serializeHash l'.mnUniquePropertyMap (update l.owned p (uniqueProperties { dmn with pdmnState := s }))) :
    Wf serializeHash l' := by
  obtain rfl := h.key hget
  have hmember := And.intro (h.assigned hget) (h.collateral hget)
  refine h.insert { dmn with pdmnState := s } hmember hmn (fun i q => ?_) hup
  rw [hid, h.ids, hmn, get_insert]
  by_cases hq : dmn.proTxHash = q
  · subst hq
    simp [hget]
  · rw [if_neg hq]

section
variable (hinj : Injective serializeHash) (h : Wf serializeHash l)
include hinj h

/-- What a completed `UpdateMN` of a member did. -/
theorem updateMN_inv (hget : l.mnMap[p]? = some dmn) (hr : l.updateMN serializeHash dmn s = .ok l') :
    Wf serializeHash l' ∧ l'.mnMap = l.mnMap.insert p { dmn with pdmnState := s } ∧
      l'.nTotalRegisteredCount = l.nTotalRegisteredCount ∧
      l'.blockHash = l.blockHash ∧ l'.nHeight = l.nHeight := by
  obtain rfl := h.key hget
  unfold updateMN at hr
  obtain ⟨dup, -, hr⟩ := bind_ok.mp hr
  obtain ⟨_, -, hr⟩ := bind_ok.mp hr
  obtain ⟨m₁, hup₁, hr⟩ := bind_ok.mp hr
  obtain ⟨m₂, hup₂, hr⟩ := bind_ok.mp hr
  obtain ⟨m₃, hup₃, hr⟩ := bind_ok.mp hr
  cases hr
  have hown := owned_of_get hget
  have ho₁ := updateUniqueProperty_inv _ hinj h.owns (by rw [hown]; exact (update_le dmn 0 0).1) hup₁
  have ho₂ := updateUniqueProperty_inv _ hinj ho₁ (by
    rw [update_self, hown]; exact (update_le dmn _ 0).2.1) hup₂
  have ho₃ := updateUniqueProperty_inv _ hinj ho₂ (by
    rw [update_self, update_self, hown]; exact (update_le dmn _ _).2.2) hup₃
  simp only [update_self, update_idem, hown] at ho₃
  rw [uniqueProperties_update] at ho₃
  exact ⟨h.replace hget rfl rfl ho₃, rfl, rfl, rfl, rfl⟩

/-- `UpdateMN` of a member completes when no other member uses a value of the new state. -/
theorem updateMN_run (hget : l.mnMap[p]? = some dmn) (s : DeterministicMNState)
    (hfree : ∀ v ∈ uniqueProperties { dmn with pdmnState := s }, ∀ q, q ≠ p → v ∉ l.owned q) :
    ∃ l', l.updateMN serializeHash dmn s = .ok l' := by
  obtain rfl := h.key hget
  have hown := owned_of_get hget
  have hfree' : ∀ v, (v = .service s.addr ∨ v = .keyID s.keyIDOwner ∨ v = .keyID s.keyIDOperator) →
      ∀ q, q ≠ dmn.proTxHash → v ∉ l.owned q := by
    intro v hv q hq hmem
    refine hfree v ?_ q hq hmem
    exact mem_uniqueProperties.mpr ⟨not_isNull_of_mem_owned hmem, .inr hv⟩
  obtain ⟨b, hb, hheld⟩ := h.heldByOther_eq (.service dmn.pdmnState.addr) dmn.proTxHash
  have hbf : b = false := by
    by_contra hne
    obtain ⟨q, hq, hmem⟩ := hheld.mp (by simpa using hne)
    have hmine : service dmn.pdmnState.addr ∈ l.owned dmn.proTxHash := by
      rw [hown]
      exact mem_uniqueProperties.mpr ⟨not_isNull_of_mem_owned hmem, by simp⟩
    exact hq (h.owns.unique hmem hmine)
  subst hbf
  obtain ⟨m₁, hup₁, ho₁⟩ := updateUniqueProperty_run { dmn with pdmnState := s } hinj h.owns
    (by rw [hown]; exact (update_le dmn 0 0).1) (hfree' (.service s.addr) (by simp))
  obtain ⟨m₂, hup₂, ho₂⟩ := updateUniqueProperty_run { dmn with pdmnState := s } hinj ho₁
    (by rw [update_self, hown]; exact (update_le dmn _ 0).2.1)
    (fun q hq => by rw [update_of_ne hq]; exact hfree' (.keyID s.keyIDOwner) (by simp) q hq)
  obtain ⟨m₃, hup₃, -⟩ := updateUniqueProperty_run { dmn with pdmnState := s } hinj ho₂
    (by rw [update_self, update_self, hown]; exact (update_le dmn _ _).2.2)
    (fun q hq => by
      rw [update_of_ne hq, update_of_ne hq]
      exact hfree' (.keyID s.keyIDOperator) (by simp) q hq)
  unfold updateMN
  refine exists_bind_ok.mpr ⟨false, hb, ?_⟩
  refine exists_bind_ok.mpr ⟨(), throwIf_ok.mpr rfl, ?_⟩
  refine exists_bind_ok.mpr ⟨m₁, hup₁, ?_⟩
  refine exists_bind_ok.mpr ⟨m₂, hup₂, ?_⟩
  exact exists_bind_ok.mpr ⟨m₃, hup₃, _, rfl⟩

/-- What a completed `UpdateMN` by registration hash did. -/
theorem updateMNByHash_inv (hr : l.updateMNByHash serializeHash p s = .ok l') :
    ∃ dmn, l.mnMap[p]? = some dmn ∧ Wf serializeHash l' ∧
      l'.mnMap = l.mnMap.insert p { dmn with pdmnState := s } ∧
      l'.nTotalRegisteredCount = l.nTotalRegisteredCount ∧
      l'.blockHash = l.blockHash ∧ l'.nHeight = l.nHeight := by
  unfold updateMNByHash at hr
  split at hr
  · cases hr
  rename_i dmn hget
  exact ⟨dmn, hget, updateMN_inv hinj h hget hr⟩

theorem updateMNByHash_run (hget : l.mnMap[p]? = some dmn) (s : DeterministicMNState)
    (hfree : ∀ v ∈ uniqueProperties { dmn with pdmnState := s }, ∀ q, q ≠ p → v ∉ l.owned q) :
    ∃ l', l.updateMNByHash serializeHash p s = .ok l' := by
  rw [updateMNByHash, hget]
  exact updateMN_run hinj h hget s hfree

end

/-! ### Removing a member -/

/-- Erasing a member from all three maps keeps the invariant. -/
theorem Wf.erase (h : Wf serializeHash l) (hget : l.mnMap[p]? = some dmn)
    (hmn : l'.mnMap = l.mnMap.erase p)
    (hid : l'.mnInternalIdMap = l.mnInternalIdMap.erase dmn.internalId)
    (hup : Owns serializeHash l'.mnUniquePropertyMap (update l.owned p 0)) :
    Wf serializeHash l' := by
  have hold : ∀ {q : Uint256} {d : DeterministicMN}, l'.mnMap[q]? = some d →
      q ≠ p ∧ l.mnMap[q]? = some d := by
    intro q d hq
    rw [hmn, get_erase] at hq
    split_ifs at hq with heq
    exact ⟨Ne.symm heq, hq⟩
  refine ⟨?_, ?_, ?_, ?_, ?_⟩
  · intro q d hq
    exact h.key (hold hq).2
  · intro i q
    rw [hid, hmn, get_erase, get_erase]
    by_cases hi : dmn.internalId = i
    · subst hi
      -- the erased id belonged to the erased member only
      have hp := (h.ids dmn.internalId p).mpr ⟨dmn, hget, rfl⟩
      rw [if_pos rfl]
      by_cases hq : p = q
      · simp [hq]
      · rw [if_neg hq, ← h.ids, hp]
        simp [hq]
    · rw [if_neg hi, h.ids]
      by_cases hq : p = q
      · subst hq
        simp [hget, hi]
      · rw [if_neg hq]
  · intro q d hq
    exact h.assigned (hold hq).2
  · intro q d hq
    exact h.collateral (hold hq).2
  · rwa [owned_erase hmn]

/-- The multiset of a member after the four deletions of `RemoveMN`. -/
theorem uniqueProperties_delete (dmn : DeterministicMN) :
    dmn.uniqueProperties - (outpoint dmn.collateralOutpoint).single -
        (service dmn.pdmnState.addr).single - (keyID dmn.pdmnState.keyIDOwner).single -
        (keyID dmn.pdmnState.keyIDOperator).single = 0 := by
  ext v
  simp only [uniqueProperties, Multiset.count_add, Multiset.count_sub,
    Multiset.count_zero]
  omega

/-- What a completed `RemoveMN` did: the member had an owner and an **operator key**. -/
theorem removeMN_inv (hinj : Injective serializeHash) (h : Wf serializeHash l)
    (hr : l.removeMN serializeHash p = .ok l') :
    ∃ dmn, l.mnMap[p]? = some dmn ∧ dmn.pdmnState.keyIDOwner ≠ 0 ∧
      dmn.pdmnState.keyIDOperator ≠ 0 ∧ Wf serializeHash l' ∧ l'.mnMap = l.mnMap.erase p ∧
      l'.nTotalRegisteredCount = l.nTotalRegisteredCount ∧
      l'.blockHash = l.blockHash ∧ l'.nHeight = l.nHeight := by
  unfold removeMN getMN at hr
  split at hr
  · cases hr
  rename_i dmn hget
  obtain rfl := h.key hget
  obtain ⟨m₁, hdel₁, hr⟩ := bind_ok.mp hr
  obtain ⟨m₂, hdel₂, hr⟩ := bind_ok.mp hr
  obtain ⟨m₃, hdel₃, hr⟩ := bind_ok.mp hr
  obtain ⟨m₄, hdel₄, hr⟩ := bind_ok.mp hr
  obtain ⟨_, -, hr⟩ := bind_ok.mp hr
  cases hr
  have ho₁ := (deleteUniqueProperty_inv dmn hinj h.owns hdel₁).2.2
  have ho₂ := deleteUnlessNull_inv dmn hinj ho₁ hdel₂
  obtain ⟨howner, -, ho₃⟩ := deleteUniqueProperty_inv dmn hinj ho₂ hdel₃
  obtain ⟨hoperator, -, ho₄⟩ := deleteUniqueProperty_inv dmn hinj ho₃ hdel₄
  simp only [update_self, update_idem, owned_of_get hget] at ho₄
  rw [uniqueProperties_delete] at ho₄
  simp only [isNull, beq_eq_false_iff_ne] at howner hoperator
  exact ⟨dmn, hget, howner, hoperator, h.erase hget rfl rfl ho₄, rfl, rfl, rfl, rfl⟩

/-- Each of the four deletions of `RemoveMN` finds its value. -/
theorem delete_le (dmn : DeterministicMN) :
    (outpoint dmn.collateralOutpoint).single ≤ dmn.uniqueProperties ∧
    (service dmn.pdmnState.addr).single ≤
      dmn.uniqueProperties - (outpoint dmn.collateralOutpoint).single ∧
    (keyID dmn.pdmnState.keyIDOwner).single ≤
      dmn.uniqueProperties - (outpoint dmn.collateralOutpoint).single -
        (service dmn.pdmnState.addr).single ∧ (keyID dmn.pdmnState.keyIDOperator).single ≤
      dmn.uniqueProperties - (outpoint dmn.collateralOutpoint).single -
        (service dmn.pdmnState.addr).single - (keyID dmn.pdmnState.keyIDOwner).single := by
  simp only [Multiset.le_iff_count, uniqueProperties, Multiset.count_add,
    Multiset.count_sub]
  refine ⟨fun v => ?_, fun v => ?_, fun v => ?_, fun v => ?_⟩ <;> omega

section
variable (hinj : Injective serializeHash) (h : Wf serializeHash l)
  (hget : l.mnMap[p]? = some dmn) (howner : dmn.pdmnState.keyIDOwner ≠ 0)
include hinj h hget howner

/-- The first three deletions of `RemoveMN` complete for a member with an owner key. -/
theorem removeMN_steps : ∃ m₁ m₂ m₃, deleteUniqueProperty serializeHash l.mnUniquePropertyMap dmn
        (.outpoint dmn.collateralOutpoint) = .ok m₁ ∧
      deleteUnlessNull serializeHash m₁ dmn (.service dmn.pdmnState.addr) = .ok m₂ ∧
      deleteUniqueProperty serializeHash m₂ dmn (.keyID dmn.pdmnState.keyIDOwner) = .ok m₃ ∧
      Owns serializeHash m₃ (update l.owned p
        (dmn.uniqueProperties - (outpoint dmn.collateralOutpoint).single -
          (service dmn.pdmnState.addr).single - (keyID dmn.pdmnState.keyIDOwner).single)) := by
  obtain rfl := h.key hget
  have hown := owned_of_get hget
  obtain ⟨hle₁, hle₂, hle₃, -⟩ := delete_le dmn
  have hcoll := isNull_outpoint.mpr (h.collateral hget)
  have hkey := isNull_keyID.mpr howner
  obtain ⟨m₁, hdel₁, ho₁⟩ := deleteUniqueProperty_run dmn hinj h.owns hcoll
    (by rw [hown]; exact Multiset.mem_of_le hle₁ (mem_single.mpr ⟨rfl, hcoll⟩))
  rw [hown] at ho₁
  obtain ⟨m₂, hdel₂, ho₂⟩ := deleteUnlessNull_run dmn hinj ho₁
    (by rw [update_self]; exact hle₂)
  rw [update_self, update_idem] at ho₂
  obtain ⟨m₃, hdel₃, ho₃⟩ := deleteUniqueProperty_run dmn hinj ho₂ hkey (by
      rw [update_self]
      exact Multiset.mem_of_le hle₃ (mem_single.mpr ⟨rfl, hkey⟩))
  rw [update_self, update_idem] at ho₃
  exact ⟨m₁, m₂, m₃, hdel₁, hdel₂, hdel₃, ho₃⟩

/-- `RemoveMN` completes for a member with an owner key and an operator key. -/
theorem removeMN_run (hoperator : dmn.pdmnState.keyIDOperator ≠ 0) :
    ∃ l', l.removeMN serializeHash p = .ok l' := by
  obtain ⟨m₁, m₂, m₃, hdel₁, hdel₂, hdel₃, ho₃⟩ := removeMN_steps hinj h hget howner
  have hkey := isNull_keyID.mpr hoperator
  obtain ⟨m₄, hdel₄, -⟩ := deleteUniqueProperty_run dmn hinj ho₃ hkey (by
      rw [h.key hget, update_self]
      exact Multiset.mem_of_le (delete_le dmn).2.2.2 (mem_single.mpr ⟨rfl, hkey⟩))
  unfold removeMN getMN
  rw [hget]
  refine exists_bind_ok.mpr ⟨m₁, hdel₁, ?_⟩
  refine exists_bind_ok.mpr ⟨m₂, hdel₂, ?_⟩
  refine exists_bind_ok.mpr ⟨m₃, hdel₃, ?_⟩
  refine exists_bind_ok.mpr ⟨m₄, hdel₄, ?_⟩
  exact exists_bind_ok.mpr ⟨(), assert_ok.mpr (by simpa using h.assigned hget), _, rfl⟩

end

/-! ### Reachable lists -/

/-- The lists built from an empty one by completed updates of members. -/
inductive Reachable (serializeHash : UniqueProperty → Nat) : DeterministicMNList → Prop
  /-- An empty list with any header. -/
  | empty (blockHash : Uint256) (nHeight : Int32) (nTotalRegisteredCount : UInt32) :
      Reachable serializeHash ⟨blockHash, nHeight, nTotalRegisteredCount, ∅, ∅, ∅⟩
  /-- `AddMN`, with or without moving the registration counter. -/
  | add {l l' : DeterministicMNList} {dmn : DeterministicMN} {fBumpTotalCount : Bool} :
      Reachable serializeHash l → l.addMN serializeHash dmn fBumpTotalCount = .ok l' →
      Reachable serializeHash l'
  /-- `UpdateMN` of a current member. -/
  | update {l l' : DeterministicMNList} {p : Uint256} {oldDmn : DeterministicMN}
      {pdmnState : DeterministicMNState} :
      Reachable serializeHash l → l.mnMap[p]? = some oldDmn →
      l.updateMN serializeHash oldDmn pdmnState = .ok l' → Reachable serializeHash l'
  /-- `RemoveMN`. -/
  | remove {l l' : DeterministicMNList} {p : Uint256} :
      Reachable serializeHash l → l.removeMN serializeHash p = .ok l' → Reachable serializeHash l'

/-- Every reachable list is well formed. -/
theorem Reachable.wf (hinj : Injective serializeHash)
    (h : Reachable serializeHash l) : Wf serializeHash l := by
  induction h with
  | empty blockHash nHeight nTotalRegisteredCount =>
    exact wf_empty blockHash nHeight nTotalRegisteredCount
  | add _ hr ih => exact (addMN_inv hinj ih hr).2.1
  | update _ hget hr ih => exact (updateMN_inv hinj ih hget hr).1
  | remove _ hr ih =>
    obtain ⟨_, _, _, _, hwf, _⟩ := removeMN_inv hinj ih hr
    exact hwf

theorem Wf.getMNByCollateral_eq_some (h : Wf serializeHash l) {o : OutPoint} :
    l.getMNByCollateral serializeHash o = some dmn ↔
      l.mnMap[dmn.proTxHash]? = some dmn ∧ dmn.collateralOutpoint = o := by
  rw [getMNByCollateral, h.getUniquePropertyMN_eq_some]
  refine and_congr_right fun hget => ?_
  rw [mem_uniqueProperties]
  constructor
  · rintro ⟨-, ho⟩
    simpa [eq_comm] using ho
  · rintro rfl
    exact ⟨isNull_outpoint.mpr (h.collateral hget), .inl rfl⟩

theorem Wf.getMNByService_eq_some (h : Wf serializeHash l) {s : Service} :
    l.getMNByService serializeHash s = some dmn ↔
      l.mnMap[dmn.proTxHash]? = some dmn ∧ s ≠ Service.null ∧ dmn.pdmnState.addr = s := by
  rw [getMNByService, h.getUniquePropertyMN_eq_some]
  refine and_congr_right fun _ => ?_
  rw [mem_uniqueProperties]
  simp only [isNull, beq_eq_false_iff_ne, service.injEq, reduceCtorEq, false_or, or_false]
  exact and_congr_right fun _ => eq_comm

theorem Wf.getMNByInternalId_eq_some (h : Wf serializeHash l) {i} :
    l.getMNByInternalId i = some dmn ↔ l.mnMap[dmn.proTxHash]? = some dmn ∧ dmn.internalId = i := by
  unfold getMNByInternalId getMN
  constructor
  · intro hget
    split at hget
    · cases hget
    rename_i p hi
    obtain ⟨d, hd, hid⟩ := (h.ids i p).mp hi
    obtain rfl := mem_unique hd hget
    exact ⟨(h.key hd).symm ▸ hd, hid⟩
  · rintro ⟨hget, hid⟩
    rwa [(h.ids i dmn.proTxHash).mpr ⟨dmn, hget, hid⟩]

/-- **The maps of a reachable list.** The unique-property map counts exactly what the
members use, no value is used twice, the internal-id map is the inverse of the members'
ids, and every lookup returns the member that holds the value. -/
theorem reachable_maps_exact (hinj : Injective serializeHash) (h : Reachable serializeHash l) :
    (∀ v p c, l.mnUniquePropertyMap[serializeHash v]? = some (p, c) ↔
      ∃ dmn, l.mnMap[p]? = some dmn ∧ 0 < c ∧ dmn.uniqueProperties.count v = c) ∧
    (∀ (x : Nat) e, l.mnUniquePropertyMap[x]? = some e → ∃ v, serializeHash v = x) ∧
    (∀ (p q : Uint256) dp dq v, l.mnMap[p]? = some dp → l.mnMap[q]? = some dq →
      v ∈ dp.uniqueProperties → v ∈ dq.uniqueProperties → p = q) ∧
    (∀ (i : UInt64) p, l.mnInternalIdMap[i]? = some p ↔
      ∃ dmn, l.mnMap[p]? = some dmn ∧ dmn.internalId = i) ∧
    (∀ o dmn, l.getMNByCollateral serializeHash o = some dmn ↔
      l.mnMap[dmn.proTxHash]? = some dmn ∧ dmn.collateralOutpoint = o) ∧
    (∀ s dmn, l.getMNByService serializeHash s = some dmn ↔
      l.mnMap[dmn.proTxHash]? = some dmn ∧ s ≠ Service.null ∧ dmn.pdmnState.addr = s) ∧
    (∀ v dmn, l.getUniquePropertyMN serializeHash v = some dmn ↔
      l.mnMap[dmn.proTxHash]? = some dmn ∧ v ∈ dmn.uniqueProperties) ∧
    (∀ i dmn, l.getMNByInternalId i = some dmn ↔
      l.mnMap[dmn.proTxHash]? = some dmn ∧ dmn.internalId = i) := by
  have hwf := h.wf hinj
  refine ⟨?_, hwf.owns.hashed, ?_, hwf.ids, ?_, ?_, ?_, ?_⟩
  · intro v p c
    rw [hwf.owns.entry]
    cases hget : l.mnMap[p]? with
    | none =>
      simp [owned_of_none hget]
      omega
    | some dmn => simp [owned_of_get hget]
  · intro p q dp dq v hp hq hvp hvq
    exact hwf.owns.unique (mem_owned.mpr ⟨dp, hp, hvp⟩) (mem_owned.mpr ⟨dq, hq, hvq⟩)
  · exact fun o dmn => hwf.getMNByCollateral_eq_some
  · exact fun s dmn => hwf.getMNByService_eq_some
  · exact fun v dmn => hwf.getUniquePropertyMN_eq_some
  · exact fun i dmn => hwf.getMNByInternalId_eq_some

/-- A masternode that uses one key as owner and as operator. -/
def oneKeyMN : DeterministicMN where
  proTxHash := 7
  internalId := 0
  collateralOutpoint := ⟨7, 0⟩
  nOperatorReward := 0
  pdmnState := { keyIDOwner := 1, keyIDOperator := 1, keyIDVoting := 3, addr := ⟨4, 9999⟩ }

/-- The list with that masternode only. -/
def oneKeyList : DeterministicMNList :=
  (addMN numbering {} oneKeyMN).toOption.getD {}

theorem oneKeyList_reachable : Reachable numbering oneKeyList :=
  .add (.empty 0 (-1) 0) (show addMN numbering {} oneKeyMN = .ok oneKeyList from rfl)

/-- The masternode with one key twice is found by its collateral, and its key is counted
twice. -/
theorem reachable_maps_exact_oneKey : Reachable numbering oneKeyList ∧
    oneKeyList.getMNByCollateral numbering ⟨7, 0⟩ = some oneKeyMN ∧
    oneKeyList.mnUniquePropertyMap[numbering (.keyID 1)]? = some (7, 2) := by
  obtain ⟨hcount, -, -, -, hcoll, -, -, -⟩ :=
    reachable_maps_exact numbering_injective oneKeyList_reachable
  have hget : oneKeyList.mnMap[(7 : Uint256)]? = some oneKeyMN := rfl
  exact ⟨oneKeyList_reachable, (hcoll _ _).mpr ⟨hget, rfl⟩,
    (hcount _ _ _).mpr ⟨_, hget, by decide, by decide⟩⟩

/-- The same masternode after an update to a **null owner key**. -/
def nullOwnerList : DeterministicMNList :=
  (updateMN numbering oneKeyList oneKeyMN { oneKeyMN.pdmnState with keyIDOwner := 0 }).toOption.getD {}

/-- The update completes, but the null owner key has no entry although the masternode
holds it. -/
theorem null_owner_not_counted : Reachable numbering nullOwnerList ∧
    (nullOwnerList.mnMap[(7 : Uint256)]?).map (fun dmn => dmn.pdmnState.keyIDOwner) = some 0 ∧
    nullOwnerList.mnUniquePropertyMap[numbering (.keyID 0)]? = none := by
  have hupd : updateMN numbering oneKeyList oneKeyMN
      { oneKeyMN.pdmnState with keyIDOwner := 0 } = .ok nullOwnerList := rfl
  exact ⟨.update (p := 7) oneKeyList_reachable rfl hupd, by decide, by decide⟩

end DeterministicMNList

end KmushiCoin
