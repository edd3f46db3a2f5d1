import KmushiCoin.Evo.MNListSound

/-!
# KmushiCoin.Evo.Serialization

The **byte format** of the masternode list: its header, the number of members and
the members one after the other. The two auxiliary maps are not stored; reading a
list adds the members again, one `AddMN` for each.

* `reads_…` lemmas give the round trip of each record from those of its fields.
* `unserialize_serialize_iff` says exactly when a well-formed list comes back: when
  every member can be *added*, which asks more than being a member does.
-/

namespace KmushiCoin

open Codec List Option

/-! ### Fields -/

/-- A fixed-width field, from the number that represents it. -/
theorem reads_fixed {α : Type} (toNat : α → Nat) {ofNat : Nat → α} {w : Nat} {a : α}
    (hlt : toNat a < 256 ^ w) (hinv : ofNat (toNat a) = a) :
    Reads (ofNat <$> getLE w) (putLE w (toNat a)) a := by
  have hr := (reads_getLE hlt).map (f := ofNat)
  rwa [hinv] at hr

/-- The bytes of a hash are written as they are. The number reads them with the first byte in
front, so that the order of the numbers is the order of the bytes. -/
def putUint256 (h : Uint256) : Bytes := putBE 32 h.val
def getUint256 : Get Uint256 := (Fin.ofNat (2 ^ 256)) <$> getBE 32

theorem reads_uint256 (h : Uint256) : Reads getUint256 (putUint256 h) h := by
  have hlt : h.val < 256 ^ 32 := lt_of_lt_of_le h.isLt (by norm_num)
  have hr := (reads_getBE hlt).map (f := Fin.ofNat (2 ^ 256))
  rwa [Fin.ofNat_val_eq_self] at hr

def putKeyID (k : KeyID) : Bytes := putLE 20 k.val
def getKeyID : Get KeyID := (Fin.ofNat (2 ^ 160)) <$> getLE 20

theorem reads_keyID (k : KeyID) : Reads getKeyID (putKeyID k) k :=
  reads_fixed Fin.val (lt_of_lt_of_le k.isLt (by norm_num)) (by simp)

def putUInt16 (x : UInt16) : Bytes := putLE 2 x.toNat
def getUInt16 : Get UInt16 := UInt16.ofNat <$> getLE 2

theorem reads_uint16 (x : UInt16) : Reads getUInt16 (putUInt16 x) x :=
  reads_fixed UInt16.toNat (lt_of_lt_of_le x.toNat_lt (by norm_num)) (by simp)

def putUInt32 (x : UInt32) : Bytes := putLE 4 x.toNat
def getUInt32 : Get UInt32 := UInt32.ofNat <$> getLE 4

theorem reads_uint32 (x : UInt32) : Reads getUInt32 (putUInt32 x) x :=
  reads_fixed UInt32.toNat (lt_of_lt_of_le x.toNat_lt (by norm_num)) (by simp)

/-- A signed word, in two's complement. -/
def putInt32 (x : Int32) : Bytes := putUInt32 x.toUInt32
def getInt32 : Get Int32 := UInt32.toInt32 <$> getUInt32

theorem reads_int32 (x : Int32) : Reads getInt32 (putInt32 x) x := by
  have hr := (reads_uint32 x.toUInt32).map (f := UInt32.toInt32)
  rwa [show x.toUInt32.toInt32 = x by simp] at hr

/-- A 64-bit word as a variable-length integer. -/
def putVarInt64 (x : UInt64) : Bytes := putVarInt x.toNat
def getVarInt64 : Get UInt64 := UInt64.ofNat <$> getVarInt (2 ^ 64 - 1)

theorem reads_varInt64 (x : UInt64) : Reads getVarInt64 (putVarInt64 x) x := by
  have hlt := x.toNat_lt
  have hr := (reads_getVarInt (m := 2 ^ 64 - 1) (n := x.toNat) rfl (by omega) hlt).map
    (f := UInt64.ofNat)
  rwa [UInt64.ofNat_toNat] at hr

/-- The 16 address bytes and the port in network order. -/
def putService (s : Service) : Bytes := putBE 16 s.ip.val ++ putBE 2 s.port.toNat

def getService : Get Service := do
  let ip ← getBE 16
  let port ← getBE 2
  pure ⟨Fin.ofNat (2 ^ 128) ip, UInt16.ofNat port⟩

theorem reads_service (s : Service) : Reads getService (putService s) s := by
  have hip := reads_getBE (n := 16) (x := s.ip.val) (lt_of_lt_of_le s.ip.isLt (by norm_num))
  have hport := reads_getBE (n := 2) (x := s.port.toNat)
    (lt_of_lt_of_le s.port.toNat_lt (by norm_num))
  have hs : (⟨Fin.ofNat (2 ^ 128) s.ip.val, UInt16.ofNat s.port.toNat⟩ : Service) = s := by
    simp
  refine hip.bind ?_
  have hr := hport.last (f := fun port => (⟨Fin.ofNat (2 ^ 128) s.ip.val,
    UInt16.ofNat port⟩ : Service))
  rwa [hs] at hr

def putOutPoint (o : OutPoint) : Bytes := putUint256 o.hash ++ putUInt32 o.n

def getOutPoint : Get OutPoint := do
  let hash ← getUint256
  let n ← getUInt32
  pure ⟨hash, n⟩

theorem reads_outPoint (o : OutPoint) : Reads getOutPoint (putOutPoint o) o :=
  (reads_uint256 o.hash).bind (reads_uint32 o.n).last

/-- A byte string with its length. -/
def putScript (s : Script) : Bytes := putCompactSize s.length ++ s
def getScript : Get Script := getCompactSize >>= getBytes

theorem reads_script {s} (h : s.length ≤ maxSize) : Reads getScript (putScript s) s :=
  (reads_getCompactSize h).bind (reads_getBytes s)

/-! ### Members -/

def putDeterministicMNState (s : DeterministicMNState) : Bytes :=
  putInt32 s.nRegisteredHeight ++ (putInt32 s.nLastPaidHeight ++ (putInt32 s.nPoSePenalty ++
  (putInt32 s.nPoSeRevivedHeight ++ (putInt32 s.nPoSeBanHeight ++
  (putUInt16 s.nRevocationReason ++ (putUint256 s.confirmedHash ++
  (putUint256 s.confirmedHashWithProRegTxHash ++ (putKeyID s.keyIDOwner ++
  (putKeyID s.keyIDOperator ++ (putKeyID s.keyIDVoting ++ (putService s.addr ++
  (putScript s.scriptPayout ++ putScript s.scriptOperatorPayout))))))))))))

def getDeterministicMNState : Get DeterministicMNState := do
  let nRegisteredHeight ← getInt32
  let nLastPaidHeight ← getInt32
  let nPoSePenalty ← getInt32
  let nPoSeRevivedHeight ← getInt32
  let nPoSeBanHeight ← getInt32
  let nRevocationReason ← getUInt16
  let confirmedHash ← getUint256
  let confirmedHashWithProRegTxHash ← getUint256
  let keyIDOwner ← getKeyID
  let keyIDOperator ← getKeyID
  let keyIDVoting ← getKeyID
  let addr ← getService
  let scriptPayout ← getScript
  let scriptOperatorPayout ← getScript
  pure { nRegisteredHeight, nLastPaidHeight, nPoSePenalty, nPoSeRevivedHeight, nPoSeBanHeight,
         nRevocationReason, confirmedHash, confirmedHashWithProRegTxHash, keyIDOwner,
         keyIDOperator, keyIDVoting, addr, scriptPayout, scriptOperatorPayout }

/-- The scripts of a state are short enough to be read back. -/
def DeterministicMNState.ScriptsFit (s : DeterministicMNState) : Prop :=
  s.scriptPayout.length ≤ maxSize ∧ s.scriptOperatorPayout.length ≤ maxSize

theorem reads_mnState {s} (h : s.ScriptsFit) :
    Reads getDeterministicMNState (putDeterministicMNState s) s := by
  refine (reads_int32 s.nRegisteredHeight).bind ?_
  refine (reads_int32 s.nLastPaidHeight).bind ?_
  refine (reads_int32 s.nPoSePenalty).bind ?_
  refine (reads_int32 s.nPoSeRevivedHeight).bind ?_
  refine (reads_int32 s.nPoSeBanHeight).bind ?_
  refine (reads_uint16 s.nRevocationReason).bind ?_
  refine (reads_uint256 s.confirmedHash).bind ?_
  refine (reads_uint256 s.confirmedHashWithProRegTxHash).bind ?_
  refine (reads_keyID s.keyIDOwner).bind ?_
  refine (reads_keyID s.keyIDOperator).bind ?_
  refine (reads_keyID s.keyIDVoting).bind ?_
  refine (reads_service s.addr).bind ?_
  refine (reads_script h.1).bind ?_
  exact (reads_script h.2).last

def putDeterministicMN (dmn : DeterministicMN) : Bytes :=
  putUint256 dmn.proTxHash ++ (putVarInt64 dmn.internalId ++
  (putOutPoint dmn.collateralOutpoint ++ (putUInt16 dmn.nOperatorReward ++
  putDeterministicMNState dmn.pdmnState)))

def getDeterministicMN : Get DeterministicMN := do
  let proTxHash ← getUint256
  let internalId ← getVarInt64
  let collateralOutpoint ← getOutPoint
  let nOperatorReward ← getUInt16
  let pdmnState ← getDeterministicMNState
  pure { proTxHash, internalId, collateralOutpoint, nOperatorReward, pdmnState }

theorem reads_mn {dmn} (h : dmn.pdmnState.ScriptsFit) :
    Reads getDeterministicMN (putDeterministicMN dmn) dmn := by
  refine (reads_uint256 dmn.proTxHash).bind ?_
  refine (reads_varInt64 dmn.internalId).bind ?_
  refine (reads_outPoint dmn.collateralOutpoint).bind ?_
  refine (reads_uint16 dmn.nOperatorReward).bind ?_
  exact (reads_mnState h).last

/-! ### The list -/

namespace DeterministicMNList

variable (serializeHash : UniqueProperty → Nat)

/-- The format with the members in a given order. -/
def serializeAs (l : DeterministicMNList) (order : List DeterministicMN) : Bytes :=
  putUint256 l.blockHash ++ (putInt32 l.nHeight ++ (putUInt32 l.nTotalRegisteredCount ++
    (putCompactSize order.length ++ order.flatMap putDeterministicMN)))

def serialize (l : DeterministicMNList) : Bytes := l.serializeAs l.members

/-- The header and the number of members. -/
def getHeader : Get (DeterministicMNList × Nat) := do
  let blockHash ← getUint256
  let nHeight ← getInt32
  let nTotalRegisteredCount ← getUInt32
  let cnt ← getCompactSize
  pure ({ blockHash, nHeight, nTotalRegisteredCount }, cnt)

/-- Read and add `cnt` members. -/
def unserializeMNs : Nat → DeterministicMNList → Bytes → Outcome (DeterministicMNList × Bytes)
  | 0, l, s => .ok (l, s)
  | cnt + 1, l, s =>
    match getDeterministicMN.run s with
    | .error e => .error (.throw e)
    | .ok (dmn, s) => do
      let l ← l.addMN serializeHash dmn false
      unserializeMNs cnt l s

def unserialize (s : Bytes) : Outcome (DeterministicMNList × Bytes) :=
  match getHeader.run s with
  | .error e => .error (.throw e)
  | .ok ((l, cnt), s) => unserializeMNs serializeHash cnt l s

/-- `AddMN` of one member after the other, without moving the counter. -/
def addAll (l : DeterministicMNList) (order : List DeterministicMN) :
    Outcome DeterministicMNList :=
  order.foldlM (fun l dmn => l.addMN serializeHash dmn false) l

variable {serializeHash}
variable {l l' L : DeterministicMNList} {order : List DeterministicMN}

theorem addAll_cons (dmn : DeterministicMN) (order : List DeterministicMN) :
    l.addAll serializeHash (dmn :: order) =
      l.addMN serializeHash dmn false >>= fun l => l.addAll serializeHash order := by
  simp [addAll]

/-- Reading back the members is adding them. -/
theorem unserializeMNs_eq (hfit : ∀ dmn ∈ order, dmn.pdmnState.ScriptsFit) (rest : Bytes) :
    unserializeMNs serializeHash order.length l (order.flatMap putDeterministicMN ++ rest) =
      (l.addAll serializeHash order).map fun l => (l, rest) := by
  induction order generalizing l with
  | nil => rfl
  | cons dmn order ih =>
    have hread := reads_mn (hfit dmn (by simp)) (order.flatMap putDeterministicMN ++ rest)
    rw [flatMap_cons, append_assoc, length_cons, unserializeMNs, hread, addAll_cons]
    show (do let l ← l.addMN serializeHash dmn false; unserializeMNs serializeHash _ l _) = _
    cases hadd : l.addMN serializeHash dmn false with
    | error e => rfl
    | ok l₁ => exact ih fun d hd => hfit d (by simp [hd])

/-- Reading back a list is adding its members to the empty list with its header. -/
theorem unserialize_serializeAs (hlen : order.length ≤ maxSize)
    (hfit : ∀ dmn ∈ order, dmn.pdmnState.ScriptsFit) (rest : Bytes) :
    unserialize serializeHash (l.serializeAs order ++ rest) =
      (addAll serializeHash ⟨l.blockHash, l.nHeight, l.nTotalRegisteredCount, ∅, ∅, ∅⟩ order).map
        fun l => (l, rest) := by
  have hheader : Reads getHeader
      (putUint256 l.blockHash ++ (putInt32 l.nHeight ++ (putUInt32 l.nTotalRegisteredCount ++
        putCompactSize order.length)))
      (⟨l.blockHash, l.nHeight, l.nTotalRegisteredCount, ∅, ∅, ∅⟩, order.length) := by
    refine (reads_uint256 l.blockHash).bind ?_
    refine (reads_int32 l.nHeight).bind ?_
    refine (reads_uint32 l.nTotalRegisteredCount).bind ?_
    exact (reads_getCompactSize hlen).last
  have hbytes : l.serializeAs order ++ rest =
      putUint256 l.blockHash ++ (putInt32 l.nHeight ++ (putUInt32 l.nTotalRegisteredCount ++
        putCompactSize order.length)) ++ (order.flatMap putDeterministicMN ++ rest) := by
    simp only [serializeAs, append_assoc]
  rw [unserialize, hbytes, hheader]
  exact unserializeMNs_eq hfit rest

/-- A list with too many members is not read back. -/
theorem unserialize_too_many (hlen : maxSize < order.length) (h64 : order.length < 256 ^ 8)
    (rest : Bytes) : unserialize serializeHash (l.serializeAs order ++ rest) =
      .error (.throw "ReadCompactSize(): size too large") := by
  have hheader : getHeader.run (l.serializeAs order ++ rest) =
      .error "ReadCompactSize(): size too large" := by
    simp only [serializeAs, append_assoc, getHeader]
    rw [(reads_uint256 l.blockHash).run_bind, (reads_int32 l.nHeight).run_bind,
      (reads_uint32 l.nTotalRegisteredCount).run_bind, StateT.run_bind,
      getCompactSize_too_large hlen h64]
    rfl
  rw [unserialize, hheader]

/-! ### Adding the members again -/

/-- A member of a well-formed list can be added to any part of the list without it. -/
theorem canAdd_of_part (hL : Wf serializeHash L) (hl : Wf serializeHash l)
    (hsub : ∀ (p : Uint256) dmn, l.mnMap[p]? = some dmn → L.mnMap[p]? = some dmn)
    {dmn} (hmem : L.mnMap[dmn.proTxHash]? = some dmn)
    (hnew : l.mnMap[dmn.proTxHash]? = none)
    (howner : dmn.pdmnState.keyIDOwner ≠ 0) (hoperator : dmn.pdmnState.keyIDOperator ≠ 0) :
    CanAdd l dmn := by
  refine ⟨hnew, ?_, hL.assigned hmem, hL.collateral hmem, howner, hoperator, ?_⟩
  · -- the member with that id in the part is the member itself
    cases hid : l.mnInternalIdMap[dmn.internalId]? with
    | none => rfl
    | some p =>
      obtain ⟨d, hd, hdid⟩ := (hl.ids _ _).mp hid
      have hp := (hL.ids dmn.internalId p).mpr ⟨d, hsub p d hd, hdid⟩
      have hq := (hL.ids dmn.internalId dmn.proTxHash).mpr ⟨dmn, hmem, rfl⟩
      obtain rfl := mem_unique hp hq
      simp [hnew] at hd
  · intro v hv p hp
    obtain ⟨d, hd, hvd⟩ := mem_owned.mp hp
    have hpL : v ∈ L.owned p := mem_owned.mpr ⟨d, hsub p d hd, hvd⟩
    have hqL : v ∈ L.owned dmn.proTxHash := mem_owned.mpr ⟨dmn, hmem, hv⟩
    obtain rfl := hL.owns.unique hpL hqL
    simp [hnew] at hd

/-- Adding members of a well-formed list in any order completes, and adds just them. -/
theorem addAll_run (hinj : Function.Injective serializeHash) (hL : Wf serializeHash L)
    (hkeys : ∀ dmn ∈ order, dmn.pdmnState.keyIDOwner ≠ 0 ∧ dmn.pdmnState.keyIDOperator ≠ 0)
    (hl : Wf serializeHash l)
    (hsub : ∀ (p : Uint256) dmn, l.mnMap[p]? = some dmn → L.mnMap[p]? = some dmn)
    (hmem : ∀ dmn ∈ order, L.mnMap[dmn.proTxHash]? = some dmn ∧ l.mnMap[dmn.proTxHash]? = none)
    (hnodup : (order.map DeterministicMN.proTxHash).Nodup) :
    ∃ l', l.addAll serializeHash order = .ok l' ∧ Wf serializeHash l' ∧
      (∀ (p : Uint256) dmn, l'.mnMap[p]? = some dmn ↔
        l.mnMap[p]? = some dmn ∨ (dmn ∈ order ∧ dmn.proTxHash = p)) ∧
      l'.blockHash = l.blockHash ∧ l'.nHeight = l.nHeight ∧
      l'.nTotalRegisteredCount = l.nTotalRegisteredCount := by
  induction order generalizing l with
  | nil => exact ⟨l, rfl, hl, by simp, rfl, rfl, rfl⟩
  | cons dmn order ih =>
    obtain ⟨hmemL, hnew⟩ := hmem dmn (by simp)
    obtain ⟨howner, hoperator⟩ := hkeys dmn (by simp)
    obtain ⟨l₁, hadd⟩ := addMN_run hinj hl
      (canAdd_of_part hL hl hsub hmemL hnew howner hoperator) false
    obtain ⟨-, hl₁, hmn, htotal, hhash, hheight⟩ := addMN_inv hinj hl hadd
    rw [map_cons, nodup_cons] at hnodup
    have hne : ∀ d ∈ order, dmn.proTxHash ≠ d.proTxHash := fun d hd heq =>
      hnodup.1 (heq ▸ mem_map_of_mem hd)
    have hsub₁ : ∀ (p : Uint256) d, l₁.mnMap[p]? = some d → L.mnMap[p]? = some d := by
      intro p d hd
      rw [hmn] at hd
      rcases FMap.of_get_insert hd with ⟨heq, rfl⟩ | ⟨-, hd⟩
      · exact heq ▸ hmemL
      · exact hsub p d hd
    obtain ⟨l', hall, hwf', hget', hhash', hheight', htotal'⟩ :=
      ih (fun d hd => hkeys d (by simp [hd])) hl₁ hsub₁
        (fun d hd => ⟨(hmem d (by simp [hd])).1, by
          rw [hmn, FMap.get_insert_ne (hne d hd)]
          exact (hmem d (by simp [hd])).2⟩)
        hnodup.2
    refine ⟨l', ?_, hwf', ?_, hhash'.trans hhash, hheight'.trans hheight, htotal'.trans htotal⟩
    · rwa [addAll_cons, hadd]
    · intro p d
      rw [hget', hmn, FMap.get_insert]
      by_cases hp : dmn.proTxHash = p
      · subst hp
        rw [if_pos rfl, hnew]
        constructor
        · rintro (hd | ⟨hd, heq⟩)
          · exact .inr ⟨by simp [some.inj hd], by rw [some.inj hd]⟩
          · exact absurd heq.symm (hne d hd)
        · rintro (hd | ⟨hd, heq⟩)
          · cases hd
          · rcases mem_cons.mp hd with rfl | hd
            · exact .inl rfl
            · exact absurd heq.symm (hne d hd)
      · rw [if_neg hp]
        refine or_congr_right (and_congr_left fun heq => ?_)
        rw [mem_cons]
        refine ⟨Or.inr, ?_⟩
        rintro (rfl | hd)
        · exact absurd heq hp
        · exact hd

/-- Every member that was added has an owner key and an operator key. -/
theorem addAll_keys (hinj : Function.Injective serializeHash) (hl : Wf serializeHash l)
    (hall : l.addAll serializeHash order = .ok l') :
    ∀ dmn ∈ order, dmn.pdmnState.keyIDOwner ≠ 0 ∧ dmn.pdmnState.keyIDOperator ≠ 0 := by
  induction order generalizing l with
  | nil => simp
  | cons dmn order ih =>
    rw [addAll_cons] at hall
    obtain ⟨l₁, hadd, hall⟩ := bind_ok.mp hall
    obtain ⟨hcan, hl₁, -⟩ := addMN_inv hinj hl hadd
    intro d hd
    rcases mem_cons.mp hd with rfl | hd
    · exact ⟨hcan.owner, hcan.operator⟩
    · exact ih hl₁ hall d hd

/-- **Exactly the lists whose members all have an owner key and an operator key are read
back**, in whatever order the members were written. -/
theorem unserialize_serializeAs_iff (hinj : Function.Injective serializeHash)
    (hL : Wf serializeHash L) (hperm : order.Perm L.members)
    (hfit : ∀ dmn ∈ L.members, dmn.pdmnState.ScriptsFit) (h64 : L.members.length < 2 ^ 64)
    (rest : Bytes) : unserialize serializeHash (L.serializeAs order ++ rest) = .ok (L, rest) ↔
      L.members.length ≤ maxSize ∧
      ∀ dmn ∈ L.members, dmn.pdmnState.keyIDOwner ≠ 0 ∧ dmn.pdmnState.keyIDOperator ≠ 0 := by
  have hlen := hperm.length_eq
  have hfit' : ∀ dmn ∈ order, dmn.pdmnState.ScriptsFit := fun d hd => hfit d (hperm.mem_iff.mp hd)
  have hempty : Wf serializeHash ⟨L.blockHash, L.nHeight, L.nTotalRegisteredCount, ∅, ∅, ∅⟩ :=
    wf_empty _ _ _
  constructor
  · intro hread
    by_cases hsize : order.length ≤ maxSize
    · rw [unserialize_serializeAs hsize hfit'] at hread
      refine ⟨hlen ▸ hsize, ?_⟩
      cases hall : addAll serializeHash ⟨L.blockHash, L.nHeight, L.nTotalRegisteredCount, ∅, ∅, ∅⟩
          order with
      | error e => rw [hall] at hread; cases hread
      | ok l' =>
        intro d hd
        exact addAll_keys hinj hempty hall d (hperm.mem_iff.mpr hd)
    · rw [unserialize_too_many (by omega) (by rw [hlen]; exact h64)] at hread
      cases hread
  · rintro ⟨hsize, hkeys⟩
    rw [unserialize_serializeAs (hlen ▸ hsize) hfit']
    obtain ⟨l', hall, hwf', hget', hhash, hheight, htotal⟩ :=
      addAll_run hinj hL (fun d hd => hkeys d (hperm.mem_iff.mp hd)) hempty
        (fun p d hd => by simp at hd)
        (fun d hd => ⟨hL.mem_members.mp (hperm.mem_iff.mp hd), by simp⟩)
        ((hperm.map _).nodup_iff.mpr hL.nodup_members)
    have hmn : l'.mnMap = L.mnMap := by
      refine FMap.ext fun p => ext fun d => ?_
      rw [hget', hperm.mem_iff, hL.mem_members]
      constructor
      · rintro (hd | ⟨hd, rfl⟩)
        · simp at hd
        · exact hd
      · intro hd
        have hp := hL.key hd
        exact Or.inr ⟨hp ▸ hd, hp⟩
    rw [hall, hwf'.ext hL hhash hheight htotal hmn]
    rfl

end DeterministicMNList

end KmushiCoin
