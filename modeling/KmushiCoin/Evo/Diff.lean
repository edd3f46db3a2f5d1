import KmushiCoin.Evo.Serialization
import KmushiCoin.Lib.RecordDiff

/-!
# KmushiCoin.Evo.Diff

The **difference of two masternode lists**: what `BuildDiff` records, the byte format
in which it is stored, and how `ApplyDiff` rebuilds the second list from the first.

* The state of a member that both lists have is stored as a record diff under a bit
  mask (`stateFields` describes the fields; the library does the rest).
* The maps of changes are keyed by internal id. `mem_addedMNs`, `mem_updatedMNs` and
  `mem_removedMns` say what they hold for two well-formed lists.
* A stored difference is read back exactly when the reader accepts the length of each
  of its three parts (`reads_buildDiff`, `unserialize_too_many_changes`).
-/

namespace KmushiCoin

open Codec FMap List

/-! ### Differences of states -/

/-- The fields of a masternode's state. -/
inductive StateField
  | nRegisteredHeight
  | nLastPaidHeight
  | nPoSePenalty
  | nPoSeRevivedHeight
  | nPoSeBanHeight
  | nRevocationReason
  | confirmedHash
  | confirmedHashWithProRegTxHash
  | keyIDOwner
  | keyIDOperator
  | keyIDVoting
  | addr
  | scriptPayout
  | scriptOperatorPayout
  deriving Repr, DecidableEq

namespace StateField

def Value : StateField → Type
  | nRegisteredHeight | nLastPaidHeight | nPoSePenalty | nPoSeRevivedHeight | nPoSeBanHeight =>
    Int32
  | nRevocationReason => UInt16
  | confirmedHash | confirmedHashWithProRegTxHash => Uint256
  | keyIDOwner | keyIDOperator | keyIDVoting => KeyID
  | addr => Service
  | scriptPayout | scriptOperatorPayout => Script

instance : (f : StateField) → DecidableEq f.Value
  | nRegisteredHeight | nLastPaidHeight | nPoSePenalty | nPoSeRevivedHeight | nPoSeBanHeight =>
    inferInstanceAs (DecidableEq Int32)
  | nRevocationReason => inferInstanceAs (DecidableEq UInt16)
  | confirmedHash | confirmedHashWithProRegTxHash => inferInstanceAs (DecidableEq Uint256)
  | keyIDOwner | keyIDOperator | keyIDVoting => inferInstanceAs (DecidableEq KeyID)
  | addr => inferInstanceAs (DecidableEq Service)
  | scriptPayout | scriptOperatorPayout => inferInstanceAs (DecidableEq Script)

def get (s : DeterministicMNState) : (f : StateField) → f.Value
  | nRegisteredHeight => s.nRegisteredHeight
  | nLastPaidHeight => s.nLastPaidHeight
  | nPoSePenalty => s.nPoSePenalty
  | nPoSeRevivedHeight => s.nPoSeRevivedHeight
  | nPoSeBanHeight => s.nPoSeBanHeight
  | nRevocationReason => s.nRevocationReason
  | confirmedHash => s.confirmedHash
  | confirmedHashWithProRegTxHash => s.confirmedHashWithProRegTxHash
  | keyIDOwner => s.keyIDOwner
  | keyIDOperator => s.keyIDOperator
  | keyIDVoting => s.keyIDVoting
  | addr => s.addr
  | scriptPayout => s.scriptPayout
  | scriptOperatorPayout => s.scriptOperatorPayout

def set (s : DeterministicMNState) : (f : StateField) → f.Value → DeterministicMNState
  | nRegisteredHeight, v => { s with nRegisteredHeight := v }
  | nLastPaidHeight, v => { s with nLastPaidHeight := v }
  | nPoSePenalty, v => { s with nPoSePenalty := v }
  | nPoSeRevivedHeight, v => { s with nPoSeRevivedHeight := v }
  | nPoSeBanHeight, v => { s with nPoSeBanHeight := v }
  | nRevocationReason, v => { s with nRevocationReason := v }
  | confirmedHash, v => { s with confirmedHash := v }
  | confirmedHashWithProRegTxHash, v => { s with confirmedHashWithProRegTxHash := v }
  | keyIDOwner, v => { s with keyIDOwner := v }
  | keyIDOperator, v => { s with keyIDOperator := v }
  | keyIDVoting, v => { s with keyIDVoting := v }
  | addr, v => { s with addr := v }
  | scriptPayout, v => { s with scriptPayout := v }
  | scriptOperatorPayout, v => { s with scriptOperatorPayout := v }

def mask : StateField → UInt32
  | nRegisteredHeight => 0x0001
  | nLastPaidHeight => 0x0002
  | nPoSePenalty => 0x0004
  | nPoSeRevivedHeight => 0x0008
  | nPoSeBanHeight => 0x0010
  | nRevocationReason => 0x0020
  | confirmedHash => 0x0040
  | confirmedHashWithProRegTxHash => 0x0080
  | keyIDOwner => 0x0100
  | keyIDOperator => 0x0200
  | keyIDVoting => 0x0400
  | addr => 0x0800
  | scriptPayout => 0x1000
  | scriptOperatorPayout => 0x2000

def put : (f : StateField) → f.Value → Bytes
  | nRegisteredHeight | nLastPaidHeight | nPoSePenalty | nPoSeRevivedHeight | nPoSeBanHeight =>
    putInt32
  | nRevocationReason => putUInt16
  | confirmedHash | confirmedHashWithProRegTxHash => putUint256
  | keyIDOwner | keyIDOperator | keyIDVoting => putKeyID
  | addr => putService
  | scriptPayout | scriptOperatorPayout => putScript

def read : (f : StateField) → Get f.Value
  | nRegisteredHeight | nLastPaidHeight | nPoSePenalty | nPoSeRevivedHeight | nPoSeBanHeight =>
    getInt32
  | nRevocationReason => getUInt16
  | confirmedHash | confirmedHashWithProRegTxHash => getUint256
  | keyIDOwner | keyIDOperator | keyIDVoting => getKeyID
  | addr => getService
  | scriptPayout | scriptOperatorPayout => getScript

/-- The order of `DMN_STATE_DIFF_ALL_FIELDS`. -/
def order : List StateField :=
  [nRegisteredHeight, nLastPaidHeight, nPoSePenalty, nPoSeRevivedHeight, nPoSeBanHeight,
   nRevocationReason, confirmedHash, confirmedHashWithProRegTxHash, keyIDOwner, keyIDOperator,
   keyIDVoting, addr, scriptPayout, scriptOperatorPayout]

/-- The fields of a state that fits are read back. -/
theorem reads {s} (h : s.ScriptsFit) (f : StateField) :
    Reads f.read (f.put (get s f)) (get s f) := by
  cases f with
  | nRegisteredHeight | nLastPaidHeight | nPoSePenalty | nPoSeRevivedHeight | nPoSeBanHeight =>
    exact reads_int32 _
  | nRevocationReason => exact reads_uint16 _
  | confirmedHash | confirmedHashWithProRegTxHash => exact reads_uint256 _
  | keyIDOwner | keyIDOperator | keyIDVoting => exact reads_keyID _
  | addr => exact reads_service _
  | scriptPayout => exact reads_script h.1
  | scriptOperatorPayout => exact reads_script h.2

end StateField

def stateFields : RecordDiff.Fields DeterministicMNState StateField where
  Value := StateField.Value
  get := StateField.get
  set := StateField.set
  get_set_self s f v := by cases f <;> rfl
  get_set_ne s f v g h := by cases f <;> cases g <;> first | rfl | exact absurd rfl h
  ext s t h := by
    obtain ⟨⟩ := s
    obtain ⟨⟩ := t
    have h₁ := h .nRegisteredHeight
    have h₂ := h .nLastPaidHeight
    have h₃ := h .nPoSePenalty
    have h₄ := h .nPoSeRevivedHeight
    have h₅ := h .nPoSeBanHeight
    have h₆ := h .nRevocationReason
    have h₇ := h .confirmedHash
    have h₈ := h .confirmedHashWithProRegTxHash
    have h₉ := h .keyIDOwner
    have h₁₀ := h .keyIDOperator
    have h₁₁ := h .keyIDVoting
    have h₁₂ := h .addr
    have h₁₃ := h .scriptPayout
    have h₁₄ := h .scriptOperatorPayout
    simp only [StateField.get] at h₁ h₂ h₃ h₄ h₅ h₆ h₇ h₈ h₉ h₁₀ h₁₁ h₁₂ h₁₃ h₁₄
    subst h₁ h₂ h₃ h₄ h₅ h₆ h₇ h₈ h₉ h₁₀ h₁₁ h₁₂ h₁₃ h₁₄
    rfl
  order := StateField.order
  mem_order f := by cases f <;> decide
  nodup_order := by decide
  mask := StateField.mask
  mask_ne_zero f := by cases f <;> decide
  mask_disjoint f g h := by cases f <;> cases g <;> first | rfl | exact absurd rfl h
  put := StateField.put
  read := StateField.read

instance (f : StateField) : DecidableEq (stateFields.Value f) :=
  inferInstanceAs (DecidableEq f.Value)

abbrev DeterministicMNStateDiff : Type := RecordDiff.Diff DeterministicMNState

namespace DeterministicMNStateDiff

/-- The difference of two states; the fields that are equal keep their defaults. -/
def ofStates (a b : DeterministicMNState) : DeterministicMNStateDiff := stateFields.diff {} a b

def applyToState (d : DeterministicMNStateDiff) (target : DeterministicMNState) :
    DeterministicMNState :=
  stateFields.apply d target

def put (d : DeterministicMNStateDiff) : Bytes := stateFields.putDiff d

def get : Get DeterministicMNStateDiff := stateFields.getDiff {}

theorem applyToState_ofStates (a b : DeterministicMNState) : applyToState (ofStates a b) a = b :=
  RecordDiff.Fields.apply_diff

theorem ofStates_fields_eq_zero {a b} : (ofStates a b).fields = 0 ↔ a = b :=
  RecordDiff.Fields.diff_fields_eq_zero

theorem reads_ofStates (a : DeterministicMNState) {b} (h : b.ScriptsFit) :
    Reads get (put (ofStates a b)) (ofStates a b) :=
  RecordDiff.Fields.reads_diff (StateField.reads h)

end DeterministicMNStateDiff

/-! ### Differences of lists -/

structure DeterministicMNListDiff where
  /-- Kept in memory only. -/
  nHeight : Int32 := -1
  addedMNs : List DeterministicMN := []
  /-- By internal id. -/
  updatedMNs : FMap UInt64 DeterministicMNStateDiff := ∅
  /-- The internal ids. -/
  removedMns : FMap UInt64 Unit := ∅
  deriving DecidableEq

namespace DeterministicMNListDiff

def hasChanges (diff : DeterministicMNListDiff) : Bool :=
  !diff.addedMNs.isEmpty || !diff.updatedMNs.isEmpty || !diff.removedMns.isEmpty

def serialize (diff : DeterministicMNListDiff) : Bytes :=
  putVector putDeterministicMN diff.addedMNs ++
  (putVector (fun p => putVarInt64 p.1 ++ DeterministicMNStateDiff.put p.2) diff.updatedMNs.toList ++
  putVector (fun p => putVarInt64 p.1) diff.removedMns.toList)

/-- One entry of the updates. -/
def getUpdate : Get (UInt64 × DeterministicMNStateDiff) := do
  let id ← getVarInt64
  let diff ← DeterministicMNStateDiff.get
  pure (id, diff)

def unserialize : Get DeterministicMNListDiff := do
  let addedMNs ← getVector getDeterministicMN
  let updatedMNs ← getVector getUpdate
  let removedMns ← getVector ((fun id => (id, ())) <$> getVarInt64)
  pure { addedMNs, updatedMNs := ofEntries updatedMNs,
         removedMns := ofEntries removedMns }

end DeterministicMNListDiff

namespace DeterministicMNList

/-- The update that takes the member of the first list to the one of the second, if they
differ. The source compares pointers first, and states only behind different pointers. -/
def updateOf (l : DeterministicMNList) (toPtr : DeterministicMN) :
    Option (UInt64 × DeterministicMNStateDiff) :=
  match l.getMN toPtr.proTxHash with
  | none => none
  | some fromPtr =>
    let stateDiff := DeterministicMNStateDiff.ofStates fromPtr.pdmnState toPtr.pdmnState
    if stateDiff.fields ≠ 0 then some (toPtr.internalId, stateDiff) else none

/-- The members of `l'` that the list does not have. -/
def newIn (l l' : DeterministicMNList) : List DeterministicMN :=
  l'.members.filter fun toPtr => (l.getMN toPtr.proTxHash).isNone

/-- The difference of two lists whose members were given their ids. -/
def buildDiff (l l' : DeterministicMNList) : DeterministicMNListDiff where
  -- sorted, so that they are added in the order of their registration
  addedMNs := (l.newIn l').mergeSort fun a b => decide (a.internalId ≤ b.internalId)
  updatedMNs := ofEntries (l'.members.filterMap l.updateOf)
  removedMns := ofEntries ((l'.newIn l).map fun fromPtr => (fromPtr.internalId, ()))

section
variable (serializeHash : UniqueProperty → Nat)

def removeById (l : DeterministicMNList) (id : UInt64) : Outcome DeterministicMNList :=
  match l.getMNByInternalId id with
  | none => .error (.throw "%s: can't find a removed masternode, id=%d")
  | some dmn => l.removeMN serializeHash dmn.proTxHash

/-- `UpdateMN(oldDmn, stateDiff)` of the member with an internal id. -/
def updateById (l : DeterministicMNList) (p : UInt64 × DeterministicMNStateDiff) :
    Outcome DeterministicMNList :=
  match l.getMNByInternalId p.1 with
  | none => .error (.abort "oldDmn != nullptr")
  | some oldDmn => l.updateMN serializeHash oldDmn (p.2.applyToState oldDmn.pdmnState)

/-- The list of the block with this hash and height. -/
def applyDiff (l : DeterministicMNList) (blockHash : Uint256) (nHeight : Int32)
    (diff : DeterministicMNListDiff) : Outcome DeterministicMNList := do
  let result := { l with blockHash := blockHash, nHeight := nHeight }
  let result ← (diff.removedMns.toList.map Prod.fst).foldlM (removeById serializeHash) result
  let result ← diff.addedMNs.foldlM (fun l dmn => l.addMN serializeHash dmn) result
  diff.updatedMNs.toList.foldlM (updateById serializeHash) result

/-- Store the difference to another list and rebuild that list from what was stored. -/
def rebuild (l l' : DeterministicMNList) : Outcome DeterministicMNList :=
  match DeterministicMNListDiff.unserialize.run (l.buildDiff l').serialize with
  | .error e => .error (.throw e)
  | .ok (diff, _) => l.applyDiff serializeHash l'.blockHash l'.nHeight diff

end

/-! ### What a difference holds -/

section
variable {serializeHash : UniqueProperty → Nat} {l l' : DeterministicMNList}

/-- A difference without changes only sets the header. -/
theorem applyDiff_of_not_hasChanges {blockHash} {nHeight} {diff} (h : diff.hasChanges = false) :
    l.applyDiff serializeHash blockHash nHeight diff =
      .ok ((l.setBlockHash blockHash).setHeight nHeight) := by
  obtain ⟨n, added, updated, removed⟩ := diff
  simp only [DeterministicMNListDiff.hasChanges, Bool.or_eq_false_iff, Bool.not_eq_false',
    List.isEmpty_iff, Std.ExtTreeMap.isEmpty_iff] at h
  obtain ⟨⟨rfl, rfl⟩, rfl⟩ := h
  rfl

variable {d : DeterministicMN} {e : UInt64 × DeterministicMNStateDiff}

theorem mem_newIn (hl' : Wf serializeHash l') :
    d ∈ l.newIn l' ↔ l'.mnMap[d.proTxHash]? = some d ∧ l.mnMap[d.proTxHash]? = none := by
  unfold newIn getMN
  rw [mem_filter, hl'.mem_members, Option.isNone_iff_eq_none]

theorem updateOf_eq_some :
    l.updateOf d = some e ↔ ∃ f, l.mnMap[d.proTxHash]? = some f ∧ f.pdmnState ≠ d.pdmnState ∧
      e = (d.internalId, .ofStates f.pdmnState d.pdmnState) := by
  unfold updateOf getMN
  cases hf : l.mnMap[d.proTxHash]? with
  | none => simp
  | some f =>
    simp only [ne_eq, DeterministicMNStateDiff.ofStates_fields_eq_zero, Option.some.injEq,
      exists_eq_left']
    split_ifs with h
    · simp [h]
    · simp [h, eq_comm (a := e)]

theorem nodup_removals (hl : Wf serializeHash l) :
    (((l'.newIn l).map fun d => (d.internalId, ())).map Prod.fst).Nodup := by
  rw [map_map]
  exact hl.nodup_ids.sublist (filter_sublist.map _)

theorem mem_removedMns (hl : Wf serializeHash l) {i} :
    i ∈ (l.buildDiff l').removedMns.toList.map Prod.fst ↔
      ∃ d : DeterministicMN, l.mnMap[d.proTxHash]? = some d ∧ l'.mnMap[d.proTxHash]? = none ∧
        d.internalId = i := by
  rw [mem_map]
  constructor
  · rintro ⟨⟨_, u⟩, he, rfl⟩
    rw [mem_toList, buildDiff, get_ofEntries (nodup_removals hl), mem_map] at he
    obtain ⟨d, hd, heq⟩ := he
    obtain ⟨hd, hnone⟩ := (mem_newIn hl).mp hd
    exact ⟨d, hd, hnone, congrArg Prod.fst heq⟩
  · rintro ⟨d, hd, hnone, rfl⟩
    refine ⟨(d.internalId, ()), ?_, rfl⟩
    rw [mem_toList, buildDiff, get_ofEntries (nodup_removals hl), mem_map]
    exact ⟨d, (mem_newIn hl).mpr ⟨hd, hnone⟩, rfl⟩

theorem length_addedMNs : (l.buildDiff l').addedMNs.length = (l.newIn l').length :=
  length_mergeSort _

theorem length_removedMns (hl : Wf serializeHash l) :
    (l.buildDiff l').removedMns.toList.length = (l'.newIn l).length := by
  rw [buildDiff, length_toList_ofEntries (nodup_removals hl), length_map]

variable (hl : Wf serializeHash l) (hl' : Wf serializeHash l')
  (hfit : ∀ d ∈ l'.members, d.pdmnState.ScriptsFit)
include hl'

theorem mem_addedMNs : d ∈ (l.buildDiff l').addedMNs ↔
      l'.mnMap[d.proTxHash]? = some d ∧ l.mnMap[d.proTxHash]? = none := by
  rw [← mem_newIn hl']
  exact mem_mergeSort

theorem nodup_addedMNs : ((l.buildDiff l').addedMNs.map DeterministicMN.proTxHash).Nodup := by
  have hperm := (mergeSort_perm (l.newIn l')
    fun a b => decide (a.internalId ≤ b.internalId)).map DeterministicMN.proTxHash
  exact hperm.nodup_iff.mpr (hl'.nodup_members.sublist (filter_sublist.map _))

theorem nodup_updates : ((l'.members.filterMap l.updateOf).map Prod.fst).Nodup := by
  refine hl'.nodup_ids.sublist ?_
  generalize l'.members = ds
  induction ds with
  | nil => simp
  | cons d ds ih =>
    rw [map_cons]
    cases he : l.updateOf d with
    | none =>
      rw [filterMap_cons_none he]
      exact ih.cons _
    | some e =>
      rw [filterMap_cons_some he, map_cons]
      obtain ⟨f, -, -, rfl⟩ := updateOf_eq_some.mp he
      exact ih.cons_cons _

theorem mem_updatedMNs :
    e ∈ (l.buildDiff l').updatedMNs.toList ↔ ∃ t f : DeterministicMN, l'.mnMap[t.proTxHash]? = some t ∧
      l.mnMap[t.proTxHash]? = some f ∧ f.pdmnState ≠ t.pdmnState ∧
      e = (t.internalId, .ofStates f.pdmnState t.pdmnState) := by
  obtain ⟨i, sd⟩ := e
  rw [mem_toList, buildDiff, get_ofEntries (nodup_updates hl'), mem_filterMap]
  simp only [hl'.mem_members, updateOf_eq_some]
  constructor
  · rintro ⟨t, ht, f, hf⟩
    exact ⟨t, f, ht, hf⟩
  · rintro ⟨t, f, ht, hf⟩
    exact ⟨t, ht, f, hf⟩

/-! ### The stored difference -/

/-- No kind of change is more frequent than the length of a vector may be. -/
structure ChangesFit (l l' : DeterministicMNList) : Prop where
  added : (l.newIn l').length ≤ maxSize
  updated : (l'.members.filterMap l.updateOf).length ≤ maxSize
  removed : (l'.newIn l).length ≤ maxSize

theorem length_updatedMNs :
    (l.buildDiff l').updatedMNs.toList.length = (l'.members.filterMap l.updateOf).length :=
  length_toList_ofEntries (nodup_updates hl')

include hfit

theorem reads_addedMNs (h : (l.newIn l').length ≤ maxSize) :
    Reads (getVector getDeterministicMN) (putVector putDeterministicMN (l.buildDiff l').addedMNs)
      (l.buildDiff l').addedMNs := by
  refine reads_getVector (by rwa [length_addedMNs]) fun d hd => reads_mn (hfit d ?_)
  exact hl'.mem_members.mpr ((mem_addedMNs hl').mp hd).1

theorem reads_updatedMNs (h : (l'.members.filterMap l.updateOf).length ≤ maxSize) :
    Reads (getVector DeterministicMNListDiff.getUpdate)
      (putVector (fun p => putVarInt64 p.1 ++ DeterministicMNStateDiff.put p.2)
        (l.buildDiff l').updatedMNs.toList) (l.buildDiff l').updatedMNs.toList := by
  refine reads_getVector (by rwa [length_updatedMNs hl']) fun e he => ?_
  obtain ⟨t, f, ht, -, -, rfl⟩ := (mem_updatedMNs hl').mp he
  refine (reads_varInt64 t.internalId).bind ?_
  exact (DeterministicMNStateDiff.reads_ofStates _ (hfit t (hl'.mem_members.mpr ht))).last

include hl

/-- A stored difference is read back. -/
theorem reads_buildDiff (h : ChangesFit l l') :
    Reads DeterministicMNListDiff.unserialize (l.buildDiff l').serialize (l.buildDiff l') := by
  have hremoved : Reads (getVector ((fun id => (id, ())) <$> getVarInt64))
      (putVector (fun p => putVarInt64 p.1) (l.buildDiff l').removedMns.toList)
      (l.buildDiff l').removedMns.toList :=
    reads_getVector (by rw [length_removedMns hl]; exact h.removed)
      fun e _ => (reads_varInt64 e.1).map
  refine (reads_addedMNs hl' hfit h.added).bind ?_
  refine (reads_updatedMNs hl' hfit h.updated).bind ?_
  have hdiff : ({
      addedMNs := (l.buildDiff l').addedMNs
      updatedMNs := ofEntries (l.buildDiff l').updatedMNs.toList
      removedMns := ofEntries (l.buildDiff l').removedMns.toList } :
      DeterministicMNListDiff) = l.buildDiff l' := by
    rw [ofEntries_toList, ofEntries_toList]
    rfl
  have hlast := hremoved.last (f := fun removedMns => ({
    addedMNs := (l.buildDiff l').addedMNs
    updatedMNs := ofEntries (l.buildDiff l').updatedMNs.toList
    removedMns := ofEntries removedMns } : DeterministicMNListDiff))
  beta_reduce at hlast
  rwa [hdiff] at hlast

/-- A difference with too many changes of a kind is not. -/
theorem unserialize_too_many_changes (h64 : l.members.length < 2 ^ 64)
    (h64' : l'.members.length < 2 ^ 64) (h : ¬ ChangesFit l l') :
    ∃ e, DeterministicMNListDiff.unserialize.run (l.buildDiff l').serialize = .error e := by
  have hnew : (l.newIn l').length ≤ l'.members.length := length_filter_le _ _
  have hupd : (l'.members.filterMap l.updateOf).length ≤ l'.members.length :=
    length_filterMap_le _ _
  have hgone : (l'.newIn l).length ≤ l.members.length := length_filter_le _ _
  refine ⟨"ReadCompactSize(): size too large", ?_⟩
  unfold DeterministicMNListDiff.unserialize DeterministicMNListDiff.serialize
  -- the first of the three vectors that is too long stops the reader
  by_cases h₁ : (l.newIn l').length ≤ maxSize
  · rw [(reads_addedMNs hl' hfit h₁).run_bind]
    by_cases h₂ : (l'.members.filterMap l.updateOf).length ≤ maxSize
    · rw [(reads_updatedMNs hl' hfit h₂).run_bind]
      have h₃ : maxSize < (l'.newIn l).length := lt_of_not_ge fun h₃ => h ⟨h₁, h₂, h₃⟩
      have hread : (getVector ((fun id => (id, ())) <$> getVarInt64)).run
          (putVector (fun p => putVarInt64 p.1) (l.buildDiff l').removedMns.toList ++ []) =
          .error "ReadCompactSize(): size too large" :=
        getVector_too_large (by rwa [length_removedMns hl]) (by rw [length_removedMns hl]; omega) []
      rw [append_nil] at hread
      rw [StateT.run_bind, hread]
      rfl
    · rw [StateT.run_bind, getVector_too_large (by rw [length_updatedMNs hl']; omega)
        (by rw [length_updatedMNs hl']; omega)]
      rfl
  · rw [StateT.run_bind, getVector_too_large (by rw [length_addedMNs]; omega)
      (by rw [length_addedMNs]; omega)]
    rfl

end

end DeterministicMNList

end KmushiCoin
