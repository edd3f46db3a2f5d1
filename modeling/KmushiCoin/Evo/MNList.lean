import KmushiCoin.Lib.RefIndex
import KmushiCoin.Primitives.Transaction

/-!
# KmushiCoin.Evo.MNList

The **deterministic masternode list**: the members by their registration hash,
the map from internal ids to members, and the map of *unique properties*, which
counts for every collateral outpoint, address and key how often its one owner
uses it.

* The three maps are updated one after the other, as in the source, and every
  `assert` and every thrown error of the updates is an outcome of the model.
* The key of the unique-property map is the hash of a value. `serializeHash` is a
  parameter: the model computes with whatever it returns, and the results that
  need it assume it injective. Values of different types are kept apart by
  `UniqueProperty`, as their serializations have different lengths.
* A traversal of the members goes in the order of the registration hashes. The
  source's order is that of a hash trie; where an order could matter, the results
  are stated for any order.
-/

namespace KmushiCoin

/-! ### Members -/

/-- The part of a masternode that changes after its registration. -/
structure DeterministicMNState where
  nRegisteredHeight : Int32 := -1
  nLastPaidHeight : Int32 := 0
  nPoSePenalty : Int32 := 0
  nPoSeRevivedHeight : Int32 := -1
  nPoSeBanHeight : Int32 := -1
  nRevocationReason : UInt16 := 0
  /-- The block hash some blocks after the registration. -/
  confirmedHash : Uint256 := 0
  confirmedHashWithProRegTxHash : Uint256 := 0
  keyIDOwner : KeyID := 0
  keyIDOperator : KeyID := 0
  keyIDVoting : KeyID := 0
  addr : Service := Service.null
  scriptPayout : Script := []
  scriptOperatorPayout : Script := []
  deriving Repr, DecidableEq

namespace DeterministicMNState

/-- Forget everything that belongs to the operator. -/
def resetOperatorFields (s : DeterministicMNState) : DeterministicMNState :=
  { s with
    keyIDOperator := 0, addr := Service.null, scriptOperatorPayout := [], nRevocationReason := 0 }

def banIfNotBanned (s : DeterministicMNState) (height : Int32) : DeterministicMNState :=
  if s.nPoSeBanHeight = -1 then { s with nPoSeBanHeight := height } else s

@[simp] theorem banIfNotBanned_fields (s : DeterministicMNState) (height : Int32) :
    (s.banIfNotBanned height).keyIDOwner = s.keyIDOwner ∧
      (s.banIfNotBanned height).keyIDOperator = s.keyIDOperator ∧
      (s.banIfNotBanned height).addr = s.addr ∧
      (s.banIfNotBanned height).scriptPayout = s.scriptPayout ∧
      (s.banIfNotBanned height).scriptOperatorPayout = s.scriptOperatorPayout := by
  unfold banIfNotBanned; split <;> simp

/-- Record the confirming block hash; `sha256` hashes its two arguments in sequence. -/
def updateConfirmedHash (sha256 : Uint256 → Uint256 → Uint256) (s : DeterministicMNState)
    (proTxHash confirmedHash : Uint256) : DeterministicMNState :=
  { s with
    confirmedHash := confirmedHash
    confirmedHashWithProRegTxHash := sha256 proTxHash confirmedHash }

end DeterministicMNState

/-- A registered masternode. -/
structure DeterministicMN where
  proTxHash : Uint256
  internalId : UInt64
  collateralOutpoint : OutPoint
  nOperatorReward : UInt16
  pdmnState : DeterministicMNState
  deriving Repr, DecidableEq

/-- The internal id of a masternode that was not given one. -/
def noInternalId : UInt64 := 0xffffffffffffffff

/-! ### Unique properties -/

/-- A value that at most one masternode may use. -/
inductive UniqueProperty
  | outpoint (o : OutPoint)
  | service (s : Service)
  /-- Owner and operator keys share one name space. -/
  | keyID (k : KeyID)
  deriving Repr, DecidableEq

/-- The default value of the property's type. -/
def UniqueProperty.isNull : UniqueProperty → Bool
  | outpoint o => o == OutPoint.null
  | service s => s == Service.null
  | keyID k => k == 0

/-- The unique-property map: the owner of a value and its number of uses. -/
abbrev MnUniquePropertyMap : Type := RefIndex.Index Nat Uint256

section
variable (serializeHash : UniqueProperty → Nat)

variable (m : MnUniquePropertyMap)

def addUniqueProperty (dmn : DeterministicMN) (v : UniqueProperty) :
    Outcome MnUniquePropertyMap := do
  assert (!v.isNull) "v != nullValue"
  match m[serializeHash v]? with
  | none => .ok (m.insert (serializeHash v) (dmn.proTxHash, 1))
  | some oldEntry =>
    assert (oldEntry.1 == dmn.proTxHash) "!oldEntry || oldEntry->first == dmn->proTxHash"
    .ok (m.insert (serializeHash v) (dmn.proTxHash, oldEntry.2 + 1))

def deleteUniqueProperty (dmn : DeterministicMN) (oldValue : UniqueProperty) :
    Outcome MnUniquePropertyMap := do
  assert (!oldValue.isNull) "oldValue != nullValue"
  match m[serializeHash oldValue]? with
  | none => .error (.abort "p && p->first == dmn->proTxHash")
  | some p =>
    assert (p.1 == dmn.proTxHash) "p && p->first == dmn->proTxHash"
    if p.2 = 1 then .ok (m.erase (serializeHash oldValue))
    else .ok (m.insert (serializeHash oldValue) (dmn.proTxHash, p.2 - 1))

/-- `if (v != nullValue) AddUniqueProperty(dmn, v)`. -/
def addUnlessNull (dmn : DeterministicMN) (v : UniqueProperty) : Outcome MnUniquePropertyMap :=
  if v.isNull then .ok m else addUniqueProperty serializeHash m dmn v

/-- `if (v != nullValue) DeleteUniqueProperty(dmn, v)`. -/
def deleteUnlessNull (dmn : DeterministicMN) (v : UniqueProperty) : Outcome MnUniquePropertyMap :=
  if v.isNull then .ok m else deleteUniqueProperty serializeHash m dmn v

def updateUniqueProperty (dmn : DeterministicMN)
    (oldValue newValue : UniqueProperty) : Outcome MnUniquePropertyMap :=
  if oldValue = newValue then .ok m
  else do
    let m ← deleteUnlessNull serializeHash m dmn oldValue
    addUnlessNull serializeHash m dmn newValue

end

/-! ### The list -/

structure DeterministicMNList where
  blockHash : Uint256 := 0
  nHeight : Int32 := -1
  nTotalRegisteredCount : UInt32 := 0
  mnMap : FMap Uint256 DeterministicMN := ∅
  mnInternalIdMap : FMap UInt64 Uint256 := ∅
  mnUniquePropertyMap : MnUniquePropertyMap := ∅
  deriving DecidableEq

namespace DeterministicMNList

variable (l : DeterministicMNList)

/-- The members, in the order of a traversal. -/
def members : List DeterministicMN := l.mnMap.toList.map Prod.snd

def isMNPoSeBanned (dmn : DeterministicMN) : Bool := dmn.pdmnState.nPoSeBanHeight != -1

def isMNValid (dmn : DeterministicMN) : Bool := !isMNPoSeBanned dmn

def getMN (proTxHash : Uint256) : Option DeterministicMN :=
  l.mnMap[proTxHash]?

def hasMN (proTxHash : Uint256) : Bool := (l.getMN proTxHash).isSome

def getMNByInternalId (internalId : UInt64) : Option DeterministicMN :=
  match l.mnInternalIdMap[internalId]? with
  | none => none
  | some proTxHash => l.getMN proTxHash

def setBlockHash (blockHash : Uint256) : DeterministicMNList :=
  { l with blockHash := blockHash }

def setHeight (height : Int32) : DeterministicMNList :=
  { l with nHeight := height }

section
variable (serializeHash : UniqueProperty → Nat)

variable (l : DeterministicMNList)

def hasUniqueProperty (v : UniqueProperty) : Bool :=
  (l.mnUniquePropertyMap[serializeHash v]?).isSome

def getUniquePropertyMN (v : UniqueProperty) : Option DeterministicMN :=
  match l.mnUniquePropertyMap[serializeHash v]? with
  | none => none
  | some p => l.getMN p.1

def getMNByCollateral (collateralOutpoint : OutPoint) : Option DeterministicMN :=
  l.getUniquePropertyMN serializeHash (.outpoint collateralOutpoint)

def getMNByService (service : Service) : Option DeterministicMN :=
  l.getUniquePropertyMN serializeHash (.service service)

/-- `HasUniqueProperty(v) && GetUniquePropertyMN(v)->proTxHash != proTxHash`, with the
null pointer that the second call returns when the entry's owner is not a member. -/
def heldByOther (v : UniqueProperty) (proTxHash : Uint256) : Outcome Bool :=
  if l.hasUniqueProperty serializeHash v then
    match l.getUniquePropertyMN serializeHash v with
    | none => .error (.abort "null pointer: GetUniquePropertyMN(v)->proTxHash")
    | some dmn => .ok (dmn.proTxHash != proTxHash)
  else .ok false

def addMN (dmn : DeterministicMN) (fBumpTotalCount : Bool := true) :
    Outcome DeterministicMNList := do
  throwIf (l.mnMap[dmn.proTxHash]?).isSome
    "%s: can't add a duplicate masternode with the same proTxHash=%s"
  assert (dmn.internalId != noInternalId) "internalId != std::numeric_limits<uint64_t>::max()"
  throwIf (l.mnInternalIdMap[dmn.internalId]?).isSome
    "%s: can't add a duplicate masternode with the same internalId=%d"
  throwIf (l.hasUniqueProperty serializeHash (.service dmn.pdmnState.addr))
    "%s: can't add a masternode with a duplicate address %s"
  throwIf (l.hasUniqueProperty serializeHash (.keyID dmn.pdmnState.keyIDOwner) ||
      l.hasUniqueProperty serializeHash (.keyID dmn.pdmnState.keyIDOperator))
    "%s: can't add a masternode with a duplicate key (%s or %s)"
  let m := l.mnUniquePropertyMap
  let m ← addUniqueProperty serializeHash m dmn (.outpoint dmn.collateralOutpoint)
  let m ← addUnlessNull serializeHash m dmn (.service dmn.pdmnState.addr)
  let m ← addUniqueProperty serializeHash m dmn (.keyID dmn.pdmnState.keyIDOwner)
  -- the operator key is added without the null test the address has
  let m ← addUniqueProperty serializeHash m dmn (.keyID dmn.pdmnState.keyIDOperator)
  let total :=
    if fBumpTotalCount then
      -- the 64-bit maximum is stored in the 32-bit counter
      (max (dmn.internalId + 1) l.nTotalRegisteredCount.toUInt64).toUInt32
    else l.nTotalRegisteredCount
  .ok { l with
    nTotalRegisteredCount := total
    mnMap := l.mnMap.insert dmn.proTxHash dmn
    mnInternalIdMap := l.mnInternalIdMap.insert dmn.internalId dmn.proTxHash
    mnUniquePropertyMap := m }

/-- `UpdateMN(oldDmn, pdmnState)`. -/
def updateMN (oldDmn : DeterministicMN)
    (pdmnState : DeterministicMNState) : Outcome DeterministicMNList := do
  -- the test is on the address that is replaced, not on the new one
  let dup ← l.heldByOther serializeHash (.service oldDmn.pdmnState.addr) oldDmn.proTxHash
  throwIf dup "%s: can't update a masternode with a duplicate address %s"
  let dmn := { oldDmn with pdmnState := pdmnState }
  let oldState := oldDmn.pdmnState
  let m := l.mnUniquePropertyMap
  let m ← updateUniqueProperty serializeHash m dmn (.service oldState.addr)
    (.service pdmnState.addr)
  let m ← updateUniqueProperty serializeHash m dmn (.keyID oldState.keyIDOwner)
    (.keyID pdmnState.keyIDOwner)
  let m ← updateUniqueProperty serializeHash m dmn (.keyID oldState.keyIDOperator)
    (.keyID pdmnState.keyIDOperator)
  .ok { l with
    mnMap := l.mnMap.insert oldDmn.proTxHash dmn
    mnUniquePropertyMap := m }

/-- `UpdateMN(proTxHash, pdmnState)`. -/
def updateMNByHash (proTxHash : Uint256)
    (pdmnState : DeterministicMNState) : Outcome DeterministicMNList :=
  match l.mnMap[proTxHash]? with
  | none => .error (.throw "%s: Can't find a masternode with proTxHash=%s")
  | some oldDmn => l.updateMN serializeHash oldDmn pdmnState

def removeMN (proTxHash : Uint256) : Outcome DeterministicMNList := do
  match l.getMN proTxHash with
  | none => .error (.throw "%s: Can't find a masternode with proTxHash=%s")
  | some dmn =>
    let m := l.mnUniquePropertyMap
    let m ← deleteUniqueProperty serializeHash m dmn (.outpoint dmn.collateralOutpoint)
    let m ← deleteUnlessNull serializeHash m dmn (.service dmn.pdmnState.addr)
    let m ← deleteUniqueProperty serializeHash m dmn (.keyID dmn.pdmnState.keyIDOwner)
    -- the operator key is deleted without the null test the address has
    let m ← deleteUniqueProperty serializeHash m dmn (.keyID dmn.pdmnState.keyIDOperator)
    assert (dmn.internalId != noInternalId) "internalId != std::numeric_limits<uint64_t>::max()"
    .ok { l with
      mnMap := l.mnMap.erase proTxHash
      mnInternalIdMap := l.mnInternalIdMap.erase dmn.internalId
      mnUniquePropertyMap := m }

/-- Take one point off the penalty of a masternode that is not banned. -/
def poSeDecrease (proTxHash : Uint256) : Outcome DeterministicMNList := do
  match l.getMN proTxHash with
  | none => .error (.throw "%s: Can't find a masternode with proTxHash=%s")
  | some dmn =>
    assert (decide (0 < dmn.pdmnState.nPoSePenalty) && dmn.pdmnState.nPoSeBanHeight == -1)
      "dmn->pdmnState->nPoSePenalty > 0 && dmn->pdmnState->nPoSeBanHeight == -1"
    l.updateMNByHash serializeHash proTxHash
      { dmn.pdmnState with nPoSePenalty := dmn.pdmnState.nPoSePenalty - 1 }

end

/-! ### The next payee -/

/-- The height since which a masternode waits for its payment. -/
def compareByLastPaidGetHeight (dmn : DeterministicMN) : Int32 :=
  let s := dmn.pdmnState
  if s.nPoSeRevivedHeight ≠ -1 ∧ s.nLastPaidHeight < s.nPoSeRevivedHeight then s.nPoSeRevivedHeight
  else if s.nLastPaidHeight = 0 then s.nRegisteredHeight
  else s.nLastPaidHeight

def compareByLastPaid (a b : DeterministicMN) : Bool :=
  let ah := compareByLastPaidGetHeight a
  let bh := compareByLastPaidGetHeight b
  if ah = bh then decide (a.proTxHash < b.proTxHash) else decide (ah < bh)

/-- The valid member that waits longest. -/
def getMNPayee : Option DeterministicMN :=
  (l.members.filter isMNValid).foldl
    (fun best dmn =>
      match best with
      | none => some dmn
      | some b => if compareByLastPaid dmn b then some dmn else some b)
    none

/-- The payee is one of the valid members. -/
theorem getMNPayee_mem {l : DeterministicMNList} {dmn : DeterministicMN}
    (h : l.getMNPayee = some dmn) : dmn ∈ l.members.filter isMNValid := by
  -- the best member so far, if there is one, is one of them
  refine List.foldlRecOn (motive := fun best => ∀ d, best = some d → d ∈ l.members.filter isMNValid)
    _ _ (by simp) ?_ dmn h
  intro best hbest m hm d hd
  cases best with
  | none => exact Option.some.inj hd ▸ hm
  | some b =>
    dsimp only at hd
    split_ifs at hd
    · exact Option.some.inj hd ▸ hm
    · exact hbest d hd

end DeterministicMNList

end KmushiCoin
