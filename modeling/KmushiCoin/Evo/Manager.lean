import KmushiCoin.Evo.BuildList
import KmushiCoin.Evo.Diff
import KmushiCoin.Lib.Prog

/-!
# KmushiCoin.Evo.Manager

The **masternode manager**: it stores the difference of every block and a snapshot of the
list now and then, and answers for any block what the list is after it.

* A `BlockIndex` is a block with its ancestors. The lists and differences are stored by
  block hash, in three places: the two caches and the database.
* The database (`EvoDB`) is two layers of **transactions** over the disk. A transaction
  holds values, the disk holds bytes: only what was committed to the disk is decoded.
* The calls are programs over the state of the manager (`Action`): an exception keeps the
  changes made before it. `ProcessBlock` turns exceptions into a reject, `UndoBlock` and
  `GetListForBlock` do not.

The notifications to the wallet and the interface are left out; they change nothing here.
-/

namespace KmushiCoin

open Codec DeterministicMNList

/-! ### Block indexes -/

/-- A block of the block tree, with the blocks before it. -/
inductive BlockIndex
  | genesis (blockHash : Uint256)
  | child (pprev : BlockIndex) (blockHash : Uint256) (vtx : List Transaction)
  deriving DecidableEq

namespace BlockIndex

def blockHash : BlockIndex → Uint256
  | genesis h => h
  | child _ h _ => h

def nHeight : BlockIndex → Int32
  | genesis _ => 0
  | child pprev _ _ => pprev.nHeight + 1

end BlockIndex

/-- The environment of a chain: the activation of the masternode lists and the coins. -/
structure ChainEnv extends Env where
  nActivationHeight : Int32
  activation_pos : 0 < nActivationHeight
  enforced_iff : ∀ h, isDIP3Enforced h = decide (nActivationHeight ≤ h)
  /-- The coins after a block. -/
  coinsAfter : BlockIndex → OutPoint → Option TxOut
  /-- The order in which the members of a list are stored. -/
  traversal : DeterministicMNList → List DeterministicMN
  traversal_perm : ∀ l, (traversal l).Perm l.members

def ChainEnv.isActivationHeight (env : ChainEnv) (nHeight : Int32) : Bool :=
  decide (0 ≤ nHeight) && nHeight == env.nActivationHeight

/-! ### The database -/

/-- The writes of a transaction. -/
structure EvoTx where
  snapshots : FMap Uint256 DeterministicMNList := ∅
  diffs : FMap Uint256 DeterministicMNListDiff := ∅

/-- The records on disk. -/
structure EvoDisk where
  snapshots : FMap Uint256 Bytes := ∅
  diffs : FMap Uint256 Bytes := ∅

/-- The current transaction over the root transaction over the disk. -/
structure EvoDB where
  cur : EvoTx := {}
  root : EvoTx := {}
  disk : EvoDisk := {}

namespace EvoDB

/-- A record that cannot be decoded counts as missing, but a failed assertion is not caught. -/
def decoded {α : Type} (r : Outcome (α × Bytes)) : Outcome (Option α) :=
  match r with
  | .ok (a, _) => .ok (some a)
  | .error (.throw _) => .ok none
  | .error f => .error f

def readSnapshot (serializeHash : UniqueProperty → Nat) (db : EvoDB) (blockHash : Uint256) :
    Outcome (Option DeterministicMNList) :=
  match (db.cur.snapshots[blockHash]?).or db.root.snapshots[blockHash]? with
  | some l => .ok (some l)
  | none =>
    match db.disk.snapshots[blockHash]? with
    | none => .ok none
    | some bytes => decoded (unserialize serializeHash bytes)

def readDiff (db : EvoDB) (blockHash : Uint256) : Option DeterministicMNListDiff :=
  match (db.cur.diffs[blockHash]?).or db.root.diffs[blockHash]? with
  | some diff => some diff
  | none =>
    match db.disk.diffs[blockHash]? with
    | none => none
    | some bytes =>
      match DeterministicMNListDiff.unserialize.run bytes with
      | .ok (diff, _) => some diff
      | .error _ => none

def writeSnapshot (db : EvoDB) (blockHash : Uint256) (l : DeterministicMNList) : EvoDB :=
  { db with cur := { db.cur with snapshots := db.cur.snapshots.insert blockHash l } }

def writeDiff (db : EvoDB) (blockHash : Uint256) (diff : DeterministicMNListDiff) : EvoDB :=
  { db with cur := { db.cur with diffs := db.cur.diffs.insert blockHash diff } }

def commitCurTransaction (db : EvoDB) : EvoDB :=
  { db with
    cur := {}
    root := { snapshots := db.root.snapshots ∪ db.cur.snapshots,
              diffs := db.root.diffs ∪ db.cur.diffs } }

def rollbackCurTransaction (db : EvoDB) : EvoDB := { db with cur := {} }

/-- Write the root transaction to the disk; the current one has to be clean. -/
def commitRootTransaction (traversal : DeterministicMNList → List DeterministicMN) (db : EvoDB) :
    EvoDB :=
  { db with
    root := {}
    disk := {
      snapshots := db.disk.snapshots ∪
        Std.ExtTreeMap.map (fun _ l => l.serializeAs (traversal l)) db.root.snapshots
      diffs := db.disk.diffs ∪
        Std.ExtTreeMap.map (fun _ diff => DeterministicMNListDiff.serialize diff) db.root.diffs } }

end EvoDB

/-! ### The manager -/

structure Manager where
  evoDb : EvoDB := {}
  mnListsCache : FMap Uint256 DeterministicMNList := ∅
  mnListDiffsCache : FMap Uint256 DeterministicMNListDiff := ∅
  tipIndex : Option BlockIndex := none

/-- A call of the manager. -/
abbrev Action (α : Type) : Type := Prog Manager Failure α

namespace Manager

def diskSnapshotPeriod : Int32 := 1440

def listDiffsCacheSize : Int32 := 1440 * 3

/-- `mnListsCache.emplace`. -/
def cacheList (m : Manager) (blockHash : Uint256) (l : DeterministicMNList) : Manager :=
  { m with mnListsCache := m.mnListsCache.insertIfNew blockHash l }

/-- `mnListDiffsCache.emplace`. -/
def cacheDiff (m : Manager) (blockHash : Uint256) (diff : DeterministicMNListDiff) : Manager :=
  { m with mnListDiffsCache := m.mnListDiffsCache.insertIfNew blockHash diff }

variable (env : ChainEnv)

variable (pindex : BlockIndex)

/-- The list of a block, if it is cached or stored as a snapshot. -/
def findList : Action (Option DeterministicMNList) := do
  let m ← get
  match m.mnListsCache[pindex.blockHash]? with
  | some l => pure (some l)
  | none =>
    let found ← Prog.ofExcept (m.evoDb.readSnapshot env.serializeHash pindex.blockHash)
    match found with
    | none => pure none
    | some l =>
      modify (cacheList · pindex.blockHash l)
      pure (some l)

/-- Whether the difference of a block is stored; it is cached then. -/
def findDiff : Action Bool := do
  let m ← get
  match m.mnListDiffsCache[pindex.blockHash]? with
  | some _ => pure true
  | none =>
    match m.evoDb.readDiff pindex.blockHash with
    | none => pure false
    | some diff =>
      modify (cacheDiff · pindex.blockHash { diff with nHeight := pindex.nHeight })
      pure true

/-- The empty list, for the block before the first one with a list. -/
def initialSnapshot : Action DeterministicMNList :=
  if env.isActivationHeight (pindex.nHeight + 1) then do
    let snapshot : DeterministicMNList := ⟨pindex.blockHash, -1, 0, ∅, ∅, ∅⟩
    modify (cacheList · pindex.blockHash snapshot)
    pure snapshot
  else
    throw (.throw
      "No masternode list data found for block %s at height %d. Possible corrupt database.")

/-- One round of the search: the list of the block, or `none` to go on with its parent. -/
def visit : Action (Option DeterministicMNList) := do
  let found ← findList env pindex
  match found with
  | some l => pure (some l)
  | none =>
    let stored ← findDiff pindex
    if stored then pure none else some <$> initialSnapshot env pindex

/-- Search back to a block with a list; the blocks passed are collected in order. -/
def search : BlockIndex → List BlockIndex → Action (DeterministicMNList × List BlockIndex)
  | .genesis h, listDiffIndexes => do
    let found ← visit env (.genesis h)
    match found with
    | some l => pure (l, listDiffIndexes)
    | none => throw (.abort "null pointer: pindex->GetBlockHash()")
  | .child pprev h vtx, listDiffIndexes => do
    let found ← visit env (.child pprev h vtx)
    match found with
    | some l => pure (l, listDiffIndexes)
    | none => search pprev (.child pprev h vtx :: listDiffIndexes)

/-- Apply the cached difference of a block. -/
def replay (snapshot : DeterministicMNList) (diffIndex : BlockIndex) :
    Action DeterministicMNList := do
  let m ← get
  match m.mnListDiffsCache[diffIndex.blockHash]? with
  | none => throw (.throw "unordered_map::at")
  | some diff =>
    if diff.hasChanges then
      Prog.ofExcept (snapshot.applyDiff env.serializeHash diffIndex.blockHash diffIndex.nHeight diff)
    else pure ((snapshot.setBlockHash diffIndex.blockHash).setHeight diffIndex.nHeight)

/-- Cache the list if it is the one of the tip. -/
def keepTip (snapshot : DeterministicMNList) (m : Manager) : Manager :=
  match m.tipIndex with
  | none => m
  | some tip =>
    if snapshot.blockHash = tip.blockHash then m.cacheList snapshot.blockHash snapshot else m

def getListForBlock : Action DeterministicMNList :=
  if !env.isDIP3Enforced pindex.nHeight then pure {}
  else do
    let (snapshot, listDiffIndexes) ← search env pindex []
    let snapshot ← listDiffIndexes.foldlM (replay env) snapshot
    modify (keepTip snapshot)
    pure snapshot

/-- What `BuildNewListFromBlock` reads of the previous block. -/
def prevIndex (env : ChainEnv) (pprev : BlockIndex) (l : DeterministicMNList) : PrevIndex where
  nHeight := pprev.nHeight
  blockHash := pprev.blockHash
  mnList := l
  getUTXOCoin := env.coinsAfter pprev

/-- Write and cache the difference of a block, and its list if it is to be a snapshot. -/
def storeList (nHeight : Int32) (blockHash : Uint256) (oldList newList : DeterministicMNList)
    (m : Manager) : Manager :=
  let diff := oldList.buildDiff newList
  let m := { m with evoDb := m.evoDb.writeDiff blockHash diff }
  let m :=
    if nHeight % diskSnapshotPeriod == 0 || oldList.nHeight == -1 then
      { m with evoDb := m.evoDb.writeSnapshot blockHash newList }.cacheList blockHash newList
    else m
  m.cacheDiff blockHash { diff with nHeight := nHeight }

/-- The new list gets the hash of the block, and its height if it has none. -/
def finishList (nHeight : Int32) (blockHash : Uint256) (newList : DeterministicMNList) :
    DeterministicMNList :=
  (if newList.nHeight = -1 then newList.setHeight nHeight else newList).setBlockHash blockHash

/-- The guarded part of `ProcessBlock`. -/
def connectList (fJustCheck : Bool) : BlockIndex → Action Unit
  | .genesis _ => throw (.abort "null pointer: pindexPrev->nHeight")
  | .child pprev h vtx => do
    let prevList ← getListForBlock env pprev
    let newList ← Prog.ofExcept
      (buildNewListFromBlock env.toEnv vtx (prevIndex env pprev prevList))
    Prog.onlyWhen (!fJustCheck) do
      let oldList ← getListForBlock env pprev
      modify (storeList (pprev.nHeight + 1) h oldList (finishList (pprev.nHeight + 1) h newList))

/-- Drop what is too far below the height from the caches. -/
def cleanupCache (nHeight : Int32) (m : Manager) : Manager :=
  { m with
    mnListsCache := m.mnListsCache.filter fun _ l =>
      !decide (l.nHeight + listDiffsCacheSize < nHeight)
    mnListDiffsCache := m.mnListDiffsCache.filter fun _ diff =>
      !decide (diff.nHeight + listDiffsCacheSize < nHeight) }

/-- An exception rejects the block; a failed assertion is none. -/
def catchExceptions : Failure → Failure
  | .throw _ => .reject "failed-dmn-block"
  | f => f

def processBlock (fJustCheck : Bool) : Action Unit :=
  if !env.isDIP3Enforced pindex.nHeight then pure ()
  else do
    Prog.mapError catchExceptions (connectList env fJustCheck pindex)
    Prog.onlyWhen (!fJustCheck) (modify (cleanupCache pindex.nHeight))

/-- The lists before and after a block are read for the notifications. -/
def readLists : Action Unit :=
  match pindex with
  | .genesis _ => throw (.abort "null pointer: pindex->nHeight")
  | .child pprev _ _ => do
    let _ ← getListForBlock env pindex
    let _ ← getListForBlock env pprev
    pure ()

def undoBlock : Action Unit :=
  if !env.isDIP3Enforced pindex.nHeight then pure ()
  else do
    let m ← get
    let diff := (m.evoDb.readDiff pindex.blockHash).getD {}
    Prog.onlyWhen diff.hasChanges (readLists env pindex)
    modify fun m => { m with
      mnListsCache := m.mnListsCache.erase pindex.blockHash
      mnListDiffsCache := m.mnListDiffsCache.erase pindex.blockHash }

def updatedBlockTip (pindex : Option BlockIndex) (m : Manager) : Manager :=
  { m with tipIndex := pindex }

end Manager

end KmushiCoin
