import KmushiCoin.Evo.ProviderTx
import KmushiCoin.Lib.ClaimIndex
import KmushiCoin.Lib.Worklist

/-!
# KmushiCoin.Mempool.Pool

The **transaction pool** (`CTxMemPool`): the entries with their package totals,
the links between them, and the side indexes.

* An iterator into `mapTx` is the hash of its transaction. Sets of iterators are
  ordered by hash, and the loops run in that order.
* An entry keeps the totals of its ancestors and of its descendants, itself
  included (`Totals`). Counts, sizes and fees are integers; no run of a node
  brings them near the bounds of a machine word.
* The **side indexes** (`SideIndexes`) are only written when a transaction enters
  (`SideIndexes.add`) or leaves (`SideIndexes.remove`) the pool.
* The removals are those of the source, down to the order of their steps: which
  transactions go is computed from the links (`calculateDescendants`), the totals
  of the rest are corrected (`updateForRemoveFromMempool`), and then the entries
  are erased (`removeUnchecked`).
* Fee deltas (`PrioritiseTransaction`), memory usage and the fee estimator are
  left out. The order in which `TrimToSize` picks its victims depends on them; the
  victims are an argument.
-/

namespace KmushiCoin

open Codec (Bytes)

/-- The order of services: by address and then by port. -/
instance : Ord Service := ⟨compareLex (compareOn Service.ip) (compareOn Service.port)⟩

instance : Std.TransOrd Service :=
  inferInstanceAs (Std.TransCmp (compareLex (compareOn Service.ip) (compareOn Service.port)))

instance : Std.LawfulEqOrd Service where
  eq_of_compare {a b} h := by
    obtain ⟨ia, pa⟩ := a
    obtain ⟨ib, pb⟩ := b
    have hlex : (compare ia ib).then (compare pa pb) = .eq := h
    rw [Ordering.then_eq_eq] at hlex
    rw [Std.LawfulEqOrd.eq_of_compare hlex.1, Std.LawfulEqOrd.eq_of_compare hlex.2]

def Transaction.isSpecialTx (tx : Transaction) : Bool :=
  tx.isSaplingVersion && tx.nType != .normal && tx.hasExtraPayload

/-! ### Entries -/

/-- What is added up over a package. -/
inductive Stat
  | count
  | size
  | fees
  | sigOps
  deriving DecidableEq, Repr

abbrev Totals : Type := Stat → Int

/-- What is known of a transaction when it is accepted. -/
structure TxInfo where
  tx : Transaction
  nFee : Int
  nTxSize : Int
  nTime : Int
  spendsCoinbaseOrCoinstake : Bool
  sigOpCount : Int

namespace TxInfo

/-- What a transaction adds to the totals of its descendants. -/
def toAncestors (i : TxInfo) : Totals
  | .count => 1
  | .size => i.nTxSize
  | .fees => i.nFee
  | .sigOps => i.sigOpCount

/-- What a transaction adds to the totals of its ancestors: its operations are not counted. -/
def toDescendants (i : TxInfo) : Totals
  | .count => 1
  | .size => i.nTxSize
  | .fees => i.nFee
  | .sigOps => 0

end TxInfo

/-- `CTxMemPoolEntry`: both totals include the entry. -/
structure MemPoolEntry extends TxInfo where
  withDescendants : Totals
  withAncestors : Totals

namespace MemPoolEntry

/-- The constructor: a package of one. -/
def new (i : TxInfo) : MemPoolEntry :=
  { i with withDescendants := i.toDescendants, withAncestors := i.toAncestors }

def updateDescendantState (modify : Totals) (e : MemPoolEntry) : MemPoolEntry :=
  { e with withDescendants := e.withDescendants + modify }

def updateAncestorState (modify : Totals) (e : MemPoolEntry) : MemPoolEntry :=
  { e with withAncestors := e.withAncestors + modify }

end MemPoolEntry

open MemPoolEntry

/-- The hashes that the inputs of a transaction refer to. -/
def Transaction.inputHashes (tx : Transaction) : List Uint256 := tx.vin.map (·.prevout.hash)

/-- `TxLinks`. -/
structure TxLinks where
  parents : Finset Uint256 := ∅
  children : Finset Uint256 := ∅

/-! ### The side indexes -/

structure SideIndexes where
  /-- Which transaction spends an output. -/
  mapNextTx : FMap OutPoint Transaction := ∅
  mapSaplingNullifiers : FMap Uint256 Transaction := ∅
  /-- A multimap, in the order of insertion. -/
  mapProTxRefs : List (Uint256 × Uint256) := []
  mapProTxAddresses : FMap Service Uint256 := ∅
  mapProTxPubKeyIDs : FMap KeyID Uint256 := ∅
  mapProTxCollaterals : FMap OutPoint Uint256 := ∅
  totalTxSize : Int := 0

namespace SideIndexes

variable (idx : SideIndexes)

/-- `addUncheckedSpecialTx`. A payload that cannot be read ends the process. -/
def addUncheckedSpecialTx (tx : Transaction) : SideIndexes :=
  if tx.isSpecialTx then
    match tx.nType with
    | .proReg =>
      match getTxPayload getProRegPL tx with
      | none => idx
      | some pl =>
        let idx := if pl.collateralOutpoint.hash ≠ 0 then
            { idx with
              mapProTxRefs := idx.mapProTxRefs ++ [(tx.hash, pl.collateralOutpoint.hash)]
              mapProTxCollaterals :=
                idx.mapProTxCollaterals.insertIfNew pl.collateralOutpoint tx.hash }
          else idx
        { idx with
          mapProTxAddresses := idx.mapProTxAddresses.insertIfNew pl.addr tx.hash
          mapProTxPubKeyIDs := (idx.mapProTxPubKeyIDs.insertIfNew pl.keyIDOwner tx.hash).insertIfNew
            pl.keyIDOperator tx.hash }
    | .proUpServ =>
      match getTxPayload getProUpServPL tx with
      | none => idx
      | some pl =>
        { idx with
          mapProTxRefs := idx.mapProTxRefs ++ [(pl.proTxHash, tx.hash)]
          mapProTxAddresses := idx.mapProTxAddresses.insertIfNew pl.addr tx.hash }
    | .proUpReg =>
      match getTxPayload getProUpRegPL tx with
      | none => idx
      | some pl =>
        { idx with
          mapProTxRefs := idx.mapProTxRefs ++ [(pl.proTxHash, tx.hash)]
          mapProTxPubKeyIDs := idx.mapProTxPubKeyIDs.insertIfNew pl.keyIDOperator tx.hash }
    | .proUpRev =>
      match getTxPayload getProUpRevPL tx with
      | none => idx
      | some pl => { idx with mapProTxRefs := idx.mapProTxRefs ++ [(pl.proTxHash, tx.hash)] }
    | _ => idx
  else idx

/-- The indexes that `addUnchecked` writes. -/
def add (i : TxInfo) : SideIndexes :=
  let tx := i.tx
  addUncheckedSpecialTx
    { idx with
      mapNextTx :=
        if tx.hasZerocoinSpendInputs then idx.mapNextTx
        else tx.vin.foldl (fun m txin => m.insertIfNew txin.prevout tx) idx.mapNextTx
      mapSaplingNullifiers :=
        tx.shieldedSpends.foldl (fun m sd => m.insert sd.nullifier tx) idx.mapSaplingNullifiers
      totalTxSize := idx.totalTxSize + i.nTxSize } tx

/-- `eraseProTxRef`. -/
def eraseProTxRef (refs : List (Uint256 × Uint256)) (proTxHash txHash : Uint256) :
    List (Uint256 × Uint256) :=
  refs.filter (· ≠ (proTxHash, txHash))

/-- `removeUncheckedSpecialTx`. -/
def removeUncheckedSpecialTx (tx : Transaction) : SideIndexes :=
  if tx.isSpecialTx then
    match tx.nType with
    | .proReg =>
      match getTxPayload getProRegPL tx with
      | none => idx
      | some pl =>
        { idx with
          mapProTxRefs :=
            if pl.collateralOutpoint ≠ OutPoint.null then
              eraseProTxRef idx.mapProTxRefs tx.hash pl.collateralOutpoint.hash
            else idx.mapProTxRefs
          mapProTxCollaterals := idx.mapProTxCollaterals.erase pl.collateralOutpoint
          mapProTxAddresses := idx.mapProTxAddresses.erase pl.addr
          mapProTxPubKeyIDs := (idx.mapProTxPubKeyIDs.erase pl.keyIDOwner).erase pl.keyIDOperator }
    | .proUpServ =>
      match getTxPayload getProUpServPL tx with
      | none => idx
      | some pl =>
        { idx with
          mapProTxRefs := eraseProTxRef idx.mapProTxRefs pl.proTxHash tx.hash
          mapProTxAddresses := idx.mapProTxAddresses.erase pl.addr }
    | .proUpReg =>
      match getTxPayload getProUpRegPL tx with
      | none => idx
      | some pl =>
        { idx with
          mapProTxRefs := eraseProTxRef idx.mapProTxRefs pl.proTxHash tx.hash
          mapProTxPubKeyIDs := idx.mapProTxPubKeyIDs.erase pl.keyIDOperator }
    | .proUpRev =>
      match getTxPayload getProUpRevPL tx with
      | none => idx
      | some pl =>
        { idx with mapProTxRefs := eraseProTxRef idx.mapProTxRefs pl.proTxHash tx.hash }
    | _ => idx
  else idx

/-- The indexes that `removeUnchecked` writes. -/
def remove (i : TxInfo) : SideIndexes :=
  let tx := i.tx
  let idx := removeUncheckedSpecialTx
    { idx with
      mapNextTx := tx.vin.foldl (fun m txin => m.erase txin.prevout) idx.mapNextTx
      mapSaplingNullifiers :=
        tx.shieldedSpends.foldl (fun m sd => m.erase sd.nullifier) idx.mapSaplingNullifiers } tx
  { idx with totalTxSize := idx.totalTxSize - i.nTxSize }

/-- What `_clear` leaves of the indexes: nullifiers, references and collaterals are not
cleared. -/
def clear : SideIndexes :=
  { idx with mapNextTx := ∅, mapProTxAddresses := ∅, mapProTxPubKeyIDs := ∅, totalTxSize := 0 }

end SideIndexes

/-! ### The pool -/

/-- `CTxMemPool`. -/
structure MemPool where
  mapTx : FMap Uint256 MemPoolEntry := ∅
  mapLinks : FMap Uint256 TxLinks := ∅
  idx : SideIndexes := {}

namespace MemPool

variable (p : MemPool)

/-- The transaction of an entry and what was known of it. -/
def info (x : Uint256) : Option TxInfo := p.mapTx[x]?.map toTxInfo

/-- `GetMemPoolParents`. -/
def parents (p : MemPool) (x : Uint256) : Finset Uint256 :=
  (p.mapLinks[x]?.map TxLinks.parents).getD ∅

/-- `GetMemPoolChildren`. -/
def children (p : MemPool) (x : Uint256) : Finset Uint256 :=
  (p.mapLinks[x]?.map TxLinks.children).getD ∅

/-- Insert into a set or erase from it. -/
def setMember (add : Bool) (x : Uint256) (S : Finset Uint256) : Finset Uint256 :=
  if add then insert x S else S.erase x

/-- `UpdateChild` for each entry of a set. -/
def updateChild (entries : Finset Uint256) (child : Uint256) (add : Bool) : MemPool :=
  { p with
    mapLinks := p.mapLinks.alterAll (entries.sort (· ≤ ·)) fun l =>
      some { l.getD {} with children := setMember add child (l.getD {}).children } }

/-- `UpdateParent` for each entry of a set. -/
def updateParent (entries : Finset Uint256) (parent : Uint256) (add : Bool) : MemPool :=
  { p with
    mapLinks := p.mapLinks.alterAll (entries.sort (· ≤ ·)) fun l =>
      some { l.getD {} with parents := setMember add parent (l.getD {}).parents } }

/-- `mapTx.modify` for each entry of a set. -/
def modifyAll (S : Finset Uint256) (f : MemPoolEntry → MemPoolEntry) : MemPool :=
  { p with mapTx := p.mapTx.alterAll (S.sort (· ≤ ·)) (Option.map f) }

/-- The number of linked entries: no traversal of the links takes more steps. -/
def steps : Nat := p.mapLinks.toList.length

/-- `CalculateDescendants`: adds an entry and its descendants to a set. -/
def calculateDescendants (entry : Uint256) (setDescendants : Finset Uint256) : Finset Uint256 :=
  Worklist.closeFrom p.children (fun _ => none) p.steps
    (if entry ∈ setDescendants then ∅ else {entry}) setDescendants

/-- `CalculateMemPoolAncestors` without limits, from these parents. -/
def calculateMemPoolAncestors (parentHashes : Finset Uint256) : Finset Uint256 :=
  Worklist.closeFrom p.parents (fun _ => none) p.steps parentHashes ∅

/-- The pool transactions that the inputs of a transaction refer to. -/
def searchParents (tx : Transaction) : Finset Uint256 :=
  (tx.inputHashes.filter fun h => (p.mapTx[h]?).isSome).toFinset

/-- What an entry adds to a sum. -/
def share (w : TxInfo → Totals) (x : Uint256) : Totals :=
  ((p.info x).map w).getD 0

/-- The sum over a set of entries. -/
def sumOver (w : TxInfo → Totals) (S : Finset Uint256) : Totals :=
  ∑ x ∈ S, p.share w x

/-! ### Adding -/

/-- `UpdateAncestorsOf`: an entry becomes, or is no longer, a child of its parents and part of
the packages of its ancestors. -/
def updateAncestorsOf (add : Bool) (x : Uint256) (setAncestors : Finset Uint256) : MemPool :=
  let own := p.share TxInfo.toDescendants x
  (p.updateChild (p.parents x) x add).modifyAll setAncestors
    (updateDescendantState (if add then own else -own))

/-- `UpdateEntryForAncestors`. -/
def updateEntryForAncestors (x : Uint256) (setAncestors : Finset Uint256) : MemPool :=
  p.modifyAll {x} (updateAncestorState
    (p.sumOver TxInfo.toAncestors setAncestors))

/-- `addUnchecked`, with the ancestors that `CalculateMemPoolAncestors` finds. -/
def addUnchecked (i : TxInfo) : MemPool :=
  let hash := i.tx.hash
  let setAncestors := p.calculateMemPoolAncestors (p.searchParents i.tx)
  let p :=
    { p with
      mapTx := p.mapTx.insertIfNew hash (.new i), mapLinks := p.mapLinks.insertIfNew hash {} }
  let setParentTransactions := if i.tx.hasZerocoinSpendInputs then ∅ else p.searchParents i.tx
  let p := (setParentTransactions.sort (· ≤ ·)).foldl (fun p q => p.updateParent {hash} q true) p
  let p := p.updateAncestorsOf true hash setAncestors
  let p := p.updateEntryForAncestors hash setAncestors
  { p with idx := p.idx.add i }

/-! ### Removing -/

/-- `UpdateChildrenForRemoval`. -/
def updateChildrenForRemoval (x : Uint256) : MemPool :=
  p.updateParent (p.children x) x false

/-- The descendants of an entry that leaves on its own are told. -/
def updateDescendantsOf (x : Uint256) : MemPool :=
  p.modifyAll ((p.calculateDescendants x ∅).erase x)
    (updateAncestorState (-p.share TxInfo.toAncestors x))

/-- `UpdateForRemoveFromMempool`. -/
def updateForRemoveFromMempool (entriesToRemove : Finset Uint256)
    (updateDescendants : Bool) : MemPool :=
  let l := entriesToRemove.sort (· ≤ ·)
  let p := if updateDescendants then l.foldl updateDescendantsOf p else p
  let p := l.foldl (fun p x =>
    p.updateAncestorsOf false x (p.calculateMemPoolAncestors (p.parents x))) p
  l.foldl updateChildrenForRemoval p

/-- `removeUnchecked`. -/
def removeUnchecked (x : Uint256) : MemPool :=
  match p.mapTx[x]? with
  | none => p
  | some e =>
    { mapTx := p.mapTx.erase x, mapLinks := p.mapLinks.erase x, idx := p.idx.remove e.toTxInfo }

/-- `RemoveStaged`. -/
def removeStaged (stage : Finset Uint256) (updateDescendants : Bool) : MemPool :=
  (stage.sort (· ≤ ·)).foldl removeUnchecked (p.updateForRemoveFromMempool stage updateDescendants)

/-- The entries of a set and all their descendants. -/
def withDescendants (txToRemove : Finset Uint256) : Finset Uint256 :=
  (txToRemove.sort (· ≤ ·)).foldl (fun all x => p.calculateDescendants x all) ∅

/-- Remove the entries of a set with all their descendants. -/
def removeWithDescendants (txToRemove : Finset Uint256) : MemPool :=
  p.removeStaged (p.withDescendants txToRemove) false

/-- The pool transactions that spend outputs of a transaction. -/
def spendersOf (tx : Transaction) : Finset Uint256 :=
  ((List.range tx.vout.length).filterMap fun i =>
    p.idx.mapNextTx[(⟨tx.hash, UInt32.ofNat i⟩ : OutPoint)]?.map Transaction.hash).toFinset

/-- `removeRecursive`: a transaction with its descendants; if it is not in the pool, its
children with theirs. -/
def removeRecursive (origTx : Transaction) : MemPool :=
  p.removeWithDescendants
    (if (p.mapTx[origTx.hash]?).isSome then {origTx.hash} else p.spendersOf origTx)

/-- `removeRecursive` of a transaction of the pool, if it is there. -/
def removeHash (hash : Uint256) : MemPool :=
  match p.mapTx[hash]? with
  | none => p
  | some e => p.removeRecursive e.tx

/-- The entries that meet a condition. -/
def select (f : MemPoolEntry → Bool) : Finset Uint256 :=
  ((p.mapTx.toList.filter fun e => f e.2).map Prod.fst).toFinset

/-- What `removeForReorg` asks of a transaction and of the coins of the tip. -/
structure ReorgView where
  checkFinalTx : Transaction → Bool
  /-- Whether the coin is spent, or a coinbase or coinstake that is not mature. -/
  unusable : OutPoint → Bool

/-- `removeForReorg`. -/
def removeForReorg (view : ReorgView) : MemPool :=
  p.removeWithDescendants (p.select fun e =>
    !view.checkFinalTx e.tx ||
      (e.spendsCoinbaseOrCoinstake && e.tx.vin.any fun txin =>
        (p.mapTx[txin.prevout.hash]?).isNone && view.unusable txin.prevout))

/-- `removeWithAnchor`. -/
def removeWithAnchor (invalidRoot : Uint256) : MemPool :=
  ((p.mapTx.toList.map Prod.snd).filter fun e =>
    e.tx.shieldedSpends.any (·.anchor = invalidRoot)).foldl (fun p e => p.removeRecursive e.tx) p

/-- `Expire`. -/
def expire (time : Int) : MemPool :=
  p.removeWithDescendants (p.select fun e => decide (e.nTime < time))

/-- `TrimToSize`, with the entries it picks one after the other. -/
def trimToSize (victims : List Uint256) : MemPool :=
  victims.foldl (fun p x => if (p.mapTx[x]?).isSome then p.removeWithDescendants {x} else p) p

/-- `removeRecursive` of the transaction that an index has for a value, if it is another one. -/
def removeOther (tx : Transaction) (txConflict : Option Transaction) : MemPool :=
  match txConflict with
  | none => p
  | some other => if other.hash ≠ tx.hash then p.removeRecursive other else p

/-- `removeConflicts`. -/
def removeConflicts (tx : Transaction) : MemPool :=
  let p := tx.vin.foldl (fun p txin => p.removeOther tx p.idx.mapNextTx[txin.prevout]?) p
  tx.shieldedSpends.foldl (fun p sd => p.removeOther tx p.idx.mapSaplingNullifiers[sd.nullifier]?) p

/-- The same where the index has a hash. -/
def removeConflict (tx : Transaction) (conflictHash : Option Uint256) : MemPool :=
  match conflictHash with
  | none => p
  | some h => if h ≠ tx.hash then p.removeHash h else p

/-- One iteration of `removeProTxReferences`, for the reference that was found. -/
def removeProTxReference (ref : Uint256 × Uint256) : MemPool :=
  if (p.mapTx[ref.2]?).isSome then p.removeHash ref.2
  else { p with idx := { p.idx with mapProTxRefs := p.idx.mapProTxRefs.erase ref } }

/-- `removeProTxReferences`. An iteration erases the reference or removes its transaction, after
which the reference is erased at last: two for each reference suffice. -/
def removeProTxReferencesLoop (proTxHash : Uint256) : Nat → MemPool → MemPool
  | 0, p => p
  | fuel + 1, p =>
    match p.idx.mapProTxRefs.find? (·.1 = proTxHash) with
    | none => p
    | some ref => removeProTxReferencesLoop proTxHash fuel (p.removeProTxReference ref)

def removeProTxReferences (proTxHash : Uint256) : MemPool :=
  removeProTxReferencesLoop proTxHash (2 * p.idx.mapProTxRefs.length) p

/-- `removeProTxSpentCollateralConflicts`; `mnByCollateral` is the masternode of the list at the
tip that has an output as its collateral. -/
def removeProTxSpentCollateralConflicts (mnByCollateral : OutPoint → Option Uint256)
    (tx : Transaction) : MemPool :=
  tx.vin.foldl (fun p txin =>
    let p := match p.idx.mapProTxCollaterals[txin.prevout]? with
      | none => p
      | some h => p.removeProTxReferences h
    match mnByCollateral txin.prevout with
    | none => p
    | some proTxHash => p.removeProTxReferences proTxHash) p

/-- `removeProTxConflicts`. -/
def removeProTxConflicts (mnByCollateral : OutPoint → Option Uint256)
    (tx : Transaction) : MemPool :=
  let p := p.removeProTxSpentCollateralConflicts mnByCollateral tx
  if tx.isSpecialTx then
    match tx.nType with
    | .proReg =>
      match getTxPayload getProRegPL tx with
      | none => p
      | some pl =>
        let p := p.removeConflict tx p.idx.mapProTxAddresses[pl.addr]?
        let p := p.removeConflict tx p.idx.mapProTxPubKeyIDs[pl.keyIDOwner]?
        let p := p.removeConflict tx p.idx.mapProTxPubKeyIDs[pl.keyIDOperator]?
        if pl.collateralOutpoint.hash ≠ 0 then
          p.removeConflict tx p.idx.mapProTxCollaterals[pl.collateralOutpoint]?
        else p
    | .proUpServ =>
      match getTxPayload getProUpServPL tx with
      | none => p
      | some pl => p.removeConflict tx p.idx.mapProTxAddresses[pl.addr]?
    | .proUpReg =>
      match getTxPayload getProUpRegPL tx with
      | none => p
      | some pl => p.removeConflict tx p.idx.mapProTxPubKeyIDs[pl.keyIDOperator]?
    | _ => p
  else p

/-- One transaction of `removeForBlock`. -/
def removeMined (mnByCollateral : OutPoint → Option Uint256) (p : MemPool) (tx : Transaction) :
    MemPool :=
  let p := if (p.mapTx[tx.hash]?).isSome then p.removeStaged {tx.hash} true else p
  (p.removeConflicts tx).removeProTxConflicts mnByCollateral tx

/-- `removeForBlock`. -/
def removeForBlock (mnByCollateral : OutPoint → Option Uint256)
    (vtx : List Transaction) : MemPool :=
  vtx.foldl (removeMined mnByCollateral) p

/-- `_clear`. -/
def clear (p : MemPool) : MemPool :=
  { mapTx := ∅, mapLinks := ∅, idx := p.idx.clear }

/-- `existsProviderTxConflict`. -/
def existsProviderTxConflict (tx : Transaction) : Bool :=
  if tx.isSpecialTx then
    match tx.nType with
    | .proReg =>
      match getTxPayload getProRegPL tx with
      | none => true
      | some pl =>
        (p.idx.mapProTxAddresses[pl.addr]?).isSome ||
          (p.idx.mapProTxPubKeyIDs[pl.keyIDOwner]?).isSome ||
          (p.idx.mapProTxPubKeyIDs[pl.keyIDOperator]?).isSome ||
          (decide (pl.collateralOutpoint.hash ≠ 0) &&
            ((p.idx.mapProTxCollaterals[pl.collateralOutpoint]?).isSome ||
              (p.idx.mapNextTx[pl.collateralOutpoint]?).isSome))
    | .proUpServ =>
      match getTxPayload getProUpServPL tx with
      | none => true
      | some pl => p.idx.mapProTxAddresses[pl.addr]?.any (· ≠ pl.proTxHash)
    | .proUpReg =>
      match getTxPayload getProUpRegPL tx with
      | none => true
      | some pl => p.idx.mapProTxPubKeyIDs[pl.keyIDOperator]?.any (· ≠ pl.proTxHash)
    | _ => false
  else false

/-! ### After a reorganization -/

/-- The pool transactions that spend outputs of a transaction of the pool, by `mapNextTx`. -/
def nextChildren (hash : Uint256) : Finset Uint256 :=
  ((p.idx.mapNextTx.toList.filter fun e => e.1.hash = hash).map (·.2.hash)).toFinset

/-- `UpdateForDescendants`, with the cached descendants so far. -/
def updateForDescendants (x : Uint256)
    (cachedDescendants : FMap Uint256 (Finset Uint256)) (setExclude : Finset Uint256) :
    MemPool × FMap Uint256 (Finset Uint256) :=
  let setAllDescendants := Worklist.closeFrom p.children (fun c => cachedDescendants[c]?) p.steps
    (p.children x) ∅
  let counted := setAllDescendants \ setExclude
  let own := p.share TxInfo.toAncestors x
  let modify := p.sumOver TxInfo.toDescendants counted
  ((p.modifyAll counted (updateAncestorState own)).modifyAll {x}
      (updateDescendantState modify),
    -- the cache gets an entry with the first descendant
    if counted = ∅ then cachedDescendants
    else cachedDescendants.insert x (counted ∪ (cachedDescendants[x]?).getD ∅))

/-- One iteration of `UpdateTransactionsFromBlock`. -/
def updateTransactionFromBlock (setAlreadyIncluded : Finset Uint256)
    (s : MemPool × FMap Uint256 (Finset Uint256)) (hash : Uint256) :
    MemPool × FMap Uint256 (Finset Uint256) :=
  if (s.1.mapTx[hash]?).isSome then
    let setChildren := s.1.nextChildren hash \ setAlreadyIncluded
    let p := (setChildren.sort (· ≤ ·)).foldl (fun p c => p.updateChild {hash} c true) s.1
    let p := p.updateParent setChildren hash true
    p.updateForDescendants hash s.2 setAlreadyIncluded
  else s

/-- `UpdateTransactionsFromBlock`. -/
def updateTransactionsFromBlock (vHashesToUpdate : List Uint256) : MemPool :=
  (vHashesToUpdate.reverse.foldl (updateTransactionFromBlock vHashesToUpdate.toFinset) (p, ∅)).1

end MemPool

end KmushiCoin
