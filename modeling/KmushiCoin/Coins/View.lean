import KmushiCoin.Primitives.Transaction

/-!
# KmushiCoin.Coins.View

The **coins views**: a stack of write-back caches over the database.

* A cache entry of a coin has two flags. `dirty`: the entry may differ from what the view
  below has. `fresh`: the view below has no unspent coin there, so a spent entry can be
  forgotten. The entries of anchors and nullifiers are only dirty or not.
* **Reads fill the caches**, so each of them returns the view as well. The part of a call
  that works on the cache itself takes what the view below answered as an argument; the
  virtual calls (`CoinsView.getCoin` and its like) close the recursion.
* A flush writes the dirty entries to the view below (`BatchWrite`): it merges them into a
  cache, or writes them to the database as a list of single writes.

The bookkeeping of memory usage is left out.
-/

namespace KmushiCoin

/-! ### Coins -/

/-- An unspent output with what is known of its transaction. -/
structure Coin where
  out : TxOut
  nHeight : UInt32
  fCoinBase : Bool
  fCoinStake : Bool
  deriving Repr, DecidableEq

namespace Coin

/-- The default coin, and what `Clear` leaves. -/
def empty : Coin := ⟨TxOut.null, 0, false, false⟩

def isSpent (c : Coin) : Bool := c.out.isNull

/-- A spent coin counts as none. -/
def unspent (c : Coin) : Option Coin := if c.isSpent then none else some c

end Coin

/-- The tree of note commitments, as the commitments that were appended. -/
structure SaplingMerkleTree where
  commitments : List Uint256
  deriving Repr, DecidableEq

namespace SaplingMerkleTree

def empty : SaplingMerkleTree := ⟨[]⟩

def append (t : SaplingMerkleTree) (cmu : Uint256) : SaplingMerkleTree :=
  ⟨t.commitments ++ [cmu]⟩

end SaplingMerkleTree

/-! ### Caches -/

structure CoinsCacheEntry where
  coin : Coin
  dirty : Bool
  fresh : Bool
  deriving Repr, DecidableEq

structure AnchorsSaplingCacheEntry where
  /-- False when the anchor was removed. -/
  entered : Bool
  tree : SaplingMerkleTree
  dirty : Bool
  deriving Repr, DecidableEq

structure NullifiersCacheEntry where
  /-- Whether the nullifier is spent. -/
  entered : Bool
  dirty : Bool
  deriving Repr, DecidableEq

/-- What a cache holds; a null hash is one that was not read or set yet. -/
structure CoinsCache where
  hashBlock : Uint256 := 0
  cacheCoins : FMap OutPoint CoinsCacheEntry := ∅
  hashSaplingAnchor : Uint256 := 0
  cacheSaplingAnchors : FMap Uint256 AnchorsSaplingCacheEntry := ∅
  cacheSaplingNullifiers : FMap Uint256 NullifiersCacheEntry := ∅

/-! ### The database -/

/-- The records of the chain state. -/
structure CoinsDB where
  coins : FMap OutPoint Coin := ∅
  anchors : FMap Uint256 SaplingMerkleTree := ∅
  nullifiers : FMap Uint256 Unit := ∅
  bestAnchor : Option Uint256 := none
  bestBlock : Option Uint256 := none
  /-- The new and the old best block, in the middle of a flush. -/
  headBlocks : Option (Uint256 × Uint256) := none

/-- One write of a batch. -/
inductive DBWrite
  | eraseBestBlock
  | writeBestBlock (h : Uint256)
  | eraseHeadBlocks
  | writeHeadBlocks (new old : Uint256)
  | eraseCoin (o : OutPoint)
  | writeCoin (o : OutPoint) (c : Coin)
  | eraseAnchor (rt : Uint256)
  | writeAnchor (rt : Uint256) (t : SaplingMerkleTree)
  | eraseNullifier (nf : Uint256)
  | writeNullifier (nf : Uint256)
  | writeBestAnchor (rt : Uint256)

namespace CoinsDB

def write (d : CoinsDB) : DBWrite → CoinsDB
  | .eraseBestBlock => { d with bestBlock := none }
  | .writeBestBlock h => { d with bestBlock := some h }
  | .eraseHeadBlocks => { d with headBlocks := none }
  | .writeHeadBlocks new old => { d with headBlocks := some (new, old) }
  | .eraseCoin o => { d with coins := d.coins.erase o }
  | .writeCoin o c => { d with coins := d.coins.insert o c }
  | .eraseAnchor rt => { d with anchors := d.anchors.erase rt }
  | .writeAnchor rt t => { d with anchors := d.anchors.insert rt t }
  | .eraseNullifier nf => { d with nullifiers := d.nullifiers.erase nf }
  | .writeNullifier nf => { d with nullifiers := d.nullifiers.insert nf () }
  | .writeBestAnchor rt => { d with bestAnchor := some rt }

def writeBatch (d : CoinsDB) (batch : List DBWrite) : CoinsDB := batch.foldl write d

def getBestBlock (d : CoinsDB) : Uint256 := d.bestBlock.getD 0

end CoinsDB

/-- Only dirty entries are written. -/
def CoinsCacheEntry.writes (o : OutPoint) (e : CoinsCacheEntry) : List DBWrite :=
  if !e.dirty then []
  else if e.coin.isSpent then [.eraseCoin o]
  else [.writeCoin o e.coin]

section
variable (root : SaplingMerkleTree → Uint256)

/-- The empty tree is never written. -/
def AnchorsSaplingCacheEntry.writes (rt : Uint256) (e : AnchorsSaplingCacheEntry) : List DBWrite :=
  if !e.dirty then []
  else if !e.entered then [.eraseAnchor rt]
  else if rt ≠ root .empty then [.writeAnchor rt e.tree]
  else []

def NullifiersCacheEntry.writes (nf : Uint256) (e : NullifiersCacheEntry) : List DBWrite :=
  if !e.dirty then []
  else if !e.entered then [.eraseNullifier nf]
  else [.writeNullifier nf]

namespace CoinsDB

/-- The best block before the flush; in the middle of a replay it is the old head. -/
def oldTip (d : CoinsDB) (hashBlock : Uint256) : Outcome Uint256 :=
  if d.getBestBlock ≠ 0 then .ok d.getBestBlock
  else
    match d.headBlocks with
    | none => .ok 0
    | some (new, old) => do
      assert (new == hashBlock) "old_heads[0] == hashBlock"
      .ok old

/-- The writes that open a flush: the database is between two best blocks. -/
def openingWrites (hashBlock oldTip : Uint256) : List DBWrite :=
  [.eraseBestBlock, .writeHeadBlocks hashBlock oldTip]

/-- The writes of the last batch, after the coins. -/
def closingWrites (c : CoinsCache) : List DBWrite :=
  c.cacheSaplingAnchors.toList.flatMap (fun e => e.2.writes root e.1) ++
  c.cacheSaplingNullifiers.toList.flatMap (fun e => e.2.writes e.1) ++
  (if c.hashSaplingAnchor ≠ 0 then [.writeBestAnchor c.hashSaplingAnchor] else []) ++
  [.eraseHeadBlocks, .writeBestBlock c.hashBlock]

/-- The complete flush into the database, all of its batches written. -/
def batchWrite (d : CoinsDB) (c : CoinsCache) : Outcome CoinsDB := do
  assert (c.hashBlock != 0) "!hashBlock.IsNull()"
  let oldTip ← d.oldTip c.hashBlock
  .ok (d.writeBatch (openingWrites c.hashBlock oldTip ++
    c.cacheCoins.toList.flatMap (fun e => e.2.writes e.1) ++ closingWrites root c))

end CoinsDB

end

/-! ### Views -/

/-- The database, or a cache over a view. -/
inductive CoinsView
  | db (d : CoinsDB)
  | cache (c : CoinsCache) (base : CoinsView)

/-- A view that is a cache. -/
structure CoinsViewCache where
  cache : CoinsCache
  base : CoinsView

namespace CoinsViewCache

variable (v : CoinsViewCache)

def toView : CoinsView := .cache v.cache v.base

/-- A new cache over a view. -/
def ofBase (base : CoinsView) : CoinsViewCache := ⟨{}, base⟩

/-- `FetchCoin`, with what the view below answers. -/
def fetchCoinWith (o : OutPoint) (read : Option Coin × CoinsView) :
    Option CoinsCacheEntry × CoinsViewCache :=
  match v.cache.cacheCoins[o]? with
  | some e => (some e, v)
  | none =>
    match read with
    | (none, base) => (none, { v with base })
    | (some coin, base) =>
      -- the view below only has a spent entry: ours is fresh
      let e : CoinsCacheEntry := ⟨coin, false, coin.isSpent⟩
      (some e, ⟨{ v.cache with cacheCoins := v.cache.cacheCoins.insert o e }, base⟩)

def getSaplingAnchorAtWith (rt : Uint256)
    (read : Option SaplingMerkleTree × CoinsView) : Option SaplingMerkleTree × CoinsViewCache :=
  match v.cache.cacheSaplingAnchors[rt]? with
  | some e => (if e.entered then some e.tree else none, v)
  | none =>
    match read with
    | (none, base) => (none, { v with base })
    | (some tree, base) =>
      (some tree, ⟨{ v.cache with
        cacheSaplingAnchors := v.cache.cacheSaplingAnchors.insert rt ⟨true, tree, false⟩ }, base⟩)

def getNullifierWith (nf : Uint256) (read : Bool × CoinsView) : Bool × CoinsViewCache :=
  match v.cache.cacheSaplingNullifiers[nf]? with
  | some e => (e.entered, v)
  | none => (read.1, ⟨{ v.cache with
      cacheSaplingNullifiers := v.cache.cacheSaplingNullifiers.insert nf ⟨read.1, false⟩ }, read.2⟩)

def getBestAnchorWith (read : Uint256 × CoinsView) : Uint256 × CoinsViewCache :=
  if v.cache.hashSaplingAnchor = 0 then
    (read.1, ⟨{ v.cache with hashSaplingAnchor := read.1 }, read.2⟩)
  else (v.cache.hashSaplingAnchor, v)

def getBestBlockWith (read : Uint256 × CoinsView) : Uint256 × CoinsViewCache :=
  if v.cache.hashBlock = 0 then (read.1, ⟨{ v.cache with hashBlock := read.1 }, read.2⟩)
  else (v.cache.hashBlock, v)

end CoinsViewCache

open CoinsViewCache

namespace CoinsView

variable (root : SaplingMerkleTree → Uint256)

def getCoin : CoinsView → OutPoint → Option Coin × CoinsView
  | .db d, o => (d.coins[o]?, .db d)
  | .cache c base, o =>
    let (it, v) := fetchCoinWith ⟨c, base⟩ o (base.getCoin o)
    (it.map (·.coin), v.toView)

def getSaplingAnchorAt : CoinsView → Uint256 → Option SaplingMerkleTree × CoinsView
  | .db d, rt => (if rt = root .empty then some .empty else d.anchors[rt]?, .db d)
  | .cache c base, rt =>
    let (tree, v) := getSaplingAnchorAtWith ⟨c, base⟩ rt
      (base.getSaplingAnchorAt rt)
    (tree, v.toView)

def getNullifier : CoinsView → Uint256 → Bool × CoinsView
  | .db d, nf => (d.nullifiers[nf]?.isSome, .db d)
  | .cache c base, nf =>
    let (spent, v) := getNullifierWith ⟨c, base⟩ nf (base.getNullifier nf)
    (spent, v.toView)

def getBestAnchor : CoinsView → Uint256 × CoinsView
  | .db d => (d.bestAnchor.getD (root .empty), .db d)
  | .cache c base =>
    let (rt, v) := getBestAnchorWith ⟨c, base⟩ base.getBestAnchor
    (rt, v.toView)

def getBestBlock : CoinsView → Uint256 × CoinsView
  | .db d => (d.getBestBlock, .db d)
  | .cache c base =>
    let (h, v) := getBestBlockWith ⟨c, base⟩ base.getBestBlock
    (h, v.toView)

end CoinsView

namespace CoinsViewCache

variable (root : SaplingMerkleTree → Uint256)

/-! ### Coins of a cache -/

variable (v : CoinsViewCache)

def fetchCoin (o : OutPoint) : Option CoinsCacheEntry × CoinsViewCache :=
  v.fetchCoinWith o (v.base.getCoin o)

def getCoin (o : OutPoint) : Option Coin × CoinsViewCache :=
  let (it, v) := v.fetchCoin o
  (it.map (·.coin), v)

def accessCoin (o : OutPoint) : Coin × CoinsViewCache :=
  let (it, v) := v.fetchCoin o
  ((it.map (·.coin)).getD .empty, v)

def haveCoin (o : OutPoint) : Bool × CoinsViewCache :=
  let (it, v) := v.fetchCoin o
  (it.any fun e => !e.coin.isSpent, v)

/-- `cacheCoins[o] = e`. -/
def setEntry (o : OutPoint) (e : CoinsCacheEntry) : CoinsViewCache :=
  { v with cache := { v.cache with cacheCoins := v.cache.cacheCoins.insert o e } }

/-- The entry at an outpoint; a new one is empty. -/
def entryAt (o : OutPoint) : CoinsCacheEntry :=
  (v.cache.cacheCoins[o]?).getD ⟨.empty, false, false⟩

def addCoin (o : OutPoint) (coin : Coin) (possibleOverwrite : Bool) : Outcome CoinsViewCache :=
  if coin.isSpent then .error (.abort "!coin.IsSpent()")
  else if Script.isUnspendable coin.out.scriptPubKey then .ok v
  else if coin.out.isZerocoinMint then .ok v
  else if possibleOverwrite then .ok (v.setEntry o ⟨coin, true, (v.entryAt o).fresh⟩)
  else if !(v.entryAt o).coin.isSpent then
    .error (.throw "Adding new coin that replaces non-pruned entry")
  else .ok (v.setEntry o ⟨coin, true, (v.entryAt o).fresh || !(v.entryAt o).dirty⟩)

/-- `cacheCoins.erase(o)`. -/
def eraseEntry (o : OutPoint) : CoinsViewCache :=
  { v with cache := { v.cache with cacheCoins := v.cache.cacheCoins.erase o } }

/-- The coin that was spent is moved out, if there was an entry. -/
def spendCoin (o : OutPoint) : Option Coin × CoinsViewCache :=
  match v.fetchCoin o with
  | (none, v) => (none, v)
  | (some e, v) =>
    if e.fresh then (some e.coin, v.eraseEntry o)
    else (some e.coin, v.setEntry o ⟨.empty, true, e.fresh⟩)

/-- Forget an entry without changes. -/
def uncache (o : OutPoint) : CoinsViewCache :=
  match v.cache.cacheCoins[o]? with
  | none => v
  | some e => if !e.dirty && !e.fresh then v.eraseEntry o else v

/-! ### Best block, anchors and nullifiers of a cache -/

def getBestBlock (v : CoinsViewCache) : Uint256 × CoinsViewCache :=
  v.getBestBlockWith v.base.getBestBlock

def setBestBlock (hashBlock : Uint256) : CoinsViewCache :=
  { v with cache := { v.cache with hashBlock } }

def getSaplingAnchorAt (v : CoinsViewCache) (rt : Uint256) :
    Option SaplingMerkleTree × CoinsViewCache :=
  v.getSaplingAnchorAtWith rt (v.base.getSaplingAnchorAt root rt)

def getNullifier (v : CoinsViewCache) (nf : Uint256) : Bool × CoinsViewCache :=
  v.getNullifierWith nf (v.base.getNullifier nf)

def getBestAnchor (v : CoinsViewCache) : Uint256 × CoinsViewCache :=
  v.getBestAnchorWith (v.base.getBestAnchor root)

/-- `cacheSaplingAnchors[rt] = e`, and the new best anchor. -/
def setAnchor (rt : Uint256) (e : AnchorsSaplingCacheEntry)
    (hashSaplingAnchor : Uint256) : CoinsViewCache :=
  { v with cache := { v.cache with
      cacheSaplingAnchors := v.cache.cacheSaplingAnchors.insert rt e, hashSaplingAnchor } }

def pushAnchor (tree : SaplingMerkleTree) : CoinsViewCache :=
  let newrt := root tree
  let (currentRoot, v) := v.getBestAnchor root
  if currentRoot ≠ newrt then v.setAnchor newrt ⟨true, tree, true⟩ newrt else v

/-- The anchor that is removed is brought into the cache first, with its tree. -/
def popAnchor (newrt : Uint256) : Outcome CoinsViewCache :=
  let (currentRoot, v) := v.getBestAnchor root
  if currentRoot ≠ newrt then
    match v.getSaplingAnchorAt root currentRoot with
    | (none, _) => .error (.abort "GetSaplingAnchorAt(currentRoot, tree)")
    | (some tree, v) => .ok (v.setAnchor currentRoot ⟨false, tree, true⟩ newrt)
  else .ok v

def setNullifier (nf : Uint256) (spent : Bool) : CoinsViewCache :=
  { v with cache := { v.cache with
      cacheSaplingNullifiers := v.cache.cacheSaplingNullifiers.insert nf ⟨spent, true⟩ } }

def setNullifiers (tx : Transaction) (spent : Bool) : CoinsViewCache :=
  match tx.sapData with
  | none => v
  | some sap => sap.vShieldedSpend.foldl (fun v s => v.setNullifier s.nullifier spent) v

/-- One shielded spend: its nullifier is new and its anchor is known. -/
def haveSpendRequirements (s : SpendDescription) : Bool × CoinsViewCache :=
  let (spent, v) := v.getNullifier s.nullifier
  if spent then (false, v)
  else
    let (tree, v) := v.getSaplingAnchorAt root s.anchor
    (tree.isSome, v)

/-- The first spend that fails ends the check. -/
def haveSpendsRequirements (v : CoinsViewCache) : List SpendDescription → Bool × CoinsViewCache
  | [] => (true, v)
  | s :: spends =>
    let (ok, v) := v.haveSpendRequirements root s
    if ok then v.haveSpendsRequirements spends else (false, v)

def haveShieldedRequirements (tx : Transaction) : Bool × CoinsViewCache :=
  v.haveSpendsRequirements root tx.shieldedSpends

end CoinsViewCache

/-! ### Flushing -/

/-- A dirty entry of the child, merged into the entry of the parent. -/
def mergeCoin (itUs : Option CoinsCacheEntry) (it : CoinsCacheEntry) :
    Outcome (Option CoinsCacheEntry) :=
  if !it.dirty then .ok itUs
  else
    match itUs with
    | none =>
      if it.fresh && it.coin.isSpent then .ok none
      else .ok (some ⟨it.coin, true, it.fresh⟩)
    | some us =>
      if it.fresh && !us.coin.isSpent then
        .error (.throw "FRESH flag misapplied to cache entry for base transaction with spendable outputs")
      else if us.fresh && it.coin.isSpent then .ok none
      else .ok (some ⟨it.coin, true, us.fresh⟩)

/-- The tree of an entry that the parent has already is kept. -/
def mergeAnchor (parent : Option AnchorsSaplingCacheEntry) (child : AnchorsSaplingCacheEntry) :
    Option AnchorsSaplingCacheEntry :=
  if !child.dirty then parent
  else
    match parent with
    | none => some ⟨child.entered, child.tree, true⟩
    | some p => if p.entered ≠ child.entered then some ⟨child.entered, p.tree, true⟩ else some p

def mergeNullifier (parent : Option NullifiersCacheEntry) (child : NullifiersCacheEntry) :
    Option NullifiersCacheEntry :=
  if !child.dirty then parent
  else
    match parent with
    | none => some ⟨child.entered, true⟩
    | some p => if p.entered ≠ child.entered then some ⟨child.entered, true⟩ else some p

section
variable (root : SaplingMerkleTree → Uint256)

/-- The hashes of the child replace those of the parent, whatever they are. -/
def CoinsCache.batchWrite (p c : CoinsCache) : Outcome CoinsCache := do
  let cacheCoins ← FMap.mergeM (fun _ => mergeCoin) p.cacheCoins c.cacheCoins
  .ok {
    hashBlock := c.hashBlock
    cacheCoins
    hashSaplingAnchor := c.hashSaplingAnchor
    cacheSaplingAnchors := FMap.merge (fun _ => mergeAnchor) p.cacheSaplingAnchors c.cacheSaplingAnchors
    cacheSaplingNullifiers :=
      FMap.merge (fun _ => mergeNullifier) p.cacheSaplingNullifiers c.cacheSaplingNullifiers }

def CoinsView.batchWrite (v : CoinsView) (c : CoinsCache) : Outcome CoinsView :=
  match v with
  | .db d => CoinsView.db <$> d.batchWrite root c
  | .cache p base => (CoinsView.cache · base) <$> p.batchWrite c

/-- The maps are cleared and the hashes kept. -/
def CoinsViewCache.flush (v : CoinsViewCache) : Outcome CoinsViewCache := do
  let base ← v.base.batchWrite root v.cache
  .ok ⟨{ hashBlock := v.cache.hashBlock, hashSaplingAnchor := v.cache.hashSaplingAnchor }, base⟩

end

end KmushiCoin
