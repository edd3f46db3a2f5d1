import KmushiCoin.Lib.Loop
import KmushiCoin.Mempool.Pool
import KmushiCoin.Validation.ConnectBlock

/-!
# KmushiCoin.Mining.BlockAssembler

The **selection of transactions for a block** (`BlockAssembler::addPackageTxs`): packages of an
entry with its unselected ancestors, the best fee rate first.

* `mi` walks the pool in the order of the fee rates with ancestors. The entries whose ancestors
  are partly in the block have their totals corrected in `mapModifiedTx`, and the best of them
  competes with the entry at `mi`.
* A package is tested with its totals (`TestPackage`), sorted by the number of ancestors, and added
  entry by entry. The shielded rules can **cut the package short** (`addSorted`). What depends on
  the package is corrected for the *whole* package all the same (`updatePackagesForAdded`).
* Fee rates are compared as products of doubles, which are integers here (`roundDouble`). The
  totals of the modified entries are machine words and wrap around.

`vTxFees`, `vTxSigOps`, `nBlockTx` and `nFees` are written only, and left out.
-/

namespace KmushiCoin

/-! ### Entries -/

/-- `CTxMemPoolModifiedEntry`, without its iterator. -/
structure ModifiedEntry where
  nSizeWithAncestors : Int
  nModFeesWithAncestors : Int
  nSigOpCountWithAncestors : Int
  deriving Repr, DecidableEq

/-- An integer as a double: 53 bits, rounded to the nearest and then to even. -/
def roundDouble (x : Int) : Int :=
  let unit := 2 ^ (x.natAbs.log2 - 52)
  let q := x.natAbs / unit
  let r := x.natAbs % unit
  let q := if unit < 2 * r ∨ (2 * r = unit ∧ q % 2 = 1) then q + 1 else q
  if x < 0 then -((q * unit : Nat) : Int) else ((q * unit : Nat) : Int)

/-- `CompareModifiedEntry`, which is `CompareTxMemPoolEntryByAncestorFee` as well: the higher fee
rate first, and then the lower hash. -/
def compareModifiedEntry (a b : Uint256 × ModifiedEntry) : Bool :=
  let f1 := roundDouble (roundDouble a.2.nModFeesWithAncestors * roundDouble b.2.nSizeWithAncestors)
  let f2 := roundDouble (roundDouble b.2.nModFeesWithAncestors * roundDouble a.2.nSizeWithAncestors)
  if f1 = f2 then decide (a.1 < b.1) else decide (f2 < f1)

def maxBlockShieldedTxesSize : Int := 750000

/-- `CFeeRate::GetFee`, with the product as a 64-bit word. -/
def getFee (nSatoshisPerK nSize : Int) : Int :=
  let nFee := (nSatoshisPerK * nSize) % 2 ^ 64 / 1000
  if nFee = 0 ∧ 0 < nSatoshisPerK then nSatoshisPerK else nFee

/-- What the selection reads: the entries of the pool, what the traversals of their links return,
and the settings. -/
structure AssemblerEnv where
  mapTx : FMap Uint256 MemPoolEntry
  /-- `GetMemPoolParents`. -/
  parents : Uint256 → Finset Uint256
  /-- What `CalculateMemPoolAncestors` returns for an entry. -/
  ancestors : Uint256 → Finset Uint256
  /-- What `CalculateDescendants` returns for an entry. -/
  descendants : Uint256 → Finset Uint256
  /-- The fee deltas of `PrioritiseTransaction`. -/
  feeDelta : Uint256 → Int
  /-- The argument `-blockmaxsize`. -/
  blockMaxSizeArg : Int
  /-- `minRelayTxFee`, for a thousand bytes. -/
  minRelayTxFee : Int
  /-- Whether `SPORK_20_SAPLING_MAINTENANCE` is active. -/
  fSaplingMaintenance : Bool
  /-- `IsFinalTx` at the height of the block. -/
  isFinalTx : Transaction → Bool

/-- The settings with the entries and the links of a pool. -/
def AssemblerEnv.ofPool (p : MemPool) (settings : AssemblerEnv) : AssemblerEnv :=
  { settings with
    mapTx := p.mapTx
    parents := p.parents
    ancestors := fun x => p.calculateMemPoolAncestors (p.parents x)
    descendants := fun x => p.calculateDescendants x ∅ }

/-- The variables of `addPackageTxs`, and the fields of the assembler that it writes. -/
structure AssemblerState where
  /-- The selected transactions, in the order of the block. -/
  vtx : List Uint256 := []
  inBlock : Finset Uint256 := ∅
  nBlockSize : Int := 1000
  nBlockSigOps : Int := 100
  nSizeShielded : Int := 0
  mapModifiedTx : FMap Uint256 ModifiedEntry := ∅
  failedTx : Finset Uint256 := ∅
  /-- What is left of the pool, in the order of the ancestor scores. -/
  mi : List Uint256
  deriving DecidableEq

/-- A package to evaluate: the entry, its totals, and where they come from. -/
structure PackageChoice where
  iter : Uint256
  totals : ModifiedEntry
  fUsingModified : Bool

namespace AssemblerEnv

variable (env : AssemblerEnv)

/-- The largest block, between one thousand and the limit less one thousand. -/
def nBlockMaxSize : Int := max 1000 (min (2000000 - 1000) env.blockMaxSizeArg)

/-- The fields of one entry, as it enters the totals of its descendants. -/
def own (x : Uint256) : Totals := (env.mapTx[x]?.map fun e => e.toTxInfo.toAncestors).getD 0

/-- The totals of an entry with its ancestors. -/
def withAncestors (x : Uint256) : Totals :=
  (env.mapTx[x]?.map MemPoolEntry.withAncestors).getD 0

def isShielded (x : Uint256) : Bool := (env.mapTx[x]?).any (·.tx.isShieldedTx)

/-- The entries of the pool by hash, and so the order of a set of iterators. -/
def entries : List Uint256 := env.mapTx.toList.map Prod.fst

/-- The members of a set of entries, in the order of the set. -/
def inOrder (S : Finset Uint256) : List Uint256 := env.entries.filter (· ∈ S)

def getModifiedFee (x : Uint256) : Int := env.own x .fees + env.feeDelta x

/-- `CTxMemPoolModifiedEntry(entry)`. -/
def modifiedEntry (x : Uint256) : ModifiedEntry where
  nSizeWithAncestors := env.withAncestors x .size
  nModFeesWithAncestors := env.withAncestors x .fees
  nSigOpCountWithAncestors := env.withAncestors x .sigOps

/-- The pool in the order of `ancestor_score`. -/
def byAncestorScore : List Uint256 :=
  env.entries.insertionSort fun a b =>
    compareModifiedEntry (b, env.modifiedEntry b) (a, env.modifiedEntry a) = false

/-! ### Packages -/

/-- The best of some modified entries. -/
def bestOf (e : Uint256 × ModifiedEntry) (l : List (Uint256 × ModifiedEntry)) :
    Uint256 × ModifiedEntry :=
  l.foldl (fun best e => if compareModifiedEntry e best then e else best) e

/-- `mapModifiedTx.get<ancestor_score>().begin()`. -/
def firstModified (mapModifiedTx : FMap Uint256 ModifiedEntry) :
    Option (Uint256 × ModifiedEntry) :=
  match mapModifiedTx.toList with
  | [] => none
  | e :: l => some (bestOf e l)

variable (st : AssemblerState)

def skipMapTxEntry (x : Uint256) : Bool :=
  (st.mapModifiedTx[x]?).isSome || decide (x ∈ st.inBlock) || decide (x ∈ st.failedTx)

/-- Which package is next: the entry at `mi`, which is not stale, or the best modified entry. -/
def choose : Option PackageChoice :=
  match st.mi, firstModified st.mapModifiedTx with
  | [], none => none
  | [], some (y, m) => some ⟨y, m, true⟩
  | x :: _, none => some ⟨x, env.modifiedEntry x, false⟩
  | x :: _, some (y, m) =>
    if compareModifiedEntry (y, m) (x, env.modifiedEntry x) then some ⟨y, m, true⟩
    else some ⟨x, env.modifiedEntry x, false⟩

def testPackage (packageSize packageSigOps : Int) : Bool :=
  !decide (env.nBlockMaxSize ≤ (st.nBlockSize + packageSize) % 2 ^ 64) &&
    !decide ((maxBlockSigOpsCurrent : Int) ≤ (st.nBlockSigOps + packageSigOps) % 2 ^ 32)

/-- The package of an entry: its ancestors that are not in the block, and itself. -/
def package (iter : Uint256) : Finset Uint256 :=
  insert iter (env.ancestors iter \ st.inBlock)

def testPackageFinality (package : Finset Uint256) : Bool :=
  (env.inOrder package).all fun x => (env.mapTx[x]?).all fun e => env.isFinalTx e.tx

/-- `CompareTxIterByAncestorCount`, as a weak order. -/
def AncestorCountLe (a b : Uint256) : Prop :=
  env.withAncestors a .count < env.withAncestors b .count ∨
    (env.withAncestors a .count = env.withAncestors b .count ∧ a ≤ b)

instance : DecidableRel env.AncestorCountLe := fun a b =>
  inferInstanceAs (Decidable (env.withAncestors a .count < env.withAncestors b .count ∨
    (env.withAncestors a .count = env.withAncestors b .count ∧ a ≤ b)))

def sortForBlock (package : Finset Uint256) : List Uint256 :=
  (env.inOrder package).insertionSort env.AncestorCountLe

/-! ### Adding a package -/

/-- `AddToBlock`, and the entry is erased from the modified set. -/
def addToBlock (x : Uint256) : AssemblerState :=
  { st with
    vtx := st.vtx ++ [x]
    nBlockSize := (st.nBlockSize + env.own x .size) % 2 ^ 64
    nBlockSigOps := (st.nBlockSigOps + env.own x .sigOps) % 2 ^ 32
    inBlock := insert x st.inBlock
    mapModifiedTx := st.mapModifiedTx.erase x }

/-- Whether the shielded rules leave an entry out. -/
def leftOut (x : Uint256) : Bool :=
  env.isShielded x &&
    (env.fSaplingMaintenance ||
      decide (maxBlockShieldedTxesSize < st.nSizeShielded + env.own x .size))

/-- The cumulative size of the shielded entries, with one more entry. -/
def sizeShieldedWith (x : Uint256) : Int :=
  if env.isShielded x then st.nSizeShielded + env.own x .size else st.nSizeShielded

/-- The loop over the sorted entries, which **breaks** at the first one that is left out. -/
def addSorted (st : AssemblerState) : List Uint256 → AssemblerState
  | [] => st
  | x :: sortedEntries =>
    if env.leftOut st x then st
    else
      addSorted (env.addToBlock { st with nSizeShielded := env.sizeShieldedWith st x } x)
        sortedEntries

/-- The totals of a descendant without an entry: a new modified entry, or one more correction. The
first correction takes off the modified fee, the later ones the fee. -/
def updateForParent (it desc : Uint256) (m : Option ModifiedEntry) : ModifiedEntry :=
  let e := m.getD (env.modifiedEntry desc)
  { nSizeWithAncestors := (e.nSizeWithAncestors - env.own it .size) % 2 ^ 64
    nModFeesWithAncestors := wrap64 (e.nModFeesWithAncestors -
      (if m.isNone then env.getModifiedFee it else env.own it .fees))
    nSigOpCountWithAncestors := (e.nSigOpCountWithAncestors - env.own it .sigOps) % 2 ^ 32 }

def updatePackagesForAdded (alreadyAdded : Finset Uint256)
    (mapModifiedTx : FMap Uint256 ModifiedEntry) : FMap Uint256 ModifiedEntry :=
  (env.inOrder alreadyAdded).foldl (fun mods it =>
    (env.inOrder (env.descendants it \ alreadyAdded)).foldl (fun mods desc =>
      mods.alter desc fun m => some (env.updateForParent it desc m)) mods) mapModifiedTx

/-! ### The loop -/

/-- A package that cannot be added is not looked at again. -/
def fail (c : PackageChoice) : AssemblerState :=
  if c.fUsingModified then
    { st with mapModifiedTx := st.mapModifiedTx.erase c.iter, failedTx := insert c.iter st.failedTx }
  else st

/-- Whether a package fits and is final. -/
def admissible (c : PackageChoice) : Bool :=
  env.testPackage st c.totals.nSizeWithAncestors c.totals.nSigOpCountWithAncestors &&
    env.testPackageFinality (env.package st c.iter)

/-- Add a package, up to the first entry that is left out. -/
def addPackage (c : PackageChoice) : AssemblerState :=
  let ancestors := env.package st c.iter
  let st := env.addSorted st (env.sortForBlock ancestors)
  { st with mapModifiedTx := env.updatePackagesForAdded ancestors st.mapModifiedTx }

/-- The package at `mi` is used up when it is chosen. -/
def advance (c : PackageChoice) : AssemblerState :=
  if c.fUsingModified then st else { st with mi := st.mi.tail }

/-- One turn of the loop. -/
def turn : Outcome (AssemblerState ⊕ AssemblerState) :=
  if st.mi.head?.any (skipMapTxEntry st) then .ok (.inl { st with mi := st.mi.tail })
  else
    match env.choose st with
    | none => .ok (.inr st)
    | some c =>
      let st := advance st c
      if c.iter ∈ st.inBlock then .error (.abort "!inBlock.count(iter)")
      else if c.totals.nModFeesWithAncestors <
          getFee env.minRelayTxFee c.totals.nSizeWithAncestors then .ok (.inr st)
      else if env.admissible st c then .ok (.inl (env.addPackage st c))
      else .ok (.inl (fail st c))

/-- The assembler after `resetBlock`, at the head of the loop. -/
def start : AssemblerState := { mi := env.byAncestorScore }

/-- `addPackageTxs`, up to a number of turns. -/
def addPackageTxs (n : Nat) : Outcome (AssemblerState ⊕ AssemblerState) :=
  Loop.iterate env.turn n env.start

end AssemblerEnv

end KmushiCoin
