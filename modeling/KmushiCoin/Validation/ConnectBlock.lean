import KmushiCoin.Validation.CheckTransaction

/-!
# KmushiCoin.Validation.ConnectBlock

**Connecting and disconnecting a block**: `ConnectBlock` checks a block against a coins view
and applies it, and keeps the coins that were spent; `DisconnectBlock` takes it back with them.

* Both work on the cache that they are given, call by call. A block that fails leaves nothing
  behind: its view is thrown away, so a failure returns no view.
* `ConnectContext` holds what a call is told besides the block, its index entry and the view:
  the state of the payments, sporks, the verdicts on scripts and special transactions.
* Left out: the legacy zerocoin database, the transaction index, the list of invalid outputs of
  the main net (it is empty below the height where it would apply) and the budget proposals
  that a disconnected fee transaction removes.
-/

namespace KmushiCoin

/-- The coins that the inputs of a transaction spent. -/
abbrev TxUndo : Type := List Coin

/-- The undo data of the transactions of a block but the first. -/
abbrev BlockUndo : Type := List TxUndo

/-- The entry of the block before, as far as it is read. -/
structure PrevEntry where
  hash : Uint256
  nHeight : Nat
  hashFinalSaplingRoot : Uint256
  deriving Repr, DecidableEq

/-- The index entry of a block. -/
structure BlockEntry where
  nHeight : Nat
  nHeight_lt : nHeight < 2 ^ 31
  /-- The value of the Sapling pool after the block, if it is known. -/
  nChainSaplingValue : Option Int
  pprev : Option PrevEntry

/-- What `ConnectBlock` is told besides the block. -/
structure ConnectContext extends BlockContext where
  st : PaymentsState
  globals : PaymentGlobals
  fInitialBlockDownload : Bool
  /-- Whether the block is later than the time of the maintenance spork. -/
  fSaplingMaintenance : Bool
  /-- Whether the masternode database has the block before as its best block. -/
  verifyBestBlock : Bool
  fScriptChecks : Bool
  /-- The signature operations of an output that pays to a script hash, by its script and the
  script that spends it; none for another output. -/
  p2shSigOps : Script → Script → Nat
  checkScript : Transaction → Nat → TxOut → Bool
  /-- The denomination in the sequence number of a zerocoin spend. -/
  zerocoinValue : TxIn → Int
  parseAndValidateZerocoinSpends : Transaction → Outcome Unit
  processSpecialTxs : Outcome Unit

namespace CoinsViewCache

/-! ### Reading the inputs -/

/-- The first coin that is missing ends the search. -/
def haveCoins (v : CoinsViewCache) : List TxIn → Bool × CoinsViewCache
  | [] => (true, v)
  | txin :: vin =>
    let (found, v) := v.haveCoin txin.prevout
    if found then v.haveCoins vin else (false, v)

def haveInputs (v : CoinsViewCache) (tx : Transaction) : Bool × CoinsViewCache :=
  if !tx.isCoinBase && !tx.hasZerocoinSpendInputs then v.haveCoins tx.vin else (true, v)

/-- The coins of the inputs; an empty one where there is none. -/
def accessCoins (v : CoinsViewCache) : List TxIn → List Coin × CoinsViewCache
  | [] => ([], v)
  | txin :: vin =>
    let (coin, v) := v.accessCoin txin.prevout
    let (coins, v) := v.accessCoins vin
    (coin :: coins, v)

/-- The value of an input, added to the result so far. -/
def addValueIn (zerocoinValue : TxIn → Int) (r : Int × CoinsViewCache) (txin : TxIn) :
    Int × CoinsViewCache :=
  if txin.isZerocoinSpend || txin.isZerocoinPublicSpend then
    (wrap64 (r.1 + zerocoinValue txin), r.2)
  else
    let (coin, v) := r.2.accessCoin txin.prevout
    (wrap64 (r.1 + coin.out.nValue), v)

def getValueIn (zerocoinValue : TxIn → Int) (v : CoinsViewCache) (tx : Transaction) :
    Outcome (Int × CoinsViewCache) :=
  if tx.isCoinBase then .ok (0, v)
  else do
    let (nResult, v) := tx.vin.foldl (addValueIn zerocoinValue) (0, v)
    let nShielded ← tx.getShieldedValueIn
    .ok (wrap64 (nResult + nShielded), v)

/-- The signature operations of the inputs that spend a script hash. -/
def getP2SHSigOpCount (p2shSigOps : Script → Script → Nat) (v : CoinsViewCache) (tx : Transaction) :
    Nat × CoinsViewCache :=
  if tx.isCoinBase || tx.hasZerocoinSpendInputs then (0, v)
  else
    let (coins, v) := v.accessCoins tx.vin
    ((List.zipWith (fun coin (txin : TxIn) => p2shSigOps coin.out.scriptPubKey txin.scriptSig)
      coins tx.vin).sum, v)

/-! ### Updating the coins -/

/-- Spend the inputs, and keep the coins. -/
def spendCoins (v : CoinsViewCache) : List TxIn → TxUndo × CoinsViewCache
  | [] => ([], v)
  | txin :: vin =>
    let (coin, v) := v.spendCoin txin.prevout
    let (undo, v) := v.spendCoins vin
    (coin.getD .empty :: undo, v)

end CoinsViewCache

namespace Transaction

/-- The outputs with their outpoints. -/
def outputs (tx : Transaction) : List (OutPoint × TxOut) :=
  tx.vout.zipIdx.map fun (out, i) => (⟨tx.hash, UInt32.ofNat i⟩, out)

/-- The coin of an output, in a block of this height. -/
def coinOf (tx : Transaction) (nHeight : Nat) (out : TxOut) : Coin :=
  ⟨out, UInt32.ofNat nHeight, tx.isCoinBase, tx.isCoinStake⟩

/-- Whether the inputs are coins. -/
def spendsCoins (tx : Transaction) : Bool := !tx.isCoinBase && !tx.hasZerocoinSpendInputs

end Transaction

namespace CoinsViewCache

/-- `AddCoins`; with `check`, a coin that is there already may be overwritten. -/
def addCoins (v : CoinsViewCache) (tx : Transaction) (nHeight : Nat) (check : Bool) :
    Outcome CoinsViewCache :=
  tx.outputs.foldlM (fun v (o, out) =>
    let (overwrite, v) := if check then v.haveCoin o else (false, v)
    v.addCoin o (tx.coinOf nHeight out) overwrite) v

def updateCoins (v : CoinsViewCache) (tx : Transaction) (nHeight : Nat) :
    Outcome (TxUndo × CoinsViewCache) := do
  let (undo, v) := if tx.spendsCoins then v.spendCoins tx.vin else ([], v)
  let v := v.setNullifiers tx true
  let v ← v.addCoins tx nHeight false
  .ok (undo, v)

end CoinsViewCache

section
variable (root : SaplingMerkleTree → Uint256) (params : ConsensusParams) (ctx : ConnectContext)

/-! ### Checking the inputs -/

/-- One input more: its coin is mature and the sum is in range. -/
def checkTxInput (nSpendHeight : Nat) (r : Int × CoinsViewCache) (txin : TxIn) :
    Outcome (Int × CoinsViewCache) := do
  let (coin, v) := r.2.accessCoin txin.prevout
  assert (!coin.isSpent) "!coin.IsSpent()"
  rejectIf ((coin.fCoinBase || coin.fCoinStake) &&
      decide ((nSpendHeight : Int) - coin.nHeight.toNat < params.nCoinbaseMaturity))
    "bad-txns-premature-spend-of-coinbase-coinstake"
  let nValueIn := wrap64 (r.1 + coin.out.nValue)
  rejectIf (!params.moneyRange coin.out.nValue || !params.moneyRange nValueIn)
    "bad-txns-inputvalues-outofrange"
  .ok (nValueIn, v)

/-- The value test, which a coinstake is free of. -/
def checkTxFee (tx : Transaction) (nValueIn : Int) : Outcome Unit :=
  if tx.isCoinStake then .ok ()
  else do
    let nValueOut ← tx.getValueOut
    rejectIf (decide (nValueIn < nValueOut)) "bad-txns-in-belowout"
    let nTxFee := wrap64 (nValueIn - nValueOut)
    rejectIf (decide (nTxFee < 0)) "bad-txns-fee-negative"
    rejectIf (!params.moneyRange nTxFee) "bad-txns-fee-outofrange"

/-- `Consensus::CheckTxInputs`. -/
def checkTxInputs (nSpendHeight : Nat) (v : CoinsViewCache) (tx : Transaction) :
    Outcome CoinsViewCache := do
  let (found, v) := v.haveInputs tx
  rejectIf (!found) "Inputs unavailable"
  let (met, v) := v.haveShieldedRequirements root tx
  rejectIf (!met) "Sapling requirements not met"
  let (nValueIn, v) ← tx.vin.foldlM (checkTxInput params nSpendHeight) (0, v)
  let nShielded ← tx.getShieldedValueIn
  checkTxFee params tx (wrap64 (nValueIn + nShielded))
  .ok v

/-- `CheckInputs`; the checks of the scripts may be deferred, and fail the block all the same. -/
def checkInputs (nSpendHeight : Nat) (v : CoinsViewCache) (tx : Transaction) :
    Outcome CoinsViewCache :=
  if tx.spendsCoins then do
    let v ← checkTxInputs root params nSpendHeight v tx
    if ctx.fScriptChecks then do
      let (coins, v) := v.accessCoins tx.vin
      assert (coins.all fun coin => !coin.isSpent) "!coin.IsSpent()"
      rejectIf (coins.zipIdx.any fun (coin, i) => !ctx.checkScript tx i coin.out)
        "block-validation-failed"
      .ok v
    else .ok v
  else .ok v

/-! ### Connecting a block -/

/-- The variables of the loop over the transactions. -/
structure ConnectState where
  view : CoinsViewCache
  nFees : Int := 0
  nValueIn : Int := 0
  nValueOut : Int := 0
  nSigOps : Nat := 0
  vtxundo : BlockUndo := []
  saplingTree : SaplingMerkleTree

def maxBlockSigOpsCurrent : Nat := 40000

/-- The checks of a transaction that look its inputs up, before values are added. -/
def checkRequirements (isV5UpgradeEnforced : Bool) (nSigOps : Nat) (v : CoinsViewCache)
    (tx : Transaction) : Outcome (Nat × CoinsViewCache) :=
  if !isV5UpgradeEnforced && tx.hasZerocoinSpendInputs then do
    ctx.parseAndValidateZerocoinSpends tx
    .ok (nSigOps, v)
  else if !tx.isCoinBase then do
    let (found, v) := v.haveInputs tx
    rejectIf (!found) "bad-txns-inputs-missingorspent"
    let (met, v) := v.haveShieldedRequirements root tx
    rejectIf (!met) "bad-txns-sapling-requirements-not-met"
    let (n, v) := v.getP2SHSigOpCount ctx.p2shSigOps tx
    rejectIf (decide (maxBlockSigOpsCurrent < nSigOps + n)) "bad-blk-sigops"
    .ok (nSigOps + n, v)
  else .ok (nSigOps, v)

/-- The values of a transaction; the fee of a coinstake is not one. -/
def connectValues (nSpendHeight : Nat) (s : ConnectState) (tx : Transaction) :
    Outcome ConnectState := do
  let txValueOut ← tx.getValueOut
  if !tx.isCoinBase then do
    let (txValueIn, v) ← s.view.getValueIn ctx.zerocoinValue tx
    let v ← checkInputs root params ctx nSpendHeight v tx
    .ok { s with
      view := v
      nFees := if tx.isCoinStake then s.nFees else wrap64 (s.nFees + wrap64 (txValueIn - txValueOut))
      nValueIn := wrap64 (s.nValueIn + txValueIn)
      nValueOut := wrap64 (s.nValueOut + txValueOut) }
  else .ok { s with nValueOut := wrap64 (s.nValueOut + txValueOut) }

variable (pindex : BlockEntry)

/-- One transaction of the block, with the coins that it spends. -/
def connectTx (s : ConnectState) (tx : Transaction) : Outcome (TxUndo × ConnectState) := do
  let nSigOps := s.nSigOps + ctx.legacySigOps tx
  rejectIf (decide (maxBlockSigOpsCurrent < nSigOps)) "bad-blk-sigops"
  rejectIf (!ctx.fInitialBlockDownload && ctx.fSaplingMaintenance && tx.isShieldedTx)
    "shielded transactions are currently in maintenance mode"
  let (nSigOps, v) ← checkRequirements root ctx
    (networkUpgradeActive pindex.nHeight params.upgradeV5_0) nSigOps s.view tx
  -- `GetSpendHeight` is the height after the best block, the height of this block
  let s ← connectValues root params ctx pindex.nHeight { s with nSigOps, view := v } tx
  let (undo, v) ← s.view.updateCoins tx pindex.nHeight
  .ok (undo, { s with
    view := v
    saplingTree := (tx.shieldedOutputs.map (·.cmu)).foldl SaplingMerkleTree.append s.saplingTree })

/-- A transaction after the first one: its undo data is kept. -/
def connectNextTx (s : ConnectState) (tx : Transaction) : Outcome ConnectState := do
  let (undo, s) ← connectTx root params ctx pindex s tx
  .ok { s with vtxundo := s.vtxundo ++ [undo] }

def connectTxs (s : ConnectState) (vtx : List Transaction) : Outcome ConnectState :=
  match vtx with
  | [] => .ok s
  | coinbase :: rest => do
    let (_, s) ← connectTx root params ctx pindex s coinbase
    rest.foldlM (connectNextTx root params ctx pindex) s

/-- The value of the block, its payments and its special transactions. -/
def checkMint (b : Block) (nFees nValueIn nValueOut : Int) : Outcome Unit := do
  assert (decide (0 ≤ nFees)) "nFees >= 0"
  let nMint := wrap64 (wrap64 (nValueOut - nValueIn) + nFees)
  ((checkBlockPayments params.toNetworkParams ctx.st ctx.fInitialBlockDownload b.isProofOfStake
    b.hash b.vtx pindex.nHeight nFees nMint).exec ctx.globals).1
  ctx.processSpecialTxs

/-- The checks of a block that read nothing of the view. -/
def checkBlockContext (b : Block) : Outcome Unit := do
  let isPoSActive := networkUpgradeActive pindex.nHeight params.upgradePoS
  rejectIf (!isPoSActive && b.isProofOfStake) "PoS-early"
  rejectIf (isPoSActive && !b.isProofOfStake) "PoW-ended"
  rejectIf (pindex.nChainSaplingValue.any fun nValue => decide (nValue < 0))
    "turnstile-violation-sapling-shielded-pool"

/-- The transactions are applied and the anchor pushed. -/
def connectTransactions (b : Block) (v : CoinsViewCache) :
    Outcome (BlockUndo × CoinsViewCache) := do
  let (rt, v) := v.getBestAnchor root
  match v.getSaplingAnchorAt root rt with
  | (none, _) => .error (.abort "view.GetSaplingAnchorAt(view.GetBestAnchor(), sapling_tree)")
  | (some saplingTree, v) => do
    let s ← connectTxs root params ctx pindex { view := v, saplingTree } b.vtx
    let v := s.view.pushAnchor root s.saplingTree
    rejectIf (networkUpgradeActive pindex.nHeight params.upgradeV5_0 &&
      b.hashFinalSaplingRoot != root s.saplingTree) "bad-sapling-root-in-block"
    checkMint params ctx pindex b s.nFees s.nValueIn s.nValueOut
    .ok (s.vtxundo, v)

/-- `ConnectBlock`, with the undo data that it writes. -/
def connectBlock (fJustCheck : Bool) (b : Block) (pindex : BlockEntry) (v : CoinsViewCache) :
    Outcome (Option BlockUndo × CoinsViewCache) := do
  checkBlock params ctx.toBlockContext (!fJustCheck) b
  let hashPrevBlock := (pindex.pprev.map (·.hash)).getD 0
  let (hashBest, v) := v.getBestBlock
  assert (hashPrevBlock == hashBest) "hashPrevBlock == view.GetBestBlock()"
  let isV6UpgradeEnforced := networkUpgradeActive pindex.nHeight params.upgradeV6_0
  rejectIf (!isV6UpgradeEnforced && b.isProofOfStake &&
    !b.vtx.head?.any fun coinbase => coinbase.vout.length == 1 && coinbase.vout.all TxOut.isEmpty)
    "bad-cb-pos"
  rejectIf (pindex.pprev.isSome && isV6UpgradeEnforced && !ctx.verifyBestBlock)
    "Found EvoDB inconsistency, you must reindex to continue"
  if b.hash = params.hashGenesisBlock then
    .ok (none, if fJustCheck then v else v.setBestBlock b.hash)
  else do
    checkBlockContext params pindex b
    let (vtxundo, v) ← connectTransactions root params ctx pindex b v
    .ok (if fJustCheck then (none, v) else (some vtxundo, v.setBestBlock b.hash))

end

/-! ### Disconnecting a block -/

/-- What `DisconnectBlock` is told besides the block. -/
structure DisconnectContext where
  /-- Whether the masternode database has the block as its best block. -/
  verifyBestBlock : Bool
  undoSpecialTxs : Bool
  disconnectZerocoinTx : Transaction → Bool

def maxOutputsPerBlock : Nat := 2000000 / 9

namespace CoinsViewCache

/-- Some unspent coin of a transaction, searched from an index on. -/
def accessByTxidFrom (txid : Uint256) : Nat → UInt32 → CoinsViewCache → Coin × CoinsViewCache
  | 0, _, v => (.empty, v)
  | k + 1, n, v =>
    let (alternate, v) := v.accessCoin ⟨txid, n⟩
    if !alternate.isSpent then (alternate, v) else accessByTxidFrom txid k (n + 1) v

variable (v : CoinsViewCache)

def accessByTxid (txid : Uint256) : Coin × CoinsViewCache :=
  accessByTxidFrom txid maxOutputsPerBlock 0 v

/-- Restore a spent coin; false when a coin was there already. -/
def applyTxInUndo (undo : Coin) (out : OutPoint) : Outcome (Bool × CoinsViewCache) := do
  let (found, v) := v.haveCoin out
  -- old undo data may lack the height and the flags
  let (undo, v) ←
    if undo.nHeight = 0 then
      let (alternate, v) := v.accessByTxid out.hash
      if alternate.isSpent then
        .error (.reject "adding output for transaction without known metadata")
      else
        .ok ({ undo with
          nHeight := alternate.nHeight
          fCoinBase := alternate.fCoinBase
          fCoinStake := alternate.fCoinStake }, v)
    else .ok (undo, v)
  let v ← v.addCoin out undo found
  .ok (!found, v)

/-- Remove the outputs; false when one of them was not there as it is in the transaction. -/
def removeOutputs (outputs : List (OutPoint × TxOut)) : Bool × CoinsViewCache :=
  outputs.foldl (fun (fClean, v) (o, out) =>
    if !Script.isUnspendable out.scriptPubKey && !out.isZerocoinMint then
      let (coin, v) := v.spendCoin o
      (fClean && out == (coin.getD .empty).out, v)
    else (fClean, v)) (true, v)

/-- Restore the inputs, the last one first. -/
def restoreInputs (v : CoinsViewCache) : List (TxIn × Coin) → Outcome (Bool × CoinsViewCache)
  | [] => .ok (true, v)
  | (txin, undo) :: inputs => do
    let (fClean, v) ← v.restoreInputs inputs
    let (fRestored, v) ← v.applyTxInUndo undo txin.prevout
    .ok (fClean && fRestored, v)

end CoinsViewCache

section
variable (root : SaplingMerkleTree → Uint256) (params : ConsensusParams) (ctx : DisconnectContext)

/-- Take one transaction back. A coinbase or a zerocoin spend has no coins to restore. -/
def disconnectTx (v : CoinsViewCache) (tx : Transaction) (undo : TxUndo) :
    Outcome (Bool × CoinsViewCache) := do
  rejectIf (!ctx.disconnectZerocoinTx tx) "DisconnectZerocoinTx"
  let (fClean, v) := v.removeOutputs tx.outputs
  if tx.spendsCoins then do
    let v := v.setNullifiers tx false
    rejectIf (undo.length != tx.vin.length) "transaction and undo data inconsistent"
    let (fRestored, v) ← v.restoreInputs (tx.vin.zip undo)
    .ok (fClean && fRestored, v)
  else .ok (fClean, v)

/-- Take transactions back, the last one first. -/
def disconnectTxs (v : CoinsViewCache) : List (Transaction × TxUndo) → Outcome (Bool × CoinsViewCache)
  | [] => .ok (true, v)
  | (tx, undo) :: txs => do
    let (fClean, v) ← disconnectTxs v txs
    let (fTx, v) ← disconnectTx ctx v tx undo
    .ok (fClean && fTx, v)

/-- The anchor before a block: it is in the header of the block before if that is a block of
the Sapling period. -/
def PrevEntry.finalSaplingRoot (pprev : PrevEntry) : Uint256 :=
  if networkUpgradeActive pprev.nHeight params.upgradeV5_0 then pprev.hashFinalSaplingRoot
  else root .empty

/-- `DisconnectBlock`. A result is `DISCONNECT_OK` (true) or `DISCONNECT_UNCLEAN` (false);
`DISCONNECT_FAILED` is a failure, after which the view is of no use. -/
def disconnectBlock (b : Block) (pindex : BlockEntry) (blockUndo : BlockUndo) (v : CoinsViewCache) :
    Outcome (Bool × CoinsViewCache) := do
  rejectIf (networkUpgradeActive pindex.nHeight params.upgradeV6_0 && !ctx.verifyBestBlock)
    "Found EvoDB inconsistency, you must reindex to continue"
  rejectIf (blockUndo.length + 1 != b.vtx.length) "block and undo data inconsistent"
  rejectIf (!ctx.undoSpecialTxs) "UndoSpecialTxsInBlock"
  -- the undo data starts at the second transaction
  let (fClean, v) ← disconnectTxs ctx v (b.vtx.zip ([] :: blockUndo))
  match pindex.pprev with
  | none => .error (.abort "pindex->pprev")
  | some pprev => do
    let v ← v.popAnchor root (pprev.finalSaplingRoot root params)
    .ok (fClean, v.setBestBlock pprev.hash)

end

end KmushiCoin
