import KmushiCoin.Mempool.Pool
import KmushiCoin.Validation.CheckTransaction

/-!
# KmushiCoin.Mempool.Accept

**How transactions get into the pool**, and the operations of a run.

* `PoolEnv.accepts`: the checks of `AcceptToMemoryPool`. Those that concern the pool, and those
  that decide what its indexes can hold, are written out; the rest (finality, coins, limits,
  fees, special transactions against the tip, scripts) is a parameter.
* `PoolEnv.acceptToMemoryPool`: a transaction that passes is added, and the pool is trimmed.
* `PoolEnv.updateMempoolForReorg`: after blocks were disconnected, their transactions are
  accepted again or removed with all that depends on them; the links to those that were in the
  pool before are only made in the end.
* `PoolOp`, `PoolEnv.step`: the operations of the pool, one by one.
-/

namespace KmushiCoin

/-- What `AcceptToMemoryPool` knows of the node. -/
structure PoolEnv where
  params : ConsensusParams
  ctx : BlockContext
  /-- The checks against the chain. -/
  otherChecks : MemPool → TxInfo → Bool

/-- What the limits of the pool come to: entries older than `time` expire, and those that do not
fit are removed, the worst ones first. -/
structure PoolLimits where
  time : Int
  victims : List Uint256
  /-- The entries that the second call of `TrimToSize` removes. -/
  lateVictims : List Uint256

/-- `LimitMempoolSize`. -/
def MemPool.limitMempoolSize (p : MemPool) (limits : PoolLimits) : MemPool :=
  (p.expire limits.time).trimToSize limits.victims

namespace PoolEnv

variable (env : PoolEnv)

/-- The checks of `AcceptToMemoryPoolWorker`. What is not in a block may have no zerocoin
inputs. -/
def accepts (p : MemPool) (i : TxInfo) : Bool :=
  (checkTransaction env.params env.ctx i.tx).isOk &&
    !i.tx.hasZerocoinSpendInputs && !i.tx.isCoinBase && !i.tx.isCoinStake &&
    !p.existsProviderTxConflict i.tx && (p.mapTx[i.tx.hash]?).isNone &&
    i.tx.vin.all (fun txin => (p.idx.mapNextTx[txin.prevout]?).isNone) &&
    i.tx.shieldedSpends.all (fun sd => (p.idx.mapSaplingNullifiers[sd.nullifier]?).isNone) &&
    env.otherChecks p i

/-- `AcceptToMemoryPool`: the pool, and whether the transaction is in it. -/
def acceptToMemoryPool (fOverrideMempoolLimit : Bool) (p : MemPool) (i : TxInfo)
    (limits : PoolLimits) : MemPool × Bool :=
  if env.accepts p i then
    let p := p.addUnchecked i
    let p := if fOverrideMempoolLimit then p else p.limitMempoolSize limits
    if (p.mapTx[i.tx.hash]?).isSome then
      let p := p.trimToSize limits.lateVictims
      (p, (p.mapTx[i.tx.hash]?).isSome)
    else (p, false)
  else (p, false)

/-- One transaction of the blocks that were disconnected, with the hashes to update so far. -/
def resurrect (fAddToMempool : Bool) (s : MemPool × List Uint256) (d : TxInfo × PoolLimits) :
    MemPool × List Uint256 :=
  let i := d.1
  -- what depends on a masternode that is not registered any more
  let p := if i.tx.isSpecialTx && i.tx.nType == .proReg then s.1.removeProTxReferences i.tx.hash
    else s.1
  let r := env.acceptToMemoryPool true p i d.2
  if fAddToMempool && r.2 then (r.1, s.2 ++ [i.tx.hash])
  else ((if fAddToMempool then r.1 else p).removeRecursive i.tx, s.2)

/-- `UpdateMempoolForReorg`, with the disconnected transactions from the earliest on. -/
def updateMempoolForReorg (fAddToMempool : Bool) (queuedTx : List (TxInfo × PoolLimits))
    (view : MemPool.ReorgView) (limits : PoolLimits) (p : MemPool) : MemPool :=
  let s := queuedTx.foldl (env.resurrect fAddToMempool) (p, [])
  ((s.1.updateTransactionsFromBlock s.2).removeForReorg view).limitMempoolSize limits

end PoolEnv

/-! ### Runs -/

/-- The operations of the pool. -/
inductive PoolOp
  | accept (i : TxInfo) (limits : PoolLimits)
  | resurrect (i : TxInfo) (limits : PoolLimits)
  | removeRecursive (tx : Transaction)
  | removeForBlock (mnByCollateral : OutPoint → Option Uint256) (vtx : List Transaction)
  | removeForReorg (view : MemPool.ReorgView)
  | removeWithAnchor (invalidRoot : Uint256)
  | removeProTxReferences (proTxHash : Uint256)
  | expire (time : Int)
  | trimToSize (victims : List Uint256)
  | updateTransactionsFromBlock (vHashesToUpdate : List Uint256)
  | clear

/-- What an operation does to the pool. -/
def PoolEnv.step (env : PoolEnv) (p : MemPool) : PoolOp → MemPool
  | .accept i limits => (env.acceptToMemoryPool false p i limits).1
  | .resurrect i limits => (env.acceptToMemoryPool true p i limits).1
  | .removeRecursive tx => p.removeRecursive tx
  | .removeForBlock mnByCollateral vtx => p.removeForBlock mnByCollateral vtx
  | .removeForReorg view => p.removeForReorg view
  | .removeWithAnchor invalidRoot => p.removeWithAnchor invalidRoot
  | .removeProTxReferences proTxHash => p.removeProTxReferences proTxHash
  | .expire time => p.expire time
  | .trimToSize victims => p.trimToSize victims
  | .updateTransactionsFromBlock vHashesToUpdate => p.updateTransactionsFromBlock vHashesToUpdate
  | .clear => p.clear

end KmushiCoin
