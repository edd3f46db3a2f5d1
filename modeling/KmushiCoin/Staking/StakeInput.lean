import KmushiCoin.Coins.View
import KmushiCoin.Staking.Kernel

/-!
# KmushiCoin.Staking.StakeInput

The **proof-of-stake check** of a block, as a node makes it when the block
arrives: `checkProofOfStake` finds the stake input, builds the kernel, compares
its hash with the weighted target and verifies the signature.

The stake input is resolved in the node's **active chain**: in the coins of the
tip (`NodeState.accessCoin`), or by a transaction lookup (`getTransaction`) whose
answer has to lie in the active chain. The block can be on another branch. What
the check should judge is the coin on the block's own branch, `branchStake`.

* `newKtvStake_eq` says what the lookup finds;
* `sees_branch_iff` says in which states this is the coin of the block's branch,
  with the kernel that belongs to it;
* two such states come to the same verdict.
-/

namespace KmushiCoin

open Option

open Codec (Bytes toLE ofLE)

/-! ### The block index -/

/-- What the index and the block files hold for a block. -/
structure IndexEntry where
  hash : Uint256
  nTime : UInt32
  nStakeModifierV1 : UInt64
  /-- Whether the block generated a modifier of the first kind. -/
  generatedStakeModifier : Bool
  stakeModifierV2 : Uint256
  vtx : List Transaction
  deriving DecidableEq

/-- A block of the index, with its ancestors. -/
inductive ChainIndex
  | genesis (entry : IndexEntry)
  | child (pprev : ChainIndex) (entry : IndexEntry)
  deriving DecidableEq

variable {tip p : ChainIndex} {txid : Uint256} {tx : Transaction} {coin : Coin}

namespace ChainIndex

def entry : ChainIndex → IndexEntry
  | genesis e => e
  | child _ e => e

def hash (p : ChainIndex) : Uint256 := p.entry.hash

def nTime (p : ChainIndex) : UInt32 := p.entry.nTime

def nHeight : ChainIndex → Nat
  | genesis _ => 0
  | child p _ => p.nHeight + 1

/-- The chain that ends in a block, from the first one. -/
def branch : ChainIndex → List ChainIndex
  | genesis e => [genesis e]
  | child p e => p.branch ++ [child p e]

@[simp] theorem length_branch (p : ChainIndex) : p.branch.length = p.nHeight + 1 := by
  induction p with
  | genesis e => rfl
  | child p e ih => simp [branch, nHeight, ih]

/-- A block stands in its chain at its height. -/
theorem nHeight_of_getElem? {h : Nat} (hp : tip.branch[h]? = some p) : p.nHeight = h := by
  induction tip with
  | genesis e =>
    rw [branch, List.getElem?_singleton] at hp
    split_ifs at hp with hzero
    rw [← some.inj hp, hzero, nHeight]
  | child q e ih =>
    rw [branch, List.getElem?_append] at hp
    split_ifs at hp with hlt
    · exact ih hp
    · rw [List.getElem?_singleton] at hp
      split_ifs at hp with hzero
      rw [← some.inj hp, nHeight]
      rw [length_branch] at hlt hzero
      omega

theorem getElem?_branch (hp : p ∈ tip.branch) : tip.branch[p.nHeight]? = some p := by
  obtain ⟨h, hh⟩ := List.mem_iff_getElem?.1 hp
  rwa [nHeight_of_getElem? hh]

/-- `chainActive.Contains`, with this tip. -/
def contains (tip p : ChainIndex) : Bool := tip.branch[p.nHeight]? == some p

theorem contains_iff : tip.contains p = true ↔ p ∈ tip.branch := by
  rw [contains, beq_iff_eq]
  exact ⟨fun h => List.mem_of_getElem? h, getElem?_branch⟩

/-- The transaction with a hash in a block. -/
def findTx (p : ChainIndex) (txid : Uint256) : Option Transaction :=
  p.entry.vtx.find? (·.hash = txid)

/-- The last block of a chain that holds a transaction, with the transaction. -/
def lastHolder (txid : Uint256) : ChainIndex → Option (ChainIndex × Transaction)
  | genesis e => ((genesis e).findTx txid).map (genesis e, ·)
  | child p e =>
    match (child p e).findTx txid with
    | some tx => some (child p e, tx)
    | none => lastHolder txid p

theorem lastHolder_some (h : lastHolder txid tip = some (p, tx))
    : p ∈ tip.branch ∧ p.findTx txid = some tx := by
  induction tip with
  | genesis e =>
    rw [lastHolder, map_eq_some_iff] at h
    obtain ⟨t, ht, heq⟩ := h
    cases heq
    exact ⟨by simp [branch], ht⟩
  | child q e ih =>
    rw [lastHolder] at h
    split at h
    · next t ht =>
      cases h
      exact ⟨by simp [branch], ht⟩
    · exact ⟨by simp [branch, (ih h).1], (ih h).2⟩

/-- No block of a chain holds a transaction that has no last holder. -/
theorem findTx_eq_none (h : lastHolder txid tip = none) (hp : p ∈ tip.branch)
    : p.findTx txid = none := by
  induction tip with
  | genesis e =>
    rw [lastHolder, map_eq_none_iff] at h
    rw [branch, List.mem_singleton] at hp
    rw [hp, h]
  | child q e ih =>
    rw [lastHolder] at h
    split at h
    · cases h
    · next hnone =>
      rw [branch, List.mem_append, List.mem_singleton] at hp
      rcases hp with hp | rfl
      · exact ih h hp
      · exact hnone

end ChainIndex

open ChainIndex

/-! ### The state of a node -/

/-- The parts of a node's state that the check reads. -/
structure NodeState where
  mapBlockIndex : FMap Uint256 ChainIndex
  /-- The tip of the active chain. -/
  tip : ChainIndex
  /-- The coins that `pcoinsTip` has as unspent. -/
  coinsTip : FMap OutPoint Coin
  mempool : FMap Uint256 Transaction
  /-- The transaction index, if the node keeps one: the block whose file position it holds. -/
  txIndex : Option (FMap Uint256 ChainIndex)

namespace NodeState

/-- `MAX_OUTPUTS_PER_BLOCK`: the block size by the size of the smallest output. -/
def maxOutputsPerBlock : Nat := 2000000 / 9

/-- `AccessByTxid`: the first unspent output of a transaction. -/
def accessByTxid (s : NodeState) (txid : Uint256) : Option Coin :=
  (List.range maxOutputsPerBlock).findSome? fun n => s.coinsTip[(⟨txid, UInt32.ofNat n⟩ : OutPoint)]?

theorem accessByTxid_some {s : NodeState} (h : s.accessByTxid txid = some coin) :
    ∃ n : UInt32, s.coinsTip[(⟨txid, n⟩ : OutPoint)]? = some coin := by
  rw [accessByTxid] at h
  obtain ⟨n, -, hn⟩ := List.exists_of_findSome?_eq_some h
  exact ⟨UInt32.ofNat n, hn⟩

/-- `GetTransaction` with the slow lookup allowed: the transaction and the hash of its block,
null for one of the pool. -/
def getTransaction (s : NodeState) (hash : Uint256) : Option (Transaction × Uint256) :=
  match s.mempool[hash]? with
  | some tx => some (tx, 0)
  | none =>
    match s.txIndex with
    | some index => do
      let pindex ← index[hash]?
      let tx ← pindex.findTx hash
      return (tx, pindex.hash)
    | none => do
      let coin ← s.accessByTxid hash
      let pindexSlow ← s.tip.branch[coin.nHeight.toNat]?
      let tx ← pindexSlow.findTx hash
      return (tx, pindexSlow.hash)

end NodeState

open NodeState

/-! ### The stake input -/

/-- The consensus parameters and the functions that the check calls. -/
structure StakeEnv where
  activationV3_4 : Nat
  activationZCPublic : Nat
  activationZCV2 : Nat
  height_last_ZC_AccumCheckpoint : Int
  nStakeMinAge : UInt32
  nStakeMinDepth : Int
  hash : Bytes → Uint256
  /-- `VerifyScript` of the first input of a transaction against an output; the text of the
  error if it fails. -/
  verifyScript : Transaction → TxIn → TxOut → Except String Unit
  /-- The kernel of a legacy zerocoin stake, read on the chain with this tip. -/
  zposKernel : (tip pindexPrev : ChainIndex) → TxIn → Option StakeKernel

/-- The data of the block that the check reads. -/
structure StakeBlock where
  vtx : List Transaction
  nTime : UInt32
  nBits : BitVec 32

/-- The coinstake of a proof-of-stake block and its first input. -/
def StakeBlock.stakeInput (block : StakeBlock) : Option (Transaction × TxIn) := do
  let tx ← block.vtx[1]?
  let txin ← tx.vin.head?
  if tx.isCoinStake then some (tx, txin) else none

/-- `CKtvStake`. -/
structure KtvStake where
  outputFrom : TxOut
  outpointFrom : OutPoint
  pindexFrom : ChainIndex
  deriving DecidableEq

namespace StakeEnv

variable (env : StakeEnv)

/-- `HasStakeMinAgeOrDepth`. The sum of the times is one of 32-bit words. -/
def hasStakeMinAgeOrDepth (nHeight : Nat) (nTime : UInt32) (pindex : ChainIndex) : Bool :=
  if env.activationZCPublic ≤ nHeight + 1 then
    if nHeight < env.activationV3_4 then decide (pindex.nTime + env.nStakeMinAge ≤ nTime)
    else decide (env.nStakeMinDepth ≤ (nHeight : Int) - pindex.nHeight)
  else true

/-- `NewKtvStake`; nothing for a null pointer. -/
def newKtvStake (s : NodeState) (txin : TxIn) (nHeight : Nat) (nTime : UInt32) :
    Outcome (Option KtvStake) :=
  if txin.isZerocoinSpend then .ok none
  else
    match s.coinsTip[txin.prevout]? with
    | some coin =>
      match s.tip.branch[coin.nHeight.toNat]? with
      | none => .error (.abort "chainActive[coin.nHeight]")
      | some p =>
        match s.mapBlockIndex[p.hash]? with
        | none => .error (.throw "map::at")
        | some pindexFrom =>
          if env.hasStakeMinAgeOrDepth nHeight nTime pindexFrom then
            .ok (some ⟨coin.out, txin.prevout, pindexFrom⟩)
          else .ok none
    | none =>
      match s.getTransaction txin.prevout.hash with
      | none => .ok none
      | some (txPrev, hashBlock) =>
        match s.mapBlockIndex[hashBlock]? with
        | none => .ok none
        | some pindex =>
          if s.tip.contains pindex then
            if env.hasStakeMinAgeOrDepth nHeight nTime pindex then
              -- the index is not checked against the number of outputs
              match txPrev.vout[txin.prevout.n.toNat]? with
              | none => .error (.abort "vout[prevout.n]")
              | some out => .ok (some ⟨out, txin.prevout, pindex⟩)
            else .ok none
          else .ok none

/-- The loop of `GetOldModifier`, over the blocks after the stake's. -/
def walkModifier (limit : Nat) : Nat → List ChainIndex → Option UInt64
  | _, [] => none
  | nStakeModifierTime, p :: rest =>
    let time := if p.entry.generatedStakeModifier then p.nTime.toNat else nStakeModifierTime
    if time < limit then walkModifier limit time rest else some p.entry.nStakeModifierV1

/-- `GetOldStakeModifier` for a coin: zero where none is found. `OLD_MODIFIER_INTERVAL` is 2087
seconds. -/
def oldStakeModifier (tip pindexFrom : ChainIndex) : UInt64 :=
  (walkModifier (pindexFrom.nTime.toNat + 2087) pindexFrom.nTime.toNat
    (tip.branch.drop (pindexFrom.nHeight + 1))).getD 0

/-- `GetUniqueness`. -/
def uniqueness (o : OutPoint) : Bytes := toLE 4 o.n.toNat ++ toLE 32 o.hash.val

/-- The constructor of `CStakeKernel` for a coin; a modifier of the first kind is read on the
chain with the given tip. -/
def makeKernel (tip pindexPrev : ChainIndex) (stake : KtvStake) (block : StakeBlock) :
    StakeKernel :=
  { stakeModifier :=
      if pindexPrev.nHeight + 1 < env.activationV3_4 then
        toLE 8 (oldStakeModifier tip stake.pindexFrom).toNat
      else toLE 32 pindexPrev.entry.stakeModifierV2.val
    nTimeBlockFrom := stake.pindexFrom.nTime.toNat
    stakeUniqueness := uniqueness stake.outpointFrom
    nTime := block.nTime.toNat
    nBits := block.nBits
    stakeValue := stake.outputFrom.nValue }

/-- Whether `NewZKtvStake` goes beyond its check of the height. -/
def zposInForce (nHeight : Nat) : Bool :=
  decide (env.activationZCV2 ≤ nHeight) && decide ((nHeight : Int) < env.height_last_ZC_AccumCheckpoint)

/-- The kernel of a zerocoin stake, on the chain with the given tip. -/
def zerocoinKernel (tip pindexPrev : ChainIndex) (txin : TxIn) : Option StakeKernel :=
  if env.zposInForce (pindexPrev.nHeight + 1) then env.zposKernel tip pindexPrev txin else none

/-- `LoadStakeInput` for the input of a coinstake, with the kernel that is built from it. A
zerocoin stake has no coin. -/
def loadKernel (s : NodeState) (pindexPrev : ChainIndex) (block : StakeBlock) (txin : TxIn) :
    Outcome (Option (StakeKernel × Option KtvStake)) :=
  if txin.isZerocoinSpend then
    .ok ((env.zerocoinKernel s.tip pindexPrev txin).map (·, none))
  else do
    let stake ← env.newKtvStake s txin (pindexPrev.nHeight + 1) block.nTime
    return stake.map fun st => (env.makeKernel s.tip pindexPrev st block, some st)

/-- The part of `CheckProofOfStake` after the kernel is built. -/
def judgeKernel (tx : Transaction) (txin : TxIn) :
    Option (StakeKernel × Option KtvStake) → Outcome Unit
  | none => .error (.reject "stake input initialization failed")
  | some (kernel, stake) => do
    let res ← kernel.checkKernelHash env.hash
    rejectIf (!res) "kernel hash check fails"
    match stake with
    -- the input signature of a zerocoin stake is in the coin spend
    | none => return ()
    | some st =>
      match env.verifyScript tx txin st.outputFrom with
      | .error serror => .error (.reject ("signature fails: " ++ serror))
      | .ok _ => return ()

/-- `CheckProofOfStake` for a block on top of `pindexPrev`. -/
def checkProofOfStake (s : NodeState) (block : StakeBlock) (pindexPrev : ChainIndex) :
    Outcome Unit :=
  match block.stakeInput with
  | none => .error (.reject "stake input initialization failed")
  | some (tx, txin) => do
    let kernel ← env.loadKernel s pindexPrev block txin
    env.judgeKernel tx txin kernel

/-! ### What the lookup finds -/

/-- Whether the lookup comes to a transaction of the active chain: the output is unspent there, or
the transaction is not in the pool and is found in the index or, without an index, has another
unspent output. -/
def Located (s : NodeState) (o : OutPoint) : Prop :=
  s.coinsTip[o]?.isSome ∨
    (s.mempool[o.hash]? = none ∧
      match s.txIndex with
      | some index => index[o.hash]?.isSome
      | none => (s.accessByTxid o.hash).isSome)

end StakeEnv

/-- What holds between the parts of a node's state. -/
structure NodeState.Consistent (s : NodeState) : Prop where
  /-- The blocks of the active chain are in the index. -/
  indexed : ∀ p ∈ s.tip.branch, s.mapBlockIndex[p.hash]? = some p
  /-- No block has the null hash. -/
  null : s.mapBlockIndex[(0 : Uint256)]? = none
  /-- A coin is an output of the last block of the active chain that holds its transaction. -/
  coin : ∀ (o : OutPoint) (c : Coin), s.coinsTip[o]? = some c → ∃ p tx,
    lastHolder o.hash s.tip = some (p, tx) ∧ c.nHeight.toNat = p.nHeight ∧
      tx.vout[o.n.toNat]? = some c.out
  /-- The transaction index is written when a block is connected. -/
  txIndex : ∀ index, s.txIndex = some index → ∀ txid p tx,
    lastHolder txid s.tip = some (p, tx) → index[txid]? = some p
  /-- The blocks that the transaction index refers to are in the block index. -/
  txIndexed : ∀ index, s.txIndex = some index → ∀ (txid : Uint256) p,
    index[txid]? = some p → s.mapBlockIndex[p.hash]? = some p

namespace StakeEnv

variable {env : StakeEnv} {s : NodeState} {txin : TxIn} {nHeight : Nat} {nTime : UInt32}

/-- A stake of the transaction that a block holds. -/
def stakeFrom (env : StakeEnv) (txin : TxIn) (nHeight : Nat) (nTime : UInt32) :
    ChainIndex × Transaction → Outcome (Option KtvStake)
  | (p, tx) =>
    if env.hasStakeMinAgeOrDepth nHeight nTime p then
      match tx.vout[txin.prevout.n.toNat]? with
      | none => .error (.abort "vout[prevout.n]")
      | some out => .ok (some ⟨out, txin.prevout, p⟩)
    else .ok none

/-- What the transaction lookup finds in the active chain. -/
theorem getTransaction_found (hc : s.Consistent) (hpool : s.mempool[txid]? = none)
    (hfound : match s.txIndex with | some index => index[txid]?.isSome | none => (s.accessByTxid txid).isSome)
    (hlast : lastHolder txid s.tip = some (p, tx)) :
    s.getTransaction txid = some (tx, p.hash) := by
  obtain ⟨hmem, htx⟩ := lastHolder_some hlast
  rw [getTransaction, hpool]
  cases hindex : s.txIndex with
  | some index => simp [hc.txIndex index hindex txid p tx hlast, htx]
  | none =>
    rw [hindex] at hfound
    obtain ⟨coin, hcoin⟩ := isSome_iff_exists.1 hfound
    obtain ⟨n, hn⟩ := accessByTxid_some hcoin
    obtain ⟨q, t, hq, hheight, -⟩ := hc.coin _ _ hn
    rw [hlast] at hq
    cases hq
    simp [hcoin, hheight, getElem?_branch hmem, htx]

/-- The lookup by its branches, for a transaction that is not in the pool. -/
theorem getTransaction_indexed {index} (hpool : s.mempool[txid]? = none)
    (hindex : s.txIndex = some index) :
    s.getTransaction txid = index[txid]?.bind fun p => (p.findTx txid).map (·, p.hash) := by
  rw [getTransaction, hpool, hindex]
  exact congrArg (bind _) (funext fun p => by cases p.findTx txid <;> rfl)

theorem getTransaction_unlocated (hpool : s.mempool[txid]? = none) (hindex : s.txIndex = none)
    (hcoin : s.accessByTxid txid = none) : s.getTransaction txid = none := by
  rw [getTransaction, hpool, hindex, hcoin]
  rfl

/-- What the check makes of a transaction that is not found, or found off the active chain. -/
theorem newKtvStake_unfound (hz : txin.isZerocoinSpend = false)
    (hcoin : s.coinsTip[txin.prevout]? = none)
    (hget : ∀ tx hashBlock, s.getTransaction txin.prevout.hash = some (tx, hashBlock) →
      ∀ p, s.mapBlockIndex[hashBlock]? = some p → s.tip.contains p = false) :
    env.newKtvStake s txin nHeight nTime = .ok none := by
  simp only [newKtvStake, hz, Bool.false_eq_true, if_false, hcoin]
  cases htx : s.getTransaction txin.prevout.hash with
  | none => rfl
  | some x =>
    cases hp : s.mapBlockIndex[x.2]? with
    | none => simp only [hp]
    | some p => simp only [hp, hget _ _ htx p hp, Bool.false_eq_true, if_false]

/-- Nothing of another chain comes out of the transaction lookup. -/
theorem getTransaction_foreign (hc : s.Consistent) (hpool : s.mempool[txid]? = none)
    (hlast : lastHolder txid s.tip = none) {hashBlock : Uint256}
    (h : s.getTransaction txid = some (tx, hashBlock)) (hp : s.mapBlockIndex[hashBlock]? = some p)
    : s.tip.contains p = false := by
  cases hindex : s.txIndex with
  | none =>
    -- a coin of the transaction would be an output of a block of the active chain
    have hnone : s.accessByTxid txid = none := by
      by_contra hne
      obtain ⟨coin, hcoin⟩ := ne_none_iff_exists'.1 hne
      obtain ⟨n, hn⟩ := accessByTxid_some hcoin
      obtain ⟨q, t, hq, -⟩ := hc.coin _ _ hn
      rw [hlast] at hq
      cases hq
    rw [getTransaction_unlocated hpool hindex hnone] at h
    cases h
  | some index =>
    rw [getTransaction_indexed hpool hindex, bind_eq_some_iff] at h
    obtain ⟨q, hq, hfound⟩ := h
    obtain ⟨t, ht, heq⟩ := map_eq_some_iff.1 hfound
    cases heq
    rw [hc.txIndexed index hindex _ q hq] at hp
    cases hp
    by_contra hin
    rw [Bool.not_eq_false, contains_iff] at hin
    rw [findTx_eq_none hlast hin] at ht
    cases ht

/-- **What the lookup finds**, in a consistent state: the stake in the last block of the active
chain that holds the transaction, if it is located. -/
theorem newKtvStake_located (hc : s.Consistent)
    (hz : txin.isZerocoinSpend = false) (hloc : Located s txin.prevout)
    {x}
    (hlast : lastHolder txin.prevout.hash s.tip = some x) :
    env.newKtvStake s txin nHeight nTime = env.stakeFrom txin nHeight nTime x := by
  obtain ⟨p, tx⟩ := x
  have hmem := (lastHolder_some hlast).1
  cases hcoin : s.coinsTip[txin.prevout]? with
  | some coin =>
    obtain ⟨q, t, hq, hheight, hout⟩ := hc.coin _ _ hcoin
    rw [hlast] at hq
    cases hq
    simp only [newKtvStake, hz, Bool.false_eq_true, if_false, hcoin, hheight,
      getElem?_branch hmem, hc.indexed p hmem, stakeFrom, hout]
  | none =>
    have hfound := hloc.resolve_left (by simp [hcoin])
    simp only [newKtvStake, hz, Bool.false_eq_true, if_false, hcoin,
      getTransaction_found hc hfound.1 hfound.2 hlast, hc.indexed p hmem,
      contains_iff.2 hmem, if_true, stakeFrom]

theorem newKtvStake_lost (hc : s.Consistent) (hz : txin.isZerocoinSpend = false)
    (h : ¬Located s txin.prevout ∨ lastHolder txin.prevout.hash s.tip = none) :
    env.newKtvStake s txin nHeight nTime = .ok none := by
  have hcoin : s.coinsTip[txin.prevout]? = none := by
    by_contra hne
    obtain ⟨coin, hcoin⟩ := ne_none_iff_exists'.1 hne
    rcases h with hloc | hlast
    · exact hloc (.inl (by simp [hcoin]))
    · obtain ⟨p, tx, hp, -⟩ := hc.coin _ _ hcoin
      rw [hlast] at hp
      cases hp
  refine newKtvStake_unfound hz hcoin fun tx hashBlock hget p hp => ?_
  cases hpool : s.mempool[txin.prevout.hash]? with
  | some t =>
    rw [getTransaction, hpool] at hget
    cases hget
    rw [hc.null] at hp
    cases hp
  | none =>
    rcases h with hloc | hlast
    · simp only [Located, hcoin, hpool, isSome_none, Bool.false_eq_true, false_or,
        true_and] at hloc
      cases hindex : s.txIndex with
      | none =>
        simp only [hindex, not_isSome_iff_eq_none] at hloc
        rw [getTransaction_unlocated hpool hindex hloc] at hget
        cases hget
      | some index =>
        simp only [hindex, not_isSome_iff_eq_none] at hloc
        rw [getTransaction_indexed hpool hindex, hloc] at hget
        cases hget
    · exact getTransaction_foreign hc hpool hlast hget hp

/-! ### The coin on the block's own branch -/

/-- The stake that the branch of the block has for an input: the output of the last block that
holds its transaction, if that block is old or deep enough. -/
def branchStake (env : StakeEnv) (pindexPrev : ChainIndex) (txin : TxIn) (nTime : UInt32) :
    Option KtvStake :=
  match lastHolder txin.prevout.hash pindexPrev with
  | none => none
  | some (p, tx) =>
    if env.hasStakeMinAgeOrDepth (pindexPrev.nHeight + 1) nTime p then
      tx.vout[txin.prevout.n.toNat]?.map fun out => ⟨out, txin.prevout, p⟩
    else none

/-- The kernel and the stake that the branch of the block has. -/
def branchKernel (env : StakeEnv) (pindexPrev : ChainIndex) (block : StakeBlock) (txin : TxIn) :
    Option (StakeKernel × Option KtvStake) :=
  if txin.isZerocoinSpend then
    (env.zerocoinKernel pindexPrev pindexPrev txin).map (·, none)
  else
    (env.branchStake pindexPrev txin block.nTime).map fun st =>
      (env.makeKernel pindexPrev pindexPrev st block, some st)

/-- **The condition on a state.** Where the branch has the stake, the node locates the
transaction and its active chain holds it in the same block (and, under the modifiers of the
first kind, has the same modifier after it); where the branch has no stake, the active chain has
no block that the node would take for its origin. A zerocoin stake is read alike on both chains. -/
def StakeOnBranch (env : StakeEnv) (s : NodeState) (pindexPrev : ChainIndex) (block : StakeBlock)
    (txin : TxIn) : Prop :=
  if txin.isZerocoinSpend then
    env.zerocoinKernel s.tip pindexPrev txin = env.zerocoinKernel pindexPrev pindexPrev txin
  else
    match env.branchStake pindexPrev txin block.nTime with
    | some st =>
      Located s txin.prevout ∧
        (∃ tx, lastHolder txin.prevout.hash s.tip = some (st.pindexFrom, tx)) ∧
        (pindexPrev.nHeight + 1 < env.activationV3_4 →
          oldStakeModifier s.tip st.pindexFrom = oldStakeModifier pindexPrev st.pindexFrom)
    | none =>
      Located s txin.prevout → ∀ p tx,
        lastHolder txin.prevout.hash s.tip = some (p, tx) →
          env.hasStakeMinAgeOrDepth (pindexPrev.nHeight + 1) block.nTime p = false

variable {pindexPrev : ChainIndex} {block : StakeBlock}

variable {st : KtvStake}

theorem branchStake_some (h : env.branchStake pindexPrev txin nTime = some st) :
    ∃ tx, lastHolder txin.prevout.hash pindexPrev = some (st.pindexFrom, tx) ∧
      env.stakeFrom txin (pindexPrev.nHeight + 1) nTime (st.pindexFrom, tx) = .ok (some st) := by
  rw [branchStake] at h
  split at h
  · cases h
  · next p tx hlast =>
    split_ifs at h with haged
    obtain ⟨out, hout, heq⟩ := map_eq_some_iff.1 h
    subst heq
    exact ⟨tx, hlast, by simp [stakeFrom, haged, hout]⟩

theorem stakeFrom_some (h : env.stakeFrom txin nHeight nTime (p, tx) = .ok (some st))
    : st.pindexFrom = p := by
  rw [stakeFrom] at h
  split_ifs at h
  · split at h
    · cases h
    · cases h
      rfl
  · cases h

theorem stakeFrom_none : env.stakeFrom txin nHeight nTime (p, tx) = .ok none ↔
      env.hasStakeMinAgeOrDepth nHeight nTime p = false := by
  rw [stakeFrom]
  split_ifs with haged
  · simp only [haged, Bool.true_eq_false, iff_false]
    split <;> simp
  · simp [haged]

theorem toLE_uint64_inj {a b : UInt64} (h : toLE 8 a.toNat = toLE 8 b.toNat) : a = b := by
  have hval := congrArg ofLE h
  rw [Codec.ofLE_toLE a.toNat_lt, Codec.ofLE_toLE b.toNat_lt] at hval
  exact UInt64.toNat_inj.1 hval

/-- The active chain enters the kernel of a coin by the modifier of the first kind only. -/
theorem makeKernel_eq_iff :
    env.makeKernel tip pindexPrev st block = env.makeKernel pindexPrev pindexPrev st block ↔
      (pindexPrev.nHeight + 1 < env.activationV3_4 →
        oldStakeModifier tip st.pindexFrom = oldStakeModifier pindexPrev st.pindexFrom) := by
  simp only [makeKernel, StakeKernel.mk.injEq, and_true]
  split_ifs with hold
  · exact ⟨fun h _ => toLE_uint64_inj h, fun h => by rw [h hold]⟩
  · exact ⟨fun _ h => absurd h hold, fun _ => rfl⟩

/-- What the node loads, where it finds a stake and where it finds none. -/
theorem loadKernel_coin (hz : txin.isZerocoinSpend = false)
    (x : Option (StakeKernel × Option KtvStake)) : env.loadKernel s pindexPrev block txin = .ok x ↔
      ∃ stake, env.newKtvStake s txin (pindexPrev.nHeight + 1) block.nTime = .ok stake ∧
        stake.map (fun st => (env.makeKernel s.tip pindexPrev st block, some st)) = x := by
  simp only [loadKernel, hz, Bool.false_eq_true, if_false]
  rw [bind_ok]
  simp [pure, Except.pure]

theorem sees_stake_iff (hc : s.Consistent) (hz : txin.isZerocoinSpend = false)
    (hst : env.branchStake pindexPrev txin block.nTime = some st) :
    env.newKtvStake s txin (pindexPrev.nHeight + 1) block.nTime = .ok (some st) ↔
      Located s txin.prevout ∧
        ∃ tx, lastHolder txin.prevout.hash s.tip = some (st.pindexFrom, tx) := by
  obtain ⟨tx, hlast, hfrom⟩ := branchStake_some hst
  constructor
  · intro hload
    have hfound : ¬(¬Located s txin.prevout ∨ lastHolder txin.prevout.hash s.tip = none) := by
      intro hlost
      simp [newKtvStake_lost hc hz hlost] at hload
    push Not at hfound
    obtain ⟨⟨p, t⟩, hp⟩ := ne_none_iff_exists'.1 hfound.2
    rw [newKtvStake_located hc hz hfound.1 hp] at hload
    exact ⟨hfound.1, t, by rw [hp, stakeFrom_some hload]⟩
  · intro ⟨hloc, t, ht⟩
    -- the same block holds the same transaction
    have heq : t = tx :=
      mem_unique (lastHolder_some ht).2 (lastHolder_some hlast).2
    rw [newKtvStake_located hc hz hloc ht, heq, hfrom]

theorem sees_none_iff (hc : s.Consistent) (hz : txin.isZerocoinSpend = false) :
    env.newKtvStake s txin nHeight nTime = .ok none ↔ (Located s txin.prevout → ∀ p tx,
        lastHolder txin.prevout.hash s.tip = some (p, tx) →
          env.hasStakeMinAgeOrDepth nHeight nTime p = false) := by
  constructor
  · intro hload hloc p tx hlast
    rw [newKtvStake_located hc hz hloc hlast] at hload
    exact stakeFrom_none.1 hload
  · intro h
    by_cases hlost : ¬Located s txin.prevout ∨
        lastHolder txin.prevout.hash s.tip = none
    · exact newKtvStake_lost hc hz hlost
    · push Not at hlost
      obtain ⟨⟨p, tx⟩, hp⟩ := ne_none_iff_exists'.1 hlost.2
      rw [newKtvStake_located hc hz hlost.1 hp]
      exact stakeFrom_none.2 (h hlost.1 p tx hp)

/-- **In which states the branch's stake is judged.** -/
theorem sees_branch_iff (hc : s.Consistent) :
    env.loadKernel s pindexPrev block txin = .ok (env.branchKernel pindexPrev block txin) ↔
      StakeOnBranch env s pindexPrev block txin := by
  cases hz : txin.isZerocoinSpend with
  | true =>
    have hinj : Function.Injective fun k : StakeKernel => (k, (none : Option KtvStake)) :=
      fun _ _ h => (Prod.mk.inj h).1
    simp only [loadKernel, branchKernel, StakeOnBranch, hz, if_true, Except.ok.injEq]
    exact (map_injective hinj).eq_iff
  | false =>
    rw [loadKernel_coin hz]
    simp only [branchKernel, StakeOnBranch, hz, Bool.false_eq_true, if_false]
    cases hst : env.branchStake pindexPrev txin block.nTime with
    | some st =>
      dsimp only
      rw [← and_assoc, ← sees_stake_iff hc hz hst, ← makeKernel_eq_iff]
      constructor
      · intro ⟨stake, hload, hmap⟩
        obtain ⟨st', rfl, hpair⟩ := map_eq_some_iff.1 hmap
        obtain ⟨hk, hs⟩ := Prod.mk.inj hpair
        cases hs
        exact ⟨hload, hk⟩
      · intro ⟨hload, hk⟩
        exact ⟨some st, hload, by rw [map_some, hk]; rfl⟩
    | none =>
      dsimp only
      rw [← sees_none_iff hc hz]
      constructor
      · intro ⟨stake, hload, hmap⟩
        rwa [map_eq_none_iff.1 hmap] at hload
      · exact fun hload => ⟨none, hload, rfl⟩

/-! ### Two nodes -/

/-- Two nodes judge a block alike: the same verdict, on the kernel and the stake that the block's
own branch has. -/
def JudgedAlike (env : StakeEnv) (s₁ s₂ : NodeState) (block : StakeBlock)
    (pindexPrev : ChainIndex) : Prop :=
  env.checkProofOfStake s₁ block pindexPrev = env.checkProofOfStake s₂ block pindexPrev ∧
    ∀ tx txin, block.stakeInput = some (tx, txin) →
      env.loadKernel s₁ pindexPrev block txin = .ok (env.branchKernel pindexPrev block txin) ∧
      env.loadKernel s₂ pindexPrev block txin = .ok (env.branchKernel pindexPrev block txin)

/-- **When two nodes judge a block alike.** For every block index, parent and block, and any two
states whose active chains can differ: just when the stake is on the block's branch in both. -/
theorem judgedAlike_iff (env : StakeEnv) {s₁ s₂ : NodeState} (h₁ : s₁.Consistent)
    (h₂ : s₂.Consistent) (block : StakeBlock) (pindexPrev : ChainIndex) :
    JudgedAlike env s₁ s₂ block pindexPrev ↔ ∀ tx txin, block.stakeInput = some (tx, txin) →
        StakeOnBranch env s₁ pindexPrev block txin ∧
        StakeOnBranch env s₂ pindexPrev block txin := by
  unfold JudgedAlike
  simp only [sees_branch_iff h₁, sees_branch_iff h₂]
  -- both nodes load what the branch has
  refine and_iff_right_of_imp fun hon => ?_
  rw [checkProofOfStake, checkProofOfStake]
  cases hin : block.stakeInput with
  | none => rfl
  | some x =>
    obtain ⟨hon₁, hon₂⟩ := hon x.1 x.2 hin
    simp only [(sees_branch_iff h₁).2 hon₁, (sees_branch_iff h₂).2 hon₂]

end StakeEnv

/-! ### A coin that is spent on the other branch -/

namespace Sample

def stakedTx : Transaction :=
  { hash := 50, nVersion := 1, nType := .normal, vin := [], vout := [⟨104857600, [0x51]⟩]
    sapData := none, extraPayload := none }

def spendingTx : Transaction :=
  { hash := 51, nVersion := 1, nType := .normal, vin := [⟨⟨50, 0⟩, []⟩], vout := [⟨104857000, [0x51]⟩]
    sapData := none, extraPayload := none }

def indexEntry (hash : Uint256) (vtx : List Transaction) : IndexEntry :=
  { hash, nTime := 0, nStakeModifierV1 := 0, generatedStakeModifier := false, stakeModifierV2 := 0
    vtx }

/-- The block that holds the staked coin, the parent of the block to check, and two blocks beside
it, of which the first spends the coin. -/
def splitIndex : ChainIndex := .genesis (indexEntry 1 [stakedTx])

def parentIndex : ChainIndex := .child splitIndex (indexEntry 2 [])

def spendingIndex : ChainIndex := .child splitIndex (indexEntry 3 [spendingTx])

def idleIndex : ChainIndex := .child splitIndex (indexEntry 4 [])

/-- A node without a transaction index, with this tip and one coin. -/
def nodeOn (tip : ChainIndex) (o : OutPoint) (coin : Coin) : NodeState :=
  { mapBlockIndex := ((∅ : FMap Uint256 ChainIndex).insert 1 splitIndex).insert tip.hash tip
    tip, coinsTip := (∅ : FMap OutPoint Coin).insert o coin, mempool := ∅, txIndex := none }

/-- The node whose tip is the parent of the block. -/
def parentNode : NodeState := nodeOn parentIndex ⟨50, 0⟩ ⟨⟨104857600, [0x51]⟩, 0, false, false⟩

/-- A node whose active chain spends the coin in the block after the split. -/
def spendingNode : NodeState := nodeOn spendingIndex ⟨51, 0⟩ ⟨⟨104857000, [0x51]⟩, 1, false, false⟩

/-- A node whose active chain leaves the coin alone. -/
def idleNode : NodeState := nodeOn idleIndex ⟨50, 0⟩ ⟨⟨104857600, [0x51]⟩, 0, false, false⟩

theorem nodeOn_consistent {o}
    (hindex : ∀ p ∈ tip.branch, (nodeOn tip o coin).mapBlockIndex[p.hash]? = some p)
    (hnull : (nodeOn tip o coin).mapBlockIndex[(0 : Uint256)]? = none)
    (hcoin : ∃ p tx, lastHolder o.hash tip = some (p, tx) ∧ coin.nHeight.toNat = p.nHeight ∧ tx.vout[o.n.toNat]? = some coin.out) :
    (nodeOn tip o coin).Consistent where
  indexed := hindex
  null := hnull
  coin := by
    intro o' c hc
    rw [show (nodeOn tip o coin).coinsTip = (∅ : FMap OutPoint Coin).insert o coin from rfl,
      FMap.get_insert] at hc
    split_ifs at hc with heq
    · cases hc
      exact heq ▸ hcoin
    · simp at hc
  txIndex := fun _ h => nomatch h
  txIndexed := fun _ h => nomatch h

theorem parentNode_consistent : parentNode.Consistent :=
  nodeOn_consistent (by decide +kernel) (by decide +kernel)
    ⟨splitIndex, stakedTx, by decide +kernel, by decide, by decide⟩

theorem spendingNode_consistent : spendingNode.Consistent :=
  nodeOn_consistent (by decide +kernel) (by decide +kernel)
    ⟨spendingIndex, spendingTx, by decide +kernel, by decide, by decide⟩

theorem idleNode_consistent : idleNode.Consistent :=
  nodeOn_consistent (by decide +kernel) (by decide +kernel)
    ⟨splitIndex, stakedTx, by decide +kernel, by decide, by decide⟩

/-- The parameters of the main network, with a hash and a script check that always pass. -/
def stakeEnv : StakeEnv :=
  { activationV3_4 := 210, activationZCPublic := 99999999, activationZCV2 := 99999999
    height_last_ZC_AccumCheckpoint := 99999999, nStakeMinAge := 3600, nStakeMinDepth := 100
    hash := fun _ => 0, verifyScript := fun _ _ _ => .ok (), zposKernel := fun _ _ _ => none }

def stakeTxIn : TxIn := ⟨⟨50, 0⟩, []⟩

def coinstake : Transaction :=
  { hash := 61, nVersion := 1, nType := .normal, vin := [stakeTxIn]
    vout := [⟨0, []⟩, ⟨104857700, [0x51]⟩], sapData := none, extraPayload := none }

/-- A block on the parent that stakes the coin. -/
def stakeBlock : StakeBlock :=
  { vtx := [stakedTx, coinstake], nTime := 100, nBits := 0x1e080000 }

theorem stakeBlock_input : stakeBlock.stakeInput = some (coinstake, stakeTxIn) := by decide

theorem stakeBlock_branchStake : stakeEnv.branchStake parentIndex stakeTxIn stakeBlock.nTime =
    some ⟨⟨104857600, [0x51]⟩, ⟨50, 0⟩, splitIndex⟩ := by
  decide +kernel

theorem stake_located_on (s : NodeState) (hcoin : s.coinsTip[stakeTxIn.prevout]?.isSome = true)
    (hlast : lastHolder 50 s.tip = some (splitIndex, stakedTx))
    (hmod : StakeEnv.oldStakeModifier s.tip splitIndex = 0) :
    StakeEnv.StakeOnBranch stakeEnv s parentIndex stakeBlock stakeTxIn := by
  have hz : stakeTxIn.isZerocoinSpend = false := by decide
  simp only [StakeEnv.StakeOnBranch, hz, Bool.false_eq_true, if_false, stakeBlock_branchStake]
  exact ⟨.inl hcoin, ⟨stakedTx, hlast⟩, fun _ => by rw [hmod]; decide +kernel⟩

theorem parentNode_stake :
    StakeEnv.StakeOnBranch stakeEnv parentNode parentIndex stakeBlock stakeTxIn :=
  stake_located_on _ (by decide +kernel) (by decide +kernel) (by decide +kernel)

theorem idleNode_stake :
    StakeEnv.StakeOnBranch stakeEnv idleNode parentIndex stakeBlock stakeTxIn :=
  stake_located_on _ (by decide +kernel) (by decide +kernel) (by decide +kernel)

end Sample

namespace StakeEnv

open Sample

/-- Two tips that leave the coin unspent. -/
theorem parent_and_idle_alike : JudgedAlike stakeEnv parentNode idleNode stakeBlock
      parentIndex := by
  refine (judgedAlike_iff stakeEnv parentNode_consistent idleNode_consistent
    stakeBlock parentIndex).2 fun tx txin htx => ?_
  obtain ⟨-, rfl⟩ := Prod.mk.inj (Option.mem_unique stakeBlock_input htx)
  exact ⟨parentNode_stake, idleNode_stake⟩

/-- The node on the block's own branch accepts the block. To the one whose active chain spent the
coin after the split its transaction is lost: all its outputs are spent and there is no index. -/
theorem spent_elsewhere_rejected : parentNode.Consistent ∧ spendingNode.Consistent ∧
    stakeEnv.checkProofOfStake parentNode stakeBlock parentIndex = .ok () ∧
    stakeEnv.checkProofOfStake spendingNode stakeBlock parentIndex =
      .error (.reject "stake input initialization failed") := by
  have hz : stakeTxIn.isZerocoinSpend = false := by decide
  refine ⟨parentNode_consistent, spendingNode_consistent, by decide +kernel, ?_⟩
  have hcoins : ∀ o : OutPoint, o.hash = 50 → spendingNode.coinsTip[o]? = none := by
    intro o ho
    have hne : (⟨51, 0⟩ : OutPoint) ≠ o := fun heq => by
      rw [← heq] at ho
      exact absurd ho (by decide)
    exact (FMap.get_insert_ne hne).trans (FMap.get_empty o)
  have hlost : ¬Located spendingNode stakeTxIn.prevout := by
    have haccess : spendingNode.accessByTxid 50 = none :=
      List.findSome?_eq_none_iff.2 fun n _ => hcoins _ rfl
    rintro (hcoin | ⟨-, hfound⟩)
    · rw [hcoins _ rfl] at hcoin
      cases hcoin
    · change (spendingNode.accessByTxid 50).isSome at hfound
      rw [haccess] at hfound
      cases hfound
  have hload : stakeEnv.loadKernel spendingNode parentIndex
      stakeBlock stakeTxIn = .ok none := (loadKernel_coin hz none).2
    ⟨none, newKtvStake_lost spendingNode_consistent hz (.inl hlost), rfl⟩
  rw [checkProofOfStake, stakeBlock_input]
  simp only [hload]
  rfl

end StakeEnv

end KmushiCoin
