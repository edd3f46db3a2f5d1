import KmushiCoin.Masternode.PaymentChecks

/-!
# KmushiCoin.Wallet.CoinStake

**`CreateCoinStake`.** The wallet goes through its coins until one has a kernel and makes the
coinstake from it. When the outputs cannot be made it goes on to the next coin, but the flag that a
kernel was found stays: if no other coin is tried, the search ends with success and without a stake
(`createCoinStake_iff`).
-/

namespace KmushiCoin

/-- A stakeable coin, with what the wallet finds when it comes to it. -/
structure StakeableOutput where
  prevout : OutPoint
  out : TxOut
  /-- A new block came in, the wallet is locked or the node shuts down. -/
  interrupted : Bool := false
  isSpent : Bool := false
  /-- The answer of `Stake`. -/
  kernelFound : Bool := false

/-- The inputs and outputs of the coinstake, from the marker on. -/
structure CoinStakeTx where
  vin : List TxIn := []
  vout : List TxOut := [⟨0, []⟩]
  deriving DecidableEq

structure StakingWallet where
  params : NetworkParams
  /-- The height of the new block. -/
  nHeight : Int
  nStakeSplitThreshold : Int
  /-- `Solver` finds a type that can stake, and the wallet has the key where one is asked for. -/
  canStake : Script → Bool
  getSerializeSize : CoinStakeTx → Nat

namespace StakingWallet

variable (w : StakingWallet) (c : StakeableOutput)

/-- The value of the coin and of the new block. -/
def nCredit : Int := c.out.nValue + w.params.getBlockValue w.nHeight

def createTxOuts (nTotal : Int) : Option (List TxOut) :=
  if w.canStake c.out.scriptPubKey then
    let nSplit := if 0 < w.nStakeSplitThreshold then
      (nTotal.tdiv w.nStakeSplitThreshold).bmod (2 ^ 32) else 1
    -- not more than `MAX_STANDARD_TX_SIZE >> 11`
    some (.replicate (max 1 (min nSplit 488).toNat) ⟨0, c.out.scriptPubKey⟩)
  else none

/-- The amounts: the share for all but the last output, which gets what remains. -/
def setAmounts (nShare : Int) : Int → List TxOut → List TxOut
  | _, [] => []
  | nRemaining, [o] => [{ o with nValue := o.nValue + nRemaining }]
  | nRemaining, o :: o' :: vout =>
    { o with nValue := nShare } :: setAmounts nShare (nRemaining - nShare) (o' :: vout)

def addStake (vout : List TxOut) (txNew : CoinStakeTx) : CoinStakeTx :=
  let vout := txNew.vout ++ vout
  { vin := txNew.vin ++ [⟨c.prevout, []⟩]
    vout := vout.take 1 ++
      setAmounts ((w.nCredit c).tdiv ((vout.length - 1 : Nat) : Int)) (w.nCredit c) (vout.drop 1) }

/-- The kernel search. -/
def search : List StakeableOutput → Bool → CoinStakeTx → Bool × CoinStakeTx
  | [], fKernelFound, txNew => (fKernelFound, txNew)
  | c :: coins, fKernelFound, txNew =>
    if c.interrupted then (false, txNew)
    else if c.isSpent then search coins fKernelFound txNew
    else if !c.kernelFound then search coins false txNew
    else
      match w.createTxOuts c (w.nCredit c) with
      | none => search coins true txNew
      | some vout =>
        let txNew := w.addStake c vout txNew
        -- `DEFAULT_BLOCK_MAX_SIZE / 5`
        (decide (w.getSerializeSize txNew < 150000), txNew)

def createCoinStake (coins : List StakeableOutput) : Bool × CoinStakeTx :=
  w.search coins false {}

/-- A kernel was found with the coin, and outputs can be made for it. -/
def Usable : Prop :=
  c.isSpent = false ∧ c.kernelFound = true ∧ w.canStake c.out.scriptPubKey = true

/-- The transaction stakes just this coin. -/
structure Staked (txNew : CoinStakeTx) : Prop where
  kernel : c.isSpent = false ∧ c.kernelFound = true
  vin : txNew.vin = [⟨c.prevout, []⟩]
  marker : txNew.vout.head? = some ⟨0, []⟩
  vout : totalValue txNew.vout.tail = w.nCredit c

variable {w c}

theorem totalValue_setAmounts {nShare nRemaining : Int} {n : Nat} (hn : n ≠ 0) (s : Script) :
    totalValue (setAmounts nShare nRemaining (.replicate n ⟨0, s⟩)) = nRemaining := by
  induction n generalizing nRemaining with
  | zero => exact absurd rfl hn
  | succ n ih =>
    cases n with
    | zero => simp [setAmounts]
    | succ n =>
      rw [List.replicate_succ, List.replicate_succ, setAmounts, ← List.replicate_succ,
        totalValue_cons, ih n.succ_ne_zero]
      exact add_sub_cancel nShare nRemaining

/-- The outputs of a coin that is usable make a coinstake of it. -/
theorem Usable.exists_staked (h : w.Usable c) : ∃ vout,
    w.createTxOuts c (w.nCredit c) = some vout ∧ w.Staked c (w.addStake c vout {}) := by
  obtain ⟨hspent, hkernel, hcan⟩ := h
  refine ⟨_, if_pos hcan, ⟨hspent, hkernel⟩, rfl, rfl, ?_⟩
  exact totalValue_setAmounts (by omega) _

/-- How a search ends that reports success. -/
theorem search_cases {coins : List StakeableOutput} {found : Bool}
    (h : (w.search coins found {}).1 = true) :
    (∃ c ∈ coins, w.Usable c ∧ w.Staked c (w.search coins found {}).2) ∨
      (∀ c ∈ coins, ¬ w.Usable c) ∧ (w.search coins found {}).2 = {} := by
  induction coins generalizing found with
  | nil => exact .inr ⟨by simp, rfl⟩
  | cons c coins ih =>
    -- a coin that is not usable leaves the transaction as it is
    have hnext : ∀ {found'}, (w.search coins found' {}).1 = true → ¬ w.Usable c →
        (∃ d ∈ c :: coins, w.Usable d ∧ w.Staked d (w.search coins found' {}).2) ∨
          (∀ d ∈ c :: coins, ¬ w.Usable d) ∧ (w.search coins found' {}).2 = {} := by
      intro found' h hc
      refine (ih h).imp (fun ⟨d, hd, hs⟩ => ⟨d, .tail _ hd, hs⟩) ?_
      exact fun ⟨hall, hs⟩ => ⟨List.forall_mem_cons.mpr ⟨hc, hall⟩, hs⟩
    unfold search at h ⊢
    split_ifs at h ⊢ with hint hspent hkernel
    · exact hnext h fun hc => by simp [hc.1] at hspent
    · exact hnext h fun hc => by simp [hc.2.1] at hkernel
    · by_cases hc : w.Usable c
      · obtain ⟨vout, hvout, hstaked⟩ := hc.exists_staked
        rw [hvout]
        exact .inl ⟨c, List.mem_cons_self, hc, hstaked⟩
      · have hnone : w.createTxOuts c (w.nCredit c) = none := by
          exact if_neg fun hcan => hc ⟨by simpa using hspent, by simpa using hkernel, hcan⟩
        rw [hnone] at h ⊢
        exact hnext h hc

/-- **A search that reports success has made a coinstake** exactly when some coin is usable. -/
theorem createCoinStake_iff (w : StakingWallet) (coins : List StakeableOutput)
    (h : (w.createCoinStake coins).1 = true) :
    (∃ c ∈ coins, w.Staked c (w.createCoinStake coins).2) ↔ ∃ c ∈ coins, w.Usable c := by
  rcases search_cases h with ⟨c, hc, husable, hstaked⟩ | ⟨hnone, hempty⟩
  · exact ⟨fun _ => ⟨c, hc, husable⟩, fun _ => ⟨c, hc, hstaked⟩⟩
  · refine ⟨fun ⟨c, _, hstaked⟩ => ?_, fun ⟨c, hc, husable⟩ => absurd husable (hnone c hc)⟩
    have hvin := hstaked.vin
    rw [createCoinStake, hempty] at hvin
    cases hvin

end StakingWallet

namespace Sample

/-- A wallet with the key of the script `[1]` only. -/
def stakingWallet : StakingWallet := ⟨regtestParams, 400, 0, fun s => s == [1], fun _ => 200⟩

def foundCoin (n : UInt32) (s : Script) : StakeableOutput :=
  { prevout := ⟨7, n⟩, out := ⟨5 * COIN, s⟩, kernelFound := true }

/-- The key of the first coin is missing, the second one is staked. -/
theorem second_coin_staked : ∃ c ∈ [foundCoin 0 [2], foundCoin 1 [1]],
    stakingWallet.Staked c (stakingWallet.createCoinStake [foundCoin 0 [2], foundCoin 1 [1]]).2 :=
  (stakingWallet.createCoinStake_iff _ rfl).mpr ⟨foundCoin 1 [1], by simp, rfl, rfl, rfl⟩

/-- The key of the only coin is missing. -/
theorem nothing_staked :
    stakingWallet.createCoinStake [foundCoin 0 [2]] = (true, ⟨[], [⟨0, []⟩]⟩) := rfl

end Sample

end KmushiCoin
