import KmushiCoin.Coins.ViewState
import KmushiCoin.Masternode.Payments

/-!
# KmushiCoin.Validation.CheckTransaction

The checks of a block that need no coins: `CheckTransaction` for each of its transactions,
and `CheckBlock`.

* `ConsensusParams` are the constants of a network that validation reads.
* `BlockContext` holds what these checks are told about a block and do not compute from the
  data that is modelled: its proof of work, its Merkle root, sizes, signature operations and
  signatures.
* The passes over a transaction are written as the source writes them; `TxChecked` and
  `BlockChecked` say what a block that passes is known to have.
-/

namespace KmushiCoin

open Transaction List

/-- The constants of a network that validation reads. -/
structure ConsensusParams extends NetworkParams where
  nMaxMoneyOut : Int
  nMaxMoneyOut_nonneg : 0 ≤ nMaxMoneyOut
  /-- No network allows more. -/
  nMaxMoneyOut_le : nMaxMoneyOut ≤ 43199500 * COIN
  nCoinbaseMaturity : Int
  /-- The activation height of Sapling. -/
  upgradeV5_0 : Int

/-- The regression test network, with these parameters of its masternodes. -/
def Sample.regtestAmounts (net : NetworkParams) : ConsensusParams where
  toNetworkParams := net
  nMaxMoneyOut := 43199500 * COIN
  nMaxMoneyOut_nonneg := by decide
  nMaxMoneyOut_le := le_rfl
  nCoinbaseMaturity := 100
  upgradeV5_0 := 300

namespace ConsensusParams

def moneyRange (params : ConsensusParams) (nValue : Int) : Bool :=
  decide (0 ≤ nValue) && decide (nValue ≤ params.nMaxMoneyOut)

theorem moneyRange_iff {params : ConsensusParams} {nValue : Int} :
    params.moneyRange nValue = true ↔ 0 ≤ nValue ∧ nValue ≤ params.nMaxMoneyOut := by
  simp [moneyRange]

end ConsensusParams

/-- A block, with its hash. -/
structure Block where
  hash : Uint256
  vtx : List Transaction
  hashFinalSaplingRoot : Uint256
  deriving Repr, DecidableEq

def Block.isProofOfStake (b : Block) : Bool := b.vtx[1]?.any isCoinStake

/-- What the checks are told about a block and its transactions. -/
structure BlockContext where
  proofOfWork : Bool
  merkleRoot : Bool
  /-- Whether a sequence of transactions is repeated in the Merkle tree. -/
  mutated : Bool
  nBlockSize : Nat
  nShieldedSize : Nat
  /-- Whether the block before is in the index, when it is not the tip. -/
  prevKnown : Bool
  /-- `CheckColdStakeFreeOutput`, or true where it is skipped. -/
  coldStakeOutput : Bool
  fColdStakingActive : Bool
  nMaxBlockSigOps : Nat
  blockSignature : Bool
  totalSize : Transaction → Nat
  legacySigOps : Transaction → Nat
  checkSpecialTxNoContext : Transaction → Outcome Unit

namespace Script

/-- `OP_DUP OP_HASH160 OP_ROT OP_IF <verify> <20 bytes> OP_ELSE <20 bytes> OP_ENDIF
OP_EQUALVERIFY OP_CHECKSIG`, with one of the two cold staking opcodes. -/
def isPayToColdStaking (s : Script) : Bool :=
  s.length == 51 && s[0]? == some 0x76 && s[1]? == some 0xa9 && s[2]? == some 0x7b &&
    s[3]? == some 0x63 && (s[4]? == some 0xd2 || s[4]? == some 0xd1) && s[5]? == some 0x14 &&
    s[26]? == some 0x67 && s[27]? == some 0x14 && s[48]? == some 0x68 &&
    s[49]? == some 0x88 && s[50]? == some 0xac

end Script

section
variable (params : ConsensusParams) (ctx : BlockContext)

/-! ### Transactions -/

/-- The Sapling part of a transaction; what goes into the pool counts as an output. -/
def checkTransactionWithoutProofVerification (tx : Transaction) (sap : SaplingTxData) :
    Outcome Int := do
  assert tx.isSaplingVersion "tx.isSaplingVersion()"
  rejectIf (sap.vShieldedSpend.isEmpty && sap.vShieldedOutput.isEmpty && sap.valueBalance != 0)
    "bad-txns-valuebalance-nonzero"
  rejectIf (decide (params.nMaxMoneyOut < sap.valueBalance) ||
    decide (sap.valueBalance < -params.nMaxMoneyOut)) "bad-txns-valuebalance-toolarge"
  let nValueOut := if sap.valueBalance < 0 then -sap.valueBalance else 0
  rejectIf (decide (sap.valueBalance < 0) && !params.moneyRange nValueOut)
    "bad-txns-txouttotal-toolarge"
  rejectIf (decide (0 < sap.valueBalance) && !params.moneyRange sap.valueBalance)
    "bad-txns-txintotal-toolarge"
  rejectIf (decide ¬(sap.vShieldedSpend.map (·.nullifier)).Nodup)
    "bad-spend-description-nullifiers-duplicate"
  .ok nValueOut

/-- `SaplingValidation::CheckTransaction`. -/
def checkSaplingTransaction (tx : Transaction) : Outcome Int :=
  match tx.sapData with
  | none => .ok 0
  | some sap => do
    rejectIf (!tx.isSaplingVersion && tx.hasSaplingData) "bad-txns-form-not-sapling"
    if !tx.hasSaplingData then .ok 0
    else do
      rejectIf (tx.isCoinStake || tx.isCoinBase || tx.hasZerocoinSpendInputs ||
        tx.hasZerocoinMintOutputs) "bad-txns-invalid-sapling"
      checkTransactionWithoutProofVerification params tx sap

/-- One output more. -/
def checkTxOut (fMayBeEmpty : Bool) (nValueOut : Int) (out : TxOut) : Outcome Int := do
  rejectIf (out.isEmpty && !fMayBeEmpty) "bad-txns-vout-empty"
  rejectIf (decide (out.nValue < 0)) "bad-txns-vout-negative"
  rejectIf (decide (params.nMaxMoneyOut < out.nValue)) "bad-txns-vout-toolarge"
  let nValueOut := wrap64 (nValueOut + out.nValue)
  rejectIf (!params.moneyRange nValueOut) "bad-txns-txouttotal-toolarge"
  rejectIf (Script.isPayToColdStaking out.scriptPubKey && !ctx.fColdStakingActive)
    "cold-stake-inactive"
  rejectIf (Script.isPayToColdStaking out.scriptPubKey && decide (out.nValue < COIN))
    "cold-stake-vout-toosmall"
  .ok nValueOut

/-- No input refers to an outpoint of the set; one that is not a zerocoin spend joins it. -/
def checkDuplicateInputs (vInOutPoints : List OutPoint) : List TxIn → Outcome Unit
  | [] => .ok ()
  | txin :: vin => do
    rejectIf (decide (txin.prevout ∈ vInOutPoints)) "bad-txns-inputs-duplicate"
    checkDuplicateInputs
      (if txin.isZerocoinSpend then vInOutPoints
        else txin.prevout :: vInOutPoints) vin

/-- `CheckTransaction`, with the sizes of the transactions. -/
def checkTransaction (tx : Transaction) : Outcome Unit := do
  rejectIf (tx.vin.isEmpty && tx.sapData.any (·.vShieldedSpend.isEmpty)) "bad-txns-vin-empty"
  rejectIf (tx.vout.isEmpty && tx.sapData.any (·.vShieldedOutput.isEmpty)) "bad-txns-vout-empty"
  rejectIf (decide (tx.nVersion < 1) || decide (4 ≤ tx.nVersion)) "bad-tx-version-too-high"
  rejectIf (decide ((if tx.isShieldedTx then 400000 else 150000) < ctx.totalSize tx))
    "bad-txns-oversize"
  let nValueOut ← checkSaplingTransaction params tx
  let _ ← tx.vout.foldlM (checkTxOut params ctx (tx.isCoinBase || tx.isCoinStake)) nValueOut
  checkDuplicateInputs [] tx.vin
  if tx.isCoinBase then
    rejectIf (tx.vin.head?.any fun txin =>
      decide (txin.scriptSig.length < 2) || decide (150 < txin.scriptSig.length)) "bad-cb-length"
  else
    rejectIf (tx.vin.any fun txin =>
      txin.prevout == OutPoint.null && !txin.isZerocoinSpend)
      "bad-txns-prevout-null"

/-! ### Blocks -/

/-- `CheckBlock`; the three parts that a test of a new block leaves out share a flag. -/
def checkBlock (fCheck : Bool) (b : Block) : Outcome Unit := do
  rejectIf (!b.isProofOfStake && fCheck && !ctx.proofOfWork) "high-hash"
  rejectIf (fCheck && !ctx.merkleRoot) "bad-txnmrklroot"
  rejectIf (fCheck && ctx.mutated) "bad-txns-duplicate"
  rejectIf (b.vtx.isEmpty || decide (2000000 < b.vtx.length) || decide (2000000 < ctx.nBlockSize))
    "bad-blk-length"
  rejectIf (decide (750000 < ctx.nBlockSize) && decide (750000 < ctx.nShieldedSize))
    "bad-blk-shielded-size"
  rejectIf (!b.vtx.head?.any isCoinBase) "bad-cb-missing"
  rejectIf (b.vtx.tail.any isCoinBase) "bad-cb-multiple"
  rejectIf (b.isProofOfStake && (b.vtx.drop 2).any isCoinStake) "bad-cs-multiple"
  rejectIf (!ctx.prevKnown) "blk-out-of-order"
  rejectIf (b.isProofOfStake && !ctx.coldStakeOutput) "bad-p2cs-outs"
  b.vtx.forM fun tx => do
    checkTransaction params ctx tx
    ctx.checkSpecialTxNoContext tx
  rejectIf (decide (ctx.nMaxBlockSigOps < (b.vtx.map ctx.legacySigOps).sum)) "bad-blk-sigops"
  rejectIf (fCheck && !ctx.blockSignature) "bad-PoS-sig"

end

/-! ### What is known of a block that passes -/

namespace Transaction

/-- What the transparent side receives from the pool, or gives to it. -/
def valueBalance (tx : Transaction) : Int := (tx.sapData.map (·.valueBalance)).getD 0

theorem valueBalance_of_not_hasSaplingData {tx : Transaction} (h : tx.hasSaplingData = false) :
    tx.valueBalance = 0 := by
  unfold hasSaplingData at h
  unfold valueBalance
  cases hs : tx.sapData with
  | none => rfl
  | some sap =>
    simp only [hs, Bool.or_eq_false_iff, bne_eq_false_iff_eq] at h
    exact h.1.2

theorem nullifiers_of_not_hasSaplingData {tx : Transaction} (h : tx.hasSaplingData = false) :
    tx.nullifiers = [] := by
  unfold hasSaplingData at h
  unfold nullifiers
  cases hs : tx.sapData with
  | none => rfl
  | some sap =>
    simp only [hs, Bool.or_eq_false_iff, Bool.not_eq_false', List.isEmpty_iff] at h
    simp [h.1.1.2]

end Transaction

/-- What `CheckTransaction` ensures. -/
structure TxChecked (params : ConsensusParams) (tx : Transaction) : Prop where
  /-- The nullifiers that are marked are those whose requirements are checked. -/
  nullifiers : tx.nullifiers = tx.shieldedSpends.map (·.nullifier)
  nodup : tx.nullifiers.Nodup
  version : tx.hasSaplingData = true → tx.isSaplingVersion = true
  transparent : (tx.isCoinStake || tx.isCoinBase || tx.hasZerocoinSpendInputs) = true →
    tx.hasSaplingData = false
  balance : -params.nMaxMoneyOut ≤ tx.valueBalance ∧ tx.valueBalance ≤ params.nMaxMoneyOut
  nonneg : ∀ out ∈ tx.vout, 0 ≤ out.nValue
  total : totalValue tx.vout + max 0 (-tx.valueBalance) ≤ params.nMaxMoneyOut
  distinct : tx.hasZerocoinSpendInputs = false → (tx.vin.map TxIn.prevout).Nodup

section
variable {params : ConsensusParams} {ctx : BlockContext} {tx : Transaction}

/-- The Sapling part of a checked transaction. -/
structure SaplingChecked (params : ConsensusParams) (tx : Transaction) (nValueOut : Int) : Prop where
  nullifiers : tx.nullifiers = tx.shieldedSpends.map (·.nullifier)
  nodup : tx.nullifiers.Nodup
  version : tx.hasSaplingData = true → tx.isSaplingVersion = true
  transparent : (tx.isCoinStake || tx.isCoinBase || tx.hasZerocoinSpendInputs) = true →
    tx.hasSaplingData = false
  balance : -params.nMaxMoneyOut ≤ tx.valueBalance ∧ tx.valueBalance ≤ params.nMaxMoneyOut
  valueOut : nValueOut = max 0 (-tx.valueBalance)

/-- Without Sapling data there is nothing to check. -/
theorem SaplingChecked.of_not_hasSaplingData (h : tx.hasSaplingData = false) :
    SaplingChecked params tx 0 := by
  have hnull := tx.nullifiers_of_not_hasSaplingData h
  have hbalance := tx.valueBalance_of_not_hasSaplingData h
  refine ⟨?_, by simp [hnull], by simp [h], fun _ => h, ?_, by simp [hbalance]⟩
  · unfold shieldedSpends isShieldedTx
    cases tx.sapData <;> simp [h, hnull]
  · have := params.nMaxMoneyOut_nonneg
    omega

theorem checkSaplingTransaction_inv {nValueOut : Int}
    (h : checkSaplingTransaction params tx = .ok nValueOut) :
    SaplingChecked params tx nValueOut := by
  unfold checkSaplingTransaction at h
  cases hs : tx.sapData with
  | none =>
    rw [hs] at h
    cases h
    exact .of_not_hasSaplingData (by simp [hasSaplingData, hs])
  | some sap =>
    simp only [hs, bind_ok, rejectIf_ok] at h
    obtain ⟨-, hversion, h⟩ := h
    split_ifs at h with hdata
    · cases h
      exact .of_not_hasSaplingData (by simpa using hdata)
    · simp only [Bool.not_eq_true', Bool.not_eq_false] at hdata
      simp only [hdata, Bool.and_true, Bool.not_eq_false'] at hversion
      simp only [checkTransactionWithoutProofVerification, bind_ok, rejectIf_ok, assert_ok,
        Bool.or_eq_false_iff, decide_eq_false_iff_not, not_not, not_lt] at h
      obtain ⟨-, ⟨⟨⟨hstake, hbase⟩, hspend⟩, -⟩, -, -, -, -, -, hrange, -, -, -, -, -, hnodup, h⟩ := h
      cases h
      have hbalance : tx.valueBalance = sap.valueBalance := by simp [valueBalance, hs]
      have hnull : tx.nullifiers = sap.vShieldedSpend.map (·.nullifier) := by
        simp [nullifiers, hs]
      have hspends : tx.shieldedSpends = sap.vShieldedSpend := by
        simp [shieldedSpends, isShieldedTx, hs, hversion, hdata]
      refine ⟨by rw [hnull, hspends], hnull ▸ hnodup, fun _ => hversion,
        by simp [hstake, hbase, hspend],
        by omega, ?_⟩
      rw [hbalance]
      split_ifs <;> omega

theorem checkTxOut_inv {fMayBeEmpty : Bool} {nValueOut n : Int} {out : TxOut}
    (h : checkTxOut params ctx fMayBeEmpty nValueOut out = .ok n) (h₀ : 0 ≤ nValueOut)
    (hle : nValueOut ≤ params.nMaxMoneyOut) :
    0 ≤ out.nValue ∧ n = nValueOut + out.nValue ∧ n ≤ params.nMaxMoneyOut := by
  simp only [checkTxOut, bind_ok, rejectIf_ok, Bool.not_eq_false', decide_eq_false_iff_not,
    not_lt, ConsensusParams.moneyRange_iff] at h
  obtain ⟨-, -, -, hnonneg, -, hlarge, -, hrange, -, -, -, -, h⟩ := h
  cases h
  have hmax := params.nMaxMoneyOut_le
  unfold COIN at hmax
  rw [wrap64_eq (by omega) (by omega)] at hrange ⊢
  exact ⟨hnonneg, rfl, hrange.2⟩

/-- The outputs are not negative and add up in range. -/
theorem checkTxOuts_inv {fMayBeEmpty} {vout} {nValueOut n : Int}
    (h : vout.foldlM (checkTxOut params ctx fMayBeEmpty) nValueOut = .ok n) (h₀ : 0 ≤ nValueOut)
    (hle : nValueOut ≤ params.nMaxMoneyOut) :
    (∀ out ∈ vout, 0 ≤ out.nValue) ∧ nValueOut + totalValue vout ≤ params.nMaxMoneyOut := by
  induction vout generalizing nValueOut with
  | nil => exact ⟨by simp, by simpa using hle⟩
  | cons out vout ih =>
    obtain ⟨m, hm, h⟩ := bind_ok.mp h
    obtain ⟨hnonneg, rfl, hmax⟩ := checkTxOut_inv hm h₀ hle
    obtain ⟨hrest, htotal⟩ := ih h (by omega) hmax
    refine ⟨forall_mem_cons.mpr ⟨hnonneg, hrest⟩, ?_⟩
    rw [totalValue_cons]
    omega

theorem checkDuplicateInputs_inv {seen} {vin} (h : checkDuplicateInputs seen vin = .ok ())
    (hzc : ∀ txin ∈ vin, txin.isZerocoinSpend = false) :
    (vin.map TxIn.prevout).Nodup ∧ ∀ txin ∈ vin, txin.prevout ∉ seen := by
  induction vin generalizing seen with
  | nil => simp
  | cons txin vin ih =>
    simp only [checkDuplicateInputs, bind_ok, rejectIf_ok, decide_eq_false_iff_not,
      hzc txin mem_cons_self] at h
    obtain ⟨-, hnew, h⟩ := h
    obtain ⟨hnodup, hrest⟩ := ih h fun t ht => hzc t (.tail _ ht)
    refine ⟨?_, ?_⟩
    · rw [map_cons, nodup_cons]
      refine ⟨fun hmem => ?_, hnodup⟩
      obtain ⟨t, ht, heq⟩ := mem_map.mp hmem
      exact hrest t ht (heq ▸ (.head _))
    · intro t ht
      rcases mem_cons.mp ht with rfl | ht
      · exact hnew
      · exact fun hmem => hrest t ht (.tail _ hmem)

theorem checkTransaction_inv (h : checkTransaction params ctx tx = .ok ()) :
    TxChecked params tx := by
  simp only [checkTransaction, bind_ok] at h
  obtain ⟨-, -, -, -, -, -, -, -, nValueOut, hsapling, n, houts, _, hinputs, -⟩ := h
  have hs := checkSaplingTransaction_inv hsapling
  have hvalue := hs.valueOut
  have hbalance := hs.balance
  have hmax := params.nMaxMoneyOut_nonneg
  obtain ⟨hnonneg, htotal⟩ := checkTxOuts_inv houts (by omega) (by omega)
  refine ⟨hs.nullifiers, hs.nodup, hs.version, hs.transparent, hbalance, hnonneg, by omega, ?_⟩
  intro hzc
  refine (checkDuplicateInputs_inv hinputs fun txin htxin => ?_).1
  simp only [hasZerocoinSpendInputs, any_eq_false, Bool.not_eq_true, Bool.or_eq_false_iff] at hzc
  exact (hzc txin htxin).1

/-- What `CheckBlock` ensures: one coinbase, in front, and checked transactions. -/
structure BlockChecked (params : ConsensusParams) (b : Block) : Prop where
  coinbase : ∃ coinbase rest, b.vtx = coinbase :: rest ∧ coinbase.isCoinBase = true ∧
    ∀ tx ∈ rest, tx.isCoinBase = false
  coinstake : b.isProofOfStake = true → ∀ tx ∈ b.vtx.drop 2, tx.isCoinStake = false
  txs : ∀ tx ∈ b.vtx, TxChecked params tx

theorem checkBlock_inv {fCheck} {b} (h : checkBlock params ctx fCheck b = .ok ()) :
    BlockChecked params b := by
  simp only [checkBlock, bind_ok, rejectIf_ok] at h
  obtain ⟨-, -, -, -, -, -, -, -, -, -, -, hfirst, -, hrest, -, hstake, -, -, -, -, _, htxs, -⟩ := h
  refine ⟨?_, ?_, fun tx htx => ?_⟩
  · cases hv : b.vtx with
    | nil => simp [hv] at hfirst
    | cons coinbase rest =>
      simp only [hv, head?_cons, Option.any_some, Bool.not_eq_false', tail_cons,
        any_eq_false, Bool.not_eq_true] at hfirst hrest
      exact ⟨coinbase, rest, rfl, hfirst, hrest⟩
  · intro hpos tx htx
    simp only [hpos, Bool.true_and, any_eq_false, Bool.not_eq_true] at hstake
    exact hstake tx htx
  · obtain ⟨_, hcheck, -⟩ := bind_ok.mp (forM_ok_iff.mp htxs tx htx)
    exact checkTransaction_inv hcheck

end

end KmushiCoin
