import Mathlib.Data.Nat.Digits.Lemmas
import KmushiCoin.Validation.CheckTransaction

/-!
# KmushiCoin.Validation.ContextualCheck

**The checks of a block that depend on its height**: `ContextualCheckBlock` and what it calls for
each transaction.

* Before Sapling there are no shielded transactions, and zerocoins are allowed between two heights
  of the network.
* The coinbase starts with a push of the height of the block. `pushInt` is that push; two heights
  whose pushes start the same script are equal (`pushInt_prefix_inj`), so the coinbases of
  different heights are different transactions.
-/

namespace KmushiCoin

open List

open Codec (Bytes)

/-! ### Heights in a script -/

namespace Script

/-- `CScriptNum::serialize` for a number that is not negative: the bytes from the lowest on, and a
zero after a byte that would be read as a sign. -/
def serializeNum (n : Nat) : Bytes :=
  let result := (Nat.digits 256 n).map UInt8.ofNat
  if result.getLast?.any (0x80 ≤ ·) then result ++ [0] else result

/-- `CScript() << n` for a height. It has at most five bytes, so its length is one opcode. -/
def pushInt (n : Nat) : Script :=
  if n = 0 then [0x00]
  else if n ≤ 16 then [0x50 + UInt8.ofNat n]
  else UInt8.ofNat (serializeNum n).length :: serializeNum n

/-- The number that the bytes stand for. -/
theorem ofDigits_serializeNum (n : Nat) : Nat.ofDigits 256 ((serializeNum n).map UInt8.toNat) = n := by
  have hdigits : ((Nat.digits 256 n).map UInt8.ofNat).map UInt8.toNat = Nat.digits 256 n := by
    rw [map_map]
    refine (map_congr_left fun d hd => ?_).trans (map_id _)
    have hlt := Nat.digits_lt_base (by decide) hd
    simp only [Function.comp_apply, UInt8.toNat_ofNat', id_eq]
    exact Nat.mod_eq_of_lt hlt
  dsimp only [serializeNum]
  split_ifs
  · rw [map_append, hdigits, Nat.ofDigits_append, Nat.ofDigits_digits]
    simp
  · rw [hdigits, Nat.ofDigits_digits]

theorem serializeNum_length {n : Nat} (hpos : 0 < n) (hlt : n < 2 ^ 31) :
    1 ≤ (serializeNum n).length ∧ (serializeNum n).length ≤ 5 := by
  have hne : Nat.digits 256 n ≠ [] := Nat.digits_ne_nil_iff_ne_zero.mpr hpos.ne'
  have hle : (Nat.digits 256 n).length ≤ 4 := by
    rw [Nat.digits_length_le_iff (by decide)]
    omega
  have hge : 1 ≤ (Nat.digits 256 n).length := length_pos_iff.mpr hne
  dsimp only [serializeNum]
  split_ifs
  · simp only [length_append, length_map, length_singleton]
    omega
  · simp only [length_map]
    omega

/-- The first byte says what kind of push it is, and how long it is. -/
theorem pushInt_cases {n : Nat} (hlt : n < 2 ^ 31) : ∃ first rest, pushInt n = first :: rest ∧
      ((n = 0 ∧ first.toNat = 0 ∧ rest = []) ∨
      (1 ≤ n ∧ n ≤ 16 ∧ first.toNat = 0x50 + n ∧ rest = []) ∨
      (1 ≤ first.toNat ∧ first.toNat ≤ 5 ∧ rest.length = first.toNat ∧ rest = serializeNum n)) := by
  unfold pushInt
  split_ifs with hzero hsmall
  · exact ⟨0x00, [], rfl, .inl ⟨hzero, rfl, rfl⟩⟩
  · refine ⟨_, [], rfl, .inr (.inl ⟨by omega, hsmall, ?_, rfl⟩)⟩
    have hop : UInt8.toNat 0x50 = 0x50 := rfl
    rw [UInt8.toNat_add, UInt8.toNat_ofNat', hop]
    omega
  · obtain ⟨hge, hle⟩ := serializeNum_length (by omega) hlt
    have hfirst : (UInt8.ofNat (serializeNum n).length).toNat = (serializeNum n).length := by
      rw [UInt8.toNat_ofNat', Nat.mod_eq_of_lt (by omega)]
    exact ⟨_, _, rfl, .inr (.inr ⟨by omega, by omega, hfirst.symm, rfl⟩)⟩

/-- **Heights are told apart by the scripts they start.** -/
theorem pushInt_prefix_inj {m n : Nat} {s} (hm : m < 2 ^ 31) (hn : n < 2 ^ 31)
    (hpm : pushInt m <+: s) (hpn : pushInt n <+: s) : m = n := by
  obtain ⟨a, rest, hpushm, hcasem⟩ := pushInt_cases hm
  obtain ⟨b, rest', hpushn, hcasen⟩ := pushInt_cases hn
  rw [hpushm] at hpm
  rw [hpushn] at hpn
  obtain ⟨t, rfl⟩ := hpm
  rw [cons_append, cons_prefix_cons] at hpn
  obtain ⟨rfl, hrest⟩ := hpn
  rcases hcasem with ⟨rfl, hm', -⟩ | ⟨hm₁, hm₂, hm', -⟩ | ⟨hm₁, hm₂, hlen, rfl⟩
  all_goals rcases hcasen with ⟨rfl, hn', -⟩ | ⟨hn₁, hn₂, hn', -⟩ | ⟨hn₁, hn₂, hlen', rfl⟩
  -- the pushes of bytes have the same length; the others are decided by the first byte
  case inr.inr.inr.inr =>
    have heq : serializeNum n = serializeNum m := by
      rw [prefix_iff_eq_take, hlen', ← hlen, take_left'] at hrest
      · exact hrest
      · rfl
    rw [← ofDigits_serializeNum m, ← ofDigits_serializeNum n, heq]
  all_goals omega

end Script

/-! ### Transactions -/

/-- The parameters of a network for zerocoins. -/
structure ZerocoinParams where
  zcHeightStart : Int
  /-- The height from which only public spends are allowed. -/
  upgradeZCPublic : Int
  zcMaxSpendsPerTx : Nat
  zcMaxPublicSpendsPerTx : Nat

/-- What these checks are told about a block and its transactions. -/
structure ContextualContext where
  /-- The verdict on the proofs and the binding signature of a shielded transaction. -/
  saplingProofs : Transaction → Bool
  /-- `CheckZerocoinSpend`. -/
  checkZerocoinSpend : Transaction → Bool
  isFinalTx : Transaction → Bool

section
variable (params : ConsensusParams) (zc : ZerocoinParams) (ctx : ContextualContext) (nHeight : Nat)

/-- `SaplingValidation::ContextualCheckTransaction`. -/
def contextualCheckSaplingTx (tx : Transaction) : Outcome Unit :=
  if !networkUpgradeActive nHeight params.upgradeV5_0 then
    rejectIf tx.isShieldedTx "bad-txns-invalid-sapling-act"
  else do
    rejectIf (!tx.isSaplingVersion && tx.hasSaplingData) "bad-tx-sapling-version-too-low"
    rejectIf ((tx.isCoinBase || tx.isCoinStake) && tx.hasSaplingData) "bad-cs-has-shielded-data"
    rejectIf (tx.hasSaplingData && !ctx.saplingProofs tx) "bad-txns-sapling-binding-signature-invalid"

/-- One input more, with the number of zerocoin spends so far. The first input says which kind of
inputs a transaction has. -/
def checkZerocoinInput (hasPrivateSpendInputs hasPublicSpendInputs : Bool) (nSpendCount : Nat)
    (txin : TxIn) : Outcome Nat :=
  let fPublicSpendEnforced := networkUpgradeActive nHeight zc.upgradeZCPublic
  if txin.isZerocoinSpend then do
    rejectIf (decide ((nHeight : Int) < zc.zcHeightStart) || fPublicSpendEnforced)
      "bad-txns-zc-private-spend"
    rejectIf (!hasPrivateSpendInputs) "bad-txns-zc-private-spend-mixed-types"
    rejectIf (decide (zc.zcMaxSpendsPerTx < nSpendCount + 1)) "bad-txns-zc-private-spend-max-inputs"
    .ok (nSpendCount + 1)
  else if txin.isZerocoinPublicSpend then do
    rejectIf (!fPublicSpendEnforced || networkUpgradeActive nHeight params.upgradeV5_0)
      "bad-txns-zc-public-spend"
    rejectIf (!hasPublicSpendInputs) "bad-txns-zc-public-spend-mixed-types"
    rejectIf (decide (zc.zcMaxPublicSpendsPerTx < nSpendCount + 1))
      "bad-txns-zc-public-spend-max-inputs"
    .ok (nSpendCount + 1)
  else do
    rejectIf (hasPrivateSpendInputs || hasPublicSpendInputs) "bad-txns-zc-spend-mixed-types"
    .ok nSpendCount

/-- `ContextualCheckZerocoinTx` for a transaction of a block. -/
def contextualCheckZerocoinTx (tx : Transaction) : Outcome Unit := do
  let hasPrivateSpendInputs := tx.vin.head?.any TxIn.isZerocoinSpend
  let hasPublicSpendInputs := tx.vin.head?.any TxIn.isZerocoinPublicSpend
  let _ ← tx.vin.foldlM
    (checkZerocoinInput params zc nHeight hasPrivateSpendInputs hasPublicSpendInputs) 0
  rejectIf ((hasPrivateSpendInputs || hasPublicSpendInputs) && !ctx.checkZerocoinSpend tx) ""
  rejectIf (tx.hasZerocoinMintOutputs && (decide ((nHeight : Int) < zc.zcHeightStart) ||
    networkUpgradeActive nHeight zc.upgradeZCPublic)) "bad-txns-zc-mint"

def contextualCheckTransaction (tx : Transaction) : Outcome Unit := do
  contextualCheckSaplingTx params ctx nHeight tx
  contextualCheckZerocoinTx params zc ctx nHeight tx

/-! ### Blocks -/

/-- `ContextualCheckBlock` for a block after the first one. -/
def contextualCheckBlock (b : Block) : Outcome Unit := do
  b.vtx.forM fun tx => do
    contextualCheckTransaction params zc ctx nHeight tx
    rejectIf (!ctx.isFinalTx tx) "bad-txns-nonfinal"
  rejectIf (!b.vtx.head?.any fun coinbase =>
    coinbase.vin.head?.any fun txin => (Script.pushInt nHeight).isPrefixOf txin.scriptSig) "bad-cb-height"
  if networkUpgradeActive nHeight params.upgradeV5_3 && b.isProofOfStake then do
    rejectIf (b.vtx[1]?.any fun csTx => decide (1 < csTx.vin.length)) "bad-cs-multi-inputs"
    rejectIf (b.vtx[1]?.any fun csTx => csTx.vout.tail.any TxOut.isEmpty) "bad-txns-vout-empty"
  else .ok ()

end

/-! ### What is known of a block that passes -/

/-- The coinbase names the height. -/
def Transaction.CommitsTo (tx : Transaction) (nHeight : Nat) : Prop :=
  ∃ txin, tx.vin.head? = some txin ∧ Script.pushInt nHeight <+: txin.scriptSig

/-- A transaction cannot name two heights. -/
theorem Transaction.CommitsTo.unique {tx : Transaction} {m n : Nat} (hm : m < 2 ^ 31) (hn : n < 2 ^ 31)
    (h : tx.CommitsTo m) (h' : tx.CommitsTo n) : m = n := by
  obtain ⟨txin, htxin, hpm⟩ := h
  obtain ⟨txin', htxin', hpn⟩ := h'
  obtain rfl := Option.mem_unique htxin htxin'
  exact Script.pushInt_prefix_inj hm hn hpm hpn

section
variable {params : ConsensusParams} {zc : ZerocoinParams} {ctx : ContextualContext} {nHeight : Nat}
  {b : Block}

theorem contextualCheckBlock_inv (h : contextualCheckBlock params zc ctx nHeight b = .ok ()) :
    (∀ tx ∈ b.vtx, contextualCheckTransaction params zc ctx nHeight tx = .ok ()) ∧
      ∀ coinbase, b.vtx.head? = some coinbase → coinbase.CommitsTo nHeight := by
  unfold contextualCheckBlock at h
  obtain ⟨_, htxs, h⟩ := bind_ok.mp h
  obtain ⟨_, hheight, -⟩ := bind_ok.mp h
  refine ⟨fun tx htx => ?_, fun coinbase hbase => ?_⟩
  · obtain ⟨_, htx, -⟩ := bind_ok.mp (forM_ok_iff.mp htxs tx htx)
    exact htx
  · rw [rejectIf_ok, hbase, Option.any_some, Bool.not_eq_false', Option.any_eq_true] at hheight
    obtain ⟨txin, htxin, hprefix⟩ := hheight
    exact ⟨txin, htxin, isPrefixOf_iff_prefix.mp hprefix⟩

/-- Before Sapling a transaction has no shielded part that counts. -/
theorem contextualCheckTransaction_shielded {tx}
    (h : contextualCheckTransaction params zc ctx nHeight tx = .ok ())
    (hactive : networkUpgradeActive nHeight params.upgradeV5_0 = false) : tx.isShieldedTx = false := by
  obtain ⟨_, hsapling, -⟩ := bind_ok.mp h
  unfold contextualCheckSaplingTx at hsapling
  rw [hactive, Bool.not_false, if_pos rfl] at hsapling
  exact rejectIf_ok.mp hsapling

end

end KmushiCoin
