import KmushiCoin.Lib.MultiWord
import KmushiCoin.Primitives.Transaction

/-!
# KmushiCoin.Staking.Kernel

The **stake kernel check**: the hash of a kernel is compared with the target of
the block, weighted by the value of the stake.

* `ArithUint256.setCompact` decodes the compact target;
* `StakeKernel.checkKernelHash` multiplies it with a hundredth of the stake value
  and compares.

Both run on eight 32-bit words, so the weighted target is a product **modulo**
`2 ^ 256`. `checkKernelHash_ok` says what the check computes;
`StakeKernel.weighsExactly_iff` says for which kernels this is the comparison
with the product itself, and acceptance grows with the stake.
-/

namespace KmushiCoin

open Words

open Codec (Bytes toLE)

/-- `arith_uint256`: eight words of 32 bits. -/
abbrev ArithUint256 : Type := Words 32 8

namespace ArithUint256

/-- The conversion from `uint64_t`. -/
def ofUint64 (b : BitVec 64) : ArithUint256 :=
  (zero.set 0 (b.setWidth 32)).set 1 ((b >>> 32).setWidth 32)

theorem value_ofUint64 (b : BitVec 64) : (ofUint64 b).value = b.toNat := by
  have hb := b.isLt
  have h0 : (ofUint64 b).word 0 = b.setWidth 32 := by simp [ofUint64]
  have h1 : (ofUint64 b).word 1 = (b >>> 32).setWidth 32 := by simp [ofUint64]
  have hrest : ∀ i, 2 ≤ i → (ofUint64 b).word i = 0 := by
    intro i hi
    rw [ofUint64, word_set, if_neg (by omega), word_set, if_neg (by omega), word_zero]
  rw [value_eq_low _ (by omega) hrest, low_succ, low_succ, low_zero, h0, h1,
    BitVec.toNat_setWidth, BitVec.toNat_setWidth, BitVec.toNat_ushiftRight,
    Nat.shiftRight_eq_div_pow]
  omega

/-- `UintToArith256`. -/
def ofUint256 (a : Uint256) : ArithUint256 := ofNat a.val

theorem value_ofUint256 (a : Uint256) : (ofUint256 a).value = a.val := by
  rw [ofUint256, value_ofNat, Nat.mod_eq_of_lt a.isLt]

/-- What `SetCompact` yields: the number and the two flags. -/
structure Decoded where
  target : ArithUint256
  fNegative : Bool
  fOverflow : Bool

/-- `SetCompact`. -/
def setCompact (nCompact : BitVec 32) : Decoded :=
  let nSize := (nCompact >>> 24).toNat
  let nWord := nCompact &&& 0x007fffff
  let nWord := if nSize ≤ 3 then nWord >>> (8 * (3 - nSize)) else nWord
  let small := ofUint64 (nWord.setWidth 64)
  { target := if nSize ≤ 3 then small else small.shiftLeft (8 * (nSize - 3))
    fNegative := nWord ≠ 0 ∧ nCompact &&& 0x00800000 ≠ 0
    fOverflow := nWord ≠ 0 ∧ (34 < nSize ∨ (0xff < nWord ∧ 33 < nSize) ∨
      (0xffff < nWord ∧ 32 < nSize)) }

/-- The number that a compact form stands for: a mantissa of 23 bits and the number of bytes. -/
def compactNumber (nCompact : BitVec 32) : Nat :=
  let nSize := nCompact.toNat / 2 ^ 24
  let nWord := nCompact.toNat % 2 ^ 23
  if nSize ≤ 3 then nWord / 2 ^ (8 * (3 - nSize)) else nWord * 2 ^ (8 * (nSize - 3))

/-- **What `SetCompact` decodes**: the number modulo `2 ^ 256`; the flag says that it is larger. -/
theorem setCompact_exact (nCompact : BitVec 32) :
    (setCompact nCompact).target.value = compactNumber nCompact % 2 ^ 256 ∧
      ((setCompact nCompact).fOverflow = true ↔ 2 ^ 256 ≤ compactNumber nCompact) := by
  have hsize : (nCompact >>> 24).toNat = nCompact.toNat / 2 ^ 24 := by
    rw [BitVec.toNat_ushiftRight, Nat.shiftRight_eq_div_pow]
  have hword : (nCompact &&& 0x007fffff).toNat = nCompact.toNat % 2 ^ 23 := by
    rw [BitVec.toNat_and]
    exact Nat.and_two_pow_sub_one_eq_mod nCompact.toNat 23
  have hlt : nCompact.toNat % 2 ^ 23 < 2 ^ 23 := Nat.mod_lt _ (by decide)
  simp only [setCompact, compactNumber, hsize]
  generalize nCompact.toNat % 2 ^ 23 = m at *
  generalize nCompact.toNat / 2 ^ 24 = n at *
  split_ifs with hsmall
  · have hle := Nat.div_le_self m (2 ^ (8 * (3 - n)))
    rw [value_ofUint64, BitVec.toNat_setWidth_of_le (by omega), BitVec.toNat_ushiftRight, hword,
      Nat.shiftRight_eq_div_pow, Nat.mod_eq_of_lt (by omega), decide_eq_true_eq]
    exact ⟨rfl, by omega⟩
  · rw [value_shiftLeft, value_ofUint64, BitVec.toNat_setWidth_of_le (by omega), hword]
    refine ⟨rfl, ?_⟩
    simp only [decide_eq_true_eq, BitVec.lt_def, ne_eq, ← BitVec.toNat_inj, hword,
      BitVec.reduceToNat]
    -- the three sizes at which the mantissa decides, and those beside them
    obtain hn | rfl | rfl | hn : n ≤ 32 ∨ n = 33 ∨ n = 34 ∨ 35 ≤ n := by omega
    · have hpow : 2 ^ (8 * (n - 3)) ≤ 2 ^ 232 := Nat.pow_le_pow_right (by decide) (by omega)
      have hmul := Nat.mul_le_mul hlt.le hpow
      omega
    · omega
    · omega
    · have hpow : 2 ^ 256 ≤ 2 ^ (8 * (n - 3)) := Nat.pow_le_pow_right (by decide) (by omega)
      rcases Nat.eq_zero_or_pos m with rfl | hm
      · simp
      · have hmul := Nat.le_mul_of_pos_left (2 ^ (8 * (n - 3))) hm
        omega

end ArithUint256

open ArithUint256

/-! ### The kernel -/

/-- `CStakeKernel`. -/
structure StakeKernel where
  stakeModifier : Bytes
  nTimeBlockFrom : Int
  stakeUniqueness : Bytes
  nTime : Int
  nBits : BitVec 32
  stakeValue : Int

namespace StakeKernel

variable (hash : Bytes → Uint256)

/-- `GetHash`: the two times are serialized as 32-bit words. `hash` is the double SHA-256. -/
def getHash (k : StakeKernel) : Uint256 :=
  hash (k.stakeModifier ++ toLE 4 (k.nTimeBlockFrom % 2 ^ 32).toNat ++ k.stakeUniqueness ++
    toLE 4 (k.nTime % 2 ^ 32).toNat)

/-- `CheckKernelHash`. -/
def checkKernelHash (k : StakeKernel) : Outcome Bool :=
  let bnTarget := (setCompact k.nBits).target
  match (ofUint64 (BitVec.ofInt 64 k.stakeValue)).div (ofUint64 100) with
  | none => .error (.throw "Division by zero")
  | some weight =>
    .ok ((ofUint256 (k.getHash hash)).compareTo (bnTarget.mul weight) = .lt)

/-- The target of the kernel's block, as a number. -/
def target (k : StakeKernel) : Nat := (setCompact k.nBits).target.value

/-- The weight of the kernel's stake. -/
def weight (k : StakeKernel) : Nat := k.stakeValue.toNat / 100

/-- **What the check computes**, for a value that a coin can have: it returns, and accepts the
hashes below the product of target and weight modulo `2 ^ 256`. -/
theorem checkKernelHash_ok (k : StakeKernel) (hpos : 0 ≤ k.stakeValue)
    (hmax : k.stakeValue < 2 ^ 63) : k.checkKernelHash hash =
      .ok (decide ((k.getHash hash).val < k.target * k.weight % 2 ^ 256)) := by
  have hvalue : (ofUint64 (BitVec.ofInt 64 k.stakeValue)).value =
      k.stakeValue.toNat := by
    rw [value_ofUint64, BitVec.toNat_ofInt]
    congr 1
    omega
  have hhundred : (ofUint64 100).value = 100 := value_ofUint64 100
  obtain ⟨q, hq, hweight⟩ := value_div
    (ofUint64 (BitVec.ofInt 64 k.stakeValue)) (b := ofUint64 100) (by omega)
  rw [hvalue, hhundred] at hweight
  have horder : (ofUint256 (k.getHash hash)).compareTo ((setCompact k.nBits).target.mul q) = .lt ↔
      (k.getHash hash).val < k.target * k.weight % 2 ^ 256 := by
    rw [compareTo_eq, Nat.compare_eq_lt, value_ofUint256, value_mul,
      hweight]
    rfl
  simp only [checkKernelHash, hq]
  exact congrArg _ (decide_eq_decide.2 horder)

/-! ### When the weighted target is exact -/

/-- The check is the comparison of the hash with target times weight as integers, and a kernel
that is accepted at a smaller value is accepted: whatever its hash. -/
def WeighsExactly (k : StakeKernel) : Prop :=
  ∀ hash : Bytes → Uint256,
    (k.checkKernelHash hash = .ok true ↔
      ((k.getHash hash).val : Int) < k.target * (k.stakeValue / 100)) ∧
    ∀ v, 0 < v → v < k.stakeValue →
      { k with stakeValue := v }.checkKernelHash hash = .ok true → k.checkKernelHash hash = .ok true

/-- The networks. -/
inductive Network
  | main
  | test
  | regtest

/-- `nMaxMoneyOut`. -/
def Network.nMaxMoneyOut : Network → Int
  | .main => 21000000 * 100000000
  | .test => 21000000 * 100000000
  | .regtest => 43199500 * 100000000

/-- `ProofOfStakeLimit`: `posLimitV2` from the second time protocol on, `posLimitV1` before. -/
def Network.proofOfStakeLimit (_ : Network) (fV2 : Bool) : Nat :=
  if fV2 then 0x00000fffffffffffffffffffffffffffffffffffffffffffffffffffffffffff
  else 0x000000ffffffffffffffffffffffffffffffffffffffffffffffffffffffffff

theorem Network.nMaxMoneyOut_lt (net : Network) : net.nMaxMoneyOut < 2 ^ 63 := by
  cases net <;> decide

/-- With a product inside the width, the check decides the comparison of integers. -/
theorem checkKernelHash_iff {k : StakeKernel} (hpos : 0 ≤ k.stakeValue)
    (hmax : k.stakeValue < 2 ^ 63) (hfit : k.target * k.weight < 2 ^ 256) :
    k.checkKernelHash hash = .ok true ↔ (k.getHash hash).val < k.target * k.weight := by
  rw [checkKernelHash_ok hash k hpos hmax, Nat.mod_eq_of_lt hfit]
  simp

theorem target_mul_weight (k : StakeKernel) (hpos : 0 ≤ k.stakeValue) :
    ((k.target * k.weight : Nat) : Int) = k.target * (k.stakeValue / 100) := by
  rw [weight]
  push_cast
  rw [Int.toNat_of_nonneg hpos]

/-- **The weighted target is exact just where it fits.** For every network, target and stake
value: the check compares with the product itself, and is monotone up to that value, if and only
if the product is below `2 ^ 256`. -/
theorem weighsExactly_iff (net : Network) (k : StakeKernel) (hpos : 0 < k.stakeValue)
    (hmax : k.stakeValue ≤ net.nMaxMoneyOut) :
    k.WeighsExactly ↔ (k.target : Int) * (k.stakeValue / 100) < 2 ^ 256 := by
  have hmoney := net.nMaxMoneyOut_lt
  have hproduct := target_mul_weight k hpos.le
  constructor
  · intro hexact
    by_contra hover
    -- The residue itself is a hash below the product that is not below the residue.
    let r : Uint256 := ⟨k.target * k.weight % 2 ^ 256, Nat.mod_lt _ (by positivity)⟩
    have hiff := (hexact fun _ => r).1
    rw [checkKernelHash_ok _ k hpos.le (by omega)] at hiff
    have hbelow : ((k.getHash fun _ => r).val : Int) < k.target * (k.stakeValue / 100) := by
      have : (k.getHash fun _ => r).val < 2 ^ 256 := Fin.isLt _
      omega
    have haccept := hiff.2 hbelow
    simp [getHash, r] at haccept
  · intro hfits hash
    have hfit : k.target * k.weight < 2 ^ 256 := by omega
    have hiff := checkKernelHash_iff hash hpos.le (by omega) hfit
    refine ⟨by rw [hiff, ← hproduct]; omega, ?_⟩
    intro v hv hlt haccept
    -- A smaller value has a smaller product, which fits as well.
    have hweight : v.toNat / 100 ≤ k.weight := Nat.div_le_div_right (by omega)
    have hle : k.target * (v.toNat / 100) ≤ k.target * k.weight := Nat.mul_le_mul_left _ hweight
    have hiff' := checkKernelHash_iff hash (k := { k with stakeValue := v }) hv.le
      (show v < 2 ^ 63 by omega) (Nat.lt_of_le_of_lt hle hfit)
    exact hiff.2 (Nat.lt_of_lt_of_le (hiff'.1 haccept) hle)

end StakeKernel

namespace Sample

/-- A kernel at half of the easiest target, with a hash that depends on nothing. -/
def kernel (value : Int) : StakeKernel :=
  { stakeModifier := [], nTimeBlockFrom := 0, stakeUniqueness := [], nTime := 0
    nBits := 0x1e080000, stakeValue := value }

end Sample

namespace StakeKernel

open Sample

theorem halfStake_exact : (kernel 104857600).WeighsExactly :=
  (weighsExactly_iff .main _ (by decide) (by decide)).2 (by decide +kernel)

/-- With the double value the product is `2 ^ 256` and the weighted target zero: the hash that
is accepted for half the stake is rejected. -/
theorem doubled_stake_rejected : (kernel 209715200).target ≤ Network.main.proofOfStakeLimit true ∧
    (kernel 209715200).stakeValue ≤ Network.main.nMaxMoneyOut ∧
    (kernel 104857600).checkKernelHash (fun _ => 0) = .ok true ∧
    (kernel 209715200).checkKernelHash (fun _ => 0) = .ok false ∧
    ¬(kernel 209715200).WeighsExactly := by
  have haccept : (kernel 104857600).checkKernelHash (fun _ => 0) = .ok true := by decide +kernel
  have hreject : (kernel 209715200).checkKernelHash (fun _ => 0) = .ok false := by decide +kernel
  refine ⟨by decide +kernel, by decide, haccept, hreject, fun hexact => ?_⟩
  have hmono := (hexact fun _ => 0).2 104857600 (by decide) (by decide) haccept
  rw [hreject] at hmono
  exact absurd hmono (by decide)

end StakeKernel

end KmushiCoin
