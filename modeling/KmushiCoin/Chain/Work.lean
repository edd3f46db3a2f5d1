import KmushiCoin.Staking.Kernel

/-!
# KmushiCoin.Chain.Work

**The work of a chain**, in words of 32 bits: `GetBlockProof` divides the number of hashes by the
number of those that the target allows, and `AddToBlockIndex` adds up the proofs of a chain. The
division never throws, and the sum is exact until it is larger than `2 ^ 256` (`value_chainWork`). A
block with a proof of work adds at least the work of the limit (`chainWork_grows`).
-/

namespace KmushiCoin

open Words ArithUint256

/-- The flags and the number of bits that stand for no target. -/
def noTarget (d : Decoded) : Bool := d.fNegative || d.fOverflow || d.target = zero

/-- `CheckProofOfWork`. -/
def checkProofOfWork (powLimit hash : Uint256) (nBits : BitVec 32) : Bool :=
  let d := setCompact nBits
  !noTarget d && d.target.compareTo (ofUint256 powLimit) != .gt &&
    (ofUint256 hash).compareTo d.target != .gt

/-- `GetBlockProof`, for the bits of a block. -/
def getBlockProof (nBits : BitVec 32) : Outcome ArithUint256 :=
  let d := setCompact nBits
  if noTarget d then .ok zero
  else
    match d.target.not.div (d.target.add (ofUint64 1)) with
    | none => .error (.throw "Division by zero")
    | some q => .ok (q.add (ofUint64 1))

/-- The `nChainWork` that `AddToBlockIndex` computes, from the bits of a chain; the last block comes
first. -/
def chainWork : List (BitVec 32) → Outcome ArithUint256
  | [] => .ok zero
  | nBits :: bits => do
    let nChainWork ← chainWork bits
    let proof ← getBlockProof nBits
    .ok (nChainWork.add proof)

/-- The work of a block as a number. -/
def workOf (nBits : BitVec 32) : Nat :=
  if noTarget (setCompact nBits) then 0 else 2 ^ 256 / (compactNumber nBits + 1)

variable {nBits : BitVec 32}

/-- A target is the number of the bits, neither zero nor the largest one. -/
theorem value_of_target (h : noTarget (setCompact nBits) = false) :
    (setCompact nBits).target.value = compactNumber nBits ∧ 0 < compactNumber nBits ∧
      compactNumber nBits + 1 < 2 ^ 256 := by
  obtain ⟨hvalue, hflag⟩ := setCompact_exact nBits
  have hlt : compactNumber nBits < 2 ^ 256 := by
    rw [← not_le, ← hflag]
    intro hover
    simp [noTarget, hover] at h
  rw [Nat.mod_eq_of_lt hlt] at hvalue
  refine ⟨hvalue, Nat.pos_of_ne_zero fun hzero => ?_, ?_⟩
  · simp [noTarget, eq_zero_of_value (hvalue.trans hzero)] at h
  · unfold compactNumber at hlt ⊢
    dsimp only at hlt ⊢
    split_ifs at hlt ⊢ with hsmall
    · have hle := Nat.div_le_self (nBits.toNat % 2 ^ 23) (2 ^ (8 * (3 - nBits.toNat / 2 ^ 24)))
      omega
    · -- the largest number is odd
      obtain ⟨k, hk⟩ : ∃ k, 8 * (nBits.toNat / 2 ^ 24 - 3) = k + 1 := ⟨_, (Nat.succ_pred (by omega)).symm⟩
      rw [hk, pow_succ 2 k, ← mul_assoc] at hlt ⊢
      omega

/-- **The proof of a block** is a quotient of numbers that do not fit in the words. -/
theorem value_getBlockProof (nBits : BitVec 32) :
    ∃ w, getBlockProof nBits = .ok w ∧ w.value = workOf nBits := by
  unfold getBlockProof workOf
  dsimp only
  cases h : noTarget (setCompact nBits) with
  | true => exact ⟨zero, rfl, value_zero⟩
  | false =>
    obtain ⟨hvalue, hpos, hlt⟩ := value_of_target h
    have hone : (ofUint64 1).value = 1 := value_ofUint64 1
    have hsucc : ((setCompact nBits).target.add (ofUint64 1)).value = compactNumber nBits + 1 := by
      rw [value_add, hvalue, hone, Nat.mod_eq_of_lt hlt]
    have hnot : (setCompact nBits).target.not.value = 2 ^ 256 - (compactNumber nBits + 1) := by
      have hsum := (setCompact nBits).target.low_not_add le_rfl
      simp only [value] at hvalue ⊢
      omega
    obtain ⟨q, hq, hdiv⟩ := value_div (setCompact nBits).target.not (by rw [hsucc]; omega)
    rw [hsucc, hnot] at hdiv
    have hquot := Nat.div_eq_sub_div (by omega : 0 < compactNumber nBits + 1) hlt.le
    have hless : 2 ^ 256 / (compactNumber nBits + 1) < 2 ^ 256 :=
      Nat.div_lt_self (by decide) (by omega)
    rw [hq]
    refine ⟨_, rfl, ?_⟩
    rw [value_add, hone, hdiv, ← hquot]
    exact Nat.mod_eq_of_lt hless

/-- **The work of a chain** is the sum of the work of its blocks. -/
theorem value_chainWork (bits : List (BitVec 32)) :
    ∃ w, chainWork bits = .ok w ∧ w.value = (bits.map workOf).sum % 2 ^ 256 := by
  induction bits with
  | nil => exact ⟨zero, rfl, value_zero⟩
  | cons nBits bits ih =>
    obtain ⟨w, hw, hvalue⟩ := ih
    obtain ⟨proof, hproof, hwork⟩ := value_getBlockProof nBits
    refine ⟨w.add proof, by rw [chainWork, hw, ok_bind, hproof, ok_bind], ?_⟩
    rw [value_add, hvalue, hwork, List.map_cons, List.sum_cons, Nat.mod_add_mod, Nat.add_comm]

theorem checkProofOfWork_inv {powLimit hash : Uint256}
    (h : checkProofOfWork powLimit hash nBits = true) : noTarget (setCompact nBits) = false ∧
      compactNumber nBits ≤ powLimit.val ∧ hash.val ≤ compactNumber nBits := by
  simp only [checkProofOfWork, Bool.and_eq_true, Bool.not_eq_true', bne_iff_ne, compareTo_eq, ne_eq,
    Nat.compare_eq_gt, not_lt, value_ofUint256] at h
  obtain ⟨⟨htarget, hlimit⟩, hhash⟩ := h
  rw [(value_of_target htarget).1] at hlimit hhash
  exact ⟨htarget, hlimit, hhash⟩

/-- **A proof of work adds work**: at least that of the limit, as long as the sum fits. -/
theorem chainWork_grows {powLimit hash : Uint256} {bits : List (BitVec 32)}
    (hpow : checkProofOfWork powLimit hash nBits = true)
    (hfits : ((nBits :: bits).map workOf).sum < 2 ^ 256) :
    ∃ w w', chainWork bits = .ok w ∧ chainWork (nBits :: bits) = .ok w' ∧
      w'.value = ((nBits :: bits).map workOf).sum ∧ w.value + 2 ^ 256 / (powLimit.val + 1) ≤ w'.value := by
  obtain ⟨w, hw, hvalue⟩ := value_chainWork bits
  obtain ⟨w', hw', hvalue'⟩ := value_chainWork (nBits :: bits)
  obtain ⟨htarget, hlimit, -⟩ := checkProofOfWork_inv hpow
  have hle : 2 ^ 256 / (powLimit.val + 1) ≤ workOf nBits := by
    rw [workOf, htarget]
    exact Nat.div_le_div_left (by omega) (by omega)
  rw [Nat.mod_eq_of_lt hfits] at hvalue'
  rw [List.map_cons, List.sum_cons] at hfits hvalue' ⊢
  rw [Nat.mod_eq_of_lt (by omega)] at hvalue
  exact ⟨w, w', hw, hw', hvalue', by omega⟩

/-- Two blocks with the easiest target of the regression tests. -/
theorem chainWork_grows_regtest : ∃ w w', chainWork [0x207fffff] = .ok w ∧
    chainWork [0x207fffff, 0x207fffff] = .ok w' ∧ w.value + 2 ≤ w'.value := by
  have hpow : checkProofOfWork (2 ^ 255 - 1) 1 0x207fffff = true := by decide +kernel
  have hfits : (([0x207fffff, 0x207fffff] : List (BitVec 32)).map workOf).sum < 2 ^ 256 := by
    decide +kernel
  obtain ⟨w, w', hw, hw', -, hle⟩ := chainWork_grows hpow hfits
  have htwo : 2 ^ 256 / ((2 ^ 255 - 1 : Uint256).val + 1) = 2 := by decide +kernel
  exact ⟨w, w', hw, hw', htwo ▸ hle⟩

end KmushiCoin
