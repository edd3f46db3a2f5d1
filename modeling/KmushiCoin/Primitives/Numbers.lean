import Mathlib.Data.Nat.Digits.Lemmas
import KmushiCoin.Lib.Canonical
import KmushiCoin.Primitives.Transaction

/-!
# KmushiCoin.Primitives.Numbers

The **variable-length integers** of `serialize.h`. `WriteVarInt` subtracts one from every digit but
the last, so that encodings of different lengths stand for different numbers, and `ReadVarInt`
refuses a number above the target type before it would wrap. `ReadCompactSize` refuses what is
longer than necessary. A **script number** is a sign and a magnitude, in no more bytes than needed
if `fRequireMinimal` is set.
-/

namespace KmushiCoin

open Codec

/-- `WriteVarInt` of an unsigned type of `w` bits. -/
def writeVarInt {w : Nat} (n : BitVec w) : Bytes := putVarInt n.toNat

/-- `ReadVarInt` into an unsigned type of `w` bits. -/
def readVarInt (w : Nat) : Get (BitVec w) := BitVec.ofNat w <$> getVarInt (2 ^ w - 1)

/-- `ReadCompactSize`. -/
def readCompactSize (rangeCheck : Bool) : Get Nat :=
  if rangeCheck then getCompactSize else getByte >>= compactSizeBody

/-- The largest value of an unsigned type ends in seven ones. -/
theorem max_mod {w : Nat} (hw : 7 ≤ w) : (2 ^ w - 1) % 128 = 127 := by
  obtain ⟨k, rfl⟩ := Nat.exists_eq_add_of_le hw
  have hpos : 0 < 2 ^ k := Nat.two_pow_pos k
  rw [pow_add]
  omega

theorem reads_readCompactSize {rangeCheck} {n : Nat} (h64 : n < 2 ^ 64)
    (hle : rangeCheck = true → n ≤ maxSize) :
    Reads (readCompactSize rangeCheck) (putCompactSize n) n := by
  cases rangeCheck with
  | false => exact reads_compactSizeBody h64
  | true => exact reads_getCompactSize (hle rfl)

theorem canonical_readCompactSize (rangeCheck : Bool) :
    Canonical (readCompactSize rangeCheck) putCompactSize := by
  cases rangeCheck with
  | false => exact canonical_compactSizeBody
  | true => exact fun _ _ _ h => (getCompactSize_ok h).1

/-- **Every number has exactly one encoding.** A variable-length integer of any unsigned type is
read back, only its encoding is accepted for it, and an encoding of a number above the type's
maximum is refused. A compact size is read back, and only its shortest form is accepted. -/
theorem numbers_one_to_one (w : Nat) (hw : 7 ≤ w ∧ w ≤ 64) :
    (∀ n : BitVec w, Reads (readVarInt w) (writeVarInt n) n) ∧
    Canonical (readVarInt w) writeVarInt ∧
    (∀ bs (n : BitVec w), VarIntOf bs n.toNat ↔ bs = writeVarInt n) ∧
    (∀ bs n, VarIntOf bs n → 2 ^ w ≤ n → Refuses (readVarInt w) bs) ∧
    (∀ rangeCheck (n : Nat), n < 2 ^ 64 → (rangeCheck = true → n ≤ maxSize) →
      Reads (readCompactSize rangeCheck) (putCompactSize n) n) ∧
    ∀ rangeCheck, Canonical (readCompactSize rangeCheck) putCompactSize := by
  have hm := max_mod hw.1
  have hpos : 0 < 2 ^ w := Nat.two_pow_pos w
  have hmax : 2 ^ w ≤ 2 ^ 64 := Nat.pow_le_pow_right (by omega) hw.2
  have hlt : ∀ n : BitVec w, n.toNat < 2 ^ 64 := fun n => n.isLt.trans_le hmax
  refine ⟨?_, ?_, ?_, ?_, fun _ _ => reads_readCompactSize, canonical_readCompactSize⟩
  · intro n
    have hr := (reads_getVarInt hm (Nat.le_sub_one_of_lt n.isLt) (hlt n)).map (f := BitVec.ofNat w)
    rwa [BitVec.ofNat_toNat, BitVec.setWidth_eq] at hr
  · intro s a rest h
    obtain ⟨n, hrun, rfl⟩ := run_map_ok.mp h
    obtain ⟨high, last, rfl, hhigh, hlast, hval, hle⟩ := varIntLoop_ok hm hrun
    have henc : VarIntOf (high ++ [last]) n := ⟨high, last, rfl, hhigh, hlast, hval⟩
    have hn : (BitVec.ofNat w n).toNat = n := Nat.mod_eq_of_lt (by omega)
    rw [writeVarInt, hn, ← henc.eq_putVarInt (by omega)]
    simp
  · intro bs n
    constructor
    · intro h
      exact h.eq_putVarInt (hlt n)
    · rintro rfl
      exact varIntOf_putVarInt (hlt n)
  · rintro _ n ⟨high, last, rfl, hhigh, hlast, rfl⟩ hn rest a rest' h
    obtain ⟨m, hrun, -⟩ := run_map_ok.mp h
    have hrefused := varIntLoop_digits hm hhigh hlast 0 rest
    rw [if_neg (by omega)] at hrefused
    rw [List.append_assoc] at hrun
    exact nomatch hrefused.symm.trans hrun

theorem numbers_one_to_one_uint32 : Reads (readVarInt 32) (writeVarInt (16511 : BitVec 32)) 16511 :=
  (numbers_one_to_one 32 (by omega)).1 16511

/-! ### Script numbers -/

namespace ScriptNum

/-- `vch.back()`, or zero if there is none. -/
def back (vch : Bytes) : Nat := (vch.getLastD 0).toNat

/-- `CScriptNum::serialize`: the magnitude from the lowest byte on. The sign is the top bit of the
last byte, or has a byte of its own where that bit is taken. -/
def serialize (value : Int) : Bytes :=
  let result := (Nat.digits 256 value.natAbs).map UInt8.ofNat
  if value = 0 then []
  else if 0x80 ≤ back result then result ++ [if value < 0 then 0x80 else 0]
  else if value < 0 then result.dropLast ++ [UInt8.ofNat (back result + 0x80)]
  else result

/-- The sum of the shifted bytes. -/
def shifted (vch : Bytes) : Nat := Nat.ofDigits 256 (vch.map UInt8.toNat)

/-- `CScriptNum::set_vch`. A shift by 64 bits is undefined. -/
def setVch (vch : Bytes) : Outcome Int :=
  if 8 < vch.length then .error (.abort "8 * i < 64")
  else if 0x80 ≤ back vch then .ok (-(shifted vch - 0x80 * 256 ^ (vch.length - 1) : Nat))
  else .ok (shifted vch)

/-- Whether the last byte is needed: it has more than a sign, or the byte before has no room for
it. -/
def isMinimal (vch : Bytes) : Bool :=
  vch = [] || back vch % 0x80 ≠ 0 || 0x80 ≤ back vch.dropLast

/-- The constructor of `CScriptNum` from a byte string. -/
def decode (vch : Bytes) (fRequireMinimal : Bool) (nMaxNumSize : Nat) : Outcome Int :=
  if nMaxNumSize < vch.length then .error (.throw "script number overflow")
  else if fRequireMinimal && !isMinimal vch then
    .error (.throw "non-minimally encoded script number")
  else setVch vch

/-- The number with a sign and a magnitude. -/
def signed (neg : Bool) (a : Nat) : Int := if neg then -a else a

/-- The byte with a sign and seven bits of the magnitude. -/
def top (neg : Bool) (c : Nat) : UInt8 := UInt8.ofNat (if neg then c + 0x80 else c)

variable {m : Bytes} {c : Nat} {neg : Bool}

@[simp] theorem back_concat (m : Bytes) (b : UInt8) : back (m ++ [b]) = b.toNat := by
  simp [back]

@[simp] theorem shifted_concat (m : Bytes) (b : UInt8) :
    shifted (m ++ [b]) = shifted m + 256 ^ m.length * b.toNat := by
  simp [shifted, Nat.ofDigits_append]

theorem toNat_top (hc : c < 0x80) : (top neg c).toNat = if neg then c + 0x80 else c := by
  rw [top, UInt8.toNat_ofNat']
  split_ifs <;> omega

theorem exists_top (b : UInt8) : ∃ neg c, c < 0x80 ∧ b = top neg c := by
  have hlt := b.toNat_lt
  by_cases hneg : 0x80 ≤ b.toNat
  · exact ⟨true, b.toNat - 0x80, by omega, by simp [top, Nat.sub_add_cancel hneg]⟩
  · exact ⟨false, b.toNat, by omega, by simp [top]⟩

theorem isMinimal_concat (hc : c < 0x80) :
    isMinimal (m ++ [top neg c]) = true ↔ c ≠ 0 ∨ 0x80 ≤ back m := by
  have hmod : (top neg c).toNat % 0x80 = c := by
    rw [toNat_top hc]
    split_ifs <;> omega
  simp [isMinimal, hmod]

theorem setVch_concat (hc : c < 0x80) (hlen : m.length < 8) :
    setVch (m ++ [top neg c]) = .ok (signed neg (shifted m + 256 ^ m.length * c)) := by
  have hshort : ¬ 8 < (m ++ [top neg c]).length := by simpa using hlen
  rw [setVch, if_neg hshort, back_concat, shifted_concat, toNat_top hc, signed]
  cases neg with
  | true =>
    have hdrop : shifted m + 256 ^ m.length * (c + 0x80) - 0x80 * 256 ^ m.length =
        shifted m + 256 ^ m.length * c := by
      rw [Nat.mul_add, mul_comm 0x80, ← Nat.add_assoc, Nat.add_sub_cancel]
    simp [hdrop]
  | false => simp [hc]

theorem digits_shifted {l : Bytes} (hl : back l ≠ 0) :
    (Nat.digits 256 (shifted l)).map UInt8.ofNat = l := by
  rw [shifted, Nat.digits_ofDigits 256 (by decide)]
  · simp [Function.comp_def]
  · simpa using fun b _ => UInt8.toNat_lt b
  · intro hne
    obtain ⟨l, b, rfl⟩ := l.eq_nil_or_concat'.resolve_left (by rintro rfl; simp at hne)
    simpa using hl

/-- The encoding of a magnitude whose last byte is not zero. -/
theorem serialize_shifted {l : Bytes} (hl : back l ≠ 0) :
    serialize (signed neg (shifted l)) = if 0x80 ≤ back l then l ++ [top neg 0]
      else l.dropLast ++ [top neg (back l)] := by
  have hdigits := digits_shifted hl
  have hpos : shifted l ≠ 0 := by
    intro hzero
    rw [hzero] at hdigits
    exact hl (by simp [← hdigits, back])
  have habs : (signed neg (shifted l)).natAbs = shifted l := by cases neg <;> simp [signed]
  have hneg : signed neg (shifted l) < 0 ↔ neg = true := by
    cases neg <;> simp [signed, Nat.pos_of_ne_zero hpos]
  simp only [serialize, habs, hdigits, hneg, show signed neg (shifted l) ≠ 0 by omega, if_false]
  obtain ⟨l, b, rfl⟩ := l.eq_nil_or_concat'.resolve_left (by rintro rfl; exact hl rfl)
  cases neg <;> simp [top]

/-- **The encoding of a sign and a magnitude** with room for it, of which no byte can be left out. -/
theorem serialize_signed (hc : c < 0x80) (hmin : c ≠ 0 ∨ 0x80 ≤ back m) :
    serialize (signed neg (shifted m + 256 ^ m.length * c)) = m ++ [top neg c] := by
  by_cases hzero : c = 0
  · have hback := hmin.resolve_left (not_not.mpr hzero)
    rw [hzero, Nat.mul_zero, Nat.add_zero, serialize_shifted (by omega), if_pos hback]
  · have hval : (UInt8.ofNat c).toNat = c := by simp; omega
    have hser : serialize (signed neg (shifted (m ++ [UInt8.ofNat c]))) = _ :=
      serialize_shifted (by simpa [hval])
    simpa [hval, Nat.not_le.mpr hc] using hser

/-- Every magnitude can be written so. -/
theorem exists_magnitude {a k : Nat} (ha : a ≠ 0) (hlt : a < 0x80 * 256 ^ k) :
    ∃ m c, c < 0x80 ∧ (c ≠ 0 ∨ 0x80 ≤ back m) ∧ m.length ≤ k ∧
      shifted m + 256 ^ m.length * c = a := by
  induction k generalizing a with
  | zero => exact ⟨[], a, by omega, .inl ha, le_rfl, by simp [shifted]⟩
  | succ k ih =>
    by_cases hone : a / 256 = 0
    · by_cases hsmall : a < 0x80
      · exact ⟨[], a, hsmall, .inl ha, by simp, by simp [shifted]⟩
      · have hval : (UInt8.ofNat a).toNat = a := by simp; omega
        have hlast : 0x80 ≤ back [UInt8.ofNat a] := by
          rw [← List.nil_append [_], back_concat, hval]
          omega
        refine ⟨[UInt8.ofNat a], 0, by omega, .inr hlast, by simp, ?_⟩
        rw [← List.nil_append [_], shifted_concat, hval]
        simp [shifted]
    · obtain ⟨m, c, hc, hmin, hlen, hval⟩ := ih hone (by omega)
      refine ⟨UInt8.ofNat (a % 256) :: m, c, hc, hmin.imp_right fun hback => ?_, by simpa, ?_⟩
      · obtain ⟨m, b, rfl⟩ :=
          m.eq_nil_or_concat'.resolve_left (by rintro rfl; simp [back] at hback)
        rwa [← List.cons_append, back_concat] at *
      · have hmod := Nat.mod_add_div a 256
        rw [← hval] at hmod
        simp [shifted, Nat.ofDigits_cons, pow_succ] at hmod ⊢
        linarith

/-- **Minimal encodings and numbers correspond one to one.** The encoding of every 64-bit number but
the least is minimal and decodes to it, and every byte string that is accepted as minimal is the
encoding of its value. Up to a limit of 8 bytes no shift is undefined. -/
theorem minimal_encodings_one_to_one :
    (∀ n : Int, -2 ^ 63 < n → n < 2 ^ 63 → isMinimal (serialize n) = true ∧
      ∀ fRequireMinimal nMaxNumSize, (serialize n).length ≤ nMaxNumSize →
        decode (serialize n) fRequireMinimal nMaxNumSize = .ok n) ∧
    (∀ vch nMaxNumSize n, decode vch true nMaxNumSize = .ok n → serialize n = vch) ∧
    ∀ vch fRequireMinimal nMaxNumSize text, nMaxNumSize ≤ 8 →
      decode vch fRequireMinimal nMaxNumSize ≠ .error (.abort text) := by
  refine ⟨?_, ?_, ?_⟩
  · intro n hlow hhigh
    have hset : isMinimal (serialize n) = true ∧ setVch (serialize n) = .ok n := by
      by_cases hzero : n = 0
      · subst hzero
        exact ⟨rfl, rfl⟩
      · obtain ⟨m, c, hc, hmin, hlen, hval⟩ :=
          exists_magnitude (a := n.natAbs) (k := 7) (by omega) (by omega)
        have hn : signed (decide (n < 0)) n.natAbs = n := by
          unfold signed
          split_ifs with hneg <;> simp at hneg <;> omega
        rw [← hn, ← hval, serialize_signed hc hmin]
        exact ⟨(isMinimal_concat hc).mpr hmin, setVch_concat hc (by omega)⟩
    refine ⟨hset.1, fun r k hk => ?_⟩
    rw [decode, if_neg (by omega), hset.1, hset.2]
    simp
  · intro vch k n h
    unfold decode at h
    split_ifs at h with hmax hmin
    obtain rfl | ⟨m, b, rfl⟩ := vch.eq_nil_or_concat'
    · cases h
      rfl
    · obtain ⟨neg, c, hc, rfl⟩ := exists_top b
      have hlen : m.length < 8 := by
        by_contra hlong
        rw [setVch, if_pos (by simp; omega)] at h
        cases h
      obtain rfl := ok_unique (setVch_concat hc hlen) h
      exact serialize_signed hc ((isMinimal_concat hc).mp (by simpa using hmin))
  · intro vch r k text hk h
    unfold decode setVch at h
    split_ifs at h <;> cases h
    omega

end ScriptNum

end KmushiCoin
