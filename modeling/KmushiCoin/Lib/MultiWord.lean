import Mathlib.Algebra.BigOperators.Intervals
import Mathlib.Algebra.Order.BigOperators.Group.Finset
import Mathlib.Data.Nat.ModEq
import Mathlib.Data.Nat.Size
import Mathlib.Tactic.Ring
import Mathlib.Tactic.IntervalCases
import Mathlib.Tactic.Linarith

/-!
# Multi-word unsigned integers

Numbers of a fixed width kept as an array of machine words, the least significant first, with
the loops that big-number code runs over them:

* `Words.add`, `Words.mul` — the ripple-carry sum and the schoolbook product, with a carry of
  double width that is dropped after the last word;
* `Words.shiftLeft`, `Words.shiftRight` — shifts by whole words and the bits that remain;
* `Words.bits`, `Words.compareTo` — scans from the most significant word down;
* `Words.div` — shift and subtract.

Each loop has one specification, over `Words.value`. The word size `w` and the number of words
`W` are arbitrary.
-/

variable {n : Nat}

/-- **The rule for counting loops.** What holds before the first iteration and is carried from
each iteration to the next holds after the last. -/
theorem Nat.fold_invariant {α : Type} (f : (i : Nat) → i < n → α → α) (init : α)
    (P : Nat → α → Prop) (h0 : P 0 init) (hs : ∀ i hi s, P i s → P (i + 1) (f i hi s)) :
    P n (fold n f init) := by
  induction n with
  | zero => exact h0
  | succ n ih =>
    rw [fold_succ]
    exact hs n _ _ (ih _ fun i hi s h => hs i _ s h)

/-- `W` words of `w` bits, the least significant first. -/
abbrev Words (w W : Nat) := Vector (BitVec w) W

namespace Words

open Nat

open Finset

variable {w W : Nat}

/-! ### Words and values -/

/-- Word `i`; zero beyond the width. -/
def word (a : Words w W) (i : Nat) : BitVec w := a[i]?.getD 0

@[simp] theorem getElem_eq_word (a : Words w W) (i : Nat) (h : i < W) : a[i] = a.word i := by
  simp [word, h]

variable {i j s : Nat} (a : Words w W) {b : Words w W}

theorem word_of_ge (h : W ≤ i) : a.word i = 0 := by
  simp [word, h]

@[simp] theorem word_set (i : Nat) (x : BitVec w) (h : i < W) (m : Nat) :
    Words.word (a.set i x h) m = if i = m then x else a.word m := by
  by_cases hm : m < W
  · rw [← getElem_eq_word _ m hm, Vector.getElem_set, getElem_eq_word]
  · have hne : i ≠ m := by omega
    rw [word_of_ge _ (by omega), word_of_ge _ (by omega), if_neg hne]

/-- All words zero. -/
def zero : Words w W := Vector.replicate W 0

@[simp] theorem word_zero (i : Nat) : (zero : Words w W).word i = 0 := by
  by_cases h : i < W
  · simp [← getElem_eq_word _ i h, zero]
  · exact word_of_ge _ (by omega)

theorem two_pow_succ (w i : Nat) : 2 ^ (w * (i + 1)) = 2 ^ w * 2 ^ (w * i) := by
  rw [← pow_add, mul_succ, add_comm]

/-- The number that the lowest `n` words stand for. -/
def low (a : Words w W) (n : Nat) : Nat := ∑ i ∈ range n, (a.word i).toNat * 2 ^ (w * i)

/-- The number that the words stand for. -/
def value (a : Words w W) : Nat := a.low W

@[simp] theorem low_zero : a.low 0 = 0 := rfl

theorem low_succ (n : Nat) : a.low (n + 1) = a.low n + (a.word n).toNat * 2 ^ (w * n) :=
  sum_range_succ _ n

theorem low_lt (n : Nat) : a.low n < 2 ^ (w * n) := by
  induction n with
  | zero => simp
  | succ n ih =>
    have hword : (a.word n).toNat + 1 ≤ 2 ^ w := (a.word n).isLt
    calc a.low (n + 1) = a.low n + (a.word n).toNat * 2 ^ (w * n) := low_succ a n
      _ < 2 ^ (w * n) + (a.word n).toNat * 2 ^ (w * n) := by omega
      _ = ((a.word n).toNat + 1) * 2 ^ (w * n) := by ring
      _ ≤ 2 ^ w * 2 ^ (w * n) := mul_le_mul_right _ hword
      _ = 2 ^ (w * (n + 1)) := (two_pow_succ w n).symm

theorem value_lt : a.value < 2 ^ (w * W) := a.low_lt W

@[simp] theorem value_zero : (zero : Words w W).value = 0 := by simp [value, low]

theorem eq_zero_of_value {a : Words w W} (h : a.value = 0) : a = zero := by
  apply Vector.ext
  intro i hi
  have hterm := sum_eq_zero_iff.mp (show a.low W = 0 from h) i (mem_range.mpr hi)
  rw [getElem_eq_word, getElem_eq_word, word_zero, ← BitVec.toNat_inj]
  simpa using hterm

/-- The words from the `n`th on are a multiple of the `n`th power of the base. -/
theorem exists_low_add {m : Nat} (h : n ≤ m) : ∃ q, a.low m = a.low n + 2 ^ (w * n) * q := by
  induction m, h using le_induction with
  | base => exact ⟨0, by simp⟩
  | succ m hm ih =>
    obtain ⟨q, hq⟩ := ih
    refine ⟨q + (a.word m).toNat * 2 ^ (w * (m - n)), ?_⟩
    have hpow : 2 ^ (w * m) = 2 ^ (w * n) * 2 ^ (w * (m - n)) := by
      rw [← Nat.pow_add, ← Nat.mul_add, Nat.add_sub_cancel' hm]
    rw [low_succ, hq, hpow]
    ring

/-- Words that are zero do not count. -/
theorem value_eq_low (h : n ≤ W) (hz : ∀ i, n ≤ i → a.word i = 0) : a.value = a.low n := by
  have hlow : ∀ m, n ≤ m → a.low m = a.low n := by
    intro m hm
    induction m, hm using le_induction with
    | base => rfl
    | succ m hm ih => simp [low_succ, hz m hm, ih]
  exact hlow W h

/-- Writing a word changes the number by the difference at that word's place. -/
theorem value_set (i : Nat) (x : BitVec w) (h : i < W) :
    Words.value (a.set i x h) + (a.word i).toNat * 2 ^ (w * i) =
      a.value + x.toNat * 2 ^ (w * i) := by
  have hmem : i ∈ range W := mem_range.2 h
  have hrest : ∑ m ∈ (range W).erase i, (Words.word (a.set i x h) m).toNat * 2 ^ (w * m) =
      ∑ m ∈ (range W).erase i, (a.word m).toNat * 2 ^ (w * m) := by
    refine sum_congr rfl fun m hm => ?_
    rw [word_set, if_neg (ne_of_mem_erase hm).symm]
  simp only [value, low]
  rw [← add_sum_erase _ _ hmem, ← add_sum_erase _ _ hmem, hrest, word_set, if_pos rfl]
  omega

/-! ### Double-width sums -/

/-- The low half and the high half of a double-width number. -/
theorem halves (n : BitVec (2 * w)) :
    (n.setWidth w).toNat + (n >>> w).toNat * 2 ^ w = n.toNat ∧ (n >>> w).toNat < 2 ^ w := by
  have hlt : n.toNat < 2 ^ w * 2 ^ w := by
    rw [← pow_add, ← two_mul]
    exact n.isLt
  rw [BitVec.toNat_setWidth, BitVec.toNat_ushiftRight, shiftRight_eq_div_pow]
  exact ⟨Nat.mod_add_div' _ _, Nat.div_lt_of_lt_mul hlt⟩

theorem toNat_widen (x : BitVec w) : (x.setWidth (2 * w)).toNat = x.toNat :=
  BitVec.toNat_setWidth_of_le (by omega)

/-- Carry, word and product of words fit the double width. -/
theorem toNat_mulAdd (c : BitVec (2 * w)) (x p y : BitVec w) (hc : c.toNat < 2 ^ w) :
    (c + x.setWidth (2 * w) + p.setWidth (2 * w) * y.setWidth (2 * w)).toNat =
      c.toNat + x.toNat + p.toNat * y.toNat := by
  have hsq : 2 ^ (2 * w) = 2 ^ w * 2 ^ w := by rw [← pow_add, two_mul]
  have hx := x.isLt
  have hprod : p.toNat * y.toNat ≤ (2 ^ w - 1) * (2 ^ w - 1) :=
    Nat.mul_le_mul (by have := p.isLt; omega) (by have := y.isLt; omega)
  have hfit : c.toNat + x.toNat + p.toNat * y.toNat < 2 ^ (2 * w) := by
    obtain ⟨b, hb⟩ : ∃ b, 2 ^ w = b + 1 := ⟨2 ^ w - 1, by have := Nat.one_le_two_pow (n := w); omega⟩
    rw [hsq]
    rw [hb] at hprod hx hc ⊢
    simp only [Nat.add_sub_cancel] at hprod
    nlinarith
  rw [BitVec.toNat_add, BitVec.toNat_add, BitVec.toNat_mul, toNat_widen, toNat_widen, toNat_widen,
    mod_add_mod, add_mod_mod, mod_eq_of_lt hfit]

/-- Carry and two words fit the double width. -/
theorem toNat_addCarry (c : BitVec (2 * w)) (x y : BitVec w) (hc : c.toNat < 2 ^ w) :
    (c + x.setWidth (2 * w) + y.setWidth (2 * w)).toNat = c.toNat + x.toNat + y.toNat := by
  have hsq : 2 ^ (2 * w) = 2 ^ w * 2 ^ w := by rw [← pow_add, two_mul]
  have hx := x.isLt
  have hy := y.isLt
  have hfit : c.toNat + x.toNat + y.toNat < 2 ^ (2 * w) := by
    rw [hsq]
    rcases lt_or_ge (2 ^ w) 3 with hsmall | hbig
    · interval_cases 2 ^ w <;> omega
    · nlinarith
  rw [BitVec.toNat_add, BitVec.toNat_add, toNat_widen, toNat_widen, mod_add_mod, mod_eq_of_lt hfit]

/-- A double-width sum is stored: its low half is word `i`, its high half the next carry. -/
def store (a : Words w W) (i : Nat) (h : i < W) (n : BitVec (2 * w)) : Words w W × BitVec (2 * w) :=
  (a.set i (n.setWidth w), n >>> w)

theorem store_carry_lt (i : Nat) (h : i < W) (n : BitVec (2 * w)) :
    (a.store i h n).2.toNat < 2 ^ w :=
  (halves n).2

theorem value_store (i : Nat) (h : i < W) (n : BitVec (2 * w)) :
    (a.store i h n).1.value + (a.store i h n).2.toNat * 2 ^ (w * (i + 1)) +
        (a.word i).toNat * 2 ^ (w * i) = a.value + n.toNat * 2 ^ (w * i) := by
  have hset := value_set a i (n.setWidth w) h
  calc (a.store i h n).1.value + (a.store i h n).2.toNat * 2 ^ (w * (i + 1)) +
        (a.word i).toNat * 2 ^ (w * i)
      = (Words.value (a.set i (n.setWidth w) h) + (a.word i).toNat * 2 ^ (w * i)) +
          (n >>> w).toNat * 2 ^ w * 2 ^ (w * i) := by rw [two_pow_succ, store]; ring
    _ = a.value + ((n.setWidth w).toNat + (n >>> w).toNat * 2 ^ w) * 2 ^ (w * i) := by
        rw [hset]; ring
    _ = a.value + n.toNat * 2 ^ (w * i) := by rw [(halves n).1]

/-! ### Sums and differences -/

/-- One iteration of the sum. -/
def addStep (b : Words w W) (i : Nat) (hi : i < W) (s : Words w W × BitVec (2 * w)) :
    Words w W × BitVec (2 * w) :=
  s.1.store i hi (s.2 + (s.1[i]).setWidth (2 * w) + (b[i]).setWidth (2 * w))

/-- `+=`: word by word with the carry; the last carry is dropped. -/
def add (a b : Words w W) : Words w W := (W.fold (addStep b) (a, 0)).1

theorem value_add (b : Words w W) : (a.add b).value = (a.value + b.value) % 2 ^ (w * W) := by
  -- Up to word `i` the sum is made; the carry stands at word `i`.
  have hinv := fold_invariant (addStep b) (a, 0)
    (fun i s => s.2.toNat < 2 ^ w ∧ s.1.value + s.2.toNat * 2 ^ (w * i) = a.value + b.low i)
    ⟨by simp, by simp⟩ fun i hi s ⟨hc, hs⟩ => ⟨store_carry_lt _ _ _ _, by
      have hstore := value_store s.1 i hi
        (s.2 + (s.1.word i).setWidth (2 * w) + (b.word i).setWidth (2 * w))
      rw [toNat_addCarry _ _ _ hc, add_mul, add_mul] at hstore
      rw [low_succ]
      simp only [addStep, getElem_eq_word]
      omega⟩
  have hval : (a.add b).value + _ = a.value + b.value := hinv.2
  rw [← hval, add_mul_mod_self_right, mod_eq_of_lt (value_lt _)]

/-- `~`: every bit is flipped. -/
def not (a : Words w W) : Words w W := a.map (~~~ ·)

@[simp] theorem word_not (h : i < W) : a.not.word i = ~~~ a.word i := by
  rw [← getElem_eq_word _ i h, not, Vector.getElem_map, getElem_eq_word]

theorem low_not_add (h : n ≤ W) : a.not.low n + a.low n + 1 = 2 ^ (w * n) := by
  induction n with
  | zero => simp
  | succ n ih =>
    have hword : (a.not.word n).toNat + (a.word n).toNat + 1 = 2 ^ w := by
      rw [word_not a h, BitVec.toNat_not]
      have := (a.word n).isLt
      omega
    rw [low_succ, low_succ, two_pow_succ, ← hword, add_mul, add_mul, one_mul]
    have := ih (by omega)
    omega

theorem toNat_succ (x : BitVec w) : (x + 1).toNat = (x.toNat + 1) % 2 ^ w := by
  rw [BitVec.toNat_add, show (1 : BitVec w).toNat = 1 % 2 ^ w from BitVec.toNat_ofNat 1 w,
    add_mod_mod]

/-- The loop of `++`: word `i` is incremented, and the next one when it became zero. The first
argument counts the words that are left. -/
def incrFrom : Nat → Nat → Words w W → Words w W
  | 0, _, a => a
  | n + 1, i, a =>
    if h : i < W then
      let a' := a.set i (a[i] + 1)
      if a[i] + 1 = 0 then incrFrom n (i + 1) a' else a'
    else a

/-- `++`. -/
def incr (a : Words w W) : Words w W := incrFrom W 0 a

theorem incrFrom_modEq (h : i + n = W) :
    (incrFrom n i a).value ≡ a.value + 2 ^ (w * i) [MOD 2 ^ (w * W)] := by
  induction n generalizing i a with
  | zero =>
    rw [show i = W by omega]
    exact (add_modEq_right).symm
  | succ n ih =>
    have hi : i < W := by omega
    have hlt := (a.word i).isLt
    have hset := value_set a i (a.word i + 1) hi
    rw [toNat_succ] at hset
    simp only [incrFrom, hi, dite_true, getElem_eq_word]
    split_ifs with hzero
    · -- The word wraps to zero: the missing unit is carried to the next word.
      have hmod : ((a.word i).toNat + 1) % 2 ^ w = 0 := by rw [← toNat_succ, hzero]; rfl
      have hmax : (a.word i).toNat + 1 = 2 ^ w := by
        by_contra hne
        rw [mod_eq_of_lt (by omega)] at hmod
        omega
      have hval : Words.value (a.set i (a.word i + 1) hi) + 2 ^ (w * (i + 1)) =
          a.value + 2 ^ (w * i) := by
        rw [hmod] at hset
        rw [two_pow_succ, ← hmax, add_mul, one_mul]
        omega
      exact hval ▸ ih _ (by omega)
    · have hsmall : (a.word i).toNat + 1 < 2 ^ w := by
        by_contra hge
        apply hzero
        apply BitVec.eq_of_toNat_eq
        rw [toNat_succ, show (a.word i).toNat + 1 = 2 ^ w by omega, mod_self]
        rfl
      rw [mod_eq_of_lt hsmall, add_mul, one_mul] at hset
      rw [show Words.value (a.set i (a.word i + 1) hi) = a.value + 2 ^ (w * i) by omega]

/-- Unary `-`: the complement, incremented. -/
def neg (a : Words w W) : Words w W := a.not.incr

theorem value_neg_add : a.neg.value + a.value ≡ 0 [MOD 2 ^ (w * W)] := by
  have hincr := incrFrom_modEq a.not (show 0 + W = W by omega)
  rw [mul_zero, pow_zero] at hincr
  have hnot : a.not.value + a.value + 1 = 2 ^ (w * W) := low_not_add a le_rfl
  refine (hincr.add_right a.value).trans ?_
  rw [show a.not.value + 1 + a.value = 2 ^ (w * W) by omega]
  exact modEq_zero_iff_dvd.2 dvd_rfl

/-- `-=`: the sum with the negation. -/
def sub (a b : Words w W) : Words w W := a.add b.neg

theorem value_sub {a : Words w W} (h : b.value ≤ a.value) : (a.sub b).value = a.value - b.value := by
  have hlt := value_lt a
  obtain ⟨k, hk⟩ := modEq_zero_iff_dvd.1 (value_neg_add b)
  rw [sub, value_add]
  have hsum : a.value + b.neg.value = (a.value - b.value) + 2 ^ (w * W) * k := by omega
  rw [hsum, add_mul_mod_self_left, mod_eq_of_lt (by omega)]

/-! ### Products -/

/-- One iteration of the inner loop of the product, which adds the multiple of `b` by the word
`p` at the place `j`. -/
def mulStep (p : BitVec w) (b : Words w W) (j : Nat) (i : Nat) (hi : i < W - j)
    (s : Words w W × BitVec (2 * w)) : Words w W × BitVec (2 * w) :=
  s.1.store (i + j) (by omega)
    (s.2 + (s.1[i + j]).setWidth (2 * w) + p.setWidth (2 * w) * (b[i]).setWidth (2 * w))

/-- The inner loop of the product. -/
def mulRow (p : BitVec w) (b : Words w W) (j : Nat) (a : Words w W) : Words w W :=
  ((W - j).fold (mulStep p b j) (a, 0)).1

/-- `*=`: one row for each word; what leaves the width is dropped. -/
def mul (a b : Words w W) : Words w W := W.fold (fun j _ c => mulRow a[j] b j c) zero

theorem mulRow_modEq (p : BitVec w) (b : Words w W) (hj : j < W) (a : Words w W) :
    (mulRow p b j a).value ≡ a.value + p.toNat * b.value * 2 ^ (w * j) [MOD 2 ^ (w * W)] := by
  have hinv := fold_invariant (mulStep p b j) (a, 0) (fun i s => s.2.toNat < 2 ^ w ∧
      s.1.value + s.2.toNat * 2 ^ (w * (i + j)) = a.value + p.toNat * b.low i * 2 ^ (w * j))
    ⟨by simp, by simp⟩ fun i hi s ⟨hc, hs⟩ => ⟨store_carry_lt _ _ _ _, by
      have hstore := value_store s.1 (i + j) (by omega) (s.2 + (s.1.word (i + j)).setWidth (2 * w) +
          p.setWidth (2 * w) * (b.word i).setWidth (2 * w))
      have hnext : p.toNat * b.low (i + 1) * 2 ^ (w * j) =
          p.toNat * b.low i * 2 ^ (w * j) + p.toNat * (b.word i).toNat * 2 ^ (w * (i + j)) := by
        rw [low_succ, mul_add w i j, pow_add]
        ring
      rw [toNat_mulAdd _ _ _ _ hc, add_mul, add_mul] at hstore
      rw [hnext, add_right_comm i 1 j]
      simp only [mulStep, getElem_eq_word]
      omega⟩
  have hval : (mulRow p b j a).value + _ = _ := hinv.2
  -- The carry and the words of `b` that are not reached lie beyond the width.
  obtain ⟨q, hq⟩ := b.exists_low_add (show W - j ≤ W by omega)
  have hbeyond : p.toNat * b.value * 2 ^ (w * j) =
      p.toNat * b.low (W - j) * 2 ^ (w * j) + 2 ^ (w * W) * (p.toNat * q) := by
    have hpow : 2 ^ (w * W) = 2 ^ (w * (W - j)) * 2 ^ (w * j) := by
      rw [← Nat.pow_add, ← Nat.mul_add, Nat.sub_add_cancel hj.le]
    rw [value, hq, hpow]
    ring
  rw [Nat.sub_add_cancel hj.le] at hval
  rw [hbeyond, ← add_assoc, ← hval]
  simp [ModEq, add_mul_mod_self_right, add_mul_mod_self_left]

theorem value_mul (b : Words w W) : (a.mul b).value = a.value * b.value % 2 ^ (w * W) := by
  have hinv := fold_invariant (fun j (_ : j < W) c => mulRow a[j] b j c) zero
    (fun j c => c.value ≡ a.low j * b.value [MOD 2 ^ (w * W)])
    (by simp [ModEq]) fun j hj c hc => by
      refine (mulRow_modEq _ b hj c).trans ?_
      rw [low_succ, add_mul, getElem_eq_word, mul_right_comm _ b.value]
      exact hc.add_right _
  have hmod : (a.mul b).value % 2 ^ (w * W) = a.value * b.value % 2 ^ (w * W) := hinv
  rwa [mod_eq_of_lt (value_lt _)] at hmod

/-! ### Scans from the top -/

/-- The loop of `CompareTo` below word `n`. -/
def compareBelow (a b : Words w W) : (n : Nat) → n ≤ W → Ordering
  | 0, _ => .eq
  | n + 1, _ => if a[n] < b[n] then .lt else if b[n] < a[n] then .gt else compareBelow a b n (by omega)

/-- The order of two numbers, decided by the most significant word that differs. -/
def compareTo (a b : Words w W) : Ordering := compareBelow a b W le_rfl

theorem low_lt_low {a : Words w W} (h : a.word n < b.word n) : a.low (n + 1) < b.low (n + 1) := by
  have hword : (a.word n).toNat + 1 ≤ (b.word n).toNat := h
  have hmul := mul_le_mul_right (2 ^ (w * n)) hword
  have hlow := a.low_lt n
  rw [add_mul, one_mul] at hmul
  rw [low_succ, low_succ]
  omega

theorem compareBelow_eq (b : Words w W) (n : Nat) (h : n ≤ W) :
    compareBelow a b n h = compare (a.low n) (b.low n) := by
  induction n with
  | zero => rfl
  | succ n ih =>
    simp only [compareBelow, getElem_eq_word]
    split_ifs with hlt hgt
    · exact (Nat.compare_eq_lt.2 (low_lt_low hlt)).symm
    · exact (Nat.compare_eq_gt.2 (low_lt_low hgt)).symm
    · have heq : a.word n = b.word n := BitVec.le_antisymm (BitVec.not_lt.1 hgt) (BitVec.not_lt.1 hlt)
      rw [ih, low_succ, low_succ, heq]
      simp only [compare, compareOfLessAndEq, add_lt_add_iff_right, add_right_cancel_iff]

theorem compareTo_eq (b : Words w W) : a.compareTo b = compare a.value b.value :=
  compareBelow_eq a b W le_rfl

/-- The position of the highest bit of a word that is not zero, counted from one: bits `b` down
to 1 are tested, and bit 0 is what remains. -/
def topBit (x : BitVec w) : Nat → Nat
  | 0 => 1
  | b + 1 => if x.getLsbD (b + 1) then b + 2 else topBit x b

theorem topBit_eq {x : BitVec w} {b : Nat} (hx : x.toNat ≠ 0) (hb : x.toNat < 2 ^ (b + 1)) :
    topBit x b = x.toNat.size := by
  induction b with
  | zero =>
    have : x.toNat = 1 := by omega
    rw [this]
    rfl
  | succ b ih =>
    rw [topBit]
    split_ifs with hbit
    · have hge : 2 ^ (b + 1) ≤ x.toNat := ge_two_pow_of_testBit hbit
      exact le_antisymm (lt_size.2 hge) (size_le.2 hb)
    · apply ih
      by_contra hge
      apply hbit
      rw [BitVec.getLsbD, testBit_eq_decide_div_mod_eq]
      have hdiv : x.toNat / 2 ^ (b + 1) = 1 := by
        rw [Nat.div_eq_iff (by positivity)]
        omega
      simp [hdiv]

theorem size_add_mul {l x k : Nat} (hl : l < 2 ^ k) (hx : x ≠ 0) :
    (l + x * 2 ^ k).size = k + x.size := by
  have hsize : 0 < x.size := size_pos.2 (pos_of_ne_zero hx)
  apply le_antisymm
  · rw [size_le, pow_add]
    have hx' : (x + 1) * 2 ^ k ≤ 2 ^ x.size * 2 ^ k := mul_le_mul_right _ (lt_size_self x)
    rw [add_mul, one_mul] at hx'
    rw [mul_comm (2 ^ k)]
    omega
  · have htop : 2 ^ (x.size - 1) ≤ x := lt_size.1 (by omega)
    have hmul := mul_le_mul_right (2 ^ k) htop
    have hlt : k + (x.size - 1) < (l + x * 2 ^ k).size := by
      rw [lt_size, pow_add, mul_comm (2 ^ k)]
      omega
    omega

/-- The loop of `bits` below word `n`. -/
def bitsBelow (a : Words w W) : (n : Nat) → n ≤ W → Nat
  | 0, _ => 0
  | n + 1, _ => if a[n] ≠ 0 then w * n + topBit a[n] (w - 1) else bitsBelow a n (by omega)

/-- The number of bits up to the highest one that is set. -/
def bits (a : Words w W) : Nat := bitsBelow a W le_rfl

theorem bitsBelow_eq (n : Nat) (h : n ≤ W) : bitsBelow a n h = (a.low n).size := by
  induction n with
  | zero => rfl
  | succ n ih =>
    simp only [bitsBelow, getElem_eq_word]
    split_ifs with hword
    · have hpos : (a.word n).toNat ≠ 0 := fun h0 => hword (BitVec.eq_of_toNat_eq h0)
      have hw : w - 1 + 1 = w := by
        have := (a.word n).isLt
        rcases Nat.eq_zero_or_pos w with rfl | hw
        · simp at this
          omega
        · omega
      rw [low_succ, size_add_mul (a.low_lt n) hpos, topBit_eq hpos (by rw [hw]; exact (a.word n).isLt)]
    · have hzero : a.word n = 0 := not_not.1 hword
      rw [ih, low_succ, hzero]
      simp

theorem bits_eq : a.bits = a.value.size := bitsBelow_eq a W le_rfl

/-! ### Single bits -/

theorem testBit_value (h : n < w * W) : a.value.testBit n = (a.word (n / w)).getLsbD (n % w) := by
  have hw : 0 < w := Nat.pos_of_mul_pos_right (Nat.zero_lt_of_lt h)
  have hword : n / w < W := Nat.div_lt_of_lt_mul h
  obtain ⟨q, hq⟩ := a.exists_low_add (show n / w + 1 ≤ W from hword)
  have hlow := a.low_lt (n / w)
  have hsplit : a.value = a.low (n / w) +
      2 ^ (w * (n / w)) * ((a.word (n / w)).toNat + 2 ^ w * q) := by
    rw [value, hq, low_succ, two_pow_succ]
    ring
  have hdiv : a.value / 2 ^ (w * (n / w)) = (a.word (n / w)).toNat + 2 ^ w * q := by
    rw [hsplit, add_mul_div_left _ _ (by positivity), div_eq_of_lt hlow, zero_add]
  calc a.value.testBit n = a.value.testBit (n % w + w * (n / w)) := by rw [mod_add_div]
    _ = (a.value / 2 ^ (w * (n / w))).testBit (n % w) := (testBit_div_two_pow _ _).symm
    _ = ((a.value / 2 ^ (w * (n / w))) % 2 ^ w).testBit (n % w) := by
        rw [testBit_mod_two_pow, decide_eq_true (mod_lt n hw), Bool.true_and]
    _ = (a.word (n / w)).getLsbD (n % w) := by
        rw [hdiv, add_mul_mod_self_left, mod_eq_of_lt (a.word _).isLt]
        rfl

/-- A number is known by its bits below the width. -/
theorem value_eq_of_testBit {a : Words w W} {x : Nat} (hx : x < 2 ^ (w * W))
    (h : ∀ n, n < w * W → (a.value.testBit n ↔ x.testBit n)) : a.value = x := by
  apply eq_of_testBit_eq
  intro n
  rcases lt_or_ge n (w * W) with hn | hn
  · exact Bool.eq_iff_iff.2 (h n hn)
  · have hpow : 2 ^ (w * W) ≤ 2 ^ n := Nat.pow_le_pow_right (by omega) hn
    rw [testBit_lt_two_pow ((value_lt a).trans_le hpow),
      testBit_lt_two_pow (hx.trans_le hpow)]

/-- A number cut to the width. -/
def ofNat (x : Nat) : Words w W := Vector.ofFn fun i : Fin W => BitVec.ofNat w (x / 2 ^ (w * i.val))

theorem value_ofNat (x : Nat) : (ofNat x : Words w W).value = x % 2 ^ (w * W) := by
  refine value_eq_of_testBit (mod_lt _ (by positivity)) fun n hn => ?_
  have hw : 0 < w := Nat.pos_of_mul_pos_right (Nat.zero_lt_of_lt hn)
  have hword : n / w < W := Nat.div_lt_of_lt_mul hn
  rw [testBit_value _ hn, ← getElem_eq_word _ _ hword, ofNat, Vector.getElem_ofFn,
    BitVec.getLsbD_ofNat, testBit_div_two_pow, mod_add_div, testBit_mod_two_pow]
  simp [mod_lt n hw, hn]

/-- `pn[i] |= x`, for an index within the width. -/
def orAt (a : Words w W) (i : Nat) (x : BitVec w) : Words w W :=
  if h : i < W then a.set i (a[i] ||| x) else a

theorem testBit_orAt (i : Nat) (x : BitVec w) (h : n < w * W) :
    (a.orAt i x).value.testBit n ↔ a.value.testBit n ∨ (n / w = i ∧ x.getLsbD (n % w)) := by
  have hword : n / w < W := Nat.div_lt_of_lt_mul h
  rw [testBit_value _ h, testBit_value _ h, orAt]
  by_cases hi : i < W
  · rw [dif_pos hi, word_set, getElem_eq_word]
    split_ifs with heq
    · subst heq
      simp
    · simp [Ne.symm heq]
  · rw [dif_neg hi]
    have : n / w ≠ i := by omega
    simp [this]

theorem testBit_ite_orAt (i : Nat) (x : BitVec w) (h : n < w * W) {c : Prop} [Decidable c] :
    (if c then a.orAt i x else a).value.testBit n ↔
      a.value.testBit n ∨ (c ∧ n / w = i ∧ x.getLsbD (n % w)) := by
  split_ifs with hc
  · rw [testBit_orAt _ _ _ h, and_iff_right hc]
  · simp [hc]

/-- Setting a bit above which the number has no lower one adds its weight. -/
theorem value_orAt_bit {a : Words w W} (h : n < w * W) (hdvd : 2 ^ (n + 1) ∣ a.value) :
    (a.orAt (n / w) (BitVec.twoPow w (n % w))).value = a.value + 2 ^ n := by
  have hw : 0 < w := Nat.pos_of_mul_pos_right (Nat.zero_lt_of_lt h)
  obtain ⟨q, hq⟩ := hdvd
  have hor : a.value + 2 ^ n = a.value ||| 2 ^ n := by
    rw [hq]
    exact Nat.two_pow_add_eq_or_of_lt (Nat.pow_lt_pow_right (by omega) (by omega)) q
  have hfit : a.value ||| 2 ^ n < 2 ^ (w * W) :=
    Nat.or_lt_two_pow (value_lt a) (Nat.pow_lt_pow_right (by omega) h)
  rw [hor]
  refine value_eq_of_testBit hfit fun m hm => ?_
  have hplace : m / w = n / w ∧ n % w = m % w ↔ n = m := by
    constructor
    · intro ⟨hdiv, hmod⟩
      rw [← div_add_mod n w, ← div_add_mod m w, hdiv, hmod]
    · exact fun heq => by simp [heq]
  rw [testBit_orAt _ _ _ hm, testBit_or, testBit_two_pow, BitVec.getLsbD_twoPow]
  simp [mod_lt n hw, hplace]

/-! ### Shifts -/

/-- `<<=`: every word goes up by the whole words of the shift, its overhang into the next. -/
def shiftLeft (a : Words w W) (shift : Nat) : Words w W :=
  W.fold (fun i _ pn =>
    let pn := if shift % w ≠ 0 then pn.orAt (i + shift / w + 1) (a[i] >>> (w - shift % w)) else pn
    pn.orAt (i + shift / w) (a[i] <<< (shift % w))) zero

/-- `>>=`: every word goes down by the whole words of the shift, its overhang into the one
below. -/
def shiftRight (a : Words w W) (shift : Nat) : Words w W :=
  W.fold (fun i _ pn =>
    let pn := if shift / w + 1 ≤ i ∧ shift % w ≠ 0 then
        pn.orAt (i - shift / w - 1) (a[i] <<< (w - shift % w))
      else pn
    if shift / w ≤ i then pn.orAt (i - shift / w) (a[i] >>> (shift % w)) else pn) zero

theorem place_spec {w b : Nat} (hb : b < w) : (w * j + b) / w = j ∧ (w * j + b) % w = b :=
  (Nat.div_mod_unique (Nat.zero_lt_of_lt hb)).2 ⟨Nat.add_comm .., hb⟩

/-- Where the bits of a word go that is shifted to the left within word `j`. -/
theorem place_shiftLeft (x : BitVec w) (hs : s < w) : (n / w = j ∧ (x <<< s).getLsbD (n % w)) ↔
      ∃ b, s + b < w ∧ n = w * j + (s + b) ∧ x.getLsbD b := by
  have hn := div_add_mod n w
  have hr := mod_lt n (zero_lt_of_lt hs)
  constructor
  · rintro ⟨rfl, hbit⟩
    rw [BitVec.getLsbD_shiftLeft] at hbit
    simp only [Bool.and_eq_true, Bool.not_eq_true', decide_eq_false_iff_not] at hbit
    exact ⟨n % w - s, by omega, by omega, hbit.2⟩
  · rintro ⟨b, hb, rfl, hbit⟩
    obtain ⟨hdiv, hmod⟩ := place_spec (j := j) hb
    simp [hdiv, hmod, hb, hbit]

/-- Where the bits of a word go that is shifted to the right within word `j`. -/
theorem place_shiftRight (x : BitVec w) : (n / w = j ∧ (x >>> s).getLsbD (n % w)) ↔
      ∃ b, s ≤ b ∧ b < w ∧ n + s = w * j + b ∧ x.getLsbD b := by
  have hn := div_add_mod n w
  constructor
  · rintro ⟨rfl, hbit⟩
    rw [BitVec.getLsbD_ushiftRight] at hbit
    exact ⟨s + n % w, by omega, BitVec.lt_of_getLsbD hbit, by omega, hbit⟩
  · rintro ⟨b, hle, hb, hplace, hbit⟩
    obtain ⟨hdiv, hmod⟩ := place_spec (j := j) (show b - s < w by omega)
    rw [show w * j + (b - s) = n by omega] at hdiv hmod
    refine ⟨hdiv, ?_⟩
    rwa [BitVec.getLsbD_ushiftRight, hmod, Nat.add_sub_cancel' hle]

/-- Bit `w * i + b` of a number is bit `b` of its word `i`. -/
theorem testBit_place {b : Nat} (hi : i < W) (hb : b < w) :
    a.value.testBit (w * i + b) = (a.word i).getLsbD b := by
  have hlt : w * i + b < w * W := by
    have := mul_le_mul_left w (show i + 1 ≤ W from hi)
    rw [mul_add] at this
    omega
  rw [testBit_value a hlt, (place_spec hb).1, (place_spec hb).2]

/-- The bits below word `i + 1` are those below word `i` and those of word `i`. -/
theorem exists_place_succ {w : Nat} (P : Nat → Prop) :
    (∃ m, m < w * (i + 1) ∧ P m) ↔ (∃ m, m < w * i ∧ P m) ∨ ∃ b < w, P (w * i + b) := by
  rw [mul_add, mul_one]
  constructor
  · intro ⟨m, hm, h⟩
    rcases lt_or_ge m (w * i) with hlt | hge
    · exact .inl ⟨m, hlt, h⟩
    · exact .inr ⟨m - w * i, by omega, by rwa [Nat.add_sub_cancel' hge]⟩
  · intro h
    rcases h with ⟨m, hm, h⟩ | ⟨b, hb, h⟩
    · exact ⟨m, by omega, h⟩
    · exact ⟨w * i + b, by omega, h⟩

/-- **A loop that places bits**: when iteration `i` adds the bits of word `i` at the places that `R`
has for them, the loop adds all bits of the number. -/
theorem testBit_fold {f : (i : Nat) → i < W → Words w W → Words w W} {R : Nat → Prop}
    (hstep : ∀ i hi pn, (f i hi pn).value.testBit n ↔ pn.value.testBit n ∨ ∃ b < w, R (w * i + b) ∧ (a.word i).getLsbD b)
    : (W.fold f zero).value.testBit n ↔ ∃ m, m < w * W ∧ R m ∧ a.value.testBit m := by
  -- After `i` iterations the bits of the words below `i` are in place.
  refine fold_invariant f zero
    (fun i pn => pn.value.testBit n ↔ ∃ m, m < w * i ∧ R m ∧ a.value.testBit m) (by simp)
    fun i hi pn hpn => ?_
  rw [exists_place_succ, ← hpn, hstep]
  refine or_congr_right (exists_congr fun b => and_congr_right fun hb => ?_)
  rw [testBit_place a hi hb]

theorem value_shiftLeft (shift : Nat) :
    (a.shiftLeft shift).value = a.value * 2 ^ shift % 2 ^ (w * W) := by
  refine value_eq_of_testBit (mod_lt _ (by positivity)) fun n hn => ?_
  have hw : 0 < w := Nat.pos_of_mul_pos_right (Nat.zero_lt_of_lt hn)
  have hs := mod_lt shift hw
  have hval := testBit_fold a (R := fun m => n = shift + m) (n := n)
    (f := fun i _ pn =>
      let pn := if shift % w ≠ 0 then pn.orAt (i + shift / w + 1) (a[i] >>> (w - shift % w)) else pn
      pn.orAt (i + shift / w) (a[i] <<< (shift % w))) fun i hi pn => by
    have hshift : w * (i + shift / w) + shift % w = shift + w * i := by
      rw [mul_add]
      have := div_add_mod shift w
      omega
    simp only [getElem_eq_word]
    rw [testBit_orAt _ _ _ hn, testBit_ite_orAt _ _ _ hn, or_assoc, place_shiftLeft _ hs,
      place_shiftRight, mul_succ]
    refine or_congr_right ⟨?_, ?_⟩
    · rintro (⟨-, b, -, hb, hplace, hbit⟩ | ⟨b, hb, hplace, hbit⟩)
      · exact ⟨b, hb, by omega, hbit⟩
      · exact ⟨b, by omega, by omega, hbit⟩
    · rintro ⟨b, hb, hplace, hbit⟩
      rcases lt_or_ge (shift % w + b) w with hin | hover
      · exact .inr ⟨b, hin, by omega, hbit⟩
      · exact .inl ⟨by omega, b, by omega, hb, by omega, hbit⟩
  rw [show a.shiftLeft shift = W.fold _ zero from rfl, hval, testBit_mod_two_pow,
    testBit_mul_two_pow]
  simp only [hn, decide_true, Bool.true_and, Bool.and_eq_true, decide_eq_true_eq]
  constructor
  · intro ⟨m, _, hm, hbit⟩
    exact ⟨by omega, by rwa [show n - shift = m by omega]⟩
  · intro ⟨hle, hbit⟩
    exact ⟨n - shift, by omega, by omega, hbit⟩

theorem value_shiftRight (shift : Nat) : (a.shiftRight shift).value = a.value / 2 ^ shift := by
  refine value_eq_of_testBit (lt_of_le_of_lt (div_le_self _ _) (value_lt a)) fun n hn => ?_
  have hw : 0 < w := Nat.pos_of_mul_pos_right (Nat.zero_lt_of_lt hn)
  have hs := mod_lt shift hw
  have hval := testBit_fold a (R := fun m => n + shift = m) (n := n) (f := fun i _ pn =>
      let pn := if shift / w + 1 ≤ i ∧ shift % w ≠ 0 then
          pn.orAt (i - shift / w - 1) (a[i] <<< (w - shift % w))
        else pn
      if shift / w ≤ i then pn.orAt (i - shift / w) (a[i] >>> (shift % w)) else pn) fun i hi pn => by
    have hshift := div_add_mod shift w
    simp only [getElem_eq_word]
    rw [testBit_ite_orAt _ _ _ hn, testBit_ite_orAt _ _ _ hn, or_assoc, place_shiftRight]
    refine or_congr_right ⟨?_, ?_⟩
    · rintro (⟨⟨hle, hne⟩, hpart⟩ | ⟨hle, b, -, hb, hplace, hbit⟩)
      · obtain ⟨b, hb, hplace, hbit⟩ := (place_shiftLeft _ (by omega)).mp hpart
        obtain ⟨d, rfl⟩ := Nat.exists_eq_add_of_le hle
        rw [show shift / w + 1 + d - shift / w - 1 = d by omega] at hplace
        exact ⟨b, by omega, by rw [mul_add, mul_succ]; omega, hbit⟩
      · obtain ⟨d, rfl⟩ := Nat.exists_eq_add_of_le hle
        rw [Nat.add_sub_cancel_left] at hplace
        exact ⟨b, hb, by rw [mul_add]; omega, hbit⟩
    · rintro ⟨b, hb, hplace, hbit⟩
      have hle : shift / w ≤ i := by
        by_contra hlt
        have := mul_le_mul_left w (show i + 1 ≤ shift / w by omega)
        rw [mul_succ] at this
        omega
      obtain ⟨d, rfl⟩ := Nat.exists_eq_add_of_le hle
      rw [mul_add] at hplace
      rcases lt_or_ge b (shift % w) with hlow | hhigh
      · obtain _ | d := d
        · omega
        rw [mul_succ] at hplace
        refine .inl ⟨⟨by omega, by omega⟩, (place_shiftLeft _ (by omega)).mpr
          ⟨b, by omega, ?_, hbit⟩⟩
        rw [show shift / w + (d + 1) - shift / w - 1 = d by omega]
        omega
      · exact .inr ⟨by omega, b, hhigh, hb, by rw [Nat.add_sub_cancel_left]; omega, hbit⟩
  rw [show a.shiftRight shift = W.fold _ zero from rfl, hval, testBit_div_two_pow]
  constructor
  · intro ⟨m, _, hm, hbit⟩
    rwa [hm]
  · intro hbit
    refine ⟨n + shift, ?_, rfl, hbit⟩
    by_contra hge
    have hpow : 2 ^ (w * W) ≤ 2 ^ (n + shift) := Nat.pow_le_pow_right (by omega) (by omega)
    rw [testBit_lt_two_pow ((value_lt a).trans_le hpow)] at hbit
    exact Bool.false_ne_true hbit

/-! ### Quotients -/

/-- The loop of `/=`: the divisor stands shifted by one place less than the iterations that are
left; where it fits, it is subtracted and the bit of the quotient is set. -/
def divLoop : Nat → Words w W → Words w W → Words w W → Words w W
  | 0, _, _, quot => quot
  | shift + 1, div, num, quot =>
    if num.compareTo div ≠ .lt then
      divLoop shift (div.shiftRight 1) (num.sub div)
        (quot.orAt (shift / w) (BitVec.twoPow w (shift % w)))
    else divLoop shift (div.shiftRight 1) num quot

/-- `/=`; nothing for a division by zero. -/
def div (num b : Words w W) : Option (Words w W) :=
  if b.bits = 0 then none
  else if num.bits < b.bits then some zero
  else some (divLoop (num.bits - b.bits + 1) (b.shiftLeft (num.bits - b.bits)) num zero)

theorem value_divLoop {b : Nat} {div num quot : Words w W} (hb : 0 < b) (hn : n ≤ w * W)
    (hdiv : ∀ m, n = m + 1 → div.value = b * 2 ^ m) (hnum : num.value < b * 2 ^ n)
    (hquot : 2 ^ n ∣ quot.value) : (divLoop n div num quot).value = quot.value + num.value / b := by
  induction n generalizing div num quot with
  | zero =>
    rw [pow_zero, mul_one] at hnum
    rw [divLoop, div_eq_of_lt hnum, add_zero]
  | succ shift ih =>
    have hval := hdiv shift rfl
    have hhalf : ∀ m, shift = m + 1 → (div.shiftRight 1).value = b * 2 ^ m := by
      intro m hm
      rw [value_shiftRight, hval, hm, pow_succ, ← mul_assoc, pow_one,
        Nat.mul_div_cancel _ (by omega)]
    have hpow : b * 2 ^ (shift + 1) = b * 2 ^ shift + b * 2 ^ shift := by ring
    have hdvd : 2 ^ shift ∣ quot.value := (pow_dvd_pow 2 (le_succ shift)).trans hquot
    rw [divLoop, compareTo_eq, hval]
    split_ifs with hfits
    · have hge : b * 2 ^ shift ≤ num.value := by
        by_contra hlt
        exact hfits (Nat.compare_eq_lt.2 (by omega))
      have hsub : (num.sub div).value = num.value - b * 2 ^ shift := by
        rw [value_sub (by omega), hval]
      have hset := value_orAt_bit (a := quot) (n := shift) (by omega) hquot
      rw [ih (by omega) hhalf (by omega) (by rw [hset]; exact Nat.dvd_add hdvd dvd_rfl), hset, hsub]
      obtain ⟨r, hr⟩ := Nat.exists_eq_add_of_le hge
      rw [hr, Nat.add_sub_cancel_left, Nat.add_comm (b * 2 ^ shift), Nat.add_mul_div_left _ _ hb]
      omega
    · have hlt : num.value < b * 2 ^ shift := Nat.compare_eq_lt.1 (not_not.1 hfits)
      exact ih (by omega) hhalf hlt hdvd

theorem value_div (num : Words w W) (hb : 0 < b.value) :
    ∃ q, num.div b = some q ∧ q.value = num.value / b.value := by
  have hbits : 0 < b.value.size := size_pos.2 hb
  rw [div, bits_eq, bits_eq, if_neg (by omega)]
  split_ifs with hsmall
  · refine ⟨zero, rfl, ?_⟩
    have hlt : num.value < b.value := by
      have htop : 2 ^ (b.value.size - 1) ≤ b.value := lt_size.1 (by omega)
      have hnum : num.value < 2 ^ (b.value.size - 1) := size_le.1 (by omega)
      omega
    rw [value_zero, div_eq_of_lt hlt]
  · refine ⟨_, rfl, ?_⟩
    have hwidth : num.value.size ≤ w * W := size_le.2 (value_lt num)
    -- The highest bits of divisor and dividend are aligned.
    have halign : b.value * 2 ^ (num.value.size - b.value.size) < 2 ^ num.value.size := by
      calc b.value * 2 ^ (num.value.size - b.value.size)
          < 2 ^ b.value.size * 2 ^ (num.value.size - b.value.size) :=
            mul_lt_mul_of_pos_right (lt_size_self _) (by positivity)
        _ = 2 ^ num.value.size := by rw [← pow_add]; congr 1; omega
    have hshift : (b.shiftLeft (num.value.size - b.value.size)).value =
        b.value * 2 ^ (num.value.size - b.value.size) := by
      rw [value_shiftLeft, mod_eq_of_lt]
      exact halign.trans_le (Nat.pow_le_pow_right (by omega) hwidth)
    have hnum : num.value < b.value * 2 ^ (num.value.size - b.value.size + 1) := by
      have htop : 2 ^ (b.value.size - 1) ≤ b.value := lt_size.1 (by omega)
      calc num.value < 2 ^ num.value.size := lt_size_self _
        _ = 2 ^ (b.value.size - 1) * 2 ^ (num.value.size - b.value.size + 1) := by
            rw [← pow_add]; congr 1; omega
        _ ≤ b.value * 2 ^ (num.value.size - b.value.size + 1) := mul_le_mul_right _ htop
    rw [value_divLoop hb (by omega) (fun m hm => by rw [hshift]; congr 2; omega) hnum (by simp),
      value_zero, zero_add]

end Words
