import KmushiCoin.Primitives.Transaction
import Mathlib.Data.BitVec

/-!
# KmushiCoin.Coins.IncrementalTree

**The count of leaves of an `IncrementalMerkleTree`.** The tree keeps its last one or two leaves
and, for each level, perhaps the hash of a full subtree. `append` is then an increment of a binary
number with carry, and `size()` reads the number back.

* Up to `2 ^ Depth` leaves can be appended, and the levels in use count them (`Counts`).
* `size()` shifts an `int`. It is right up to `2 ^ 31` leaves; beyond, in the tree of depth 32, the
  highest level counts `1 << 31`, the least `int`.
-/

namespace KmushiCoin

open List Option

/-- `IncrementalMerkleTree<Depth, Hash>`. -/
structure IncrementalMerkleTree (H : Type) where
  left : Option H := none
  right : Option H := none
  /-- Collapsed "left" subtrees ordered toward the root of the tree. -/
  parents : List (Option H) := []

/-- `IncrementalWitness`, with the tree only: its `append` writes the other fields. -/
structure IncrementalWitness (H : Type) where
  tree : IncrementalMerkleTree H

namespace IncrementalMerkleTree

variable {H : Type} (combine : H → H → Nat → H)

def isComplete (t : IncrementalMerkleTree H) (depth : Nat) : Bool :=
  t.left.isSome && t.right.isSome && t.parents.length == depth - 1 && t.parents.all Option.isSome

/-- The loop of `append` from level `i` on, with the levels that are left. -/
def propagate (i : Nat) (combined : H) : Nat → List (Option H) → List (Option H)
  | 0, parents => parents
  | _ + 1, [] => [some combined]
  | _ + 1, none :: parents => some combined :: parents
  | n + 1, some p :: parents => none :: propagate (i + 1) (combine p combined (i + 1)) n parents

def append (depth : Nat) (t : IncrementalMerkleTree H) (obj : H) :
    Outcome (IncrementalMerkleTree H) :=
  if t.isComplete depth then .error (.throw "tree is full")
  else match t.left, t.right with
    | none, _ => .ok { t with left := some obj }
    | some _, none => .ok { t with right := some obj }
    | some l, some r =>
      .ok ⟨some obj, none, propagate combine 0 (combine l r 0) depth t.parents⟩

def appendAll (depth : Nat) (leaves : List H) (t : IncrementalMerkleTree H) :
    Outcome (IncrementalMerkleTree H) :=
  leaves.foldlM (append combine depth) t

/-- The loop of `size` from index `i` on. -/
def addParents (i : Nat) (ret : BitVec 64) : List (Option H) → BitVec 64
  | [] => ret
  | p :: parents =>
    -- `1 << (i+1)` is an `int`, which is widened with its sign
    addParents (i + 1) (if p.isSome then ret + (1#32 <<< (i + 1)).signExtend 64 else ret) parents

def size (t : IncrementalMerkleTree H) : BitVec 64 :=
  addParents 0 ((if t.left.isSome then 1 else 0) + if t.right.isSome then 1 else 0) t.parents

def witness (t : IncrementalMerkleTree H) : IncrementalWitness H := ⟨t⟩

end IncrementalMerkleTree

def IncrementalWitness.position {H : Type} (w : IncrementalWitness H) : BitVec 64 :=
  w.tree.size - 1#64

namespace IncrementalMerkleTree

variable {H : Type} {depth n : Nat} {t : IncrementalMerkleTree H} {parents : List (Option H)}

/-! ### The levels in use as a binary number -/

/-- The levels in use, read as a binary number with the lowest level first. -/
def occupation : List (Option H) → Nat
  | [] => 0
  | none :: parents => 2 * occupation parents
  | some _ :: parents => 2 * occupation parents + 1

theorem occupation_of_all (h : parents.all isSome = true) :
    occupation parents + 1 = 2 ^ parents.length := by
  induction parents with
  | nil => rfl
  | cons p parents ih =>
    obtain ⟨hp, h⟩ := Bool.and_eq_true_iff.mp h
    obtain ⟨x, rfl⟩ := isSome_iff_exists.mp hp
    rw [length_cons, pow_succ, ← ih h, occupation]
    omega

/-- The carry adds one, and the highest level is in use after it. -/
theorem occupation_propagate (combine : H → H → Nat → H) {i} (combined : H) {fuel : Nat}
    (hfuel : parents.length < fuel) (h : 2 ^ parents.length ≤ 2 * occupation parents + 1) :
    occupation (propagate combine i combined fuel parents) = occupation parents + 1 ∧
      2 ^ (propagate combine i combined fuel parents).length ≤ 2 * (occupation parents + 1) := by
  induction parents generalizing i combined fuel with
  | nil =>
    obtain ⟨fuel, rfl⟩ := Nat.exists_eq_succ_of_ne_zero hfuel.ne'
    exact ⟨rfl, le_rfl⟩
  | cons p parents ih =>
    obtain ⟨fuel, rfl⟩ := Nat.exists_eq_succ_of_ne_zero (Nat.ne_zero_of_lt hfuel)
    rw [length_cons, pow_succ] at h
    cases p with
    | none =>
      rw [occupation] at h ⊢
      refine ⟨rfl, ?_⟩
      rw [propagate, length_cons, pow_succ]
      omega
    | some p =>
      rw [occupation] at h ⊢
      obtain ⟨hocc, hlen⟩ := ih (i := i + 1) (combine p combined (i + 1))
        (Nat.lt_of_succ_lt_succ hfuel) (by omega)
      rw [propagate, occupation, hocc, length_cons, pow_succ]
      omega

/-! ### Appending -/

/-- **The tree holds `n` leaves.** The levels in use count them, and the highest level is in use. -/
structure Counts (t : IncrementalMerkleTree H) (n : Nat) : Prop where
  leaves : t.left.toList.length + t.right.toList.length + 2 * occupation t.parents = n
  highest : 2 ^ t.parents.length ≤ 2 * occupation t.parents + 1
  parents : t.left = none → t.parents = []

theorem Counts.length_lt {k} (h : t.Counts n) (hk : 1 ≤ k) (hn : n ≤ 2 ^ k) :
    t.parents.length < k := by
  obtain ⟨hleaves, hhighest, hparents⟩ := h
  cases hleft : t.left with
  | none => exact hparents hleft ▸ hk
  | some l =>
    rw [hleft, toList_some, length_singleton] at hleaves
    by_contra hle
    -- `2 ^ k` is even, so that the highest level alone has as many leaves
    obtain ⟨k, rfl⟩ := Nat.exists_eq_add_of_le' hk
    have hpow := Nat.pow_le_pow_right two_pos (not_lt.mp hle)
    rw [pow_succ] at hpow hn
    omega

theorem Counts.append (combine : H → H → Nat → H) (hdepth : 1 ≤ depth) (h : t.Counts n)
    (hn : n < 2 ^ depth) (obj : H) :
    ∃ t', t.append combine depth obj = .ok t' ∧ t'.Counts (n + 1) := by
  obtain ⟨left, right, parents⟩ := t
  have hlen := h.length_lt hdepth hn.le
  obtain ⟨rfl, hhighest, hparents⟩ := h
  unfold IncrementalMerkleTree.append
  have hcomplete : isComplete ⟨left, right, parents⟩ depth = false := by
    refine Bool.eq_false_iff.mpr fun hfull => ?_
    simp only [isComplete, Bool.and_eq_true, beq_iff_eq] at hfull
    obtain ⟨⟨⟨hl, hr⟩, hlength⟩, hall⟩ := hfull
    obtain ⟨l, rfl⟩ := isSome_iff_exists.mp hl
    obtain ⟨r, rfl⟩ := isSome_iff_exists.mp hr
    have hocc := occupation_of_all hall
    rw [hlength] at hocc
    obtain ⟨d, rfl⟩ := Nat.exists_eq_add_of_le' hdepth
    rw [pow_succ] at hn
    simp at hn hocc
    omega
  rw [hcomplete]
  match left, right with
  | none, right => exact ⟨_, rfl, by simp; omega, hhighest, nofun⟩
  | some l, none => exact ⟨_, rfl, by simp; omega, hhighest, nofun⟩
  | some l, some r =>
    obtain ⟨hocc, hhigh⟩ :=
      occupation_propagate combine (i := 0) (combine l r 0) hlen hhighest
    refine ⟨_, rfl, ?_, ?_, nofun⟩
    · rw [hocc]
      simp
      omega
    · rw [hocc]
      exact hhigh.trans (Nat.le_succ _)

/-- Up to `2 ^ Depth` leaves can be appended. -/
theorem exists_appendAll (combine : H → H → Nat → H) (hdepth : 1 ≤ depth) (leaves : List H)
    (h : t.Counts n) (hn : n + leaves.length ≤ 2 ^ depth) :
    ∃ t', appendAll combine depth leaves t = .ok t' ∧ t'.Counts (n + leaves.length) := by
  induction leaves generalizing t n with
  | nil => exact ⟨t, rfl, h⟩
  | cons obj leaves ih =>
    rw [length_cons, ← Nat.add_assoc, Nat.add_right_comm] at hn ⊢
    obtain ⟨t₁, happend, h₁⟩ := h.append combine hdepth (by omega) obj
    rw [appendAll, foldlM_cons, happend]
    exact ih h₁ hn

theorem counts_empty : ({} : IncrementalMerkleTree H).Counts 0 := ⟨rfl, le_rfl, fun _ => rfl⟩

/-! ### `size` -/

theorem signExtend_shiftLeft : ∀ k ≤ 30, (1#32 <<< k).signExtend 64 = BitVec.ofNat 64 (2 ^ k) := by
  decide

/-- The levels count as they should, but for level 30: its `1 << 31` lacks `2 ^ 32`. -/
theorem addParents_eq {i ret} (h : i + parents.length ≤ 31) : addParents i ret parents =
    ret + BitVec.ofNat 64 (2 ^ (i + 1) * occupation parents) -
      if 2 ^ 30 ≤ 2 ^ i * occupation parents then BitVec.ofNat 64 (2 ^ 32) else 0 := by
  induction parents generalizing i ret with
  | nil => simp [addParents, occupation]
  | cons p parents ih =>
    rw [length_cons] at h
    rw [addParents, ih (by omega)]
    cases p with
    | none => simp only [occupation, pow_succ, mul_assoc, isSome_none, Bool.false_eq_true,
        if_false]
    | some x =>
      rcases (show i ≤ 30 by omega).eq_or_lt with rfl | hi
      · obtain rfl := length_eq_zero_iff.mp (show parents.length = 0 by omega)
        simp [occupation, add_sub_assoc]
      · have h30 : 2 ^ 30 = 2 ^ i * (2 * 2 ^ (29 - i)) := by
          rw [← mul_assoc, ← pow_succ, ← pow_add, show i + 1 + (29 - i) = 30 by omega]
        have hbit : 2 ^ 30 ≤ 2 ^ (i + 1) * occupation parents ↔
            2 ^ 30 ≤ 2 ^ i * (2 * occupation parents + 1) := by
          simp only [h30, pow_succ _ i, mul_assoc, mul_le_mul_iff_right₀ (Nat.two_pow_pos i)]
          omega
        simp only [hbit, occupation, isSome_some, if_true,
          signExtend_shiftLeft (i + 1) (by omega)]
        rw [add_assoc, ← BitVec.ofNat_add]
        congr 3
        ring

/-- **What `size` returns.** Beyond `2 ^ 31` leaves it lacks `2 ^ 32`. -/
theorem Counts.size_eq (h : t.Counts n) (hn : n ≤ 2 ^ 32) :
    t.size = BitVec.ofNat 64 n - if n ≤ 2 ^ 31 then 0 else BitVec.ofNat 64 (2 ^ 32) := by
  have hlen := h.length_lt (by omega) hn
  obtain ⟨rfl, -, hparents⟩ := h
  rw [size, addParents_eq (by omega)]
  cases hleft : t.left with
  | none => cases t.right <;> simp [hparents hleft, occupation]
  | some l =>
    have hhalf : 2 ^ 30 ≤ 2 ^ 0 * occupation t.parents ↔
        ¬ [l].length + t.right.toList.length + 2 * occupation t.parents ≤ 2 ^ 31 := by
      have := t.right.length_toList_le
      simp only [length_singleton]
      omega
    simp only [hhalf, ite_not]
    cases t.right <;> simp [BitVec.ofNat_add]

/-- **The count is right up to `2 ^ 31` leaves.** -/
theorem size_eq_iff {H : Type} (combine : H → H → Nat → H) (depth : Nat) (h₁ : 1 ≤ depth)
    (h₃₂ : depth ≤ 32) (leaves : List H) (hlen : leaves.length ≤ 2 ^ depth) :
    ∃ t, appendAll combine depth leaves {} = .ok t ∧
      ((t.size.toNat = leaves.length ∧
        ∀ i, leaves.length = i + 1 → t.witness.position.toNat = i) ↔ leaves.length ≤ 2 ^ 31) := by
  obtain ⟨t, ht, h⟩ := exists_appendAll combine h₁ leaves counts_empty (by omega)
  rw [Nat.zero_add] at h
  have hmax : leaves.length ≤ 2 ^ 32 := hlen.trans (Nat.pow_le_pow_right two_pos h₃₂)
  have hsize := h.size_eq hmax
  refine ⟨t, ht, fun hcount => ?_, fun hsmall => ?_⟩
  · by_contra hlarge
    rw [if_neg hlarge, ← hcount.1, BitVec.ofNat_toNat, BitVec.setWidth_eq] at hsize
    exact absurd (sub_eq_self.mp hsize.symm) (by decide)
  · rw [if_pos hsmall, sub_zero] at hsize
    have hn : leaves.length < 2 ^ 64 := by omega
    refine ⟨by rw [hsize, BitVec.toNat_ofNat, Nat.mod_eq_of_lt hn], fun i hi => ?_⟩
    rw [IncrementalWitness.position, witness, hsize, hi, BitVec.ofNat_add, add_sub_cancel_right,
      BitVec.toNat_ofNat, Nat.mod_eq_of_lt (by omega)]

namespace Sample

theorem size_three : ∃ t, appendAll (fun l _ _ => l) 2 [5, 6, 7] {} = .ok t ∧
    t.size.toNat = 3 ∧ t.witness.position.toNat = 2 := by
  obtain ⟨t, ht, h⟩ := size_eq_iff (fun l _ _ => l) 2 (by omega) (by omega) [5, 6, 7] (by simp)
  obtain ⟨hsize, hposition⟩ := h.mpr (by simp)
  exact ⟨t, ht, hsize, hposition 2 rfl⟩

/-- One leaf more than half of the tree of depth 32. -/
theorem size_beyond_half : ∃ leaves : List Unit, ∃ t, leaves.length = 2 ^ 31 + 1 ∧
    appendAll (fun l _ _ => l) 32 leaves {} = .ok t ∧ t.size.toNat = 2 ^ 64 - 2 ^ 31 + 1 := by
  obtain ⟨leaves, hlen⟩ : ∃ leaves : List Unit, leaves.length = 2 ^ 31 + 1 :=
    ⟨.replicate _ (), List.length_replicate⟩
  obtain ⟨t, ht, h⟩ := exists_appendAll (fun l _ _ => l) (show 1 ≤ 32 by omega) leaves counts_empty
    (by omega)
  refine ⟨leaves, t, hlen, ht, ?_⟩
  rw [h.size_eq (by omega), hlen]
  rfl

end Sample

end IncrementalMerkleTree

end KmushiCoin
