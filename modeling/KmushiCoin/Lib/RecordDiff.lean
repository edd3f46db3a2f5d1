import KmushiCoin.Lib.Codec

/-!
# Record diffs

A **diff** of two values of a record type holds a bit mask of the fields that differ
and, in a record of the same type, their new values; the other fields of that record
keep their defaults. It is written as the mask followed by the masked fields.

`Fields S ι` describes a record type `S` whose fields are numbered by `ι`: how to
read and write one field, its mask bit and its byte format. Two facts are proved for
every such description:

* `apply_diff`: applying the diff of `a` and `b` to `a` gives `b`;
* `reads_diff`: a diff that was written is read back.

All passes over the fields are one fold (`assign`), which `get_assign` evaluates.
-/

namespace RecordDiff

open Codec List

/-- The fields of a record type. -/
structure Fields (S ι : Type) where
  Value : ι → Type
  get : S → (i : ι) → Value i
  set : S → (i : ι) → Value i → S
  get_set_self : ∀ s i v, get (set s i v) i = v
  get_set_ne : ∀ s i v j, j ≠ i → get (set s i v) j = get s j
  ext : ∀ s t, (∀ i, get s i = get t i) → s = t
  /-- The order in which the fields are visited. -/
  order : List ι
  mem_order : ∀ i, i ∈ order
  nodup_order : order.Nodup
  mask : ι → UInt32
  mask_ne_zero : ∀ i, mask i ≠ 0
  mask_disjoint : ∀ i j, j ≠ i → mask i &&& mask j = 0
  /-- The byte format of a field. -/
  put : (i : ι) → Value i → Bytes
  read : (i : ι) → Get (Value i)

/-- The changed fields: their mask and their new values. -/
structure Diff (S : Type) where
  fields : UInt32
  state : S
  deriving DecidableEq

namespace Fields

variable {S ι : Type} (F : Fields S ι)

/-- Whether the mask has the bit of a field. -/
def has (fields : UInt32) (i : ι) : Bool := fields &&& F.mask i != 0

/-- Write the chosen ones of some fields, in order. -/
def assign (choose : ι → Bool) (v : (i : ι) → F.Value i) (l : List ι) (s : S) : S :=
  l.foldl (fun s i => if choose i then F.set s i (v i) else s) s

/-- Collect the bits of the chosen ones of some fields. -/
def bits (choose : ι → Bool) (l : List ι) (m : UInt32) : UInt32 :=
  l.foldl (fun m i => if choose i then m ||| F.mask i else m) m

/-- The diff of two records; `empty` is the record with the defaults. -/
def diff [∀ i, DecidableEq (F.Value i)] (empty a b : S) : Diff S :=
  F.order.foldl
    (fun d i =>
      if F.get a i ≠ F.get b i then ⟨d.fields ||| F.mask i, F.set d.state i (F.get b i)⟩ else d)
    ⟨0, empty⟩

/-- Overwrite the masked fields of a record. -/
def apply (d : Diff S) (target : S) : S :=
  F.assign (F.has d.fields) (F.get d.state) F.order target

def putFields (choose : ι → Bool) (v : (i : ι) → F.Value i) (l : List ι) : Bytes :=
  l.flatMap fun i => if choose i then F.put i (v i) else []

/-- Read the chosen ones of some fields, in order, into a record. -/
def getFields (choose : ι → Bool) (l : List ι) (s : S) : Get S :=
  l.foldlM (fun s i => if choose i then F.set s i <$> F.read i else pure s) s

def putDiff (d : Diff S) : Bytes :=
  putVarInt d.fields.toNat ++ F.putFields (F.has d.fields) (F.get d.state) F.order

def getDiff (empty : S) : Get (Diff S) := do
  let fields ← UInt32.ofNat <$> getVarInt (2 ^ 32 - 1)
  let state ← F.getFields (F.has fields) F.order empty
  pure ⟨fields, state⟩

/-! ### One pass -/

variable {F} {choose : ι → Bool} {v : (i : ι) → F.Value i} {l : List ι}

/-- A pass writes the chosen fields and leaves the others. -/
theorem get_assign [DecidableEq ι] (s : S) (j : ι) : F.get (F.assign choose v l s) j =
      if j ∈ l ∧ choose j = true then v j else F.get s j := by
  induction l generalizing s with
  | nil => simp [assign]
  | cons i l ih =>
    rw [assign, foldl_cons]
    refine (ih _).trans ?_
    by_cases hj : j ∈ l ∧ choose j = true
    · rw [if_pos hj, if_pos ⟨mem_cons_of_mem i hj.1, hj.2⟩]
    · rw [if_neg hj]
      by_cases hij : j = i
      · subst hij
        cases hc : choose j with
        | true => simp [F.get_set_self]
        | false => simp
      · have hmem : j ∈ i :: l ∧ choose j = true ↔ j ∈ l ∧ choose j = true := by simp [hij]
        rw [if_neg (fun h => hj (hmem.mp h))]
        cases choose i with
        | true => exact F.get_set_ne s i (v i) j hij
        | false => rfl

theorem or_and (x y z : UInt32) : (x ||| y) &&& z = (x &&& z) ||| (y &&& z) := by
  apply UInt32.eq_of_toBitVec_eq
  ext i hi
  simp [Bool.and_or_distrib_right]

/-- The bits of the chosen fields are set. -/
theorem and_bits [DecidableEq ι] (m : UInt32) (j : ι) : F.bits choose l m &&& F.mask j =
      (m &&& F.mask j) ||| (if j ∈ l ∧ choose j = true then F.mask j else 0) := by
  induction l generalizing m with
  | nil => simp [bits]
  | cons i l ih =>
    rw [bits, foldl_cons]
    refine (ih _).trans ?_
    by_cases hij : j = i
    · subst hij
      cases hc : choose j with
      | true =>
        by_cases hj : j ∈ l
        · simp [hj, or_and, UInt32.or_assoc]
        · simp [hj, or_and]
      | false => simp
    · have hmem : j ∈ i :: l ∧ choose j = true ↔ j ∈ l ∧ choose j = true := by simp [hij]
      simp only [hmem]
      cases choose i with
      | true => simp [or_and, F.mask_disjoint i j hij]
      | false => rfl

/-- Fields that were written are read back into the record. -/
theorem reads_getFields (hread : ∀ i ∈ l, choose i = true → Reads (F.read i) (F.put i (v i)) (v i))
    (s : S) : Reads (F.getFields choose l s) (F.putFields choose v l) (F.assign choose v l s) := by
  induction l generalizing s with
  | nil => exact Reads.pure s
  | cons i l ih =>
    have hrest := ih fun j hj => hread j (mem_cons_of_mem i hj)
    rw [putFields, flatMap_cons, assign, foldl_cons, getFields, foldlM_cons]
    refine Reads.bind ?_ (hrest _)
    cases hc : choose i with
    | true => exact (hread i (.head _) hc).map
    | false => exact Reads.pure s

/-! ### The diff of two records -/

variable [∀ i, DecidableEq (F.Value i)] {empty a b : S}

/-- Whether two records differ in a field. -/
def differ (F : Fields S ι) [∀ i, DecidableEq (F.Value i)] (a b : S) (i : ι) : Bool :=
  decide (F.get a i ≠ F.get b i)

theorem diff_eq : F.diff empty a b =
    ⟨F.bits (F.differ a b) F.order 0, F.assign (F.differ a b) (F.get b) F.order empty⟩ := by
  unfold diff bits assign
  generalize (0 : UInt32) = m
  induction F.order generalizing m empty with
  | nil => rfl
  | cons i l ih =>
    simp only [foldl_cons]
    by_cases h : F.get a i = F.get b i
    · have hd : F.differ a b i = false := by simpa [differ] using h
      rw [if_neg (not_not.mpr h), hd]
      exact ih m
    · have hd : F.differ a b i = true := by simpa [differ] using h
      rw [if_pos h, hd]
      exact ih (m ||| F.mask i)

variable [DecidableEq ι]

theorem has_diff (i : ι) : F.has (F.diff empty a b).fields i = F.differ a b i := by
  rw [diff_eq, has, and_bits]
  cases hd : F.differ a b i with
  | true => simpa [F.mem_order i, hd] using F.mask_ne_zero i
  | false => simp

theorem get_diff (i : ι) : F.get (F.diff empty a b).state i =
    if F.differ a b i = true then F.get b i else F.get empty i := by
  rw [diff_eq, get_assign]
  simp only [F.mem_order i, true_and]

/-- **Applying the diff of two records to the first gives the second.** -/
theorem apply_diff : F.apply (F.diff empty a b) a = b := by
  refine F.ext _ _ fun i => ?_
  rw [apply, get_assign, has_diff, get_diff]
  cases hd : F.differ a b i with
  | true => simp [F.mem_order i]
  | false =>
    have heq : F.get a i = F.get b i := by simpa [differ] using hd
    simp [heq]

/-- The mask is empty only for equal records. -/
theorem diff_fields_eq_zero : (F.diff empty a b).fields = 0 ↔ a = b := by
  constructor
  · intro h
    refine F.ext a b fun i => ?_
    have hi : F.has (F.diff empty a b).fields i = F.differ a b i := has_diff i
    rw [h] at hi
    simpa [has, differ] using hi.symm
  · rintro rfl
    rw [diff_eq]
    have hnone : F.differ a a = fun _ => false := funext fun i => by simp [differ]
    rw [hnone]
    show F.bits (fun _ => false) F.order 0 = 0
    unfold bits
    induction F.order with
    | nil => rfl
    | cons i l ih => exact ih

/-- **A diff that was written is read back.** -/
theorem reads_diff (hread : ∀ i, Reads (F.read i) (F.put i (F.get b i)) (F.get b i)) :
    Reads (F.getDiff empty) (F.putDiff (F.diff empty a b)) (F.diff empty a b) := by
  set d := F.diff empty a b with hd
  have hmask := (reads_getVarInt (m := 2 ^ 32 - 1) (n := d.fields.toNat) rfl
    (by have := d.fields.toNat_lt; omega)
    (lt_trans d.fields.toNat_lt (by norm_num))).map (f := UInt32.ofNat)
  rw [UInt32.ofNat_toNat] at hmask
  -- the masked values of the diff are those of the second record
  have hstate : Reads (F.getFields (F.has d.fields) F.order empty)
      (F.putFields (F.has d.fields) (F.get d.state) F.order)
      (F.assign (F.has d.fields) (F.get d.state) F.order empty) := by
    refine reads_getFields (fun i _ hi => ?_) empty
    rw [hd, has_diff] at hi
    rw [hd, get_diff, if_pos hi]
    exact hread i
  have hassign : F.assign (F.has d.fields) (F.get d.state) F.order empty = d.state := by
    refine F.ext _ _ fun i => ?_
    rw [get_assign, hd, has_diff, get_diff]
    split_ifs with h₁ h₂ h₂
    · rfl
    · exact absurd h₁.2 h₂
    · exact absurd ⟨F.mem_order i, h₂⟩ h₁
    · rfl
  rw [hassign] at hstate
  exact hmask.bind hstate.last

end Fields

end RecordDiff
