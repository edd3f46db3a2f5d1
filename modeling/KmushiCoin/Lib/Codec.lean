import Mathlib

/-!
# Byte streams

Writers produce byte lists, readers consume a prefix of one. `Reads g bs a` says
that the reader `g`, on any stream that starts with `bs`, returns `a` and leaves
exactly the bytes after `bs`; the rules `Reads.pure`, `Reads.bind` and
`Reads.map` compose such facts along the reader's `do` block, so the round trip
of a record is the sequence of the round trips of its fields.

The formats are the ones of a length-prefixed binary protocol: fixed-width
little- and big-endian integers, the compact size (1, 3, 5 or 9 bytes, canonical
and range checked), the base-128 variable-length integer whose digits are made
unique by subtracting one from all but the last, and vectors.
-/

namespace Codec

open List

abbrev Bytes : Type := List UInt8

/-- A reader: consumes a prefix of the stream or fails with the stream's message. -/
abbrev Get (α : Type) : Type := StateT Bytes (Except String) α

variable {α β : Type}

/-- On every stream that starts with `bs`, the reader returns `a` and consumes exactly `bs`. -/
def Reads (g : Get α) (bs : Bytes) (a : α) : Prop :=
  ∀ rest, g.run (bs ++ rest) = .ok (a, rest)

theorem Reads.pure (a : α) : Reads (pure a) [] a := fun _ => rfl

variable {g : Get α} {bs : Bytes} {a : α} {n x least m d : Nat} {put : α → Bytes}

/-- A block goes on after the bytes its first reader consumes. -/
theorem Reads.run_bind (h : Reads g bs a) (k : α → Get β) (rest : Bytes)
    : (g >>= k).run (bs ++ rest) = (k a).run rest := by
  rw [StateT.run_bind, h]
  rfl

theorem Reads.bind {k : α → Get β} {bs'} {b : β} (h : Reads g bs a) (hk : Reads (k a) bs' b)
    : Reads (g >>= k) (bs ++ bs') b := by
  intro rest
  rw [append_assoc, h.run_bind]
  exact hk rest

theorem Reads.map {f : α → β} (h : Reads g bs a) : Reads (f <$> g) bs (f a) := by
  intro rest
  rw [StateT.run_map, h]
  rfl

/-- The last reader of a block, whose value enters the result. -/
theorem Reads.last {f : α → β} (h : Reads g bs a) :
    Reads (g >>= fun x => Pure.pure (f x)) bs (f a) := by
  have hr := h.bind (k := fun x => Pure.pure (f x)) (Reads.pure (f a))
  rwa [append_nil] at hr

/-! ### Bytes -/

/-- Read one byte. -/
def getByte : Get UInt8 := fun
  | [] => .error "read(): end of data"
  | b :: rest => .ok (b, rest)

theorem reads_getByte (b : UInt8) : Reads getByte [b] b := fun _ => rfl

/-- Read `n` bytes. -/
def getBytes (n : Nat) : Get Bytes := fun s =>
  if n ≤ s.length then .ok (s.take n, s.drop n) else .error "read(): end of data"

theorem reads_getBytes (bs : Bytes) : Reads (getBytes bs.length) bs bs := by
  intro rest
  have hle : bs.length ≤ (bs ++ rest).length := by simp
  show (if bs.length ≤ (bs ++ rest).length then _ else _) = _
  rw [if_pos hle, take_left, drop_left]

/-! ### Fixed-width integers -/

/-- The value of a little-endian byte string. -/
def ofLE : Bytes → Nat
  | [] => 0
  | b :: rest => b.toNat + 256 * ofLE rest

/-- The `n` low bytes of `x`, least significant first. -/
def toLE : Nat → Nat → Bytes
  | 0, _ => []
  | n + 1, x => UInt8.ofNat (x % 256) :: toLE n (x / 256)

@[simp] theorem toLE_length (n x : Nat) : (toLE n x).length = n := by
  induction n generalizing x with
  | zero => rfl
  | succ n ih => simp [toLE, ih]

theorem ofLE_toLE (h : x < 256 ^ n) : ofLE (toLE n x) = x := by
  induction n generalizing x with
  | zero => simp at h; simp [toLE, ofLE, h]
  | succ n ih =>
    have hdiv : x / 256 < 256 ^ n := by
      rw [Nat.div_lt_iff_lt_mul (by decide)]
      simpa [pow_succ] using h
    have hbyte : (UInt8.ofNat (x % 256)).toNat = x % 256 := by
      simp
    rw [toLE, ofLE, hbyte, ih hdiv]
    omega

/-- Write the `n` low bytes of `x`, least significant first. -/
def putLE (n x : Nat) : Bytes := toLE n x

/-- Read an `n`-byte little-endian number. -/
def getLE (n : Nat) : Get Nat := ofLE <$> getBytes n

theorem reads_getLE (h : x < 256 ^ n) : Reads (getLE n) (putLE n x) x := by
  have hr := (reads_getBytes (toLE n x)).map (f := ofLE)
  rwa [toLE_length, ofLE_toLE h] at hr

/-- Write the `n` low bytes of `x`, most significant first. -/
def putBE (n x : Nat) : Bytes := (toLE n x).reverse

/-- Read an `n`-byte big-endian number. -/
def getBE (n : Nat) : Get Nat := (fun bs => ofLE bs.reverse) <$> getBytes n

theorem reads_getBE (h : x < 256 ^ n) : Reads (getBE n) (putBE n x) x := by
  have hr := (reads_getBytes (toLE n x).reverse).map (f := fun bs => ofLE bs.reverse)
  rwa [length_reverse, toLE_length, reverse_reverse, ofLE_toLE h] at hr

/-! ### Compact sizes -/

/-- The largest size a range-checked compact size may announce. -/
def maxSize : Nat := 0x02000000

/-- Write a compact size: 1, 3, 5 or 9 bytes. -/
def putCompactSize (n : Nat) : Bytes :=
  if n < 253 then putLE 1 n
  else if n ≤ 0xffff then 253 :: putLE 2 n
  else if n ≤ 0xffffffff then 254 :: putLE 4 n
  else 255 :: putLE 8 n

/-- Fail unless the encoding was the shortest one. -/
def canonical (least n : Nat) : Get Nat :=
  if n < least then throw "non-canonical ReadCompactSize()" else pure n

/-- The size that the first byte of a compact size announces. -/
def compactSizeBody (chSize : UInt8) : Get Nat :=
  if chSize.toNat < 253 then pure chSize.toNat
  else if chSize.toNat = 253 then getLE 2 >>= canonical 253
  else if chSize.toNat = 254 then getLE 4 >>= canonical 0x10000
  else getLE 8 >>= canonical 0x100000000

/-- Read a compact size, rejecting encodings that are too long and sizes over `maxSize`. -/
def getCompactSize : Get Nat := do
  let n ← getByte >>= compactSizeBody
  if n > maxSize then throw "ReadCompactSize(): size too large" else pure n

theorem reads_canonical (h : least ≤ n) : Reads (canonical least n) [] n := by
  have hlt : ¬ n < least := by omega
  simp only [canonical, if_neg hlt]
  exact Reads.pure n

/-- A compact size of more than one byte: the marker announces the width of the rest. -/
theorem reads_compactSize_wide {chSize} {w : Nat}
    (hbody : compactSizeBody chSize = getLE w >>= canonical least) (hn : n < 256 ^ w)
    (hleast : least ≤ n) : Reads (getByte >>= compactSizeBody) (chSize :: putLE w n) n := by
  have hr := (reads_getLE hn).bind (reads_canonical hleast)
  rw [append_nil, ← hbody] at hr
  exact (reads_getByte chSize).bind hr

/-- The reader before its range check. -/
theorem reads_compactSizeBody (h : n < 256 ^ 8) :
    Reads (getByte >>= compactSizeBody) (putCompactSize n) n := by
  unfold putCompactSize
  split_ifs with h1 h2 h4
  · have hb : putLE 1 n = [UInt8.ofNat n] ++ [] := by
      simp [putLE, toLE, Nat.mod_eq_of_lt (show n < 256 by omega)]
    have hn : (UInt8.ofNat n).toNat = n := by simp; omega
    rw [hb]
    refine (reads_getByte _).bind ?_
    simp only [compactSizeBody, hn, if_pos h1]
    exact Reads.pure n
  · exact reads_compactSize_wide (by rfl) (by omega) (by omega)
  · exact reads_compactSize_wide (by rfl) (by omega) (by omega)
  · exact reads_compactSize_wide (by rfl) h (by omega)

theorem reads_getCompactSize (h : n ≤ maxSize) : Reads getCompactSize (putCompactSize n) n := by
  have hle : ¬ n > maxSize := by omega
  have hrange : Reads (if n > maxSize then throw "ReadCompactSize(): size too large" else pure n)
      [] n := by
    rw [if_neg hle]
    exact Reads.pure n
  have hr := (reads_compactSizeBody (lt_of_le_of_lt h (by decide))).bind
    (k := fun n => if n > maxSize then throw "ReadCompactSize(): size too large" else pure n) hrange
  rwa [append_nil] at hr

/-- A size over the limit is rejected by the reader. -/
theorem getCompactSize_too_large (h : maxSize < n) (hn : n < 256 ^ 8) (rest : Bytes) :
    getCompactSize.run (putCompactSize n ++ rest) = .error "ReadCompactSize(): size too large" := by
  rw [getCompactSize, StateT.run_bind, reads_compactSizeBody hn rest]
  show (if n > maxSize then throw _ else pure n : Get Nat).run rest = _
  rw [if_pos h]
  rfl

/-! ### Variable-length integers -/

/-- The leading digits of a variable-length integer, all with the continuation bit. -/
def varIntHigh : Nat → Nat → Bytes
  | 0, _ => []
  | fuel + 1, n =>
    if n ≤ 0x7F then [UInt8.ofNat (n + 0x80)]
    else varIntHigh fuel (n / 128 - 1) ++ [UInt8.ofNat (n % 128 + 0x80)]

/-- Write a variable-length integer of at most ten digits. -/
def putVarInt (n : Nat) : Bytes :=
  if n ≤ 0x7F then [UInt8.ofNat n]
  else varIntHigh 9 (n / 128 - 1) ++ [UInt8.ofNat (n % 128)]

/-- The digit loop of the reader, for a target type with the maximal value `max`. -/
def varIntLoop (max : Nat) : Nat → Bytes → Except String (Nat × Bytes)
  | _, [] => .error "read(): end of data"
  | n, chData :: rest =>
    if n > max / 128 then .error "ReadVarInt(): size too large"
    else
      let n' := n * 128 + chData.toNat % 128
      if 128 ≤ chData.toNat then
        if n' = max then .error "ReadVarInt(): size too large"
        else varIntLoop max (n' + 1) rest
      else .ok (n', rest)

/-- Read a variable-length integer into a type with the maximal value `max`. -/
def getVarInt (max : Nat) : Get Nat := varIntLoop max 0

/-- The accumulator after leading digits, from each of which the writer subtracts one. -/
def varIntAcc (n : Nat) (high : Bytes) : Nat :=
  high.foldl (fun n chData => n * 128 + chData.toNat % 128 + 1) n

/-- The bytes **encode** `n`: all but the last one have the continuation bit. -/
def VarIntOf (bs : Bytes) (n : Nat) : Prop :=
  ∃ high last, bs = high ++ [last] ∧ (∀ b ∈ high, 128 ≤ UInt8.toNat b) ∧ last.toNat < 128 ∧
    varIntAcc 0 high * 128 + last.toNat = n

theorem varIntAcc_concat (n : Nat) (high : Bytes) (b : UInt8) :
    varIntAcc n (high ++ [b]) = varIntAcc n high * 128 + b.toNat % 128 + 1 := by
  simp [varIntAcc]

theorem le_varIntAcc (n : Nat) (high : Bytes) : n ≤ varIntAcc n high := by
  induction high using reverseRecOn with
  | nil => exact le_rfl
  | append_singleton high b ih =>
    rw [varIntAcc_concat]
    omega

/-- The loop reads an encoding of a number up to `m`, and refuses one of a larger number before
the accumulator can leave the target type. -/
theorem varIntLoop_digits (hm : m % 128 = 127) {high} (hhigh : ∀ b ∈ high, 128 ≤ UInt8.toNat b)
    {last} (hlast : UInt8.toNat last < 128) (n : Nat) (rest : Bytes) :
    varIntLoop m n (high ++ last :: rest) = if varIntAcc n high * 128 + last.toNat ≤ m
      then .ok (varIntAcc n high * 128 + last.toNat, rest)
      else .error "ReadVarInt(): size too large" := by
  induction high generalizing n with
  | nil =>
    have hmod : last.toNat % 128 = last.toNat := by omega
    have hacc : varIntAcc n [] = n := rfl
    rw [nil_append, varIntLoop, hacc, hmod]
    dsimp only
    split_ifs <;> first | rfl | (exfalso; omega)
  | cons b high ih =>
    obtain ⟨hb, hhigh⟩ := forall_mem_cons.mp hhigh
    have hle := le_varIntAcc (n * 128 + b.toNat % 128 + 1) high
    have hacc : varIntAcc n (b :: high) = varIntAcc (n * 128 + b.toNat % 128 + 1) high := rfl
    rw [cons_append, varIntLoop, hacc]
    dsimp only
    rw [ih hhigh]
    -- a refusal here is one of a number that the later digits only make larger
    split_ifs <;> first | rfl | (exfalso; omega)

/-- The leading digits of `n` bring the accumulator to `n + 1`. -/
theorem varIntAcc_high (fuel n : Nat) (hn : n < 128 ^ (fuel + 1)) :
    varIntAcc 0 (varIntHigh (fuel + 1) n) = n + 1 ∧
      ∀ b ∈ varIntHigh (fuel + 1) n, 128 ≤ b.toNat := by
  induction fuel generalizing n with
  | zero =>
    have hsmall : n ≤ 0x7F := by omega
    simp [varIntHigh, varIntAcc, hsmall]
    omega
  | succ fuel ih =>
    rw [varIntHigh]
    split_ifs with hsmall
    · simp [varIntAcc]
      omega
    · obtain ⟨hacc, hall⟩ := ih (n / 128 - 1) (by omega)
      rw [varIntAcc_concat, hacc]
      simp [or_imp, forall_and]
      exact ⟨by omega, hall, by omega⟩

/-- The writer writes an encoding of every number below `2 ^ 64`. -/
theorem varIntOf_putVarInt (h64 : n < 2 ^ 64) : VarIntOf (putVarInt n) n := by
  unfold putVarInt
  split_ifs with hsmall
  · exact ⟨[], UInt8.ofNat n, rfl, by simp, by simp; omega, by simp [varIntAcc]; omega⟩
  · obtain ⟨hacc, hall⟩ := varIntAcc_high 8 (n / 128 - 1) (by omega)
    refine ⟨_, _, rfl, hall, by simp; omega, ?_⟩
    rw [hacc]
    simp
    omega

/-- Every number below `2 ^ 64` that fits the target type is read back. -/
theorem reads_getVarInt (hm : m % 128 = 127) (h : n ≤ m) (h64 : n < 2 ^ 64) :
    Reads (getVarInt m) (putVarInt n) n := by
  intro rest
  obtain ⟨high, last, hput, hhigh, hlast, rfl⟩ := varIntOf_putVarInt h64
  rw [hput, append_assoc]
  exact (varIntLoop_digits hm hhigh hlast 0 rest).trans (if_pos h)

/-! ### Sequences -/

/-- Read `n` values. -/
def getMany (g : Get α) : Nat → Get (List α)
  | 0 => pure []
  | n + 1 => do
    let a ← g
    let rest ← getMany g n
    pure (a :: rest)

/-- Write a vector: its length and then its elements. -/
def putVector (put : α → Bytes) (l : List α) : Bytes :=
  putCompactSize l.length ++ l.flatMap put

/-- Read a vector. -/
def getVector (g : Get α) : Get (List α) := getCompactSize >>= getMany g

theorem reads_getMany :
    ∀ l : List α, (∀ a ∈ l, Reads g (put a) a) → Reads (getMany g l.length) (l.flatMap put) l
  | [], _ => Reads.pure []
  | a :: l, h => by
      rw [flatMap_cons]
      refine (h a (by simp)).bind ?_
      exact (reads_getMany l fun b hb => h b (by simp [hb])).last

theorem reads_getVector {l} (hlen : l.length ≤ maxSize) (h : ∀ a ∈ l, Reads g (put a) a)
    : Reads (getVector g) (putVector put l) l :=
  (reads_getCompactSize hlen).bind (reads_getMany l h)

/-- A vector that is too long is refused before its elements are read. -/
theorem getVector_too_large {l} (hlen : maxSize < l.length) (h64 : l.length < 256 ^ 8)
    (rest : Bytes) :
    (getVector g).run (putVector put l ++ rest) = .error "ReadCompactSize(): size too large" := by
  unfold getVector putVector
  rw [append_assoc, StateT.run_bind, getCompactSize_too_large hlen h64]
  rfl

end Codec
