import KmushiCoin.Lib.Codec

/-!
# Canonical byte streams

The two questions a round trip leaves open.

* **Which bytes are accepted?** `Canonical g put` says that a reader accepts nothing but what the
  writer writes: the bytes it consumes are the encoding of the value it returns. The inversion
  lemmas `run_bind_ok`, `run_map_ok` and `run_pure_ok` take a reader's block apart, so that the
  fact for a record follows from the facts for its fields.
* **Which values are refused?** `Decides g bs a P` says that the bytes `bs` are read back as `a`
  when `P` holds and are refused when it does not; the rules compose the conditions along a block.

An optional value is a discriminant byte and, if that is not zero, the value. Its reader is not
canonical, and `getOptional_canonical_iff` says for which discriminants it is.
-/

namespace Codec

open List

variable {α β : Type}

/-! ### Taking a block apart -/

variable {g : Get α} {k : α → Get β} {s rest bs : Bytes} {b : β} {f : α → β} {a : α}
  {put : α → Bytes} {n least : Nat} {P : α → Prop} {o : Option α}

theorem run_bind_ok : (g >>= k).run s = .ok (b, rest) ↔
      ∃ a s', g.run s = .ok (a, s') ∧ (k a).run s' = .ok (b, rest) := by
  rw [StateT.run_bind]
  cases hg : g.run s with
  | error e => simp [bind, Except.bind]
  | ok p =>
    obtain ⟨a, s'⟩ := p
    simp [bind, Except.bind]

theorem run_map_ok : (f <$> g).run s = .ok (b, rest) ↔ ∃ a, g.run s = .ok (a, rest) ∧ f a = b := by
  rw [StateT.run_map]
  cases hg : g.run s with
  | error e => simp [Functor.map, Except.map]
  | ok p =>
    obtain ⟨a, s'⟩ := p
    simp only [Functor.map, Except.map, Except.ok.injEq, Prod.mk.injEq]
    constructor
    · intro ⟨hb, hr⟩
      exact ⟨a, ⟨rfl, hr⟩, hb⟩
    · intro ⟨a', ⟨ha, hr⟩, hb⟩
      exact ⟨by rw [ha, hb], hr⟩

theorem run_pure_ok {b : α} : (pure a : Get α).run s = .ok (b, rest) ↔ a = b ∧ s = rest := by
  show (Except.ok (a, s) : Except String (α × Bytes)) = .ok (b, rest) ↔ _
  rw [Except.ok.injEq, Prod.mk.injEq]

theorem run_throw_ok {e} {b : α} : ¬ (throw e : Get α).run s = .ok (b, rest) := by
  show ¬ (Except.error e : Except String (α × Bytes)) = .ok (b, rest)
  exact nofun

/-! ### Canonical readers -/

/-- **Canonical.** The bytes a successful read consumes are the encoding of what it returns. -/
def Canonical (g : Get α) (put : α → Bytes) : Prop :=
  ∀ ⦃s : Bytes⦄ ⦃a : α⦄ ⦃rest : Bytes⦄, g.run s = .ok (a, rest) → s = put a ++ rest

theorem Canonical.map {put' : β → Bytes} (h : Canonical g put) (hput : ∀ a, put' (f a) = put a)
    : Canonical (f <$> g) put' := by
  intro s b rest hrun
  obtain ⟨a, hg, rfl⟩ := run_map_ok.mp hrun
  rw [hput]
  exact h hg

theorem canonical_getByte : Canonical getByte fun b => [b] := by
  intro s b rest h
  cases s with
  | nil => exact nomatch h
  | cons c s =>
    cases h
    rfl

theorem getBytes_ok (h : (getBytes n).run s = .ok (bs, rest)) : s = bs ++ rest ∧ bs.length = n := by
  change (if n ≤ s.length then _ else _) = _ at h
  split at h
  · next hle =>
    cases h
    exact ⟨(take_append_drop n s).symm, by simp [hle]⟩
  · exact nomatch h

theorem toLE_ofLE (bs : Bytes) : toLE bs.length (ofLE bs) = bs := by
  induction bs with
  | nil => rfl
  | cons b bs ih =>
    have hb := b.toNat_lt
    have hmod : (b.toNat + 256 * ofLE bs) % 256 = b.toNat := by omega
    have hdiv : (b.toNat + 256 * ofLE bs) / 256 = ofLE bs := by omega
    rw [length_cons, ofLE, toLE, hmod, hdiv, ih, UInt8.ofNat_toNat]

/-- Only the low bytes of a number are written. -/
theorem toLE_mod (n x : Nat) : toLE n (x % 256 ^ n) = toLE n x := by
  induction n generalizing x with
  | zero => rfl
  | succ n ih =>
    have hlow : x % 256 ^ (n + 1) % 256 = x % 256 := by
      rw [pow_succ, mul_comm]
      exact Nat.mod_mul_right_mod _ _ _
    have hhigh : x % 256 ^ (n + 1) / 256 = x / 256 % 256 ^ n := by
      rw [pow_succ, mul_comm]
      exact Nat.mod_mul_right_div_self _ _ _
    rw [toLE, toLE, hlow, hhigh, ih]

theorem canonical_getLE (n : Nat) : Canonical (getLE n) (putLE n) := by
  intro s x rest h
  obtain ⟨bs, hrun, rfl⟩ := run_map_ok.mp h
  obtain ⟨hs, hlen⟩ := getBytes_ok hrun
  rwa [putLE, ← hlen, toLE_ofLE]

theorem canonical_getBE (n : Nat) : Canonical (getBE n) (putBE n) := by
  intro s x rest h
  obtain ⟨bs, hrun, rfl⟩ := run_map_ok.mp h
  obtain ⟨hs, hlen⟩ := getBytes_ok hrun
  have hrev := toLE_ofLE bs.reverse
  rw [length_reverse, hlen] at hrev
  rwa [putBE, hrev, reverse_reverse]

/-- What a wide compact size must satisfy: its number is too large for the shorter forms. -/
theorem run_canonical_ok {m : Nat} (h : (canonical least n).run s = .ok (m, rest))
    : m = n ∧ s = rest ∧ least ≤ n := by
  unfold canonical at h
  split at h
  · exact absurd h run_throw_ok
  · obtain ⟨hm, hs⟩ := run_pure_ok.mp h
    exact ⟨hm.symm, hs, by omega⟩

theorem ofLE_lt (bs : Bytes) : ofLE bs < 256 ^ bs.length := by
  induction bs with
  | nil => simp [ofLE]
  | cons b bs ih =>
    have hb := b.toNat_lt
    rw [ofLE, length_cons, pow_succ]
    omega

theorem getLE_lt {x : Nat} (h : (getLE n).run s = .ok (x, rest)) : x < 256 ^ n := by
  obtain ⟨bs, hrun, rfl⟩ := run_map_ok.mp h
  rw [← (getBytes_ok hrun).2]
  exact ofLE_lt bs

/-- A compact size whose marker announces `w` bytes. -/
theorem run_compactSize_wide {w : Nat} (h : (getLE w >>= canonical least).run s = .ok (n, rest)) :
    s = putLE w n ++ rest ∧ least ≤ n ∧ n < 256 ^ w := by
  obtain ⟨m, s', hm, hc⟩ := run_bind_ok.mp h
  obtain ⟨rfl, rfl, hle⟩ := run_canonical_ok hc
  exact ⟨canonical_getLE w hm, hle, getLE_lt hm⟩

theorem canonical_compactSizeBody : Canonical (getByte >>= compactSizeBody) putCompactSize := by
  intro s n rest h
  obtain ⟨chSize, s', hch, hbody⟩ := run_bind_ok.mp h
  obtain rfl := canonical_getByte hch
  have hlt := chSize.toNat_lt
  have hmark : ∀ k : Nat, chSize.toNat = k → chSize = UInt8.ofNat k := by
    intro k hk
    rw [← hk, UInt8.ofNat_toNat]
  unfold compactSizeBody at hbody
  -- The marker decides the width, and the range the width stands for is the writer's.
  split_ifs at hbody with h1 h2 h4
  · obtain ⟨rfl, rfl⟩ := run_pure_ok.mp hbody
    have hmod : chSize.toNat % 256 = chSize.toNat := by omega
    rw [putCompactSize, if_pos h1, putLE, toLE, toLE, hmod, UInt8.ofNat_toNat]
  · obtain ⟨rfl, hle, hn⟩ := run_compactSize_wide hbody
    rw [putCompactSize, if_neg (by omega), if_pos (by omega), hmark _ h2]
    rfl
  · obtain ⟨rfl, hle, hn⟩ := run_compactSize_wide hbody
    rw [putCompactSize, if_neg (by omega), if_neg (by omega), if_pos (by omega), hmark _ h4]
    rfl
  · obtain ⟨rfl, hle, hn⟩ := run_compactSize_wide hbody
    rw [putCompactSize, if_neg (by omega), if_neg (by omega), if_neg (by omega),
      hmark 255 (by omega)]
    rfl

theorem getCompactSize_ok (h : getCompactSize.run s = .ok (n, rest)) :
    s = putCompactSize n ++ rest ∧ n ≤ maxSize := by
  obtain ⟨m, s', hm, hrange⟩ := run_bind_ok.mp h
  split at hrange
  · exact absurd hrange run_throw_ok
  · obtain ⟨rfl, rfl⟩ := run_pure_ok.mp hrange
    exact ⟨canonical_compactSizeBody hm, by omega⟩

theorem getMany_ok (hg : ∀ ⦃s a rest⦄, g.run s = .ok (a, rest) → s = put a ++ rest ∧ P a) :
    ∀ {n : Nat} {s : Bytes} {l : List α} {rest : Bytes}, (getMany g n).run s = .ok (l, rest) →
      s = l.flatMap put ++ rest ∧ l.length = n ∧ ∀ a ∈ l, P a := by
  intro n
  induction n with
  | zero =>
    intro s l rest h
    obtain ⟨rfl, rfl⟩ := run_pure_ok.mp h
    simp
  | succ n ih =>
    intro s l rest h
    simp only [getMany, run_bind_ok, run_pure_ok] at h
    obtain ⟨a, s', ha, l', s'', hl, rfl, rfl⟩ := h
    obtain ⟨rfl, hfit⟩ := hg ha
    obtain ⟨rfl, hlen, hfits⟩ := ih hl
    refine ⟨by simp, by simp [hlen], ?_⟩
    intro b hb
    rcases mem_cons.mp hb with hb | hb
    · rwa [hb]
    · exact hfits b hb

/-- An accepted vector is the encoding of its elements, and no longer than the limit. -/
theorem getVector_ok (hg : ∀ ⦃s a rest⦄, g.run s = .ok (a, rest) → s = put a ++ rest ∧ P a)
    {l} (h : (getVector g).run s = .ok (l, rest)) :
    s = putVector put l ++ rest ∧ l.length ≤ maxSize ∧ ∀ a ∈ l, P a := by
  obtain ⟨n, s', hn, hl⟩ := run_bind_ok.mp h
  obtain ⟨rfl, hle⟩ := getCompactSize_ok hn
  obtain ⟨rfl, rfl, hfits⟩ := getMany_ok hg hl
  exact ⟨by simp [putVector], hle, hfits⟩

/-! ### Variable-length integers -/

theorem varIntAcc_pos {high} (h : high ≠ []) : 1 ≤ varIntAcc 0 high := by
  obtain ⟨b, high, rfl⟩ := exists_cons_of_ne_nil h
  exact le_trans (Nat.le_add_left 1 _) (le_varIntAcc (0 * 128 + b.toNat % 128 + 1) high)

/-- Leading digits are written back from the accumulator they lead to. -/
theorem varIntHigh_acc {high} (hhigh : ∀ b ∈ high, 128 ≤ UInt8.toNat b) (hne : high ≠ [])
    (fuel : Nat) (hacc : varIntAcc 0 high ≤ 128 ^ (fuel + 1)) :
    varIntHigh (fuel + 1) (varIntAcc 0 high - 1) = high := by
  induction high using reverseRecOn generalizing fuel with
  | nil => exact absurd rfl hne
  | append_singleton high b ih =>
    have hb : 128 ≤ b.toNat := hhigh b (by simp)
    have hlt := b.toNat_lt
    have hdigit : UInt8.ofNat (b.toNat % 128 + 0x80) = b := by
      rw [show b.toNat % 128 + 0x80 = b.toNat by omega, UInt8.ofNat_toNat]
    rw [varIntAcc_concat] at hacc ⊢
    rw [varIntHigh, Nat.add_sub_cancel]
    by_cases hnil : high = []
    · have hzero : varIntAcc 0 high = 0 := by rw [hnil]; rfl
      rw [hzero, Nat.zero_mul, Nat.zero_add, if_pos (by omega), hdigit, hnil]
      rfl
    · have hpos := varIntAcc_pos hnil
      rw [if_neg (by omega), show (varIntAcc 0 high * 128 + b.toNat % 128) / 128 =
        varIntAcc 0 high by omega, Nat.mul_add_mod_self_right, Nat.mod_mod, hdigit]
      cases fuel with
      | zero => omega
      | succ fuel => rw [ih (fun a ha => hhigh a (by simp [ha])) hnil fuel (by omega)]

/-- **Every number has one encoding.** -/
theorem VarIntOf.eq_putVarInt (h : VarIntOf bs n) (h64 : n < 2 ^ 64) : bs = putVarInt n := by
  obtain ⟨high, last, rfl, hhigh, hlast, rfl⟩ := h
  unfold putVarInt
  by_cases hnil : high = []
  · have hzero : varIntAcc 0 high = 0 := by rw [hnil]; rfl
    rw [hzero, Nat.zero_mul, Nat.zero_add, if_pos (by omega), UInt8.ofNat_toNat, hnil]
    rfl
  · have hpos := varIntAcc_pos hnil
    rw [if_neg (by omega), show (varIntAcc 0 high * 128 + last.toNat) / 128 = varIntAcc 0 high by
      omega, varIntHigh_acc hhigh hnil 8 (by omega), Nat.mul_add_mod_self_right,
      Nat.mod_eq_of_lt hlast, UInt8.ofNat_toNat]

/-- What the reader accepts is an encoding of the number it returns. -/
theorem varIntLoop_ok {m x : Nat} (hm : m % 128 = 127) (h : varIntLoop m x s = .ok (n, rest)) :
    ∃ high last, s = high ++ last :: rest ∧ (∀ b ∈ high, 128 ≤ UInt8.toNat b) ∧
      last.toNat < 128 ∧ varIntAcc x high * 128 + last.toNat = n ∧ n ≤ m := by
  induction s generalizing x with
  | nil => exact nomatch h
  | cons b s ih =>
    rw [varIntLoop] at h
    dsimp only at h
    split_ifs at h with hsmall hb hmax
    · obtain ⟨high, last, rfl, hhigh, hlast⟩ := ih h
      exact ⟨b :: high, last, rfl, forall_mem_cons.mpr ⟨hb, hhigh⟩, hlast⟩
    · obtain ⟨rfl, rfl⟩ := Prod.mk.inj (Except.ok.inj h)
      have hacc : varIntAcc x [] = x := rfl
      exact ⟨[], b, rfl, by simp, by omega, by rw [hacc]; omega, by omega⟩

/-! ### Optional values -/

/-- Write an optional value: `0x00`, or `0x01` and the value. -/
def putOptional (put : α → Bytes) : Option α → Bytes
  | none => [0x00]
  | some a => 0x01 :: put a

/-- Read an optional value: every discriminant other than `0x00` announces one. -/
def getOptional (g : Get α) : Get (Option α) := do
  let discriminant ← getByte
  if discriminant = 0x00 then pure none
  else do
    let a ← g
    pure (some a)

/-- What an accepted optional value looks like on the wire. -/
theorem getOptional_ok (hg : Canonical g put) (h : (getOptional g).run s = .ok (o, rest)) :
    ∃ d : UInt8, (d = 0 ∧ o = none ∧ s = d :: rest) ∨
      (d ≠ 0 ∧ ∃ a, o = some a ∧ s = d :: (put a ++ rest)) := by
  obtain ⟨d, s', hd, hbody⟩ := run_bind_ok.mp h
  obtain rfl := canonical_getByte hd
  refine ⟨d, ?_⟩
  split at hbody
  · next h0 =>
    obtain ⟨rfl, rfl⟩ := run_pure_ok.mp hbody
    exact .inl ⟨h0, rfl, rfl⟩
  · next h0 =>
    simp only [run_bind_ok, run_pure_ok] at hbody
    obtain ⟨a, s'', ha, rfl, rfl⟩ := hbody
    obtain rfl := hg ha
    exact .inr ⟨h0, a, rfl, rfl⟩

/-- An accepted optional value is written back as it was read exactly if its discriminant, the
first byte, is one the writer uses. -/
theorem getOptional_canonical_iff (hg : Canonical g put) (h : (getOptional g).run s = .ok (o, rest))
    (t : Bytes) : s = putOptional put o ++ t ↔ (∀ d ∈ s.head?, d ≤ 1) ∧ rest = t := by
  obtain ⟨d, ⟨rfl, rfl, rfl⟩ | ⟨h0, a, rfl, rfl⟩⟩ := getOptional_ok hg h
  · simp [putOptional]
  · have hd : d = 1 ↔ d ≤ 1 := by
      have h0' : d.toNat ≠ 0 := fun hd => h0 (UInt8.toNat_inj.mp hd)
      rw [← UInt8.toNat_inj, UInt8.le_iff_toNat_le]
      show d.toNat = 1 ↔ d.toNat ≤ 1
      omega
    simp [putOptional, hd]

/-! ### Values that are refused -/

/-- No stream that starts with `bs` is accepted. -/
def Refuses (g : Get α) (bs : Bytes) : Prop :=
  ∀ rest a rest', ¬ g.run (bs ++ rest) = .ok (a, rest')

/-- **A decided value.** The bytes `bs` are read back as `a` if `P` holds, and refused if not. -/
structure Decides (g : Get α) (bs : Bytes) (a : α) (P : Prop) : Prop where
  reads : P → Reads g bs a
  refuses : ¬ P → Refuses g bs

namespace Decides

theorem of_reads (h : Reads g bs a) : Decides g bs a True :=
  ⟨fun _ => h, fun hn => absurd trivial hn⟩

theorem congr {P Q : Prop} (h : Decides g bs a P) (hPQ : P ↔ Q) : Decides g bs a Q :=
  ⟨fun hq => h.reads (hPQ.mpr hq), fun hq => h.refuses fun hp => hq (hPQ.mp hp)⟩

variable {bs' : Bytes} {fits : α → Prop}

/-- A block reads back what all its parts read back; the first part that is refused ends it. -/
theorem bind {P Q : Prop} (h : Decides g bs a P) (hk : Decides (k a) bs' b Q) :
    Decides (g >>= k) (bs ++ bs') b (P ∧ Q) where
  reads := fun ⟨hp, hq⟩ => (h.reads hp).bind (hk.reads hq)
  refuses := by
    intro hn rest c rest' hrun
    rw [append_assoc] at hrun
    by_cases hp : P
    · rw [(h.reads hp).run_bind] at hrun
      exact hk.refuses (fun hq => hn ⟨hp, hq⟩) rest c rest' hrun
    · obtain ⟨a', s', hg, _⟩ := run_bind_ok.mp hrun
      exact h.refuses hp _ _ _ hg

/-- After a part that is always read back, the rest decides. -/
theorem after {Q : Prop} (h : Reads g bs a) (hk : Decides (k a) bs' b Q)
    : Decides (g >>= k) (bs ++ bs') b Q :=
  ((of_reads h).bind hk).congr (and_iff_right trivial)

/-- Before parts that are always read back, the first one decides. -/
theorem before {P : Prop} (h : Decides g bs a P) (hk : Reads (k a) bs' b)
    : Decides (g >>= k) (bs ++ bs') b P :=
  (h.bind (of_reads hk)).congr (and_iff_left trivial)

theorem last {P : Prop} (h : Decides g bs a P) :
    Decides (g >>= fun x => pure (f x)) bs (f a) P := by
  have hr := h.before (k := fun x => pure (f x)) (Reads.pure (f a))
  rwa [append_nil] at hr

theorem getCompactSize (h64 : n < 256 ^ 8) :
    Decides getCompactSize (putCompactSize n) n (n ≤ maxSize) where
  reads := reads_getCompactSize
  refuses := by
    intro hn rest a rest' hrun
    rw [getCompactSize_too_large (by omega) h64] at hrun
    exact nomatch hrun

theorem getMany : ∀ l : List α, (∀ a ∈ l, Decides g (put a) a (fits a)) →
      Decides (getMany g l.length) (l.flatMap put) l (∀ a ∈ l, fits a)
  | [], _ => (of_reads (Reads.pure [])).congr (by simp)
  | a :: l, h => by
      rw [flatMap_cons]
      have hrest := getMany l fun b hb => h b (mem_cons_of_mem a hb)
      exact ((h a (.head _)).bind hrest.last).congr forall_mem_cons.symm

theorem getVector {l} (h64 : l.length < 256 ^ 8) (h : ∀ a ∈ l, Decides g (put a) a (fits a)) :
    Decides (getVector g) (putVector put l) l (l.length ≤ maxSize ∧ ∀ a ∈ l, fits a) :=
  (getCompactSize h64).bind (getMany l h)

theorem getOptional (h : ∀ a ∈ o, Decides g (put a) a (fits a)) :
    Decides (getOptional g) (putOptional put o) o (∀ a ∈ o, fits a) := by
  cases o with
  | none => exact (of_reads ((reads_getByte 0).bind (Reads.pure none))).congr (by simp)
  | some a =>
    have hr : Decides (Codec.getOptional g) ([0x01] ++ put a) (some a) (fits a) :=
      after (reads_getByte 1) (h a rfl).last
    exact hr.congr (by simp)

end Decides

end Codec
