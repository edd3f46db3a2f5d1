import KmushiCoin.Evo.Serialization
import KmushiCoin.Masternode.PaymentChecks
import KmushiCoin.Validation.CheckTransaction

/-!
# KmushiCoin.Coins.Compressor

The **compressed format of a coin**, in the coin database and in the undo files.

* **Amounts** (`CompressAmount`, `DecompressAmount`): trailing decimal zeros, at most nine, become
  an exponent, and a last digit that is not zero is stored in base nine. The arithmetic is that of
  64-bit words; it does not wrap for the amounts that can occur (`decompress_compress`).
* **Scripts** (`CompressScript`, `DecompressScript`): six special forms have a code below six, all
  others the code `size + 6`. A pay-to-pubkey script with an uncompressed key is special only if
  the key is valid, and its decoding needs the curve: `PubKeys` stands for that part.
* **Coins**: height and flags packed into one word. An undo record of a coin above height zero has
  a dummy after it, written as a byte and read as a variable-length integer.

`Coin.compression_round_trip` is the result for both formats.
-/

namespace KmushiCoin

open Codec List Bool

/-! ### Amounts -/

/-- The loop of `CompressAmount`: divide by ten while the last digit is zero. The first argument is
the number of iterations the bound on `e` still allows. -/
def dropZeros : Nat → UInt64 → Nat → UInt64 × Nat
  | 0, n, e => (n, e)
  | k + 1, n, e => if n % 10 = 0 then dropZeros k (n / 10) (e + 1) else (n, e)

def compressAmount (n : UInt64) : UInt64 :=
  if n = 0 then 0
  else
    let (n, e) := dropZeros 9 n 0
    if e < 9 then
      let d := n % 10
      1 + (n / 10 * 9 + d - 1) * 10 + UInt64.ofNat e
    else 1 + (n - 1) * 10 + 9

/-- The loop of `DecompressAmount`. -/
def appendZeros : Nat → UInt64 → UInt64
  | 0, n => n
  | e + 1, n => appendZeros e (n * 10)

def decompressAmount (x : UInt64) : UInt64 :=
  if x = 0 then 0
  else
    let x := x - 1
    let e := (x % 10).toNat
    let x := x / 10
    if e < 9 then
      let d := x % 9 + 1
      appendZeros e (x / 9 * 10 + d)
    else appendZeros e (x + 1)

variable {n x m : UInt64} {script : Script}

/-- What the loop leaves: the number without its last zeros, and how many there were. -/
theorem dropZeros_spec (k : Nat) (hn : n ≠ 0) (e : Nat) :
    ∃ m j, dropZeros k n e = (m, e + j) ∧ j ≤ k ∧ n.toNat = m.toNat * 10 ^ j ∧ m ≠ 0 ∧
      (j < k → m.toNat % 10 ≠ 0) := by
  induction k generalizing n e with
  | zero => exact ⟨n, 0, rfl, le_refl 0, by simp, hn, fun h => absurd h (by omega)⟩
  | succ k ih =>
    have hn0 : n.toNat ≠ 0 := fun h => hn (UInt64.toNat_inj.mp h)
    have hmod : n % 10 = 0 ↔ n.toNat % 10 = 0 := by
      rw [← UInt64.toNat_inj]
      simp
    by_cases h10 : n % 10 = 0
    · have hdiv : (n / 10).toNat = n.toNat / 10 := by simp
      have hz := hmod.mp h10
      have hn' : n / 10 ≠ 0 := by
        intro h
        rw [h] at hdiv
        simp at hdiv
        omega
      obtain ⟨m, j, hrun, hj, hval, hm, hlast⟩ := ih hn' (e + 1)
      refine ⟨m, j + 1, ?_, by omega, ?_, hm, fun h => hlast (by omega)⟩
      · rw [dropZeros, if_pos h10, hrun]
        congr 1
        omega
      · rw [pow_succ, ← mul_assoc, ← hval, hdiv]
        omega
    · refine ⟨n, 0, ?_, by omega, by simp, hn, fun _ h => h10 (hmod.mpr h)⟩
      rw [dropZeros, if_neg h10]
      rfl

theorem toNat_appendZeros (e : Nat) (n : UInt64) :
    (appendZeros e n).toNat = n.toNat * 10 ^ e % 2 ^ 64 := by
  induction e generalizing n with
  | zero => simp [appendZeros, Nat.mod_eq_of_lt n.toNat_lt]
  | succ e ih =>
    have h10 : (n * 10).toNat = n.toNat * 10 % 2 ^ 64 := by simp
    rw [appendZeros, ih, h10, Nat.mod_mul_mod, pow_succ]
    congr 1
    ring

theorem toNat_pred (hx : x.toNat ≠ 0) : (x - 1).toNat = x.toNat - 1 := by
  have h1 : (1 : UInt64) ≤ x := by
    rw [UInt64.le_iff_toNat_le]
    show 1 ≤ x.toNat
    omega
  rw [UInt64.toNat_sub_of_le x 1 h1]
  rfl

/-- The code of a number `10 * q + d` with `e` zeros after it, `e` below nine. -/
theorem decompress_digit {e : Nat} (he : e < 9) (hm : m.toNat % 10 ≠ 0)
    (hx : x.toNat = 1 + (m.toNat / 10 * 9 + m.toNat % 10 - 1) * 10 + e) :
    decompressAmount x = appendZeros e m := by
  have hlt := m.toNat_lt
  have hx0 : x ≠ 0 := by
    intro h
    rw [h] at hx
    simp at hx
    omega
  have hpred := toNat_pred (x := x) (by omega)
  have hexp : ((x - 1) % 10).toNat = e := by
    simp only [UInt64.toNat_mod, hpred, UInt64.reduceToNat]
    omega
  have hq : ((x - 1) / 10).toNat = m.toNat / 10 * 9 + m.toNat % 10 - 1 := by
    simp only [UInt64.toNat_div, hpred, UInt64.reduceToNat]
    omega
  have hn : (x - 1) / 10 / 9 * 10 + ((x - 1) / 10 % 9 + 1) = m := by
    apply UInt64.toNat_inj.mp
    simp only [UInt64.toNat_add, UInt64.toNat_mul, UInt64.toNat_div (_ / 10), UInt64.toNat_mod, hq,
      UInt64.reduceToNat]
    omega
  simp only [decompressAmount, if_neg hx0, hexp, if_pos he, hn]

/-- The code of a number with at least nine zeros after it. -/
theorem decompress_nine (hm : m.toNat ≠ 0) (hx : x.toNat = 1 + (m.toNat - 1) * 10 + 9)
    : decompressAmount x = appendZeros 9 m := by
  have hlt := m.toNat_lt
  have hx0 : x ≠ 0 := by
    intro h
    rw [h] at hx
    simp at hx
  have hpred := toNat_pred (x := x) (by omega)
  have hexp : ((x - 1) % 10).toNat = 9 := by
    simp only [UInt64.toNat_mod, hpred, UInt64.reduceToNat]
    omega
  have hn : (x - 1) / 10 + 1 = m := by
    apply UInt64.toNat_inj.mp
    simp only [UInt64.toNat_add, UInt64.toNat_div, hpred, UInt64.reduceToNat]
    omega
  simp only [decompressAmount, if_neg hx0, hexp, hn]
  rfl

/-- **Amounts come back** as long as nine times the amount fits a word. -/
theorem decompress_compress (hn : n.toNat < 2 ^ 60) : decompressAmount (compressAmount n) = n := by
  by_cases h0 : n = 0
  · rw [h0]
    rfl
  obtain ⟨m, e, hrun, he, hval, hm, hlast⟩ := dropZeros_spec 9 h0 0
  have hm0 : m.toNat ≠ 0 := fun h => hm (UInt64.toNat_inj.mp h)
  have hmn : m.toNat ≤ n.toNat := by
    rw [hval]
    exact Nat.le_mul_of_pos_right _ (by positivity)
  have hback : appendZeros e m = n := by
    apply UInt64.toNat_inj.mp
    rw [toNat_appendZeros, ← hval, Nat.mod_eq_of_lt n.toNat_lt]
  rw [Nat.zero_add] at hrun
  simp only [compressAmount, if_neg h0, hrun]
  by_cases h9 : e < 9
  · rw [if_pos h9, decompress_digit h9 (hlast h9), hback]
    have hd := hlast h9
    have hsum : (m / 10 * 9 + m % 10).toNat = m.toNat / 10 * 9 + m.toNat % 10 := by
      simp only [UInt64.toNat_add, UInt64.toNat_mul, UInt64.toNat_div, UInt64.toNat_mod,
        UInt64.reduceToNat]
      omega
    have hpred := toNat_pred (x := m / 10 * 9 + m % 10) (by omega)
    simp only [UInt64.toNat_add (_ + _), UInt64.toNat_add 1, UInt64.toNat_mul (_ - _), hpred, hsum,
      UInt64.toNat_ofNat', UInt64.reduceToNat]
    omega
  · have he9 : e = 9 := by omega
    subst he9
    rw [if_neg h9, decompress_nine hm0, hback]
    simp only [UInt64.toNat_add, UInt64.toNat_mul, toNat_pred hm0, UInt64.reduceToNat]
    omega

/-! ### Scripts -/

/-- **The curve.** Which uncompressed keys are points of it, and the key with a given compressed
form, if there is one. -/
structure PubKeys where
  isFullyValid : Bytes → Bool
  decompress : Bytes → Option Bytes
  /-- The size that `DecompressScript` asserts. -/
  decompress_size : ∀ {vch key}, decompress vch = some key → key.length = 65

/-- The compressed form of an uncompressed key: the parity of its second coordinate and its first
coordinate. -/
def compressedKey (key : Bytes) : Bytes :=
  (2 ||| ((key[64]?.getD 0) &&& 1)) :: (key.drop 1).take 32

/-- Decompression inverts compression on the uncompressed keys that are valid. -/
def PubKeys.Inverts (keys : PubKeys) : Prop :=
  ∀ key : Bytes, key.length = 65 → key[0]? = some 0x04 → keys.isFullyValid key →
    keys.decompress (compressedKey key) = some key

/-- `IsToKeyID`: `OP_DUP OP_HASH160 <20 bytes> OP_EQUALVERIFY OP_CHECKSIG`. -/
def isToKeyID (script : Script) : Option Bytes :=
  if script.length = 25 ∧ script[0]? = some 0x76 ∧ script[1]? = some 0xa9 ∧
      script[2]? = some 20 ∧ script[23]? = some 0x88 ∧ script[24]? = some 0xac then
    some ((script.drop 3).take 20)
  else none

/-- `IsToScriptID`: `OP_HASH160 <20 bytes> OP_EQUAL`. -/
def isToScriptID (script : Script) : Option Bytes :=
  if script.length = 23 ∧ script[0]? = some 0xa9 ∧ script[1]? = some 20 ∧
      script[22]? = some 0x87 then
    some ((script.drop 2).take 20)
  else none

/-- `IsToPubKey`: a key and `OP_CHECKSIG`; an uncompressed key has to be valid. -/
def isToPubKey (keys : PubKeys) (script : Script) : Option Bytes :=
  if script.length = 35 ∧ script[0]? = some 33 ∧ script[34]? = some 0xac ∧
      (script[1]? = some 0x02 ∨ script[1]? = some 0x03) then
    some ((script.drop 1).take 33)
  else if script.length = 67 ∧ script[0]? = some 65 ∧ script[66]? = some 0xac ∧
      script[1]? = some 0x04 then
    if keys.isFullyValid ((script.drop 1).take 65) then some ((script.drop 1).take 65) else none
  else none

def compressScript (keys : PubKeys) (script : Script) : Option Bytes :=
  match isToKeyID script with
  | some keyID => some (0x00 :: keyID)
  | none =>
    match isToScriptID script with
    | some scriptID => some (0x01 :: scriptID)
    | none =>
      match isToPubKey keys script with
      | none => none
      | some pubkey =>
        if pubkey[0]? = some 0x02 ∨ pubkey[0]? = some 0x03 then
          some (pubkey[0]?.getD 0 :: (pubkey.drop 1).take 32)
        else if pubkey[0]? = some 0x04 then
          some ((0x04 ||| ((pubkey[64]?.getD 0) &&& 0x01)) :: (pubkey.drop 1).take 32)
        else none

def getSpecialScriptSize (nSize : UInt32) : Nat :=
  if nSize = 0 ∨ nSize = 1 then 20
  else if nSize = 2 ∨ nSize = 3 ∨ nSize = 4 ∨ nSize = 5 then 32
  else 0

/-- `none` where the source returns false and leaves the script as it was. -/
def decompressScript (keys : PubKeys) (nSize : UInt32) (vch : Bytes) : Option Script :=
  if nSize = 0 then some ([0x76, 0xa9, 20] ++ vch ++ [0x88, 0xac])
  else if nSize = 1 then some ([0xa9, 20] ++ vch ++ [0x87])
  else if nSize = 2 ∨ nSize = 3 then some ([33, nSize.toUInt8] ++ vch ++ [0xac])
  else if nSize = 4 ∨ nSize = 5 then
    match keys.decompress ((nSize - 2).toUInt8 :: vch) with
    | none => none
    | some key => some ([65] ++ key ++ [0xac])
  else none

def nSpecialScripts : Nat := 6

def maxScriptSize : UInt32 := 10000

def putVarInt32 (x : UInt32) : Bytes := putVarInt x.toNat
def getVarInt32 : Get UInt32 := UInt32.ofNat <$> getVarInt (2 ^ 32 - 1)

/-- `ScriptCompression::Ser`. -/
def putCompressedScript (keys : PubKeys) (script : Script) : Bytes :=
  match compressScript keys script with
  | some compr => compr
  | none => putVarInt32 (UInt32.ofNat (script.length + nSpecialScripts)) ++ script

/-- `ScriptCompression::Unser`, into an empty script. -/
def getCompressedScript (keys : PubKeys) : Get Script := do
  let nSize ← getVarInt32
  if nSize.toNat < nSpecialScripts then do
    let vch ← getBytes (getSpecialScriptSize nSize)
    pure ((decompressScript keys nSize vch).getD [])
  else do
    let nSize := nSize - UInt32.ofNat nSpecialScripts
    -- an overly long script becomes `OP_RETURN`
    if maxScriptSize < nSize then do
      let _ ← getBytes nSize.toNat
      pure [0x6a]
    else getBytes nSize.toNat

theorem reads_varInt32 (x : UInt32) : Reads getVarInt32 (putVarInt32 x) x := by
  have hlt := x.toNat_lt
  have hr := (reads_getVarInt (m := 2 ^ 32 - 1) (n := x.toNat) rfl (by omega) (by omega)).map
    (f := UInt32.ofNat)
  rwa [UInt32.ofNat_toNat] at hr

/-- A code below `0x80` is one byte. -/
theorem reads_code (b : UInt8) (hb : b.toNat < 0x80) : Reads getVarInt32 [b] b.toUInt32 := by
  have hput : putVarInt32 b.toUInt32 = [b] := by
    have hle : b.toNat ≤ 0x7F := by omega
    simp [putVarInt32, putVarInt, hle]
  rw [← hput]
  exact reads_varInt32 b.toUInt32

variable {keys : PubKeys}

/-- A special script is read back from its code and its data. -/
theorem reads_special {b} {vch} (hb : b.toNat < nSpecialScripts)
    (hlen : vch.length = getSpecialScriptSize b.toUInt32)
    (hdec : decompressScript keys b.toUInt32 vch = some script) :
    Reads (getCompressedScript keys) (b :: vch) script := by
  have hb6 : b.toNat < 6 := hb
  have hsize : b.toUInt32.toNat < nSpecialScripts := by simpa using hb
  refine (reads_code b (by omega)).bind ?_
  simp only [if_pos hsize]
  rw [← hlen]
  have hr := (reads_getBytes vch).last (f := fun vch => (decompressScript keys b.toUInt32 vch).getD [])
  rwa [hdec] at hr

/-- What stands at a position comes off the front of the rest. -/
theorem drop_of_getElem? {α : Type} {l : List α} {i : Nat} {a : α} (h : l[i]? = some a) :
    l.drop i = a :: l.drop (i + 1) := by
  obtain ⟨hlt, rfl⟩ := List.getElem?_eq_some_iff.mp h
  exact List.drop_eq_getElem_cons hlt

theorem take_append_mid_append (l : Bytes) (k m : Nat) :
    l.take k ++ (l.drop k).take m ++ l.drop (k + m) = l := by
  rw [← drop_drop, append_assoc, take_append_drop, take_append_drop]

theorem decompress_keyID (keys : PubKeys) {keyID : Bytes} (h : isToKeyID script = some keyID) :
    keyID.length = 20 ∧ decompressScript keys 0 keyID = some script := by
  unfold isToKeyID at h
  split at h
  · next hs =>
    obtain ⟨hlen, h0, h1, h2, h23, h24⟩ := hs
    cases h
    have hpre : script.take 3 = [0x76, 0xa9, 20] := by simp [take_add_one, h0, h1, h2]
    have hsuf : script.drop 23 = [0x88, 0xac] := by
      rw [drop_of_getElem? h23, drop_of_getElem? h24, drop_of_length_le (by omega)]
    have hall := take_append_mid_append script 3 20
    rw [hpre, hsuf] at hall
    refine ⟨by simp [hlen], ?_⟩
    rw [decompressScript, if_pos rfl, hall]
  · cases h

theorem decompress_scriptID (keys : PubKeys) {scriptID : Bytes}
    (h : isToScriptID script = some scriptID) :
    scriptID.length = 20 ∧ decompressScript keys 1 scriptID = some script := by
  unfold isToScriptID at h
  split at h
  · next hs =>
    obtain ⟨hlen, h0, h1, h22⟩ := hs
    cases h
    have hpre : script.take 2 = [0xa9, 20] := by simp [take_add_one, h0, h1]
    have hsuf : script.drop 22 = [0x87] := by
      rw [drop_of_getElem? h22, drop_of_length_le (by omega)]
    have hall := take_append_mid_append script 2 20
    rw [hpre, hsuf] at hall
    refine ⟨by simp [hlen], ?_⟩
    rw [decompressScript, if_neg (by decide), if_pos rfl, hall]
  · cases h

/-- A script that pays to a key: its length byte, the key and `OP_CHECKSIG`. -/
theorem payToKey_eq {n : Nat} {b : UInt8} (hlen : script.length = n + 2) (h0 : script[0]? = some b)
    (hend : script[n + 1]? = some 0xac) : script = [b] ++ (script.drop 1).take n ++ [0xac] := by
  have hpre : script.take 1 = [b] := by simp [take_add_one, h0]
  have hsuf : script.drop (1 + n) = [0xac] := by
    rw [Nat.add_comm, drop_of_getElem? hend, drop_of_length_le (by omega)]
  rw [← hpre, ← hsuf, take_append_mid_append]

/-- The two kinds of scripts that `IsToPubKey` accepts. -/
theorem isToPubKey_cases {key} (h : isToPubKey keys script = some key) :
    (key.length = 33 ∧ script = [33] ++ key ++ [0xac] ∧
      (key[0]? = some 0x02 ∨ key[0]? = some 0x03)) ∨
    (key.length = 65 ∧ script = [65] ++ key ++ [0xac] ∧ key[0]? = some 0x04 ∧
      keys.isFullyValid key) := by
  have hfirst : ∀ n, 0 < n → ((script.drop 1).take n)[0]? = script[1]? := by
    intro n hn
    rw [getElem?_take_of_lt hn, getElem?_drop]
  unfold isToPubKey at h
  split at h
  · next hs =>
    obtain ⟨hlen, h0, hend, h1⟩ := hs
    cases h
    refine .inl ⟨by simp [hlen], payToKey_eq hlen h0 hend, ?_⟩
    rwa [hfirst 33 (by omega)]
  · split at h
    · next hs =>
      obtain ⟨hlen, h0, hend, h1⟩ := hs
      split at h
      · next hvalid =>
        cases h
        refine .inr ⟨by simp [hlen], payToKey_eq hlen h0 hend, ?_, hvalid⟩
        rwa [hfirst 65 (by omega)]
      · cases h
    · cases h

/-- The parity bit decides between two codes. -/
theorem parity_cases (b : UInt8) : b &&& 1 = 0 ∨ b &&& 1 = 1 := by
  have h : (b &&& 1).toNat = b.toNat % 2 := by simp [Nat.and_one_is_mod]
  rcases Nat.mod_two_eq_zero_or_one b.toNat with h2 | h2
  · exact .inl (UInt8.toNat_inj.mp (by rw [h, h2]; rfl))
  · exact .inr (UInt8.toNat_inj.mp (by rw [h, h2]; rfl))

theorem reads_toPubKey (hkeys : keys.Inverts) {key} (h : isToPubKey keys script = some key) :
    ∃ compr, (if key[0]? = some 0x02 ∨ key[0]? = some 0x03 then
          some (key[0]?.getD 0 :: (key.drop 1).take 32) else if key[0]? = some 0x04 then
          some ((0x04 ||| ((key[64]?.getD 0) &&& 0x01)) :: (key.drop 1).take 32)
        else none) = some compr ∧ Reads (getCompressedScript keys) compr script := by
  rcases isToPubKey_cases h with ⟨hlen, hscript, h0⟩ | ⟨hlen, hscript, h0, hvalid⟩
  · rw [if_pos h0]
    refine ⟨_, rfl, ?_⟩
    have hkey : key = key[0]?.getD 0 :: (key.drop 1).take 32 := by
      have htake : (key.drop 1).take 32 = key.drop 1 := take_of_length_le (by simp [hlen])
      rw [htake]
      cases key with
      | nil => simp at hlen
      | cons a l => rfl
    have hsize : ((key.drop 1).take 32).length = 32 := by simp [hlen]
    have hbytes : script = [33, key[0]?.getD 0] ++ (key.drop 1).take 32 ++ [0xac] := by
      conv => lhs; rw [hscript, hkey]
      rfl
    rcases h0 with h2 | h3
    · rw [h2, Option.getD_some] at hbytes ⊢
      exact reads_special (by decide) hsize (by rw [hbytes]; rfl)
    · rw [h3, Option.getD_some] at hbytes ⊢
      exact reads_special (by decide) hsize (by rw [hbytes]; rfl)
  · have hn : ¬ (key[0]? = some 0x02 ∨ key[0]? = some 0x03) := by
      rw [h0]
      decide
    rw [if_neg hn, if_pos h0]
    refine ⟨_, rfl, ?_⟩
    have hinv := hkeys key hlen h0 hvalid
    have hsize : ((key.drop 1).take 32).length = 32 := by simp [hlen]
    unfold compressedKey at hinv
    -- The code is four or five, two more than the first byte of the compressed key.
    rcases parity_cases (key[64]?.getD 0) with hp | hp
    · rw [hp] at hinv ⊢
      refine reads_special (by decide) hsize ?_
      show (match keys.decompress ((2 : UInt8) :: (key.drop 1).take 32) with
        | none => none
        | some key => some ([65] ++ key ++ [0xac])) = some script
      rw [show (2 : UInt8) = 2 ||| 0 by decide, hinv, hscript]
    · rw [hp] at hinv ⊢
      refine reads_special (by decide) hsize ?_
      show (match keys.decompress ((3 : UInt8) :: (key.drop 1).take 32) with
        | none => none
        | some key => some ([65] ++ key ++ [0xac])) = some script
      rw [show (3 : UInt8) = 2 ||| 1 by decide, hinv, hscript]

/-- **Scripts come back** if they are not too long to be executed. -/
theorem reads_compressedScript (hkeys : keys.Inverts) (hlen : script.length ≤ 10000) :
    Reads (getCompressedScript keys) (putCompressedScript keys script) script := by
  unfold putCompressedScript
  cases hcompr : compressScript keys script with
  | some compr =>
    unfold compressScript at hcompr
    cases hkey : isToKeyID script with
    | some keyID =>
      rw [hkey] at hcompr
      cases hcompr
      obtain ⟨hl, hdec⟩ := decompress_keyID keys hkey
      exact reads_special (by decide) hl hdec
    | none =>
      cases hid : isToScriptID script with
      | some scriptID =>
        rw [hkey, hid] at hcompr
        cases hcompr
        obtain ⟨hl, hdec⟩ := decompress_scriptID keys hid
        exact reads_special (by decide) hl hdec
      | none =>
        cases hpub : isToPubKey keys script with
        | none =>
          rw [hkey, hid, hpub] at hcompr
          cases hcompr
        | some pubkey =>
          simp only [hkey, hid, hpub] at hcompr
          obtain ⟨compr', heq, hreads⟩ := reads_toPubKey hkeys hpub
          rw [hcompr, Option.some.injEq] at heq
          rwa [heq]
  | none =>
    refine (reads_varInt32 _).bind ?_
    have hnat : (UInt32.ofNat (script.length + nSpecialScripts)).toNat = script.length + 6 := by
      rw [UInt32.toNat_ofNat']
      show (script.length + 6) % 2 ^ 32 = script.length + 6
      omega
    have hspec : ¬ script.length + 6 < nSpecialScripts := by
      show ¬ script.length + 6 < 6
      omega
    have hsub : (UInt32.ofNat (script.length + nSpecialScripts) -
        UInt32.ofNat nSpecialScripts).toNat = script.length := by
      rw [UInt32.toNat_sub_of_le, hnat]
      · show script.length + 6 - 6 = _
        omega
      · rw [UInt32.le_iff_toNat_le, hnat]
        show 6 ≤ script.length + 6
        omega
    have hmax : ¬ maxScriptSize < UInt32.ofNat (script.length + nSpecialScripts) -
        UInt32.ofNat nSpecialScripts := by
      rw [UInt32.lt_iff_toNat_lt, hsub]
      show ¬ 10000 < script.length
      omega
    simp only [hnat, if_neg hspec, if_neg hmax, hsub]
    exact reads_getBytes script

/-! ### Outputs and coins -/

/-- An amount as an unsigned word. -/
def toUint64 (v : Int) : UInt64 := UInt64.ofNat (v % 2 ^ 64).toNat

/-- `AmountCompression`. -/
def putCompressedAmount (v : Int) : Bytes := putVarInt64 (compressAmount (toUint64 v))

def getCompressedAmount : Get Int :=
  (fun x => wrap64 ((decompressAmount x).toNat : Int)) <$> getVarInt64

/-- `TxOutCompression`. -/
def putCompressedTxOut (keys : PubKeys) (o : TxOut) : Bytes :=
  putCompressedAmount o.nValue ++ putCompressedScript keys o.scriptPubKey

def getCompressedTxOut (keys : PubKeys) : Get TxOut := do
  let nValue ← getCompressedAmount
  let scriptPubKey ← getCompressedScript keys
  pure { nValue, scriptPubKey }

namespace Coin

/-- Height and flags in one word. -/
def code (c : Coin) : UInt32 :=
  c.nHeight * 4 + (if c.fCoinBase then 2 else 0) + (if c.fCoinStake then 1 else 0)

/-- The coin that a code and an output stand for. -/
def ofCode (code : UInt32) (out : TxOut) : Coin where
  out := out
  nHeight := code >>> 2
  fCoinBase := code &&& 2 ≠ 0
  fCoinStake := code &&& 1 ≠ 0

/-- `Coin::Serialize`. -/
def serialize (keys : PubKeys) (c : Coin) : Outcome Bytes := do
  assert (!c.isSpent) "!IsSpent()"
  pure (putVarInt32 c.code ++ putCompressedTxOut keys c.out)

/-- `Coin::Unserialize`. -/
def unserialize (keys : PubKeys) : Get Coin := do
  let code ← getVarInt32
  let out ← getCompressedTxOut keys
  pure (ofCode code out)

/-- `TxInUndoFormatter::Ser`: above height zero a zero byte stands where older versions wrote the
version of the transaction. -/
def serializeUndo (keys : PubKeys) (c : Coin) : Bytes :=
  putVarInt32 c.code ++ ((if 0 < c.nHeight then [0] else []) ++ putCompressedTxOut keys c.out)

/-- `TxInUndoFormatter::Unser`. -/
def unserializeUndo (keys : PubKeys) : Get Coin := do
  let nCode ← getVarInt32
  if (0 : UInt32) < nCode >>> 2 then do
    let _nVersionDummy ← getVarInt32
    let out ← getCompressedTxOut keys
    pure (ofCode nCode out)
  else do
    let out ← getCompressedTxOut keys
    pure (ofCode nCode out)

/-! ### Round trips -/

theorem toNat_code {c : Coin} (h : c.nHeight.toNat < 2 ^ 30) :
    c.code.toNat = c.nHeight.toNat * 4 + c.fCoinBase.toNat * 2 + c.fCoinStake.toNat := by
  simp only [code, UInt32.toNat_add, UInt32.toNat_mul]
  cases c.fCoinBase <;> cases c.fCoinStake <;> simp only [if_true, if_false, false_eq_true,
    UInt32.reduceToNat, toNat_true, toNat_false] <;> omega

/-- Unpacking the code gives height and flags back. -/
theorem ofCode_code {c : Coin} (h : c.nHeight.toNat < 2 ^ 30) : ofCode c.code c.out = c := by
  have hcode := toNat_code h
  have hb := Bool.toNat_lt c.fCoinBase
  have hs := Bool.toNat_lt c.fCoinStake
  have hheight : c.code >>> 2 = c.nHeight := by
    apply UInt32.toNat_inj.mp
    rw [UInt32.toNat_shiftRight, Nat.shiftRight_eq_div_pow, hcode]
    show _ / 4 = _
    omega
  have hbit : ∀ i, (c.code.toNat &&& 2 ^ i ≠ 0 ↔ c.code.toNat / 2 ^ i % 2 = 1) := by
    intro i
    rw [Nat.and_two_pow, Nat.testBit_eq_decide_div_mod_eq]
    by_cases hb : c.code.toNat / 2 ^ i % 2 = 1 <;> simp [hb]
  have hbase : decide (c.code &&& 2 ≠ 0) = c.fCoinBase := by
    rw [Bool.eq_iff_iff, decide_eq_true_iff, ne_eq, ← UInt32.toNat_inj, UInt32.toNat_and]
    refine (hbit 1).trans ?_
    rw [hcode, pow_one, ← Bool.toNat_eq_one]
    omega
  have hstake : decide (c.code &&& 1 ≠ 0) = c.fCoinStake := by
    rw [Bool.eq_iff_iff, decide_eq_true_iff, ne_eq, ← UInt32.toNat_inj, UInt32.toNat_and]
    refine (hbit 0).trans ?_
    rw [hcode, pow_zero, Nat.div_one, ← Bool.toNat_eq_one]
    omega
  rw [ofCode, hheight, hbase, hstake]

end Coin

theorem reads_compressedAmount {v : Int} (h0 : 0 ≤ v) (hlt : v < 2 ^ 60) :
    Reads getCompressedAmount (putCompressedAmount v) v := by
  have hnat : (toUint64 v).toNat = v.toNat := by
    rw [toUint64, UInt64.toNat_ofNat']
    omega
  have hr := (reads_varInt64 (compressAmount (toUint64 v))).map
    (f := fun x => wrap64 ((decompressAmount x).toNat : Int))
  rw [decompress_compress (by omega), hnat, Int.toNat_of_nonneg h0,
    wrap64_eq (by omega) (by omega)] at hr
  exact hr

namespace Coin

/-- **Coins come back.** Both formats return the coin and consume what was written for it, and the
amount code tells the amounts apart that coins can have. -/
theorem compression_round_trip (keys : PubKeys) (hkeys : keys.Inverts) (params : ConsensusParams)
    (c : Coin) (hunspent : ¬ c.isSpent) (hheight : c.nHeight.toNat < 2 ^ 30)
    (hvalue : 0 ≤ c.out.nValue ∧ c.out.nValue ≤ params.nMaxMoneyOut)
    (hscript : c.out.scriptPubKey.length ≤ 10000) :
    (∃ bs, c.serialize keys = .ok bs ∧ Reads (unserialize keys) bs c) ∧
    Reads (unserializeUndo keys) (c.serializeUndo keys) c ∧
    (∀ n m : UInt64, (n.toNat : Int) ≤ params.nMaxMoneyOut →
      (m.toNat : Int) ≤ params.nMaxMoneyOut → compressAmount n = compressAmount m → n = m) := by
  have hmax : params.nMaxMoneyOut < 2 ^ 60 :=
    lt_of_le_of_lt params.nMaxMoneyOut_le (by decide)
  have hout : Reads (getCompressedTxOut keys) (putCompressedTxOut keys c.out) c.out :=
    (reads_compressedAmount hvalue.1 (lt_of_le_of_lt hvalue.2 hmax)).bind
      (reads_compressedScript hkeys hscript).last
  have hcode := ofCode_code hheight
  have hcoin := hout.last (f := ofCode c.code)
  refine ⟨⟨putVarInt32 c.code ++ putCompressedTxOut keys c.out, ?_, ?_⟩, ?_, ?_⟩
  · simp [serialize, assert, hunspent]
  · refine (reads_varInt32 c.code).bind ?_
    rwa [hcode] at hcoin
  · refine (reads_varInt32 c.code).bind ?_
    have hheq : c.code >>> 2 = c.nHeight := congrArg Coin.nHeight hcode
    rw [hcode] at hcoin
    rw [hheq]
    by_cases hpos : (0 : UInt32) < c.nHeight
    · rw [if_pos hpos, if_pos hpos]
      exact (reads_code 0 (by decide)).bind hcoin
    · rw [if_neg hpos, if_neg hpos]
      exact hcoin
  · intro n m hn hm h
    rw [← decompress_compress (n := n) (by omega), h, decompress_compress (by omega)]

end Coin

namespace Sample

def coinParams : ConsensusParams := regtestAmounts regtestParams

def uncompressedKey : Bytes := 0x04 :: List.replicate 64 7

/-- A curve with one point. -/
def onePoint : PubKeys where
  isFullyValid := fun key => key == uncompressedKey
  decompress := fun vch => if vch = compressedKey uncompressedKey then some uncompressedKey else none
  decompress_size := by
    intro vch key h
    split at h
    · cases h
      rfl
    · cases h

theorem onePoint_inverts : onePoint.Inverts := by
  intro key _ _ hvalid
  obtain rfl := beq_iff_eq.mp hvalid
  rfl

/-- A staked coin of 250 that pays to an uncompressed key. -/
def stakedCoin : Coin :=
  { out := ⟨250 * COIN, [65] ++ uncompressedKey ++ [0xac]⟩, nHeight := 1200, fCoinBase := false
    fCoinStake := true }

end Sample

open Sample

theorem Coin.stakedCoin_round_trip :
    Reads (unserializeUndo onePoint) (stakedCoin.serializeUndo onePoint) stakedCoin :=
  (compression_round_trip onePoint onePoint_inverts coinParams
    stakedCoin (by decide) (by decide) (by decide) (by decide)).2.1

end KmushiCoin
