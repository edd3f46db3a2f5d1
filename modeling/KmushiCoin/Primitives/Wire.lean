import KmushiCoin.Lib.Canonical
import KmushiCoin.Evo.Serialization

/-!
# KmushiCoin.Primitives.Wire

The **wire format of a transaction** (`SerializeTransaction`, `UnserializeTransaction`). The layout
depends on the version and on the type: only from the Sapling version on are the shielded part and,
for a special transaction, the payload written, both as optional values.

* `decides_transaction`: a transaction is read back exactly if none of its vectors is longer than
  the reader's limit.
* `unserialize_ok`: what is known about an accepted byte string. Every layer of the format is
  canonical except the optional values, whose reader takes any discriminant but `0x00` for present.
* `transaction_encoding_exact` puts the two directions together.
-/

namespace KmushiCoin

open Codec

namespace Wire

/-! ### The records -/

/-- A byte array of a fixed size. -/
def Blob (n : Nat) : Type := {bs : Bytes // bs.length = n}
deriving DecidableEq

/-- The array with the byte `b` everywhere. -/
def Blob.fill (n : Nat) (b : UInt8) : Blob n := ⟨List.replicate n b, List.length_replicate⟩

/-- `CTxIn`. -/
structure TxIn where
  prevout : OutPoint
  scriptSig : Script
  nSequence : UInt32
deriving DecidableEq

/-- `CTxOut`, without the in-memory `nRounds`. -/
structure TxOut where
  nValue : Int64
  scriptPubKey : Script
deriving DecidableEq

structure SpendDescription where
  cv : Uint256
  anchor : Uint256
  nullifier : Uint256
  rk : Uint256
  zkproof : Blob 192
  spendAuthSig : Blob 64
deriving DecidableEq

structure OutputDescription where
  cv : Uint256
  cmu : Uint256
  ephemeralKey : Uint256
  encCiphertext : Blob 580
  outCiphertext : Blob 80
  zkproof : Blob 192
deriving DecidableEq

structure SaplingTxData where
  valueBalance : Int64 := 0
  vShieldedSpend : List SpendDescription := []
  vShieldedOutput : List OutputDescription := []
  bindingSig : Blob 64 := Blob.fill 64 0
deriving DecidableEq

/-- `CTransaction`. The shielded part is there by default, the payload is not. -/
structure Transaction where
  nVersion : Int16
  nType : Int16
  vin : List TxIn
  vout : List TxOut
  nLockTime : UInt32
  sapData : Option SaplingTxData := some {}
  extraPayload : Option Bytes := none
deriving DecidableEq

/-- `isSaplingVersion`: the version is at least `TxVersion::SAPLING`. -/
def Transaction.isSaplingVersion (tx : Transaction) : Bool := 3 ≤ tx.nVersion

/-- `IsNormalType`: the type is `TxType::NORMAL`. -/
def Transaction.isNormalType (tx : Transaction) : Bool := tx.nType = 0

/-! ### Writers and readers -/

def putInt16 (x : Int16) : Bytes := putUInt16 x.toUInt16
def getInt16 : Get Int16 := UInt16.toInt16 <$> getUInt16

def putInt64 (x : Int64) : Bytes := putLE 8 x.toUInt64.toNat
def getInt64 : Get Int64 := (fun n => (UInt64.ofNat n).toInt64) <$> getLE 8

def putBlob {n : Nat} (b : Blob n) : Bytes := b.val

def getBlob (n : Nat) : Get (Blob n) := fun s =>
  if h : n ≤ s.length then .ok (⟨s.take n, by simp [h]⟩, s.drop n)
  else .error "read(): end of data"

def putTxIn (i : TxIn) : Bytes :=
  putOutPoint i.prevout ++ (putScript i.scriptSig ++ putUInt32 i.nSequence)

def getTxIn : Get TxIn := do
  let prevout ← getOutPoint
  let scriptSig ← getScript
  let nSequence ← getUInt32
  pure { prevout, scriptSig, nSequence }

def putTxOut (o : TxOut) : Bytes := putInt64 o.nValue ++ putScript o.scriptPubKey

def getTxOut : Get TxOut := do
  let nValue ← getInt64
  let scriptPubKey ← getScript
  pure { nValue, scriptPubKey }

def putSpendDescription (d : SpendDescription) : Bytes :=
  putUint256 d.cv ++ (putUint256 d.anchor ++ (putUint256 d.nullifier ++ (putUint256 d.rk ++
  (putBlob d.zkproof ++ putBlob d.spendAuthSig))))

def getSpendDescription : Get SpendDescription := do
  let cv ← getUint256
  let anchor ← getUint256
  let nullifier ← getUint256
  let rk ← getUint256
  let zkproof ← getBlob 192
  let spendAuthSig ← getBlob 64
  pure { cv, anchor, nullifier, rk, zkproof, spendAuthSig }

def putOutputDescription (d : OutputDescription) : Bytes :=
  putUint256 d.cv ++ (putUint256 d.cmu ++ (putUint256 d.ephemeralKey ++
  (putBlob d.encCiphertext ++ (putBlob d.outCiphertext ++ putBlob d.zkproof))))

def getOutputDescription : Get OutputDescription := do
  let cv ← getUint256
  let cmu ← getUint256
  let ephemeralKey ← getUint256
  let encCiphertext ← getBlob 580
  let outCiphertext ← getBlob 80
  let zkproof ← getBlob 192
  pure { cv, cmu, ephemeralKey, encCiphertext, outCiphertext, zkproof }

def putSaplingTxData (d : SaplingTxData) : Bytes :=
  putInt64 d.valueBalance ++ (putVector putSpendDescription d.vShieldedSpend ++
  (putVector putOutputDescription d.vShieldedOutput ++ putBlob d.bindingSig))

def getSaplingTxData : Get SaplingTxData := do
  let valueBalance ← getInt64
  let vShieldedSpend ← getVector getSpendDescription
  let vShieldedOutput ← getVector getOutputDescription
  let bindingSig ← getBlob 64
  pure { valueBalance, vShieldedSpend, vShieldedOutput, bindingSig }

/-- The part that follows the lock time. -/
def putOptionals (tx : Transaction) : Bytes :=
  if tx.isSaplingVersion then
    putOptional putSaplingTxData tx.sapData ++
      (if tx.isNormalType then [] else putOptional putScript tx.extraPayload)
  else []

/-- Read the optional fields into a transaction whose other fields have been read. -/
def getOptionals (tx : Transaction) : Get Transaction :=
  if tx.isSaplingVersion then do
    let sapData ← getOptional getSaplingTxData
    if tx.isNormalType then pure { tx with sapData }
    else do
      let extraPayload ← getOptional getScript
      pure { tx with sapData, extraPayload }
  else pure tx

/-- The part that every transaction has. -/
def putBase (tx : Transaction) : Bytes :=
  putInt16 tx.nVersion ++ (putInt16 tx.nType ++ (putVector putTxIn tx.vin ++
  (putVector putTxOut tx.vout ++ putUInt32 tx.nLockTime)))

def getBase : Get Transaction := do
  let nVersion ← getInt16
  let nType ← getInt16
  let vin ← getVector getTxIn
  let vout ← getVector getTxOut
  let nLockTime ← getUInt32
  pure { nVersion, nType, vin, vout, nLockTime }

def serializeTransaction (tx : Transaction) : Bytes := putBase tx ++ putOptionals tx

def unserializeTransaction : Get Transaction := getBase >>= getOptionals

/-- The transaction id: the hash of the encoding. `operator==` compares it and nothing else. -/
def Transaction.getHash {Hash : Type} (H : Bytes → Hash) (tx : Transaction) : Hash :=
  H (serializeTransaction tx)

/-! ### Fields are canonical and read back -/

theorem reads_int16 (x : Int16) : Reads getInt16 (putInt16 x) x := by
  have hr := (reads_uint16 x.toUInt16).map (f := UInt16.toInt16)
  rwa [show x.toUInt16.toInt16 = x by simp] at hr

theorem reads_int64 (x : Int64) : Reads getInt64 (putInt64 x) x :=
  reads_fixed (fun x : Int64 => x.toUInt64.toNat)
    (lt_of_lt_of_le x.toUInt64.toNat_lt (by norm_num)) (by simp)

theorem reads_blob {n : Nat} (b : Blob n) : Reads (getBlob n) (putBlob b) b := by
  intro rest
  obtain ⟨bs, rfl⟩ := b
  have hle : bs.length ≤ (bs ++ rest).length := by simp
  show (if h : bs.length ≤ (bs ++ rest).length then _ else _) = _
  rw [dif_pos hle]
  simp [putBlob]

theorem canonical_blob (n : Nat) : Canonical (getBlob n) putBlob := by
  intro s b rest h
  change (if h : n ≤ s.length then _ else _) = _ at h
  split at h
  · cases h
    exact (List.take_append_drop n s).symm
  · exact nomatch h

/-- A fixed-width field, from the number that represents it. -/
theorem canonical_fixed {α : Type} (toNat : α → Nat) {ofNat : Nat → α} {w : Nat}
    (h : ∀ n, toNat (ofNat n) = n % 256 ^ w) :
    Canonical (ofNat <$> getLE w) fun a => putLE w (toNat a) :=
  (canonical_getLE w).map fun n => by rw [h, putLE, putLE, toLE_mod]

theorem canonical_uint16 : Canonical getUInt16 putUInt16 := canonical_fixed _ fun n => by simp

theorem canonical_uint32 : Canonical getUInt32 putUInt32 := canonical_fixed _ fun n => by simp

theorem canonical_int16 : Canonical getInt16 putInt16 :=
  canonical_uint16.map fun x => by simp [putInt16]

theorem canonical_int64 : Canonical getInt64 putInt64 :=
  canonical_fixed (fun x : Int64 => x.toUInt64.toNat) fun n => by simp

theorem canonical_uint256 : Canonical getUint256 putUint256 :=
  (canonical_getBE 32).map fun n => by
    have hmod : 2 ^ 256 = 256 ^ 32 := by norm_num
    rw [putUint256, Fin.val_ofNat, hmod, putBE, putBE, toLE_mod 32 n]

theorem canonical_outPoint : Canonical getOutPoint putOutPoint := by
  intro s o rest h
  simp only [getOutPoint, run_bind_ok, run_pure_ok] at h
  obtain ⟨hash, s₁, hhash, n, s₂, hn, rfl, rfl⟩ := h
  obtain rfl := canonical_uint256 hhash
  obtain rfl := canonical_uint32 hn
  simp [putOutPoint]

variable {s rest : Bytes}

/-- An accepted script is the encoding of its bytes, and no longer than the limit. -/
theorem getScript_ok {a} (h : getScript.run s = .ok (a, rest)) :
    s = putScript a ++ rest ∧ a.length ≤ maxSize := by
  obtain ⟨n, s₁, hn, hbytes⟩ := run_bind_ok.mp h
  obtain ⟨rfl, hle⟩ := getCompactSize_ok hn
  obtain ⟨rfl, rfl⟩ := getBytes_ok hbytes
  exact ⟨by simp [putScript], hle⟩

/-- A script that fits the length field is read back exactly if it is within the limit. -/
theorem decides_script {a} (h64 : a.length < 256 ^ 8) :
    Decides getScript (putScript a) a (a.length ≤ maxSize) :=
  ((Decides.getCompactSize h64).bind (.of_reads (reads_getBytes a))).congr (and_iff_left trivial)

/-! ### The size of the vectors -/

/-- The script of an input has at most `n` bytes. -/
def TxIn.WithinSize (n : Nat) (i : TxIn) : Prop := i.scriptSig.length ≤ n

def TxOut.WithinSize (n : Nat) (o : TxOut) : Prop := o.scriptPubKey.length ≤ n

/-- Neither vector of descriptions has more than `n` elements. -/
def SaplingTxData.WithinSize (n : Nat) (d : SaplingTxData) : Prop :=
  d.vShieldedSpend.length ≤ n ∧ d.vShieldedOutput.length ≤ n

/-- The optional fields that are written have at most `n` elements in each vector. -/
def Transaction.OptionalsWithin (n : Nat) (tx : Transaction) : Prop :=
  (tx.isSaplingVersion → ∀ d ∈ tx.sapData, d.WithinSize n) ∧
    (tx.isSaplingVersion → ¬ tx.isNormalType → ∀ p ∈ tx.extraPayload, p.length ≤ n)

/-- **Sizes.** None of the vectors that are written for the transaction has more than `n`
elements. -/
structure Transaction.WithinSize (n : Nat) (tx : Transaction) : Prop where
  vin : tx.vin.length ≤ n ∧ ∀ i ∈ tx.vin, i.WithinSize n
  vout : tx.vout.length ≤ n ∧ ∀ o ∈ tx.vout, o.WithinSize n
  optionals : tx.OptionalsWithin n

/-- The number of elements of a vector is a 64-bit number. -/
abbrev sizeMax : Nat := 2 ^ 64 - 1

/-! ### What comes back -/

theorem decides_txIn {i} (h : i.WithinSize sizeMax) :
    Decides getTxIn (putTxIn i) i (i.WithinSize maxSize) := by
  have hle : i.scriptSig.length ≤ 2 ^ 64 - 1 := h
  refine .after (reads_outPoint i.prevout) ?_
  exact (decides_script (by omega)).before (reads_uint32 i.nSequence).last

theorem decides_txOut {o} (h : o.WithinSize sizeMax) :
    Decides getTxOut (putTxOut o) o (o.WithinSize maxSize) := by
  have hle : o.scriptPubKey.length ≤ 2 ^ 64 - 1 := h
  exact .after (reads_int64 o.nValue) (decides_script (by omega)).last

theorem reads_spendDescription (d : SpendDescription) :
    Reads getSpendDescription (putSpendDescription d) d := by
  refine (reads_uint256 d.cv).bind ?_
  refine (reads_uint256 d.anchor).bind ?_
  refine (reads_uint256 d.nullifier).bind ?_
  refine (reads_uint256 d.rk).bind ?_
  exact (reads_blob d.zkproof).bind (reads_blob d.spendAuthSig).last

theorem reads_outputDescription (d : OutputDescription) :
    Reads getOutputDescription (putOutputDescription d) d := by
  refine (reads_uint256 d.cv).bind ?_
  refine (reads_uint256 d.cmu).bind ?_
  refine (reads_uint256 d.ephemeralKey).bind ?_
  refine (reads_blob d.encCiphertext).bind ?_
  exact (reads_blob d.outCiphertext).bind (reads_blob d.zkproof).last

/-- A vector whose elements are always read back. -/
theorem decides_vector {α : Type} {g} {put : α → Bytes} {l}
    (hlen : l.length ≤ sizeMax) (h : ∀ a, Reads g (put a) a) :
    Decides (getVector g) (putVector put l) l (l.length ≤ maxSize) := by
  have hle : l.length ≤ 2 ^ 64 - 1 := hlen
  have hr := Decides.getVector (l := l) (by omega) fun a _ => Decides.of_reads (h a)
  exact hr.congr (and_iff_left fun _ _ => trivial)

theorem decides_saplingTxData {d} (h : d.WithinSize sizeMax) :
    Decides getSaplingTxData (putSaplingTxData d) d (d.WithinSize maxSize) := by
  refine .after (reads_int64 d.valueBalance) ?_
  refine (decides_vector h.1 reads_spendDescription).bind ?_
  exact (decides_vector h.2 reads_outputDescription).before (reads_blob d.bindingSig).last

/-- The transaction without its optional fields: they have their defaults. -/
def Transaction.base (tx : Transaction) : Transaction :=
  { tx with sapData := some {}, extraPayload := none }

/-- The transaction a reader returns for the encoding of `tx`: the fields that are not written
for its version and type have their defaults. -/
def Transaction.asRead (tx : Transaction) : Transaction :=
  if tx.isSaplingVersion then
    if tx.isNormalType then { tx.base with sapData := tx.sapData } else tx
  else tx.base

/-- The fields that are not written do not reach the encoding. -/
theorem serialize_asRead (tx : Transaction) :
    serializeTransaction tx.asRead = serializeTransaction tx := by
  unfold Transaction.asRead serializeTransaction putBase putOptionals
    Transaction.isSaplingVersion Transaction.isNormalType
  by_cases hv : 3 ≤ tx.nVersion
  · by_cases ht : tx.nType = 0
    · simp [hv, ht, Transaction.base]
    · simp [hv, ht]
  · simp [hv, Transaction.base]

variable {tx : Transaction}

theorem decides_optionals (h : tx.OptionalsWithin sizeMax) :
    Decides (getOptionals tx.base) (putOptionals tx) tx.asRead (tx.OptionalsWithin maxSize) := by
  have hbv : tx.base.isSaplingVersion = tx.isSaplingVersion := rfl
  have hbt : tx.base.isNormalType = tx.isNormalType := rfl
  unfold getOptionals putOptionals Transaction.asRead
  rw [hbv, hbt]
  by_cases hv : tx.isSaplingVersion
  · rw [if_pos hv, if_pos hv, if_pos hv]
    have hsap := Decides.getOptional fun d hd => decides_saplingTxData (h.1 hv d hd)
    by_cases ht : tx.isNormalType
    · simp only [if_pos ht, List.append_nil]
      exact hsap.last.congr (by simp [Transaction.OptionalsWithin, hv, ht])
    · simp only [if_neg ht]
      have hlt : ∀ p ∈ tx.extraPayload, p.length < 256 ^ 8 := by
        intro p hp
        have hle : p.length ≤ 2 ^ 64 - 1 := h.2 hv ht p hp
        omega
      have hpay := Decides.getOptional fun p hp => decides_script (hlt p hp)
      refine (hsap.bind hpay.last).congr ?_
      simp [Transaction.OptionalsWithin, hv, ht]
  · rw [if_neg hv, if_neg hv, if_neg hv]
    exact (Decides.of_reads (Reads.pure tx.base)).congr
      (by simp [Transaction.OptionalsWithin, hv])

theorem decides_base (h : tx.WithinSize sizeMax) : Decides getBase (putBase tx) tx.base
      ((tx.vin.length ≤ maxSize ∧ ∀ i ∈ tx.vin, i.WithinSize maxSize) ∧
        (tx.vout.length ≤ maxSize ∧ ∀ o ∈ tx.vout, o.WithinSize maxSize)) := by
  have hvin : tx.vin.length ≤ 2 ^ 64 - 1 := h.vin.1
  have hvout : tx.vout.length ≤ 2 ^ 64 - 1 := h.vout.1
  have hins := Decides.getVector (l := tx.vin) (by omega) fun i hi => decides_txIn (h.vin.2 i hi)
  have houts := Decides.getVector (l := tx.vout) (by omega)
    fun o ho => decides_txOut (h.vout.2 o ho)
  refine .after (reads_int16 tx.nVersion) (.after (reads_int16 tx.nType) ?_)
  exact hins.bind (houts.before (reads_uint32 tx.nLockTime).last)

/-- **Round trip.** Among the transactions a vector's length field can describe, exactly those
within the reader's limit come back. -/
theorem decides_transaction (h : tx.WithinSize sizeMax) :
    Decides unserializeTransaction (serializeTransaction tx) tx.asRead (tx.WithinSize maxSize) := by
  have hr := (decides_base h).bind (decides_optionals h.optionals)
  refine hr.congr ⟨?_, ?_⟩
  · intro ⟨⟨hi, ho⟩, hp⟩
    exact ⟨hi, ho, hp⟩
  · intro hw
    exact ⟨⟨hw.vin, hw.vout⟩, hw.optionals⟩

/-! ### What is accepted -/

theorem getTxIn_ok {i} (h : getTxIn.run s = .ok (i, rest)) :
    s = putTxIn i ++ rest ∧ i.WithinSize maxSize := by
  simp only [getTxIn, run_bind_ok, run_pure_ok] at h
  obtain ⟨prevout, s₁, hout, scriptSig, s₂, hscript, nSequence, s₃, hseq, rfl, rfl⟩ := h
  obtain rfl := canonical_outPoint hout
  obtain ⟨rfl, hle⟩ := getScript_ok hscript
  obtain rfl := canonical_uint32 hseq
  exact ⟨by simp [putTxIn], hle⟩

theorem getTxOut_ok {o} (h : getTxOut.run s = .ok (o, rest)) :
    s = putTxOut o ++ rest ∧ o.WithinSize maxSize := by
  simp only [getTxOut, run_bind_ok, run_pure_ok] at h
  obtain ⟨nValue, s₁, hval, scriptPubKey, s₂, hscript, rfl, rfl⟩ := h
  obtain rfl := canonical_int64 hval
  obtain ⟨rfl, hle⟩ := getScript_ok hscript
  exact ⟨by simp [putTxOut], hle⟩

theorem canonical_spendDescription : Canonical getSpendDescription putSpendDescription := by
  intro s d rest h
  simp only [getSpendDescription, run_bind_ok, run_pure_ok] at h
  obtain ⟨cv, s₁, h₁, anchor, s₂, h₂, nullifier, s₃, h₃, rk, s₄, h₄, zkproof, s₅, h₅,
    spendAuthSig, s₆, h₆, rfl, rfl⟩ := h
  obtain rfl := canonical_uint256 h₁
  obtain rfl := canonical_uint256 h₂
  obtain rfl := canonical_uint256 h₃
  obtain rfl := canonical_uint256 h₄
  obtain rfl := canonical_blob 192 h₅
  obtain rfl := canonical_blob 64 h₆
  simp [putSpendDescription]

theorem canonical_outputDescription : Canonical getOutputDescription putOutputDescription := by
  intro s d rest h
  simp only [getOutputDescription, run_bind_ok, run_pure_ok] at h
  obtain ⟨cv, s₁, h₁, cmu, s₂, h₂, ephemeralKey, s₃, h₃, encCiphertext, s₄, h₄, outCiphertext,
    s₅, h₅, zkproof, s₆, h₆, rfl, rfl⟩ := h
  obtain rfl := canonical_uint256 h₁
  obtain rfl := canonical_uint256 h₂
  obtain rfl := canonical_uint256 h₃
  obtain rfl := canonical_blob 580 h₄
  obtain rfl := canonical_blob 80 h₅
  obtain rfl := canonical_blob 192 h₆
  simp [putOutputDescription]

theorem getSaplingTxData_ok {d} (h : getSaplingTxData.run s = .ok (d, rest)) :
    s = putSaplingTxData d ++ rest ∧ d.WithinSize maxSize := by
  simp only [getSaplingTxData, run_bind_ok, run_pure_ok] at h
  obtain ⟨valueBalance, s₁, hval, vShieldedSpend, s₂, hsp, vShieldedOutput, s₃, hout, bindingSig,
    s₄, hsig, rfl, rfl⟩ := h
  obtain rfl := canonical_int64 hval
  obtain ⟨rfl, hlsp, _⟩ := getVector_ok (P := fun _ => True)
    (fun _ _ _ hd => ⟨canonical_spendDescription hd, trivial⟩) hsp
  obtain ⟨rfl, hlout, _⟩ := getVector_ok (P := fun _ => True)
    (fun _ _ _ hd => ⟨canonical_outputDescription hd, trivial⟩) hout
  obtain rfl := canonical_blob 64 hsig
  exact ⟨by simp [putSaplingTxData], hlsp, hlout⟩

theorem getBase_ok (h : getBase.run s = .ok (tx, rest)) : s = putBase tx ++ rest ∧ tx.base = tx ∧
      (tx.vin.length ≤ maxSize ∧ ∀ i ∈ tx.vin, i.WithinSize maxSize) ∧
      (tx.vout.length ≤ maxSize ∧ ∀ o ∈ tx.vout, o.WithinSize maxSize) := by
  simp only [getBase, run_bind_ok, run_pure_ok] at h
  obtain ⟨nVersion, s₁, h₁, nType, s₂, h₂, vin, s₃, h₃, vout, s₄, h₄, nLockTime, s₅, h₅, rfl,
    rfl⟩ := h
  obtain rfl := canonical_int16 h₁
  obtain rfl := canonical_int16 h₂
  obtain ⟨rfl, hvin⟩ := getVector_ok (fun _ _ _ => getTxIn_ok) h₃
  obtain ⟨rfl, hvout⟩ := getVector_ok (fun _ _ _ => getTxOut_ok) h₄
  obtain rfl := canonical_uint32 h₅
  exact ⟨by simp [putBase], rfl, hvin, hvout⟩

/-- The discriminants of the optional fields of a transaction, in the order in which the stream
has them. -/
def optionalDiscriminants (tx : Transaction) (s : Bytes) : List UInt8 :=
  if tx.isSaplingVersion then
    s.head?.toList ++
      (if tx.isNormalType then []
       else match (getOptional getSaplingTxData).run s with
        | .error _ => []
        | .ok (_, s') => s'.head?.toList)
  else []

/-- The discriminants of the optional fields in the encoding of a transaction. -/
def discriminants (s : Bytes) : List UInt8 :=
  match getBase.run s with
  | .error _ => []
  | .ok (tx, s') => optionalDiscriminants tx s'

/-- An accepted optional field that is written in full or not at all. -/
theorem getOptional_within {α : Type} {g} {put : α → Bytes} {fits : α → Prop}
    (hg : ∀ ⦃s a rest⦄, g.run s = .ok (a, rest) → s = put a ++ rest ∧ fits a) {o : Option α}
    (h : (getOptional g).run s = .ok (o, rest)) : ∀ a ∈ o, fits a := by
  obtain ⟨d, s₁, hd, hbody⟩ := run_bind_ok.mp h
  split at hbody
  · obtain ⟨rfl, rfl⟩ := run_pure_ok.mp hbody
    exact fun _ ha => nomatch ha
  · simp only [run_bind_ok, run_pure_ok] at hbody
    obtain ⟨a, s₂, ha, rfl, rfl⟩ := hbody
    intro b hb
    cases hb
    exact (hg ha).2

theorem getOptionals_ok {tx₀} (hbase : tx₀.base = tx₀)
    (h : (getOptionals tx₀).run s = .ok (tx, rest)) :
    tx.base = tx₀ ∧ tx.asRead = tx ∧ tx.OptionalsWithin maxSize ∧
      (s = putOptionals tx ++ rest ↔ ∀ d ∈ optionalDiscriminants tx₀ s, d ≤ 1) := by
  unfold getOptionals at h
  unfold optionalDiscriminants
  by_cases hv : tx₀.isSaplingVersion
  · rw [if_pos hv] at h ⊢
    obtain ⟨sapData, s', hsap, hpay⟩ := run_bind_ok.mp h
    have hsapIff := getOptional_canonical_iff (fun _ _ _ h => (getSaplingTxData_ok h).1) hsap
    have hsapFit := getOptional_within (fun _ _ _ => getSaplingTxData_ok) hsap
    by_cases ht : tx₀.isNormalType
    · rw [if_pos ht] at hpay ⊢
      obtain ⟨rfl, rfl⟩ := run_pure_ok.mp hpay
      have hv' : ({ tx₀ with sapData } : Transaction).isSaplingVersion := hv
      have ht' : ({ tx₀ with sapData } : Transaction).isNormalType := ht
      refine ⟨hbase, ?_, ⟨fun _ => hsapFit, fun _ hn => absurd ht hn⟩, ?_⟩
      · rw [Transaction.asRead, if_pos hv', if_pos ht']
        exact congrArg (fun t : Transaction => { t with sapData }) hbase
      · rw [putOptionals, if_pos hv', if_pos ht', List.append_nil, hsapIff]
        simp
    · rw [if_neg ht] at hpay ⊢
      obtain ⟨extraPayload, s'', hextra, hend⟩ := run_bind_ok.mp hpay
      obtain ⟨rfl, rfl⟩ := run_pure_ok.mp hend
      have hv' : ({ tx₀ with sapData, extraPayload } : Transaction).isSaplingVersion := hv
      have ht' : ¬ ({ tx₀ with sapData, extraPayload } : Transaction).isNormalType := ht
      have hextraIff := getOptional_canonical_iff (fun _ _ _ h => (getScript_ok h).1) hextra
      have hextraFit := getOptional_within (fun _ _ _ => getScript_ok) hextra
      refine ⟨hbase, ?_, ⟨fun _ => hsapFit, fun _ _ => hextraFit⟩, ?_⟩
      · rw [Transaction.asRead, if_pos hv', if_neg ht']
      · rw [putOptionals, if_pos hv', if_neg ht', List.append_assoc, hsapIff, hextraIff, hsap]
        simp [or_imp, forall_and]
  · rw [if_neg hv] at h ⊢
    obtain ⟨rfl, rfl⟩ := run_pure_ok.mp h
    refine ⟨hbase, ?_, ⟨fun h => absurd h hv, fun h => absurd h hv⟩, ?_⟩
    · rw [Transaction.asRead, if_neg hv, hbase]
    · simp [putOptionals, hv]

/-- **Accepted transactions.** A decoded transaction is within the limit and has defaults where
nothing was read. The bytes it was read from are its encoding exactly if every discriminant in
them is one that the encoder writes. -/
theorem unserialize_ok (h : unserializeTransaction.run s = .ok (tx, rest)) :
    tx.WithinSize maxSize ∧ tx.asRead = tx ∧
      (s = serializeTransaction tx ++ rest ↔ ∀ d ∈ discriminants s, d ≤ 1) := by
  obtain ⟨tx₀, s', hbase, hopt⟩ := run_bind_ok.mp h
  obtain ⟨hs, htx₀, hvin, hvout⟩ := getBase_ok hbase
  obtain ⟨rfl, hread, hfit, hiff⟩ := getOptionals_ok htx₀ hopt
  refine ⟨⟨hvin, hvout, hfit⟩, hread, ?_⟩
  have hdisc : discriminants s = optionalDiscriminants tx.base s' := by rw [discriminants, hbase]
  have hput : putBase tx.base = putBase tx := rfl
  rw [hdisc, ← hiff, hs, hput, serializeTransaction, List.append_assoc, List.append_cancel_left_eq]

/-! ### Both directions -/

/-- **The wire format.** A transaction comes back equal exactly if none of its vectors is longer
than the reader's limit. An accepted byte string is reproduced exactly if each discriminant of an
optional field in it is `0x00` or `0x01`; and a byte string of that kind is the only one of that
kind with its transaction id. -/
theorem transaction_encoding_exact {Hash : Type} (H : Bytes → Hash) (hH : Function.Injective H) :
    (∀ tx : Transaction, tx.WithinSize sizeMax → ∀ rest,
      (∃ tx', unserializeTransaction.run (serializeTransaction tx ++ rest) = .ok (tx', rest) ∧
        tx'.getHash H = tx.getHash H) ↔ tx.WithinSize maxSize) ∧
    (∀ s tx rest, unserializeTransaction.run s = .ok (tx, rest) →
      (s = serializeTransaction tx ++ rest ↔ ∀ d ∈ discriminants s, d ≤ 1)) ∧
    (∀ s s' tx tx', unserializeTransaction.run s = .ok (tx, []) →
      unserializeTransaction.run s' = .ok (tx', []) → tx.getHash H = tx'.getHash H →
      (∀ d ∈ discriminants s, d ≤ 1) → (s' = s ↔ ∀ d ∈ discriminants s', d ≤ 1)) := by
  refine ⟨?_, ?_, ?_⟩
  · intro tx hsize rest
    have hdec := decides_transaction hsize
    constructor
    · intro ⟨tx', hrun, _⟩
      by_contra hfit
      exact hdec.refuses hfit rest tx' rest hrun
    · intro hfit
      exact ⟨tx.asRead, hdec.reads hfit rest, congrArg H (serialize_asRead tx)⟩
  · intro s tx rest h
    exact (unserialize_ok h).2.2
  · intro s s' tx tx' h h' hid hcanon
    have hs := (unserialize_ok h).2.2.mpr hcanon
    have hbytes : serializeTransaction tx = serializeTransaction tx' := hH hid
    rw [← (unserialize_ok h').2.2, ← hbytes, ← hs]

/-- A transaction of the Sapling version with nothing in it. -/
def Sample.emptySapling : Transaction :=
  { nVersion := 3, nType := 0, vin := [], vout := [], nLockTime := 0 }

/-- Its encoding, with the byte that announces the shielded part set to `d`. -/
def Sample.marked (d : UInt8) : Bytes :=
  [3, 0, 0, 0, 0, 0, 0, 0, 0, 0] ++ d :: List.replicate 74 0

open Sample

theorem empty_sapling_encoding : unserializeTransaction.run (marked 1) = .ok (emptySapling, []) ∧
      serializeTransaction emptySapling = marked 1 := by
  have hrun : unserializeTransaction.run (marked 1) = .ok (emptySapling, []) := rfl
  have hexact := (transaction_encoding_exact id Function.injective_id).2.1 _ _ _ hrun
  have hs := hexact.mpr (by decide +kernel)
  exact ⟨hrun, by rw [hs, List.append_nil]⟩

/-- The reader takes `0x02` for present as well, so that two byte strings have one id. -/
theorem discriminant_two_accepted : unserializeTransaction.run (marked 2) = .ok (emptySapling, []) ∧
      unserializeTransaction.run (marked 1) = .ok (emptySapling, []) ∧
      serializeTransaction emptySapling ≠ marked 2 :=
  ⟨rfl, rfl, by decide⟩

end Wire

end KmushiCoin
