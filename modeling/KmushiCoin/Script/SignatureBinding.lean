import KmushiCoin.Lib.PrefixFree
import KmushiCoin.Script.SignatureHash

/-!
# KmushiCoin.Script.SignatureBinding

**What one digest determines.**

* `signatureHash_binds`: two Sapling signatures over everything (`SIGHASH_ALL`) with the same digest
  sign the same data (`SignedData`). The record that is hashed is taken apart from the front; each
  sub-hash is then taken apart in the same way.
* The record has **no value balance** without a shielded spend or output, and no trace of an empty
  payload: `value_balance_not_signed`.
* `signatureHash_build_independent`: the digest depends on one byte of memory that no constant of
  the source holds.
-/

namespace KmushiCoin

open Codec Wire SpendDescription SigHash Wire.TxIn List

/-! ### Fields are prefix-free -/

theorem prefixFree_int16 : PrefixFree (fun _ => True) putInt16 := .of_reads fun x _ => reads_int16 x

theorem prefixFree_int64 : PrefixFree (fun _ => True) putInt64 := .of_reads fun x _ => reads_int64 x

theorem prefixFree_uint32 : PrefixFree (fun _ => True) putUInt32 :=
  .of_reads fun x _ => reads_uint32 x

theorem prefixFree_uint256 : PrefixFree (fun _ => True) putUint256 :=
  .of_reads fun x _ => reads_uint256 x

theorem prefixFree_outPoint : PrefixFree (fun _ => True) putOutPoint :=
  .of_reads fun x _ => reads_outPoint x

/-- A script as long as a size can say; its reader refuses long ones. -/
theorem prefixFree_script : PrefixFree (fun s : Script => s.length < 256 ^ 8) putScript := by
  intro s s' hs hs' r r' heq
  unfold putScript at heq
  rw [append_assoc, append_assoc] at heq
  obtain ⟨hlen, hrest⟩ := prefixFree_compactSize hs hs' heq
  exact append_inj hrest hlen

theorem prefixFree_txOut :
    PrefixFree (fun o : Wire.TxOut => o.scriptPubKey.length < 256 ^ 8) putTxOut := by
  intro o o' ho ho' r r' heq
  unfold putTxOut at heq
  rw [append_assoc, append_assoc] at heq
  obtain ⟨hvalue, hrest⟩ := prefixFree_int64 trivial trivial heq
  obtain ⟨hscript, hr⟩ := prefixFree_script ho ho' hrest
  obtain ⟨value, script⟩ := o
  obtain ⟨value', script'⟩ := o'
  dsimp only at hvalue hscript
  exact ⟨by rw [hvalue, hscript], hr⟩

/-- The shielded spend with no signature. -/
def Wire.SpendDescription.unsigned (d : Wire.SpendDescription) : Wire.SpendDescription :=
  { d with spendAuthSig := Blob.fill 64 0 }

theorem prefixFree_spend :
    PrefixFree (fun d : Wire.SpendDescription => d.spendAuthSig = Blob.fill 64 0) putSpend := by
  intro d d' hd hd' r r' heq
  simp only [putSpend, append_assoc] at heq
  obtain ⟨hcv, heq⟩ := prefixFree_uint256 trivial trivial heq
  obtain ⟨hanchor, heq⟩ := prefixFree_uint256 trivial trivial heq
  obtain ⟨hnullifier, heq⟩ := prefixFree_uint256 trivial trivial heq
  obtain ⟨hrk, heq⟩ := prefixFree_uint256 trivial trivial heq
  have hblob : PrefixFree (fun _ => True) (putBlob (n := 192)) := .of_reads fun b _ => reads_blob b
  obtain ⟨hproof, hr⟩ := hblob trivial trivial heq
  obtain ⟨cv, anchor, nullifier, rk, zkproof, spendAuthSig⟩ := d
  obtain ⟨cv', anchor', nullifier', rk', zkproof', spendAuthSig'⟩ := d'
  dsimp only at hcv hanchor hnullifier hrk hproof hd hd'
  exact ⟨by rw [hcv, hanchor, hnullifier, hrk, hproof, hd, hd'], hr⟩

/-! ### The data that is signed -/

/-- **What a signature over everything covers.** -/
structure SignedData where
  nVersion : Int16
  nType : Int16
  prevouts : List OutPoint
  sequences : List UInt32
  vout : List Wire.TxOut
  /-- Without their signatures. -/
  shieldedSpends : List Wire.SpendDescription
  shieldedOutputs : List Wire.OutputDescription
  valueBalance : Int64
  /-- The outpoint and the sequence number of the input that is signed. -/
  input : Option (OutPoint × UInt32)
  scriptCode : Script
  amount : Int64
  payload : Option Bytes
  nLockTime : UInt32

def signedData (scriptCode : Script) (tx : Wire.Transaction) (nIn : UInt32) (amount : Int64) :
    SignedData where
  nVersion := tx.nVersion
  nType := tx.nType
  prevouts := tx.vin.map prevout
  sequences := tx.vin.map nSequence
  vout := tx.vout
  shieldedSpends := tx.shieldedSpends.map unsigned
  shieldedOutputs := tx.shieldedOutputs
  valueBalance := tx.valueBalance
  input := tx.vin[nIn.toNat]?.map fun i => (i.prevout, i.nSequence)
  scriptCode
  amount
  payload := tx.specialPayload
  nLockTime := tx.nLockTime

/-- The messages that a signature over everything hashes, with their personalizations. -/
def hashedMessages (H : HashFunctions) (memory : Memory) (scriptCode : Script)
    (tx : Wire.Transaction) (nIn : UInt32) (amount : Int64) : List (Bytes × Bytes) :=
  [(personal "PIVXPrevoutHash", tx.vin.flatMap fun i => putOutPoint i.prevout),
   (personal "PIVXSequencHash", tx.vin.flatMap fun i => putUInt32 i.nSequence),
   (personal "PIVXOutputsHash", tx.vout.flatMap putTxOut),
   (personalization memory, preimage H scriptCode tx nIn all amount none)] ++
  (if tx.shieldedSpends.isEmpty then []
    else [(personal "PIVXSSpendsHash", tx.shieldedSpends.flatMap putSpend)]) ++
  (if tx.shieldedOutputs.isEmpty then []
    else [(personal "PIVXSOutputHash", tx.shieldedOutputs.flatMap putOutputDescription)])

/-- **No collision** among the messages, under one personalization, and none of their hashes is
null. -/
structure CollisionFree (H : HashFunctions) (messages : List (Bytes × Bytes)) : Prop where
  injective : ∀ x ∈ messages, ∀ y ∈ messages, x.1 = y.1 →
    H.blake2b x.1 x.2 = H.blake2b y.1 y.2 → x.2 = y.2
  ne_null : ∀ x ∈ messages, H.blake2b x.1 x.2 ≠ 0

namespace CollisionFree

variable {H : HashFunctions} {l l' : List (Bytes × Bytes)} {p m m' : Bytes}

/-- A message of each call, under the same personalization. -/
theorem eq_of_hash_eq (h : CollisionFree H (l ++ l')) (hm : (p, m) ∈ l) (hm' : (p, m') ∈ l')
    (heq : H.blake2b p m = H.blake2b p m') : m = m' :=
  h.injective _ (mem_append_left _ hm) _ (mem_append_right _ hm') rfl heq

end CollisionFree

section

variable {H : HashFunctions} {memory : Memory} {tx tx' : Wire.Transaction} {nIn nIn' : UInt32}
  {scriptCode scriptCode' : Script} {amount amount' : Int64}

/-- The payload, the lock time and the hash type end the record. -/
theorem putTail_inj (hpay : ∀ p ∈ tx.specialPayload, p.length < 256 ^ 8)
    (hpay' : ∀ p ∈ tx'.specialPayload, p.length < 256 ^ 8)
    (heq : putTail tx all = putTail tx' all) :
    tx.specialPayload = tx'.specialPayload ∧ tx.nLockTime = tx'.nLockTime := by
  -- a payload takes at least one byte, so the two records cannot differ in having one
  have hlen : ∀ p : Bytes, 0 < (putScript p).length := fun p => by
    have hne := putCompactSize_ne_nil p.length
    rw [putScript, length_append]
    have := length_pos_iff.mpr hne
    omega
  have h32 : ∀ x : UInt32, (putUInt32 x).length = 4 := fun x => by simp [putUInt32, putLE]
  unfold putTail at heq
  cases hp : tx.specialPayload with
  | none =>
    cases hp' : tx'.specialPayload with
    | none =>
      rw [hp, hp'] at heq
      exact ⟨rfl, (prefixFree_uint32 trivial trivial heq).1⟩
    | some p' =>
      rw [hp, hp'] at heq
      have hbytes := congrArg length heq
      simp only [length_append, h32, length_nil] at hbytes
      have := hlen p'
      omega
  | some p =>
    cases hp' : tx'.specialPayload with
    | none =>
      rw [hp, hp'] at heq
      have hbytes := congrArg length heq
      simp only [length_append, h32, length_nil] at hbytes
      have := hlen p
      omega
    | some p' =>
      rw [hp, hp'] at heq
      obtain ⟨hpp, heq⟩ :=
        prefixFree_script (hpay p hp) (hpay' p' hp') heq
      exact ⟨congrArg some hpp, (prefixFree_uint32 trivial trivial heq).1⟩

variable {r r' p : Bytes} {ms ms' : List (Bytes × Bytes)}

/-- The input that is signed, and what follows it. -/
theorem putSignedInput_inj {i i'} (hcode : scriptCode.length < 256 ^ 8)
    (hcode' : scriptCode'.length < 256 ^ 8)
    (heq : putSignedInput scriptCode amount (some i) ++ r = putSignedInput scriptCode' amount' (some i') ++ r') :
    (i.prevout = i'.prevout ∧ i.nSequence = i'.nSequence) ∧
      (scriptCode = scriptCode' ∧ amount = amount') ∧ r = r' := by
  simp only [putSignedInput, append_assoc] at heq
  obtain ⟨hprevout, heq⟩ := prefixFree_outPoint trivial trivial heq
  obtain ⟨hscript, heq⟩ := prefixFree_script hcode hcode' heq
  obtain ⟨hamount, heq⟩ := prefixFree_int64 trivial trivial heq
  obtain ⟨hsequence, heq⟩ := prefixFree_uint32 trivial trivial heq
  exact ⟨⟨hprevout, hsequence⟩, ⟨hscript, hamount⟩, heq⟩

/-- The part about shielded spends and outputs, which both records have or none. -/
theorem putShielded_inj {a b c d} {v w} {flag}
    (heq : (if flag then putUint256 a ++ (putUint256 b ++ putInt64 v) else []) ++ r = (if flag then putUint256 c ++ (putUint256 d ++ putInt64 w) else []) ++ r') :
    (flag = true → a = c ∧ b = d ∧ v = w) ∧ r = r' := by
  cases flag with
  | false => exact ⟨nofun, heq⟩
  | true =>
    simp only [if_true, append_assoc] at heq
    obtain ⟨hac, heq⟩ := prefixFree_uint256 trivial trivial heq
    obtain ⟨hbd, heq⟩ := prefixFree_uint256 trivial trivial heq
    obtain ⟨hvw, heq⟩ := prefixFree_int64 trivial trivial heq
    exact ⟨fun _ => ⟨hac, hbd, hvw⟩, heq⟩

/-- **The record is taken apart**: version and type, sub-hashes, the shielded part, the input, and
the rest. -/
theorem preimage_inj (hsap : tx.hasSapData = tx'.hasSapData)
    (hin : nIn.toNat < tx.vin.length) (hin' : nIn'.toNat < tx'.vin.length)
    (hcode : scriptCode.length < 256 ^ 8) (hcode' : scriptCode'.length < 256 ^ 8)
    (hpay : ∀ p ∈ tx.specialPayload, p.length < 256 ^ 8)
    (hpay' : ∀ p ∈ tx'.specialPayload, p.length < 256 ^ 8)
    (heq : preimage H scriptCode tx nIn all amount none =
      preimage H scriptCode' tx' nIn' all amount' none) :
    (tx.nVersion = tx'.nVersion ∧ tx.nType = tx'.nType) ∧
    (getPrevoutHash H tx = getPrevoutHash H tx' ∧ getSequenceHash H tx = getSequenceHash H tx' ∧
      getOutputsHash H tx = getOutputsHash H tx') ∧
    (tx'.hasSapData = true → hashShieldedSpends H tx none = hashShieldedSpends H tx' none ∧
      hashShieldedOutputs H tx none = hashShieldedOutputs H tx' none ∧
      tx.valueBalance = tx'.valueBalance) ∧
    (tx.vin[nIn.toNat]?.map (fun i => (i.prevout, i.nSequence)) =
        tx'.vin[nIn'.toNat]?.map (fun i => (i.prevout, i.nSequence)) ∧
      scriptCode = scriptCode' ∧ amount = amount') ∧
    tx.specialPayload = tx'.specialPayload ∧ tx.nLockTime = tx'.nLockTime := by
  unfold preimage at heq
  rw [hsap, getElem?_eq_getElem hin, getElem?_eq_getElem hin'] at heq
  obtain ⟨hversion, heq⟩ := prefixFree_int16 trivial trivial heq
  obtain ⟨htype, heq⟩ := prefixFree_int16 trivial trivial heq
  obtain ⟨hprevouts, heq⟩ := prefixFree_uint256 trivial trivial heq
  obtain ⟨hsequence, heq⟩ := prefixFree_uint256 trivial trivial heq
  obtain ⟨houtputs, heq⟩ := prefixFree_uint256 trivial trivial heq
  obtain ⟨hshielded, heq⟩ := putShielded_inj heq
  obtain ⟨⟨hout, hseq⟩, hscript, heq⟩ := putSignedInput_inj hcode hcode' heq
  refine ⟨⟨hversion, htype⟩, ⟨hprevouts, hsequence, houtputs⟩, hshielded, ⟨?_, hscript⟩,
    putTail_inj hpay hpay' heq⟩
  rw [getElem?_eq_getElem hin, getElem?_eq_getElem hin', Option.map_some,
    Option.map_some, hout, hseq]

/-! ### The sub-hashes -/

/-- What the hash of a list of records determines. -/
theorem eq_of_subHash_eq {α : Type} {put : α → Bytes} {P : α → Prop} {l l' : List α}
    (hput : PrefixFree P put) (hne : ∀ a, put a ≠ []) (hl : ∀ a ∈ l, P a) (hl' : ∀ a ∈ l', P a)
    (hfree : CollisionFree H (ms ++ ms')) (hm : (p, l.flatMap put) ∈ ms)
    (hm' : (p, l'.flatMap put) ∈ ms')
    (heq : H.blake2b p (l.flatMap put) = H.blake2b p (l'.flatMap put)) : l = l' :=
  hput.flatMap_inj hne hl hl' (hfree.eq_of_hash_eq hm hm' heq)

/-- A list of shielded records: its hash, or the null hash if it is empty. -/
theorem eq_of_shieldedHash_eq {α : Type} {put : α → Bytes} {P : α → Prop} {l l' : List α}
    (hput : PrefixFree P put) (hne : ∀ a, put a ≠ []) (hl : ∀ a ∈ l, P a) (hl' : ∀ a ∈ l', P a)
    (hfree : CollisionFree H (ms ++ ms')) (hm : l ≠ [] → (p, l.flatMap put) ∈ ms)
    (hm' : l' ≠ [] → (p, l'.flatMap put) ∈ ms')
    (heq : (if l.isEmpty then 0 else H.blake2b p (l.flatMap put)) = if l'.isEmpty then 0 else H.blake2b p (l'.flatMap put))
    : l = l' := by
  cases l with
  | nil =>
    cases l' with
    | nil => rfl
    | cons b l' =>
      have hb : (p, (b :: l').flatMap put) ∈ ms ++ ms' :=
        mem_append_right _ (hm' (cons_ne_nil _ _))
      exact absurd heq.symm (hfree.ne_null _ hb)
  | cons a l =>
    cases l' with
    | nil =>
      have ha : (p, (a :: l).flatMap put) ∈ ms ++ ms' :=
        mem_append_left _ (hm (cons_ne_nil _ _))
      exact absurd heq (hfree.ne_null _ ha)
    | cons b l' =>
      exact eq_of_subHash_eq hput hne hl hl' hfree (hm (cons_ne_nil _ _))
        (hm' (cons_ne_nil _ _)) heq

/-- The signature of a spend does not reach its encoding. -/
theorem flatMap_unsigned (l : List Wire.SpendDescription) :
    (l.map unsigned).flatMap putSpend = l.flatMap putSpend := by
  rw [flatMap_map]
  rfl

/-- What the three sub-hashes of the transparent part determine. -/
theorem transparent_inj (hsize : tx.WithinSize sizeMax) (hsize' : tx'.WithinSize sizeMax)
    (hfree : CollisionFree H (hashedMessages H memory scriptCode tx nIn amount ++
      hashedMessages H memory scriptCode' tx' nIn' amount'))
    (hprevouts : getPrevoutHash H tx = getPrevoutHash H tx')
    (hsequence : getSequenceHash H tx = getSequenceHash H tx')
    (houtputs : getOutputsHash H tx = getOutputsHash H tx') :
    tx.vin.map prevout = tx'.vin.map prevout ∧
      tx.vin.map nSequence = tx'.vin.map nSequence ∧ tx.vout = tx'.vout := by
  have hmap : ∀ {γ : Type} (l : List Wire.TxIn) (f : Wire.TxIn → γ) (put : γ → Bytes),
      (l.map f).flatMap put = l.flatMap fun i => put (f i) := fun l f put => by
    rw [flatMap_map]
  unfold getPrevoutHash at hprevouts
  unfold getSequenceHash at hsequence
  rw [← hmap _ prevout, ← hmap _ prevout] at hprevouts
  rw [← hmap _ nSequence, ← hmap _ nSequence] at hsequence
  refine ⟨?_, ?_, ?_⟩
  · exact eq_of_subHash_eq prefixFree_outPoint
      (fun o => by simp [putOutPoint, putUint256, putBE, toLE]) (fun _ _ => trivial) (fun _ _ => trivial)
      hfree (by simp [hashedMessages, hmap]) (by simp [hashedMessages, hmap])
      hprevouts
  · exact eq_of_subHash_eq prefixFree_uint32 (fun x => by simp [putUInt32, putLE, toLE])
      (fun _ _ => trivial) (fun _ _ => trivial) hfree (by simp [hashedMessages, hmap]) (by simp [hashedMessages, hmap])
      hsequence
  · have hle : ∀ {tx : Wire.Transaction}, tx.WithinSize sizeMax →
        ∀ o ∈ tx.vout, o.scriptPubKey.length < 256 ^ 8 := by
      intro tx h o ho
      have hlt : o.scriptPubKey.length ≤ 2 ^ 64 - 1 := h.vout.2 o ho
      omega
    exact eq_of_subHash_eq prefixFree_txOut (fun o => by simp [putTxOut, putInt64, putLE, toLE])
      (hle hsize) (hle hsize') hfree (by simp [hashedMessages]) (by simp [hashedMessages]) houtputs

/-- What the two sub-hashes of the shielded part determine. -/
theorem shielded_inj (hfree : CollisionFree H (hashedMessages H memory scriptCode tx nIn amount ++
      hashedMessages H memory scriptCode' tx' nIn' amount'))
    (hspends : hashShieldedSpends H tx none = hashShieldedSpends H tx' none)
    (houtputs : hashShieldedOutputs H tx none = hashShieldedOutputs H tx' none) :
    tx.shieldedSpends.map unsigned = tx'.shieldedSpends.map unsigned ∧
      tx.shieldedOutputs = tx'.shieldedOutputs := by
  have hmem : ∀ {code : Script} {tx : Wire.Transaction} {n : UInt32} {v : Int64},
      tx.shieldedSpends.map unsigned ≠ [] →
      (personal "PIVXSSpendsHash", (tx.shieldedSpends.map unsigned).flatMap putSpend) ∈
        hashedMessages H memory code tx n v := by
    intro code tx n v hne
    rw [flatMap_unsigned]
    simp only [ne_eq, map_eq_nil_iff] at hne
    simp [hashedMessages, hne]
  have hmem' : ∀ {code : Script} {tx : Wire.Transaction} {n : UInt32} {v : Int64},
      tx.shieldedOutputs ≠ [] →
      (personal "PIVXSOutputHash", tx.shieldedOutputs.flatMap putOutputDescription) ∈
        hashedMessages H memory code tx n v := by
    intro code tx n v hne
    simp [hashedMessages, hne]
  have hunsigned : ∀ {l : List Wire.SpendDescription},
      ∀ d ∈ l.map unsigned, d.spendAuthSig = Blob.fill 64 0 := by
    intro l d hd
    obtain ⟨d', -, rfl⟩ := mem_map.mp hd
    rfl
  constructor
  · refine eq_of_shieldedHash_eq prefixFree_spend
      (fun d => by simp [putSpend, putUint256, putBE, toLE]) hunsigned hunsigned hfree hmem hmem ?_
    rwa [flatMap_unsigned, flatMap_unsigned, isEmpty_map, isEmpty_map]
  · exact eq_of_shieldedHash_eq (.of_reads fun d _ => reads_outputDescription d)
      (fun d => by simp [putOutputDescription, putUint256, putBE, toLE]) (fun _ _ => trivial) (fun _ _ => trivial) hfree hmem' hmem' houtputs

end

/-! ### The digest -/

theorem signatureHash_sapling {H} {memory} {scriptCode} {tx} {nIn nHashType} {amount}
    {cache}
    (hin : ¬ (tx.vin.length ≤ nIn.toNat ∧ nIn ≠ notAnInput)) :
    signatureHash H memory scriptCode tx nIn nHashType amount .sapling cache =
      .ok (H.blake2b (personalization memory)
        (preimage H scriptCode tx nIn nHashType amount cache)) := by
  rw [signatureHash, if_neg hin]
  simp [throwIf]

/-- The cached sub-hashes are the ones that are computed. -/
theorem preimage_cached (H : HashFunctions) (scriptCode : Script) (tx : Wire.Transaction)
    (nIn nHashType : UInt32) (amount : Int64) :
    preimage H scriptCode tx nIn nHashType amount (some (.of H tx)) =
      preimage H scriptCode tx nIn nHashType amount none := by
  have hspends : hashShieldedSpends H tx (some (.of H tx)) = hashShieldedSpends H tx none := by
    unfold hashShieldedSpends PrecomputedTransactionData.of
    cases hsap : tx.sapData with
    | none => simp [Wire.Transaction.shieldedSpends, hsap]
    | some d => simp
  have houtputs : hashShieldedOutputs H tx (some (.of H tx)) = hashShieldedOutputs H tx none := by
    unfold hashShieldedOutputs PrecomputedTransactionData.of
    cases hsap : tx.sapData with
    | none => simp [Wire.Transaction.shieldedOutputs, hsap]
    | some d => simp
  rw [preimage, hspends, houtputs]
  rfl

theorem lt_of_le_sizeMax {n : Nat} (h : n ≤ sizeMax) : n < 256 ^ 8 := by
  have hle : n ≤ 2 ^ 64 - 1 := h
  omega

theorem specialPayload_lt {tx : Wire.Transaction} (hsize : tx.WithinSize sizeMax) :
    ∀ p ∈ tx.specialPayload, p.length < 256 ^ 8 := by
  intro p hp
  change tx.specialPayload = some p at hp
  unfold Wire.Transaction.specialPayload at hp
  split_ifs at hp with hspecial
  simp only [Wire.Transaction.isSpecialTx, Bool.and_eq_true, Bool.not_eq_true'] at hspecial
  exact lt_of_le_sizeMax (hsize.optionals.2 hspecial.1.1 (by simp [hspecial.1.2]) p hp)

/-- **A digest determines what was signed.** Two signatures over everything whose transactions both
have shielded spends or outputs, or both have none and then no value balance, sign the same data if
their digests are the same; and the digest does not depend on the cache. -/
theorem signatureHash_binds (H : HashFunctions) (memory : Memory) :
    (∀ {tx tx' : Wire.Transaction} {nIn nIn' : UInt32} {scriptCode scriptCode' : Script}
        {amount amount' : Int64}, tx.WithinSize sizeMax → tx'.WithinSize sizeMax →
      scriptCode.length ≤ sizeMax → scriptCode'.length ≤ sizeMax →
      nIn.toNat < tx.vin.length → nIn'.toNat < tx'.vin.length → tx.hasSapData = tx'.hasSapData →
      (tx.hasSapData = false → tx.valueBalance = 0 ∧ tx'.valueBalance = 0) →
      CollisionFree H (hashedMessages H memory scriptCode tx nIn amount ++
        hashedMessages H memory scriptCode' tx' nIn' amount') →
      signatureHash H memory scriptCode tx nIn all amount .sapling none =
        signatureHash H memory scriptCode' tx' nIn' all amount' .sapling none →
      signedData scriptCode tx nIn amount = signedData scriptCode' tx' nIn' amount') ∧
    ∀ scriptCode tx nIn nHashType amount sigversion,
      signatureHash H memory scriptCode tx nIn nHashType amount sigversion (some (.of H tx)) =
        signatureHash H memory scriptCode tx nIn nHashType amount sigversion none := by
  constructor
  · intro tx tx' nIn nIn' scriptCode scriptCode' amount amount' hsize hsize' hcode hcode' hin hin'
      hsap hbalance hfree heq
    rw [signatureHash_sapling (by omega), signatureHash_sapling (by omega), Except.ok.injEq] at heq
    have hrecord := hfree.eq_of_hash_eq (by simp [hashedMessages]) (by simp [hashedMessages]) heq
    obtain ⟨⟨hversion, htype⟩, ⟨hprevouts, hsequence, houtputs⟩, hshielded,
      ⟨hinput, hscript, hamount⟩, hpayload, hlock⟩ :=
      preimage_inj hsap hin hin' (lt_of_le_sizeMax hcode) (lt_of_le_sizeMax hcode')
        (specialPayload_lt hsize) (specialPayload_lt hsize') hrecord
    obtain ⟨hins, hseqs, houts⟩ := transparent_inj hsize hsize' hfree hprevouts hsequence houtputs
    have hsapling : tx.shieldedSpends.map unsigned =
          tx'.shieldedSpends.map unsigned ∧
        tx.shieldedOutputs = tx'.shieldedOutputs ∧ tx.valueBalance = tx'.valueBalance := by
      cases hflag : tx.hasSapData with
      | true =>
        obtain ⟨hspends, houtputs, hvalue⟩ := hshielded (hsap ▸ hflag)
        obtain ⟨hs, ho⟩ := shielded_inj hfree hspends houtputs
        exact ⟨hs, ho, hvalue⟩
      | false =>
        obtain ⟨hb, hb'⟩ := hbalance hflag
        have hflag' := hsap ▸ hflag
        simp only [Transaction.hasSapData, Bool.or_eq_false_iff, Bool.not_eq_false',
          List.isEmpty_iff] at hflag hflag'
        rw [hflag.1, hflag.2, hflag'.1, hflag'.2, hb, hb']
        exact ⟨rfl, rfl, rfl⟩
    unfold signedData
    rw [hversion, htype, hins, hseqs, houts, hsapling.1, hsapling.2.1, hsapling.2.2, hinput,
      hscript, hamount, hpayload, hlock]
  · intro scriptCode tx nIn nHashType amount sigversion
    unfold signatureHash
    rw [preimage_cached]

namespace Sample

/-- A payment with one input and one output. -/
def payment : Wire.Transaction where
  nVersion := 3
  nType := 0
  vin := [⟨⟨7, 0⟩, [], 0xffffffff⟩]
  vout := [⟨5, [0x51]⟩]
  nLockTime := 0

/-- The payment with another signature script. -/
def resignedPayment : Wire.Transaction := { payment with vin := [⟨⟨7, 0⟩, [0x51], 0xffffffff⟩] }

theorem payment_withinSize : payment.WithinSize sizeMax where
  vin := by simp [payment, WithinSize, sizeMax]
  vout := by simp [payment, Wire.TxOut.WithinSize, sizeMax]
  optionals := by
    simp [payment, Wire.Transaction.OptionalsWithin, SaplingTxData.WithinSize]

/-- Hash functions with no collision between the messages of a payment. -/
def constantHashes : HashFunctions := ⟨fun _ _ => 1, fun _ => 1⟩

end Sample

open Sample

theorem payment_signed_alike :
    signedData [0x52] payment 0 5 = signedData [0x52] resignedPayment 0 5 :=
  (signatureHash_binds constantHashes fun _ => 0).1
    payment_withinSize
    ⟨by simp [resignedPayment, WithinSize, sizeMax], payment_withinSize.vout,
      payment_withinSize.optionals⟩ (by decide) (by decide)
    (by decide) (by decide) (by decide) (by decide)
    ⟨by decide +kernel, by decide +kernel⟩ (by decide +kernel)

/-- **The digest leaves out** the value balance of a transaction without shielded spends and
outputs, and whether an empty payload is there. -/
theorem value_balance_not_signed :
    (∃ tx tx' : Wire.Transaction, (tx.isSaplingVersion ∧ tx'.isSaplingVersion) ∧
      (tx.hasSaplingData ∧ tx'.hasSaplingData) ∧ tx.valueBalance ≠ tx'.valueBalance ∧
      ∀ H memory scriptCode nIn amount,
        signatureHash H memory scriptCode tx nIn all amount .sapling none =
          signatureHash H memory scriptCode tx' nIn all amount .sapling none) ∧
    ∃ tx tx' : Wire.Transaction, (tx.isSaplingVersion ∧ tx'.isSaplingVersion) ∧
      (¬ tx.hasSaplingData ∧ ¬ tx'.hasSaplingData) ∧ tx.extraPayload ≠ tx'.extraPayload ∧
      ∀ H memory scriptCode nIn amount,
        signatureHash H memory scriptCode tx nIn all amount .sapling none =
          signatureHash H memory scriptCode tx' nIn all amount .sapling none := by
  constructor
  · refine ⟨{ payment with sapData := some { valueBalance := 1 } },
      { payment with sapData := some { valueBalance := 2 } }, by decide, by decide,
      by decide, ?_⟩
    intro H memory scriptCode nIn amount
    rfl
  · refine ⟨{ payment with nType := 1 },
      { payment with nType := 1, extraPayload := some [] }, by decide, by decide,
      by decide, ?_⟩
    intro H memory scriptCode nIn amount
    rfl

/-! ### The key of the outer hash -/

theorem personalization_eq_iff {memory memory'} :
    personalization memory = personalization memory' ↔ memory 0 = memory' 0 := by
  have heq : ∀ memory, personalization memory = ascii "KTVSigHash" ++ [0, memory 0] ++ [0, 0, 0, 0] :=
    fun _ => rfl
  simp [heq]

/-- **The digest and the build.** Two builds compute the same digest for a Sapling transaction
exactly if the byte after the string constant is the same in both, or the input does not exist and
no digest is computed. -/
theorem signatureHash_build_independent {H : HashFunctions}
    (hkeyed : ∀ p p' m : Bytes, p.length = 16 → p'.length = 16 →
      H.blake2b p m = H.blake2b p' m → p = p')
    (memory memory' : Memory) (scriptCode : Script) (tx : Wire.Transaction) (nIn nHashType : UInt32)
    (amount : Int64) (cache : Option PrecomputedTransactionData) :
    signatureHash H memory scriptCode tx nIn nHashType amount .sapling cache =
        signatureHash H memory' scriptCode tx nIn nHashType amount .sapling cache ↔
      memory 0 = memory' 0 ∨ (tx.vin.length ≤ nIn.toNat ∧ nIn ≠ notAnInput) := by
  by_cases hin : tx.vin.length ≤ nIn.toNat ∧ nIn ≠ notAnInput
  · unfold signatureHash
    simp [hin]
  · rw [signatureHash_sapling hin, signatureHash_sapling hin, Except.ok.injEq,
      ← personalization_eq_iff]
    constructor
    · intro heq
      exact .inl (hkeyed _ _ _ (by rfl) (by rfl) heq)
    · intro hcond
      rcases hcond with heq | hrange
      · rw [heq]
      · exact absurd hrange hin

namespace Sample

/-- A hash that shows its key. -/
def keyedHashes : HashFunctions := ⟨fun p _ => Fin.ofNat _ (ofLE p), fun _ => 1⟩

theorem keyedHashes_keyed (p p' m : Bytes) (hp : p.length = 16) (hp' : p'.length = 16)
    (heq : keyedHashes.blake2b p m = keyedHashes.blake2b p' m) : p = p' := by
  have hlt : ∀ {q : Bytes}, q.length = 16 → ofLE q < 2 ^ 256 := fun {q} hq => by
    have h16 := ofLE_lt q
    rw [hq] at h16
    exact h16.trans_le (by norm_num)
  have hval := congrArg Fin.val heq
  simp only [keyedHashes, Fin.val_ofNat] at hval
  rw [Nat.mod_eq_of_lt (hlt hp), Nat.mod_eq_of_lt (hlt hp')] at hval
  have hbytes := toLE_ofLE p
  rw [hval, hp, ← hp', toLE_ofLE] at hbytes
  exact hbytes.symm

end Sample

theorem payment_build_independent :
    signatureHash keyedHashes (fun _ => 0) [] payment 0 all 5 .sapling none =
      signatureHash keyedHashes (fun n => if n = 0 then 0 else 1) [] payment 0
        all 5 .sapling none :=
  (signatureHash_build_independent keyedHashes_keyed _ _ _ _ _ _ _ _).mpr (.inl rfl)

/-- Two builds whose memory differs after the constant compute different digests. -/
theorem payment_build_dependent :
    signatureHash keyedHashes (fun _ => 0) [] payment 0 all 5 .sapling none ≠
      signatureHash keyedHashes (fun _ => 1) [] payment 0 all 5 .sapling none := by
  decide +kernel

end KmushiCoin
