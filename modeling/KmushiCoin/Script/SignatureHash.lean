import KmushiCoin.Script.Parse

/-!
# KmushiCoin.Script.SignatureHash

**What a signature signs** (`SignatureHash`), for both signature versions.

* The Sapling version hashes a record of sub-hashes and fields with BLAKE2b. `preimage` is that
  record; a part that the transaction does not have is left out or stands there as a null hash.
* `personalization` is the key of the outer hash. It is copied from a string constant that is one
  byte shorter than what is copied: the last byte is whatever the memory holds after the constant.
* The sub-hashes can come from a cache (`PrecomputedTransactionData`).
-/

namespace KmushiCoin

open Codec Wire

/-! ### The shape of a transaction -/

namespace Wire

/-- `hasBindingSig`. -/
def SaplingTxData.hasBindingSig (d : SaplingTxData) : Bool := d.bindingSig.val.any (· != 0)

variable (tx : Transaction)

/-- `hasSaplingData`. -/
def Transaction.hasSaplingData : Bool :=
  match tx.sapData with
  | none => false
  | some d => !d.vShieldedOutput.isEmpty || !d.vShieldedSpend.isEmpty || d.valueBalance != 0 ||
      d.hasBindingSig

/-- `hasExtraPayload`. -/
def Transaction.hasExtraPayload : Bool :=
  match tx.extraPayload with
  | none => false
  | some payload => !payload.isEmpty

/-- `IsSpecialTx`. -/
def Transaction.isSpecialTx : Bool :=
  tx.isSaplingVersion && !tx.isNormalType && tx.hasExtraPayload

/-- The shielded spends; none without a shielded part. -/
def Transaction.shieldedSpends : List SpendDescription :=
  (tx.sapData.map SaplingTxData.vShieldedSpend).getD []

def Transaction.shieldedOutputs : List OutputDescription :=
  (tx.sapData.map SaplingTxData.vShieldedOutput).getD []

def Transaction.valueBalance (tx : Transaction) : Int64 :=
  (tx.sapData.map SaplingTxData.valueBalance).getD 0

/-- The `hasSapData` of `SignatureHash`: there is a shielded spend or a shielded output. -/
def Transaction.hasSapData : Bool :=
  !tx.shieldedSpends.isEmpty || !tx.shieldedOutputs.isEmpty

/-- The payload of a special transaction. -/
def Transaction.specialPayload : Option Bytes :=
  if tx.isSpecialTx then tx.extraPayload else none

end Wire

/-! ### Hash functions and memory -/

/-- The hash functions of the node. -/
structure HashFunctions where
  /-- BLAKE2b with a personalization. -/
  blake2b : Bytes → Bytes → Uint256
  /-- Double SHA-256. -/
  hash256 : Bytes → Uint256

/-- What differs between two builds: the memory after a string constant. -/
abbrev Memory : Type := Nat → UInt8

/-- `memcpy` of `n` bytes that start with an object. -/
def memcpy (memory : Memory) (object : Bytes) (n : Nat) : Bytes :=
  (object ++ (List.range (n - object.length)).map memory).take n

/-- The characters of a constant. -/
def ascii (text : String) : Bytes := text.toList.map fun c => UInt8.ofNat c.toNat

/-- A string constant ends with a zero byte. -/
def cString (text : String) : Bytes := ascii text ++ [0]

/-- An array of 16 bytes that starts with the characters; the rest is zero. -/
def personal (text : String) : Bytes := ascii text ++ List.replicate (16 - (ascii text).length) 0

/-- The key of the outer hash: 12 bytes from the constant and the branch id. -/
def personalization (memory : Memory) : Bytes :=
  memcpy memory (cString "KTVSigHash") 12 ++ putLE 4 0

/-! ### Hash types -/

namespace SigHash

def all : UInt32 := 1
def none : UInt32 := 2
def single : UInt32 := 3

/-- The `SIGHASH_ANYONECANPAY` flag. -/
def anyoneCanPay (nHashType : UInt32) : Bool := nHashType &&& 0x80 != 0

def isSingle (nHashType : UInt32) : Bool := nHashType &&& 0x1f == single

def isNone (nHashType : UInt32) : Bool := nHashType &&& 0x1f == none

end SigHash

/-- `NOT_AN_INPUT`. -/
def notAnInput : UInt32 := 0xffffffff

inductive SigVersion
  | base
  | sapling
  deriving Repr, DecidableEq

/-! ### The sub-hashes -/

section

variable (H : HashFunctions)

variable (txTo : Wire.Transaction)

/-- `GetPrevoutHash`. -/
def getPrevoutHash : Uint256 :=
  H.blake2b (personal "PIVXPrevoutHash") (txTo.vin.flatMap fun i => putOutPoint i.prevout)

/-- `GetSequenceHash`. -/
def getSequenceHash : Uint256 :=
  H.blake2b (personal "PIVXSequencHash") (txTo.vin.flatMap fun i => putUInt32 i.nSequence)

/-- The hash of a list of outputs. -/
def outputsHash (vout : List Wire.TxOut) : Uint256 :=
  H.blake2b (personal "PIVXOutputsHash") (vout.flatMap putTxOut)

/-- `GetOutputsHash`. -/
def getOutputsHash : Uint256 := outputsHash H txTo.vout

/-- A shielded spend without its signature. -/
def putSpend (d : Wire.SpendDescription) : Bytes :=
  putUint256 d.cv ++ (putUint256 d.anchor ++ (putUint256 d.nullifier ++ (putUint256 d.rk ++
    putBlob d.zkproof)))

/-- `GetShieldedSpendsHash`. -/
def getShieldedSpendsHash : Uint256 :=
  H.blake2b (personal "PIVXSSpendsHash") (txTo.shieldedSpends.flatMap putSpend)

/-- `GetShieldedOutputsHash`. -/
def getShieldedOutputsHash : Uint256 :=
  H.blake2b (personal "PIVXSOutputHash") (txTo.shieldedOutputs.flatMap putOutputDescription)

end

/-- `PrecomputedTransactionData`. -/
structure PrecomputedTransactionData where
  hashPrevouts : Uint256
  hashSequence : Uint256
  hashOutputs : Uint256
  hashShieldedSpends : Uint256
  hashShieldedOutputs : Uint256

variable (H : HashFunctions)

def PrecomputedTransactionData.of (txTo : Wire.Transaction) : PrecomputedTransactionData where
  hashPrevouts := getPrevoutHash H txTo
  hashSequence := getSequenceHash H txTo
  hashOutputs := getOutputsHash H txTo
  hashShieldedSpends := if txTo.sapData.isSome then getShieldedSpendsHash H txTo else 0
  hashShieldedOutputs := if txTo.sapData.isSome then getShieldedOutputsHash H txTo else 0

/-! ### The base version -/

/-- How often the separator stands in a script, up to an instruction that is cut off. -/
def countCodeSeparators : Nat → Script → Nat
  | 0, _ => 0
  | n + 1, it =>
    match Script.getOp it with
    | .error _ => 0
    | .ok (opcode, _, rest) => (if opcode = 0xab then 1 else 0) + countCodeSeparators n rest

/-- What is written of a script: the parts between its separators, up to where the iterator
stands in the end. -/
def codeParts : Nat → Script → Script → Bytes
  | 0, _, _ => []
  | n + 1, itBegin, it =>
    match Script.getOp it with
    | .error stop => itBegin.take (itBegin.length - stop.length)
    | .ok (opcode, _, rest) =>
      if opcode = 0xab then
        itBegin.take (itBegin.length - rest.length - 1) ++ codeParts n rest rest
      else codeParts n itBegin rest

/-- `SerializeScriptCode`. -/
def serializeScriptCode (scriptCode : Script) : Bytes :=
  putCompactSize (scriptCode.length - countCodeSeparators (scriptCode.length + 1) scriptCode) ++
    codeParts (scriptCode.length + 1) scriptCode scriptCode

variable (txTo : Wire.Transaction)

/-- `SerializeInput`. -/
def serializeInput (scriptCode : Script) (nIn : UInt32) (nHashType : UInt32)
    (nInput : Nat) : Outcome Bytes := do
  let nInput := if SigHash.anyoneCanPay nHashType then nIn.toNat else nInput
  match txTo.vin[nInput]? with
  | none => .error (.abort "nInput != NOT_AN_INPUT")
  | some txin =>
    .ok (putOutPoint txin.prevout ++
      ((if nInput ≠ nIn.toNat then putScript [] else serializeScriptCode scriptCode) ++
        if nInput ≠ nIn.toNat ∧ (SigHash.isSingle nHashType ∨ SigHash.isNone nHashType) then
          putUInt32 0
        else putUInt32 txin.nSequence))

/-- `SerializeOutput`: with `SIGHASH_SINGLE` the outputs before the one that is signed are null. -/
def serializeOutput (nIn : UInt32) (nHashType : UInt32) (nOutput : Nat) (txout : Wire.TxOut) :
    Bytes :=
  if SigHash.isSingle nHashType ∧ nOutput ≠ nIn.toNat then putTxOut ⟨-1, []⟩ else putTxOut txout

/-- The outputs that are serialized. -/
def signedOutputs (nIn : UInt32) (nHashType : UInt32) : List Wire.TxOut :=
  if SigHash.isNone nHashType then []
  else if SigHash.isSingle nHashType then txTo.vout.take (nIn.toNat + 1)
  else txTo.vout

/-- `CTransactionSignatureSerializer`. -/
def serializeForSignature (scriptCode : Script) (nIn : UInt32)
    (nHashType : UInt32) : Outcome Bytes := do
  let nInputs := if SigHash.anyoneCanPay nHashType then 1 else txTo.vin.length
  let vin ← (List.range nInputs).mapM (serializeInput txTo scriptCode nIn nHashType)
  let vout := signedOutputs txTo nIn nHashType
  .ok (putInt16 txTo.nVersion ++ (putInt16 txTo.nType ++
    (putCompactSize nInputs ++ (vin.flatten ++
    (putCompactSize vout.length ++ ((vout.mapIdx (serializeOutput nIn nHashType)).flatten ++
    putUInt32 txTo.nLockTime))))))

/-! ### SignatureHash -/

/-- The sub-hash of the outputs, depending on the hash type. -/
def hashOutputs (H : HashFunctions) (txTo : Wire.Transaction) (nIn : UInt32) (nHashType : UInt32)
    (cache : Option PrecomputedTransactionData) : Uint256 :=
  if !SigHash.isSingle nHashType && !SigHash.isNone nHashType then
    match cache with
    | some c => c.hashOutputs
    | none => getOutputsHash H txTo
  else if SigHash.isSingle nHashType then
    match txTo.vout[nIn.toNat]? with
    | some txout => outputsHash H [txout]
    | none => 0
  else 0

/-- The sub-hash of the previous outputs. -/
def hashPrevouts (H : HashFunctions) (txTo : Wire.Transaction) (nHashType : UInt32)
    (cache : Option PrecomputedTransactionData) : Uint256 :=
  if SigHash.anyoneCanPay nHashType then 0
  else
    match cache with
    | some c => c.hashPrevouts
    | none => getPrevoutHash H txTo

/-- The sub-hash of the sequence numbers. -/
def hashSequence (H : HashFunctions) (txTo : Wire.Transaction) (nHashType : UInt32)
    (cache : Option PrecomputedTransactionData) : Uint256 :=
  if SigHash.anyoneCanPay nHashType || SigHash.isSingle nHashType || SigHash.isNone nHashType then 0
  else
    match cache with
    | some c => c.hashSequence
    | none => getSequenceHash H txTo

def hashShieldedSpends (H : HashFunctions) (txTo : Wire.Transaction)
    (cache : Option PrecomputedTransactionData) : Uint256 :=
  if txTo.shieldedSpends.isEmpty then 0
  else
    match cache with
    | some c => c.hashShieldedSpends
    | none => getShieldedSpendsHash H txTo

def hashShieldedOutputs (H : HashFunctions) (txTo : Wire.Transaction)
    (cache : Option PrecomputedTransactionData) : Uint256 :=
  if txTo.shieldedOutputs.isEmpty then 0
  else
    match cache with
    | some c => c.hashShieldedOutputs
    | none => getShieldedOutputsHash H txTo

/-- The input that is signed; nothing for `NOT_AN_INPUT`. -/
def putSignedInput (scriptCode : Script) (amount : Int64) : Option Wire.TxIn → Bytes
  | none => []
  | some txin =>
    putOutPoint txin.prevout ++ (putScript scriptCode ++ (putInt64 amount ++
      putUInt32 txin.nSequence))

/-- What follows the inputs and outputs: the payload, the lock time and the hash type. -/
def putTail (nHashType : UInt32) : Bytes :=
  (match txTo.specialPayload with | none => [] | some payload => putScript payload) ++
    (putUInt32 txTo.nLockTime ++ putUInt32 nHashType)

/-- **The record that a Sapling signature signs.** -/
def preimage (scriptCode : Script) (txTo : Wire.Transaction) (nIn : UInt32)
    (nHashType : UInt32) (amount : Int64) (cache : Option PrecomputedTransactionData) : Bytes :=
  putInt16 txTo.nVersion ++ (putInt16 txTo.nType ++
  (putUint256 (hashPrevouts H txTo nHashType cache) ++
  (putUint256 (hashSequence H txTo nHashType cache) ++
  (putUint256 (hashOutputs H txTo nIn nHashType cache) ++
  ((if txTo.hasSapData then
      putUint256 (hashShieldedSpends H txTo cache) ++
      (putUint256 (hashShieldedOutputs H txTo cache) ++ putInt64 txTo.valueBalance)
    else []) ++
  (putSignedInput scriptCode amount txTo.vin[nIn.toNat]? ++ putTail txTo nHashType))))))

def signatureHash (memory : Memory) (scriptCode : Script) (txTo : Wire.Transaction)
    (nIn : UInt32) (nHashType : UInt32) (amount : Int64) (sigversion : SigVersion)
    (cache : Option PrecomputedTransactionData) : Outcome Uint256 := do
  if txTo.vin.length ≤ nIn.toNat ∧ nIn ≠ notAnInput then .ok 1
  else do
    throwIf (txTo.isSaplingVersion && sigversion != .sapling)
      "SignatureHash in Sapling tx with wrong sigversion"
    match sigversion with
    | .sapling =>
      .ok (H.blake2b (personalization memory)
        (preimage H scriptCode txTo nIn nHashType amount cache))
    | .base =>
      if SigHash.isSingle nHashType ∧ txTo.vout.length ≤ nIn.toNat then .ok 1
      else do
        let ss ← serializeForSignature txTo scriptCode nIn nHashType
        .ok (H.hash256 (ss ++ putUInt32 nHashType))

end KmushiCoin
