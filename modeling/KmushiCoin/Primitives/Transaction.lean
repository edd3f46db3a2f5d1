import KmushiCoin.Lib.Codec
import KmushiCoin.Lib.FMap

/-!
# KmushiCoin.Primitives.Transaction

The **data model** that the masternode registry and the chain state share:
outpoints, scripts, transactions with their Sapling part and their special
payload, and blocks.

* A 256-bit hash is a number below `2 ^ 256` and the null hash is `0`; the same
  holds for the 160-bit key ids. A service is the 16-byte form of its address
  with the port, the form it has in every payload and database record.
* A transaction carries its **memory-only hash** as a field. Nothing here assumes
  that hashes do not collide; a result that needs this says so.
* The special payload stays a **byte string**: every reader of a payload decodes
  it again, as the source does.
* Amounts are integers. Where the source adds them in a machine word, the model
  wraps the sum (`wrap64`).
-/

namespace KmushiCoin

open List

open Codec (Bytes)

abbrev Uint256 : Type := Fin (2 ^ 256)

abbrev KeyID : Type := Fin (2 ^ 160)

-- Named, so that the data of every module refers to the same proofs.
instance neZero_uint256 : NeZero (2 ^ 256) := ⟨by decide⟩

instance neZero_keyID : NeZero (2 ^ 160) := ⟨by decide⟩

instance neZero_address : NeZero (2 ^ 128) := ⟨by decide⟩

instance transOrd_uint256 : Std.TransOrd Uint256 := inferInstance

instance lawfulEqOrd_uint256 : Std.LawfulEqOrd Uint256 := inferInstance

instance lawfulBEq_uint256 : LawfulBEq Uint256 := inferInstance

abbrev Script : Type := Bytes

/-! ### Scripts -/

namespace Script

def startsWithOpcode (s : Script) (opcode : UInt8) : Bool := s.head? == some opcode

def isZerocoinMint (s : Script) : Bool := startsWithOpcode s 0xc1

def isZerocoinSpend (s : Script) : Bool := startsWithOpcode s 0xc2

def isZerocoinPublicSpend (s : Script) : Bool := startsWithOpcode s 0xc3

/-- `OP_RETURN` scripts and oversized scripts can never be satisfied. -/
def isUnspendable (s : Script) : Bool := startsWithOpcode s 0x6a || decide (10000 < s.length)

/-- `OP_DUP OP_HASH160 <20 bytes> OP_EQUALVERIFY OP_CHECKSIG`. -/
def isPayToPublicKeyHash (s : Script) : Bool :=
  s.length == 25 && s[0]? == some 0x76 && s[1]? == some 0xa9 && s[2]? == some 0x14 &&
    s[23]? == some 0x88 && s[24]? == some 0xac

theorem isPayToPublicKeyHash_length {s} (h : isPayToPublicKeyHash s = true) : s.length = 25 := by
  simp only [isPayToPublicKeyHash, Bool.and_eq_true, beq_iff_eq] at h
  exact h.1.1.1.1.1

end Script

/-! ### Outpoints and services -/

/-- A transaction hash and an index into its outputs. -/
structure OutPoint where
  hash : Uint256
  n : UInt32
  deriving Repr, DecidableEq

namespace OutPoint

/-- The default value: no transaction, the last index. -/
def null : OutPoint := ⟨0, 0xffffffff⟩

/-- The order of the source: by hash and then by index. -/
instance : Ord OutPoint := ⟨compareLex (compareOn OutPoint.hash) (compareOn OutPoint.n)⟩

instance : Std.TransOrd OutPoint :=
  inferInstanceAs (Std.TransCmp (compareLex (compareOn OutPoint.hash) (compareOn OutPoint.n)))

instance : Std.LawfulEqOrd OutPoint where
  eq_of_compare {a b} h := by
    obtain ⟨ha, na⟩ := a
    obtain ⟨hb, nb⟩ := b
    have hlex : (compare ha hb).then (compare na nb) = .eq := h
    rw [Ordering.then_eq_eq] at hlex
    rw [Std.LawfulEqOrd.eq_of_compare hlex.1, Std.LawfulEqOrd.eq_of_compare hlex.2]

end OutPoint

/-- A network address in its 16-byte form, with a port. -/
structure Service where
  ip : Fin (2 ^ 128)
  port : UInt16
  deriving Repr, DecidableEq

/-- The default service: the unspecified address with port zero. -/
def Service.null : Service := ⟨0, 0⟩

/-! ### Amounts -/

/-- The value that a signed 64-bit word holds after an addition of exact value `x`. -/
def wrap64 (x : Int) : Int := Int.bmod x (2 ^ 64)

theorem wrap64_eq {x : Int} (hlo : -2 ^ 63 ≤ x) (hhi : x < 2 ^ 63) : wrap64 x = x := by
  unfold wrap64
  exact Int.bmod_eq_of_le (by omega) (by omega)

@[simp] theorem wrap64_add_right (x y : Int) : wrap64 (x + wrap64 y) = wrap64 (x + y) :=
  Int.add_bmod_bmod

/-! ### Transactions -/

structure TxIn where
  prevout : OutPoint
  scriptSig : Script
  deriving Repr, DecidableEq

namespace TxIn

/-- A private zerocoin spend refers to no output. -/
def isZerocoinSpend (txin : TxIn) : Bool :=
  txin.prevout.hash == 0 && Script.isZerocoinSpend txin.scriptSig

def isZerocoinPublicSpend (txin : TxIn) : Bool := Script.isZerocoinPublicSpend txin.scriptSig

end TxIn

structure TxOut where
  nValue : Int
  scriptPubKey : Script
  deriving Repr, DecidableEq

namespace TxOut

/-- The null output: what a spent coin holds. -/
def null : TxOut := ⟨-1, []⟩

def isNull (o : TxOut) : Bool := o.nValue == -1

def isEmpty (o : TxOut) : Bool := o.nValue == 0 && o.scriptPubKey.isEmpty

def isZerocoinMint (o : TxOut) : Bool := Script.isZerocoinMint o.scriptPubKey

end TxOut

/-- A shielded input: the tree root it is proved against and the note it reveals. -/
structure SpendDescription where
  anchor : Uint256
  nullifier : Uint256
  deriving Repr, DecidableEq

/-- A shielded output: the note commitment appended to the tree. -/
structure OutputDescription where
  cmu : Uint256
  deriving Repr, DecidableEq

structure SaplingTxData where
  /-- Shielded inputs minus shielded outputs: what the transparent side receives. -/
  valueBalance : Int
  vShieldedSpend : List SpendDescription
  vShieldedOutput : List OutputDescription
  /-- Whether some byte of the binding signature is not zero. -/
  hasBindingSig : Bool
  deriving Repr, DecidableEq

/-- The transaction types; any other number is a type no check knows. -/
inductive TxType
  | normal
  /-- Register a masternode. -/
  | proReg
  /-- Update the service of a masternode. -/
  | proUpServ
  /-- Update the keys and the payee of a masternode. -/
  | proUpReg
  /-- Revoke the operator of a masternode. -/
  | proUpRev
  /-- A number with no meaning. -/
  | unknown (nType : Int16)
  deriving Repr, DecidableEq

theorem no_vout_lt : ([] : List TxOut).length < 2 ^ 32 := by decide

structure Transaction where
  /-- The hash of the serialized transaction, computed when it is built. -/
  hash : Uint256
  nVersion : Int16
  nType : TxType
  vin : List TxIn
  vout : List TxOut
  sapData : Option SaplingTxData
  extraPayload : Option Bytes
  /-- An output index fits an outpoint. -/
  vout_lt : vout.length < 2 ^ 32 := by decide
  deriving Repr, DecidableEq

namespace Transaction

variable (tx : Transaction)

def isSaplingVersion : Bool := decide (3 ≤ tx.nVersion)

def hasSaplingData : Bool :=
  match tx.sapData with
  | none => false
  | some sap =>
    !sap.vShieldedOutput.isEmpty || !sap.vShieldedSpend.isEmpty || sap.valueBalance != 0 ||
      sap.hasBindingSig

def isShieldedTx : Bool := tx.isSaplingVersion && tx.hasSaplingData

def hasExtraPayload : Bool :=
  match tx.extraPayload with
  | none => false
  | some payload => !payload.isEmpty

def isNormalType : Bool := tx.nType == .normal

def isCoinBase : Bool :=
  match tx.vin with
  | [txin] => txin.prevout == OutPoint.null && !Script.isZerocoinSpend txin.scriptSig
  | _ => false

def isCoinStake : Bool :=
  match tx.vin with
  | [] => false
  | txin :: _ =>
    -- only a zerocoin spend may stake with a null outpoint
    if txin.prevout == OutPoint.null && !txin.isZerocoinSpend then false
    else
      match tx.vout with
      | first :: _ :: _ => first.isEmpty
      | _ => false

def hasZerocoinSpendInputs : Bool :=
  tx.vin.any fun txin => txin.isZerocoinSpend || txin.isZerocoinPublicSpend

def hasZerocoinMintOutputs : Bool := tx.vout.any TxOut.isZerocoinMint

def containsZerocoins : Bool :=
  tx.hasZerocoinSpendInputs || tx.hasZerocoinMintOutputs

/-- The shielded inputs that a shielded transaction reveals. -/
def shieldedSpends : List SpendDescription :=
  match tx.sapData with
  | none => []
  | some sap => if tx.isShieldedTx then sap.vShieldedSpend else []

/-- The shielded outputs that a shielded transaction appends. -/
def shieldedOutputs : List OutputDescription :=
  match tx.sapData with
  | none => []
  | some sap => if tx.isShieldedTx then sap.vShieldedOutput else []

end Transaction

/-! ### Outcomes -/

/-- How a call can end without a result. -/
inductive Failure
  /-- The call returned false and set this reject reason. -/
  | reject (reason : String)
  /-- A `std::runtime_error` (or a subclass) with this message format. -/
  | throw (what : String)
  /-- A failed `assert`: the process ends. -/
  | abort (condition : String)
  deriving Repr, DecidableEq

abbrev Outcome (α : Type) : Type := Except Failure α

/-- `assert(condition)`. -/
def assert (condition : Bool) (text : String) : Outcome Unit :=
  if condition then .ok () else .error (.abort text)

/-- Return false with a reject reason when the condition holds. -/
def rejectIf (condition : Bool) (reason : String) : Outcome Unit :=
  if condition then .error (.reject reason) else .ok ()

/-- Throw when the condition holds. -/
def throwIf (condition : Bool) (what : String) : Outcome Unit :=
  if condition then .error (.throw what) else .ok ()

variable {α β : Type}

variable {x : Outcome α} {t : String} {f : α → Outcome β} {l : List α} {step : β → α → Outcome β}
  {P : List α → β → Prop}

@[simp] theorem assert_ok {c} {u} : assert c t = .ok u ↔ c = true := by
  cases c <;> simp [assert]

@[simp] theorem rejectIf_ok {c} {u} : rejectIf c t = .ok u ↔ c = false := by
  cases c <;> simp [rejectIf]

@[simp] theorem throwIf_ok {c} {u} : throwIf c t = .ok u ↔ c = false := by
  cases c <;> simp [throwIf]

/-- How a call failed can be computed, also where its results cannot be compared. -/
instance (x : Outcome α) (f : Failure) : Decidable (x = .error f) :=
  match x with
  | .ok _ => isFalse (by simp)
  | .error e => decidable_of_iff (e = f) (by simp)

instance (x : Outcome α) (P : α → Prop) [∀ a, Decidable (P a)] : Decidable (∀ a, x = .ok a → P a) :=
  match x with
  | .ok a => decidable_of_iff (P a) (by simp)
  | .error _ => isTrue (by simp)

@[simp] theorem ok_bind (a : α) (f : α → Outcome β) : ((.ok a : Outcome α) >>= f) = f a := rfl

/-- The rest of a block of steps matters only if the first one returns. -/
theorem bind_congr_ok {g : α → Outcome β} (h : ∀ a, x = .ok a → f a = g a)
    : (x >>= f) = (x >>= g) := by
  cases x with
  | error e => rfl
  | ok a => exact h a rfl

theorem ok_unique {a b : α} (h : x = .ok a) (h' : x = .ok b) : a = b :=
  Except.ok.inj (h.symm.trans h')

theorem ok_pair {a a' : α} {b b' : β} (h : (.ok (a, b) : Outcome (α × β)) = .ok (a', b')) :
    a = a' ∧ b = b' :=
  Prod.mk.inj (Except.ok.inj h)

/-- A block of steps returns when its first step returns and the rest does. -/
theorem bind_ok {b : β} : (x >>= f) = .ok b ↔ ∃ a, x = .ok a ∧ f a = .ok b := by
  cases x with
  | error e => simp [bind, Except.bind]
  | ok a => simp [bind, Except.bind]

theorem map_ok {f : α → β} {b : β} : f <$> x = .ok b ↔ ∃ a, x = .ok a ∧ f a = b := by
  cases x with
  | error e => simp [Functor.map, Except.map]
  | ok a => simp [Functor.map, Except.map]

/-- A block of steps fails where its first step does, or in the rest. -/
theorem bind_error {e} : (x >>= f) = .error e ↔ x = .error e ∨ ∃ a, x = .ok a ∧ f a = .error e := by
  cases x with
  | error e => simp [bind, Except.bind]
  | ok a => simp [bind, Except.bind]

/-- A block of steps completes when its first step does and the rest completes after it. -/
theorem exists_bind_ok : (∃ b, (x >>= f) = .ok b) ↔ ∃ a, x = .ok a ∧ ∃ b, f a = .ok b := by
  simp only [bind_ok]
  constructor
  · rintro ⟨b, a, hx, hf⟩
    exact ⟨a, hx, b, hf⟩
  · rintro ⟨a, hx, b, hf⟩
    exact ⟨b, a, hx, hf⟩

/-! ### The value of a transaction -/

/-- One output more: it is not negative and the sum does not wrap. -/
def addValueOut (nValueOut : Int) (out : TxOut) : Outcome Int := do
  throwIf (decide (out.nValue < 0)) "CTransaction::GetValueOut() : value out of range : less than 0"
  throwIf (decide (wrap64 (nValueOut + out.nValue) < nValueOut))
    "CTransaction::GetValueOut() : value out of range : wraps the int64_t boundary"
  .ok (wrap64 (nValueOut + out.nValue))

/-- What goes out, to outputs and, with a negative balance, to the shielded pool. -/
def Transaction.getValueOut (tx : Transaction) : Outcome Int := do
  let nValueOut ← tx.vout.foldlM addValueOut 0
  match tx.sapData with
  | none => .ok nValueOut
  | some sap =>
    if tx.hasSaplingData && decide (sap.valueBalance < 0) then do
      throwIf (!tx.isSaplingVersion) "GetValueOut(): invalid tx version"
      .ok (wrap64 (nValueOut - sap.valueBalance))
    else .ok nValueOut

/-- What comes in from the shielded pool. -/
def Transaction.getShieldedValueIn (tx : Transaction) : Outcome Int :=
  match tx.sapData with
  | none => .ok 0
  | some sap =>
    if tx.hasSaplingData && decide (0 < sap.valueBalance) then do
      throwIf (!tx.isSaplingVersion) "GetValueOut(): invalid tx version"
      .ok sap.valueBalance
    else .ok 0

/-- The exact value of a list of outputs. -/
def totalValue (vout : List TxOut) : Int := (vout.map TxOut.nValue).sum

@[simp] theorem totalValue_nil : totalValue [] = 0 := rfl

@[simp] theorem totalValue_cons (o : TxOut) (vout : List TxOut) :
    totalValue (o :: vout) = o.nValue + totalValue vout := by
  simp [totalValue]

@[simp] theorem totalValue_append (v v' : List TxOut) :
    totalValue (v ++ v') = totalValue v + totalValue v' := by
  simp [totalValue]

theorem totalValue_nonneg {vout} (h : ∀ o ∈ vout, 0 ≤ o.nValue) : 0 ≤ totalValue vout := by
  refine sum_nonneg ?_
  intro v hv
  obtain ⟨o, ho, rfl⟩ := mem_map.mp hv
  exact h o ho

/-- Outputs that are not negative, with a sum that fits, are added up exactly. -/
theorem foldlM_addValueOut {vout} (hnonneg : ∀ o ∈ vout, 0 ≤ o.nValue) {n : Int}
    (hn : 0 ≤ n) (hlt : n + totalValue vout < 2 ^ 63) :
    vout.foldlM addValueOut n = .ok (n + totalValue vout) := by
  induction vout generalizing n with
  | nil => simp [pure, Except.pure]
  | cons o vout ih =>
    have ho := hnonneg o (.head _)
    have hrest : ∀ o ∈ vout, 0 ≤ o.nValue := fun o h => hnonneg o (.tail _ h)
    have hsum := totalValue_nonneg hrest
    rw [totalValue_cons] at hlt
    have hwrap : wrap64 (n + o.nValue) = n + o.nValue := wrap64_eq (by omega) (by omega)
    have hadd : addValueOut n o = .ok (n + o.nValue) := by
      refine bind_ok.mpr ⟨(), throwIf_ok.mpr (decide_eq_false (by omega)), ?_⟩
      rw [hwrap]
      exact bind_ok.mpr ⟨(), throwIf_ok.mpr (decide_eq_false (by omega)), rfl⟩
    rw [foldlM_cons, hadd]
    show vout.foldlM addValueOut (n + o.nValue) = _
    rw [ih hrest (by omega) (by omega), totalValue_cons, Int.add_assoc]

/-! ### Passes over a list -/

/-- The call returns, with a result or with a reject reason: it neither throws nor aborts. -/
def Returns (x : Outcome α) : Prop := (∃ a, x = .ok a) ∨ ∃ reason, x = .error (.reject reason)

theorem Returns.ok (a : α) : Returns (.ok a : Outcome α) := .inl ⟨a, rfl⟩

theorem Returns.reject (reason : String) : Returns (.error (.reject reason) : Outcome α) :=
  .inr ⟨reason, rfl⟩

theorem Returns.rejectIf (c : Bool) (reason : String) : Returns (rejectIf c reason) := by
  cases c with
  | false => exact .ok ()
  | true => exact .reject reason

theorem Returns.bind (hx : Returns x) (hf : ∀ a, x = .ok a → Returns (f a))
    : Returns (x >>= f) := by
  rcases hx with ⟨a, rfl⟩ | ⟨reason, rfl⟩
  · exact hf a rfl
  · exact .reject reason

theorem exists_ok_of_isOk (h : x.isOk = true) : ∃ a, x = .ok a := by
  cases x with
  | error e => cases h
  | ok a => exact ⟨a, rfl⟩

/-- A pass of checks succeeds when each of them does. -/
theorem forM_ok_iff {f : α → Outcome Unit} : l.forM f = .ok () ↔ ∀ a ∈ l, f a = .ok () := by
  induction l with
  | nil => exact ⟨fun _ => by simp, fun _ => rfl⟩
  | cons a l ih =>
    have hcons : (a :: l).forM f = (f a >>= fun _ => l.forM f) := rfl
    rw [hcons, bind_ok, forall_mem_cons, ← ih]
    exact ⟨fun ⟨_, ha, hl⟩ => ⟨ha, hl⟩, fun ⟨ha, hl⟩ => ⟨(), ha, hl⟩⟩

/-- What each step of a pass preserves, given the steps before it, holds after the pass. -/
theorem foldlM_inv {b b' : β}
    (hstep : ∀ pre a post b b', l = pre ++ a :: post → P pre b → step b a = .ok b' → P (pre ++ [a]) b')
    (h₀ : P [] b) (hr : l.foldlM step b = .ok b') : P l b' := by
  -- generalize over the part of the list that is done
  suffices hgen : ∀ pre post b, l = pre ++ post → P pre b → post.foldlM step b = .ok b' → P l b' from
    hgen [] l b rfl h₀ hr
  intro pre post
  induction post generalizing pre with
  | nil =>
    intro b hl hP hr
    cases hr
    rwa [hl, append_nil]
  | cons a post ih =>
    intro b hl hP hr
    obtain ⟨b₁, hb₁, hr⟩ := bind_ok.mp hr
    exact ih (pre ++ [a]) b₁ (by simp [hl]) (hstep pre a post b b₁ hl hP hb₁) hr

/-- A pass returns when each of its steps does. -/
theorem foldlM_returns {b : β}
    (hstep : ∀ pre a post b b', l = pre ++ a :: post → P pre b → step b a = .ok b' → P (pre ++ [a]) b')
    (hret : ∀ pre a post b, l = pre ++ a :: post → P pre b → Returns (step b a)) (h₀ : P [] b)
    : Returns (l.foldlM step b) := by
  suffices hgen : ∀ pre post b, l = pre ++ post → P pre b → Returns (post.foldlM step b) from
    hgen [] l b rfl h₀
  intro pre post
  induction post generalizing pre with
  | nil => exact fun b _ _ => .ok b
  | cons a post ih =>
    intro b hl hP
    rw [foldlM_cons]
    refine (hret pre a post b hl hP).bind fun b₁ hb₁ => ?_
    exact ih (pre ++ [a]) b₁ (by simp [hl]) (hstep pre a post b b₁ hl hP hb₁)

end KmushiCoin
