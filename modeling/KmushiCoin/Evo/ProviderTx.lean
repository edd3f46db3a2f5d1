import KmushiCoin.Evo.Serialization

/-!
# KmushiCoin.Evo.ProviderTx

The **special transactions** of the masternode registry: their payloads with the
byte formats, and the checks every special transaction of a block has to pass
against the list and the coins of the *previous* block.

* The checks are translated in the order of the source, with its reject reasons.
  They run in two modes: without a previous block only the payload itself is
  checked (`prev = none`), with one also the list and the coins.
* What cannot be computed from the payload (signatures, addresses' networks,
  script destinations, the hash of the inputs) is a parameter of `Env`. No result
  assumes anything about these parameters.
* The inversion lemmas at the end collect what a passed check guarantees.
-/

namespace KmushiCoin

open Codec Script Option

/-! ### Payloads -/

structure ProRegPL where
  nVersion : UInt16 := 1
  nType : UInt16 := 0
  nMode : UInt16 := 0
  /-- With a null hash: an output of the registering transaction itself. -/
  collateralOutpoint : OutPoint := OutPoint.null
  addr : Service := Service.null
  keyIDOwner : KeyID
  keyIDOperator : KeyID
  keyIDVoting : KeyID
  scriptPayout : Script
  nOperatorReward : UInt16 := 0
  scriptOperatorPayout : Script := []
  inputsHash : Uint256
  vchSig : Bytes := []
  deriving Repr, DecidableEq

structure ProUpServPL where
  nVersion : UInt16 := 1
  proTxHash : Uint256
  addr : Service
  scriptOperatorPayout : Script := []
  inputsHash : Uint256
  vchSig : Bytes
  deriving Repr, DecidableEq

structure ProUpRegPL where
  nVersion : UInt16 := 1
  proTxHash : Uint256
  nMode : UInt16 := 0
  keyIDOperator : KeyID
  keyIDVoting : KeyID
  scriptPayout : Script
  inputsHash : Uint256
  vchSig : Bytes
  deriving Repr, DecidableEq

structure ProUpRevPL where
  nVersion : UInt16 := 1
  proTxHash : Uint256
  nReason : UInt16 := 0
  inputsHash : Uint256
  vchSig : Bytes
  deriving Repr, DecidableEq

def putProRegPL (pl : ProRegPL) : Bytes :=
  putUInt16 pl.nVersion ++ (putUInt16 pl.nType ++ (putUInt16 pl.nMode ++
  (putOutPoint pl.collateralOutpoint ++ (putService pl.addr ++ (putKeyID pl.keyIDOwner ++
  (putKeyID pl.keyIDOperator ++ (putKeyID pl.keyIDVoting ++ (putScript pl.scriptPayout ++
  (putUInt16 pl.nOperatorReward ++ (putScript pl.scriptOperatorPayout ++
  (putUint256 pl.inputsHash ++ putScript pl.vchSig)))))))))))

def getProRegPL : Get ProRegPL := do
  let nVersion ← getUInt16
  let nType ← getUInt16
  let nMode ← getUInt16
  let collateralOutpoint ← getOutPoint
  let addr ← getService
  let keyIDOwner ← getKeyID
  let keyIDOperator ← getKeyID
  let keyIDVoting ← getKeyID
  let scriptPayout ← getScript
  let nOperatorReward ← getUInt16
  let scriptOperatorPayout ← getScript
  let inputsHash ← getUint256
  let vchSig ← getScript
  pure { nVersion, nType, nMode, collateralOutpoint, addr, keyIDOwner, keyIDOperator, keyIDVoting,
         scriptPayout, nOperatorReward, scriptOperatorPayout, inputsHash, vchSig }

/-- The fields that are hashed and signed: all but the signature. -/
def ProUpServPL.signed (pl : ProUpServPL) : Bytes :=
  putUInt16 pl.nVersion ++ (putUint256 pl.proTxHash ++ (putService pl.addr ++
  (putScript pl.scriptOperatorPayout ++ putUint256 pl.inputsHash)))

def putProUpServPL (pl : ProUpServPL) : Bytes := pl.signed ++ putScript pl.vchSig

def getProUpServPL : Get ProUpServPL := do
  let nVersion ← getUInt16
  let proTxHash ← getUint256
  let addr ← getService
  let scriptOperatorPayout ← getScript
  let inputsHash ← getUint256
  let vchSig ← getScript
  pure { nVersion, proTxHash, addr, scriptOperatorPayout, inputsHash, vchSig }

def ProUpRegPL.signed (pl : ProUpRegPL) : Bytes :=
  putUInt16 pl.nVersion ++ (putUint256 pl.proTxHash ++ (putUInt16 pl.nMode ++
  (putKeyID pl.keyIDOperator ++ (putKeyID pl.keyIDVoting ++ (putScript pl.scriptPayout ++
  putUint256 pl.inputsHash)))))

def putProUpRegPL (pl : ProUpRegPL) : Bytes := pl.signed ++ putScript pl.vchSig

def getProUpRegPL : Get ProUpRegPL := do
  let nVersion ← getUInt16
  let proTxHash ← getUint256
  let nMode ← getUInt16
  let keyIDOperator ← getKeyID
  let keyIDVoting ← getKeyID
  let scriptPayout ← getScript
  let inputsHash ← getUint256
  let vchSig ← getScript
  pure { nVersion, proTxHash, nMode, keyIDOperator, keyIDVoting, scriptPayout, inputsHash, vchSig }

def ProUpRevPL.signed (pl : ProUpRevPL) : Bytes :=
  putUInt16 pl.nVersion ++ (putUint256 pl.proTxHash ++ (putUInt16 pl.nReason ++
  putUint256 pl.inputsHash))

def putProUpRevPL (pl : ProUpRevPL) : Bytes := pl.signed ++ putScript pl.vchSig

def getProUpRevPL : Get ProUpRevPL := do
  let nVersion ← getUInt16
  let proTxHash ← getUint256
  let nReason ← getUInt16
  let inputsHash ← getUint256
  let vchSig ← getScript
  pure { nVersion, proTxHash, nReason, inputsHash, vchSig }

/-- Decode the payload of a transaction; nothing may be left over. -/
def getTxPayload {α : Type} (get : Get α) (tx : Transaction) : Option α :=
  match tx.extraPayload with
  | none => none
  | some payload =>
    if payload.isEmpty then none
    else
      match get.run payload with
      | .ok (pl, []) => some pl
      | _ => none

/-! ### The environment of the checks -/

/-- Where a script pays to. -/
inductive TxDestination
  | noDestination
  | keyID (k : KeyID)
  | scriptID (h : Fin (2 ^ 160))
  deriving Repr, DecidableEq

/-- The parameters of the network and the functions the registry takes from elsewhere. -/
structure Env where
  serializeHash : UniqueProperty → Nat
  /-- One SHA-256 over two hashes in sequence. -/
  sha256 : Uint256 → Uint256 → Uint256
  extractDestination : Script → Option TxDestination
  /-- `CHashSigner::VerifyHash` of the hashed fields, the key and the signature. -/
  verifyHash : Bytes → KeyID → Bytes → Bool
  /-- `CMessageSigner::VerifyMessage` of the key, the signature and the signing string. -/
  verifyMessage : KeyID → Bytes → ProRegPL → Bool
  calcTxInputsHash : Transaction → Uint256
  isValid : Service → Bool
  isRoutable : Service → Bool
  isIPv4 : Service → Bool
  isRegTestNet : Bool
  isMainNet : Bool
  mainnetDefaultPort : UInt16
  nMNCollateralAmt : Int
  masternodeCollateralMinConf : Int32
  /-- Whether the deterministic list is enforced at a height. -/
  isDIP3Enforced : Int32 → Bool
  /-- Whether the legacy masternodes are disabled at a height. -/
  legacyMNObsolete : Int32 → Bool

/-- What the checks read of the previous block: its index, the list for it and the coins
after it. -/
structure PrevIndex where
  nHeight : Int32
  blockHash : Uint256
  mnList : DeterministicMNList
  getUTXOCoin : OutPoint → Option TxOut

/-! ### The checks -/

/-- Run a check only when the condition holds. -/
def onlyIf (condition : Bool) (check : Outcome Unit) : Outcome Unit :=
  if condition then check else .ok ()

variable (env : Env)

def checkService (addr : Service) : Outcome Unit := do
  rejectIf (!env.isValid addr) "bad-protx-ipaddr"
  rejectIf (!env.isRegTestNet && !env.isRoutable addr) "bad-protx-ipaddr"
  -- the default port of the main net is demanded there and refused elsewhere
  rejectIf (if env.isMainNet then addr.port != env.mainnetDefaultPort
    else addr.port == env.mainnetDefaultPort) "bad-protx-ipaddr-port"
  rejectIf (!env.isIPv4 addr) "bad-protx-ipaddr"

def checkHashSig (signed : Bytes) (keyID : KeyID) (vchSig : Bytes) : Outcome Unit :=
  rejectIf (!env.verifyHash signed keyID vchSig) "bad-protx-sig"

def checkStringSig (pl : ProRegPL) (keyID : KeyID) : Outcome Unit :=
  rejectIf (!env.verifyMessage keyID pl.vchSig pl) "bad-protx-sig"

def checkInputsHash (tx : Transaction) (inputsHash : Uint256) : Outcome Unit :=
  rejectIf (env.calcTxInputsHash tx != inputsHash) "bad-protx-inputs-hash"

/-- Check the collateral output and return its destination. -/
def checkCollateralOut (out : TxOut) (pl : ProRegPL) : Outcome TxDestination :=
  match env.extractDestination out.scriptPubKey with
  | none => .error (.reject "bad-protx-collateral-dest")
  | some dest => do
    rejectIf (dest == .keyID pl.keyIDOwner || dest == .keyID pl.keyIDVoting ||
      dest == .keyID pl.keyIDOperator) "bad-protx-collateral-reuse"
    rejectIf (out.nValue != env.nMNCollateralAmt) "bad-protx-collateral-amount"
    .ok dest

def checkProRegPayee (pl : ProRegPL) : Outcome Unit :=
  match env.extractDestination pl.scriptPayout with
  | none => .error (.reject "bad-protx-payee-dest")
  | some payoutDest =>
    rejectIf (payoutDest == .keyID pl.keyIDOwner || payoutDest == .keyID pl.keyIDVoting ||
      payoutDest == .keyID pl.keyIDOperator) "bad-protx-payee-reuse"

/-- The collateral is an output of the transaction itself. -/
def checkInternalCollateral (tx : Transaction) (pl : ProRegPL) : Outcome Unit :=
  match tx.vout[pl.collateralOutpoint.n.toNat]? with
  | none => .error (.reject "bad-protx-collateral-index")
  | some out => do
    let _ ← checkCollateralOut env out pl
    rejectIf (!pl.vchSig.isEmpty) "bad-protx-sig"

/-- The collateral is an unspent coin, whose owner signs. -/
def checkExternalCollateral (prev : PrevIndex) (pl : ProRegPL) : Outcome Unit :=
  match prev.getUTXOCoin pl.collateralOutpoint with
  | none => .error (.reject "bad-protx-collateral")
  | some out => do
    let dest ← checkCollateralOut env out pl
    match dest with
    | .keyID keyForPayloadSig => checkStringSig env pl keyForPayloadSig
    | _ => .error (.reject "bad-protx-collateral-pkh")

def checkProRegCollateral (tx : Transaction) (pl : ProRegPL) (prev : Option PrevIndex) :
    Outcome Unit :=
  if pl.collateralOutpoint.hash = 0 then checkInternalCollateral env tx pl
  else
    match prev with
    | none => .ok ()
    | some prev => checkExternalCollateral env prev pl

/-- An address in the list may be used again only with the same collateral. -/
def checkProRegAddr (mnList : DeterministicMNList) (pl : ProRegPL) : Outcome Unit :=
  if mnList.hasUniqueProperty env.serializeHash (.service pl.addr) then
    match mnList.getUniquePropertyMN env.serializeHash (.service pl.addr) with
    | none => .error (.abort "null pointer: GetUniquePropertyMN(pl.addr)->collateralOutpoint")
    | some dmn =>
      rejectIf (dmn.collateralOutpoint != pl.collateralOutpoint) "bad-protx-dup-IP-address"
  else .ok ()

def checkProRegList (pl : ProRegPL) (prev : Option PrevIndex) : Outcome Unit :=
  match prev with
  | none => .ok ()
  | some prev => do
    checkProRegAddr env prev.mnList pl
    -- never allow duplicate keys, even if the old masternode would be replaced
    rejectIf (prev.mnList.hasUniqueProperty env.serializeHash (.keyID pl.keyIDOwner))
      "bad-protx-dup-owner-key"
    rejectIf (prev.mnList.hasUniqueProperty env.serializeHash (.keyID pl.keyIDOperator))
      "bad-protx-dup-operator-key"

def checkProRegTx (tx : Transaction) (prev : Option PrevIndex) : Outcome Unit :=
  match getTxPayload getProRegPL tx with
  | none => .error (.reject "bad-protx-payload")
  | some pl => do
    rejectIf (pl.nVersion == 0 || decide (1 < pl.nVersion)) "bad-protx-version"
    rejectIf (pl.nType != 0) "bad-protx-type"
    rejectIf (pl.nMode != 0) "bad-protx-mode"
    rejectIf (pl.keyIDOwner == 0 || pl.keyIDOperator == 0 || pl.keyIDVoting == 0)
      "bad-protx-key-null"
    rejectIf (!isPayToPublicKeyHash pl.scriptPayout) "bad-protx-payee"
    rejectIf (!pl.scriptOperatorPayout.isEmpty &&
      !isPayToPublicKeyHash pl.scriptOperatorPayout) "bad-protx-operator-payee"
    checkProRegPayee env pl
    -- a null address is allowed: the masternode starts banned
    onlyIf (pl.addr != Service.null) (checkService env pl.addr)
    rejectIf (decide (10000 < pl.nOperatorReward)) "bad-protx-operator-reward"
    checkProRegCollateral env tx pl prev
    checkInputsHash env tx pl.inputsHash
    checkProRegList env pl prev

/-- The part of the service update check that needs the list. -/
def checkProUpServList (pl : ProUpServPL) (prev : Option PrevIndex) : Outcome Unit :=
  match prev with
  | none => .ok ()
  | some prev =>
    match prev.mnList.getMN pl.proTxHash with
    | none => .error (.reject "bad-protx-hash")
    | some mn => do
      let dup ← prev.mnList.heldByOther env.serializeHash (.service pl.addr) pl.proTxHash
      rejectIf dup "bad-protx-dup-addr"
      rejectIf (!pl.scriptOperatorPayout.isEmpty && mn.nOperatorReward == 0)
        "bad-protx-operator-payee"
      rejectIf (!pl.scriptOperatorPayout.isEmpty &&
        !isPayToPublicKeyHash pl.scriptOperatorPayout) "bad-protx-operator-payee"
      checkHashSig env pl.signed mn.pdmnState.keyIDOperator pl.vchSig

def checkProUpServTx (tx : Transaction) (prev : Option PrevIndex) : Outcome Unit :=
  match getTxPayload getProUpServPL tx with
  | none => .error (.reject "bad-protx-payload")
  | some pl => do
    rejectIf (pl.nVersion == 0 || decide (1 < pl.nVersion)) "bad-protx-version"
    checkService env pl.addr
    checkInputsHash env tx pl.inputsHash
    checkProUpServList env pl prev

/-- The collateral key of the masternode is none of its other keys. -/
def checkProUpRegCollateral (prev : PrevIndex) (dmn : DeterministicMN) (pl : ProUpRegPL) :
    Outcome Unit :=
  match prev.getUTXOCoin dmn.collateralOutpoint with
  | none => .error (.reject "bad-protx-collateral")
  | some out =>
    match env.extractDestination out.scriptPubKey with
    | none => .error (.reject "bad-protx-collateral-dest")
    | some dest =>
      rejectIf (dest == .keyID dmn.pdmnState.keyIDOwner || dest == .keyID pl.keyIDVoting ||
        dest == .keyID pl.keyIDOperator) "bad-protx-collateral-reuse"

/-- The part of the registrar update check that needs the list. -/
def checkProUpRegList (pl : ProUpRegPL) (payoutDest : TxDestination) (prev : Option PrevIndex) :
    Outcome Unit :=
  match prev with
  | none => .ok ()
  | some prev => do
    rejectIf (!env.legacyMNObsolete (prev.nHeight + 1)) "spork-21-inactive"
    match prev.mnList.getMN pl.proTxHash with
    | none => .error (.reject "bad-protx-hash")
    | some dmn => do
      rejectIf (payoutDest == .keyID dmn.pdmnState.keyIDOwner) "bad-protx-payee-reuse"
      checkProUpRegCollateral env prev dmn pl
      let dup ← prev.mnList.heldByOther env.serializeHash (.keyID pl.keyIDOperator) pl.proTxHash
      rejectIf dup "bad-protx-dup-key"
      checkHashSig env pl.signed dmn.pdmnState.keyIDOwner pl.vchSig

def checkProUpRegTx (tx : Transaction) (prev : Option PrevIndex) : Outcome Unit :=
  match getTxPayload getProUpRegPL tx with
  | none => .error (.reject "bad-protx-payload")
  | some pl => do
    rejectIf (pl.nVersion == 0 || decide (1 < pl.nVersion)) "bad-protx-version"
    rejectIf (pl.nMode != 0) "bad-protx-mode"
    rejectIf (pl.keyIDOperator == 0) "bad-protx-operator-key-null"
    rejectIf (pl.keyIDVoting == 0) "bad-protx-voting-key-null"
    rejectIf (!isPayToPublicKeyHash pl.scriptPayout) "bad-protx-payee"
    match env.extractDestination pl.scriptPayout with
    | none => .error (.reject "bad-protx-payee-dest")
    | some payoutDest => do
      rejectIf (payoutDest == .keyID pl.keyIDVoting || payoutDest == .keyID pl.keyIDOperator)
        "bad-protx-payee-reuse"
      checkInputsHash env tx pl.inputsHash
      checkProUpRegList env pl payoutDest prev

/-- The part of the revocation check that needs the list. -/
def checkProUpRevList (pl : ProUpRevPL) (prev : Option PrevIndex) : Outcome Unit :=
  match prev with
  | none => .ok ()
  | some prev =>
    match prev.mnList.getMN pl.proTxHash with
    | none => .error (.reject "bad-protx-hash")
    | some dmn => checkHashSig env pl.signed dmn.pdmnState.keyIDOperator pl.vchSig

def checkProUpRevTx (tx : Transaction) (prev : Option PrevIndex) : Outcome Unit :=
  match getTxPayload getProUpRevPL tx with
  | none => .error (.reject "bad-protx-payload")
  | some pl => do
    rejectIf (pl.nVersion == 0 || decide (1 < pl.nVersion)) "bad-protx-version"
    rejectIf (decide (3 < pl.nReason)) "bad-protx-reason"
    checkInputsHash env tx pl.inputsHash
    checkProUpRevList env pl prev

/-! ### All special transactions -/

/-- The size limit of a payload, for every type. -/
def maxSpecialTxExtraPayload : Nat := 10000

def checkSpecialTxBasic (tx : Transaction) : Outcome Unit :=
  if tx.isNormalType then rejectIf tx.hasExtraPayload "bad-txns-type-payload"
  else do
    rejectIf (!tx.isSaplingVersion) "bad-txns-type-version"
    rejectIf (tx.isCoinBase || tx.isCoinStake) "bad-txns-special-coinbase"
    rejectIf (!tx.hasExtraPayload) "bad-txns-payload-empty"
    rejectIf (decide (maxSpecialTxExtraPayload < (tx.extraPayload.getD []).length))
      "bad-txns-payload-oversize"

/-- The checks of each type. -/
def checkSpecialTxType (tx : Transaction) (prev : Option PrevIndex) : Outcome Unit :=
  match tx.nType with
  | .normal => .ok ()
  | .proReg => checkProRegTx env tx prev
  | .proUpServ => checkProUpServTx env tx prev
  | .proUpReg => checkProUpRegTx env tx prev
  | .proUpRev => checkProUpRevTx env tx prev
  | .unknown _ => .error (.reject "bad-tx-type")

def checkSpecialTxNoContext (tx : Transaction) : Outcome Unit := do
  checkSpecialTxBasic tx
  checkSpecialTxType env tx none

def checkSpecialTx (tx : Transaction) (prev : PrevIndex) : Outcome Unit := do
  checkSpecialTxBasic tx
  rejectIf (!tx.isNormalType && !env.isDIP3Enforced (prev.nHeight + 1)) "bad-txns-v6-not-active"
  checkSpecialTxType env tx (some prev)

/-! ### What a passed check guarantees -/

variable {env} {tx : Transaction} {prev : PrevIndex}

/-- An output that passes for a collateral. -/
structure CollateralOut (env : Env) (out : TxOut) : Prop where
  dest : ∃ dest, env.extractDestination out.scriptPubKey = some dest
  amount : out.nValue = env.nMNCollateralAmt

theorem checkCollateralOut_inv {out} {pl} {dest}
    (h : checkCollateralOut env out pl = .ok dest) : CollateralOut env out := by
  unfold checkCollateralOut at h
  split at h
  · cases h
  rename_i d hdest
  obtain ⟨_, -, h⟩ := bind_ok.mp h
  obtain ⟨_, hamount, -⟩ := bind_ok.mp h
  exact ⟨⟨d, hdest⟩, by simpa using rejectIf_ok.mp hamount⟩

/-- A registration that passed. -/
structure ProRegChecked (env : Env) (tx : Transaction) (prev : PrevIndex) (pl : ProRegPL) : Prop where
  owner : pl.keyIDOwner ≠ 0
  operator : pl.keyIDOperator ≠ 0
  voting : pl.keyIDVoting ≠ 0
  payout : pl.scriptPayout.length = 25
  operatorPayout : pl.scriptOperatorPayout.length ≤ 25
  operatorReward : pl.nOperatorReward ≤ 10000
  /-- An internal collateral is an output of the transaction. -/
  index : pl.collateralOutpoint.hash = 0 → pl.collateralOutpoint.n.toNat < tx.vout.length
  internal : pl.collateralOutpoint.hash = 0 →
    ∃ out, tx.vout[pl.collateralOutpoint.n.toNat]? = some out ∧ CollateralOut env out
  /-- An external collateral is a coin after the previous block. -/
  external : pl.collateralOutpoint.hash ≠ 0 →
    ∃ out, prev.getUTXOCoin pl.collateralOutpoint = some out ∧ CollateralOut env out
  /-- The keys are new. -/
  newOwner : prev.mnList.hasUniqueProperty env.serializeHash (.keyID pl.keyIDOwner) = false
  newOperator : prev.mnList.hasUniqueProperty env.serializeHash (.keyID pl.keyIDOperator) = false
  /-- The address is new, or belongs to the masternode with that collateral. -/
  addr : ∀ dmn, prev.mnList.getUniquePropertyMN env.serializeHash (.service pl.addr) = some dmn →
    dmn.collateralOutpoint = pl.collateralOutpoint

theorem length_le_of_empty_or_p2pkh {s}
    (h : (!s.isEmpty && !isPayToPublicKeyHash s) = false) : s.length ≤ 25 := by
  cases s with
  | nil => simp
  | cons b s =>
    have hp : isPayToPublicKeyHash (b :: s) = true := by simpa using h
    exact (isPayToPublicKeyHash_length hp).le

theorem checkProRegCollateral_inv {pl}
    (h : checkProRegCollateral env tx pl (some prev) = .ok ()) : ∃ out, CollateralOut env out ∧
      if pl.collateralOutpoint.hash = 0 then tx.vout[pl.collateralOutpoint.n.toNat]? = some out
      else prev.getUTXOCoin pl.collateralOutpoint = some out := by
  unfold checkProRegCollateral at h
  split_ifs at h ⊢ with hnull
  · unfold checkInternalCollateral at h
    split at h
    · cases h
    rename_i out hout
    obtain ⟨_, hcheck, -⟩ := bind_ok.mp h
    exact ⟨out, checkCollateralOut_inv hcheck, hout⟩
  · simp only [checkExternalCollateral] at h
    split at h
    · cases h
    rename_i out hcoin
    obtain ⟨_, hcheck, -⟩ := bind_ok.mp h
    exact ⟨out, checkCollateralOut_inv hcheck, hcoin⟩

theorem checkProRegTx_inv (h : checkProRegTx env tx (some prev) = .ok ()) :
    ∃ pl, getTxPayload getProRegPL tx = some pl ∧ ProRegChecked env tx prev pl := by
  unfold checkProRegTx at h
  split at h
  · cases h
  rename_i pl hpl
  iterate 3 obtain ⟨_, -, h⟩ := bind_ok.mp h
  obtain ⟨_, hkeys, h⟩ := bind_ok.mp h
  obtain ⟨_, hpayout, h⟩ := bind_ok.mp h
  obtain ⟨_, hopPayout, h⟩ := bind_ok.mp h
  iterate 2 obtain ⟨_, -, h⟩ := bind_ok.mp h
  obtain ⟨_, hreward, h⟩ := bind_ok.mp h
  obtain ⟨_, hcoll, h⟩ := bind_ok.mp h
  obtain ⟨_, -, h⟩ := bind_ok.mp h
  obtain ⟨_, haddr, h⟩ := bind_ok.mp h
  obtain ⟨_, howner, hoperator⟩ := bind_ok.mp h
  rw [rejectIf_ok] at hkeys hpayout hopPayout hreward howner hoperator
  simp only [Bool.or_eq_false_iff, beq_eq_false_iff_ne] at hkeys
  obtain ⟨out, hout, hplace⟩ := checkProRegCollateral_inv hcoll
  refine ⟨pl, hpl, hkeys.1.1, hkeys.1.2, hkeys.2, ?_, length_le_of_empty_or_p2pkh hopPayout,
    UInt16.not_lt.mp (of_decide_eq_false hreward), ?_, ?_, ?_, howner, hoperator, ?_⟩
  · exact isPayToPublicKeyHash_length (by simpa using hpayout)
  · intro hnull
    rw [if_pos hnull] at hplace
    exact (List.getElem?_eq_some_iff.mp hplace).1
  · intro hnull
    rw [if_pos hnull] at hplace
    exact ⟨out, hplace, hout⟩
  · intro hne
    rw [if_neg hne] at hplace
    exact ⟨out, hplace, hout⟩
  · intro dmn hdmn
    have hhas : prev.mnList.hasUniqueProperty env.serializeHash (.service pl.addr) = true := by
      unfold DeterministicMNList.getUniquePropertyMN at hdmn
      unfold DeterministicMNList.hasUniqueProperty
      cases he : prev.mnList.mnUniquePropertyMap[env.serializeHash (.service pl.addr)]? with
      | none => rw [he] at hdmn; cases hdmn
      | some e => rfl
    unfold checkProRegAddr at haddr
    rw [if_pos hhas, hdmn] at haddr
    simpa using rejectIf_ok.mp haddr

/-- A service update that passed. -/
structure ProUpServChecked (env : Env) (prev : PrevIndex) (pl : ProUpServPL) : Prop where
  valid : env.isValid pl.addr = true
  member : ∃ mn, prev.mnList.getMN pl.proTxHash = some mn
  operatorPayout : pl.scriptOperatorPayout.length ≤ 25
  /-- No other masternode has the address. -/
  addr : prev.mnList.heldByOther env.serializeHash (.service pl.addr) pl.proTxHash = .ok false
  /-- The operator signed. -/
  signed : ∀ mn, prev.mnList.getMN pl.proTxHash = some mn →
    env.verifyHash pl.signed mn.pdmnState.keyIDOperator pl.vchSig = true

/-- A signature that was accepted. -/
theorem checkHashSig_inv {signed} {keyID} {vchSig}
    (h : checkHashSig env signed keyID vchSig = .ok ()) :
    env.verifyHash signed keyID vchSig = true := by
  simpa using rejectIf_ok.mp h

theorem checkProUpServTx_inv (h : checkProUpServTx env tx (some prev) = .ok ()) :
    ∃ pl, getTxPayload getProUpServPL tx = some pl ∧ ProUpServChecked env prev pl := by
  unfold checkProUpServTx at h
  split at h
  · cases h
  rename_i pl hpl
  obtain ⟨_, -, h⟩ := bind_ok.mp h
  obtain ⟨_, hservice, h⟩ := bind_ok.mp h
  obtain ⟨_, hvalid, -⟩ := bind_ok.mp hservice
  obtain ⟨_, -, h⟩ := bind_ok.mp h
  dsimp only [checkProUpServList] at h
  split at h
  · cases h
  rename_i mn hmn
  obtain ⟨dup, hheld, h⟩ := bind_ok.mp h
  obtain ⟨_, hdup, h⟩ := bind_ok.mp h
  obtain ⟨_, -, h⟩ := bind_ok.mp h
  obtain ⟨_, hpayout, hsig⟩ := bind_ok.mp h
  rw [rejectIf_ok] at hdup hpayout hvalid
  refine ⟨pl, hpl, by simpa using hvalid, ⟨mn, hmn⟩, length_le_of_empty_or_p2pkh hpayout,
    hdup ▸ hheld, ?_⟩
  intro mn' hmn'
  obtain rfl := mem_unique hmn hmn'
  exact checkHashSig_inv hsig

/-- A registrar update that passed. -/
structure ProUpRegChecked (env : Env) (prev : PrevIndex) (pl : ProUpRegPL) : Prop where
  member : ∃ mn, prev.mnList.getMN pl.proTxHash = some mn
  operator : pl.keyIDOperator ≠ 0
  voting : pl.keyIDVoting ≠ 0
  payout : pl.scriptPayout.length = 25
  /-- The collateral of the masternode is unspent after the previous block. -/
  coin : ∀ mn, prev.mnList.getMN pl.proTxHash = some mn →
    prev.getUTXOCoin mn.collateralOutpoint ≠ none
  /-- No other masternode has the operator key. -/
  key : prev.mnList.heldByOther env.serializeHash (.keyID pl.keyIDOperator) pl.proTxHash = .ok false
  /-- The owner signed. -/
  signed : ∀ mn, prev.mnList.getMN pl.proTxHash = some mn →
    env.verifyHash pl.signed mn.pdmnState.keyIDOwner pl.vchSig = true

theorem checkProUpRegTx_inv (h : checkProUpRegTx env tx (some prev) = .ok ()) :
    ∃ pl, getTxPayload getProUpRegPL tx = some pl ∧ ProUpRegChecked env prev pl := by
  unfold checkProUpRegTx at h
  split at h
  · cases h
  rename_i pl hpl
  iterate 2 obtain ⟨_, -, h⟩ := bind_ok.mp h
  obtain ⟨_, hoperator, h⟩ := bind_ok.mp h
  obtain ⟨_, hvoting, h⟩ := bind_ok.mp h
  obtain ⟨_, hpayout, h⟩ := bind_ok.mp h
  rw [rejectIf_ok] at hoperator hvoting hpayout
  split at h
  · cases h
  rename_i payoutDest hdest
  iterate 2 obtain ⟨_, -, h⟩ := bind_ok.mp h
  dsimp only [checkProUpRegList] at h
  obtain ⟨_, -, h⟩ := bind_ok.mp h
  split at h
  · cases h
  rename_i mn hmn
  obtain ⟨_, -, h⟩ := bind_ok.mp h
  obtain ⟨_, hcoll, h⟩ := bind_ok.mp h
  obtain ⟨dup, hheld, h⟩ := bind_ok.mp h
  obtain ⟨_, hdup, hsig⟩ := bind_ok.mp h
  rw [rejectIf_ok] at hdup
  refine ⟨pl, hpl, ⟨mn, hmn⟩, by simpa using hoperator, by simpa using hvoting, ?_, ?_,
    hdup ▸ hheld, ?_⟩
  · exact isPayToPublicKeyHash_length (by simpa using hpayout)
  · intro mn' hmn' hnone
    obtain rfl := mem_unique hmn hmn'
    unfold checkProUpRegCollateral at hcoll
    simp [hnone] at hcoll
  · intro mn' hmn'
    obtain rfl := mem_unique hmn hmn'
    exact checkHashSig_inv hsig

/-- A revocation that passed. -/
structure ProUpRevChecked (env : Env) (prev : PrevIndex) (pl : ProUpRevPL) : Prop where
  member : ∃ mn, prev.mnList.getMN pl.proTxHash = some mn
  reason : pl.nReason ≤ 3
  /-- The operator signed. -/
  signed : ∀ mn, prev.mnList.getMN pl.proTxHash = some mn →
    env.verifyHash pl.signed mn.pdmnState.keyIDOperator pl.vchSig = true

theorem checkProUpRevTx_inv (h : checkProUpRevTx env tx (some prev) = .ok ()) :
    ∃ pl, getTxPayload getProUpRevPL tx = some pl ∧ ProUpRevChecked env prev pl := by
  unfold checkProUpRevTx at h
  split at h
  · cases h
  rename_i pl hpl
  obtain ⟨_, -, h⟩ := bind_ok.mp h
  obtain ⟨_, hreason, h⟩ := bind_ok.mp h
  obtain ⟨_, -, h⟩ := bind_ok.mp h
  dsimp only [checkProUpRevList] at h
  split at h
  · cases h
  rename_i mn hmn
  rw [rejectIf_ok] at hreason
  refine ⟨pl, hpl, ⟨mn, hmn⟩, by simpa using hreason, ?_⟩
  intro mn' hmn'
  obtain rfl := mem_unique hmn hmn'
  exact checkHashSig_inv h

/-- The type's own checks ran. -/
theorem checkSpecialTx_type (h : checkSpecialTx env tx prev = .ok ()) :
    checkSpecialTxType env tx (some prev) = .ok () := by
  unfold checkSpecialTx at h
  iterate 2 obtain ⟨_, -, h⟩ := bind_ok.mp h
  exact h

/-- A special transaction passes at heights with the deterministic list only. -/
theorem checkSpecialTx_enforced (h : checkSpecialTx env tx prev = .ok ())
    (htype : tx.nType ≠ .normal) : env.isDIP3Enforced (prev.nHeight + 1) = true := by
  obtain ⟨_, -, h⟩ := bind_ok.mp h
  obtain ⟨_, hheight, -⟩ := bind_ok.mp h
  rw [rejectIf_ok] at hheight
  simpa [Transaction.isNormalType, htype] using hheight

end KmushiCoin
