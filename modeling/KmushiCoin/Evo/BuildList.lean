import KmushiCoin.Evo.ProviderTx

/-!
# KmushiCoin.Evo.BuildList

`BuildNewListFromBlock`: the list of a block from the list of the previous block.

The function is a sequence of passes over the block: confirm the members that are
old enough, decrease the penalties, apply the special transactions, remove the
members whose collateral is spent, and record the payment. Every pass is a fold of
one step over a list, so what a step preserves is preserved by the pass.

The legacy masternode manager, from which a registration also removes the old
entry of its collateral, is not part of the list and is left out.
-/

namespace KmushiCoin

open Codec DeterministicMNList DeterministicMNState

variable (env : Env)

/-- The collateral of a registration: external, or an output of the transaction itself. -/
def ProRegPL.collateral (pl : ProRegPL) (tx : Transaction) : OutPoint :=
  if pl.collateralOutpoint.hash = 0 then ⟨tx.hash, pl.collateralOutpoint.n⟩
  else pl.collateralOutpoint

/-- The state of a new member. -/
def ProRegPL.initialState (pl : ProRegPL) (nHeight : Int32) : DeterministicMNState where
  nRegisteredHeight := nHeight
  -- without an address the masternode waits, banned, for a service update
  nPoSeBanHeight := if pl.addr = Service.null then nHeight else -1
  keyIDOwner := pl.keyIDOwner
  keyIDOperator := pl.keyIDOperator
  keyIDVoting := pl.keyIDVoting
  addr := pl.addr
  scriptPayout := pl.scriptPayout
  scriptOperatorPayout := pl.scriptOperatorPayout

/-- Set the confirmed hash of a member that has none and is old enough. -/
def confirmMN (prev : PrevIndex) (newList : DeterministicMNList) (dmn : DeterministicMN) :
    Outcome DeterministicMNList :=
  if dmn.pdmnState.confirmedHash ≠ 0 then .ok newList
  else if env.masternodeCollateralMinConf ≤ prev.nHeight - dmn.pdmnState.nRegisteredHeight then
    newList.updateMNByHash env.serializeHash dmn.proTxHash
      (dmn.pdmnState.updateConfirmedHash env.sha256 dmn.proTxHash prev.blockHash)
  else .ok newList

/-- The members whose penalty is decreased. -/
def toDecrease (mnList : DeterministicMNList) : List Uint256 :=
  ((mnList.members.filter isMNValid).filter fun dmn =>
    decide (0 < dmn.pdmnState.nPoSePenalty) && dmn.pdmnState.nPoSeBanHeight == -1).map
      DeterministicMN.proTxHash

def decreasePoSePenalties (mnList : DeterministicMNList) : Outcome DeterministicMNList :=
  (toDecrease mnList).foldlM (fun l proTxHash => l.poSeDecrease env.serializeHash proTxHash) mnList

/-- An external collateral has to be an unspent coin of the right amount. -/
def checkExternalCoin (prev : PrevIndex) (pl : ProRegPL) : Outcome Unit :=
  if pl.collateralOutpoint.hash = 0 then .ok ()
  else
    match prev.getUTXOCoin pl.collateralOutpoint with
    | none => .error (.reject "bad-protx-collateral")
    | some out => rejectIf (out.nValue != env.nMNCollateralAmt) "bad-protx-collateral"

/-- Remove the member that has the collateral, if there is one. -/
def removeReplaced (newList : DeterministicMNList) (collateral : OutPoint) :
    Outcome DeterministicMNList :=
  match newList.getMNByCollateral env.serializeHash collateral with
  | none => .ok newList
  | some replacedDmn => newList.removeMN env.serializeHash replacedDmn.proTxHash

def applyProReg (prev : PrevIndex) (nHeight : Int32) (newList : DeterministicMNList)
    (tx : Transaction) : Outcome DeterministicMNList :=
  match getTxPayload getProRegPL tx with
  | none => .error (.reject "bad-protx-payload")
  | some pl => do
    -- the id is taken before a replaced member is removed
    let internalId := newList.nTotalRegisteredCount.toUInt64
    checkExternalCoin env prev pl
    let newList ← removeReplaced env newList (pl.collateral tx)
    rejectIf (newList.hasUniqueProperty env.serializeHash (.service pl.addr))
      "bad-protx-dup-IP-address"
    rejectIf (newList.hasUniqueProperty env.serializeHash (.keyID pl.keyIDOwner))
      "bad-protx-dup-owner-key"
    rejectIf (newList.hasUniqueProperty env.serializeHash (.keyID pl.keyIDOperator))
      "bad-protx-dup-operator-key"
    newList.addMN env.serializeHash
      { proTxHash := tx.hash, internalId := internalId, collateralOutpoint := pl.collateral tx,
        nOperatorReward := pl.nOperatorReward, pdmnState := pl.initialState nHeight }

/-- The state after a service update; a banned masternode with all keys is revived. -/
def ProUpServPL.newState (pl : ProUpServPL) (nHeight : Int32) (s : DeterministicMNState) :
    DeterministicMNState :=
  let s := { s with addr := pl.addr, scriptOperatorPayout := pl.scriptOperatorPayout }
  if s.nPoSeBanHeight ≠ -1 ∧ s.keyIDOperator ≠ 0 ∧ s.keyIDVoting ≠ 0 ∧ s.keyIDOwner ≠ 0 then
    { s with nPoSePenalty := 0, nPoSeBanHeight := -1, nPoSeRevivedHeight := nHeight }
  else s

def applyProUpServ (nHeight : Int32) (newList : DeterministicMNList) (tx : Transaction) :
    Outcome DeterministicMNList :=
  match getTxPayload getProUpServPL tx with
  | none => .error (.reject "bad-protx-payload")
  | some pl => do
    let dup ← newList.heldByOther env.serializeHash (.service pl.addr) pl.proTxHash
    rejectIf dup "bad-protx-dup-addr"
    match newList.getMN pl.proTxHash with
    | none => .error (.reject "bad-protx-hash")
    | some dmn => do
      rejectIf (dmn.nOperatorReward == 0 && !pl.scriptOperatorPayout.isEmpty)
        "bad-protx-operator-payee"
      newList.updateMNByHash env.serializeHash pl.proTxHash (pl.newState nHeight dmn.pdmnState)

/-- The state after a registrar update; a new operator key resets and bans the operator. -/
def ProUpRegPL.newState (pl : ProUpRegPL) (nHeight : Int32) (s : DeterministicMNState) :
    DeterministicMNState :=
  let s :=
    if s.keyIDOperator ≠ pl.keyIDOperator then s.resetOperatorFields.banIfNotBanned nHeight else s
  { s with
    keyIDOperator := pl.keyIDOperator
    keyIDVoting := pl.keyIDVoting
    scriptPayout := pl.scriptPayout }

def applyProUpReg (nHeight : Int32) (newList : DeterministicMNList) (tx : Transaction) :
    Outcome DeterministicMNList :=
  match getTxPayload getProUpRegPL tx with
  | none => .error (.reject "bad-protx-payload")
  | some pl =>
    match newList.getMN pl.proTxHash with
    | none => .error (.reject "bad-protx-hash")
    | some dmn => do
      let dup ← newList.heldByOther env.serializeHash (.keyID pl.keyIDOperator) pl.proTxHash
      rejectIf dup "bad-protx-dup-operator-key"
      newList.updateMNByHash env.serializeHash pl.proTxHash (pl.newState nHeight dmn.pdmnState)

/-- The state after a revocation. -/
def ProUpRevPL.newState (pl : ProUpRevPL) (nHeight : Int32) (s : DeterministicMNState) :
    DeterministicMNState :=
  { s.resetOperatorFields.banIfNotBanned nHeight with nRevocationReason := pl.nReason }

def applyProUpRev (nHeight : Int32) (newList : DeterministicMNList) (tx : Transaction) :
    Outcome DeterministicMNList :=
  match getTxPayload getProUpRevPL tx with
  | none => .error (.reject "bad-protx-payload")
  | some pl =>
    match newList.getMN pl.proTxHash with
    | none => .error (.reject "bad-protx-hash")
    | some dmn =>
      newList.updateMNByHash env.serializeHash pl.proTxHash (pl.newState nHeight dmn.pdmnState)

/-- Apply one transaction of the block. -/
def applyTx (prev : PrevIndex) (nHeight : Int32) (newList : DeterministicMNList)
    (tx : Transaction) : Outcome DeterministicMNList :=
  match tx.nType with
  | .proReg => applyProReg env prev nHeight newList tx
  | .proUpServ => applyProUpServ env nHeight newList tx
  | .proUpReg => applyProUpReg env nHeight newList tx
  | .proUpRev => applyProUpRev env nHeight newList tx
  | .normal | .unknown _ => .ok newList

/-- Remove the member whose collateral an input spends. -/
def spendInput (newList : DeterministicMNList) (txin : TxIn) : Outcome DeterministicMNList :=
  match newList.getMNByCollateral env.serializeHash txin.prevout with
  | none => .ok newList
  | some dmn =>
    if dmn.collateralOutpoint = txin.prevout then newList.removeMN env.serializeHash dmn.proTxHash
    else .ok newList

/-- Record the payment of the block, if the payee is still a member. -/
def payPayee (nHeight : Int32) (payee : Option DeterministicMN) (newList : DeterministicMNList) :
    Outcome DeterministicMNList :=
  match payee with
  | none => .ok newList
  | some payee =>
    match newList.getMN payee.proTxHash with
    | none => .ok newList
    | some dmn =>
      newList.updateMNByHash env.serializeHash payee.proTxHash
        { dmn.pdmnState with nLastPaidHeight := nHeight }

/-- The list of the next block, without its block hash. The first transaction of the
block is the coinbase and is skipped. -/
def buildNewListFromBlock (vtx : List Transaction) (prev : PrevIndex) :
    Outcome DeterministicMNList := do
  let nHeight := prev.nHeight + 1
  let oldList := prev.mnList
  let newList := (oldList.setBlockHash 0).setHeight nHeight
  let payee := oldList.getMNPayee
  let newList ← oldList.members.foldlM (confirmMN env prev) newList
  let newList ← decreasePoSePenalties env newList
  let newList ← vtx.tail.foldlM (applyTx env prev nHeight) newList
  let newList ← (vtx.tail.flatMap Transaction.vin).foldlM (spendInput env) newList
  payPayee env nHeight payee newList

/-! ### The fields after an update -/

section
variable (nHeight : Int32) (s : DeterministicMNState)

@[simp] theorem ProUpServPL.newState_fields (pl : ProUpServPL) :
    (pl.newState nHeight s).addr = pl.addr ∧ (pl.newState nHeight s).keyIDOwner = s.keyIDOwner ∧
      (pl.newState nHeight s).keyIDOperator = s.keyIDOperator ∧
      (pl.newState nHeight s).scriptPayout = s.scriptPayout ∧
      (pl.newState nHeight s).scriptOperatorPayout = pl.scriptOperatorPayout := by
  unfold newState; dsimp only; split_ifs <;> simp

@[simp] theorem ProUpRegPL.newState_fields (pl : ProUpRegPL) : (pl.newState nHeight s).addr =
        (if s.keyIDOperator ≠ pl.keyIDOperator then Service.null else s.addr) ∧
      (pl.newState nHeight s).keyIDOwner = s.keyIDOwner ∧
      (pl.newState nHeight s).keyIDOperator = pl.keyIDOperator ∧
      (pl.newState nHeight s).scriptPayout = pl.scriptPayout ∧
      (pl.newState nHeight s).scriptOperatorPayout =
        if s.keyIDOperator ≠ pl.keyIDOperator then [] else s.scriptOperatorPayout := by
  unfold newState; dsimp only; split_ifs <;> simp [resetOperatorFields]

@[simp] theorem ProUpRevPL.newState_fields (pl : ProUpRevPL) :
    (pl.newState nHeight s).addr = Service.null ∧
      (pl.newState nHeight s).keyIDOwner = s.keyIDOwner ∧
      (pl.newState nHeight s).keyIDOperator = 0 ∧
      (pl.newState nHeight s).scriptPayout = s.scriptPayout ∧
      (pl.newState nHeight s).scriptOperatorPayout = [] := by
  simp [newState, resetOperatorFields]

end

end KmushiCoin
