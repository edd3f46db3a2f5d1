import KmushiCoin.Budget.Manager
import KmushiCoin.Evo.MNList
import KmushiCoin.Lib.Prog

/-!
# KmushiCoin.Masternode.Payments

**Who is paid in a block**: the outputs that a node adds to the block it makes
(`FillBlockPayee`), and the checks of a block that it receives (`IsBlockValueValid`,
`IsBlockPayeeValid`, `IsCoinbaseValueValid`).

* `NetworkParams` are the constants of the network, `PaymentsState` is what the node knows:
  sporks, budgets, votes for payees, the legacy and the deterministic masternodes.
* Two more variables of the process are written and read by the checks, and by nothing else
  (`PaymentGlobals`): the height of the last block whose legacy payee was checked, and the
  payment history of the budgets. So the checks are programs over these two.
* `GetMasternodePayment` is a parameter; the block value follows the schedule of the source, of
  which the fractions are exact: `0.00001 * COIN` is 1000 and `1.48 * COIN` is 148000000.
-/

namespace KmushiCoin

def COIN : Int := 100000000

/-- The constants of a network. -/
structure NetworkParams where
  isRegTestNet : Bool
  isTestnet : Bool
  hashGenesisBlock : Uint256
  nBudgetCycleBlocks : Int
  nBudgetCycleBlocks_pos : 0 < nBudgetCycleBlocks
  /-- The activation heights of the upgrades; `-1` for one that is not scheduled. -/
  upgradePoS : Int
  upgradeV5_3 : Int
  upgradeV6_0 : Int
  getMasternodePayment : Int → Int → Int
  /-- The payment is a part of the block value. -/
  getMasternodePayment_le : ∀ (h : Int) {v : Int}, 0 ≤ v →
    0 ≤ getMasternodePayment h v ∧ getMasternodePayment h v ≤ v

def networkUpgradeActive (nHeight nActivationHeight : Int) : Bool :=
  nActivationHeight != -1 && decide (nActivationHeight ≤ nHeight)

/-- An upgrade stays active. -/
theorem networkUpgradeActive_mono {m n nActivationHeight : Int} (hle : m ≤ n)
    (h : networkUpgradeActive m nActivationHeight = true) :
    networkUpgradeActive n nActivationHeight = true := by
  simp only [networkUpgradeActive, Bool.and_eq_true, decide_eq_true_eq] at h ⊢
  exact ⟨h.1, h.2.trans hle⟩

namespace NetworkParams

variable (params : NetworkParams)

variable (nHeight : Int)

def getBlockValue : Int :=
  if params.isRegTestNet then 250 * COIN
  else if params.isTestnet && decide (nHeight < 201) && decide (1 < nHeight) then 250000 * COIN
  else
    let nLast := params.upgradePoS - 1
    if nHeight = 1 then 6300000 * COIN
    else if nHeight ≤ nLast ∧ 0 ≤ nHeight then 1000
    else 148000000

/-- What the masternodes get of the value of a block. -/
def masternodeReward : Int :=
  params.getMasternodePayment nHeight (params.getBlockValue nHeight)

def getTotalBudget : Int :=
  (params.getBlockValue nHeight).tdiv 5 * params.nBudgetCycleBlocks

end NetworkParams

/-! ### Votes for legacy payees -/

structure MasternodePayee where
  scriptPubKey : Script
  nVotes : Int
  deriving Repr, DecidableEq

def mnPaymentsSignaturesRequired : Int := 6

structure MasternodeBlockPayees where
  nBlockHeight : Int
  vecPayments : List MasternodePayee
  deriving Repr, DecidableEq

namespace MasternodeBlockPayees

/-- The payee with the most votes, the first of them. -/
def getPayee (p : MasternodeBlockPayees) : Option Script :=
  (p.vecPayments.foldl
    (fun (best : Option Script × Int) payee =>
      if best.2 < payee.nVotes then (some payee.scriptPubKey, payee.nVotes) else best)
    (none, -1)).1

/-- The verdict: one of the payees with enough votes is paid, if there is one. -/
def isTransactionValid (p : MasternodeBlockPayees) (params : NetworkParams) (vout : List TxOut) :
    Bool :=
  let voted := p.vecPayments.filter fun payee =>
    decide (mnPaymentsSignaturesRequired ≤ payee.nVotes)
  voted.isEmpty ||
    voted.any fun payee => vout.any fun out =>
      payee.scriptPubKey == out.scriptPubKey &&
        out.nValue == params.masternodeReward p.nBlockHeight

end MasternodeBlockPayees

/-- The votes for each height. -/
structure MasternodeBlocks where
  blocks : FMap Int MasternodeBlockPayees
  /-- They are filed under their height. -/
  height : ∀ {h : Int} {p : MasternodeBlockPayees}, blocks[h]? = some p → p.nBlockHeight = h

def MasternodeBlocks.empty : MasternodeBlocks := ⟨∅, fun h => by simp at h⟩

/-! ### The state of a node -/

/-- What a node knows about payments on top of a block. -/
structure PaymentsState where
  isSynced : Bool
  /-- Whether the masternode payment is enforced. -/
  spork8 : Bool
  /-- Whether the budget payment is enforced. -/
  spork9 : Bool
  /-- Whether superblocks are enabled. -/
  spork13 : Bool
  budgetman : BudgetManager
  mapMasternodeBlocks : MasternodeBlocks
  getHashAtHeight : Int → Uint256
  /-- The payee script of `mnodeman.GetCurrentMasterNode`. -/
  getCurrentMasterNode : Uint256 → Option Script
  legacyMNObsolete : Int → Bool
  /-- `GetListForBlock(pindexPrev)`. -/
  mnList : DeterministicMNList
  /-- The operator's share is in ten thousandths. -/
  nOperatorReward_le : ∀ dmn ∈ mnList.members, dmn.nOperatorReward ≤ 10000
  /-- The height of a block of the active chain. -/
  activeHeight : Uint256 → Option Int
  /-- Not every hash is one of the active chain. -/
  exists_off_chain : ∃ x, activeHeight x = none

/-- The variables of the process that the checks write. -/
structure PaymentGlobals where
  nHeight_val : Int := 0
  history : PaymentHistory := ∅

/-- A call that may write the variables of the process. -/
abbrev Check (α : Type) : Type := Prog PaymentGlobals Failure α

section
variable (params : NetworkParams) (st : PaymentsState)

/-! ### The outputs for the masternodes -/

variable (nHeight : Int)

def getLegacyMasternodeTxOut : Option (List TxOut) :=
  let payee :=
    match st.mapMasternodeBlocks.blocks[nHeight]?.bind MasternodeBlockPayees.getPayee with
    | some payee => some payee
    | none =>
      st.getCurrentMasterNode <|
        if networkUpgradeActive nHeight params.upgradeV5_3 then st.getHashAtHeight (nHeight - 1)
        else params.hashGenesisBlock
  payee.map fun payee => [⟨params.masternodeReward nHeight, payee⟩]

/-- The share of the operator. -/
def operatorReward (dmn : DeterministicMN) (masternodeReward : Int) : Int :=
  if dmn.nOperatorReward ≠ 0 ∧ dmn.pdmnState.scriptOperatorPayout ≠ [] then
    (masternodeReward * dmn.nOperatorReward.toNat).tdiv 10000
  else 0

def getMasternodeTxOuts : Option (List TxOut) :=
  if st.legacyMNObsolete nHeight then
    let masternodeReward := params.masternodeReward nHeight
    st.mnList.getMNPayee.map fun dmnPayee =>
      let operatorReward := operatorReward dmnPayee masternodeReward
      let masternodeReward := masternodeReward - operatorReward
      (if 0 < masternodeReward then [⟨masternodeReward, dmnPayee.pdmnState.scriptPayout⟩] else []) ++
        if 0 < operatorReward then [⟨operatorReward, dmnPayee.pdmnState.scriptOperatorPayout⟩]
        else []
  else getLegacyMasternodeTxOut params st nHeight

/-! ### Making a block -/

/-- The outputs of the two transactions that pay. -/
structure Payouts where
  coinbase : List TxOut
  coinstake : List TxOut
  deriving Repr, DecidableEq

/-- Take an amount from the output at an index. -/
def subtractAt (i : Nat) (nAmount : Int) (vout : List TxOut) : List TxOut :=
  vout.modify i fun out => { out with nValue := out.nValue - nAmount }

def subtractMnPaymentFromCoinstake (masternodePayment : Int) (stakerOuts : Nat)
    (vout : List TxOut) : Outcome (List TxOut) := do
  assert (decide (2 ≤ stakerOuts)) "stakerOuts >= 2"
  if stakerOuts = 2 then .ok (subtractAt 1 masternodePayment vout)
  else
    let outputs := stakerOuts - 1
    let mnPaymentSplit := masternodePayment.tdiv outputs
    let mnPaymentRemainder := masternodePayment - mnPaymentSplit * outputs
    let vout := (List.range' 1 outputs).foldl (fun vout j => subtractAt j mnPaymentSplit vout) vout
    .ok (subtractAt outputs mnPaymentRemainder vout)

/-- `CBudgetManager::FillBlockPayee`; none when there is no budget payment to make. -/
def fillBudgetPayee (fProofOfStake : Bool) (txs : Payouts) : Option Payouts :=
  if nHeight ≤ 0 then none
  else
    (st.budgetman.getPayeeAndAmount nHeight).map fun (payee, nAmount) =>
      let fPayCoinstake := fProofOfStake && !networkUpgradeActive nHeight params.upgradeV6_0
      if fProofOfStake then
        if fPayCoinstake then { txs with coinstake := txs.coinstake ++ [⟨nAmount, payee⟩] }
        else { txs with coinbase := [⟨nAmount, payee⟩] }
      else
        { txs with
          coinbase := (txs.coinbase.take 1).map
            (fun out => { out with nValue := params.getBlockValue nHeight }) ++ [⟨nAmount, payee⟩] }

/-- `CMasternodePayments::FillBlockPayee`. -/
def fillMasternodePayee (fProofOfStake : Bool) (txs : Payouts) : Outcome Payouts :=
  match getMasternodeTxOuts params st nHeight with
  | none => .ok txs
  | some vecMnOuts => do
    let fPayCoinstake := fProofOfStake && !networkUpgradeActive nHeight params.upgradeV6_0
    let masternodePayment := (vecMnOuts.map TxOut.nValue).sum
    -- a proof-of-stake block that pays in its coinbase has only the payments there
    let coinbase := if fProofOfStake && !fPayCoinstake then [] else txs.coinbase
    let coinbase := if fPayCoinstake then coinbase else coinbase ++ vecMnOuts
    let coinstake := if fPayCoinstake then txs.coinstake ++ vecMnOuts else txs.coinstake
    if fProofOfStake then
      let coinstake ←
        subtractMnPaymentFromCoinstake masternodePayment txs.coinstake.length coinstake
      .ok ⟨coinbase, coinstake⟩
    else
      .ok ⟨coinbase.modify 0 fun out =>
        { out with nValue := params.getBlockValue nHeight - masternodePayment }, coinstake⟩

def fillBlockPayee (fProofOfStake : Bool) (txs : Payouts) : Outcome Payouts :=
  match (if st.spork13 then fillBudgetPayee params st nHeight fProofOfStake txs else none) with
  | some txs => .ok txs
  | none => fillMasternodePayee params st nHeight fProofOfStake txs

/-- The outputs of a proof-of-stake block, from those of the staker. -/
def solveProofOfStake (coinstake : List TxOut) : Outcome Payouts :=
  fillBlockPayee params st nHeight true ⟨[⟨0, []⟩], coinstake⟩

/-- The outputs of a proof-of-work block; the first one also gets the fees. -/
def createCoinbaseTx (scriptPubKey : Script) (nFees : Int) : Outcome Payouts := do
  let txs ← fillBlockPayee params st nHeight false ⟨[⟨0, scriptPubKey⟩], []⟩
  let coinbase :=
    if txs.coinbase.length = 1 then
      txs.coinbase.modify 0 fun out => { out with nValue := params.getBlockValue nHeight }
    else txs.coinbase
  .ok { txs with
    coinbase := coinbase.modify 0 fun out => { out with nValue := out.nValue + nFees } }

/-! ### Checking a block -/

/-- The verdict on the minted amount, and the budget amount of a superblock (or zero). -/
def isBlockValueValid (nHeight nExpectedValue nMinted : Int) : Bool × Int :=
  let within (nExpectedValue : Int) : Bool :=
    (!networkUpgradeActive nHeight params.upgradeV5_3 || decide (0 ≤ nMinted)) &&
      decide (nMinted ≤ nExpectedValue)
  if !st.isSynced then
    if nHeight.tmod params.nBudgetCycleBlocks < 100 then
      if params.isTestnet then (true, 0)
      else (within (nExpectedValue + params.getTotalBudget nHeight), 0)
    else (within nExpectedValue, 0)
  else
    match (if st.spork13 then st.budgetman.getPayeeAndAmount nHeight else none) with
    | some (_, nBudgetAmt) => (within (nExpectedValue + nBudgetAmt), nBudgetAmt)
    | none => (within nExpectedValue, 0)

/-- `CMasternodePayments::IsTransactionValid`. -/
def isMasternodePaid (nBlockHeight : Int) (vout : List TxOut) : Check Bool :=
  if st.legacyMNObsolete nBlockHeight then
    match getMasternodeTxOuts params st nBlockHeight with
    | none => pure true
    | some vecMnOuts => pure (vecMnOuts.all fun o => decide (o ∈ vout))
  else
    match st.mapMasternodeBlocks.blocks[nBlockHeight]? with
    | none => pure true
    | some payees => do
      modify fun g => { g with nHeight_val := payees.nBlockHeight }
      pure (payees.isTransactionValid params vout)

/-- The outputs in which a block pays. -/
def paidOutputs (nBlockHeight : Int) (vtx : List Transaction) : Outcome (List TxOut) :=
  let fPayCoinstake := networkUpgradeActive nBlockHeight params.upgradePoS &&
    !networkUpgradeActive nBlockHeight params.upgradeV6_0
  match vtx[if fPayCoinstake then 1 else 0]? with
  | none => .error (.abort "block.vtx out of range")
  | some txNew => .ok txNew.vout

/-- The check of the budget payment, in a superblock. -/
def isBudgetPaid (nBlockHash : Uint256) (nBlockHeight : Int) (vout : List TxOut) :
    Check TrxValidationStatus := do
  let g ← get
  let (status, history) := st.budgetman.isTransactionValid (fun h => (st.activeHeight h).isSome)
    vout nBlockHash nBlockHeight g.history
  modify fun g => { g with history := history }
  pure status

/-- The check of the masternode payment, which may not be enforced. -/
def isMasternodePaidOrNotEnforced (nBlockHeight : Int) (vout : List TxOut) : Check Bool := do
  let paid ← isMasternodePaid params st nBlockHeight vout
  pure (paid || !st.spork8)

def isBlockPayeeValid (nBlockHash : Uint256) (vtx : List Transaction) (nBlockHeight : Int) :
    Check Bool :=
  if !st.isSynced then pure true
  else do
    let vout ← Prog.ofExcept (paidOutputs params nBlockHeight vtx)
    if st.spork13 && st.budgetman.isBudgetPaymentBlock nBlockHeight then do
      let status ← isBudgetPaid st nBlockHash nBlockHeight vout
      if status = .valid then pure true
      else if status = .inValid ∧ st.spork9 = true then pure false
      else isMasternodePaidOrNotEnforced params st nBlockHeight vout
    else isMasternodePaidOrNotEnforced params st nBlockHeight vout

def isCoinbaseValueValid (tx : Transaction) (nBudgetAmt : Int) : Check Unit := do
  let g ← get
  Prog.ofExcept (assert tx.isCoinBase "tx->IsCoinBase()")
  if st.isSynced then do
    let nCBaseOutAmt ← Prog.ofExcept tx.getValueOut
    if 0 < nBudgetAmt then
      Prog.ofExcept (rejectIf (decide (nCBaseOutAmt ≠ nBudgetAmt)) "bad-superblock-cb-amt")
    else do
      let nMnAmt := params.masternodeReward g.nHeight_val
      Prog.ofExcept (rejectIf (st.spork8 && decide (nCBaseOutAmt ≠ nMnAmt)) "bad-cb-amt")
      Prog.ofExcept
        (rejectIf (!st.spork8 && decide (nMnAmt < nCBaseOutAmt)) "bad-cb-amt-spork8-disabled")
  else pure ()

/-- The checks of `ConnectBlock` on what a block pays. -/
def checkBlockPayments (fInitialBlockDownload isPoSBlock : Bool) (nBlockHash : Uint256)
    (vtx : List Transaction) (nHeight nFees nMint : Int) : Check Unit := do
  let nExpectedMint := params.getBlockValue nHeight + if isPoSBlock then 0 else nFees
  let (valid, nBudgetAmt) := isBlockValueValid params st nHeight nExpectedMint nMint
  Prog.ofExcept (rejectIf (!valid) "bad-blk-amount")
  Prog.onlyWhen (!fInitialBlockDownload) do
    let valid ← isBlockPayeeValid params st nBlockHash vtx nHeight
    Prog.ofExcept (rejectIf (!valid) "bad-cb-payee")
  Prog.onlyWhen (isPoSBlock && networkUpgradeActive nHeight params.upgradeV6_0) do
    match vtx with
    | [] => throw (.abort "block.vtx out of range")
    | coinbase :: _ => isCoinbaseValueValid params st coinbase nBudgetAmt

end

end KmushiCoin
