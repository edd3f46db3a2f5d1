import KmushiCoin.Budget.Votes
import KmushiCoin.Evo.Serialization
import KmushiCoin.Validation.CheckTransaction

/-!
# KmushiCoin.Budget.Objects

**Proposals and finalized budgets** with the checks they pass before they are stored: their own
form, their age, and the **collateral**, a confirmed transaction with an output that burns the fee
and names the hash of the object.

* `checkCollateral` takes the transaction from its id. Nothing asks whether another object has the
  same one, and a transaction may name several objects.
* `getBudget` picks the proposals that are to be paid, `checkProposals` compares a finalized budget
  with them.

A check returns the reason of a failure. The texts that are only shown (`strProposals`, `nAllotted`
and the like) are left out.
-/

namespace KmushiCoin

open Codec (Bytes)

/-! ### What is given -/

/-- Constants of the network, and what is hashed or parsed by code that is not modelled. -/
structure BudgetEnv where
  params : ConsensusParams
  nMaxProposalPayments : Int
  nBudgetFeeConfirmations : Int
  nProposalEstablishmentTime : Int
  crypto : VoteCrypto
  /-- The hash of name, URL, first and last block, amount and address. -/
  proposalHash : String → String → Int → Int → Int → Script → Uint256
  finalizedBudgetHash : String → Int → List TxBudgetPayment → Uint256
  /-- `ExtractDestination`, and `IsValidDestination` of what it finds. -/
  destination : Script → Option Bool

/-- What a collateral transaction is asked for. -/
structure CollateralTx where
  nLockTime : UInt32
  vout : List TxOut
  deriving Repr, DecidableEq

/-- What the block of a collateral is asked for. -/
structure CollateralBlock where
  nHeight : Int
  nTime : Int
  inActiveChain : Bool
  deriving Repr, DecidableEq

/-- What a node knows when it handles a budget object. -/
structure BudgetContext extends VoteContext where
  nBestHeight : Int
  adjustedTime : Int
  /-- `mnodeman.CountEnabled(ActiveProtocol())`. -/
  nCountEnabled : Nat
  /-- `GetTransaction`: the transaction and the hash of its block. -/
  getTransaction : Uint256 → Option (CollateralTx × Uint256)
  /-- `mapBlockIndex`. -/
  blockIndex : Uint256 → Option CollateralBlock
  /-- The vote of this node on a finalized budget, if it is a masternode and has its turn; `none`
  as a result if signing fails. -/
  ownVote : Option (Uint256 → Option FinalizedBudgetVote)
  /-- `strBudgetMode == "auto"`. -/
  budgetModeAuto : Bool

/-- A stored vote and whether it counts. -/
structure CountedVote where
  vote : BudgetVote
  fValid : Bool := true
  deriving Repr, DecidableEq

/-- `CBudgetProposal`. -/
structure BudgetProposal where
  strProposalName : String
  strURL : String
  nBlockStart : Int
  nBlockEnd : Int
  address : Script
  nAmount : Int
  nFeeTXHash : Uint256
  nTime : Int
  mapVotes : FMap OutPoint CountedVote := ∅
  fValid : Bool := true

/-- `CFinalizedBudget`. -/
structure BudgetFinalization where
  strBudgetName : String
  nBlockStart : Int
  vecBudgetPayments : List TxBudgetPayment
  nFeeTXHash : Uint256
  mapVotes : FMap OutPoint FinalizedBudgetVote := ∅
  fAutoChecked : Bool := false

/-! ### Proposals -/

namespace BudgetProposal

variable (env : BudgetEnv) (ctx : BudgetContext) (p : BudgetProposal)

def getHash : Uint256 :=
  env.proposalHash p.strProposalName p.strURL p.nBlockStart p.nBlockEnd p.nAmount p.address

/-- The votes of a direction that count. -/
def getVoteCount (nVote : UInt32) : Nat :=
  p.mapVotes.countP fun _ v => decide (v.vote.nVote = nVote) && v.fValid

def getYeas : Nat := p.getVoteCount 1

def getNays : Nat := p.getVoteCount 2

def getBlockCycle (nHeight : Int) : Int := nHeight - nHeight.tmod env.params.nBudgetCycleBlocks

def getTotalPaymentCount : Int :=
  (p.nBlockEnd - getBlockCycle env p.nBlockStart).tdiv env.params.nBudgetCycleBlocks

def checkStartEnd : Except String Unit :=
  let fNewRules := networkUpgradeActive p.nBlockStart env.params.upgradeV5_0
  if p.nBlockStart < 0 ∨
      (fNewRules ∧ p.nBlockStart.tmod env.params.nBudgetCycleBlocks ≠ 0) then
    .error "Invalid nBlockStart"
  else if p.nBlockEnd < p.nBlockStart then .error "Invalid nBlockEnd (end before start)"
  else if fNewRules ∧ p.getTotalPaymentCount env > env.nMaxProposalPayments then
    .error "Invalid payment count"
  else .ok ()

def checkAmount (nTotalBudget : Int) : Except String Unit :=
  if p.nAmount < 10 * COIN then .error "Invalid nAmount (too low)"
  else if p.nAmount > nTotalBudget then .error "Invalid nAmount (too high)"
  else .ok ()

/-- `OP_HASH160 <20 bytes> OP_EQUAL`. -/
def isPayToScriptHash (s : Script) : Bool :=
  s.length == 23 && s[0]? == some 0xa9 && s[1]? == some 0x14 && s[22]? == some 0x87

def checkAddress : Except String Unit :=
  if isPayToScriptHash p.address then .error "Multisig is not currently supported."
  else match env.destination p.address with
    | none => .error "Invalid script"
    | some false => .error "Invalid recipient address"
    | some true => .ok ()

def isWellFormed (nTotalBudget : Int) : Except String Unit := do
  p.checkStartEnd env
  p.checkAmount nTotalBudget
  p.checkAddress env

def isHeavilyDownvoted (fNewRules : Bool) : Bool :=
  decide ((p.getNays - p.getYeas : Int) >
    ((if fNewRules then 3 else 1) * (ctx.nCountEnabled : Int)).tdiv 10)

def isExpired (nCurrentHeight : Int) : Bool := decide (p.nBlockEnd < nCurrentHeight)

/-- The proposal, marked as valid, unless it is voted down or expired. -/
def updateValid (nCurrentHeight : Int) : Except String BudgetProposal :=
  let fNewRules := networkUpgradeActive nCurrentHeight env.params.upgradeV5_0
  -- never kill a proposal before the first superblock
  if (!fNewRules || decide (nCurrentHeight > p.nBlockStart)) &&
      p.isHeavilyDownvoted ctx fNewRules then .error "Heavily Downvoted"
  else if p.isExpired nCurrentHeight then .error "Proposal expired"
  else .ok { p with fValid := true }

def isEstablished : Bool := decide (p.nTime < ctx.adjustedTime - env.nProposalEstablishmentTime)

def isPassing (nBlockStartBudget nBlockEndBudget : Int) (mnCount : Nat) : Bool :=
  p.fValid && decide (p.nBlockStart ≤ nBlockStartBudget) && decide (nBlockEndBudget ≤ p.nBlockEnd) &&
    decide (((mnCount / 10 : Nat) : Int) < (p.getYeas - p.getNays : Int)) && p.isEstablished env ctx

/-- Whether the voter is a valid masternode now. -/
def voterValid (o : OutPoint) : Bool :=
  match ctx.mnList.getMNByCollateral ctx.serializeHash o with
  | some dmn => DeterministicMNList.isMNValid dmn
  | none => (ctx.findMasternode o).any LegacyVoter.isEnabled

/-- `RemoveStaleVotesOnProposal`. -/
def removeStaleVotes : BudgetProposal :=
  { p with mapVotes := p.mapVotes.map fun o v => { v with fValid := voterValid ctx o } }

/-- The number that the comparison of fee hashes works on. -/
def arithFee : Nat := Codec.ofLE (putUint256 p.nFeeTXHash)

/-- `PtrHigherYes`. -/
def higherYes (a b : BudgetProposal) : Bool :=
  let netYesA : Int := a.getYeas - a.getNays
  let netYesB : Int := b.getYeas - b.getNays
  if netYesA = netYesB then decide (a.arithFee > b.arithFee) else decide (netYesA > netYesB)

end BudgetProposal

/-- The loop of `GetBudget`: take what passes and still fits the total. -/
def allot (env : BudgetEnv) (ctx : BudgetContext) (nBlockStart nBlockEnd nTotalBudget : Int) :
    Int → List BudgetProposal → List BudgetProposal
  | _, [] => []
  | nBudgetAllocated, p :: ps =>
    if p.isPassing env ctx nBlockStart nBlockEnd ctx.nCountEnabled &&
        decide (wrap64 (p.nAmount + nBudgetAllocated) ≤ nTotalBudget) then
      p :: allot env ctx nBlockStart nBlockEnd nTotalBudget (wrap64 (nBudgetAllocated + p.nAmount)) ps
    else allot env ctx nBlockStart nBlockEnd nTotalBudget nBudgetAllocated ps

/-- `GetBudget`: the proposals to be paid in the next cycle, and the proposals with their votes
checked again. Proposals with the same votes and the same fee stay in the order of their hashes. -/
def getBudget (env : BudgetEnv) (ctx : BudgetContext) (mapProposals : FMap Uint256 BudgetProposal) :
    List BudgetProposal × FMap Uint256 BudgetProposal :=
  let nHeight := ctx.nBestHeight
  if nHeight ≤ 0 then ([], mapProposals)
  else
    let mapProposals : FMap Uint256 BudgetProposal :=
      mapProposals.map fun _ p => p.removeStaleVotes ctx
    let vBudgetProposalsSort :=
      (mapProposals.toList.map Prod.snd).mergeSort fun a b => !b.higherYes a
    let nBlocksPerCycle := env.params.nBudgetCycleBlocks
    let nBlockStart := nHeight - nHeight.tmod nBlocksPerCycle + nBlocksPerCycle
    let nBlockEnd := nBlockStart + nBlocksPerCycle - 1
    (allot env ctx nBlockStart nBlockEnd (env.params.getTotalBudget nBlockStart) 0
      vBudgetProposalsSort, mapProposals)

/-- The winning proposals by their hashes. -/
def winningProposals (env : BudgetEnv) (vBudget : List BudgetProposal) :
    FMap Uint256 BudgetProposal :=
  vBudget.foldl (fun m p => m.insertIfNew (p.getHash env) p) ∅

/-! ### Finalized budgets -/

namespace BudgetFinalization

variable (env : BudgetEnv) (b : BudgetFinalization)

def getHash : Uint256 := env.finalizedBudgetHash b.strBudgetName b.nBlockStart b.vecBudgetPayments

def getBlockEnd : Int := b.nBlockStart + (b.vecBudgetPayments.length - 1)

def getTotalPayout : Int := b.vecBudgetPayments.foldl (fun ret p => wrap64 (ret + p.nAmount)) 0

def checkStartEnd : Except String Unit :=
  if b.nBlockStart = 0 then .error "Invalid BlockStart == 0"
  else if b.nBlockStart.tmod env.params.nBudgetCycleBlocks ≠ 0 then .error "Invalid BlockStart"
  else if b.getBlockEnd - b.nBlockStart > 100 then .error "Invalid BlockEnd"
  else if b.vecBudgetPayments.length > 100 then
    .error "Invalid budget payments count (too many)"
  else .ok ()

def checkAmount (nTotalBudget : Int) : Except String Unit :=
  if b.getTotalPayout > nTotalBudget then .error "Invalid Payout (more than max)" else .ok ()

def checkName : Except String Unit :=
  if b.strBudgetName = "" then .error "Invalid Budget Name" else .ok ()

def isWellFormed (nTotalBudget : Int) : Except String Unit := do
  b.checkStartEnd env
  b.checkAmount nTotalBudget
  b.checkName

/-- A budget expires when a superblock has passed after its last payment. -/
def updateValid (nCurrentHeight : Int) : Except String BudgetFinalization :=
  let nLastSuperBlock := nCurrentHeight - nCurrentHeight.tmod env.params.nBudgetCycleBlocks
  if b.getBlockEnd < nLastSuperBlock then .error "(ends at block %ld) too old and obsolete"
  else .ok b

def checkProposals (mapWinningProposals : FMap Uint256 BudgetProposal) : Bool :=
  !mapWinningProposals.isEmpty &&
    decide (mapWinningProposals.size = b.vecBudgetPayments.length) &&
    b.vecBudgetPayments.all fun payment =>
      match mapWinningProposals[payment.nProposalHash]? with
      | none => false
      | some prop => decide (payment.payee = prop.address) && decide (payment.nAmount = prop.nAmount)

end BudgetFinalization

/-! ### Collaterals -/

def proposalFeeTx : Int := 50 * COIN

def budgetFeeTx : Int := 5 * COIN

/-- `OP_RETURN <hash>`. -/
def collateralScript (nExpectedHash : Uint256) : Script :=
  0x6a :: 0x20 :: putUint256 nExpectedHash

/-- Go through the outputs up to the one that burns the fee for the object. -/
def findOpReturn (findScript : Script) (nFee : Int) : List TxOut → Except String Bool
  | [] => .ok false
  | o :: vout =>
    if !o.scriptPubKey.isPayToPublicKeyHash && !o.scriptPubKey.isUnspendable then
      .error "Invalid Script %s"
    else if o.scriptPubKey = findScript ∧ nFee ≤ o.nValue then .ok true
    else findOpReturn findScript nFee vout

def checkCollateralConfs (env : BudgetEnv) (nCurrentHeight nProposalHeight : Int) :
    Except String Unit :=
  if nCurrentHeight - nProposalHeight + 1 < env.nBudgetFeeConfirmations then
    .error "Collateral requires at least %d confirmations - %d confirmations"
  else .ok ()

/-- `CheckCollateral`: the time of the block that has the collateral. -/
def checkCollateral (env : BudgetEnv) (ctx : BudgetContext) (nTxCollateralHash : Uint256)
    (nExpectedHash : Uint256) (nCurrentHeight nFee : Int) : Except String Int :=
  match ctx.getTransaction nTxCollateralHash with
  | none => .error "Can't find collateral tx %s"
  | some (txCollateral, nBlockHash) =>
    if txCollateral.vout.length < 1 then .error ""
    else if txCollateral.nLockTime ≠ 0 then .error ""
    else do
      let foundOpReturn ← findOpReturn (collateralScript nExpectedHash) nFee txCollateral.vout
      if !foundOpReturn then .error "Couldn't find opReturn %s in %s"
      else if nBlockHash = 0 then .error "Collateral transaction %s is unconfirmed"
      else
        match ctx.blockIndex nBlockHash with
        | none => .error "Collateral transaction %s not in Active chain"
        | some block =>
          if !block.inActiveChain || block.nHeight = 0 then
            .error "Collateral transaction %s not in Active chain"
          else do
            checkCollateralConfs env nCurrentHeight block.nHeight
            pure block.nTime

end KmushiCoin
