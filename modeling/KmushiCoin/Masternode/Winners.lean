import KmushiCoin.Lib.Runs
import KmushiCoin.Masternode.Man
import KmushiCoin.Masternode.PaymentChecks

/-!
# KmushiCoin.Masternode.Winners

The **votes of legacy masternodes** for the payee of a block: the `mnw` messages, the vote of
the node's own masternode, and the votes that are kept.

* A vote is stored under the hash of payee, height and voter (`mapMasternodePayeeVotes`) and
  counted for its payee (`mapMasternodeBlocks`). Counting is exact: what a payee has is the
  number of stored votes for it, in every run (`VotesInv.counted`).
* `CanVote` keeps **one height per voter**, the last one, and writes it before the message is
  authenticated. So a voter can come back to a height after voting for another one, and a forged
  message takes the place of the genuine one.
-/

namespace KmushiCoin

open FMap MasternodePayee List Option

open Codec (Bytes)

/-! ### Votes for one height -/

namespace MasternodeBlockPayees

/-- Add to the first entry of the payee, or make one. -/
def addVotes (payeeIn : Script) (nIncrement : Int) : List MasternodePayee → List MasternodePayee
  | [] => [⟨payeeIn, nIncrement⟩]
  | payee :: payees =>
    if payee.scriptPubKey = payeeIn then { payee with nVotes := payee.nVotes + nIncrement } :: payees
    else payee :: addVotes payeeIn nIncrement payees

def addPayee (p : MasternodeBlockPayees) (payeeIn : Script) (nIncrement : Int) :
    MasternodeBlockPayees :=
  { p with vecPayments := addVotes payeeIn nIncrement p.vecPayments }

/-- The votes of a list of payees for a script. -/
def votesIn (payees : List MasternodePayee) (s : Script) : Int :=
  ((payees.filter fun payee => decide (payee.scriptPubKey = s)).map nVotes).sum

theorem votesIn_cons (payee : MasternodePayee) (payees : List MasternodePayee) (s : Script) :
    votesIn (payee :: payees) s =
      (if payee.scriptPubKey = s then payee.nVotes else 0) + votesIn payees s := by
  by_cases h : payee.scriptPubKey = s <;> simp [votesIn, h]

theorem votesIn_addVotes (payeeIn s : Script) (n : Int) (payees : List MasternodePayee) :
    votesIn (addVotes payeeIn n payees) s = votesIn payees s + if payeeIn = s then n else 0 := by
  induction payees with
  | nil =>
    rw [addVotes, votesIn_cons]
    simp [votesIn]
  | cons payee payees ih =>
    unfold addVotes
    split_ifs with heq hs hs
    · simp [votesIn_cons, heq, hs]
      omega
    · simp [votesIn_cons, heq, hs]
    · rw [votesIn_cons, votesIn_cons, ih, if_pos hs]
      omega
    · rw [votesIn_cons, votesIn_cons, ih, if_neg hs]
      omega

/-- A payee has one entry. -/
theorem nodup_addVotes (payeeIn : Script) (n : Int) {payees} (h : (payees.map scriptPubKey).Nodup) :
    ((addVotes payeeIn n payees).map scriptPubKey).Nodup ∧
      ∀ s, s ∈ (addVotes payeeIn n payees).map scriptPubKey →
        s = payeeIn ∨ s ∈ payees.map scriptPubKey := by
  induction payees with
  | nil => simp [addVotes]
  | cons payee payees ih =>
    obtain ⟨hnot, htail⟩ := nodup_cons.mp h
    obtain ⟨hnodup, hmem⟩ := ih htail
    unfold addVotes
    split_ifs with heq
    · exact ⟨h, fun s hs => .inr hs⟩
    · refine ⟨nodup_cons.mpr ⟨fun hin => ?_, hnodup⟩, fun s hs => ?_⟩
      · exact (hmem _ hin).elim heq hnot
      · rcases mem_cons.mp hs with rfl | hs
        · exact .inr (.head _)
        · exact (hmem s hs).imp_right (mem_cons_of_mem _)

end MasternodeBlockPayees

namespace MasternodeBlocks

variable (b : MasternodeBlocks)

/-- The votes of the payees for a height, none at first. -/
def get (nBlockHeight : Int) : MasternodeBlockPayees :=
  (b.blocks[nBlockHeight]?).getD ⟨nBlockHeight, []⟩

theorem get_height (h : Int) : (b.get h).nBlockHeight = h := by
  unfold get
  cases hb : b.blocks[h]? with
  | none => rfl
  | some p => exact b.height hb

def addPayee (b : MasternodeBlocks) (nBlockHeight : Int) (payee : Script) : MasternodeBlocks where
  blocks := b.blocks.insert nBlockHeight ((b.get nBlockHeight).addPayee payee 1)
  height := by
    intro h p hp
    rw [get_insert] at hp
    split_ifs at hp with heq
    · rw [← Option.some.inj hp, ← heq]
      exact b.get_height nBlockHeight
    · exact b.height hp

def erase (b : MasternodeBlocks) (nBlockHeight : Int) : MasternodeBlocks where
  blocks := b.blocks.erase nBlockHeight
  height := by
    intro h p hp
    rw [get_erase] at hp
    split_ifs at hp
    exact b.height hp

/-- The votes for a payee at a height. -/
def votesFor (nBlockHeight : Int) (payee : Script) : Int :=
  MasternodeBlockPayees.votesIn (b.get nBlockHeight).vecPayments payee

@[simp] theorem votesFor_empty (h : Int) (s : Script) : empty.votesFor h s = 0 := by
  simp [votesFor, empty, get, MasternodeBlockPayees.votesIn]

theorem votesFor_addPayee (h h' : Int) (s s' : Script) :
    (b.addPayee h s).votesFor h' s' = b.votesFor h' s' + if h = h' ∧ s = s' then 1 else 0 := by
  by_cases hh : h = h'
  · subst hh
    simp [votesFor, get, addPayee, MasternodeBlockPayees.addPayee,
      MasternodeBlockPayees.votesIn_addVotes]
  · simp [votesFor, get, addPayee, get_insert_ne hh, hh]

theorem votesFor_erase (h h' : Int) (s : Script) :
    (b.erase h).votesFor h' s = if h = h' then 0 else b.votesFor h' s := by
  by_cases hh : h = h'
  · subst hh
    simp [votesFor, get, erase, MasternodeBlockPayees.votesIn]
  · simp [votesFor, get, erase, get_erase_ne hh, hh]

end MasternodeBlocks

/-! ### The messages and the state -/

/-- A vote (`CMasternodePaymentWinner`). -/
structure MasternodePaymentWinner where
  /-- The collateral of the voter. -/
  vinMasternode : OutPoint
  nBlockHeight : Int
  payee : Script
  vchSig : Bytes
  nMessVersion : MessageVersion
  deriving Repr, DecidableEq

def mnPaymentsSignaturesTotal : Int := 10

/-- What is hashed and verified by code that is not modelled. -/
structure WinnerCrypto where
  /-- The hash of payee, height and voter. -/
  hash : Script → Int → OutPoint → Uint256
  /-- The hash of the text message with the same data. -/
  messageHash : Script → Int → OutPoint → Uint256
  verifyHash : Uint256 → KeyID → Bytes → Bool

/-- What a node knows when a message arrives. -/
structure WinnerContext where
  isBlockchainSynced : Bool
  fLiteMode : Bool
  /-- `LegacyMNObsolete()`. -/
  legacyMNObsolete : Bool
  /-- Whether the version of the peer is at least `ActiveProtocol()`. -/
  peerActive : Bool
  /-- `mnodeman.GetBestHeight()`. -/
  nBestHeight : Int
  countEnabled : Nat
  /-- The rank of a masternode for the block at a height, `-1` for none. -/
  getMasternodeRank : OutPoint → Int → Int
  /-- The operator key of the deterministic masternode with a collateral. -/
  operatorKey : OutPoint → Option KeyID
  /-- The key of the legacy masternode with a collateral. -/
  legacyKey : OutPoint → Option KeyID

/-- `CMasternodePayments`. -/
structure WinnersState where
  mapMasternodePayeeVotes : FMap Uint256 MasternodePaymentWinner := ∅
  mapMasternodeBlocks : MasternodeBlocks := .empty
  /-- The height of the last vote of each masternode. -/
  mapMasternodesLastVote : FMap OutPoint Int := ∅
  /-- The height of the last vote of the node's own masternode. -/
  nLastBlockHeight : Int := 0

/-- What became of a message. -/
inductive WinnerResult
  | skipped
  | alreadySeen
  | outOfRange
  | oldVersion
  | invalid
  | alreadyVoted
  | unknownMasternode
  | badSignature
  | notAdded
  | accepted
  deriving Repr, DecidableEq

section
variable (params : NetworkParams) (crypto : WinnerCrypto)

namespace MasternodePaymentWinner

def getHash (winner : MasternodePaymentWinner) : Uint256 :=
  crypto.hash winner.payee winner.nBlockHeight winner.vinMasternode

def isValid (ctx : WinnerContext) (winner : MasternodePaymentWinner) (chainHeight : Int) : Bool :=
  let n := ctx.getMasternodeRank winner.vinMasternode (winner.nBlockHeight - 100)
  let guard := networkUpgradeActive chainHeight params.upgradeV5_3
  if (guard && decide (n < 1)) || decide (mnPaymentsSignaturesTotal < n) then false
  else !(guard && !Script.isPayToPublicKeyHash winner.payee)

def checkSignature (winner : MasternodePaymentWinner) (keyID : KeyID) : Bool :=
  match winner.nMessVersion with
  | .hash => crypto.verifyHash (winner.getHash crypto) keyID winner.vchSig
  | .strmess =>
    crypto.verifyHash
      (crypto.messageHash winner.payee winner.nBlockHeight winner.vinMasternode) keyID winner.vchSig

end MasternodePaymentWinner

namespace WinnerContext

/-- The first height of which votes are taken: `nHeight - (CountEnabled() * 1.25)`, as a double
that is cut to an integer. -/
def nFirstBlock (ctx : WinnerContext) : Int := (4 * ctx.nBestHeight - 5 * ctx.countEnabled).tdiv 4

/-- The key of a voter: of the deterministic masternode, or else of the legacy one. -/
def mnKeyID (ctx : WinnerContext) (collateral : OutPoint) : Option KeyID :=
  match ctx.operatorKey collateral with
  | some key => some key
  | none => ctx.legacyKey collateral

end WinnerContext

namespace WinnersState

/-- Put the height on record as the one of the masternode's last vote. -/
def recordVote (st : WinnersState) (outMasternode : OutPoint) (nBlockHeight : Int) :
    WinnersState :=
  { st with
    mapMasternodesLastVote := st.mapMasternodesLastVote.insert outMasternode nBlockHeight }

/-- Whether the masternode may vote for the height; if so, the height goes on record. -/
def canVote (st : WinnersState) (outMasternode : OutPoint) (nBlockHeight : Int) :
    Bool × WinnersState :=
  if st.mapMasternodesLastVote[outMasternode]? = some nBlockHeight then (false, st)
  else (true, st.recordVote outMasternode nBlockHeight)

/-- Store and count a vote; none when it is refused. -/
def addWinningMasternode (nBestHeight : Int) (st : WinnersState)
    (winnerIn : MasternodePaymentWinner) : Option WinnersState :=
  if nBestHeight + 1 < winnerIn.nBlockHeight - 100 then none
  else if (st.mapMasternodePayeeVotes[winnerIn.getHash crypto]?).isSome then none
  else
    some { st with
      mapMasternodePayeeVotes :=
        st.mapMasternodePayeeVotes.insert (winnerIn.getHash crypto) winnerIn
      mapMasternodeBlocks := st.mapMasternodeBlocks.addPayee winnerIn.nBlockHeight winnerIn.payee }

/-- The checks of a message before the vote goes on record; the reason of a refusal. -/
def checkWinner (ctx : WinnerContext) (st : WinnersState) (winner : MasternodePaymentWinner) :
    Option WinnerResult :=
  if !ctx.isBlockchainSynced || ctx.fLiteMode || ctx.legacyMNObsolete then some .skipped
  else if !ctx.peerActive then some .skipped
  else if (st.mapMasternodePayeeVotes[winner.getHash crypto]?).isSome then some .alreadySeen
  else if winner.nBlockHeight < ctx.nFirstBlock ∨ ctx.nBestHeight + 20 < winner.nBlockHeight then
    some .outOfRange
  else if winner.nMessVersion ≠ .hash then some .oldVersion
  else if !winner.isValid params ctx ctx.nBestHeight then some .invalid
  else none

/-- The rest: find the key of the voter, check the signature, store the vote. -/
def authenticateWinner (ctx : WinnerContext) (st : WinnersState)
    (winner : MasternodePaymentWinner) : WinnerResult × WinnersState :=
  match ctx.mnKeyID winner.vinMasternode with
  | none => (.unknownMasternode, st)
  | some mnKeyID =>
    if !winner.checkSignature crypto mnKeyID then (.badSignature, st)
    else
      match st.addWinningMasternode crypto ctx.nBestHeight winner with
      | none => (.notAdded, st)
      | some st => (.accepted, st)

/-- An `mnw` message (`ProcessMessageMasternodePayments`). -/
def processWinner (ctx : WinnerContext) (st : WinnersState) (winner : MasternodePaymentWinner) :
    WinnerResult × WinnersState :=
  match st.checkWinner params crypto ctx winner with
  | some refusal => (refusal, st)
  | none =>
    match st.canVote winner.vinMasternode winner.nBlockHeight with
    | (false, st) => (.alreadyVoted, st)
    | (true, st) => st.authenticateWinner crypto ctx winner

/-- What the vote of the node's own masternode depends on. -/
structure OwnVote where
  legacyMNObsolete : Bool
  fMasterNode : Bool
  /-- The collateral of the active masternode, if there is one. -/
  mnVin : Option OutPoint
  nBestHeight : Int
  getMasternodeRank : OutPoint → Int → Int
  isBudgetPaymentBlock : Int → Bool
  /-- The payee script of the next masternode in the queue. -/
  getNextMasternodeInQueueForPayment : Int → Option Script
  /-- The signature of the vote; none when it cannot be made. -/
  sign : Script → Int → OutPoint → Option Bytes

/-- The vote that `ProcessBlock` makes, if it makes one. -/
def OwnVote.winner (own : OwnVote) (nLastBlockHeight nBlockHeight : Int) :
    Option MasternodePaymentWinner := do
  if own.legacyMNObsolete || !own.fMasterNode then none
  else
    let mnVin ← own.mnVin
    let n := own.getMasternodeRank mnVin (nBlockHeight - 100)
    if n = -1 ∨ mnPaymentsSignaturesTotal < n then none
    else if nBlockHeight ≤ nLastBlockHeight then none
    else if own.isBudgetPaymentBlock nBlockHeight then none
    else
      let payee ← own.getNextMasternodeInQueueForPayment nBlockHeight
      let vchSig ← own.sign payee nBlockHeight mnVin
      some ⟨mnVin, nBlockHeight, payee, vchSig, .hash⟩

/-- The vote of the node's own masternode; it does not go on the record of `CanVote`. -/
def processBlock (own : OwnVote) (st : WinnersState) (nBlockHeight : Int) : WinnersState :=
  match own.winner st.nLastBlockHeight nBlockHeight with
  | none => st
  | some newWinner =>
    match st.addWinningMasternode crypto own.nBestHeight newWinner with
    | none => st
    | some st => { st with nLastBlockHeight := nBlockHeight }

/-- Drop one vote, with all that is counted for its height. -/
def dropWinner (st : WinnersState) (hash : Uint256) (nBlockHeight : Int) : WinnersState :=
  { st with
    mapMasternodePayeeVotes := st.mapMasternodePayeeVotes.erase hash
    mapMasternodeBlocks := st.mapMasternodeBlocks.erase nBlockHeight }

/-- Drop the votes for old heights. -/
def cleanPaymentList (mnCount : Nat) (nHeight : Int) (st : WinnersState) : WinnersState :=
  let nLimit : Int := max (mnCount * 5 / 4) 1000
  st.mapMasternodePayeeVotes.toList.foldl
    (fun st e =>
      if nLimit < nHeight - e.2.nBlockHeight then st.dropWinner e.1 e.2.nBlockHeight else st) st

/-- Leave the votes in the file and read them back, or find the file unreadable. -/
def restart (readable : Bool) (st : WinnersState) : WinnersState :=
  if readable then
    { mapMasternodePayeeVotes := st.mapMasternodePayeeVotes
      mapMasternodeBlocks := st.mapMasternodeBlocks }
  else {}

/-- What can happen to the votes. -/
inductive Event
  | mnw (ctx : WinnerContext) (winner : MasternodePaymentWinner)
  | processBlock (own : OwnVote) (nBlockHeight : Int)
  | cleanPaymentList (mnCount : Nat) (nHeight : Int)
  | restart (readable : Bool)

def step (st : WinnersState) : Event → WinnersState
  | .mnw ctx winner => (st.processWinner params crypto ctx winner).2
  | .processBlock own nBlockHeight => st.processBlock crypto own nBlockHeight
  | .cleanPaymentList mnCount nHeight => st.cleanPaymentList mnCount nHeight
  | .restart readable => st.restart readable

end WinnersState

end

/-! ### What the calls do -/

namespace WinnersState

variable {nBestHeight nBlockHeight : Int} {crypto : WinnerCrypto} {st : WinnersState}
  {winner v : MasternodePaymentWinner}

section
variable {params : NetworkParams} {crypto : WinnerCrypto} {ctx : WinnerContext}
  {st st' : WinnersState} {winner : MasternodePaymentWinner}

theorem addWinningMasternode_inv (h : st.addWinningMasternode crypto nBestHeight winner = some st') :
    st.mapMasternodePayeeVotes[winner.getHash crypto]? = none ∧
      st' = { st with
        mapMasternodePayeeVotes :=
          st.mapMasternodePayeeVotes.insert (winner.getHash crypto) winner
        mapMasternodeBlocks := st.mapMasternodeBlocks.addPayee winner.nBlockHeight winner.payee } := by
  unfold addWinningMasternode at h
  split_ifs at h with hheight hseen
  exact ⟨by simpa using hseen, (some.inj h).symm⟩

/-- **The message goes on record**: it passes the checks that do not need the key of the voter,
and the last vote on record is not for its height. -/
structure Records (params : NetworkParams) (crypto : WinnerCrypto) (ctx : WinnerContext)
    (st : WinnersState) (winner : MasternodePaymentWinner) : Prop where
  active : ctx.isBlockchainSynced = true ∧ ctx.fLiteMode = false ∧ ctx.legacyMNObsolete = false ∧
    ctx.peerActive = true
  unseen : st.mapMasternodePayeeVotes[winner.getHash crypto]? = none
  inRange : ctx.nFirstBlock ≤ winner.nBlockHeight ∧ winner.nBlockHeight ≤ ctx.nBestHeight + 20
  version : winner.nMessVersion = .hash
  valid : winner.isValid params ctx ctx.nBestHeight = true
  lastVote : st.mapMasternodesLastVote[winner.vinMasternode]? ≠ some winner.nBlockHeight

theorem records_iff : Records params crypto ctx st winner ↔
    st.checkWinner params crypto ctx winner = none ∧
      st.mapMasternodesLastVote[winner.vinMasternode]? ≠ some winner.nBlockHeight := by
  constructor
  · intro h
    refine ⟨?_, h.lastVote⟩
    simp [checkWinner, h.active, h.unseen, h.version, h.valid, not_lt.mpr h.inRange.1, not_lt.mpr h.inRange.2]
  · intro ⟨hcheck, hlast⟩
    unfold checkWinner at hcheck
    split_ifs at hcheck with hactive hpeer hseen hrange hversion hvalid
    simp only [Bool.or_eq_true, Bool.not_eq_true', not_or, Bool.not_eq_true,
      Bool.not_eq_false] at hactive hpeer hvalid
    rw [not_or, not_lt, not_lt] at hrange
    exact ⟨⟨hactive.1.1, hactive.1.2, hactive.2, hpeer⟩, by simpa using hseen, hrange,
      not_not.mp hversion, hvalid, hlast⟩

instance : Decidable (Records params crypto ctx st winner) := decidable_of_iff' _ records_iff

/-- The reasons of the checks are refusals. -/
theorem checkWinner_ne_accepted : st.checkWinner params crypto ctx winner ≠ some .accepted := by
  unfold checkWinner
  split_ifs <;> simp

/-- A message that is stopped at or before the record changes nothing. -/
theorem processWinner_of_not_records (h : ¬ Records params crypto ctx st winner) :
    (st.processWinner params crypto ctx winner).2 = st ∧
      (st.processWinner params crypto ctx winner).1 ≠ .accepted := by
  unfold processWinner
  cases hcheck : st.checkWinner params crypto ctx winner with
  | some refusal =>
    refine ⟨rfl, fun hacc => checkWinner_ne_accepted (hcheck.trans (congrArg some hacc))⟩
  | none =>
    have hlast : st.mapMasternodesLastVote[winner.vinMasternode]? = some winner.nBlockHeight := by
      by_contra hne
      exact h (records_iff.mpr ⟨hcheck, hne⟩)
    simp [canVote, hlast]

/-- Any other message goes on record, and then its signature is checked. -/
theorem processWinner_of_records (h : Records params crypto ctx st winner) :
    st.processWinner params crypto ctx winner =
      (st.recordVote winner.vinMasternode winner.nBlockHeight).authenticateWinner crypto ctx
        winner := by
  simp [processWinner, (records_iff.mp h).1, canVote, h.lastVote]

variable (crypto ctx st winner) in
/-- A message is stored, or it changes nothing more. -/
theorem authenticateWinner_cases : ((st.authenticateWinner crypto ctx winner).2 = st ∧
        (st.authenticateWinner crypto ctx winner).1 ≠ .accepted) ∨
      ∃ st', st.addWinningMasternode crypto ctx.nBestHeight winner = some st' ∧
        st.authenticateWinner crypto ctx winner = (.accepted, st') := by
  unfold authenticateWinner
  cases ctx.mnKeyID winner.vinMasternode with
  | none => exact .inl ⟨rfl, by simp⟩
  | some key =>
    by_cases hsig : winner.checkSignature crypto key = true
    · cases hadd : st.addWinningMasternode crypto ctx.nBestHeight winner with
      | none => simp [hsig]
      | some st' => simp [hsig]
    · simp [hsig]

end

/-! ### One vote each -/

/-- **One vote each.** No masternode has two stored votes for a height, and what a payee has are
the stored votes for it. -/
structure OneVoteEach (st : WinnersState) : Prop where
  unique : ∀ (k k' : Uint256) (v v' : MasternodePaymentWinner),
    st.mapMasternodePayeeVotes[k]? = some v → st.mapMasternodePayeeVotes[k']? = some v' →
    v.vinMasternode = v'.vinMasternode → v.nBlockHeight = v'.nBlockHeight → k = k' ∧ v = v'
  counted : ∀ (nBlockHeight : Int) (payee : Script),
    st.mapMasternodeBlocks.votesFor nBlockHeight payee =
      countP (fun _ v => decide (v.nBlockHeight = nBlockHeight ∧ v.payee = payee))
        st.mapMasternodePayeeVotes

/-- **Exact counting.** What a payee has at a height are the stored votes for it. -/
def Counted (st : WinnersState) : Prop :=
  ∀ (nBlockHeight : Int) (payee : Script),
    st.mapMasternodeBlocks.votesFor nBlockHeight payee =
      countP (fun _ v => decide (v.nBlockHeight = nBlockHeight ∧ v.payee = payee))
        st.mapMasternodePayeeVotes

theorem Counted.addWinningMasternode {st'} (h : st.Counted)
    (hadd : st.addWinningMasternode crypto nBestHeight winner = some st') : st'.Counted := by
  obtain ⟨hnew, rfl⟩ := addWinningMasternode_inv hadd
  intro height payee
  rw [MasternodeBlocks.votesFor_addPayee, h, countP_insert hnew, Nat.cast_add]
  simp only [decide_eq_true_eq, Nat.cast_ite, Nat.cast_one, Nat.cast_zero]

/-- The votes of the masternode for the height that are stored name the payee. -/
def AgreesWithStored (st : WinnersState) (vinMasternode : OutPoint) (nBlockHeight : Int)
    (payee : Script) : Prop :=
  All (fun _ v => v.vinMasternode = vinMasternode → v.nBlockHeight = nBlockHeight →
    v.payee = payee) st.mapMasternodePayeeVotes

instance (st : WinnersState) (vinMasternode : OutPoint) (nBlockHeight : Int) (payee : Script) :
    Decidable (st.AgreesWithStored vinMasternode nBlockHeight payee) :=
  inferInstanceAs (Decidable (All _ _))

/-- **The condition of a step.** A message does not name another payee than the stored vote of its
voter for the height, unless the record of the votes still has the height; the same for the own
vote. -/
def StandsBy (st : WinnersState) : Event → Prop
  | .mnw _ winner =>
    st.mapMasternodesLastVote[winner.vinMasternode]? = some winner.nBlockHeight ∨
      st.AgreesWithStored winner.vinMasternode winner.nBlockHeight winner.payee
  | .processBlock own nBlockHeight =>
    ∀ mnVin payee, own.mnVin = some mnVin →
      own.getNextMasternodeInQueueForPayment nBlockHeight = some payee →
      st.AgreesWithStored mnVin nBlockHeight payee
  | .cleanPaymentList _ _ | .restart _ => True

/-- The invariant: votes are filed under their hash as well. -/
structure VotesInv (crypto : WinnerCrypto) (st : WinnersState) : Prop extends OneVoteEach st where
  keyed : All (fun k v => k = v.getHash crypto) st.mapMasternodePayeeVotes

namespace VotesInv

variable {params : NetworkParams} {crypto : WinnerCrypto} {ctx : WinnerContext}
  {st st' : WinnersState} {winner : MasternodePaymentWinner}

theorem empty : VotesInv crypto {} where
  unique k k' v v' hv := by simp at hv
  counted h s := by simp
  keyed := All.empty

/-- The invariant is about what is stored and counted. -/
theorem congr (h : VotesInv crypto st)
    (hvotes : st'.mapMasternodePayeeVotes = st.mapMasternodePayeeVotes)
    (hblocks : st'.mapMasternodeBlocks = st.mapMasternodeBlocks) : VotesInv crypto st' where
  unique := by
    rw [hvotes]
    exact h.unique
  counted := by
    rw [hvotes, hblocks]
    exact h.counted
  keyed := by
    rw [hvotes]
    exact h.keyed

/-- A new vote that agrees with the stored ones of its voter is the first one. -/
theorem none_stored (h : VotesInv crypto st)
    (hnew : st.mapMasternodePayeeVotes[winner.getHash crypto]? = none)
    (hagrees : st.AgreesWithStored winner.vinMasternode winner.nBlockHeight winner.payee)
    {k : Uint256} (hv : st.mapMasternodePayeeVotes[k]? = some v)
    (hvin : v.vinMasternode = winner.vinMasternode) : v.nBlockHeight ≠ winner.nBlockHeight := by
  intro hheight
  have hpayee := hagrees hv hvin hheight
  have hhash : v.getHash crypto = winner.getHash crypto := by
    simp only [MasternodePaymentWinner.getHash, hvin, hheight, hpayee]
  simp [h.keyed hv, hhash, hnew] at hv

theorem addWinningMasternode (h : VotesInv crypto st)
    (hagrees : st.AgreesWithStored winner.vinMasternode winner.nBlockHeight winner.payee)
    (hadd : st.addWinningMasternode crypto nBestHeight winner = some st') :
    VotesInv crypto st' := by
  have hcounted := Counted.addWinningMasternode h.counted hadd
  obtain ⟨hnew, rfl⟩ := addWinningMasternode_inv hadd
  have hfirst := fun {k v} => h.none_stored hnew hagrees (k := k) (v := v)
  refine ⟨⟨fun k k' v v' hv hv' hvin hheight => ?_, hcounted⟩, h.keyed.insert rfl⟩
  -- two old votes, or one that is new and one that is old
  simp only [get_insert] at hv hv'
  split_ifs at hv hv' with hk hk' hk'
  · exact ⟨hk.symm.trans hk', mem_unique hv hv'⟩
  · cases hv
    exact absurd hheight.symm (hfirst hv' hvin.symm)
  · obtain rfl := some.inj hv'
    exact absurd hheight (hfirst hv hvin)
  · exact h.unique k k' v v' hv hv' hvin hheight

theorem processWinner (h : VotesInv crypto st) (hstands : st.StandsBy (.mnw ctx winner)) :
    VotesInv crypto (st.processWinner params crypto ctx winner).2 := by
  by_cases hrecords : Records params crypto ctx st winner
  · rw [processWinner_of_records hrecords]
    have hrecorded : VotesInv crypto (st.recordVote winner.vinMasternode winner.nBlockHeight) :=
      h.congr rfl rfl
    rcases authenticateWinner_cases crypto ctx
      (st.recordVote winner.vinMasternode winner.nBlockHeight) winner with
      ⟨hsame, -⟩ | ⟨st', hadd, heq⟩
    · rwa [hsame]
    · rw [heq]
      exact hrecorded.addWinningMasternode (hstands.resolve_left hrecords.lastVote) hadd
  · rwa [(processWinner_of_not_records hrecords).1]

end VotesInv

/-- The own vote is by the active masternode, for the height and the next payee in the queue. -/
theorem OwnVote.winner_inv {own : OwnVote} {nLastBlockHeight : Int}
    (h : own.winner nLastBlockHeight nBlockHeight = some winner) :
    own.mnVin = some winner.vinMasternode ∧ winner.nBlockHeight = nBlockHeight ∧
      own.getNextMasternodeInQueueForPayment nBlockHeight = some winner.payee := by
  unfold OwnVote.winner at h
  rw [ite_none_left_eq_some] at h
  obtain ⟨mnVin, hvin, h⟩ := bind_eq_some_iff.mp h.2
  simp only [ite_none_left_eq_some] at h
  obtain ⟨payee, hpayee, h⟩ := bind_eq_some_iff.mp h.2.2.2
  obtain ⟨vchSig, -, h⟩ := bind_eq_some_iff.mp h
  cases h
  exact ⟨hvin, rfl, hpayee⟩

theorem VotesInv.processBlock {own : OwnVote} (h : VotesInv crypto st)
    (hstands : st.StandsBy (.processBlock own nBlockHeight)) :
    VotesInv crypto (st.processBlock crypto own nBlockHeight) := by
  unfold WinnersState.processBlock
  cases hown : own.winner st.nLastBlockHeight nBlockHeight with
  | none => exact h
  | some newWinner =>
    dsimp only
    cases hadd : st.addWinningMasternode crypto own.nBestHeight newWinner with
    | none => exact h
    | some st' =>
      obtain ⟨hvin, hheight, hpayee⟩ := OwnVote.winner_inv hown
      have hagrees := hstands _ _ hvin hpayee
      rw [← hheight] at hagrees
      exact (h.addWinningMasternode hagrees hadd).congr rfl rfl

/-! ### Cleaning up -/

section
variable {old : Int → Prop} [DecidablePred old]

/-- Dropping the old ones of some votes, one by one. -/
def dropOld (old : Int → Prop) [DecidablePred old]
    (entries : List (Uint256 × MasternodePaymentWinner)) (st : WinnersState) : WinnersState :=
  entries.foldl
    (fun st e => if old e.2.nBlockHeight then st.dropWinner e.1 e.2.nBlockHeight else st) st

theorem dropOld_votes (entries : List (Uint256 × MasternodePaymentWinner)) (st : WinnersState)
    (k : Uint256) (v : MasternodePaymentWinner) :
    (dropOld old entries st).mapMasternodePayeeVotes[k]? = some v ↔
      st.mapMasternodePayeeVotes[k]? = some v ∧ ∀ e ∈ entries, old e.2.nBlockHeight → e.1 ≠ k := by
  induction entries generalizing st with
  | nil => simp [dropOld]
  | cons e entries ih =>
    refine (ih _).trans ?_
    simp only [forall_mem_cons, ← and_assoc, and_congr_left_iff]
    intro _
    by_cases hold : old e.2.nBlockHeight
    · simp only [hold, if_true, dropWinner, get_erase, forall_const]
      by_cases hk : e.1 = k <;> simp [hk]
    · simp [hold]

theorem dropOld_votesFor (entries : List (Uint256 × MasternodePaymentWinner)) (st : WinnersState)
    (h : Int) (s : Script) : (dropOld old entries st).mapMasternodeBlocks.votesFor h s =
      if old h ∧ ∃ e ∈ entries, e.2.nBlockHeight = h then 0
      else st.mapMasternodeBlocks.votesFor h s := by
  induction entries generalizing st with
  | nil => simp [dropOld]
  | cons e entries ih =>
    refine (ih _).trans ?_
    simp only [exists_mem_cons_iff]
    by_cases hh : e.2.nBlockHeight = h
    · by_cases hold : old h <;> simp [hh, hold, dropWinner, MasternodeBlocks.votesFor_erase]
    · rw [if_congr (and_congr_right_iff.mpr fun _ => or_iff_right hh) rfl rfl]
      by_cases hold : old e.2.nBlockHeight <;>
        simp [hh, hold, dropWinner, MasternodeBlocks.votesFor_erase]

/-- Going through all votes drops the old ones. -/
theorem dropOld_toList_votes {k : Uint256} :
    (dropOld old st.mapMasternodePayeeVotes.toList st).mapMasternodePayeeVotes[k]? = some v ↔
      st.mapMasternodePayeeVotes[k]? = some v ∧ ¬ old v.nBlockHeight := by
  rw [dropOld_votes]
  refine and_congr_right fun hv => ⟨fun hnone hold => ?_, fun hnew e he hold hk => ?_⟩
  · exact hnone (k, v) (mem_toList.mpr hv) hold rfl
  · have hev := mem_toList.mp he
    rw [hk, hv] at hev
    exact hnew (some.inj hev ▸ hold)

variable (old) in
/-- **All votes of an old height go together**, so what is left is counted as before. -/
theorem Counted.dropOld (h : st.Counted) :
    (dropOld old st.mapMasternodePayeeVotes.toList st).Counted := by
  intro height payee
  rw [dropOld_votesFor]
  split_ifs with hdropped
  · rw [← Nat.cast_zero, ← countP_empty (K := Uint256) fun _ (v : MasternodePaymentWinner) =>
      decide (v.nBlockHeight = height ∧ v.payee = payee)]
    refine congrArg Nat.cast (countP_congr fun k v hp => ?_)
    rw [dropOld_toList_votes, (of_decide_eq_true hp).1]
    simp [hdropped.1]
  · rw [h]
    -- a vote for the height that is stored and goes would be the one that drops the height
    refine congrArg Nat.cast (countP_congr fun k v hp => ?_)
    rw [dropOld_toList_votes, (of_decide_eq_true hp).1, iff_self_and]
    exact fun hv hold =>
      hdropped ⟨hold, (k, v), mem_toList.mpr hv, (of_decide_eq_true hp).1⟩

variable (old) in
theorem VotesInv.dropOld (h : VotesInv crypto st) :
    VotesInv crypto (dropOld old st.mapMasternodePayeeVotes.toList st) := by
  refine ⟨⟨fun k k' v v' hv hv' => ?_, Counted.dropOld old h.counted⟩, fun k v hv => ?_⟩
  · exact h.unique k k' v v' (dropOld_toList_votes.mp hv).1 (dropOld_toList_votes.mp hv').1
  · exact h.keyed (dropOld_toList_votes.mp hv).1

end

theorem VotesInv.cleanPaymentList (mnCount : Nat) (nHeight : Int) (h : VotesInv crypto st) :
    VotesInv crypto (st.cleanPaymentList mnCount nHeight) :=
  h.dropOld fun height => max (mnCount * 5 / 4 : Int) 1000 < nHeight - height

theorem VotesInv.restart (readable : Bool) (h : VotesInv crypto st)
    : VotesInv crypto (st.restart readable) := by
  cases readable with
  | false => exact VotesInv.empty
  | true => exact h.congr rfl rfl

/-! ### Runs -/

section
variable (params : NetworkParams) (crypto : WinnerCrypto)

theorem VotesInv.step (e : Event) (h : VotesInv crypto st) (hstands : st.StandsBy e)
    : VotesInv crypto (st.step params crypto e) := by
  cases e with
  | mnw ctx winner => exact h.processWinner hstands
  | processBlock own nBlockHeight => exact h.processBlock hstands
  | cleanPaymentList mnCount nHeight => exact h.cleanPaymentList mnCount nHeight
  | restart readable => exact h.restart readable

/-- **One vote each, while every voter stands by its votes.** In a run in which no vote names
another payee than the stored one of its voter for the height (unless the record of the votes
still has that height), no masternode ever has two votes for a height, stored or counted. -/
theorem oneVoteEach_of_standsBy {st : WinnersState}
    (hrun : GuardedRun (step params crypto) StandsBy {} st) : st.OneVoteEach :=
  (hrun.invariant VotesInv.empty fun _ e h hstands => h.step params crypto e hstands).toOneVoteEach

/-- The two calls that write the stored and the counted votes. -/
inductive PaymentCall
  | addWinningMasternode (nBestHeight : Int) (winnerIn : MasternodePaymentWinner)
  | cleanPaymentList (mnCount : Nat) (nHeight : Int)

def call (st : WinnersState) : PaymentCall → WinnersState
  | .addWinningMasternode nBestHeight winnerIn =>
    (st.addWinningMasternode crypto nBestHeight winnerIn).getD st
  | .cleanPaymentList mnCount nHeight => st.cleanPaymentList mnCount nHeight

/-- Each payee of a height has one entry. -/
def OneEntryEach (st : WinnersState) : Prop :=
  ∀ nBlockHeight, ((st.mapMasternodeBlocks.get nBlockHeight).vecPayments.map
    scriptPubKey).Nodup

theorem OneEntryEach.erase (h : st.OneEntryEach) (hash : Uint256) (nBlockHeight : Int)
    : (st.dropWinner hash nBlockHeight).OneEntryEach := by
  intro h'
  have hold := h h'
  unfold MasternodeBlocks.get dropWinner MasternodeBlocks.erase at *
  rw [get_erase]
  split_ifs
  · simp
  · exact hold

theorem OneEntryEach.call (h : st.OneEntryEach) (c : PaymentCall) :
    (st.call crypto c).OneEntryEach := by
  cases c with
  | addWinningMasternode nBestHeight winnerIn =>
    dsimp only [WinnersState.call]
    cases hadd : st.addWinningMasternode crypto nBestHeight winnerIn with
    | none => exact h
    | some st' =>
      obtain ⟨-, rfl⟩ := addWinningMasternode_inv hadd
      intro h'
      have hold := h h'
      unfold MasternodeBlocks.get at hold
      simp only [getD_some, MasternodeBlocks.get, MasternodeBlocks.addPayee, get_insert]
      split_ifs with heq
      · exact (MasternodeBlockPayees.nodup_addVotes _ _ (h winnerIn.nBlockHeight)).1
      · exact hold
  | cleanPaymentList mnCount nHeight =>
    dsimp only [WinnersState.call, WinnersState.cleanPaymentList]
    refine foldlRecOn (motive := OneEntryEach) _ _ h fun st' hst' e _ => ?_
    split_ifs
    · exact hst'.erase _ _
    · exact hst'

/-- **The votes are counted exactly**: after any calls of `AddWinningMasternode` and
`CleanPaymentList`, every payee has one entry at a height, with the number of the stored messages
for the height and the payee. -/
theorem votes_counted (calls : List PaymentCall) :
    (calls.foldl (call crypto) {}).Counted ∧ (calls.foldl (call crypto) {}).OneEntryEach := by
  suffices hrun : ∀ st : WinnersState, st.Counted → st.OneEntryEach →
      (calls.foldl (call crypto) st).Counted ∧ (calls.foldl (call crypto) st).OneEntryEach from
    hrun {} (fun h s => by simp) fun h => by simp [MasternodeBlocks.get, MasternodeBlocks.empty]
  induction calls with
  | nil => exact fun st hcounted hentries => ⟨hcounted, hentries⟩
  | cons c calls ih =>
    intro st hcounted hentries
    refine ih _ ?_ (hentries.call crypto c)
    cases c with
    | addWinningMasternode nBestHeight winnerIn =>
      unfold call
      dsimp only
      cases hadd : st.addWinningMasternode crypto nBestHeight winnerIn with
      | none => exact hcounted
      | some st' => exact hcounted.addWinningMasternode hadd
    | cleanPaymentList mnCount nHeight =>
      exact hcounted.dropOld fun height => max (mnCount * 5 / 4 : Int) 1000 < nHeight - height

end

end WinnersState

namespace Sample

open WinnersState (Event)

/-- Hashes that tell the sample votes apart, and signatures that repeat the key. -/
def winnerCrypto : WinnerCrypto where
  hash payee h vin := Fin.ofNat _ ((payee.map UInt8.toNat).sum + 10000 * h.toNat + vin.n.toNat)
  messageHash _ _ _ := 0
  verifyHash _ key vchSig := vchSig == [UInt8.ofNat key]

/-- A node at height 300 that knows one deterministic masternode. -/
def winnerContext : WinnerContext where
  isBlockchainSynced := true
  fLiteMode := false
  legacyMNObsolete := false
  peerActive := true
  nBestHeight := 300
  countEnabled := 20
  getMasternodeRank _ _ := 1
  operatorKey o := if o = ⟨1, 0⟩ then some 7 else none
  legacyKey _ := none

def payToKey (b : UInt8) : Script := [0x76, 0xa9, 0x14] ++ List.replicate 20 b ++ [0x88, 0xac]

/-- A signed vote of the masternode. -/
def winnerVote (nBlockHeight : Int) (b : UInt8) : MasternodePaymentWinner :=
  ⟨⟨1, 0⟩, nBlockHeight, payToKey b, [7], .hash⟩

/-- The state after some messages. -/
def afterVotes (events : List Event) : WinnersState :=
  events.foldl (WinnersState.step regtestParams winnerCrypto) {}

/-- A vote for height 310, one for the next height, and another one for 310. -/
def revotes : List Event :=
  [.mnw winnerContext (winnerVote 310 1), .mnw winnerContext (winnerVote 311 1),
    .mnw winnerContext (winnerVote 310 2)]

/-- Two votes, a redelivery of the first, and the same vote again after a restart. -/
def standingVotes : List Event :=
  [.mnw winnerContext (winnerVote 310 1), .mnw winnerContext (winnerVote 311 1),
    .mnw winnerContext (winnerVote 310 1), .restart true, .mnw winnerContext (winnerVote 310 1)]

end Sample

namespace WinnersState

open Sample (regtestParams winnerCrypto winnerContext payToKey winnerVote afterVotes revotes
  standingVotes)

/-- **A voter can come back to a height.** The record has only the last height, so a second vote
for 310 with another payee is stored after one for 311: both payees have the masternode's vote. -/
theorem revotes_counted_twice :
    GuardedRun (step regtestParams winnerCrypto) (fun _ _ => True) {} (afterVotes revotes) ∧
      ¬ (afterVotes revotes).OneVoteEach ∧
      (afterVotes revotes).mapMasternodeBlocks.votesFor 310 (payToKey 1) = 1 ∧
      (afterVotes revotes).mapMasternodeBlocks.votesFor 310 (payToKey 2) = 1 := by
  refine ⟨GuardedRun.init.foldl ⟨trivial, trivial, trivial, trivial⟩, fun hone => ?_,
    by decide +kernel, by decide +kernel⟩
  have hsame := hone.unique ((winnerVote 310 1).getHash winnerCrypto)
    ((winnerVote 310 2).getHash winnerCrypto) (winnerVote 310 1) (winnerVote 310 2)
    (by decide +kernel) (by decide +kernel) rfl rfl
  exact absurd hsame.2 (by decide)

/-- Votes that are redelivered, also after a restart, are no second votes. -/
theorem oneVoteEach_standingVotes : (afterVotes standingVotes).OneVoteEach := by
  refine oneVoteEach_of_standsBy regtestParams winnerCrypto (GuardedRun.init.foldl ?_)
  exact ⟨Or.inr (by decide +kernel), Or.inr (by decide +kernel), Or.inr (by decide +kernel),
    trivial, Or.inr (by decide +kernel), trivial⟩

/-! ### Forged messages -/

section
variable {params : NetworkParams} {crypto : WinnerCrypto} {ctx : WinnerContext}
  {st st' : WinnersState} {winner : MasternodePaymentWinner}

/-- A message of a known voter that goes on record is stored when its signature is right. -/
theorem processWinner_accepted (h : Records params crypto ctx st winner) {key}
    (hkey : ctx.mnKeyID winner.vinMasternode = some key)
    (hsig : winner.checkSignature crypto key = true) :
    ∃ st', st.processWinner params crypto ctx winner = (.accepted, st') := by
  rw [processWinner_of_records h]
  unfold authenticateWinner
  have hheight : ¬ ctx.nBestHeight + 1 < winner.nBlockHeight - 100 := by
    have hrange := h.inRange.2
    omega
  simp [hkey, hsig, addWinningMasternode, hheight, recordVote, h.unseen]

/-- Every message that would be accepted before is accepted after the given one, and it stores and
counts the same. -/
def Harmless (params : NetworkParams) (crypto : WinnerCrypto) (ctx : WinnerContext)
    (st : WinnersState) (winner : MasternodePaymentWinner) : Prop :=
  ∀ ctx' winner' st₁, st.processWinner params crypto ctx' winner' = (.accepted, st₁) →
    ∃ st₂, (st.processWinner params crypto ctx winner).2.processWinner params crypto ctx' winner' =
        (.accepted, st₂) ∧
      st₂.mapMasternodePayeeVotes = st₁.mapMasternodePayeeVotes ∧
      st₂.mapMasternodeBlocks = st₁.mapMasternodeBlocks

/-- **A rejected message is harmless just when it does not go on record.** Otherwise its voter
is unknown or its signature is wrong, and the genuine vote that it copies is refused afterwards.

`hsign` is what signatures are for: whoever holds a key can sign. -/
theorem rejected_harmless_iff
    (hsign : ∀ hash key, ∃ vchSig, crypto.verifyHash hash key vchSig = true)
    (hrejected : (st.processWinner params crypto ctx winner).1 ≠ .accepted) :
    Harmless params crypto ctx st winner ↔ ¬ Records params crypto ctx st winner := by
  constructor
  · intro hharmless hrecords
    -- the genuine vote: the same one, signed, in a context that knows the voter
    obtain ⟨vchSig, hverify⟩ := hsign (winner.getHash crypto) 0
    let ctx' : WinnerContext := { ctx with operatorKey := fun _ => some 0 }
    let genuine : MasternodePaymentWinner := { winner with vchSig := vchSig }
    have hgenuine : Records params crypto ctx' st genuine := ⟨hrecords.active, hrecords.unseen,
      hrecords.inRange, hrecords.version, hrecords.valid, hrecords.lastVote⟩
    have hsig : genuine.checkSignature crypto 0 = true := by
      unfold MasternodePaymentWinner.checkSignature
      rw [show genuine.nMessVersion = .hash from hrecords.version]
      exact hverify
    obtain ⟨st₁, hst₁⟩ := processWinner_accepted hgenuine rfl hsig
    obtain ⟨st₂, hst₂, -⟩ := hharmless ctx' genuine st₁ hst₁
    -- the rejected message left its height on record
    rw [processWinner_of_records hrecords] at hst₂ hrejected
    rcases authenticateWinner_cases crypto ctx
      (st.recordVote winner.vinMasternode winner.nBlockHeight) winner with
      ⟨hsame, -⟩ | ⟨st', -, haccepted⟩
    · rw [hsame] at hst₂
      exact (processWinner_of_not_records fun hrecords =>
        hrecords.lastVote (get_insert_self _ _ _)).2 (congrArg Prod.fst hst₂)
    · exact hrejected (congrArg Prod.fst haccepted)
  · intro hnot ctx' winner' st₁ hst₁
    rw [(processWinner_of_not_records hnot).1]
    exact ⟨st₁, hst₁, rfl, rfl⟩

end

/-- A vote for a height that is too far ahead does not go on record. -/
theorem outOfRange_harmless :
    (({} : WinnersState).processWinner regtestParams winnerCrypto winnerContext
        (winnerVote 400 1)).1 = .outOfRange ∧
      Harmless regtestParams winnerCrypto winnerContext {} (winnerVote 400 1) :=
  ⟨by decide +kernel,
    (rejected_harmless_iff (fun _ key => ⟨[UInt8.ofNat key], by simp [winnerCrypto]⟩)
      (by decide +kernel)).mpr (by decide +kernel)⟩

/-- A copy of the vote with a wrong signature. -/
def forgedVote : MasternodePaymentWinner := { winnerVote 310 1 with vchSig := [] }

/-- **A forged message suppresses the genuine vote.** The copy is rejected for its signature; the
vote that was accepted before is refused after it, in the same context. -/
theorem forgedVote_suppresses :
    (({} : WinnersState).processWinner regtestParams winnerCrypto winnerContext forgedVote).1 =
        .badSignature ∧ (({} : WinnersState).processWinner regtestParams winnerCrypto winnerContext
        (winnerVote 310 1)).1 = .accepted ∧
      ((({} : WinnersState).processWinner regtestParams winnerCrypto winnerContext
        forgedVote).2.processWinner regtestParams winnerCrypto winnerContext
          (winnerVote 310 1)).1 = .alreadyVoted := by
  decide +kernel

end WinnersState

end KmushiCoin
