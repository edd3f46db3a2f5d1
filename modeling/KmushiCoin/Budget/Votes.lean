import KmushiCoin.Evo.MNList
import KmushiCoin.Lib.LatestWins
import KmushiCoin.Lib.Runs
import KmushiCoin.Masternode.Man

/-!
# KmushiCoin.Budget.Votes

The **votes on budget proposals and on finalized budgets**. The two kinds of votes go through the
same steps with different keys, so the steps are defined once, over a `VoteKind`, and each call of
the source is the step at its kind.

* A vote is checked against the deterministic masternode list, or else the legacy one, remembered
  under its hash (`seen`), and handed to the object that it is about. A vote for an object that is
  not known yet waits, **one for each object** (`orphans`), until the object arrives.
* An object keeps one vote of each masternode. A vote replaces an older one that is at least
  `budgetVoteUpdateMin` older, and no vote may be more than an hour ahead of the clock.
* With votes that are so far apart the object ends up with the most recent vote of each masternode,
  in whatever order they come (`stored_iff_mostRecent`).

The flags that say whether a vote is relayed or still counted are left out: received votes are
counted, and a change of the masternode lists is no step of this model.
-/

namespace KmushiCoin

open Codec (Bytes)

/-! ### Votes -/

/-- A vote on a proposal (`CBudgetVote`). -/
structure BudgetVote where
  vin : TxIn
  nProposalHash : Uint256
  /-- Abstain, yes or no: 0, 1 or 2. -/
  nVote : UInt32
  nTime : Int
  vchSig : Bytes
  nMessVersion : MessageVersion
  deriving Repr, DecidableEq

/-- A vote on a finalized budget (`CFinalizedBudgetVote`). -/
structure FinalizedBudgetVote where
  vin : TxIn
  nBudgetHash : Uint256
  nTime : Int
  vchSig : Bytes
  nMessVersion : MessageVersion
  deriving Repr, DecidableEq

/-- What is hashed and verified by code that is not modelled. -/
structure VoteCrypto where
  budgetVoteHash : TxIn → Uint256 → UInt32 → Int → Uint256
  finalizedBudgetVoteHash : TxIn → Uint256 → Int → Uint256
  /-- The hashes of the text messages with the same data. -/
  budgetVoteMessageHash : OutPoint → Uint256 → UInt32 → Int → Uint256
  finalizedBudgetVoteMessageHash : OutPoint → Uint256 → Int → Uint256
  verifyHash : Uint256 → KeyID → Bytes → Bool

/-- What the steps need to know about a kind of votes. -/
structure VoteKind (V : Type) where
  /-- The collateral of the voter. -/
  mnId : V → OutPoint
  /-- The hash of the object that the vote is about. -/
  parent : V → Uint256
  nTime : V → Int
  hash : V → Uint256
  checkSignature : V → KeyID → Bool
  /-- The key with which a deterministic masternode signs such votes. -/
  key : DeterministicMN → KeyID

/-- Which hash is signed depends on the version of the message. -/
def signedHash (nMessVersion : MessageVersion) (hash messageHash : Uint256) : Uint256 :=
  match nMessVersion with
  | .hash => hash
  | .strmess => messageHash

def proposalVotes (crypto : VoteCrypto) : VoteKind BudgetVote where
  mnId v := v.vin.prevout
  parent := BudgetVote.nProposalHash
  nTime := BudgetVote.nTime
  hash v := crypto.budgetVoteHash v.vin v.nProposalHash v.nVote v.nTime
  checkSignature v keyID :=
    crypto.verifyHash
      (signedHash v.nMessVersion (crypto.budgetVoteHash v.vin v.nProposalHash v.nVote v.nTime)
        (crypto.budgetVoteMessageHash v.vin.prevout v.nProposalHash v.nVote v.nTime))
      keyID v.vchSig
  key dmn := dmn.pdmnState.keyIDVoting

def finalizedBudgetVotes (crypto : VoteCrypto) : VoteKind FinalizedBudgetVote where
  mnId v := v.vin.prevout
  parent := FinalizedBudgetVote.nBudgetHash
  nTime := FinalizedBudgetVote.nTime
  hash v := crypto.finalizedBudgetVoteHash v.vin v.nBudgetHash v.nTime
  checkSignature v keyID :=
    crypto.verifyHash
      (signedHash v.nMessVersion (crypto.finalizedBudgetVoteHash v.vin v.nBudgetHash v.nTime)
        (crypto.finalizedBudgetVoteMessageHash v.vin.prevout v.nBudgetHash v.nTime))
      keyID v.vchSig
  key dmn := dmn.pdmnState.keyIDOperator

/-- Why a vote is not stored. -/
inductive VoteRefusal
  | alreadySeen
  | badSignature
  | unknownMasternode
  | masternodeNotValid
  | notFound
  | olderThanExisting
  | tooSoon
  | tooFarAhead
  deriving Repr, DecidableEq

/-- What a legacy masternode is to a vote. -/
structure LegacyVoter where
  keyID : KeyID
  isEnabled : Bool
  deriving Repr, DecidableEq

/-- What a node knows when votes arrive: the clock and the masternodes. -/
structure VoteContext where
  getTime : Int
  isSynced : Bool
  serializeHash : UniqueProperty → Nat
  /-- `GetListAtChainTip()`. -/
  mnList : DeterministicMNList
  /-- `mnodeman.Find`. -/
  findMasternode : OutPoint → Option LegacyVoter

def budgetVoteUpdateMin : Int := 60 * 60

/-- The latest time of a vote, an hour ahead of the clock. -/
def VoteContext.maxTime (ctx : VoteContext) : Int := ctx.getTime + 60 * 60

/-- The votes of one kind: those of each known object by masternode, those seen by hash, and the
one that waits for an object. -/
structure VoteBook (V : Type) where
  objects : FMap Uint256 (FMap OutPoint V) := ∅
  seen : FMap Uint256 V := ∅
  orphans : FMap Uint256 V := ∅

section
variable {V : Type} (kind : VoteKind V) (ctx : VoteContext)

/-- Store a vote in an object (`AddOrUpdateVote`). -/
def addOrUpdateVote (mapVotes : FMap OutPoint V) (vote : V) :
    Except VoteRefusal (FMap OutPoint V) :=
  let voteTime := kind.nTime vote
  let insert : Except VoteRefusal (FMap OutPoint V) :=
    if ctx.maxTime < voteTime then .error .tooFarAhead
    else .ok (mapVotes.insert (kind.mnId vote) vote)
  match mapVotes[kind.mnId vote]? with
  | none => insert
  | some old =>
    let oldTime := kind.nTime old
    if voteTime < oldTime then .error .olderThanExisting
    else if wrap64 (voteTime - oldTime) < budgetVoteUpdateMin then .error .tooSoon
    else insert

/-- Who signed the vote, by the deterministic list or else by the legacy one: whether the vote is
remembered, and the verdict on it. -/
def judgeVote (vote : V) : Bool × Except VoteRefusal Unit :=
  match ctx.mnList.getMNByCollateral ctx.serializeHash (kind.mnId vote) with
  | some dmn =>
    if !kind.checkSignature vote (kind.key dmn) then (false, .error .badSignature)
    else if !DeterministicMNList.isMNValid dmn then (true, .error .masternodeNotValid)
    else (true, .ok ())
  | none =>
    match ctx.findMasternode (kind.mnId vote) with
    | none => (false, .error .unknownMasternode)
    | some pmn =>
      -- the legacy path remembers the vote before it checks the signature
      if !kind.checkSignature vote pmn.keyID then (true, .error .badSignature)
      else if !pmn.isEnabled then (true, .error .masternodeNotValid)
      else (true, .ok ())

namespace VoteBook

/-- `UpdateProposal` and `UpdateFinalizedBudget`: hand the vote to its object, or let it wait. -/
def update (fromPeer : Bool) (book : VoteBook V) (vote : V) : Except VoteRefusal Unit × VoteBook V :=
  match book.objects[kind.parent vote]? with
  | none =>
    if fromPeer && ctx.isSynced then
      (.error .notFound, { book with orphans := book.orphans.insert (kind.parent vote) vote })
    else (.error .notFound, book)
  | some mapVotes =>
    match addOrUpdateVote kind ctx mapVotes vote with
    | .error refusal => (.error refusal, book)
    | .ok mapVotes =>
      (.ok (), { book with objects := book.objects.insert (kind.parent vote) mapVotes })

def addSeen (book : VoteBook V) (vote : V) : VoteBook V :=
  { book with seen := book.seen.insertIfNew (kind.hash vote) vote }

/-- `ProcessProposalVote` and `ProcessFinalizedBudgetVote`. -/
def processVote (book : VoteBook V) (vote : V) : Except VoteRefusal Unit × VoteBook V :=
  if (book.seen[kind.hash vote]?).isSome then (.error .alreadySeen, book)
  else
    match judgeVote kind ctx vote with
    | (false, verdict) => (verdict, book)
    | (true, .error refusal) => (.error refusal, book.addSeen kind vote)
    | (true, .ok _) => (book.addSeen kind vote).update kind ctx true vote

/-- The retry of one vote that waits. -/
def retry (book : VoteBook V) (e : Uint256 × V) : VoteBook V :=
  match book.update kind ctx false e.2 with
  | (.ok _, book) => { book with orphans := book.orphans.erase e.1 }
  | (.error _, book) => book

/-- One pass over the votes that wait. -/
def checkOrphanVotes (book : VoteBook V) : VoteBook V :=
  book.orphans.toList.foldl (retry kind ctx) book

/-- A new object, without votes. -/
def addObject (book : VoteBook V) (hash : Uint256) : VoteBook V :=
  { book with objects := book.objects.insert hash ∅ }

/-- The votes of a list, one after the other. -/
def processVotes (book : VoteBook V) (votes : List V) : VoteBook V :=
  votes.foldl (fun book vote => (book.processVote kind ctx vote).2) book

end VoteBook

end

/-- An `mvote` message. -/
def processProposalVote (crypto : VoteCrypto) (ctx : VoteContext) (book : VoteBook BudgetVote)
    (vote : BudgetVote) : Except VoteRefusal Unit × VoteBook BudgetVote :=
  book.processVote (proposalVotes crypto) ctx vote

/-- An `fbvote` message. -/
def processFinalizedBudgetVote (crypto : VoteCrypto) (ctx : VoteContext)
    (book : VoteBook FinalizedBudgetVote) (vote : FinalizedBudgetVote) :
    Except VoteRefusal Unit × VoteBook FinalizedBudgetVote :=
  book.processVote (finalizedBudgetVotes crypto) ctx vote

/-- The votes of a direction (`GetVoteCount`). -/
def getVoteCount (mapVotes : FMap OutPoint BudgetVote) (nVote : UInt32) : Nat :=
  FMap.countP (fun _ v => decide (v.nVote = nVote)) mapVotes

/-! ### Storing one vote -/

section
variable {V : Type} {kind : VoteKind V} {ctx : VoteContext} {m m' : FMap OutPoint V} {vote : V}

variable (kind ctx) in
/-- A vote is timely when it is at most an hour ahead of the clock. -/
def Timely (vote : V) : Prop := kind.nTime vote ≤ ctx.maxTime

instance : Decidable (Timely kind ctx vote) := inferInstanceAs (Decidable (_ ≤ _))

variable (kind) in
/-- The vote may replace the one that is there. -/
def Replaces (old vote : V) : Prop :=
  kind.nTime old ≤ kind.nTime vote ∧
    budgetVoteUpdateMin ≤ wrap64 (kind.nTime vote - kind.nTime old)

instance : DecidableRel (Replaces kind) := fun _ _ => inferInstanceAs (Decidable (_ ∧ _))

theorem addOrUpdateVote_ok : addOrUpdateVote kind ctx m vote = .ok m' ↔
      Timely kind ctx vote ∧ (∀ old, m[kind.mnId vote]? = some old → Replaces kind old vote) ∧
        m' = m.insert (kind.mnId vote) vote := by
  unfold addOrUpdateVote Timely Replaces
  by_cases hfar : ctx.maxTime < kind.nTime vote
  · cases hold : m[kind.mnId vote]? with
    | none => simp [hfar]
    | some old =>
      have hnot := not_le.mpr hfar
      dsimp only
      split_ifs <;> simp [hnot]
  · cases hold : m[kind.mnId vote]? with
    | none => simp [not_lt.mp hfar, not_lt.mpr (not_lt.mp hfar), eq_comm]
    | some old =>
      dsimp only
      split_ifs with holder hsoon
      · simp [not_le.mpr holder]
      · simp [not_le.mpr hsoon]
      · simp [not_lt.mp hfar, not_lt.mp holder, not_lt.mp hsoon, eq_comm]

variable (kind ctx) in
/-- The votes of an object after one more came, stored or not. -/
def store (m : FMap OutPoint V) (vote : V) : FMap OutPoint V :=
  if Timely kind ctx vote then LatestWins.put kind.mnId (Replaces kind) m vote else m

theorem store_of_ok (h : addOrUpdateVote kind ctx m vote = .ok m') : store kind ctx m vote = m' := by
  obtain ⟨htimely, hreplaces, rfl⟩ := addOrUpdateVote_ok.mp h
  rw [store, if_pos htimely, LatestWins.put_of_stored hreplaces]

theorem store_of_error {refusal}
    (h : addOrUpdateVote kind ctx m vote = .error refusal) : store kind ctx m vote = m := by
  unfold store
  split_ifs with htimely
  · refine LatestWins.put_of_stays ?_
    by_contra hnone
    have hok := addOrUpdateVote_ok.mpr ⟨htimely, fun old hold => by
      by_contra hnot
      exact hnone ⟨old, hold, hnot⟩, rfl⟩
    simp [hok] at h
  · rfl

/-- A timely vote for an object without votes is stored. -/
theorem addOrUpdateVote_empty (h : Timely kind ctx vote) :
    ∃ m', addOrUpdateVote kind ctx ∅ vote = .ok m' :=
  ⟨_, addOrUpdateVote_ok.mpr ⟨h, fun old hold => by simp at hold, rfl⟩⟩

theorem store_of_not_timely (h : ¬ Timely kind ctx vote) : store kind ctx m vote = m := if_neg h

end

/-! ### What the calls do -/

section
variable {V : Type} {kind : VoteKind V} {ctx : VoteContext} {book : VoteBook V} {vote : V}

variable (kind ctx) in
/-- The vote is by a valid masternode, with its signature. -/
def Authentic (vote : V) : Prop := judgeVote kind ctx vote = (true, .ok ())

namespace VoteBook

variable (kind ctx) in
/-- The vote is new, and it goes on to its object. -/
def Admits (book : VoteBook V) (vote : V) : Prop :=
  book.seen[kind.hash vote]? = none ∧ Authentic kind ctx vote

theorem processVote_of_admits (h : book.Admits kind ctx vote) :
    book.processVote kind ctx vote = (book.addSeen kind vote).update kind ctx true vote := by
  simp [processVote, h.1, show judgeVote kind ctx vote = _ from h.2]

/-- A vote that does not go on may be remembered, and that is all. -/
theorem processVote_of_not_admits (h : ¬ book.Admits kind ctx vote) :
    (book.processVote kind ctx vote).2.objects = book.objects ∧
      (book.processVote kind ctx vote).2.orphans = book.orphans := by
  unfold processVote
  split_ifs with hseen
  · exact ⟨rfl, rfl⟩
  · rcases hjudge : judgeVote kind ctx vote with ⟨_ | _, _ | _⟩
    · exact ⟨rfl, rfl⟩
    · exact ⟨rfl, rfl⟩
    · exact ⟨rfl, rfl⟩
    · exact absurd ⟨by simpa using hseen, hjudge⟩ h

variable (kind ctx) in
theorem update_seen (fromPeer : Bool) (book : VoteBook V) (vote : V) :
    (book.update kind ctx fromPeer vote).2.seen = book.seen := by
  unfold update
  cases book.objects[kind.parent vote]? with
  | none =>
    dsimp only
    split_ifs <;> rfl
  | some m =>
    dsimp only
    cases addOrUpdateVote kind ctx m vote <;> rfl

/-- What is remembered does not depend on the objects. -/
theorem processVote_seen {book' : VoteBook V} (h : book.seen = book'.seen) :
    (book.processVote kind ctx vote).2.seen = (book'.processVote kind ctx vote).2.seen := by
  unfold processVote
  rw [h]
  split_ifs with hseen
  · exact h
  · rcases judgeVote kind ctx vote with ⟨_ | _, _ | _⟩ <;> simp [update_seen, addSeen, h]

/-- A vote for a known object goes there. -/
theorem update_known {fromPeer} {m} (h : book.objects[kind.parent vote]? = some m) :
    (book.update kind ctx fromPeer vote).2 = { book with
        objects := book.objects.insert (kind.parent vote) (store kind ctx m vote) } := by
  rw [update, h]
  dsimp only
  cases hadd : addOrUpdateVote kind ctx m vote with
  | error refusal =>
    rw [store_of_error hadd, ← FMap.alter_some, FMap.alter_eq_self h]
  | ok m' => rw [store_of_ok hadd]

theorem processVote_known (hadmits : book.Admits kind ctx vote) {m}
    (h : book.objects[kind.parent vote]? = some m) :
    (book.processVote kind ctx vote).2 = { book.addSeen kind vote with
        objects := book.objects.insert (kind.parent vote) (store kind ctx m vote) } := by
  have hseen : (book.addSeen kind vote).objects[kind.parent vote]? = some m := h
  rw [processVote_of_admits hadmits, update_known hseen]
  rfl

theorem processVote_unknown (hsynced : ctx.isSynced = true) (hadmits : book.Admits kind ctx vote)
    (h : book.objects[kind.parent vote]? = none) :
    (book.processVote kind ctx vote).2 = { book.addSeen kind vote with
        orphans := book.orphans.insert (kind.parent vote) vote } := by
  simp [processVote_of_admits hadmits, update, addSeen, h, hsynced]

variable (kind ctx vote) in
/-- A vote makes no object known. -/
theorem update_isSome (fromPeer : Bool) (book : VoteBook V) (o : Uint256) :
    ((book.update kind ctx fromPeer vote).2.objects[o]?).isSome = (book.objects[o]?).isSome := by
  cases h : book.objects[kind.parent vote]? with
  | some m =>
    rw [update_known h, FMap.get_insert]
    split_ifs with ho
    · rw [← ho, h]
      rfl
    · rfl
  | none =>
    rw [update, h]
    dsimp only
    split_ifs <;> rfl

theorem processVote_isSome (book : VoteBook V) (o : Uint256) :
    ((book.processVote kind ctx vote).2.objects[o]?).isSome = (book.objects[o]?).isSome := by
  by_cases hadmits : book.Admits kind ctx vote
  · rw [processVote_of_admits hadmits, update_isSome]
    rfl
  · rw [(processVote_of_not_admits hadmits).1]

theorem checkOrphanVotes_isSome (book : VoteBook V) (o : Uint256) :
    ((book.checkOrphanVotes kind ctx).objects[o]?).isSome = (book.objects[o]?).isSome := by
  have hretry : ∀ (book : VoteBook V) e,
      ((retry kind ctx book e).objects[o]?).isSome = (book.objects[o]?).isSome := by
    intro book e
    have hupdate := update_isSome kind ctx e.2 false book o
    unfold retry
    rcases heq : book.update kind ctx false e.2 with ⟨_ | _, book'⟩ <;>
      rw [heq] at hupdate <;> exact hupdate
  unfold checkOrphanVotes
  generalize book.orphans.toList = l
  induction l generalizing book with
  | nil => rfl
  | cons e l ih => rw [List.foldl_cons, ih, hretry]

theorem addObject_isSome (book : VoteBook V) (hash o : Uint256) :
    ((book.addObject hash).objects[o]?).isSome =
      (decide (hash = o) || (book.objects[o]?).isSome) := by
  rw [show (book.addObject hash).objects = book.objects.insert hash ∅ from rfl, FMap.get_insert]
  by_cases h : hash = o <;> simp [h]

/-- An object that is known gets the vote; the others stay. -/
theorem objects_processVote (hsynced : ctx.isSynced = true) (hadmits : book.Admits kind ctx vote)
    (o : Uint256) : (book.processVote kind ctx vote).2.objects[o]? =
      if kind.parent vote = o then (book.objects[o]?).map (store kind ctx · vote)
      else book.objects[o]? := by
  cases h : book.objects[kind.parent vote]? with
  | none =>
    rw [processVote_unknown hsynced hadmits h]
    split_ifs with ho
    · rwa [← ho, h]
    · rfl
  | some m =>
    rw [processVote_known hadmits h, FMap.get_insert]
    split_ifs with ho
    · rw [← ho, h]
      rfl
    · rfl

end VoteBook

end

end KmushiCoin
