import KmushiCoin.Budget.FeeIndexed
import KmushiCoin.Budget.Objects
import KmushiCoin.Budget.VoteOrder
import KmushiCoin.Masternode.PaymentChecks

/-!
# KmushiCoin.Budget.FeeIndex

**The stored budget objects and their indexes by fee transaction.** When the block with a fee
transaction is disconnected, `RemoveByFeeTxId` looks the object up in the index and removes it.

* `BudgetStore` has the maps of the budget manager, `step` its calls and the votes that arrive.
* `CheckCollateral` does not ask whether another object has the fee transaction, and a transaction
  may burn the fee of several objects. `Unshared` is the condition that this does not happen.
* `fee_index_exact` is the result on the runs that meet it: both indexes are exact, and
  `RemoveByFeeTxId` leaves no object with the fee transaction.

`mapUnconfirmedFeeTx`, which only the submission of a budget reads, is left out.
-/

namespace KmushiCoin

open BudgetProposal FeeIndexed.SameFees

/-! ### The budget manager -/

/-- The maps of `CBudgetManager` that the calls work on. -/
structure BudgetStore where
  /-- `mapProposals` and `mapFeeTxToProposal`. -/
  proposals : FeeIndexed BudgetProposal := {}
  /-- `mapFinalizedBudgets` and `mapFeeTxToBudget`. -/
  budgets : FeeIndexed BudgetFinalization := {}
  mapSeenProposalVotes : FMap Uint256 BudgetVote := ∅
  mapOrphanProposalVotes : FMap Uint256 BudgetVote := ∅
  mapSeenFinalizedBudgetVotes : FMap Uint256 FinalizedBudgetVote := ∅
  mapOrphanFinalizedBudgetVotes : FMap Uint256 FinalizedBudgetVote := ∅

namespace BudgetStore

variable (env : BudgetEnv) (ctx : BudgetContext)

def mapProposals (s : BudgetStore) : FMap Uint256 BudgetProposal := s.proposals.objects

def mapFeeTxToProposal (s : BudgetStore) : FMap Uint256 Uint256 := s.proposals.byFeeTx

def mapFinalizedBudgets (s : BudgetStore) : FMap Uint256 BudgetFinalization := s.budgets.objects

def mapFeeTxToBudget (s : BudgetStore) : FMap Uint256 Uint256 := s.budgets.byFeeTx

/-- A vote on a proposal with its flag. -/
def countedVotes (crypto : VoteCrypto) : VoteKind CountedVote where
  mnId v := (proposalVotes crypto).mnId v.vote
  parent v := (proposalVotes crypto).parent v.vote
  nTime v := (proposalVotes crypto).nTime v.vote
  hash v := (proposalVotes crypto).hash v.vote
  checkSignature v := (proposalVotes crypto).checkSignature v.vote
  key := (proposalVotes crypto).key

def proposalKind : FeeKind BudgetProposal := ⟨getHash env, nFeeTXHash⟩

def budgetKind : FeeKind BudgetFinalization :=
  ⟨BudgetFinalization.getHash env, BudgetFinalization.nFeeTXHash⟩

def addProposal (budgetProposal : BudgetProposal) (s : BudgetStore) : Except String BudgetStore :=
  let nHash := budgetProposal.getHash env
  if s.mapProposals[nHash]?.isSome then .error "already added"
  else do
    budgetProposal.isWellFormed env (env.params.getTotalBudget budgetProposal.nBlockStart)
    let nCurrentHeight := ctx.nBestHeight
    let nTime ← checkCollateral env ctx budgetProposal.nFeeTXHash nHash nCurrentHeight proposalFeeTx
    let budgetProposal ← { budgetProposal with nTime }.updateValid env ctx nCurrentHeight
    pure { s with proposals := s.proposals.add (proposalKind env) budgetProposal }

/-- The stored proposals after `GetBudget` has checked their votes again. -/
def withProposals (s : BudgetStore) (mapProposals : FMap Uint256 BudgetProposal) : BudgetStore :=
  { s with proposals := { s.proposals with objects := mapProposals } }

def withBudgets (s : BudgetStore) (mapFinalizedBudgets : FMap Uint256 BudgetFinalization) :
    BudgetStore :=
  { s with budgets := { s.budgets with objects := mapFinalizedBudgets } }

/-- The checks of `AddFinalizedBudget` before the proposals are compared. -/
def checkFinalizedBudget (finalizedBudget : BudgetFinalization) (s : BudgetStore) :
    Except String BudgetFinalization :=
  let nHash := finalizedBudget.getHash env
  if s.mapFinalizedBudgets[nHash]?.isSome then .error "already added"
  else do
    finalizedBudget.isWellFormed env (env.params.getTotalBudget finalizedBudget.nBlockStart)
    let nCurrentHeight := ctx.nBestHeight
    let _nTime ← checkCollateral env ctx finalizedBudget.nFeeTXHash nHash nCurrentHeight budgetFeeTx
    finalizedBudget.updateValid env nCurrentHeight

/-- The state is returned on failure as well, since `GetBudget` changes it. -/
def addFinalizedBudget (finalizedBudget : BudgetFinalization) (s : BudgetStore) :
    Except String Unit × BudgetStore :=
  match checkFinalizedBudget env ctx finalizedBudget s with
  | .error strInvalid => (.error strInvalid, s)
  | .ok finalizedBudget =>
    let vBudget := getBudget env ctx s.mapProposals
    let s := s.withProposals vBudget.2
    if !finalizedBudget.checkProposals (winningProposals env vBudget.1) then
      (.error "Invalid proposals", s)
    else (.ok (), { s with budgets := s.budgets.add (budgetKind env) finalizedBudget })

/-- `UpdateProposal`: store a vote in its proposal, or let it wait for one. -/
def updateProposal (fromPeer : Bool) (vote : BudgetVote) (s : BudgetStore) :
    Except VoteRefusal Unit × BudgetStore :=
  match s.mapProposals[vote.nProposalHash]? with
  | none =>
    if fromPeer && ctx.isSynced then
      (.error .notFound, { s with
        mapOrphanProposalVotes := s.mapOrphanProposalVotes.insert vote.nProposalHash vote })
    else (.error .notFound, s)
  | some p =>
    match addOrUpdateVote (countedVotes env.crypto) ctx.toVoteContext p.mapVotes ⟨vote, true⟩ with
    | .error refusal => (.error refusal, s)
    | .ok mapVotes =>
      (.ok (), s.withProposals (s.mapProposals.insert vote.nProposalHash { p with mapVotes }))

/-- `UpdateFinalizedBudget`. -/
def updateFinalizedBudget (fromPeer : Bool) (vote : FinalizedBudgetVote) (s : BudgetStore) :
    Except VoteRefusal Unit × BudgetStore :=
  match s.mapFinalizedBudgets[vote.nBudgetHash]? with
  | none =>
    if fromPeer && ctx.isSynced then
      (.error .notFound, { s with
        mapOrphanFinalizedBudgetVotes :=
          s.mapOrphanFinalizedBudgetVotes.insert vote.nBudgetHash vote })
    else (.error .notFound, s)
  | some b =>
    match addOrUpdateVote (finalizedBudgetVotes env.crypto) ctx.toVoteContext b.mapVotes vote with
    | .error refusal => (.error refusal, s)
    | .ok mapVotes =>
      (.ok (), s.withBudgets (s.mapFinalizedBudgets.insert vote.nBudgetHash { b with mapVotes }))

/-- The node's own vote is remembered if it was stored. -/
def submitVote (s : BudgetStore) (vote : FinalizedBudgetVote) : BudgetStore :=
  match updateFinalizedBudget env ctx false vote s with
  | (.error _, s) => s
  | (.ok _, s) =>
    { s with
      mapSeenFinalizedBudgetVotes := s.mapSeenFinalizedBudgetVotes.insertIfNew
        ((finalizedBudgetVotes env.crypto).hash vote) vote }

/-- Each budget is looked at once, and voted for if it matches the winning proposals. -/
def voteOnFinalizedBudgets (s : BudgetStore) : BudgetStore :=
  match ctx.ownVote with
  | none => s
  | some sign =>
    let vBudget := getBudget env ctx s.mapProposals
    let s := s.withProposals vBudget.2
    if vBudget.1.isEmpty then s
    else
      let winning := winningProposals env vBudget.1
      let vBudgetHashes := s.mapFinalizedBudgets.toList.filterMap fun e =>
        if e.2.fAutoChecked || (ctx.budgetModeAuto && !e.2.checkProposals winning) then none
        else some (e.2.getHash env)
      (vBudgetHashes.filterMap sign).foldl (submitVote env ctx)
        (s.withBudgets (s.mapFinalizedBudgets.map fun _ b => { b with fAutoChecked := true }))

def checkAndRemove (s : BudgetStore) : BudgetStore :=
  voteOnFinalizedBudgets env ctx
    { s with
      proposals := s.proposals.checkAndRemove (proposalKind env) fun p =>
        p.updateValid env ctx ctx.nBestHeight
      budgets := s.budgets.checkAndRemove (budgetKind env) fun b =>
        b.updateValid env ctx.nBestHeight }

def removeByFeeTxId (feeTxId : Uint256) (s : BudgetStore) : BudgetStore :=
  match s.proposals.removeByFeeTxId feeTxId with
  | some (p, proposals) =>
    let hashes := (p.map fun p => p.mapVotes.toList.map fun e =>
      (proposalVotes env.crypto).hash e.2.vote).getD []
    { s with
      proposals
      mapSeenProposalVotes := hashes.foldl (·.erase ·) s.mapSeenProposalVotes
      mapOrphanProposalVotes := hashes.foldl (·.erase ·) s.mapOrphanProposalVotes }
  | none =>
    match s.budgets.removeByFeeTxId feeTxId with
    | some (b, budgets) =>
      let hashes := (b.map fun b => b.mapVotes.toList.map fun e =>
        (finalizedBudgetVotes env.crypto).hash e.2).getD []
      { s with
        budgets
        mapSeenFinalizedBudgetVotes := hashes.foldl (·.erase ·) s.mapSeenFinalizedBudgetVotes
        mapOrphanFinalizedBudgetVotes := hashes.foldl (·.erase ·) s.mapOrphanFinalizedBudgetVotes }
    | none => s

/-- The calls, each with what the node knows at the time, and the votes that arrive. -/
inductive Op
  | addProposal (ctx : BudgetContext) (p : BudgetProposal)
  | addFinalizedBudget (ctx : BudgetContext) (b : BudgetFinalization)
  | checkAndRemove (ctx : BudgetContext)
  | removeByFeeTxId (feeTxId : Uint256)
  | proposalVote (ctx : BudgetContext) (vote : BudgetVote)
  | finalizedBudgetVote (ctx : BudgetContext) (vote : FinalizedBudgetVote)

def step (s : BudgetStore) : Op → BudgetStore
  | .addProposal ctx p => (addProposal env ctx p s).toOption.getD s
  | .addFinalizedBudget ctx b => (addFinalizedBudget env ctx b s).2
  | .checkAndRemove ctx => checkAndRemove env ctx s
  | .removeByFeeTxId feeTxId => removeByFeeTxId env feeTxId s
  | .proposalVote ctx vote => (updateProposal env ctx true vote s).2
  | .finalizedBudgetVote ctx vote => (updateFinalizedBudget env ctx true vote s).2

/-- No stored object has the fee transaction. -/
def NoneWith (feeTx : Uint256) (s : BudgetStore) : Prop :=
  FMap.All (fun _ p => p.nFeeTXHash ≠ feeTx) s.mapProposals ∧
    FMap.All (fun _ b => b.nFeeTXHash ≠ feeTx) s.mapFinalizedBudgets

/-- **Unshared.** An object that is to be added does not have the fee transaction of a stored
one. -/
def Unshared (s : BudgetStore) : Op → Prop
  | .addProposal _ p => s.NoneWith p.nFeeTXHash
  | .addFinalizedBudget _ b => s.NoneWith b.nFeeTXHash
  | _ => True

/-! ### What every call keeps -/

/-- **Both indexes are exact**, and no proposal has the fee transaction of a finalized budget. -/
structure Indexed (s : BudgetStore) : Prop where
  proposals : s.proposals.Exact (proposalKind env)
  budgets : s.budgets.Exact (budgetKind env)
  disjoint : ∀ feeTx, s.proposals.Has (proposalKind env) feeTx → ¬ s.budgets.Has (budgetKind env) feeTx

variable {env ctx} {s s' : BudgetStore}

variable (env) in
theorem NoneWith.not_has {feeTx} (h : s.NoneWith feeTx) :
    ¬ s.proposals.Has (proposalKind env) feeTx ∧ ¬ s.budgets.Has (budgetKind env) feeTx := by
  constructor
  · intro ⟨nHash, p, hp, hfee⟩
    exact h.1 hp hfee
  · intro ⟨nHash, b, hb, hfee⟩
    exact h.2 hb hfee

variable (env) in
/-- A change that neither index sees. -/
def SameFees (s s' : BudgetStore) : Prop :=
  FeeIndexed.SameFees (proposalKind env) s.proposals s'.proposals ∧
    FeeIndexed.SameFees (budgetKind env) s.budgets s'.budgets

theorem SameFees.trans {s''} (h : SameFees env s s') (h' : SameFees env s' s'') :
    SameFees env s s'' :=
  ⟨h.1.trans h'.1, h.2.trans h'.2⟩

theorem SameFees.refl (s : BudgetStore) : SameFees env s s := ⟨.refl _, .refl _⟩

theorem SameFees.indexed (h : SameFees env s s') (hs : s.Indexed env) : s'.Indexed env where
  proposals := h.1.exact hs.proposals
  budgets := h.2.exact hs.budgets
  disjoint feeTx hp hb := hs.disjoint feeTx (h.1.has hp) (h.2.has hb)

variable (env ctx) in
/-- `GetBudget` only looks at the votes again. -/
theorem sameFees_getBudget (s : BudgetStore) :
    SameFees env s (s.withProposals (getBudget env ctx s.mapProposals).2) := by
  refine ⟨?_, .refl _⟩
  by_cases hheight : ctx.nBestHeight ≤ 0
  · rw [getBudget, if_pos hheight]
    exact .refl _
  · rw [getBudget, if_neg hheight]
    exact map (fun _ _ => rfl) fun _ _ => rfl

theorem sameFees_updateProposal (fromPeer : Bool) (vote : BudgetVote) :
    SameFees env s (updateProposal env ctx fromPeer vote s).2 := by
  unfold updateProposal
  cases hp : s.mapProposals[vote.nProposalHash]? with
  | none =>
    dsimp only
    split_ifs <;> exact .refl _
  | some p =>
    dsimp only
    cases addOrUpdateVote (countedVotes env.crypto) ctx.toVoteContext p.mapVotes ⟨vote, true⟩ with
    | error refusal => exact .refl _
    | ok mapVotes => exact ⟨insert hp rfl rfl, .refl _⟩

variable (env ctx s) in
theorem sameFees_updateFinalizedBudget (fromPeer : Bool) (vote : FinalizedBudgetVote) :
    SameFees env s (updateFinalizedBudget env ctx fromPeer vote s).2 := by
  unfold updateFinalizedBudget
  cases hb : s.mapFinalizedBudgets[vote.nBudgetHash]? with
  | none =>
    dsimp only
    split_ifs <;> exact .refl _
  | some b =>
    dsimp only
    cases addOrUpdateVote (finalizedBudgetVotes env.crypto) ctx.toVoteContext b.mapVotes vote with
    | error refusal => exact .refl _
    | ok mapVotes => exact ⟨.refl _, insert hb rfl rfl⟩

theorem sameFees_submitVote (vote : FinalizedBudgetVote) :
    SameFees env s (submitVote env ctx s vote) := by
  have hupdate := sameFees_updateFinalizedBudget env ctx s false vote
  unfold submitVote
  rcases hs' : updateFinalizedBudget env ctx false vote s with ⟨_ | _, s'⟩
  · rwa [hs'] at hupdate
  · rwa [hs'] at hupdate

theorem sameFees_submitVotes (votes : List FinalizedBudgetVote) :
    SameFees env s (votes.foldl (submitVote env ctx) s) := by
  induction votes generalizing s with
  | nil => exact .refl _
  | cons vote votes ih => exact (sameFees_submitVote vote).trans ih

theorem sameFees_voteOnFinalizedBudgets (s : BudgetStore) :
    SameFees env s (voteOnFinalizedBudgets env ctx s) := by
  unfold voteOnFinalizedBudgets
  cases ctx.ownVote with
  | none => exact .refl _
  | some sign =>
    dsimp only
    have hget := sameFees_getBudget env ctx s
    split_ifs with hempty
    · exact hget
    · refine (hget.trans ?_).trans (sameFees_submitVotes _)
      exact ⟨.refl _, map (fun _ _ => rfl) fun _ _ => rfl⟩

theorem Indexed.empty : Indexed env {} where
  proposals := FeeIndexed.exact_empty _
  budgets := FeeIndexed.exact_empty _
  disjoint _ := fun ⟨_, _, h, _⟩ => by simp at h

/-- A block of checks passes when the first one does and the rest does after it. -/
theorem ok_of_bind {α β : Type} {x} {f : α → Except String β} {b : β}
    (h : (x >>= f) = .ok b) : ∃ a, x = .ok a ∧ f a = .ok b := by
  cases x with
  | error e => cases h
  | ok a => exact ⟨a, rfl, h⟩

variable {b b' : BudgetFinalization} {p : BudgetProposal}

theorem proposal_updateValid_ok {p'} {nHeight : Int}
    (h : p.updateValid env ctx nHeight = .ok p') : p' = { p with fValid := true } := by
  dsimp only [updateValid] at h
  split_ifs at h
  exact (Except.ok.inj h).symm

theorem finalization_updateValid_ok {nHeight : Int} (h : b.updateValid env nHeight = .ok b')
    : b' = b := by
  dsimp only [BudgetFinalization.updateValid] at h
  split_ifs at h
  exact (Except.ok.inj h).symm

/-- An accepted proposal is new, and is stored with its own hash and fee transaction. -/
theorem addProposal_ok (h : addProposal env ctx p s = .ok s') :
    s.mapProposals[p.getHash env]? = none ∧
    ∃ p', p'.getHash env = p.getHash env ∧ p'.nFeeTXHash = p.nFeeTXHash ∧
      s' = { s with proposals := s.proposals.add (proposalKind env) p' } := by
  dsimp only [addProposal] at h
  split_ifs at h with hseen
  obtain ⟨_, -, h⟩ := ok_of_bind h
  obtain ⟨nTime, -, h⟩ := ok_of_bind h
  obtain ⟨p', hvalid, h⟩ := ok_of_bind h
  rw [proposal_updateValid_ok hvalid] at h
  refine ⟨by simpa using hseen, _, ?_, ?_, (Except.ok.inj h).symm⟩
  · rfl
  · rfl

theorem checkFinalizedBudget_ok (h : checkFinalizedBudget env ctx b s = .ok b') :
    s.mapFinalizedBudgets[b.getHash env]? = none ∧ b' = b := by
  dsimp only [checkFinalizedBudget] at h
  split_ifs at h with hseen
  obtain ⟨_, -, h⟩ := ok_of_bind h
  obtain ⟨nTime, -, h⟩ := ok_of_bind h
  exact ⟨by simpa using hseen, finalization_updateValid_ok h⟩
section

variable (hs : s.Indexed env)
include hs


theorem Indexed.addProposal (hfee : s.NoneWith p.nFeeTXHash) (h : addProposal env ctx p s = .ok s')
    : s'.Indexed env := by
  obtain ⟨hnew, p', hhash, hfeeTx, rfl⟩ := addProposal_ok h
  obtain ⟨hprop, hbud⟩ := hfee.not_has env
  rw [← hfeeTx] at hprop hbud
  rw [← hhash] at hnew
  refine ⟨hs.proposals.add hnew hprop, hs.budgets, fun feeTx hp hb => ?_⟩
  rcases FeeIndexed.has_add hp with heq | hp
  · subst heq
    exact hbud hb
  · exact hs.disjoint feeTx hp hb

theorem Indexed.addFinalizedBudget (hfee : s.NoneWith b.nFeeTXHash) :
    (addFinalizedBudget env ctx b s).2.Indexed env := by
  unfold BudgetStore.addFinalizedBudget
  cases hcheck : checkFinalizedBudget env ctx b s with
  | error strInvalid => exact hs
  | ok b' =>
    obtain ⟨hnew, rfl⟩ := checkFinalizedBudget_ok hcheck
    obtain ⟨hprop, hbud⟩ := hfee.not_has env
    have hget := sameFees_getBudget env ctx s
    have hs' := hget.indexed hs
    dsimp only
    split_ifs with hprops
    · exact hs'
    · refine ⟨hs'.proposals, hs'.budgets.add hnew hbud, fun feeTx hp hb => ?_⟩
      rcases FeeIndexed.has_add hb with heq | hb
      · subst heq
        exact hprop (hget.1.has hp)
      · exact hs'.disjoint feeTx hp hb

theorem Indexed.checkAndRemove : (checkAndRemove env ctx s).Indexed env := by
  refine (sameFees_voteOnFinalizedBudgets _).indexed ?_
  have hprop : ∀ p p', updateValid env ctx p ctx.nBestHeight = .ok p' →
      (proposalKind env).hash p' = (proposalKind env).hash p ∧
        (proposalKind env).feeTx p' = (proposalKind env).feeTx p := by
    intro p p' h
    rw [proposal_updateValid_ok h]
    exact ⟨rfl, rfl⟩
  have hbud : ∀ b b', BudgetFinalization.updateValid env b ctx.nBestHeight = .ok b' →
      (budgetKind env).hash b' = (budgetKind env).hash b ∧
        (budgetKind env).feeTx b' = (budgetKind env).feeTx b := by
    intro b b' h
    rw [finalization_updateValid_ok h]
    exact ⟨rfl, rfl⟩
  refine ⟨hs.proposals.checkAndRemove hprop, hs.budgets.checkAndRemove hbud, fun feeTx hp hb => ?_⟩
  exact hs.disjoint feeTx (hs.proposals.has_of_checkAndRemove hprop hp)
    (hs.budgets.has_of_checkAndRemove hbud hb)

/-- After `RemoveByFeeTxId` neither map has an object with the fee transaction. -/
theorem Indexed.removeByFeeTxId (feeTxId : Uint256) : (removeByFeeTxId env feeTxId s).Indexed env ∧
    ¬ (removeByFeeTxId env feeTxId s).proposals.Has (proposalKind env) feeTxId ∧
    ¬ (removeByFeeTxId env feeTxId s).budgets.Has (budgetKind env) feeTxId := by
  unfold BudgetStore.removeByFeeTxId
  cases hp : s.proposals.removeByFeeTxId feeTxId with
  | some r =>
    obtain ⟨hhad, hex, hhas⟩ := hs.proposals.removeByFeeTxId_some hp
    refine ⟨⟨hex, hs.budgets, fun feeTx h hb => hs.disjoint feeTx ((hhas feeTx).mp h).1 hb⟩,
      fun h => ((hhas feeTxId).mp h).2 rfl, ?_⟩
    -- a proposal had the fee transaction, so no budget has it
    exact hs.disjoint feeTxId hhad
  | none =>
    have hnone := hs.proposals.removeByFeeTxId_none hp
    dsimp only
    cases hb : s.budgets.removeByFeeTxId feeTxId with
    | none => exact ⟨hs, hnone, hs.budgets.removeByFeeTxId_none hb⟩
    | some r =>
      obtain ⟨-, hex, hhas⟩ := hs.budgets.removeByFeeTxId_some hb
      refine ⟨⟨hs.proposals, hex, fun feeTx h hb => hs.disjoint feeTx h ((hhas feeTx).mp hb).1⟩,
        hnone, fun h => ((hhas feeTxId).mp h).2 rfl⟩

/-- **The step lemma.** -/
theorem Indexed.step {op : Op} (hop : Unshared s op) : (step env s op).Indexed env := by
  cases op with
  | addProposal ctx p =>
    show ((BudgetStore.addProposal env ctx p s).toOption.getD s).Indexed env
    cases hadd : BudgetStore.addProposal env ctx p s with
    | error strInvalid => exact hs
    | ok s' => exact hs.addProposal hop hadd
  | addFinalizedBudget ctx b => exact hs.addFinalizedBudget hop
  | checkAndRemove ctx => exact hs.checkAndRemove
  | removeByFeeTxId feeTxId => exact (hs.removeByFeeTxId feeTxId).1
  | proposalVote ctx vote => exact (sameFees_updateProposal true vote).indexed hs
  | finalizedBudgetVote ctx vote => exact (sameFees_updateFinalizedBudget env ctx s true vote).indexed hs

end

/-- **The indexes are exact in every state of a run without shared fee transactions**, and
`RemoveByFeeTxId` leaves no object with the fee transaction. -/
theorem fee_index_exact (hrun : GuardedRun (step env) Unshared {} s) :
    (∀ feeTx nHash : Uint256, s.mapFeeTxToProposal[feeTx]? = some nHash ↔
      ∃ p, s.mapProposals[nHash]? = some p ∧ p.nFeeTXHash = feeTx) ∧
    (∀ feeTx nHash : Uint256, s.mapFeeTxToBudget[feeTx]? = some nHash ↔
      ∃ b, s.mapFinalizedBudgets[nHash]? = some b ∧ b.nFeeTXHash = feeTx) ∧
    ∀ feeTxId, (removeByFeeTxId env feeTxId s).NoneWith feeTxId := by
  have hs : s.Indexed env := hrun.invariant Indexed.empty fun s op hs hop => hs.step hop
  refine ⟨hs.proposals.index, hs.budgets.index, fun feeTxId => ?_⟩
  obtain ⟨-, hp, hb⟩ := hs.removeByFeeTxId feeTxId
  exact ⟨fun nHash p h hfee => hp ⟨nHash, p, h, hfee⟩,
    fun nHash b h hfee => hb ⟨nHash, b, h, hfee⟩⟩

end BudgetStore

/-! ### Two proposals with one fee transaction -/

namespace Sample

def budgetEnv : BudgetEnv where
  params := regtestAmounts regtestParams
  nMaxProposalPayments := 20
  nBudgetFeeConfirmations := 3
  nProposalEstablishmentTime := 60 * 5
  crypto := voteCrypto
  proposalHash strProposalName _ _ _ _ _ := Fin.ofNat _ strProposalName.length
  finalizedBudgetHash strBudgetName _ _ := Fin.ofNat _ strBudgetName.length
  destination _ := some true

/-- Transaction 7 of block 8 burns the fee for the objects with the hashes 1 and 2. -/
def burnTwice : BudgetContext where
  toVoteContext := voteContext
  nBestHeight := 120
  adjustedTime := 100000
  nCountEnabled := 2
  getTransaction t :=
    if t = 7 then
      some (⟨0, [⟨50 * COIN, collateralScript 1⟩, ⟨50 * COIN, collateralScript 2⟩]⟩, 8)
    else none
  blockIndex b := if b = 8 then some ⟨100, 90000, true⟩ else none
  ownVote := none
  budgetModeAuto := true

/-- A proposal with fee transaction 7; its hash is the length of its name. -/
def paidBySeven (strProposalName : String) : BudgetProposal where
  strProposalName
  strURL := ""
  nBlockStart := 144
  nBlockEnd := 288
  address := [0x76]
  nAmount := 10 * COIN
  nFeeTXHash := 7
  nTime := 0

/-- Both proposals are added. -/
def twoProposals : BudgetStore :=
  [BudgetStore.Op.addProposal burnTwice (paidBySeven "a"),
    .addProposal burnTwice (paidBySeven "bb")].foldl (BudgetStore.step budgetEnv) {}

end Sample

namespace BudgetStore

open Sample (budgetEnv burnTwice paidBySeven twoProposals)

/-- One proposal is added and its fee transaction removed. -/
theorem oneProposal_indexed :
    let s := step budgetEnv {} (.addProposal burnTwice (paidBySeven "a"))
    s.mapFeeTxToProposal[(7 : Uint256)]? = some 1 ∧ (removeByFeeTxId budgetEnv 7 s).NoneWith 7 := by
  have hfee : Unshared {} (.addProposal burnTwice (paidBySeven "a")) :=
    ⟨FMap.All.empty, FMap.All.empty⟩
  have hrun : GuardedRun (step budgetEnv) Unshared {}
      (step budgetEnv {} (.addProposal burnTwice (paidBySeven "a"))) := .next _ .init hfee
  obtain ⟨-, -, hremoved⟩ := fee_index_exact hrun
  exact ⟨by decide +kernel, hremoved 7⟩

/-- **The second proposal stays.** The index keeps the entry of the first one, so `RemoveByFeeTxId`
removes that one, and afterwards the index does not know the fee transaction of the other. -/
theorem second_proposal_stays : twoProposals.mapFeeTxToProposal[(7 : Uint256)]? = some 1 ∧
    twoProposals.mapProposals[(2 : Uint256)]?.map nFeeTXHash = some 7 ∧
    (removeByFeeTxId budgetEnv 7 twoProposals).mapProposals[(2 : Uint256)]?.map
      nFeeTXHash = some 7 ∧
    (removeByFeeTxId budgetEnv 7 twoProposals).mapFeeTxToProposal[(7 : Uint256)]? = none ∧
    ¬ (removeByFeeTxId budgetEnv 7 twoProposals).NoneWith 7 := by
  have hleft : (removeByFeeTxId budgetEnv 7 twoProposals).mapProposals[(2 : Uint256)]?.map
      nFeeTXHash = some 7 := by decide +kernel
  refine ⟨by decide +kernel, by decide +kernel, hleft, by decide +kernel, fun hnone => ?_⟩
  obtain ⟨p, hp, hfee⟩ := Option.map_eq_some_iff.mp hleft
  exact hnone.1 hp hfee

end BudgetStore

end KmushiCoin
