import KmushiCoin.Masternode.HashCache

/-!
# KmushiCoin.Chain.Deliver

**The arrival of a block**: `ProcessNewBlock` with `GetPrevIndex`, `AcceptBlock`,
`AcceptBlockHeader`, the walk of `IsUnspentOnFork` back to the active chain and
`ReceivedBlockTransactions`.

* A `Delivery` is a block with the outcomes of the checks that do not look at the block index:
  proof, header, transactions, spent outputs. They may differ from one arrival to the next.
* What these functions read of the block index is in the model: known entries, failure marks, data,
  the depth of the fork, the blocks that wait for the data of an ancestor.
* `processNewBlock n` lets every call of `ActivateBestChain` make up to `n` turns; it is `none` when
  that is not enough.
-/

namespace KmushiCoin

open Function

/-- How `CheckBlock` and `ContextualCheckBlock` end. -/
inductive BlockVerdict
  | valid
  | invalid
  /-- The block failed, but another one with the same header may not. -/
  | corrupted
  deriving DecidableEq

/-- A block that arrives, and the outcomes of the checks on it. -/
structure Delivery (β : Type) where
  block : β
  isPoS : Bool
  /-- `CheckBlock`, before anything is stored. -/
  checkBlock : Bool
  /-- `CheckWork` and `CheckProofOfStake`. -/
  checkProof : Bool
  /-- The time, version and checkpoint checks of `ContextualCheckBlockHeader`. -/
  checkHeader : Bool
  /-- `CheckBlock` and `ContextualCheckBlock`, after the header was stored. -/
  checkContext : BlockVerdict
  /-- `CheckInBlockDoubleSpends`. -/
  checkDoubleSpends : Bool
  /-- Whether `IsUnspentOnFork` can read a block of the fork and finds no spent input in it. -/
  unspentIn : β → Bool
  /-- The checks of the inputs against the active chain. -/
  checkInputs : Bool
  /-- `Checkpoints::CheckBlock` with `fMatchesCheckpoint`. -/
  matchesCheckpoint : β → Bool
  /-- The blocks that `ConnectBlock` takes. -/
  accepts : β → Bool

/-- What `GetPrevIndex` finds. -/
inductive ParentStatus (β : Type)
  | known
  | unknown
  | invalid
  /-- The parent is marked failed but matches a checkpoint. -/
  | reconsidered (p : β)
  deriving DecidableEq

namespace ChainState

variable {β : Type} [DecidableEq β]

/-- `AddToBlockIndex` for a block that has no entry. -/
def addToBlockIndex (s : ChainState β) (b : β) : ChainState β :=
  { s with
    mapBlockIndex := b :: s.mapBlockIndex
    haveData := update s.haveData b false
    nChainTx := update s.nChainTx b false
    nSequenceId := update s.nSequenceId b 0
    failedValid := update s.failedValid b false
    failedChild := update s.failedChild b false }

def markFailed (s : ChainState β) (b : β) : ChainState β :=
  { s with failedValid := update s.failedValid b true }

end ChainState

namespace BlockTree

variable {β : Type} [DecidableEq β] (t : BlockTree β)

/-! ### ReceivedBlockTransactions -/

/-- A block whose ancestors all have data is linked, and a candidate unless it is worse than the
tip. -/
def link (s : ChainState β) (b : β) : ChainState β :=
  let s := { s with
    nChainTx := update s.nChainTx b ((t.parent b).elim false s.nChainTx || s.haveData b)
    nSequenceId := update s.nSequenceId b s.nBlockSequenceId
    nBlockSequenceId := s.nBlockSequenceId + 1 }
  if t.workLess s.nSequenceId b s.tip then s
  else { s with setBlockIndexCandidates := s.setBlockIndexCandidates.insert b }

/-- Link the blocks of the queue and those that waited for them. Each turn takes one block, and a
block comes to the queue once for each time it waits. -/
def linkQueue : Nat → List β → ChainState β → ChainState β
  | 0, _, s => s
  | _ + 1, [], s => s
  | n + 1, b :: queue, s =>
    let s := t.link s b
    let children := (s.mapBlocksUnlinked.filter fun e => e.1 = b).map (·.2)
    linkQueue n (queue ++ children)
      { s with mapBlocksUnlinked := s.mapBlocksUnlinked.filter fun e => e.1 ≠ b }

def receivedBlockTransactions (s : ChainState β) (b : β) : ChainState β :=
  let s := { s with
    haveData := update s.haveData b true
    nChainTx := update s.nChainTx b false }
  match t.parent b with
  | none => t.linkQueue (s.mapBlocksUnlinked.length + 1) [b] s
  | some pprev =>
    if s.nChainTx pprev then t.linkQueue (s.mapBlocksUnlinked.length + 1) [b] s
    else if s.failed pprev then s
    else { s with mapBlocksUnlinked := s.mapBlocksUnlinked ++ [(pprev, b)] }

/-- `ReconsiderBlock`. -/
def reconsiderBlock (s : ChainState β) (p : β) : ChainState β :=
  let cleared := fun b => s.failed b && decide (p ∈ t.path b)
  { s with
    failedValid := fun b => s.failedValid b && !cleared b && decide (b ∉ t.path p)
    failedChild := fun b => s.failedChild b && !cleared b && decide (b ∉ t.path p)
    setBlockIndexCandidates :=
      s.setBlockIndexCandidates ++ s.mapBlockIndex.filter fun b =>
        cleared b && s.haveData b && s.nChainTx b && t.workLess s.nSequenceId s.tip b }

end BlockTree

/-! ### AcceptBlock -/

namespace NodeEnv

variable {β : Type} [DecidableEq β] (env : NodeEnv β)

variable (d : Delivery β)

def getPrevIndex (s : ChainState β) : ParentStatus β :=
  match env.parent d.block with
  | none => .known
  | some p =>
    if p ∉ s.mapBlockIndex then .unknown
    else if s.failed p then if d.matchesCheckpoint p then .reconsidered p else .invalid
    else .known

def contextualCheckBlockHeader (s : ChainState β) : Bool :=
  match env.parent d.block with
  | none => true
  | some p =>
    -- a reorganisation must not be too deep
    if env.maxreorg + (env.height p + 1) ≤ env.height s.tip then false else d.checkHeader

def acceptBlockHeader (s : ChainState β) : ChainState β × Bool :=
  if d.block ∈ s.mapBlockIndex then (s, !s.failed d.block)
  else if env.contextualCheckBlockHeader d s then (s.addToBlockIndex d.block, true)
  else (s, false)

/-- `IsUnspentOnFork`: walk back from a block to the active chain. -/
def isUnspentOnFork (d : Delivery β) (s : ChainState β) : Nat → List β → Option β
  | _, [] => none
  | readBlock, pindexFork :: rest =>
    if pindexFork ∈ env.path s.tip then some pindexFork
    else if readBlock + 1 = env.maxreorg then none
    else if rest.isEmpty then none
    else if d.unspentIn pindexFork then isUnspentOnFork d s (readBlock + 1) rest
    else none

/-- The checks of a proof-of-stake block against its fork. -/
def checkFork (s : ChainState β) : Bool :=
  d.checkDoubleSpends &&
  (match env.parent d.block with
    | none => true
    | some pindexPrev =>
      if s.tip = pindexPrev then true
      else
        match env.isUnspentOnFork d s 0 (env.path pindexPrev) with
        | none => false
        | some pindexFork => !decide (env.maxreorg + env.height pindexFork < env.height s.tip)) &&
  d.checkInputs

/-- `AcceptBlock`, after `GetPrevIndex`. -/
def acceptBlock (s : ChainState β) : ChainState β × Bool :=
  if !d.checkProof then (s, false)
  else
    let (s, known) := env.acceptBlockHeader d s
    if !known then (s, false)
    else if s.haveData d.block then (s, true)
    else
      match d.checkContext with
      | .invalid => (s.markFailed d.block, false)
      | .corrupted => (s, false)
      | .valid =>
        if d.isPoS && !env.checkFork d s then (s, false)
        else (env.receivedBlockTransactions s d.block, true)

end NodeEnv

/-! ### ProcessNewBlock -/

/-- The chain and what the managers know of it. -/
structure ActiveNode (β : Type) where
  chain : ChainState β
  managers : TierTwo

namespace NodeEnv

variable {β : Type} [DecidableEq β] (env : NodeEnv β)

/-- `ActivateBestChain`, with what its events do to the managers. -/
def activate (accepts : β → Bool) (n : Nat) (node : ActiveNode β) :
    Outcome (Option (ActiveNode β)) := do
  match ← env.activateBestChain accepts n node.chain with
  | .inl _ => .ok none
  | .inr s => .ok (some ⟨s, s.trace.foldl env.onEvent node.managers⟩)

/-- Before V5.3 the best heights are set at the end, to the height of the block that arrived. -/
def setNewHeight (d : Delivery β) (node : ActiveNode β) : ActiveNode β :=
  if !env.fLiteMode && !env.isV5_3 (env.height node.chain.tip) then
    { node with managers := node.managers.setBestHeight (env.height d.block) }
  else node

/-- Store the block and activate the best chain. -/
def storeAndActivate (n : Nat) (d : Delivery β) (node : ActiveNode β) :
    Outcome (Option (Bool × ActiveNode β)) := do
  let (s, ret) := env.acceptBlock d node.chain
  if !ret then .ok (some (false, { node with chain := s }))
  else
    match ← env.activate d.accepts n { node with chain := s } with
    | none => .ok none
    | some node => .ok (some (true, env.setNewHeight d node))

/-- `ProcessNewBlock`. -/
def processNewBlock (n : Nat) (d : Delivery β) (node : ActiveNode β) :
    Outcome (Option (Bool × ActiveNode β)) :=
  if !d.checkBlock then .ok (some (false, node))
  else
    match env.getPrevIndex d node.chain with
    | .unknown => .ok (some (false, node))
    | .invalid => .ok (some (false, node))
    | .known => env.storeAndActivate n d node
    | .reconsidered p => do
      match ← env.activate d.accepts n
          { node with chain := env.reconsiderBlock node.chain p } with
      | none => .ok none
      | some node => env.storeAndActivate n d node

/-- The nodes that are reached by deliveries which meet a condition. -/
inductive NodeRun (ok : ActiveNode β → Delivery β → Prop) (node₀ : ActiveNode β) :
    ActiveNode β → Prop
  | init : NodeRun ok node₀ node₀
  | next {node node' : ActiveNode β} {ret : Bool} (n : Nat) (d : Delivery β) :
      NodeRun ok node₀ node → ok node d → env.processNewBlock n d node = .ok (some (ret, node')) →
      NodeRun ok node₀ node'

/-- `ProcessNewBlock` stores the block and calls `ActivateBestChain` in the state `s`. -/
def Calls (node : ActiveNode β) (d : Delivery β) (s : ChainState β) : Prop :=
  d.checkBlock = true ∧ env.getPrevIndex d node.chain = .known ∧
    env.acceptBlock d node.chain = (s, true)

/-! ### What an arrival does -/

/-- The block index with an entry for the block. -/
def entered (s : ChainState β) (b : β) : ChainState β :=
  if b ∈ s.mapBlockIndex then s else s.addToBlockIndex b

variable {env} {d : Delivery β} {s s' : ChainState β} {node node' : ActiveNode β}

theorem acceptBlockHeader_cases {known} (h : env.acceptBlockHeader d s = (s', known)) :
    (s' = s ∧ known = false) ∨
    (s' = entered s d.block ∧ known = true ∧ s'.failed d.block = false) := by
  unfold acceptBlockHeader at h
  unfold entered
  by_cases hmem : d.block ∈ s.mapBlockIndex
  · rw [if_pos hmem] at h
    cases h
    cases hfailed : s.failed d.block with
    | true => exact .inl ⟨rfl, rfl⟩
    | false => exact .inr ⟨by rw [if_pos hmem], rfl, rfl⟩
  · rw [if_neg hmem] at h
    split_ifs at h
    · cases h
      refine .inr ⟨by rw [if_neg hmem], rfl, ?_⟩
      simp [ChainState.failed, ChainState.addToBlockIndex]
    · cases h
      exact .inl ⟨rfl, rfl⟩

/-- **All that `AcceptBlock` does**: at most an entry and a mark for a block that fails, nothing for
a block that is there already, and otherwise the data of the block is received. -/
theorem acceptBlock_cases {ret} (h : env.acceptBlock d s = (s', ret)) :
    (ret = false ∧ (s' = s ∨ s' = entered s d.block ∨
      ((entered s d.block).haveData d.block = false ∧
        s' = (entered s d.block).markFailed d.block))) ∨
    (ret = true ∧ (entered s d.block).haveData d.block = true ∧ s' = entered s d.block) ∨
    (ret = true ∧ (entered s d.block).haveData d.block = false ∧
      (entered s d.block).failed d.block = false ∧
      (d.isPoS = true → env.checkFork d (entered s d.block) = true) ∧
      s' = env.receivedBlockTransactions (entered s d.block) d.block) := by
  unfold acceptBlock at h
  by_cases hproof : (!d.checkProof) = true
  · rw [if_pos hproof] at h
    cases h
    exact .inl ⟨rfl, .inl rfl⟩
  rw [if_neg hproof] at h
  cases hheader : env.acceptBlockHeader d s with
  | mk s₁ known =>
    rw [hheader] at h
    dsimp only at h
    rcases acceptBlockHeader_cases hheader with ⟨rfl, rfl⟩ | ⟨rfl, rfl, hfailed⟩
    · cases h
      exact .inl ⟨rfl, .inl rfl⟩
    · rw [if_neg (by simp)] at h
      by_cases hdata : (entered s d.block).haveData d.block = true
      · rw [if_pos hdata] at h
        cases h
        exact .inr (.inl ⟨rfl, hdata, rfl⟩)
      · rw [if_neg hdata] at h
        have hnone := Bool.eq_false_iff.mpr hdata
        cases hcontext : d.checkContext with
        | invalid =>
          rw [hcontext] at h
          cases h
          exact .inl ⟨rfl, .inr (.inr ⟨hnone, rfl⟩)⟩
        | corrupted =>
          rw [hcontext] at h
          cases h
          exact .inl ⟨rfl, .inr (.inl rfl)⟩
        | valid =>
          rw [hcontext] at h
          dsimp only at h
          by_cases hfork : (d.isPoS && !env.checkFork d (entered s d.block)) = true
          · rw [if_pos hfork] at h
            cases h
            exact .inl ⟨rfl, .inr (.inl rfl)⟩
          · rw [if_neg hfork] at h
            cases h
            refine .inr (.inr ⟨rfl, hnone, hfailed, fun hpos => ?_, rfl⟩)
            simpa [hpos] using hfork

theorem activate_some {accepts : β → Bool} {n : Nat}
    (h : env.activate accepts n node = .ok (some node')) :
    ∃ s, env.activateBestChain accepts n node.chain = .ok (.inr s) ∧
      node' = ⟨s, s.trace.foldl env.onEvent node.managers⟩ := by
  rw [activate, bind_ok] at h
  obtain ⟨r, hr, h⟩ := h
  cases r with
  | inl l => simp at h
  | inr s => exact ⟨s, hr, by simpa [eq_comm] using h⟩

/-- **All that `ProcessNewBlock` does** when no parent is reconsidered. -/
theorem processNewBlock_cases {n : Nat} {ret}
    (hprev : ∀ p, env.getPrevIndex d node.chain ≠ .reconsidered p)
    (h : env.processNewBlock n d node = .ok (some (ret, node'))) :
    (ret = false ∧ node' = node) ∨
    (ret = false ∧ env.getPrevIndex d node.chain = .known ∧
      ∃ s, env.acceptBlock d node.chain = (s, false) ∧ node' = { node with chain := s }) ∨
    (ret = true ∧ ∃ s s', env.Calls node d s ∧ env.activateBestChain d.accepts n s = .ok (.inr s') ∧
      node' = env.setNewHeight d ⟨s', s'.trace.foldl env.onEvent node.managers⟩) := by
  unfold processNewBlock at h
  by_cases hcheck : (!d.checkBlock) = true
  · rw [if_pos hcheck] at h
    obtain ⟨rfl, rfl⟩ : false = ret ∧ node = node' := by simpa using h
    exact .inl ⟨rfl, rfl⟩
  rw [if_neg hcheck] at h
  cases hstatus : env.getPrevIndex d node.chain with
  | unknown =>
    obtain ⟨rfl, rfl⟩ : false = ret ∧ node = node' := by simpa [hstatus] using h
    exact .inl ⟨rfl, rfl⟩
  | invalid =>
    obtain ⟨rfl, rfl⟩ : false = ret ∧ node = node' := by simpa [hstatus] using h
    exact .inl ⟨rfl, rfl⟩
  | reconsidered p => exact absurd hstatus (hprev p)
  | known =>
    simp only [hstatus] at h
    unfold storeAndActivate at h
    cases haccept : env.acceptBlock d node.chain with
    | mk s stored =>
      rw [haccept] at h
      cases stored with
      | false =>
        obtain ⟨rfl, rfl⟩ : false = ret ∧ { node with chain := s } = node' := by simpa using h
        exact .inr (.inl ⟨rfl, rfl, s, rfl, rfl⟩)
      | true =>
        simp only [Bool.not_true, Bool.false_eq_true, if_false] at h
        obtain ⟨r, hactivate, h⟩ := bind_ok.mp h
        cases r with
        | none => simp at h
        | some node₁ =>
          obtain ⟨s', hcall, rfl⟩ := activate_some hactivate
          obtain ⟨rfl, rfl⟩ : true = ret ∧ env.setNewHeight d _ = node' := by simpa using h
          exact .inr (.inr ⟨rfl, s, s', ⟨by simpa using hcheck, hstatus, haccept⟩, hcall, rfl⟩)

end NodeEnv

end KmushiCoin
