import KmushiCoin.Lib.Loop
import KmushiCoin.Lib.ParentTree
import KmushiCoin.Primitives.Transaction

/-!
# KmushiCoin.Chain.Activate

**The block index and the choice of the active chain**: `FindMostWorkChain`,
`PruneBlockIndexCandidates`, `ActivateBestChainStep` and `ActivateBestChain`.

* `BlockTree` is what the headers fix: the parent, the height and the chain work of every block, and
  the address of its entry. `ChainState` is what changes: which blocks have data, the failure flags,
  the order of arrival, the candidates and the tip. `chainActive` is the path of the tip.
* A set of entries is a list; only membership matters. The greatest entry of
  `setBlockIndexCandidates` is found with the comparator.
* `turn` is one turn of the inner loop of `ActivateBestChain`, with what follows from it for the
  outer loop. `activateBestChain n` makes up to `n` of them.
* `trace` says what a call did to the active chain, in order.
* `accepts` says which blocks `ConnectBlock` takes; a block that it does not take is invalid for
  good. Left out: the wallet and mempool signals, the warnings about forks, disk errors and the
  shutdown request.
-/

namespace KmushiCoin

open Bool

/-- What the headers of blocks fix. -/
structure BlockTree (β : Type) extends ParentTree β where
  nChainWork : β → Nat
  /-- The address of the entry, the last tie breaker. -/
  address : β → Nat
  address_injective : Function.Injective address

/-- What happens to the active chain. -/
inductive ChainEvent (β : Type) where
  /-- `ConnectTip` succeeded. -/
  | connected (b : β)
  /-- `DisconnectTip` succeeded. -/
  | disconnected (b : β)
  /-- `ConnectTip` failed, because the block is invalid. -/
  | refused (b : β)
  deriving DecidableEq

/-- The block index, the candidates and the active chain. -/
structure ChainState (β : Type) where
  mapBlockIndex : List β
  /-- `BLOCK_HAVE_DATA`. -/
  haveData : β → Bool
  /-- Whether `nChainTx` is not zero. -/
  nChainTx : β → Bool
  nSequenceId : β → Nat
  /-- `BLOCK_FAILED_VALID`. -/
  failedValid : β → Bool
  /-- `BLOCK_FAILED_CHILD`. -/
  failedChild : β → Bool
  setBlockIndexCandidates : List β
  mapBlocksUnlinked : List (β × β) := []
  tip : β
  nBlockSequenceId : Nat := 1
  /-- What this call of `ActivateBestChain` did so far. -/
  trace : List (ChainEvent β) := []

namespace ChainState

variable {β : Type} [DecidableEq β]

variable (s : ChainState β)

/-- `nStatus & BLOCK_FAILED_MASK`. -/
def failed (b : β) : Bool := s.failedValid b || s.failedChild b

def eraseCandidates (l : List β) : ChainState β :=
  { s with setBlockIndexCandidates := s.setBlockIndexCandidates.filter fun b => decide (b ∉ l) }

/-- `InvalidBlockFound` for a block that broke a rule. -/
def invalidBlockFound (b : β) : ChainState β :=
  { s with failedValid := fun a => s.failedValid a || a == b }.eraseCandidates [b]

def record (e : ChainEvent β) : ChainState β := { s with trace := s.trace ++ [e] }

end ChainState

namespace BlockTree

variable {β : Type} (t : BlockTree β)

/-! ### The order of blocks -/

/-- `CBlockIndexWorkComparator`: less work, a later arrival, a higher address. -/
def workLess (nSequenceId : β → Nat) (pa pb : β) : Bool :=
  if t.nChainWork pb < t.nChainWork pa then false
  else if t.nChainWork pa < t.nChainWork pb then true
  else if nSequenceId pa < nSequenceId pb then false
  else if nSequenceId pb < nSequenceId pa then true
  else if t.address pa < t.address pb then false
  else decide (t.address pb < t.address pa)

/-- The greatest entry, `*rbegin()`. -/
def greatest (nSequenceId : β → Nat) : List β → Option β
  | [] => none
  | b :: l =>
    match greatest nSequenceId l with
    | none => some b
    | some a => if t.workLess nSequenceId a b then some b else some a

section

variable {t} {nSequenceId : β → Nat} {a b c : β} {l : List β}

theorem workLess_iff : t.workLess nSequenceId a b = true ↔ t.nChainWork a < t.nChainWork b ∨
      (t.nChainWork a = t.nChainWork b ∧ (nSequenceId b < nSequenceId a ∨
          (nSequenceId a = nSequenceId b ∧ t.address b < t.address a))) := by
  unfold workLess
  split_ifs <;> simp only [decide_eq_true_eq, false_iff, true_iff] <;> omega

theorem workLess_self (t : BlockTree β) (nSequenceId : β → Nat) (b : β) :
    t.workLess nSequenceId b b = false := by
  rw [← not_eq_true, workLess_iff]
  omega

/-- Being at least as good is transitive. -/
theorem not_workLess_trans (hab : t.workLess nSequenceId a b = false)
    (hbc : t.workLess nSequenceId b c = false) : t.workLess nSequenceId a c = false := by
  rw [← not_eq_true, workLess_iff] at hab hbc ⊢
  omega

/-- What is worse than a block is worse than what is at least as good as it. -/
theorem workLess_of_workLess_of_not (hab : t.workLess nSequenceId a b = true)
    (hcb : t.workLess nSequenceId c b = false) : t.workLess nSequenceId a c = true := by
  rw [← not_eq_true, workLess_iff] at hcb
  rw [workLess_iff] at hab ⊢
  omega

theorem not_workLess_of_workLess (hab : t.workLess nSequenceId a b = true) :
    t.workLess nSequenceId b a = false := by
  rw [workLess_iff] at hab
  rw [← not_eq_true, workLess_iff]
  omega

/-- No two blocks are equally good. -/
theorem eq_of_not_workLess (hab : t.workLess nSequenceId a b = false)
    (hba : t.workLess nSequenceId b a = false) : a = b := by
  rw [← not_eq_true, workLess_iff] at hab hba
  exact t.address_injective (by omega)

theorem greatest_eq_none (hl : t.greatest nSequenceId l = none) : l = [] := by
  cases l with
  | nil => rfl
  | cons b l =>
    rw [greatest] at hl
    cases hrest : t.greatest nSequenceId l with
    | none => simp [hrest] at hl
    | some a =>
      rw [hrest] at hl
      dsimp only at hl
      split_ifs at hl

theorem greatest_spec (hl : t.greatest nSequenceId l = some b) :
    b ∈ l ∧ ∀ a ∈ l, t.workLess nSequenceId b a = false := by
  induction l generalizing b with
  | nil => simp [greatest] at hl
  | cons c l ih =>
    rw [greatest] at hl
    cases hrest : t.greatest nSequenceId l with
    | none =>
      rw [hrest] at hl
      cases hl
      simp [greatest_eq_none hrest, workLess_self]
    | some d =>
      obtain ⟨hmem, hbest⟩ := ih hrest
      rw [hrest] at hl
      dsimp only at hl
      by_cases hdc : t.workLess nSequenceId d c = true
      · rw [if_pos hdc] at hl
        cases hl
        refine ⟨List.mem_cons_self, fun a ha => ?_⟩
        rcases List.mem_cons.mp ha with rfl | ha
        · exact t.workLess_self _ a
        · exact not_workLess_trans (not_workLess_of_workLess hdc) (hbest a ha)
      · rw [if_neg hdc] at hl
        cases hl
        refine ⟨.tail _ hmem, fun a ha => ?_⟩
        rcases List.mem_cons.mp ha with rfl | ha
        · exact not_eq_true _ ▸ hdc
        · exact hbest a ha

end

/-! ### FindMostWorkChain -/

/-- The first block of a list that failed or that has no data. -/
def firstUnusable (s : ChainState β) : List β → Outcome (Option β)
  | [] => .ok none
  | b :: l => do
    assert (s.nChainTx b || t.height b == 0) "pindexTest->nChainTx || pindexTest->nHeight == 0"
    if s.failed b || !s.haveData b then .ok (some b) else firstUnusable s l

variable [DecidableEq β]

variable (s : ChainState β)

/-- The chain from the candidate down to the unusable block is no candidate any more. -/
def discardChain (pindexNew pindexTest : β) : ChainState β :=
  let fFailedChain := s.failed pindexTest
  let descendants := (t.path pindexNew).takeWhile fun b => decide (b ≠ pindexTest)
  { s with
    failedChild := fun b => s.failedChild b || (fFailedChain && descendants.contains b)
    mapBlocksUnlinked :=
      if fFailedChain then s.mapBlocksUnlinked
      else s.mapBlocksUnlinked ++ descendants.filterMap fun b => (t.parent b).map (·, b)
  }.eraseCandidates (pindexTest :: descendants)

/-- Each turn discards a candidate at least, so the number of candidates bounds the turns. -/
def findMostWorkChainLoop : Nat → ChainState β → Outcome (Option β × ChainState β)
  | 0, s => .ok (none, s)
  | n + 1, s =>
    match t.greatest s.nSequenceId s.setBlockIndexCandidates with
    | none => .ok (none, s)
    | some pindexNew => do
      match ← t.firstUnusable s (t.branch pindexNew s.tip) with
      | none => .ok (some pindexNew, s)
      | some pindexTest => findMostWorkChainLoop n (t.discardChain s pindexNew pindexTest)

def findMostWorkChain : Outcome (Option β × ChainState β) :=
  t.findMostWorkChainLoop (s.setBlockIndexCandidates.length + 1) s

def pruneBlockIndexCandidates : Outcome (ChainState β) := do
  let s := { s with
    setBlockIndexCandidates :=
      s.setBlockIndexCandidates.filter fun b => !t.workLess s.nSequenceId b s.tip }
  assert (!s.setBlockIndexCandidates.isEmpty) "!setBlockIndexCandidates.empty()"
  .ok s

/-! ### ActivateBestChainStep -/

/-- `CChain::FindFork`. -/
def findFork (b : β) : Option β :=
  (if t.height s.tip < t.height b then t.ancestor b (t.height s.tip) else some b).bind
    fun b => t.fork b s.tip

/-- Disconnect blocks down to the fork. -/
def disconnectLoop (pindexFork : β) : Nat → ChainState β → Outcome (ChainState β)
  | 0, s => .ok s
  | n + 1, s =>
    if s.tip = pindexFork then .ok s
    else
      match t.parent s.tip with
      | none => .error (.abort "pindexDelete->pprev")
      | some pprev =>
        disconnectLoop pindexFork n { s.record (.disconnected s.tip) with tip := pprev }

/-- Connect blocks one after the other. The first result is false when the loop was left, the second
one true when that was because of an invalid block. -/
def connectBlocks (accepts : β → Bool) (pindexOldTip : β) :
    List β → ChainState β → Outcome (ChainState β × Bool × Bool)
  | [], s => .ok (s, true, false)
  | b :: l, s => do
    assert (t.parent b == some s.tip) "pindexNew->pprev == chainActive.Tip()"
    if accepts b then do
      let s ← t.pruneBlockIndexCandidates { s.record (.connected b) with tip := b }
      if t.nChainWork pindexOldTip < t.nChainWork s.tip then .ok (s, false, false)
      else connectBlocks accepts pindexOldTip l s
    else .ok ((s.record (.refused b)).invalidBlockFound b, false, true)

/-- Connect blocks in batches of 32, from a height up to the target. -/
def connectBatches (accepts : β → Bool) (pindexOldTip pindexMostWork : β) :
    Nat → Nat → ChainState β → Outcome (ChainState β × Bool)
  | 0, _, s => .ok (s, false)
  | n + 1, nHeight, s =>
    if nHeight = t.height pindexMostWork then .ok (s, false)
    else do
      let nTargetHeight := min (nHeight + 32) (t.height pindexMostWork)
      let vpindexToConnect :=
        ((t.ancestor pindexMostWork nTargetHeight).map fun b => t.above b nHeight).getD []
      let (s, fContinue, fInvalidFound) ←
        t.connectBlocks accepts pindexOldTip vpindexToConnect.reverse s
      if fContinue then connectBatches accepts pindexOldTip pindexMostWork n nTargetHeight s
      else .ok (s, fInvalidFound)

/-- `ActivateBestChainStep`; true when an invalid block was found. -/
def activateBestChainStep (accepts : β → Bool) (pindexMostWork : β) (s : ChainState β) :
    Outcome (ChainState β × Bool) :=
  match t.findFork s pindexMostWork with
  -- all blocks descend from the first one, which is never disconnected
  | none => .error (.abort "pindexDelete->pprev")
  | some pindexFork => do
    let pindexOldTip := s.tip
    let s ← t.disconnectLoop pindexFork (t.height s.tip + 1) s
    t.connectBatches accepts pindexOldTip pindexMostWork (t.height pindexMostWork + 1)
      (t.height pindexFork) s

end BlockTree

/-! ### ActivateBestChain -/

/-- The variables of the loops of `ActivateBestChain`. -/
structure ActivateLoop (β : Type) where
  state : ChainState β
  pindexMostWork : Option β
  startingTip : β
  blocksConnected : Bool

namespace BlockTree

variable {β : Type} [DecidableEq β] (t : BlockTree β) (accepts : β → Bool)

/-- The target of a turn: the one of the turn before, or the most work chain. -/
def nextTarget (l : ActivateLoop β) : Outcome (Option β × ChainState β) :=
  match l.pindexMostWork with
  | some b => .ok (some b, l.state)
  | none => t.findMostWorkChain l.state

/-- One turn: the loops go on with new variables, or `ActivateBestChain` returns. -/
def turn (l : ActivateLoop β) : Outcome (ActivateLoop β ⊕ ChainState β) := do
  let (pindexMostWork, s) ← t.nextTarget l
  match pindexMostWork with
  | none =>
    -- the inner loop is left; without a target the outer loop never ends by its condition
    if l.blocksConnected then .ok (.inl ⟨s, none, s.tip, false⟩) else .ok (.inr s)
  | some target =>
    if target = s.tip then .ok (.inr s)
    else do
      let (s, fInvalidFound) ← t.activateBestChainStep accepts target s
      let pindexMostWork := if fInvalidFound then none else some target
      if t.workLess s.nSequenceId s.tip l.startingTip then
        -- the inner loop goes on until the tip is as good as before
        .ok (.inl ⟨s, pindexMostWork, l.startingTip, true⟩)
      else if pindexMostWork = some s.tip then .ok (.inr s)
      else .ok (.inl ⟨s, pindexMostWork, s.tip, false⟩)

/-- The variables at the start. -/
def startLoop (s : ChainState β) : ActivateLoop β := ⟨{ s with trace := [] }, none, s.tip, false⟩

/-- `ActivateBestChain`, up to a number of turns. -/
def activateBestChain (n : Nat) (s : ChainState β) : Outcome (ActivateLoop β ⊕ ChainState β) :=
  Loop.iterate (t.turn accepts) n (startLoop s)

end BlockTree

end KmushiCoin
