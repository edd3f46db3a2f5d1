import KmushiCoin.Chain.ReorgDepth

/-!
# KmushiCoin.Masternode.BestHeight

**The best heights of the managers over a run.** Since V5.3 `ConnectTip` sets them; before it
`ProcessNewBlock` sets them when all is done, to the height of the block that arrived.

* A call of `ActivateBestChain` that goes back connects a block later (`call_settles`), because it
  ends at a tip that is not worse than the one it left.
* So the heights are right since V5.3. Before it they are right exactly when the block that arrived
  has the height of the new tip; a block of a stale fork moves them off the active chain.
* The ring of hashes is right in any case.
-/

namespace KmushiCoin

open ParentTree BlockTree

namespace NodeEnv

variable {β : Type} {env : NodeEnv β} {accepts : β → Bool} {s₀ s s' : ChainState β}

/-! ### A call of `ActivateBestChain` -/

/-- The tip is the target: every reorganisation of the call is settled. -/
theorem settles_of_aimed {floor : β} (hidx : env.IndexChecked s₀)
    (hrun : env.Running accepts s₀ floor s) (haimed : env.Aimed s s.tip)
    (hsettles : Settles s.trace ∨ env.workLess s₀.nSequenceId s.tip floor = true) :
    Settles s.trace := by
  refine hsettles.resolve_right fun hless => ?_
  have hgreatest := haimed.greatest floor (hrun.floor_candidate hidx)
  rw [hrun.nSequenceId] at hgreatest
  simp [hgreatest] at hless

variable [DecidableEq β] {l : ActivateLoop β}

/-- What holds at the head of the loop: the tip was reached by connecting a block, or it is worse
than a block that was connected. -/
def Settling (env : NodeEnv β) (accepts : β → Bool) (s₀ : ChainState β) (s : ChainState β)
    (pindexMostWork : Option β) : Prop :=
  ∃ floor, env.Running accepts s₀ floor s ∧
    (∀ target, pindexMostWork = some target → env.Aimed s target ∧ s.tip ∈ env.path target) ∧
    (Settles s.trace ∨ env.workLess s₀.nSequenceId s.tip floor = true) ∧
    env.Follows s₀.tip s.trace s.tip

section

variable (hidx : env.IndexChecked s₀) (hwork : env.AddsWork)
include hidx hwork

/-- A step settles what it disconnects, or stays below the best tip so far. -/
theorem settling_step {floor target : β} {inv} (hrun : env.Running accepts s₀ floor s)
    (haimed : env.Aimed s target)
    (hsettles : Settles s.trace ∨ env.workLess s₀.nSequenceId s.tip floor = true)
    (hfollows : env.Follows s₀.tip s.trace s.tip)
    (hstep : env.activateBestChainStep accepts target s = .ok (s', inv)) :
    env.Settling accepts s₀ s' (if inv then none else some target) := by
  obtain ⟨floor', s₁, inv₁, hstep₁, hrun', hfloor, hok, -⟩ :=
    activateBestChainStep_sound hidx hrun haimed
  obtain ⟨rfl, rfl⟩ : s₁ = s' ∧ inv₁ = inv := by simpa [hstep₁] using hstep
  obtain ⟨g, hg⟩ := hidx.exists_root
  have htarget := hidx.candidate_mem _ (hrun.candidate_old _ haimed.mem)
  obtain ⟨f, hf⟩ := exists_fork (hg target htarget) (hg s.tip hrun.tip_mem)
  have hftip := (fork_mem hf).2
  obtain ⟨events, htrace, hevents, hnone⟩ := (connects_of_step hf hstep).trace
  have hmore : Settles events := settles_of_none hnone
  have htrace' : s₁.trace =
      (s.trace ++ (env.above s.tip (env.height f)).map .disconnected) ++ events := htrace
  refine ⟨floor', hrun', fun target' htarget' => ?_, ?_, ?_⟩
  · cases inv₁ with
    | true => simp at htarget'
    | false =>
      obtain rfl : target = target' := by simpa using htarget'
      exact ⟨(hok rfl).1, (hok rfl).2.1⟩
  · by_cases hconnected : ∃ c, .connected c ∈ events
    · rw [htrace']
      exact .inl (hmore.append (.inr hconnected))
    · have htip : s₁.tip = f := eq_of_follows hevents hmore fun c hc => hconnected ⟨c, hc⟩
      by_cases heq : f = s.tip
      · -- nothing was disconnected or connected
        rw [htip, heq]
        refine hsettles.imp (fun hold => ?_) fun hless => workLess_of_workLess_of_not hless hfloor
        rw [htrace', heq, above_self, List.map_nil, List.append_nil]
        exact hmore.append (.inl hold)
      · refine .inr (workLess_of_workLess_of_not ?_ hfloor)
        rw [htip]
        have hlt : env.workLess s₀.nSequenceId f s.tip = true := by
          by_contra hnot
          exact heq (eq_of_not_workLess (Bool.eq_false_iff.mpr hnot) (hwork.not_workLess hftip))
        exact workLess_of_workLess_of_not hlt hrun.floor_tip
  · rw [htrace']
    exact (hfollows.append (follows_above hftip)).append hevents

theorem turn_settling (h : env.Settling accepts s₀ l.state l.pindexMostWork) {r}
    (hturn : env.turn accepts l = .ok r) :
    match r with
    | .inl l' => env.Settling accepts s₀ l'.state l'.pindexMostWork
    | .inr s => env.BestTip accepts s₀ s ∧ Settles s.trace ∧
        env.Follows s₀.tip s.trace s.tip := by
  obtain ⟨floor, hrun₀, htarget, hsettles, hfollows⟩ := h
  obtain ⟨target, s, hnext, hrun, haimed, hsame, -⟩ := nextTarget_sound hidx hrun₀ htarget
  rw [← hsame.trace, ← hsame.tip] at hsettles hfollows
  rcases turn_cases hturn with ⟨s₁, hnext₁, -⟩ | ⟨s₁, hnext₁, rfl⟩ |
    ⟨target₁, s₁, s', inv, hnext₁, -, hstep, hr⟩
  · simp [hnext] at hnext₁
  · obtain ⟨rfl, rfl⟩ : target = s₁.tip ∧ s = s₁ := by simpa [hnext] using hnext₁
    exact ⟨bestTip_of_aimed hidx hrun haimed, settles_of_aimed hidx hrun haimed hsettles, hfollows⟩
  · obtain ⟨rfl, rfl⟩ : target = target₁ ∧ s = s₁ := by simpa [hnext] using hnext₁
    have hstep' := settling_step hidx hwork hrun haimed hsettles hfollows hstep
    rcases hr with ⟨rfl, rfl, rfl⟩ | ⟨startingTip, blocksConnected, rfl⟩
    · obtain ⟨floor', hrun', htarget', hsettles', hfollows'⟩ := hstep'
      have haimed' := (htarget' s'.tip (by simp)).1
      exact ⟨bestTip_of_aimed hidx hrun' haimed', settles_of_aimed hidx hrun' haimed' hsettles',
        hfollows'⟩
    · exact hstep'

/-- **A call settles**: it ends at the best tip, and every block that it disconnected is followed by
one that it connected. -/
theorem call_settles {n : Nat} (husable : env.Usable accepts s₀ s₀.tip)
    (hcall : env.activateBestChain accepts n s₀ = .ok (.inr s')) :
    env.BestTip accepts s₀ s' ∧ Settles s'.trace ∧ env.Follows s₀.tip s'.trace s'.tip := by
  obtain ⟨l, hreach, hturn⟩ := Loop.exists_reach_of_return hcall
  have hl : env.Settling accepts s₀ l.state l.pindexMostWork := by
    refine hreach.invariant (P := fun l => env.Settling accepts s₀ l.state l.pindexMostWork) ?_ ?_
    · exact ⟨s₀.tip, hidx.running husable, by simp [startLoop], .inl trivial, .nil⟩
    · exact fun l l' _ hl hturn => turn_settling hidx hwork hl hturn
  exact turn_settling hidx hwork hl hturn

end

/-! ### Storing a block -/

theorem linkQueue_tip {n : Nat} {queue} : (env.linkQueue n queue s).tip = s.tip := by
  induction n generalizing queue s with
  | zero => rfl
  | succ n ih =>
    cases queue with
    | nil => rfl
    | cons b queue =>
      rw [linkQueue, ih]
      dsimp only [link]
      split_ifs <;> rfl

theorem acceptBlock_tip {d} {ret} (h : env.acceptBlock d s = (s', ret)) : s'.tip = s.tip := by
  have hentered : (entered s d.block).tip = s.tip := by
    unfold entered
    split_ifs <;> rfl
  rcases acceptBlock_cases h with ⟨-, rfl | rfl | ⟨-, rfl⟩⟩ | ⟨-, -, rfl⟩ | ⟨-, -, -, -, rfl⟩
  · rfl
  · exact hentered
  · exact hentered
  · exact hentered
  · rw [← hentered]
    dsimp only [receivedBlockTransactions]
    split
    · exact linkQueue_tip
    · split_ifs
      · exact linkQueue_tip
      · rfl
      · rfl

/-! ### Runs -/

/-- The managers know the active chain. -/
structure Informed (env : NodeEnv β) (node : ActiveNode β) : Prop where
  nBestHeight : node.managers.nBestHeight = env.height node.chain.tip
  budgetBestHeight : node.managers.budgetBestHeight = env.height node.chain.tip
  hash : ∀ h ≤ env.height node.chain.tip, ∃ b, env.ancestor node.chain.tip h = some b ∧
    env.getHashAtHeight node.managers node.chain.tip h = .ok (env.hash b)
  above : ∀ h : Int, env.height node.chain.tip < h →
    env.getHashAtHeight node.managers node.chain.tip h = .ok 0

/-- No parent is reconsidered, and when `ActivateBestChain` is called the block index passes
`CheckBlockIndex` and `ConnectBlock` still takes the active chain. -/
def Checked (env : NodeEnv β) (node : ActiveNode β) (d : Delivery β) : Prop :=
  (∀ p, env.getPrevIndex d node.chain ≠ .reconsidered p) ∧
  ∀ s, env.Calls node d s → env.IndexChecked s ∧ env.Usable d.accepts s s.tip

/-- V5.3 is active at the best tip, or the block that arrived has its height. -/
def Timely (env : NodeEnv β) (d : Delivery β) (tip : β) : Prop :=
  env.isV5_3 (env.height tip) = true ∨ env.height d.block = env.height tip

/-- The condition on an arrival: it is checked, and timely for the best tip of the block index. -/
def Reported (env : NodeEnv β) (node : ActiveNode β) (d : Delivery β) : Prop :=
  env.Checked node d ∧
  ∀ s, env.Calls node d s → ∀ s', env.BestTip d.accepts s s' → env.Timely d s'.tip

variable {node node' : ActiveNode β} {d : Delivery β}

omit [DecidableEq β] in
theorem informed_of_cached (hcached : env.Cached node.managers node.chain.tip)
    (hbest : node.managers.nBestHeight = env.height node.chain.tip)
    (hbudget : node.managers.budgetBestHeight = env.height node.chain.tip) : env.Informed node := by
  refine ⟨hbest, hbudget, fun h hle => ?_, fun h hlt => getHashAtHeight_of_lt (hbest ▸ hlt)⟩
  obtain ⟨r, hr, hroot⟩ := env.exists_root node.chain.tip
  obtain ⟨b, rfl, hb, -⟩ := exists_mem_path_of_height hr
    (by rw [env.height_root hroot]; exact Nat.zero_le h) hle
  exact ⟨b, ancestor_of_mem hb, getHashAtHeight_of_mem hcached hbest hb⟩

omit [DecidableEq β] in
theorem setNewHeight_chain : (env.setNewHeight d node).chain = node.chain := by
  unfold setNewHeight
  split_ifs <;> rfl

omit [DecidableEq β] in
theorem cached_setNewHeight {tip : β} (h : env.Cached node.managers tip) :
    env.Cached (env.setNewHeight d node).managers tip := by
  unfold setNewHeight
  split_ifs <;> exact h

omit [DecidableEq β] in
/-- After the call the best heights are right exactly when the arrival was timely. -/
theorem setNewHeight_iff (hlite : env.fLiteMode = false)
    (hcached : env.Cached node.managers node.chain.tip)
    (hheights : env.isV5_3 (env.height node.chain.tip) = true →
      node.managers.nBestHeight = env.height node.chain.tip ∧
      node.managers.budgetBestHeight = env.height node.chain.tip) :
    env.Informed (env.setNewHeight d node) ↔ env.Timely d node.chain.tip := by
  have hcached' := cached_setNewHeight (d := d) hcached
  rw [← setNewHeight_chain (d := d)] at hcached'
  unfold Timely
  cases hv : env.isV5_3 (env.height node.chain.tip) with
  | true =>
    obtain ⟨hbest, hbudget⟩ := hheights hv
    have hsame : env.setNewHeight d node = node := by simp [setNewHeight, hv]
    rw [hsame] at hcached' ⊢
    exact iff_of_true (informed_of_cached hcached' hbest hbudget) (.inl rfl)
  | false =>
    have hset : (env.setNewHeight d node).managers =
        node.managers.setBestHeight (env.height d.block) := by
      simp [setNewHeight, hlite, hv]
    constructor
    · intro h
      have hbest := h.nBestHeight
      rw [setNewHeight_chain, hset] at hbest
      exact .inr (Int.ofNat_inj.mp hbest)
    · intro h
      have heq := h.resolve_left (by simp)
      refine informed_of_cached hcached' ?_ ?_ <;> rw [setNewHeight_chain, hset, ← heq] <;> rfl

/-- **One arrival**: the managers stay informed when the block is not stored, and are informed
exactly when the arrival was timely otherwise. -/
theorem processNewBlock_informed {n : Nat} {ret} (hwork : env.AddsWork)
    (hlite : env.fLiteMode = false) (hcached : env.Cached node.managers node.chain.tip)
    (h : env.Informed node) (hchecked : env.Checked node d)
    (hprocess : env.processNewBlock n d node = .ok (some (ret, node'))) :
    env.Cached node'.managers node'.chain.tip ∧ (ret = false → env.Informed node') ∧
    (ret = true → (env.Informed node' ↔ env.Timely d node'.chain.tip) ∧
      ∃ s, env.Calls node d s ∧ env.BestTip d.accepts s node'.chain) := by
  rcases processNewBlock_cases hchecked.1 hprocess with ⟨rfl, rfl⟩ | ⟨rfl, -, s, haccept, rfl⟩ |
    ⟨rfl, s, s', hcalls, hcall, rfl⟩
  · exact ⟨hcached, fun _ => h, by simp⟩
  · have htip := acceptBlock_tip haccept
    rw [← htip] at hcached
    refine ⟨hcached, fun _ => informed_of_cached hcached ?_ ?_, by simp⟩
    · rw [htip]
      exact h.nBestHeight
    · rw [htip]
      exact h.budgetBestHeight
  · obtain ⟨hidx, husable⟩ := hchecked.2 s hcalls
    obtain ⟨hbest, hsettles, hfollows⟩ := call_settles hidx hwork husable hcall
    rw [acceptBlock_tip hcalls.2.2] at hfollows
    have hring := cached_of_follows hfollows hcached
    rw [setNewHeight_chain]
    refine ⟨cached_setNewHeight hring, by simp, fun _ => ⟨setNewHeight_iff hlite hring fun hv => ?_,
      s, hcalls, hbest⟩⟩
    exact heights_of_follows hlite hfollows hsettles hv (.inl ⟨h.nBestHeight, h.budgetBestHeight⟩)

theorem informed_of_run {node₀} (hwork : env.AddsWork)
    (hlite : env.fLiteMode = false) (hload : node₀.managers = env.loadManagers node₀.chain.tip)
    (hrun : env.NodeRun env.Reported node₀ node) :
    env.Cached node.managers node.chain.tip ∧ env.Informed node := by
  induction hrun with
  | init =>
    have hcached : env.Cached node₀.managers node₀.chain.tip := hload ▸ env.cached_loadManagers _
    refine ⟨hcached, informed_of_cached hcached ?_ ?_⟩ <;> rw [hload]
    · exact (foldl_cacheBlockHash_heights _).1
    · exact (foldl_cacheBlockHash_heights _).2
  | @next node node' ret n d _ hok hprocess ih =>
    obtain ⟨hcached, hfalse, htrue⟩ :=
      processNewBlock_informed hwork hlite ih.1 ih.2 hok.1 hprocess
    refine ⟨hcached, ?_⟩
    cases ret with
    | false => exact hfalse rfl
    | true =>
      obtain ⟨hiff, s, hcalls, hbest⟩ := htrue rfl
      exact hiff.mpr (hok.2 s hcalls _ hbest)

/-- **The managers and the active chain.** In every run of a node that is not in lite mode in which
every arrival is timely, the best heights of both managers are the height of the active chain, and
`GetHashAtHeight` gives the hash of the active block at every height up to it and zero above. After
any further arrival that returns true the same holds exactly when it was timely. -/
theorem managers_informed (env : NodeEnv β) (hwork : env.AddsWork) (hlite : env.fLiteMode = false)
    (node₀ node : ActiveNode β) (hload : node₀.managers = env.loadManagers node₀.chain.tip)
    (hrun : env.NodeRun env.Reported node₀ node) : env.Informed node ∧
    ∀ n d node', env.Checked node d → env.processNewBlock n d node = .ok (some (true, node')) →
      (env.Informed node' ↔ env.Timely d node'.chain.tip) := by
  obtain ⟨hcached, hinformed⟩ := informed_of_run hwork hlite hload hrun
  refine ⟨hinformed, fun n d node' hchecked hprocess => ?_⟩
  exact ((processNewBlock_informed hwork hlite hcached hinformed hchecked hprocess).2.2 rfl).1

end NodeEnv

namespace Sample

/-- Blocks 0, 2 and 3 are active; block 1 has not arrived. -/
def longNode : ActiveNode (Fin 4) where
  chain :=
    { mapBlockIndex := [3, 2, 0]
      haveData := ![true, false, true, true]
      nChainTx := ![true, false, true, true]
      nSequenceId := ![0, 0, 1, 2]
      failedValid := fun _ => false
      failedChild := fun _ => false
      setBlockIndexCandidates := [3]
      tip := 3
      nBlockSequenceId := 3 }
  managers := forkEnv.loadManagers 3

theorem informed_longNode : forkEnv.Informed longNode :=
  NodeEnv.informed_of_cached (forkEnv.cached_loadManagers 3)
    (NodeEnv.foldl_cacheBlockHash_heights _).1 (NodeEnv.foldl_cacheBlockHash_heights _).2

/-- **A block of a stale fork.** Block 1 is stored, the active chain stays, and both managers go
down to the height of block 1; the hash of the tip is no longer found. -/
theorem longNode_stale : forkEnv.fLiteMode = false ∧ forkEnv.Informed longNode ∧
    ∃ node, forkEnv.processNewBlock 3 (goodBlock 1) longNode = .ok (some (true, node)) ∧
      node.chain.tip = 3 ∧ forkEnv.height node.chain.tip = 2 ∧
      node.managers.nBestHeight = 1 ∧ node.managers.budgetBestHeight = 1 ∧
      forkEnv.getHashAtHeight node.managers node.chain.tip 2 = .ok 0 ∧
      forkEnv.hash node.chain.tip = 4 :=
  ⟨rfl, informed_longNode, _, rfl, rfl, rfl, rfl, rfl, rfl, rfl⟩

/-- The condition on a good block, for the state after it was stored. -/
theorem reported_goodBlock {node} {b} {s}
    (hprev : forkEnv.getPrevIndex (goodBlock b) node.chain = .known)
    (haccept : forkEnv.acceptBlock (goodBlock b) node.chain = (s, true))
    (hidx : forkEnv.IndexChecked s) (husable : forkEnv.Usable (fun _ => true) s s.tip)
    (hbest : ∀ c ∈ s.mapBlockIndex, (∀ a ∈ s.mapBlockIndex, forkEnv.Usable (fun _ => true) s a →
      forkEnv.workLess s.nSequenceId c a = false) → forkEnv.height b = forkEnv.height c) :
    forkEnv.Reported node (goodBlock b) := by
  have heq : ∀ s₁, forkEnv.Calls node (goodBlock b) s₁ → s₁ = s := by
    intro s₁ hcalls
    have := hcalls.2.2.symm.trans haccept
    exact (Prod.mk.inj this).1
  refine ⟨⟨fun p hp => by simp [hprev] at hp, fun s₁ hcalls => ?_⟩, fun s₁ hcalls s' htip => ?_⟩
  · rw [heq s₁ hcalls]
    exact ⟨hidx, husable⟩
  · rw [heq s₁ hcalls] at htip
    exact .inr (hbest s'.tip htip.1 htip.2.2)

/-- Block 2 arrives and the active chain stays; block 3 makes the other branch active. -/
theorem forkNode_informed : forkEnv.Informed
      (afterBlock forkEnv (afterBlock forkEnv forkNode (goodBlock 2)) (goodBlock 3)) := by
  have hrun₁ : forkEnv.NodeRun forkEnv.Reported forkNode
      (afterBlock forkEnv forkNode (goodBlock 2)) := by
    refine .next 3 (goodBlock 2) .init (reported_goodBlock rfl rfl ?_ (by decide) (by decide)) rfl
    constructor <;> decide
  have hrun₂ : forkEnv.NodeRun forkEnv.Reported forkNode
      (afterBlock forkEnv (afterBlock forkEnv forkNode (goodBlock 2)) (goodBlock 3)) := by
    refine .next 3 (goodBlock 3) hrun₁ (reported_goodBlock rfl rfl ?_ (by decide) (by decide)) rfl
    constructor <;> decide
  exact (NodeEnv.managers_informed forkEnv addsWork_forkEnv rfl forkNode _ rfl hrun₂).1

end Sample

end KmushiCoin
