import KmushiCoin.Chain.BestChain
import KmushiCoin.Chain.Deliver

/-!
# KmushiCoin.Chain.ReorgDepth

**How deep a reorganisation goes.** No code counts the blocks that `ActivateBestChain` disconnects.
The bound comes from `AcceptBlock`, which refuses a proof-of-stake block whose fork leaves the
active chain more than `-maxreorg` blocks below the tip.

* Between two calls the tip is the only candidate (`AtRest`). So all candidates that a call meets,
  the old tip apart, descend from the block that arrived, also the ones that had waited for it.
* They all go through the block where that fork begins, which was at most `-maxreorg` below the tip
  when the block arrived (`Offered`). No target leads below it, and no block below it is ever
  disconnected (`Shallow`), whichever blocks are refused on the way.
-/

namespace KmushiCoin

open ParentTree BlockTree Function List

namespace NodeEnv

variable {β : Type}

section Definitions

variable (env : NodeEnv β)

/-- The state between two calls of `ActivateBestChain`. -/
structure AtRest (s : ChainState β) : Prop where
  candidate : ∀ c ∈ s.setBlockIndexCandidates, c = s.tip
  unlinked : ∀ e ∈ s.mapBlocksUnlinked, env.parent e.2 = some e.1
  sequence : ∀ b, s.nSequenceId b < s.nBlockSequenceId
  root : ∀ b, env.parent b = none → b ∈ s.mapBlockIndex ∧ s.haveData b = true

/-- The state after a block was stored: all candidates go through `f`, and all but the tip have more
work than it. -/
structure Offered (f : β) (s : ChainState β) : Prop where
  unlinked : ∀ e ∈ s.mapBlocksUnlinked, env.parent e.2 = some e.1
  sequence : ∀ b, s.nSequenceId b < s.nBlockSequenceId
  root : ∀ b, env.parent b = none → b ∈ s.mapBlockIndex ∧ s.haveData b = true
  tip : f ∈ env.path s.tip
  candidate : ∀ c ∈ s.setBlockIndexCandidates, f ∈ env.path c
  better : ∀ c ∈ s.setBlockIndexCandidates, c = s.tip ∨ env.nChainWork s.tip < env.nChainWork c

/-- What holds during a call: nothing below `f` is left. -/
structure Shallow (f : β) (s₀ s : ChainState β) : Prop extends Frame s₀ s where
  unlinked : ∀ e ∈ s.mapBlocksUnlinked, env.parent e.2 = some e.1
  tip : f ∈ env.path s.tip
  candidate : ∀ c ∈ s.setBlockIndexCandidates, f ∈ env.path c
  noneWorse : env.NoneWorse s
  trace : ∀ b, .disconnected b ∈ s.trace → b ∉ env.path f

/-- The target is at least as good as every candidate. -/
def Leads (f : β) (s : ChainState β) (target : β) : Prop :=
  f ∈ env.path target ∧
  ∀ c ∈ s.setBlockIndexCandidates, env.workLess s.nSequenceId target c = false

end Definitions

variable {env : NodeEnv β} {f b : β} {s₀ s s' : ChainState β}

/-- Between two calls nothing is offered but the tip. -/
theorem AtRest.offered (h : env.AtRest s) (hf : f ∈ env.path s.tip) : env.Offered f s := by
  refine ⟨h.unlinked, h.sequence, h.root, hf, fun c hc => ?_, fun c hc => .inl (h.candidate c hc)⟩
  rwa [h.candidate c hc]

/-! ### Storing a block -/

section Storing

variable [DecidableEq β] {d : Delivery β}

theorem mem_of_isUnspentOnFork {readBlock : Nat} {l}
    (h : env.isUnspentOnFork d s readBlock l = some f) : f ∈ l ∧ f ∈ env.path s.tip := by
  induction l generalizing readBlock with
  | nil => simp [isUnspentOnFork] at h
  | cons a l ih =>
    rw [isUnspentOnFork] at h
    split_ifs at h with hmem
    · cases h
      exact ⟨mem_cons_self, hmem⟩
    · obtain ⟨hl, hpath⟩ := ih h
      exact ⟨.tail _ hl, hpath⟩

/-- The fork of a block that passes the check begins not too far below the tip. -/
theorem exists_fork_of_checkFork {p : β} (hp : env.parent d.block = some p)
    (h : env.checkFork d s = true) :
    ∃ f ∈ env.path d.block, f ∈ env.path s.tip ∧ env.height s.tip ≤ env.maxreorg + env.height f := by
  have hpath := mem_path_of_parent hp
  simp only [checkFork, hp, Bool.and_eq_true] at h
  obtain ⟨⟨-, h⟩, -⟩ := h
  by_cases htip : s.tip = p
  · exact ⟨p, hpath, htip ▸ env.mem_path_self _, by rw [htip]; omega⟩
  · rw [if_neg htip] at h
    cases hwalk : env.isUnspentOnFork d s 0 (env.path p) with
    | none => simp [hwalk] at h
    | some f =>
      obtain ⟨hf, hftip⟩ := mem_of_isUnspentOnFork hwalk
      refine ⟨f, mem_path_trans hf hpath, hftip, ?_⟩
      simpa [hwalk] using h

theorem AtRest.entered (h : env.AtRest s) (b : β) : env.AtRest (entered s b) := by
  unfold NodeEnv.entered
  split_ifs with hmem
  · exact h
  · refine ⟨h.candidate, h.unlinked, fun a => ?_, fun a ha => ?_⟩
    · have hpos := h.sequence a
      by_cases heq : a = b
      · simp only [ChainState.addToBlockIndex, heq, update_self]
        omega
      · simpa [ChainState.addToBlockIndex, heq] using hpos
    · obtain ⟨hmap, hdata⟩ := h.root a ha
      have hne : a ≠ b := fun heq => hmem (heq ▸ hmap)
      exact ⟨.tail _ hmap, by simpa [ChainState.addToBlockIndex, hne] using hdata⟩

/-- What linking the blocks of the queue keeps: new candidates descend from `b` and have more work
than the tip. -/
structure Linking (env : NodeEnv β) (b : β) (s₀ s : ChainState β) : Prop where
  mapBlockIndex : s.mapBlockIndex = s₀.mapBlockIndex
  haveData : s.haveData = s₀.haveData
  tip : s.tip = s₀.tip
  unlinked : ∀ e ∈ s.mapBlocksUnlinked, env.parent e.2 = some e.1
  sequence : ∀ c, s.nSequenceId c < s.nBlockSequenceId
  candidate : ∀ c ∈ s.setBlockIndexCandidates, c ∈ s₀.setBlockIndexCandidates ∨
    (b ∈ env.path c ∧ (c = s₀.tip ∨ env.nChainWork s₀.tip < env.nChainWork c))

theorem Linking.link {c : β} (h : Linking env b s₀ s) (hc : b ∈ env.path c) :
    Linking env b s₀ (env.link s c) := by
  have hsequence : ∀ a, update s.nSequenceId c s.nBlockSequenceId a < s.nBlockSequenceId + 1 := by
    intro a
    have hold := h.sequence a
    by_cases heq : a = c
    · simp [heq]
    · simp only [ne_eq, heq, not_false_eq_true, update_of_ne]
      omega
  dsimp only [BlockTree.link]
  split_ifs with hless
  · exact ⟨h.mapBlockIndex, h.haveData, h.tip, h.unlinked, hsequence, h.candidate⟩
  · refine ⟨h.mapBlockIndex, h.haveData, h.tip, h.unlinked, hsequence, fun a ha => ?_⟩
    rcases mem_insert_iff.mp ha with rfl | ha
    · refine .inr ⟨hc, ?_⟩
      by_cases htip : a = s.tip
      · exact .inl (htip.trans h.tip)
      · -- the block arrived after the tip, so it has more work
        rw [workLess_iff, update_self, update_of_ne (Ne.symm htip)] at hless
        have := h.sequence s.tip
        rw [h.tip] at hless this
        exact .inr (by omega)
    · exact h.candidate a ha

theorem Linking.linkQueue {n : Nat} {queue} (h : Linking env b s₀ s)
    (hqueue : ∀ c ∈ queue, b ∈ env.path c) : Linking env b s₀ (env.linkQueue n queue s) := by
  induction n generalizing queue s with
  | zero => exact h
  | succ n ih =>
    cases queue with
    | nil => exact h
    | cons c queue =>
      have hc := hqueue c (.head _)
      have hlink := h.link hc
      rw [BlockTree.linkQueue]
      refine ih ⟨hlink.mapBlockIndex, hlink.haveData, hlink.tip, fun e he => ?_, hlink.sequence,
        hlink.candidate⟩ fun a ha => ?_
      · exact hlink.unlinked e (mem_filter.mp he).1
      · rcases mem_append.mp ha with ha | ha
        · exact hqueue a (.tail _ ha)
        · -- a block that waited for `c` is a child of it
          obtain ⟨e, he, rfl⟩ := mem_map.mp ha
          obtain ⟨hmem, heq⟩ := mem_filter.mp he
          have hparent := hlink.unlinked e hmem
          rw [decide_eq_true_eq.mp heq] at hparent
          exact mem_path_trans hc (mem_path_of_parent hparent)

theorem linking_received (h : env.AtRest s) (b : β) :
    Linking env b { s with haveData := update s.haveData b true }
      (env.receivedBlockTransactions s b) := by
  have hstart : Linking env b { s with haveData := update s.haveData b true } { s with
      haveData := update s.haveData b true
      nChainTx := update s.nChainTx b false } :=
    ⟨rfl, rfl, rfl, h.unlinked, h.sequence, fun _ hc => .inl hc⟩
  have hqueue : ∀ c ∈ [b], b ∈ env.path c := by simp
  unfold receivedBlockTransactions
  cases hp : env.parent b with
  | none => exact hstart.linkQueue hqueue
  | some p =>
    dsimp only
    split_ifs
    · exact hstart.linkQueue hqueue
    · exact hstart
    · refine ⟨rfl, rfl, rfl, fun e he => ?_, h.sequence, fun _ hc => .inl hc⟩
      rcases mem_append.mp he with he | he
      · exact h.unlinked e he
      · obtain rfl := mem_singleton.mp he
        exact hp

/-- Storing a block offers candidates above every block `f` that it has in common with the active
chain. -/
theorem offered_of_received (h : env.AtRest s) (hf : f ∈ env.path b) (hftip : f ∈ env.path s.tip) :
    env.Offered f (env.receivedBlockTransactions s b) := by
  have hlinking := linking_received h b
  have htip : (env.receivedBlockTransactions s b).tip = s.tip := hlinking.tip
  refine ⟨hlinking.unlinked, hlinking.sequence, fun a ha => ?_, htip ▸ hftip, fun c hc => ?_,
    fun c hc => ?_⟩
  · rw [hlinking.mapBlockIndex, hlinking.haveData]
    refine ⟨(h.root a ha).1, ?_⟩
    by_cases heq : a = b
    · simp [heq]
    · simpa [heq] using (h.root a ha).2
  · rcases hlinking.candidate c hc with hold | ⟨hb, -⟩
    · rwa [h.candidate c hold]
    · exact mem_path_trans hf hb
  · rw [htip]
    rcases hlinking.candidate c hc with hold | ⟨-, hbetter⟩
    · exact .inl (h.candidate c hold)
    · exact hbetter

/-- **A stored proof-of-stake block** offers candidates that are not too deep. -/
theorem offered_of_acceptBlock (h : env.AtRest s) (hpos : d.isPoS = true)
    (haccept : env.acceptBlock d s = (s', true)) :
    ∃ f, env.Offered f s' ∧ env.height s'.tip ≤ env.maxreorg + env.height f := by
  have hentered := h.entered d.block
  rcases acceptBlock_cases haccept with ⟨hret, -⟩ | ⟨-, -, rfl⟩ | ⟨-, hdata, -, hfork, rfl⟩
  · simp at hret
  · -- nothing new, and the tip is the only candidate
    exact ⟨_, hentered.offered (env.mem_path_self _), by omega⟩
  · cases hp : env.parent d.block with
    | none => simp [(hentered.root _ hp).2] at hdata
    | some p =>
      obtain ⟨f, hf, hftip, hdepth⟩ := exists_fork_of_checkFork hp (hfork hpos)
      have htip : (env.receivedBlockTransactions (entered s d.block) d.block).tip =
        (entered s d.block).tip := (linking_received hentered d.block).tip
      exact ⟨f, offered_of_received hentered hf hftip, htip ▸ hdepth⟩

theorem AtRest.of_rejected (h : env.AtRest s) (haccept : env.acceptBlock d s = (s', false)) :
    env.AtRest s' := by
  have hentered := h.entered d.block
  rcases acceptBlock_cases haccept with ⟨-, rfl | rfl | ⟨-, rfl⟩⟩ | ⟨hret, -⟩ | ⟨hret, -⟩
  · exact h
  · exact hentered
  · exact ⟨hentered.candidate, hentered.unlinked, hentered.sequence, hentered.root⟩
  · simp at hret
  · simp at hret

end Storing

/-! ### During a call -/

/-- Every block adds work. -/
def AddsWork (env : NodeEnv β) : Prop :=
  ∀ b p, env.parent b = some p → env.nChainWork p < env.nChainWork b

theorem AddsWork.not_workLess {nSequenceId : β → Nat} {x : β} (hwork : env.AddsWork)
    (hf : f ∈ env.path x) : env.workLess nSequenceId x f = false := by
  have hle : f = x ∨ env.nChainWork f < env.nChainWork x := by
    refine path_induction hf (.inl rfl) fun x p hp _ ih => ?_
    have hlt := hwork x p hp
    rcases ih with rfl | hless
    · exact .inr hlt
    · exact .inr (hless.trans hlt)
  rcases hle with rfl | hless
  · exact env.workLess_self _ f
  · rw [← Bool.not_eq_true, workLess_iff]
    omega

namespace Shallow

variable (hwork : env.AddsWork) (h : env.Shallow f s₀ s)

theorem of_offered (h : env.Offered f s) : env.Shallow f s { s with trace := [] } :=
  { Frame.refl s with
    candidate_old := fun _ hc => hc
    unlinked := h.unlinked
    tip := h.tip
    candidate := h.candidate
    noneWorse := fun c hc => by
      rcases h.better c hc with rfl | hless
      · exact env.workLess_self _ _
      · rw [← Bool.not_eq_true, workLess_iff]
        dsimp only
        omega
    trace := by simp }

include h

variable [DecidableEq β]

theorem discards (hdiscards : env.Discards s s') : env.Shallow f s₀ s' := by
  obtain ⟨hframe, htip, htrace, hunlinked⟩ := hdiscards.frame
  refine ⟨h.toFrame.trans hframe, fun e he => ?_, htip ▸ h.tip,
    fun c hc => h.candidate c (hframe.candidate_old c hc), fun c hc => ?_, htrace ▸ h.trace⟩
  · exact (hunlinked e he).elim (h.unlinked e) id
  · rw [hframe.nSequenceId, htip]
    exact h.noneWorse c (hframe.candidate_old c hc)

include hwork

/-- A step towards a target above `f` goes back to a fork above `f`. -/
theorem step {accepts : β → Bool} {target : β} {inv} (htarget : f ∈ env.path target)
    (hstep : env.activateBestChainStep accepts target s = .ok (s', inv)) :
    env.Shallow f s₀ s' ∧ ∀ c ∈ s'.setBlockIndexCandidates, c ∈ s.setBlockIndexCandidates := by
  obtain ⟨f', hf'⟩ := exists_fork htarget h.tip
  obtain ⟨hf'target, hf'tip⟩ := fork_mem hf'
  have hff' : f ∈ env.path f' := mem_path_fork hf' htarget h.tip
  have hback : env.Shallow f s₀ (env.wentBack s f') :=
    { h with
      tip := hff'
      noneWorse := fun c hc => not_workLess_trans (h.noneWorse c hc) (hwork.not_workLess hf'tip)
      trace := fun b hb hbf => by
        rcases mem_append.mp hb with hb | hb
        · exact h.trace b hb hbf
        · obtain ⟨a, ha, heq⟩ := mem_map.mp hb
          obtain rfl := ChainEvent.disconnected.inj heq
          have hlt := ((mem_above_iff hf'tip).mp ha).2
          have hle := height_le_of_mem (mem_path_trans hbf hff')
          omega }
  have hcon := connects_of_step hf' hstep
  obtain ⟨events, htrace, -, hnone⟩ := hcon.trace
  refine ⟨⟨hback.toFrame.trans hcon.toFrame, ?_, mem_path_trans hff' hcon.tip_path, ?_,
    hcon.noneWorse hback.noneWorse, ?_⟩, hcon.candidate_old⟩
  · rw [hcon.mapBlocksUnlinked]
    exact hback.unlinked
  · exact fun c hc => h.candidate c (hcon.candidate_old c hc)
  · intro b hb
    rw [htrace] at hb
    rcases mem_append.mp hb with hb | hb
    · exact hback.trace b hb
    · exact absurd hb (hnone b)

end Shallow

/-- The tip is the only candidate when it is the target. -/
theorem eq_tip_of_leads (h : env.Shallow f s₀ s) (hleads : env.Leads f s s.tip) :
    ∀ c ∈ s.setBlockIndexCandidates, c = s.tip :=
  fun c hc => eq_of_not_workLess (h.noneWorse c hc) (hleads.2 c hc)

section Turns

variable [DecidableEq β] {accepts : β → Bool} {l l' : ActivateLoop β}

theorem nextTarget_leads {target : β} (h : env.Shallow f s₀ l.state)
    (htarget : ∀ target, l.pindexMostWork = some target → env.Leads f l.state target)
    (hnext : env.nextTarget l = .ok (some target, s)) :
    env.Shallow f s₀ s ∧ env.Leads f s target := by
  obtain ⟨hdiscards, -, hsome⟩ := nextTarget_cases hnext
  have hs := h.discards hdiscards
  refine ⟨hs, ?_⟩
  rcases hsome target rfl with ⟨hold, rfl⟩ | ⟨hmem, hgreatest⟩
  · exact htarget target hold
  · exact ⟨hs.candidate target hmem, hgreatest⟩

section

variable (hwork : env.AddsWork)
include hwork

/-- **One turn** stays above `f`, and when it returns the tip is the only candidate. -/
theorem turn_shallow (h : env.Shallow f s₀ l.state)
    (htarget : ∀ target, l.pindexMostWork = some target → env.Leads f l.state target) {r}
    (hturn : env.turn accepts l = .ok r) :
    match r with
    | .inl l' => env.Shallow f s₀ l'.state ∧
        ∀ target, l'.pindexMostWork = some target → env.Leads f l'.state target
    | .inr s => env.Shallow f s₀ s ∧ ∀ c ∈ s.setBlockIndexCandidates, c = s.tip := by
  rcases turn_cases hturn with ⟨s, hnext, hr⟩ | ⟨s, hnext, rfl⟩ |
    ⟨target, s, s', inv, hnext, -, hstep, hr⟩
  · obtain ⟨hdiscards, hempty, -⟩ := nextTarget_cases hnext
    rcases hr with rfl | rfl
    · exact ⟨h.discards hdiscards, by simp [hempty rfl]⟩
    · exact ⟨h.discards hdiscards, by simp⟩
  · obtain ⟨hs, hleads⟩ := nextTarget_leads h htarget hnext
    exact ⟨hs, eq_tip_of_leads hs hleads⟩
  · obtain ⟨hs, hleads⟩ := nextTarget_leads h htarget hnext
    obtain ⟨hs', hold⟩ := hs.step hwork hleads.1 hstep
    have hleads' : env.Leads f s' target := by
      refine ⟨hleads.1, fun c hc => ?_⟩
      rw [hs'.nSequenceId, ← hs.nSequenceId]
      exact hleads.2 c (hold c hc)
    rcases hr with ⟨-, rfl, rfl⟩ | ⟨startingTip, blocksConnected, rfl⟩
    · exact ⟨hs', eq_tip_of_leads hs' hleads'⟩
    · refine ⟨hs', fun target' htarget' => ?_⟩
      cases inv with
      | true => simp at htarget'
      | false =>
        obtain rfl : target = target' := by simpa using htarget'
        exact hleads'

theorem shallow_of_reach (h : env.Offered f s)
    (hreach : Loop.Reach (env.turn accepts) (startLoop s) l) : env.Shallow f s l.state ∧
      ∀ target, l.pindexMostWork = some target → env.Leads f l.state target := by
  refine hreach.invariant (P := fun l => env.Shallow f s l.state ∧
    ∀ target, l.pindexMostWork = some target → env.Leads f l.state target) ?_ ?_
  · exact ⟨.of_offered h, by simp [startLoop]⟩
  · exact fun l l' _ hl hturn => turn_shallow hwork hl.1 hl.2 hturn

/-- The state that a call has reached. -/
def reachedState (r : ActivateLoop β ⊕ ChainState β) : ChainState β := r.elim (·.state) id

theorem shallow_of_call {n : Nat} {r} (h : env.Offered f s)
    (hcall : env.activateBestChain accepts n s = .ok r) : env.Shallow f s (reachedState r) := by
  cases r with
  | inl l => exact (shallow_of_reach hwork h (Loop.reach_of_iterate hcall)).1
  | inr s' =>
    obtain ⟨l, hreach, hturn⟩ := Loop.exists_reach_of_return hcall
    obtain ⟨hl, htarget⟩ := shallow_of_reach hwork h hreach
    exact (turn_shallow hwork hl htarget hturn).1

theorem atRest_of_call {n : Nat} (h : env.Offered f s)
    (hcall : env.activateBestChain accepts n s = .ok (.inr s')) : env.AtRest s' := by
  obtain ⟨l, hreach, hturn⟩ := Loop.exists_reach_of_return hcall
  obtain ⟨hl, htarget⟩ := shallow_of_reach hwork h hreach
  obtain ⟨hs', hcandidate⟩ := turn_shallow hwork hl htarget hturn
  refine ⟨hcandidate, hs'.unlinked, ?_, ?_⟩
  · rw [hs'.nSequenceId, hs'.nBlockSequenceId]
    exact h.sequence
  · rw [hs'.mapBlockIndex, hs'.haveData]
    exact h.root

/-! ### Runs -/

/-- The blocks of the active chain at the start of a call that the call disconnected. -/
def disconnectedOf (env : NodeEnv β) (tip : β) (trace : List (ChainEvent β)) : List β :=
  (env.path tip).filter fun b => decide (.disconnected b ∈ trace)

/-- A proof-of-stake block arrives, and no failed block is reconsidered. -/
def StakeOnly (env : NodeEnv β) (node : ActiveNode β) (d : Delivery β) : Prop :=
  d.isPoS = true ∧ ∀ p, env.getPrevIndex d node.chain ≠ .reconsidered p

theorem atRest_of_run {node₀ node} (hrest : env.AtRest node₀.chain)
    (hrun : env.NodeRun env.StakeOnly node₀ node) : env.AtRest node.chain := by
  induction hrun with
  | init => exact hrest
  | next n d _ hok hprocess ih =>
    rcases processNewBlock_cases hok.2 hprocess with ⟨-, rfl⟩ | ⟨-, -, s, haccept, rfl⟩ |
      ⟨-, s, s', ⟨-, -, haccept⟩, hcall, rfl⟩
    · exact ih
    · exact ih.of_rejected haccept
    · obtain ⟨f, hoffered, -⟩ := offered_of_acceptBlock ih hok.1 haccept
      unfold setNewHeight
      split_ifs <;> exact atRest_of_call hwork hoffered hcall

end

theorem length_disconnectedOf_le {trace} {tip : β} (hf : f ∈ env.path tip)
    (htrace : ∀ b, .disconnected b ∈ trace → b ∉ env.path f) :
    (disconnectedOf env tip trace).length ≤ env.height tip - env.height f := by
  have hbelow : (env.path f).filter (fun b => decide (.disconnected b ∈ trace)) = [] := by
    refine filter_eq_nil_iff.mpr fun b hb => ?_
    simpa using fun hmem => htrace b hmem hb
  calc (disconnectedOf env tip trace).length
      = ((env.above tip (env.height f)).filter fun b =>
          decide (.disconnected b ∈ trace)).length := by
        rw [disconnectedOf, path_eq_above_append hf, filter_append, hbelow, append_nil]
    _ ≤ (env.above tip (env.height f)).length := length_filter_le ..
    _ = env.height tip - env.height f := length_above hf

/-- **The depth of a reorganisation.** In every run in which only proof-of-stake blocks arrive, in
any order, and no failed block is reconsidered, no call of `ActivateBestChain` disconnects more than
`-maxreorg` of the blocks that were active when it was called, whichever blocks it connects or
refuses. -/
theorem reorganisation_depth (env : NodeEnv β) (hwork : env.AddsWork) (node₀ node : ActiveNode β)
    (hrest : env.AtRest node₀.chain) (hrun : env.NodeRun env.StakeOnly node₀ node)
    (d : Delivery β) (hpos : d.isPoS = true) (s : ChainState β) (hcalls : env.Calls node d s)
    (n : Nat) (r : ActivateLoop β ⊕ ChainState β)
    (hcall : env.activateBestChain d.accepts n s = .ok r) :
    (disconnectedOf env s.tip (reachedState r).trace).length ≤ env.maxreorg := by
  have hnode := atRest_of_run hwork hrest hrun
  obtain ⟨f, hoffered, hdepth⟩ := offered_of_acceptBlock hnode hpos hcalls.2.2
  have hshallow := shallow_of_call hwork hoffered hcall
  have hlength := length_disconnectedOf_le hoffered.tip hshallow.trace
  omega

end Turns

end NodeEnv

namespace Sample

/-- The tree with two branches, `-maxreorg=2`, before V5.3. -/
def forkEnv : NodeEnv (Fin 4) where
  toBlockTree := forkTree
  height_root := by decide
  hash := fun b => Fin.ofNat _ (b + 1)
  fLiteMode := false
  upgradeV5_3 := 100
  maxreorg := 2

/-- Blocks 0 and 1 are active, and nothing else has arrived. -/
def forkNode : ActiveNode (Fin 4) where
  chain :=
    { mapBlockIndex := [1, 0]
      haveData := ![true, true, false, false]
      nChainTx := ![true, true, false, false]
      nSequenceId := ![0, 1, 0, 0]
      failedValid := fun _ => false
      failedChild := fun _ => false
      setBlockIndexCandidates := [1]
      tip := 1
      nBlockSequenceId := 2 }
  managers := forkEnv.loadManagers 1

/-- A proof-of-stake block that passes every check. -/
def goodBlock (b : Fin 4) : Delivery (Fin 4) where
  block := b
  isPoS := true
  checkBlock := true
  checkProof := true
  checkHeader := true
  checkContext := .valid
  checkDoubleSpends := true
  unspentIn := fun _ => true
  checkInputs := true
  matchesCheckpoint := fun _ => false
  accepts := fun _ => true

/-- The node after a block that needs few turns. -/
def afterBlock (env : NodeEnv (Fin 4)) (node : ActiveNode (Fin 4)) (d : Delivery (Fin 4)) :
    ActiveNode (Fin 4) :=
  match env.processNewBlock 3 d node with
  | .ok (some (_, node)) => node
  | _ => node

theorem addsWork_forkEnv : forkEnv.AddsWork := by
  unfold NodeEnv.AddsWork
  decide

/-- Block 3 makes the other branch the better one, and one block is disconnected for it. -/
theorem forkNode_reorganisation :
    ∃ s r, forkEnv.Calls (afterBlock forkEnv forkNode (goodBlock 2)) (goodBlock 3) s ∧
      forkEnv.activateBestChain (fun _ => true) 3 s = .ok r ∧
      (NodeEnv.reachedState r).trace = [.disconnected 1, .connected 2, .connected 3] ∧
      (NodeEnv.disconnectedOf forkEnv s.tip (NodeEnv.reachedState r).trace).length ≤ 2 := by
  have hrun : forkEnv.NodeRun forkEnv.StakeOnly forkNode (afterBlock forkEnv forkNode (goodBlock 2)) :=
    .next 3 (goodBlock 2) .init ⟨rfl, by decide⟩ rfl
  refine ⟨_, _, ⟨rfl, rfl, rfl⟩, rfl, rfl, ?_⟩
  exact NodeEnv.reorganisation_depth forkEnv addsWork_forkEnv forkNode _
    ⟨by decide, by decide, by decide, by decide⟩ hrun (goodBlock 3) rfl _ ⟨rfl, rfl, rfl⟩ 3 _ rfl

end Sample

end KmushiCoin
