import KmushiCoin.Chain.Activate

/-!
# KmushiCoin.Chain.ActivateSpec

**What the parts of `ActivateBestChain` do**, one lemma for each function of the model.

* `Discards` says how `FindMostWorkChain` changes the state: it discards chains through a block that
  failed or has no data, and nothing else. What it returns is the greatest candidate left.
* `activateBestChainStep_eq` undoes the batches: the step goes back to the fork and connects the
  branch of the target above it, block by block, until it is left.
* `Connects` is all that connecting blocks does to the state, and `turn_cases` all that a turn does.
  `Follows` says that the events of a trace lead from one tip to another.
-/

namespace KmushiCoin

open ParentTree List

namespace BlockTree

variable {β : Type} {t : BlockTree β} {s s' : ChainState β} {b f target : β} {l l₁ l₂ : List β}

/-! ### Traces -/

variable (t) in
/-- The events lead from one tip to another. -/
inductive Follows : β → List (ChainEvent β) → β → Prop
  | nil {x : β} : Follows x [] x
  | connected {x b y : β} {events : List (ChainEvent β)} :
      t.parent b = some x → Follows b events y → Follows x (.connected b :: events) y
  | disconnected {x p y : β} {events : List (ChainEvent β)} :
      t.parent x = some p → Follows p events y → Follows x (.disconnected x :: events) y
  | refused {x b y : β} {events : List (ChainEvent β)} :
      Follows x events y → Follows x (.refused b :: events) y

variable {x pindexNew pindexTest pindexOldTip : β} {s₁ s₂ s₃ : ChainState β} {n : Nat}
  {accepts : β → Bool}

theorem Follows.append {y z : β} {e₁ e₂} (h₁ : t.Follows x e₁ y)
    (h₂ : t.Follows y e₂ z) : t.Follows x (e₁ ++ e₂) z := by
  induction h₁ with
  | nil => exact h₂
  | connected hb _ ih => exact .connected hb (ih h₂)
  | disconnected hp _ ih => exact .disconnected hp (ih h₂)
  | refused _ ih => exact .refused (ih h₂)

/-- Going back to an ancestor. -/
theorem follows_above (hf : f ∈ t.path x) :
    t.Follows x ((t.above x (t.height f)).map .disconnected) f := by
  refine path_induction hf ?_ fun x p hp hlt ih => ?_
  · rw [above_self]
    exact .nil
  · rw [above_of_ne hlt.ne' hp]
    exact .disconnected hp ih

/-! ### What connecting blocks does -/

/-- Nothing but the tip, the marks, the trace and the queue of unlinked blocks changes, and
candidates are only erased. -/
structure Frame (s s' : ChainState β) : Prop where
  mapBlockIndex : s'.mapBlockIndex = s.mapBlockIndex
  haveData : s'.haveData = s.haveData
  nChainTx : s'.nChainTx = s.nChainTx
  nSequenceId : s'.nSequenceId = s.nSequenceId
  nBlockSequenceId : s'.nBlockSequenceId = s.nBlockSequenceId
  candidate_old : ∀ c ∈ s'.setBlockIndexCandidates, c ∈ s.setBlockIndexCandidates

theorem Frame.refl (s : ChainState β) : Frame s s := ⟨rfl, rfl, rfl, rfl, rfl, fun _ h => h⟩

theorem Frame.trans (h₁ : Frame s₁ s₂) (h₂ : Frame s₂ s₃) : Frame s₁ s₃ where
  mapBlockIndex := h₂.mapBlockIndex.trans h₁.mapBlockIndex
  haveData := h₂.haveData.trans h₁.haveData
  nChainTx := h₂.nChainTx.trans h₁.nChainTx
  nSequenceId := h₂.nSequenceId.trans h₁.nSequenceId
  nBlockSequenceId := h₂.nBlockSequenceId.trans h₁.nBlockSequenceId
  candidate_old := fun c hc => h₁.candidate_old c (h₂.candidate_old c hc)

variable (t) in
/-- No candidate is worse than the tip. -/
def NoneWorse (s : ChainState β) : Prop :=
  ∀ c ∈ s.setBlockIndexCandidates, t.workLess s.nSequenceId c s.tip = false

variable (t) in
/-- Blocks were connected, the first one on top of the tip, and then a block may have been refused. -/
structure Connects (s s' : ChainState β) : Prop extends Frame s s' where
  mapBlocksUnlinked : s'.mapBlocksUnlinked = s.mapBlocksUnlinked
  noneWorse : t.NoneWorse s → t.NoneWorse s'
  tip_path : s.tip ∈ t.path s'.tip
  trace : ∃ events, s'.trace = s.trace ++ events ∧ t.Follows s.tip events s'.tip ∧
    ∀ b, .disconnected b ∉ events

theorem Connects.trans (h₁ : t.Connects s₁ s₂) (h₂ : t.Connects s₂ s₃) : t.Connects s₁ s₃ := by
  obtain ⟨e₁, htrace₁, hfollows₁, hnone₁⟩ := h₁.trace
  obtain ⟨e₂, htrace₂, hfollows₂, hnone₂⟩ := h₂.trace
  exact
    { h₁.toFrame.trans h₂.toFrame with
      mapBlocksUnlinked := h₂.mapBlocksUnlinked.trans h₁.mapBlocksUnlinked
      noneWorse := fun h => h₂.noneWorse (h₁.noneWorse h)
      tip_path := mem_path_trans h₁.tip_path h₂.tip_path
      trace := ⟨e₁ ++ e₂, by rw [htrace₂, htrace₁, append_assoc], hfollows₁.append hfollows₂,
        fun b hb => (mem_append.mp hb).elim (hnone₁ b) (hnone₂ b)⟩ }

theorem connects_of_prune (hparent : t.parent b = some s.tip)
    (h : t.pruneBlockIndexCandidates { s.record (.connected b) with tip := b } = .ok s') :
    t.Connects s s' ∧ t.NoneWorse s' := by
  rw [pruneBlockIndexCandidates, bind_ok] at h
  obtain ⟨_, _, h⟩ := h
  cases h
  have hnone : t.NoneWorse { s.record (.connected b) with
      tip := b
      setBlockIndexCandidates := s.setBlockIndexCandidates.filter fun c =>
        !t.workLess s.nSequenceId c b } := fun c hc => by
    simpa [ChainState.record] using (mem_filter.mp hc).2
  refine ⟨⟨⟨rfl, rfl, rfl, rfl, rfl, fun c hc => (mem_filter.mp hc).1⟩, rfl, fun _ => hnone,
    mem_path_of_parent hparent, [.connected b], rfl, .connected hparent .nil, by simp⟩, hnone⟩

/-! ### FindMostWorkChain -/

theorem firstUnusable_eq {r} (h : t.firstUnusable s l = .ok r) :
    r = l.find? fun b => s.failed b || !s.haveData b := by
  induction l with
  | nil => exact (Except.ok.inj h).symm
  | cons a l ih =>
    rw [firstUnusable, bind_ok] at h
    obtain ⟨_, _, h⟩ := h
    rw [find?_cons]
    cases hbad : s.failed a || !s.haveData a with
    | true =>
      rw [if_pos hbad] at h
      exact (Except.ok.inj h).symm
    | false =>
      rw [if_neg (by simp [hbad])] at h
      exact ih h

theorem firstUnusable_none (h : t.firstUnusable s l = .ok none) (hb : b ∈ l) :
    s.failed b = false ∧ s.haveData b = true := by
  simpa using find?_eq_none.mp (firstUnusable_eq h).symm b hb

theorem firstUnusable_some (h : t.firstUnusable s l = .ok (some b)) :
    b ∈ l ∧ (s.failed b = true ∨ s.haveData b = false) :=
  ⟨mem_of_find?_eq_some (firstUnusable_eq h).symm, by simpa using find?_some (firstUnusable_eq h).symm⟩

/-- The walk passes its assertion on blocks that are linked. -/
theorem firstUnusable_returns (h : ∀ b ∈ l, s.nChainTx b = true) :
    ∃ r, t.firstUnusable s l = .ok r := by
  induction l with
  | nil => exact ⟨none, rfl⟩
  | cons a l ih =>
    rw [firstUnusable, h a mem_cons_self]
    simp only [assert, Bool.true_or, if_true, ok_bind]
    by_cases hbad : (s.failed a || !s.haveData a) = true
    · rw [if_pos hbad]
      exact ⟨_, rfl⟩
    · rw [if_neg hbad]
      exact ih fun b hb => h b (.tail _ hb)

variable [DecidableEq β]

theorem mem_candidates_discardChain :
    b ∈ (t.discardChain s pindexNew pindexTest).setBlockIndexCandidates ↔
      b ∈ s.setBlockIndexCandidates ∧
        b ∉ pindexTest :: (t.path pindexNew).takeWhile fun b => decide (b ≠ pindexTest) := by
  simp [discardChain, ChainState.eraseCandidates]

/-- The candidate that was tried is discarded. -/
theorem new_mem_discarded (t : BlockTree β) (pindexNew pindexTest : β) :
    pindexNew ∈ pindexTest :: (t.path pindexNew).takeWhile fun b => decide (b ≠ pindexTest) := by
  by_cases heq : pindexNew = pindexTest
  · simp [heq]
  · refine mem_cons_of_mem _ ?_
    cases hp : t.parent pindexNew with
    | none => simp [path_of_root hp, heq]
    | some p => simp [path_of_parent hp, heq]

theorem length_discardChain_lt (t : BlockTree β) (pindexTest : β)
    (hnew : pindexNew ∈ s.setBlockIndexCandidates) :
    (t.discardChain s pindexNew pindexTest).setBlockIndexCandidates.length <
      s.setBlockIndexCandidates.length := by
  refine length_filter_lt_length_iff_exists.mpr ⟨pindexNew, hnew, ?_⟩
  simpa [or_iff_not_imp_left] using new_mem_discarded t pindexNew pindexTest

/-- A block waits for its parent. -/
theorem mem_unlinked_discardChain {e}
    (he : e ∈ (t.discardChain s pindexNew pindexTest).mapBlocksUnlinked) :
    e ∈ s.mapBlocksUnlinked ∨ t.parent e.2 = some e.1 := by
  simp only [discardChain, ChainState.eraseCandidates] at he
  split_ifs at he
  · exact .inl he
  · rcases mem_append.mp he with he | he
    · exact .inl he
    · obtain ⟨b, -, hb⟩ := mem_filterMap.mp he
      obtain ⟨p, hp, rfl⟩ := Option.map_eq_some_iff.mp hb
      exact .inr hp

variable (t) in
/-- A number of chains were discarded, each because of a block on it. -/
inductive Discards : ChainState β → ChainState β → Prop
  | refl (s : ChainState β) : Discards s s
  | step {s s' : ChainState β} {pindexNew pindexTest : β} :
      pindexNew ∈ s.setBlockIndexCandidates →
      pindexTest ∈ t.branch pindexNew s.tip →
      s.failed pindexTest = true ∨ s.haveData pindexTest = false →
      Discards (t.discardChain s pindexNew pindexTest) s' →
      Discards s s'

/-- Every turn discards a candidate, so without a target none is left; a target is the greatest
candidate. -/
theorem findMostWorkChainLoop_spec {r} (hn : s.setBlockIndexCandidates.length < n)
    (h : t.findMostWorkChainLoop n s = .ok (r, s')) :
    t.Discards s s' ∧ (r = none → s'.setBlockIndexCandidates = []) ∧ ∀ target, r = some target →
      target ∈ s'.setBlockIndexCandidates ∧
        ∀ b ∈ s'.setBlockIndexCandidates, t.workLess s'.nSequenceId target b = false := by
  induction n generalizing s with
  | zero => omega
  | succ n ih =>
    rw [findMostWorkChainLoop] at h
    cases hbest : t.greatest s.nSequenceId s.setBlockIndexCandidates with
    | none =>
      obtain ⟨rfl, rfl⟩ : r = none ∧ s = s' := by simpa [hbest, eq_comm] using h
      exact ⟨.refl s, fun _ => greatest_eq_none hbest, by simp⟩
    | some pindexNew =>
      simp only [hbest] at h
      obtain ⟨test, htest, h⟩ := bind_ok.mp h
      cases test with
      | none =>
        obtain ⟨rfl, rfl⟩ : r = some pindexNew ∧ s = s' := by simpa [eq_comm] using h
        refine ⟨.refl s, by simp, fun target heq => ?_⟩
        exact greatest_spec (Option.some.inj heq ▸ hbest)
      | some pindexTest =>
        obtain ⟨hmem, hbad⟩ := firstUnusable_some htest
        have hlt := t.length_discardChain_lt pindexTest (greatest_spec hbest).1
        obtain ⟨hdiscards, hrest⟩ := ih (by omega) h
        exact ⟨.step (greatest_spec hbest).1 hmem hbad hdiscards, hrest⟩

theorem Discards.frame (h : t.Discards s s') : Frame s s' ∧ s'.tip = s.tip ∧ s'.trace = s.trace ∧
      ∀ e ∈ s'.mapBlocksUnlinked, e ∈ s.mapBlocksUnlinked ∨ t.parent e.2 = some e.1 := by
  induction h with
  | refl s => exact ⟨.refl s, rfl, rfl, fun e he => .inl he⟩
  | @step s s' pindexNew pindexTest _ _ _ _ ih =>
    obtain ⟨hframe, htip, htrace, hunlinked⟩ := ih
    have hone : Frame s (t.discardChain s pindexNew pindexTest) :=
      ⟨rfl, rfl, rfl, rfl, rfl, fun c hc => (mem_candidates_discardChain.mp hc).1⟩
    refine ⟨hone.trans hframe, htip, htrace, fun e he => ?_⟩
    rcases hunlinked e he with hold | hparent
    · exact mem_unlinked_discardChain hold
    · exact .inr hparent

/-- A discarded block descends from the unusable one, or is it. -/
theorem mem_path_of_discarded (htest : pindexTest ∈ t.path pindexNew)
    (hb : b ∈ pindexTest :: (t.path pindexNew).takeWhile fun b => decide (b ≠ pindexTest)) :
    pindexTest ∈ t.path b := by
  rcases mem_cons.mp hb with rfl | hb
  · exact t.mem_path_self b
  · have hmem : b ∈ t.path pindexNew := ( takeWhile_prefix _).subset hb
    refine (mem_path_or htest hmem).elim id fun hbt => ?_
    -- a block below the unusable one comes after it on the path, so the prefix does not reach it
    have hne : b ≠ pindexTest := by simpa using mem_takeWhile_imp hb
    have hlt := height_lt_of_mem hbt hne
    have hnodup := t.path_nodup pindexNew
    rw [path_eq_above_append htest] at hb hnodup
    have hpre : ∀ c ∈ t.above pindexNew (t.height pindexTest), decide (c ≠ pindexTest) = true := by
      intro c hc
      have := ((mem_above_iff htest).mp hc).2
      simp only [decide_eq_true_eq]
      rintro rfl
      omega
    rw [takeWhile_append_of_pos hpre] at hb
    rcases mem_append.mp hb with hb | hb
    · have := ((mem_above_iff htest).mp hb).2
      omega
    · have hpath : ∃ rest, t.path pindexTest = pindexTest :: rest := by
        cases hp : t.parent pindexTest with
        | none => exact ⟨_, path_of_root hp⟩
        | some p => exact ⟨_, path_of_parent hp⟩
      obtain ⟨rest, hrest⟩ := hpath
      simp [hrest] at hb

/-! ### ActivateBestChainStep -/

/-- Walking back from the height of the tip finds the fork of the block itself. -/
theorem findFork_eq (s : ChainState β) (hf : t.fork b s.tip = some f) :
    t.findFork s b = some f := by
  unfold findFork
  by_cases hlt : t.height s.tip < t.height b
  · rw [if_pos hlt]
    obtain ⟨hfb, hft⟩ := fork_mem hf
    induction b using induction (t := t.toParentTree) with
    | hstep b ih =>
      have hnot : b ∉ t.path s.tip := fun hmem => by
        have := height_le_of_mem hmem
        omega
      cases hp : t.parent b with
      | none => simp [fork, path_of_root hp, hnot] at hf
      | some p =>
        rw [fork_of_not_mem hnot hp] at hf
        rw [ancestor_of_ne (by omega) hp]
        by_cases hlt' : t.height s.tip < t.height p
        · exact ih p hp hf hlt' (fork_mem hf).1
        · have hheight : t.height s.tip = t.height p := by
            have := t.height_parent hp
            omega
          rwa [hheight, ancestor_self, Option.bind_some]
  · rwa [if_neg hlt, Option.bind_some]

theorem disconnectLoop_eq (hf : f ∈ t.path s.tip) (hn : t.height s.tip < n) :
    t.disconnectLoop f n s =
      .ok { s with
        tip := f
        trace := s.trace ++ (t.above s.tip (t.height f)).map .disconnected } := by
  induction n generalizing s with
  | zero => omega
  | succ n ih =>
    rw [disconnectLoop]
    by_cases heq : s.tip = f
    · rw [if_pos heq, ← heq, above_self, map_nil, append_nil]
    · rw [if_neg heq]
      rcases mem_path_iff.mp hf with rfl | ⟨p, hp, hmem⟩
      · exact absurd rfl heq
      · have hheight := t.height_parent hp
        have hle := height_le_of_mem hmem
        simp only [hp]
        rw [ih hmem (by simp only; omega), above_of_ne (by omega) hp]
        simp [ChainState.record]

theorem connectBlocks_append : t.connectBlocks accepts pindexOldTip (l₁ ++ l₂) s =
      (do
        let (s, fContinue, fInvalidFound) ← t.connectBlocks accepts pindexOldTip l₁ s
        if fContinue then t.connectBlocks accepts pindexOldTip l₂ s
        else .ok (s, fContinue, fInvalidFound)) := by
  induction l₁ generalizing s with
  | nil => rfl
  | cons b l₁ ih =>
    simp only [cons_append, connectBlocks, bind_assoc]
    refine bind_congr_ok fun _ _ => ?_
    by_cases hacc : accepts b = true
    · simp only [if_pos hacc, bind_assoc]
      refine bind_congr_ok fun s' _ => ?_
      by_cases hwork : t.nChainWork pindexOldTip < t.nChainWork s'.tip
      · simp only [if_pos hwork, ok_bind, Bool.false_eq_true, if_false]
      · simp only [if_neg hwork]
        exact ih
    · simp only [if_neg hacc, ok_bind, Bool.false_eq_true, if_false]

/-- The batches connect the branch above the height in one go. -/
theorem connectBatches_eq (hf : f ∈ t.path target) (hn : t.height target - t.height f < n) :
    t.connectBatches accepts pindexOldTip target n (t.height f) s =
      (do
        let (s, _, fInvalidFound) ←
          t.connectBlocks accepts pindexOldTip (t.above target (t.height f)).reverse s
        .ok (s, fInvalidFound)) := by
  induction n generalizing f s with
  | zero => omega
  | succ n ih =>
    rw [connectBatches]
    by_cases heq : t.height f = t.height target
    · obtain rfl := eq_of_height_eq hf (t.mem_path_self target) heq
      simp [above_self, connectBlocks]
    · have hle := height_le_of_mem hf
      rw [if_neg heq]
      -- the block where the batch ends
      obtain ⟨c, hc, hct, hfc⟩ : ∃ c, t.height c = min (t.height f + 32) (t.height target) ∧
          c ∈ t.path target ∧ f ∈ t.path c := exists_mem_path_of_height hf (by omega) (by omega)
      dsimp only
      rw [← hc, ancestor_of_mem hct, Option.map_some, Option.getD_some, above_eq_append hfc hct,
        reverse_append, connectBlocks_append]
      simp only [bind_assoc]
      refine bind_congr_ok fun r _ => ?_
      obtain ⟨s', fContinue, fInvalidFound⟩ := r
      cases fContinue with
      | false => rfl
      | true =>
        simp only [if_true]
        exact ih hct (by omega)

theorem activateBestChainStep_eq (hf : t.fork target s.tip = some f) :
    t.activateBestChainStep accepts target s =
      (do
        let (s, _, fInvalidFound) ←
          t.connectBlocks accepts s.tip (t.above target (t.height f)).reverse { s with
              tip := f
              trace := s.trace ++ (t.above s.tip (t.height f)).map .disconnected }
        .ok (s, fInvalidFound)) := by
  obtain ⟨hft, hftip⟩ := fork_mem hf
  simp only [activateBestChainStep, findFork_eq s hf]
  rw [disconnectLoop_eq hftip (Nat.lt_succ_self _), ok_bind]
  exact connectBatches_eq hft (by omega)

/-! ### What a step does -/

theorem connects_refused (t : BlockTree β) (s : ChainState β) (b : β) :
    t.Connects s ((s.record (.refused b)).invalidBlockFound b) :=
  { mapBlockIndex := rfl
    haveData := rfl
    nChainTx := rfl
    nSequenceId := rfl
    nBlockSequenceId := rfl
    candidate_old := fun _ hc => (mem_filter.mp hc).1
    mapBlocksUnlinked := rfl
    noneWorse := fun h c hc => h c (mem_filter.mp hc).1
    tip_path := t.mem_path_self _
    trace := ⟨[.refused b], rfl, .refused .nil, by simp⟩ }

theorem connects_of_connectBlocks {fContinue inv}
    (h : t.connectBlocks accepts pindexOldTip l s = .ok (s', fContinue, inv)) :
    t.Connects s s' := by
  induction l generalizing s with
  | nil =>
    obtain ⟨rfl, -⟩ : s = s' ∧ _ := by simpa [connectBlocks] using h
    exact { Frame.refl s with
      mapBlocksUnlinked := rfl
      noneWorse := id
      tip_path := t.mem_path_self _
      trace := ⟨[], by simp, .nil, by simp⟩ }
  | cons b l ih =>
    rw [connectBlocks, bind_ok] at h
    obtain ⟨_, hparent, h⟩ := h
    rw [assert_ok, beq_iff_eq] at hparent
    by_cases hacc : accepts b = true
    · rw [if_pos hacc, bind_ok] at h
      obtain ⟨s₁, hprune, h⟩ := h
      have hone := (connects_of_prune hparent hprune).1
      by_cases hwork : t.nChainWork pindexOldTip < t.nChainWork s₁.tip
      · rw [if_pos hwork] at h
        obtain ⟨rfl, -⟩ : s₁ = s' ∧ _ := by simpa using h
        exact hone
      · rw [if_neg hwork] at h
        exact hone.trans (ih h)
    · rw [if_neg hacc] at h
      obtain ⟨rfl, -⟩ : (s.record (.refused b)).invalidBlockFound b = s' ∧ _ := by simpa using h
      exact t.connects_refused s b

/-- The state after going back to an ancestor of the tip. -/
def wentBack (t : BlockTree β) (s : ChainState β) (f : β) : ChainState β :=
  { s with
    tip := f
    trace := s.trace ++ (t.above s.tip (t.height f)).map .disconnected }

theorem connects_of_step {inv} (hf : t.fork target s.tip = some f)
    (h : t.activateBestChainStep accepts target s = .ok (s', inv)) :
    t.Connects (t.wentBack s f) s' := by
  rw [activateBestChainStep_eq hf, bind_ok] at h
  obtain ⟨⟨s₁, c, inv₁⟩, hcon, h⟩ := h
  obtain ⟨rfl, -⟩ : s₁ = s' ∧ inv₁ = inv := by simpa using h
  exact connects_of_connectBlocks hcon

/-! ### What a turn does -/

/-- The target is the one of the turn before, or chains are discarded to find it. -/
theorem nextTarget_cases {l} {r} (h : t.nextTarget l = .ok (r, s)) :
    t.Discards l.state s ∧ (r = none → s.setBlockIndexCandidates = []) ∧ ∀ target, r = some target →
      (l.pindexMostWork = some target ∧ s = l.state) ∨ (target ∈ s.setBlockIndexCandidates ∧
        ∀ c ∈ s.setBlockIndexCandidates, t.workLess s.nSequenceId target c = false) := by
  unfold nextTarget at h
  cases hmost : l.pindexMostWork with
  | some target =>
    obtain ⟨rfl, rfl⟩ : some target = r ∧ l.state = s := by simpa [hmost] using h
    exact ⟨.refl _, by simp, fun target' heq => .inl ⟨heq, rfl⟩⟩
  | none =>
    simp only [hmost] at h
    obtain ⟨hdiscards, hnone, hsome⟩ := findMostWorkChainLoop_spec (Nat.lt_succ_self _) h
    exact ⟨hdiscards, hnone, fun target hr => .inr (hsome target hr)⟩

/-- **All that a turn does**: without a target it returns or starts again, at the target it returns,
and otherwise it makes a step. -/
theorem turn_cases {l} {r} (h : t.turn accepts l = .ok r) :
    (∃ s, t.nextTarget l = .ok (none, s) ∧ (r = .inr s ∨ r = .inl ⟨s, none, s.tip, false⟩)) ∨
    (∃ s, t.nextTarget l = .ok (some s.tip, s) ∧ r = .inr s) ∨
    ∃ target s s' inv, t.nextTarget l = .ok (some target, s) ∧ target ≠ s.tip ∧
      t.activateBestChainStep accepts target s = .ok (s', inv) ∧
      ((inv = false ∧ target = s'.tip ∧ r = .inr s') ∨ ∃ startingTip blocksConnected,
          r = .inl ⟨s', if inv then none else some target, startingTip, blocksConnected⟩) := by
  rw [turn, bind_ok] at h
  obtain ⟨⟨pindexMostWork, s⟩, hnext, h⟩ := h
  cases pindexMostWork with
  | none =>
    refine .inl ⟨s, hnext, ?_⟩
    dsimp only at h
    split_ifs at h
    · exact .inr (Except.ok.inj h).symm
    · exact .inl (Except.ok.inj h).symm
  | some target =>
    dsimp only at h
    by_cases heq : target = s.tip
    · rw [if_pos heq] at h
      subst heq
      exact .inr (.inl ⟨s, hnext, (Except.ok.inj h).symm⟩)
    · rw [if_neg heq, bind_ok] at h
      obtain ⟨⟨s', inv⟩, hstep, h⟩ := h
      refine .inr (.inr ⟨target, s, s', inv, hnext, heq, hstep, ?_⟩)
      dsimp only at h
      by_cases hless : t.workLess s'.nSequenceId s'.tip l.startingTip = true
      · rw [if_pos hless] at h
        exact .inr ⟨_, _, (Except.ok.inj h).symm⟩
      · rw [if_neg hless] at h
        by_cases hdone : (if inv = true then none else some target) = some s'.tip
        · rw [if_pos hdone] at h
          cases inv with
          | true => simp at hdone
          | false => exact .inl ⟨rfl, by simpa using hdone, (Except.ok.inj h).symm⟩
        · rw [if_neg hdone] at h
          exact .inr ⟨_, _, (Except.ok.inj h).symm⟩

end BlockTree

end KmushiCoin
