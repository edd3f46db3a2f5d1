import KmushiCoin.Chain.ActivateSpec

/-!
# KmushiCoin.Chain.BestChain

**`ActivateBestChain` ends with the best chain active.** For every block index that passes
`CheckBlockIndex` and every choice of the blocks that `ConnectBlock` takes, the loops end, and the
tip is then the greatest of the blocks that can be reached.

* Candidates are pruned against a tip that may be left again, so the state alone does not say which
  blocks are still candidates. `Running` keeps a **floor**, the best tip so far: what is at least as
  good as the floor and is not known to be unusable is a candidate.
* A target is `Aimed` at when it is the greatest candidate and nothing on its path is known to be
  unusable. Connecting its blocks keeps that; a refused block is marked, and a marked block is on no
  later target's path.
* A turn marks a block, takes a target, or comes closer to its target; `Descends` is that order.
-/

namespace KmushiCoin

open ParentTree ChainState List Bool

namespace BlockTree

variable {β : Type}

section Definitions

variable (t : BlockTree β) (accepts : β → Bool)

/-- `pindexFirstMissing == nullptr`. -/
def HasData (s : ChainState β) (b : β) : Prop := ∀ a ∈ t.path b, s.haveData a = true

/-- `pindexFirstInvalid == nullptr`. -/
def NoInvalid (s : ChainState β) (b : β) : Prop := ∀ a ∈ t.path b, s.failedValid a = false

instance (s : ChainState β) (b : β) : Decidable (t.HasData s b) :=
  inferInstanceAs (Decidable (∀ a ∈ t.path b, s.haveData a = true))

instance (s : ChainState β) (b : β) : Decidable (t.NoInvalid s b) :=
  inferInstanceAs (Decidable (∀ a ∈ t.path b, s.failedValid a = false))

/-- What `CheckBlockIndex` asserts of the entries of the block index. -/
structure IndexChecked (s : ChainState β) : Prop where
  tip_mem : s.tip ∈ s.mapBlockIndex
  candidate_mem : ∀ b ∈ s.setBlockIndexCandidates, b ∈ s.mapBlockIndex
  parent_mem : ∀ b ∈ s.mapBlockIndex, ∀ p, t.parent b = some p → p ∈ s.mapBlockIndex
  genesis : ∀ b ∈ s.mapBlockIndex, t.parent b = none → b ∈ t.path s.tip
  sequence : ∀ b ∈ s.mapBlockIndex, s.nChainTx b = false → s.nSequenceId b = 0
  chainTx : ∀ b ∈ s.mapBlockIndex, s.nChainTx b = true ↔ t.HasData s b
  work : ∀ b ∈ s.mapBlockIndex, ∀ p, t.parent b = some p → t.nChainWork p ≤ t.nChainWork b
  not_failed : ∀ b ∈ s.mapBlockIndex, t.NoInvalid s b → s.failed b = false
  candidate : ∀ b ∈ s.mapBlockIndex, t.workLess s.nSequenceId b s.tip = false → t.HasData s b →
    t.NoInvalid s b → b ∈ s.setBlockIndexCandidates
  candidate_good : ∀ b ∈ s.setBlockIndexCandidates,
    t.workLess s.nSequenceId b s.tip = false ∧ t.HasData s b
  unlinked : ∀ b ∈ s.mapBlockIndex, ∀ p, t.parent b = some p → s.haveData b = true →
    ¬ t.HasData s b → t.NoInvalid s b → (p, b) ∈ s.mapBlocksUnlinked
  unlinked_good : ∀ b ∈ s.mapBlockIndex, ∀ p, t.parent b = some p →
    (p, b) ∈ s.mapBlocksUnlinked → s.haveData b = true ∧ ¬ t.HasData s b

/-- All blocks on the way have data, are not marked failed and are accepted. -/
def Usable (s : ChainState β) (b : β) : Prop :=
  ∀ a ∈ t.path b, s.haveData a = true ∧ s.failed a = false ∧ accepts a = true

instance (s : ChainState β) (b : β) : Decidable (t.Usable accepts s b) :=
  inferInstanceAs (Decidable (∀ a ∈ t.path b,
    s.haveData a = true ∧ s.failed a = false ∧ accepts a = true))

/-- All blocks on the way have data and are not marked failed. -/
def Clean (s : ChainState β) (b : β) : Prop :=
  ∀ a ∈ t.path b, s.haveData a = true ∧ s.failed a = false

/-- The better one of two blocks. -/
def better (nSequenceId : β → Nat) (a b : β) : β := if t.workLess nSequenceId a b then b else a

/-- **The invariant of a call**, relative to the state `s₀` at its start: the tip was accepted, as
was the `floor`; every block at least as good as the floor that is clean is a candidate. -/
structure Running (s₀ : ChainState β) (floor : β) (s : ChainState β) : Prop where
  mapBlockIndex : s.mapBlockIndex = s₀.mapBlockIndex
  haveData : s.haveData = s₀.haveData
  nChainTx : s.nChainTx = s₀.nChainTx
  nSequenceId : s.nSequenceId = s₀.nSequenceId
  candidate_old : ∀ b ∈ s.setBlockIndexCandidates, b ∈ s₀.setBlockIndexCandidates
  failedValid : ∀ b, s.failedValid b = true → s₀.failedValid b = true ∨ accepts b = false
  failedChild : ∀ b ∈ s₀.mapBlockIndex, s.failedChild b = true → ¬ t.NoInvalid s b
  failed_old : ∀ b, s.failed b = false → s₀.failed b = false
  tip_mem : s.tip ∈ s₀.mapBlockIndex
  tip_usable : t.Usable accepts s₀ s.tip
  floor_mem : floor ∈ s₀.mapBlockIndex
  floor_usable : t.Usable accepts s₀ floor
  floor_tip : t.workLess s₀.nSequenceId floor s.tip = false
  kept : ∀ b ∈ s₀.mapBlockIndex, t.Clean s b → t.workLess s₀.nSequenceId b floor = false →
    b ∈ s.setBlockIndexCandidates
  refused : ∀ b, .refused b ∈ s.trace → s.failedValid b = true

/-- The target of a turn. -/
structure Aimed (s : ChainState β) (target : β) : Prop where
  mem : target ∈ s.setBlockIndexCandidates
  greatest : ∀ b ∈ s.setBlockIndexCandidates, t.workLess s.nSequenceId target b = false
  clean : t.Clean s target

end Definitions

variable {t : BlockTree β} {accepts : β → Bool} {s₀ s s' : ChainState β} {floor target b f x : β}

/-! ### The better block -/

theorem better_not_less (t : BlockTree β) (nSequenceId : β → Nat) (a b : β) :
    t.workLess nSequenceId (t.better nSequenceId a b) a = false ∧
      t.workLess nSequenceId (t.better nSequenceId a b) b = false := by
  unfold better
  split_ifs with h
  · exact ⟨not_workLess_of_workLess h, t.workLess_self _ b⟩
  · exact ⟨t.workLess_self _ a, not_eq_true _ ▸ h⟩

variable {a pindexNew pindexTest : β} {l l' : ActivateLoop β}

/-- What holds of both blocks holds of the better one. -/
theorem better_ind {P : β → Prop} {nSequenceId : β → Nat} {b : β} (ha : P a) (hb : P b) :
    P (t.better nSequenceId a b) := by
  unfold better
  split_ifs
  · exact hb
  · exact ha

theorem failed_iff : s.failed b = false ↔ s.failedValid b = false ∧ s.failedChild b = false :=
  or_eq_false_iff

/-! ### The block index -/

namespace IndexChecked

variable (h : t.IndexChecked s)

include h

theorem path_mem (hb : b ∈ s.mapBlockIndex) (hx : x ∈ t.path b) : x ∈ s.mapBlockIndex := by
  revert hb
  exact path_induction hx id fun b p hp _ ih hb => ih (h.parent_mem b hb p hp)

/-- All blocks descend from the first one. -/
theorem exists_root : ∃ g, ∀ b ∈ s.mapBlockIndex, g ∈ t.path b := by
  obtain ⟨g, hg, hgroot⟩ := t.exists_root s.tip
  refine ⟨g, fun b hb => ?_⟩
  obtain ⟨r, hr, hrroot⟩ := t.exists_root b
  have hrtip : r ∈ t.path s.tip := h.genesis r (h.path_mem hb hr) hrroot
  rwa [root_unique hg hrtip hgroot hrroot]

theorem linked (hb : b ∈ s.setBlockIndexCandidates) (hx : x ∈ t.path b) : s.nChainTx x = true := by
  refine (h.chainTx x (h.path_mem (h.candidate_mem b hb) hx)).mpr fun a ha => ?_
  exact (h.candidate_good b hb).2 a (mem_path_trans ha hx)

/-- At the start the floor is the tip. -/
theorem running (husable : t.Usable accepts s s.tip) :
    t.Running accepts s s.tip { s with trace := [] } where
  mapBlockIndex := rfl
  haveData := rfl
  nChainTx := rfl
  nSequenceId := rfl
  candidate_old := fun _ hb => hb
  failedValid := fun _ hb => .inl hb
  failedChild := fun b hb hchild hvalid => by
    have hfailed := h.not_failed b hb hvalid
    have hchild' : s.failedChild b = true := hchild
    simp [failed, hchild'] at hfailed
  failed_old := fun _ hb => hb
  tip_mem := h.tip_mem
  tip_usable := husable
  floor_mem := h.tip_mem
  floor_usable := husable
  floor_tip := t.workLess_self _ _
  kept := fun b hb hclean hbetter => by
    refine h.candidate b hb hbetter (fun a ha => (hclean a ha).1) fun a ha => ?_
    exact (failed_iff.mp (hclean a ha).2).1
  refused := fun b hb => by simp at hb

end IndexChecked

/-! ### Targets -/

/-- The next block on the way to a target. -/
theorem above_reverse_cons (hx : x ∈ t.path target) (hne : x ≠ target) :
    ∃ b, t.parent b = some x ∧ b ∈ t.path target ∧
      (t.above target (t.height x)).reverse = b :: (t.above target (t.height b)).reverse := by
  have hlt := height_lt_of_mem hx hne
  obtain ⟨b, hheight, hb, hxb⟩ :=
    exists_mem_path_of_height hx (Nat.le_succ (t.height x)) hlt
  rcases mem_path_iff.mp hxb with rfl | ⟨p, hp, hxp⟩
  · omega
  · have hpheight := t.height_parent hp
    obtain rfl : x = p := eq_of_height_eq hxp (t.mem_path_self p) (by omega)
    refine ⟨b, hp, hb, ?_⟩
    rw [above_eq_append hxb hb, above_of_ne (by omega) hp, above_self]
    simp

/-- Some block was marked in addition. -/
def Marks (s s' : ChainState β) : Prop :=
  (∀ a, s.failedValid a = true → s'.failedValid a = true) ∧
  ∃ b ∈ s.mapBlockIndex, s.failedValid b = false ∧ s'.failedValid b = true

variable (t) in
/-- The tip came closer to the target. -/
structure Advances (target : β) (s s' : ChainState β) : Prop where
  aimed : t.Aimed s' target
  tip_path : s'.tip ∈ t.path target
  tip_above : s.tip ∈ t.path s'.tip
  tip_ne : s.tip ≠ target → s.tip ≠ s'.tip
  failedValid : s'.failedValid = s.failedValid

theorem Advances.trans {s₁ s₂ s₃} (h₁ : t.Advances target s₁ s₂)
    (h₂ : t.Advances target s₂ s₃) : t.Advances target s₁ s₃ where
  aimed := h₂.aimed
  tip_path := h₂.tip_path
  tip_above := mem_path_trans h₁.tip_above h₂.tip_above
  tip_ne := fun hne heq => by
    have hle := height_le_of_mem h₂.tip_above
    have hlt := height_lt_of_mem h₁.tip_above (h₁.tip_ne hne)
    rw [heq] at hlt
    omega
  failedValid := h₂.failedValid.trans h₁.failedValid

theorem pruneBlockIndexCandidates_eq (hb : b ∈ s.setBlockIndexCandidates)
    (hle : t.workLess s.nSequenceId b s.tip = false) :
    t.pruneBlockIndexCandidates s = .ok { s with
      setBlockIndexCandidates :=
        s.setBlockIndexCandidates.filter fun b => !t.workLess s.nSequenceId b s.tip } := by
  have hmem : b ∈ s.setBlockIndexCandidates.filter fun b => !t.workLess s.nSequenceId b s.tip := by
    simp [hb, hle]
  have hne := ne_nil_of_mem hmem
  simp [pruneBlockIndexCandidates, assert, hne]

theorem Running.prune (h : t.Running accepts s₀ floor s) : t.Running accepts s₀ floor { s with
      setBlockIndexCandidates :=
        s.setBlockIndexCandidates.filter fun b => !t.workLess s.nSequenceId b s.tip } :=
  { h with
    candidate_old := fun b hb => h.candidate_old b (mem_filter.mp hb).1
    kept := fun b hb hclean hbetter => by
      refine mem_filter.mpr ⟨h.kept b hb hclean hbetter, ?_⟩
      rw [h.nSequenceId, not_workLess_trans hbetter h.floor_tip]
      rfl }

/-- The tip moves to a block that can be used; the floor rises to it. -/
theorem Running.moveTip {trace} (h : t.Running accepts s₀ floor s)
    (hx : x ∈ s₀.mapBlockIndex) (husable : t.Usable accepts s₀ x)
    (htrace : ∀ b, .refused b ∈ trace → .refused b ∈ s.trace) :
    t.Running accepts s₀ (t.better s₀.nSequenceId floor x) { s with tip := x, trace := trace } :=
  { h with
    tip_mem := hx
    tip_usable := husable
    floor_mem := better_ind h.floor_mem hx
    floor_usable := better_ind h.floor_usable husable
    floor_tip := (t.better_not_less _ _ _).2
    kept := fun b hb hclean hbetter =>
      h.kept b hb hclean (not_workLess_trans hbetter (t.better_not_less _ _ _).1)
    refused := fun b hb => h.refused b (htrace b hb) }

section

variable (hidx : t.IndexChecked s₀) (h : t.Running accepts s₀ floor s)
include hidx h

/-- What can be used is never marked. -/
theorem Running.clean (hb : b ∈ s₀.mapBlockIndex) (husable : t.Usable accepts s₀ b) :
    t.Clean s b := by
  have hvalid : ∀ a ∈ t.path b, s.failedValid a = false := by
    intro a ha
    obtain ⟨-, hfailed, haccepts⟩ := husable a ha
    by_contra hmarked
    rcases h.failedValid a (by simpa using hmarked) with hold | hrefused
    · simp [(failed_iff.mp hfailed).1] at hold
    · simp [haccepts] at hrefused
  intro a ha
  refine ⟨by rw [h.haveData]; exact (husable a ha).1, ?_⟩
  simp only [failed, hvalid a ha, Bool.false_or]
  by_contra hchild
  refine h.failedChild a (hidx.path_mem hb ha) (by simpa using hchild) fun c hc => ?_
  exact hvalid c (mem_path_trans hc ha)

theorem Running.floor_candidate : floor ∈ s.setBlockIndexCandidates :=
  h.kept floor h.floor_mem (h.clean hidx h.floor_mem h.floor_usable) (t.workLess_self _ _)

/-- Blocks on the way to the target are not better than it. -/
theorem Aimed.not_less (haimed : t.Aimed s target) (hb : b ∈ s₀.mapBlockIndex)
    (hclean : t.Clean s b) : t.workLess s₀.nSequenceId target b = false := by
  have hgreatest := haimed.greatest
  rw [h.nSequenceId] at hgreatest
  by_contra hless
  have hle := not_workLess_of_workLess (not_eq_false _ ▸ hless)
  have hfloor := not_workLess_trans hle (hgreatest floor (h.floor_candidate hidx))
  exact hless (hgreatest b (h.kept b hb hclean hfloor))

/-- One block of the branch is connected. -/
theorem connect_one (haimed : t.Aimed s target) (hparent : t.parent b = some s.tip)
    (hb : b ∈ t.path target) (haccepts : accepts b = true) :
    ∃ floor' s', t.pruneBlockIndexCandidates { s.record (.connected b) with tip := b } = .ok s' ∧
      t.Running accepts s₀ floor' s' ∧ t.workLess s₀.nSequenceId floor' floor = false ∧
      t.Advances target s s' ∧ s'.tip = b := by
  have htarget := hidx.candidate_mem _ (h.candidate_old _ haimed.mem)
  have hbmem := hidx.path_mem htarget hb
  have hclean : t.Clean s b := fun a ha => haimed.clean a (mem_path_trans ha hb)
  have husable : t.Usable accepts s₀ b := by
    intro a ha
    rcases mem_path_iff.mp ha with rfl | ⟨p, hp, hmem⟩
    · obtain ⟨hdata, hfailed⟩ := haimed.clean a hb
      exact ⟨h.haveData ▸ hdata, h.failed_old a hfailed, haccepts⟩
    · obtain rfl := Option.mem_unique hp hparent
      exact h.tip_usable a hmem
  have hmoved : t.Running accepts s₀ (t.better s₀.nSequenceId floor b)
      { s with tip := b, trace := s.trace ++ [.connected b] } :=
    h.moveTip hbmem husable (by simp)
  -- the target itself stays a candidate
  have hle : t.workLess s.nSequenceId target b = false := by
    rw [h.nSequenceId]
    exact haimed.not_less hidx h hbmem hclean
  refine ⟨_, _, pruneBlockIndexCandidates_eq (b := target) haimed.mem hle, hmoved.prune,
    (t.better_not_less _ _ _).1, ?_, rfl⟩
  refine ⟨⟨?_, fun a ha => haimed.greatest a (mem_filter.mp ha).1, haimed.clean⟩, hb,
    mem_path_of_parent hparent, fun _ heq => ?_, rfl⟩
  · exact mem_filter.mpr ⟨haimed.mem, by simp only [not_eq_true']; exact hle⟩
  · have hheight := t.height_parent hparent
    have heq' : s.tip = b := heq
    rw [heq'] at hheight
    omega

variable (t accepts) in
/-- The tip is the greatest of the blocks that can be used. -/
def BestTip (s₀ s : ChainState β) : Prop :=
  s.tip ∈ s₀.mapBlockIndex ∧ t.Usable accepts s₀ s.tip ∧
  ∀ b ∈ s₀.mapBlockIndex, t.Usable accepts s₀ b → t.workLess s₀.nSequenceId s.tip b = false

theorem bestTip_of_aimed (haimed : t.Aimed s s.tip) : t.BestTip accepts s₀ s :=
  ⟨h.tip_mem, h.tip_usable, fun _ hb husable =>
    haimed.not_less hidx h hb (h.clean hidx hb husable)⟩

variable [DecidableEq β]

/-! ### FindMostWorkChain -/

/-- A block on the way to the target is either on its branch, or below the tip. -/
theorem clean_of_branch (hb : b ∈ s₀.mapBlockIndex)
    (hbranch : ∀ a ∈ t.branch b s.tip, s.failed a = false ∧ s.haveData a = true) : t.Clean s b := by
  obtain ⟨g, hg⟩ := hidx.exists_root
  obtain ⟨f, hf⟩ := exists_fork (hg b hb) (hg s.tip h.tip_mem)
  intro a ha
  rcases mem_branch_or ha hf with hmem | hmem
  · exact (hbranch a hmem).symm
  · exact h.clean hidx h.tip_mem h.tip_usable a (mem_path_trans hmem (fork_mem hf).2)

omit hidx h in
/-- Marks of a chain are only added. -/
theorem failed_of_discardChain (hb : (t.discardChain s pindexNew pindexTest).failed b = false)
    : s.failed b = false := by
  simp only [failed, discardChain, eraseCandidates, or_eq_false_iff] at hb ⊢
  exact ⟨hb.1, hb.2.1⟩

theorem Running.discardChain (hmem : pindexTest ∈ t.path pindexNew)
    (hbad : s.failed pindexTest = true ∨ s.haveData pindexTest = false) :
    t.Running accepts s₀ floor (t.discardChain s pindexNew pindexTest) :=
  { h with
    candidate_old := fun b hb => h.candidate_old b (mem_candidates_discardChain.mp hb).1
    failedChild := fun b hb hchild => by
      have hchild' : s.failedChild b = true ∨ (s.failed pindexTest = true ∧
          b ∈ (t.path pindexNew).takeWhile fun a => decide (a ≠ pindexTest)) := by
        simpa [BlockTree.discardChain, eraseCandidates] using hchild
      rcases hchild' with hold | ⟨hfailed, hdesc⟩
      · exact h.failedChild b hb hold
      · -- the chain failed, so a block on the way to `pindexTest` is marked
        have hpath := mem_path_of_discarded hmem (.tail _ hdesc)
        intro hvalid
        have htest : s.failedValid pindexTest = false := hvalid _ hpath
        refine h.failedChild pindexTest (hidx.path_mem hb hpath) ?_ fun a ha =>
          hvalid a (mem_path_trans ha hpath)
        simpa [failed, htest] using hfailed
    failed_old := fun b hb => h.failed_old b (failed_of_discardChain hb)
    kept := fun b hb hclean hbetter => by
      have hclean' : t.Clean s b := fun a ha =>
        ⟨(hclean a ha).1, failed_of_discardChain (hclean a ha).2⟩
      refine mem_candidates_discardChain.mpr ⟨h.kept b hb hclean' hbetter, fun hdisc => ?_⟩
      obtain ⟨hdata, hfailed⟩ := hclean' _ (mem_path_of_discarded hmem hdisc)
      simp [hdata, hfailed] at hbad }

/-- Nothing but candidates, marks of descendants and the queue of unlinked blocks changes. -/
structure SameChain (s s' : ChainState β) : Prop where
  tip : s'.tip = s.tip
  failedValid : s'.failedValid = s.failedValid
  trace : s'.trace = s.trace

theorem findMostWorkChainLoop_aims {n : Nat} (hn : s.setBlockIndexCandidates.length < n) :
    ∃ target s', t.findMostWorkChainLoop n s = .ok (some target, s') ∧
      t.Running accepts s₀ floor s' ∧ t.Aimed s' target ∧ SameChain s s' := by
  induction n generalizing s with
  | zero => omega
  | succ n ih =>
    rw [findMostWorkChainLoop]
    cases hbest : t.greatest s.nSequenceId s.setBlockIndexCandidates with
    | none =>
      have hmem := h.floor_candidate hidx
      rw [greatest_eq_none hbest] at hmem
      simp at hmem
    | some pindexNew =>
      obtain ⟨hnew, hgreatest⟩ := greatest_spec hbest
      have hnewMem := hidx.candidate_mem _ (h.candidate_old _ hnew)
      obtain ⟨r, hr⟩ : ∃ r, t.firstUnusable s (t.branch pindexNew s.tip) = .ok r := by
        refine firstUnusable_returns fun b hb => ?_
        rw [h.nChainTx]
        exact hidx.linked (h.candidate_old _ hnew) (mem_path_of_mem_branch hb)
      simp only [hr, ok_bind]
      cases r with
      | none =>
        refine ⟨pindexNew, s, rfl, h, ⟨hnew, hgreatest, ?_⟩, rfl, rfl, rfl⟩
        exact clean_of_branch hidx h hnewMem fun a ha => firstUnusable_none hr ha
      | some pindexTest =>
        obtain ⟨hbranch, hbad⟩ := firstUnusable_some hr
        have hrun := h.discardChain hidx (mem_path_of_mem_branch hbranch) hbad
        have hlt := t.length_discardChain_lt pindexTest hnew
        obtain ⟨target, s', heq, hrun', haimed, hsame⟩ := ih hrun (by omega)
        exact ⟨target, s', heq, hrun', haimed, hsame.tip, hsame.failedValid, hsame.trace⟩

/-! ### Connecting the branch of the target -/

omit hidx h in
@[simp] theorem failedValid_invalidBlockFound :
    (s.invalidBlockFound b).failedValid a = (s.failedValid a || a == b) :=
  rfl

omit hidx h in
theorem failed_of_invalidBlockFound (ha : (s.invalidBlockFound b).failed a = false) :
    s.failed a = false ∧ a ≠ b := by
  simp only [failed, invalidBlockFound, eraseCandidates,
    or_eq_false_iff, beq_eq_false_iff_ne] at ha ⊢
  exact ⟨⟨ha.1.1, ha.2⟩, ha.1.2⟩

omit hidx in
/-- A refused block is marked. -/
theorem Running.invalidBlockFound (hb : accepts b = false) :
    t.Running accepts s₀ floor ((s.record (.refused b)).invalidBlockFound b) :=
  { h with
    candidate_old := fun a ha => h.candidate_old a (mem_filter.mp ha).1
    failedValid := fun a ha => by
      have ha' : s.failedValid a = true ∨ a = b := by
        simpa [record] using ha
      rcases ha' with ha' | rfl
      · exact h.failedValid a ha'
      · exact .inr hb
    failedChild := fun a ha hchild hvalid => by
      refine h.failedChild a ha hchild fun c hc => ?_
      exact (or_eq_false_iff.mp (hvalid c hc)).1
    failed_old := fun a ha => h.failed_old a (failed_of_invalidBlockFound ha).1
    kept := fun a ha hclean hbetter => by
      refine mem_filter.mpr ⟨h.kept a ha (fun c hc => ?_) hbetter, ?_⟩
      · exact ⟨(hclean c hc).1, (failed_of_invalidBlockFound (hclean c hc).2).1⟩
      · simpa using (failed_of_invalidBlockFound (hclean a (t.mem_path_self a)).2).2
    refused := fun a ha => by
      have ha' : .refused a ∈ s.trace ∨ a = b := by
        simpa [ChainState.invalidBlockFound, ChainState.eraseCandidates, ChainState.record] using ha
      simpa [record] using ha'.imp_left (h.refused a) }

/-- **The branch is connected** until the tip is better than it was, or until a block is refused and
marked. -/
theorem connectBlocks_sound (pindexOldTip : β) (haimed : t.Aimed s target)
    (htip : s.tip ∈ t.path target) :
    ∃ floor' s' fContinue fInvalidFound,
      t.connectBlocks accepts pindexOldTip (t.above target (t.height s.tip)).reverse s =
        .ok (s', fContinue, fInvalidFound) ∧
      t.Running accepts s₀ floor' s' ∧ t.workLess s₀.nSequenceId floor' floor = false ∧
      (fInvalidFound = false → t.Advances target s s') ∧ (fInvalidFound = true → Marks s s') := by
  induction hn : t.height target - t.height s.tip using Nat.strong_induction_on
    generalizing s floor with
  | h n ih =>
    by_cases heq : s.tip = target
    · refine ⟨floor, s, true, false, ?_, h, t.workLess_self _ _, fun _ => ?_, by simp⟩
      · rw [heq, above_self]
        rfl
      · exact ⟨haimed, htip, t.mem_path_self _, fun hne => absurd heq hne, rfl⟩
    · obtain ⟨b, hparent, hb, hlist⟩ := above_reverse_cons htip heq
      rw [hlist, connectBlocks]
      simp only [hparent, beq_self_eq_true, assert, if_true, ok_bind]
      by_cases haccepts : accepts b = true
      · obtain ⟨floor₁, s₁, hprune, hrun, hfloor₁, hadv, htip₁⟩ :=
          connect_one hidx h haimed hparent hb haccepts
        simp only [if_pos haccepts, hprune, ok_bind]
        by_cases hwork : t.nChainWork pindexOldTip < t.nChainWork s₁.tip
        · rw [if_pos hwork]
          exact ⟨floor₁, s₁, false, false, rfl, hrun, hfloor₁, fun _ => hadv, by simp⟩
        · rw [if_neg hwork]
          have hlt : t.height target - t.height s₁.tip < n := by
            have hheight := t.height_parent hparent
            have hle := height_le_of_mem hb
            rw [htip₁]
            omega
          obtain ⟨floor₂, s₂, c, inv, hcon, hrun₂, hfloor₂, hok, hbad⟩ :=
            ih _ hlt hrun hadv.aimed hadv.tip_path rfl
          rw [htip₁] at hcon
          refine ⟨floor₂, s₂, c, inv, hcon, hrun₂, not_workLess_trans hfloor₂ hfloor₁,
            fun hinv => hadv.trans (hok hinv), fun hinv => ?_⟩
          obtain ⟨hmono, a, ha, hbefore, hafter⟩ := hbad hinv
          rw [hadv.failedValid] at hmono hbefore
          exact ⟨hmono, a, by rw [h.mapBlockIndex, ← hrun.mapBlockIndex]; exact ha, hbefore, hafter⟩
      · rw [if_neg haccepts]
        refine ⟨floor, _, false, true, rfl, h.invalidBlockFound (eq_false_iff.mpr haccepts),
          t.workLess_self _ _, by simp, fun _ => ⟨fun a ha => ?_, b, ?_, ?_, ?_⟩⟩
        · simp [record, ha]
        · rw [h.mapBlockIndex]
          exact hidx.path_mem (hidx.candidate_mem _ (h.candidate_old _ haimed.mem)) hb
        · exact (failed_iff.mp (haimed.clean b hb).2).1
        · simp

/-- `ActivateBestChainStep` comes closer to its target, or marks a block. -/
theorem activateBestChainStep_sound (haimed : t.Aimed s target) : ∃ floor' s' fInvalidFound,
      t.activateBestChainStep accepts target s = .ok (s', fInvalidFound) ∧
      t.Running accepts s₀ floor' s' ∧ t.workLess s₀.nSequenceId floor' floor = false ∧
      (fInvalidFound = false → t.Aimed s' target ∧ s'.tip ∈ t.path target ∧
        s'.failedValid = s.failedValid ∧
        (s.tip ∈ t.path target → s.tip ≠ target → t.height s.tip < t.height s'.tip)) ∧
      (fInvalidFound = true → Marks s s') := by
  obtain ⟨g, hg⟩ := hidx.exists_root
  have htarget := hidx.candidate_mem _ (h.candidate_old _ haimed.mem)
  obtain ⟨f, hf⟩ := exists_fork (hg target htarget) (hg s.tip h.tip_mem)
  obtain ⟨hftarget, hftip⟩ := fork_mem hf
  have hmoved : t.Running accepts s₀ (t.better s₀.nSequenceId floor f) { s with
      tip := f
      trace := s.trace ++ (t.above s.tip (t.height f)).map .disconnected } :=
    h.moveTip (hidx.path_mem htarget hftarget) (fun a ha => h.tip_usable a (mem_path_trans ha hftip))
      (by simp)
  obtain ⟨floor', s', c, inv, hcon, hrun, hfloor, hok, hbad⟩ :=
    connectBlocks_sound hidx hmoved s.tip ⟨haimed.mem, haimed.greatest, haimed.clean⟩ hftarget
  refine ⟨floor', s', inv, ?_, hrun, not_workLess_trans hfloor (t.better_not_less _ _ _).1,
    fun hinv => ?_, hbad⟩
  · rw [activateBestChainStep_eq hf, hcon]
    rfl
  · have hadv := hok hinv
    refine ⟨hadv.aimed, hadv.tip_path, hadv.failedValid, fun hmem hne => ?_⟩
    -- a tip on the way to the target is itself the fork
    obtain rfl : f = s.tip := by
      have hfork := mem_path_fork hf hmem (t.mem_path_self _)
      refine eq_of_height_eq hftip (t.mem_path_self _) ?_
      have := height_le_of_mem hfork
      have := height_le_of_mem hftip
      omega
    exact height_lt_of_mem hadv.tip_above (hadv.tip_ne hne)

end

/-! ### The loops -/

variable [DecidableEq β]

variable (t accepts) in
/-- The invariant at the head of the loop. -/
def Good (s₀ : ChainState β) (l : ActivateLoop β) : Prop :=
  ∃ floor, t.Running accepts s₀ floor l.state ∧
    ∀ target, l.pindexMostWork = some target →
      t.Aimed l.state target ∧ l.state.tip ∈ t.path target

/-- What a turn descends in: the blocks not marked, then whether a target is to be found, then the
way to the target. -/
def rank (t : BlockTree β) (l : ActivateLoop β) : ℕ × ℕ × ℕ :=
  ((l.state.mapBlockIndex.toFinset.filter fun b => l.state.failedValid b = false).card,
    match l.pindexMostWork with
    | none => (1, 0)
    | some target => (0, t.height target - t.height l.state.tip))

def Descends (t : BlockTree β) : ActivateLoop β → ActivateLoop β → Prop :=
  InvImage (Prod.Lex (· < ·) (Prod.Lex (· < ·) (· < ·))) t.rank

theorem wellFounded_descends (t : BlockTree β) : WellFounded t.Descends :=
  InvImage.wf _ (wellFounded_lt.prod_lex (wellFounded_lt.prod_lex wellFounded_lt))

theorem descends_of_marks (hmap : l'.state.mapBlockIndex = l.state.mapBlockIndex)
    (h : Marks l.state l'.state) : t.Descends l' l := by
  obtain ⟨hmono, b, hb, hbefore, hafter⟩ := h
  refine .left _ _ (Finset.card_lt_card ?_)
  rw [hmap]
  refine (Finset.ssubset_iff_of_subset fun a ha => ?_).mpr ⟨b, by simp [hb, hbefore], by simp [hafter]⟩
  simp only [Finset.mem_filter, mem_toFinset] at ha ⊢
  refine ⟨ha.1, ?_⟩
  by_contra hold
  simp [hmono a (by simpa using hold)] at ha

/-- The target of a turn. -/
theorem nextTarget_sound (hidx : t.IndexChecked s₀) (hrun : t.Running accepts s₀ floor l.state)
    (htarget : ∀ target, l.pindexMostWork = some target → t.Aimed l.state target ∧ l.state.tip ∈ t.path target) :
    ∃ target s, t.nextTarget l = .ok (some target, s) ∧ t.Running accepts s₀ floor s ∧
      t.Aimed s target ∧ SameChain l.state s ∧
      (∀ target', l.pindexMostWork = some target' → target' = target ∧
        l.state.tip ∈ t.path target) := by
  unfold nextTarget
  cases hmost : l.pindexMostWork with
  | none =>
    obtain ⟨target, s, hfind, hrun', haimed, hsame⟩ :=
      findMostWorkChainLoop_aims hidx hrun (Nat.lt_succ_self _)
    exact ⟨target, s, hfind, hrun', haimed, hsame, by simp⟩
  | some target =>
    obtain ⟨haimed, hpath⟩ := htarget target hmost
    refine ⟨target, l.state, rfl, hrun, haimed, ⟨rfl, rfl, rfl⟩, fun target' heq => ?_⟩
    cases heq
    exact ⟨rfl, hpath⟩

/-- **One turn** returns with the best tip, or keeps the invariant and descends. -/
theorem turn_sound (hidx : t.IndexChecked s₀) (h : t.Good accepts s₀ l) :
    (∃ s, t.turn accepts l = .ok (.inr s) ∧ t.BestTip accepts s₀ s) ∨
    ∃ l', t.turn accepts l = .ok (.inl l') ∧ t.Good accepts s₀ l' ∧ t.Descends l' l := by
  obtain ⟨floor, hrun₀, htarget⟩ := h
  obtain ⟨target, s, hnext, hrun, haimed, hsame, hold⟩ := nextTarget_sound hidx hrun₀ htarget
  simp only [turn, hnext, ok_bind]
  by_cases heq : target = s.tip
  · rw [if_pos heq]
    subst heq
    exact .inl ⟨s, rfl, bestTip_of_aimed hidx hrun haimed⟩
  rw [if_neg heq]
  obtain ⟨floor', s', inv, hstep, hrun', -, hok, hbad⟩ :=
    activateBestChainStep_sound hidx hrun haimed
  simp only [hstep, ok_bind]
  -- the variables of the next turn are good and descend, whichever way the loops go on
  have hnextTurn : ∀ startingTip blocksConnected,
      t.Good accepts s₀ ⟨s', if inv then none else some target, startingTip, blocksConnected⟩ ∧
      t.Descends ⟨s', if inv then none else some target, startingTip, blocksConnected⟩ l := by
    intro startingTip blocksConnected
    cases inv with
    | true =>
      refine ⟨⟨floor', hrun', by simp⟩, descends_of_marks ?_ ?_⟩
      · exact hrun'.mapBlockIndex.trans hrun₀.mapBlockIndex.symm
      · obtain ⟨hmono, b, hb, hbefore, hafter⟩ := hbad rfl
        rw [hsame.failedValid] at hmono hbefore
        rw [hrun.mapBlockIndex, ← hrun₀.mapBlockIndex] at hb
        exact ⟨hmono, b, hb, hbefore, hafter⟩
    | false =>
      obtain ⟨haimed', htip, hfailed, hcloser⟩ := hok rfl
      refine ⟨⟨floor', hrun', fun target' htarget' => ?_⟩, ?_⟩
      · obtain rfl : target = target' := by simpa using htarget'
        exact ⟨haimed', htip⟩
      · unfold Descends InvImage rank
        rw [hrun'.mapBlockIndex, ← hrun₀.mapBlockIndex, hfailed, hsame.failedValid]
        cases hmost : l.pindexMostWork with
        | none => exact .right _ (.left _ _ Nat.zero_lt_one)
        | some target' =>
          obtain ⟨rfl, hpath⟩ := hold target' hmost
          rw [← hsame.tip] at hpath
          have hlt := hcloser hpath (Ne.symm heq)
          have hle := height_le_of_mem htip
          have hrest : t.height target' - t.height s'.tip < t.height target' - t.height s.tip := by
            omega
          rw [← hsame.tip]
          exact .right _ (.right _ hrest)
  by_cases hless : t.workLess s'.nSequenceId s'.tip l.startingTip = true
  · rw [if_pos hless]
    exact .inr ⟨_, rfl, hnextTurn _ _⟩
  rw [if_neg hless]
  by_cases hdone : (if inv = true then none else some target) = some s'.tip
  · rw [if_pos hdone]
    cases inv with
    | true => simp at hdone
    | false =>
      obtain rfl : target = s'.tip := by simpa using hdone
      exact .inl ⟨s', rfl, bestTip_of_aimed hidx hrun' (hok rfl).1⟩
  · rw [if_neg hdone]
    exact .inr ⟨_, rfl, hnextTurn _ _⟩

theorem turn_descends (hidx : t.IndexChecked s₀) (h : t.Good accepts s₀ l)
    (hturn : t.turn accepts l = .ok (.inl l')) : t.Good accepts s₀ l' ∧ t.Descends l' l := by
  rcases turn_sound hidx h with ⟨s, hret, -⟩ | ⟨l₁, hnext, hgood, hdesc⟩
  · simp [hret] at hturn
  · obtain rfl : l₁ = l' := by simpa [hnext] using hturn
    exact ⟨hgood, hdesc⟩

/-- **`ActivateBestChain` ends at the best chain.** For every block index that passes
`CheckBlockIndex`, with an active chain that was connected, and every choice of the blocks that
`ConnectBlock` takes, the call returns, its tip is the greatest of the blocks all of whose
ancestors have data, are not marked and are accepted, and no target is ever taken with a block on
its way that was refused before. -/
theorem activateBestChain_best (t : BlockTree β) (accepts : β → Bool) (s : ChainState β)
    (hidx : t.IndexChecked s) (husable : t.Usable accepts s s.tip) :
    (∃ n s', t.activateBestChain accepts n s = .ok (.inr s') ∧ t.BestTip accepts s s') ∧
    ∀ l, Loop.Reach (t.turn accepts) (startLoop s) l →
      ∀ target s', t.nextTarget l = .ok (some target, s') →
        ∀ b ∈ t.path target, .refused b ∉ l.state.trace := by
  have hgood : ∀ l, Loop.Reach (t.turn accepts) (startLoop s) l → t.Good accepts s l :=
    fun _ hreach => hreach.invariant ⟨s.tip, hidx.running husable, by simp [startLoop]⟩
      fun _ _ _ hgood hturn => (turn_descends hidx hgood hturn).1
  refine ⟨?_, fun l hreach target s' hnext b hb hrefused => ?_⟩
  · obtain ⟨n, s', hreturn⟩ := Loop.ends t.wellFounded_descends (P := t.Good accepts s)
      (Q := fun x => ∃ s', x = .ok (.inr s') ∧ t.BestTip accepts s s')
      (fun _ hl => turn_sound hidx hl) (hgood _ .init)
    exact ⟨n, s', hreturn⟩
  · obtain ⟨floor, hrun₀, htarget⟩ := hgood l hreach
    obtain ⟨target', s₁, hnext', hrun, haimed, hsame, -⟩ := nextTarget_sound hidx hrun₀ htarget
    obtain ⟨rfl, rfl⟩ : target' = target ∧ s₁ = s' := by simpa [hnext'] using hnext
    rw [← hsame.trace] at hrefused
    have hfailed := (haimed.clean b hb).2
    simp [failed, hrun.refused b hrefused] at hfailed

end BlockTree

namespace Sample

instance neZero_four : NeZero 4 := ⟨by decide⟩

/-- Two branches from the first block: one block on the active one, two on the other. -/
def forkTree : BlockTree (Fin 4) where
  parent := ![none, some 0, some 0, some 2]
  height := ![0, 1, 1, 2]
  height_parent := by decide
  nChainWork := ![1, 2, 2, 3]
  address := fun b => b
  address_injective := fun _ _ h => Fin.ext h

/-- Block 1 is the tip, and the blocks of the other branch have arrived. -/
def forkState : ChainState (Fin 4) where
  mapBlockIndex := [0, 1, 2, 3]
  haveData := fun _ => true
  nChainTx := fun _ => true
  nSequenceId := ![0, 1, 2, 3]
  failedValid := fun _ => false
  failedChild := fun _ => false
  setBlockIndexCandidates := [1, 3]
  tip := 1

/-- Block 3 is refused when its branch is tried, and the call goes back to block 1. -/
theorem forkState_best :
    (∃ n s', forkTree.activateBestChain (fun b => b != 3) n forkState = .ok (.inr s') ∧
      forkTree.BestTip (fun b => b != 3) forkState s') ∧
    ∀ l, Loop.Reach (forkTree.turn fun b => b != 3) (BlockTree.startLoop forkState) l →
      ∀ target s', forkTree.nextTarget l = .ok (some target, s') →
        ∀ b ∈ forkTree.path target, .refused b ∉ l.state.trace :=
  BlockTree.activateBestChain_best forkTree (fun b => b != 3) forkState
    (by constructor <;> decide) (by decide)

end Sample

end KmushiCoin
