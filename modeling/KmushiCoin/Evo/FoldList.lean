import KmushiCoin.Evo.BlockOrder
import KmushiCoin.Evo.DiffSound
import KmushiCoin.Evo.Manager

/-!
# KmushiCoin.Evo.FoldList

**The list after a block, by definition**: the fold of `BuildNewListFromBlock` over the
blocks since the activation (`foldList`), on a tree of blocks that pass their checks.

* `Storable` is what a block has to meet for the manager: its difference can be stored and
  applied, the masternode registered last in it is not removed in it again, and its list
  can be read back where it is a snapshot.
* `applyDiff_foldList`: the difference of such a block takes the list of its parent to its
  own list, the registration counter included.
-/

namespace KmushiCoin

open Codec DeterministicMNList

/-! ### The registration counter -/

namespace DeterministicMNList

variable {l l' : DeterministicMNList}

/-- The masternode that got the last internal id is still there, or none was registered. -/
def CountKept (l l' : DeterministicMNList) : Prop :=
  l'.nTotalRegisteredCount = l.nTotalRegisteredCount ∨
    ∃ d ∈ l'.members, d.internalId.toNat + 1 = l'.nTotalRegisteredCount.toNat

/-- One addition, as long as the counter does not wrap. -/
theorem bump_toNat {i : UInt64} {n : UInt32} (h : i.toNat + 1 < 2 ^ 32) :
    (max (i + 1) n.toUInt64).toUInt32.toNat = max (i.toNat + 1) n.toNat := by
  have hi : (i + 1).toNat = i.toNat + 1 := by
    rw [UInt64.toNat_add]
    simp
    omega
  have hn := n.toNat_lt
  show (if i + 1 ≤ n.toUInt64 then n.toUInt64 else i + 1 : UInt64).toUInt32.toNat = _
  split_ifs with hle <;> rw [UInt64.le_iff_toNat_le] at hle
  · rw [hi] at hle
    simp at hle ⊢
    omega
  · rw [hi] at hle
    simp at hle ⊢
    omega

variable {ds : List DeterministicMN}

theorem le_totalAfterAdds (n : UInt32) (h : ∀ d ∈ ds, d.internalId.toNat + 1 < 2 ^ 32) :
    n.toNat ≤ (totalAfterAdds n ds).toNat ∧
      ∀ d ∈ ds, d.internalId.toNat + 1 ≤ (totalAfterAdds n ds).toNat := by
  induction ds generalizing n with
  | nil => exact ⟨le_rfl, by simp⟩
  | cons d ds ih =>
    have hd := bump_toNat (n := n) (h d (by simp))
    obtain ⟨hn, hds⟩ := ih (max (d.internalId + 1) n.toUInt64).toUInt32 fun e he => h e (by simp [he])
    rw [hd] at hn
    refine ⟨le_trans (le_max_right _ _) hn, fun e he => ?_⟩
    rcases List.mem_cons.mp he with rfl | he
    · exact le_trans (le_max_left _ _) hn
    · exact hds e he

theorem totalAfterAdds_le {n : UInt32} {bound : Nat} (hbound : bound < 2 ^ 32)
    (hn : n.toNat ≤ bound) (h : ∀ d ∈ ds, d.internalId.toNat + 1 ≤ bound)
    : (totalAfterAdds n ds).toNat ≤ bound := by
  induction ds generalizing n with
  | nil => exact hn
  | cons d ds ih =>
    have hd := h d (by simp)
    refine ih ?_ fun e he => h e (by simp [he])
    rw [bump_toNat (by omega)]
    exact max_le hd hn

end DeterministicMNList

variable {env : ChainEnv}

/-! ### The fold -/

variable {b : BlockIndex}

namespace BlockIndex

/-- The number of blocks before a block. -/
def depth : BlockIndex → Nat
  | genesis _ => 0
  | child pprev _ _ => depth pprev + 1

/-- As long as the heights fit, the height of a block is the number of blocks before it. -/
theorem toInt_nHeight (h : b.depth < 2 ^ 31) : b.nHeight.toInt = b.depth := by
  induction b with
  | genesis g => rfl
  | child p g vtx ih =>
    rw [depth] at h
    have hp := ih (by omega)
    show (p.nHeight + 1).toInt = _
    rw [Int32.toInt_add, hp, depth]
    show Int.bmod ((p.depth : Int) + 1) (2 ^ 32) = _
    exact Int.bmod_eq_of_le (by omega) (by omega)

end BlockIndex

namespace Manager

variable (env) in
/-- The fold of `BuildNewListFromBlock` from the activation up to a block. -/
def foldList : BlockIndex → Outcome DeterministicMNList
  | .genesis _ => .ok {}
  | .child pprev h vtx =>
    if env.isDIP3Enforced (pprev.nHeight + 1) then do
      let oldList ← foldList pprev
      let newList ← buildNewListFromBlock env.toEnv vtx (prevIndex env pprev oldList)
      .ok (newList.setBlockHash h)
    else .ok {}

variable (env) in
/-- The list that the search may find for a block: before the activation an empty list
with the hash of the block. -/
def knownList (pindex : BlockIndex) : Outcome DeterministicMNList :=
  if env.isDIP3Enforced pindex.nHeight then foldList env pindex
  else .ok ⟨pindex.blockHash, -1, 0, ∅, ∅, ∅⟩

variable (env) in
/-- The transactions since the activation. -/
def chainTxs : BlockIndex → List Transaction
  | .genesis _ => []
  | .child pprev _ vtx =>
    if env.isDIP3Enforced (pprev.nHeight + 1) then chainTxs pprev ++ vtx else []

/-- Before the activation the fold is the empty list. -/
theorem foldList_of_not_enforced (h : env.isDIP3Enforced b.nHeight = false) :
    foldList env b = .ok {} := by
  cases b with
  | genesis _ => rfl
  | child pprev h' vtx =>
    have hn : env.isDIP3Enforced (pprev.nHeight + 1) = false := h
    simp [foldList, hn]

theorem genesis_not_enforced (h : Uint256) :
    env.isDIP3Enforced (BlockIndex.genesis h).nHeight = false := by
  rw [env.enforced_iff, decide_eq_false_iff_not]
  exact Int32.not_le.mpr env.activation_pos

/-- Once enforced, the lists stay so, as long as the heights fit. -/
theorem enforced_of_depth_le {a : BlockIndex} (hle : a.depth ≤ b.depth) (hb : b.depth < 2 ^ 31)
    (ha : env.isDIP3Enforced a.nHeight = true) : env.isDIP3Enforced b.nHeight = true := by
  rw [env.enforced_iff, decide_eq_true_eq, Int32.le_iff_toInt_le] at ha ⊢
  rw [BlockIndex.toInt_nHeight hb]
  rw [BlockIndex.toInt_nHeight (by omega)] at ha
  omega

/-- The block before the first enforced one is the one before the activation. -/
theorem isActivationHeight_of_enforced (hb : env.isDIP3Enforced b.nHeight = false)
    (hnext : env.isDIP3Enforced (b.nHeight + 1) = true) :
    env.isActivationHeight (b.nHeight + 1) = true := by
  rw [env.enforced_iff, decide_eq_false_iff_not, Int32.not_le, Int32.lt_iff_toInt_lt] at hb
  rw [env.enforced_iff, decide_eq_true_eq, Int32.le_iff_toInt_le] at hnext
  have hpos := Int32.lt_iff_toInt_lt.mp env.activation_pos
  have hbound := env.nActivationHeight.toInt_lt
  have hlow := Int32.le_toInt b.nHeight
  have hsum : (b.nHeight + 1).toInt = b.nHeight.toInt + 1 := by
    rw [Int32.toInt_add]
    show Int.bmod (b.nHeight.toInt + 1) (2 ^ 32) = _
    exact Int.bmod_eq_of_le (by omega) (by omega)
  have hz : (0 : Int32).toInt = 0 := rfl
  rw [hz] at hpos
  have heq : b.nHeight + 1 = env.nActivationHeight := Int32.toInt_inj.mp (by omega)
  rw [ChainEnv.isActivationHeight, heq]
  simp [Int32.le_iff_toInt_le, hz]
  omega

theorem not_enforced_of_isActivationHeight (h : env.isActivationHeight (b.nHeight + 1) = true)
    : env.isDIP3Enforced b.nHeight = false := by
  rw [ChainEnv.isActivationHeight, Bool.and_eq_true, decide_eq_true_eq, beq_iff_eq] at h
  obtain ⟨hnonneg, heq⟩ := h
  rw [env.enforced_iff, decide_eq_false_iff_not, ← heq, Int32.not_le, Int32.lt_iff_toInt_lt]
  have hlow := Int32.le_toInt b.nHeight
  have hhigh := b.nHeight.toInt_lt
  rw [Int32.le_iff_toInt_le, Int32.toInt_add] at hnonneg
  rw [Int32.toInt_add]
  have hone : (1 : Int32).toInt = 1 := rfl
  have hz : (0 : Int32).toInt = 0 := rfl
  rw [hone, hz, Int.bmod_def] at hnonneg
  rw [hone, Int.bmod_def]
  split_ifs at hnonneg ⊢ <;> omega

/-- What a block has to meet for the manager: the difference to the list before it can be
stored and applied, and the list can be read back where it is a snapshot. -/
structure Storable (nHeight : Int32) (l l' : DeterministicMNList) : Prop where
  changes : ChangesFit l l'
  removed : RemovedKeyed l l'
  count : CountKept l l'
  snapshot : (nHeight % diskSnapshotPeriod == 0 || l.nHeight == -1) = true →
    l'.members.length ≤ maxSize ∧ ∀ d ∈ l'.members, d.pdmnState.keyIDOperator ≠ 0

instance (nHeight : Int32) (l l' : DeterministicMNList) : Decidable (Storable nHeight l l') :=
  decidable_of_iff
    ((l.newIn l').length ≤ maxSize ∧ (l'.members.filterMap l.updateOf).length ≤ maxSize ∧
      (l'.newIn l).length ≤ maxSize ∧
      (∀ d ∈ l.members, l'.getMN d.proTxHash = none → d.pdmnState.keyIDOperator ≠ 0) ∧
      (l'.nTotalRegisteredCount = l.nTotalRegisteredCount ∨
        ∃ d ∈ l'.members, d.internalId.toNat + 1 = l'.nTotalRegisteredCount.toNat) ∧
      ((nHeight % diskSnapshotPeriod == 0 || l.nHeight == -1) = true →
        l'.members.length ≤ maxSize ∧ ∀ d ∈ l'.members, d.pdmnState.keyIDOperator ≠ 0))
    ⟨fun ⟨h₁, h₂, h₃, h₄, h₅, h₆⟩ => ⟨⟨h₁, h₂, h₃⟩, h₄, h₅, h₆⟩,
      fun ⟨⟨h₁, h₂, h₃⟩, h₄, h₅, h₆⟩ => ⟨h₁, h₂, h₃, h₄, h₅, h₆⟩⟩

variable (env) in
/-- The special transactions of a block pass against the list of its parent. -/
def Passes : BlockIndex → Prop
  | .genesis _ => True
  | .child p _ vtx => env.isDIP3Enforced (p.nHeight + 1) = true → ∀ l, foldList env p = .ok l →
    SpecialTxsPass env.toEnv vtx (prevIndex env p l)

variable (env) in
/-- A block is storable after its parent. -/
def StorableBlock : BlockIndex → Prop
  | .genesis _ => True
  | .child p h vtx => env.isDIP3Enforced (p.nHeight + 1) = true → ∀ l, foldList env p = .ok l →
    ∀ l', foldList env (.child p h vtx) = .ok l' → Storable (p.nHeight + 1) l l'

instance : (b : BlockIndex) → Decidable (Passes env b)
  | .genesis _ => isTrue trivial
  | .child p _ vtx => inferInstanceAs (Decidable (env.isDIP3Enforced (p.nHeight + 1) = true →
      ∀ l, foldList env p = .ok l → SpecialTxsPass env.toEnv vtx (prevIndex env p l)))

instance : (b : BlockIndex) → Decidable (StorableBlock env b)
  | .genesis _ => isTrue trivial
  | .child p h vtx => inferInstanceAs (Decidable (env.isDIP3Enforced (p.nHeight + 1) = true →
      ∀ l, foldList env p = .ok l → ∀ l', foldList env (.child p h vtx) = .ok l' →
      Storable (p.nHeight + 1) l l'))

/-- A tree of blocks whose special transactions pass. -/
structure BlockTree (env : ChainEnv) where
  mem : BlockIndex → Prop
  parent : ∀ {p : BlockIndex} {h : Uint256} {vtx : List Transaction}, mem (.child p h vtx) → mem p
  hash_injective : ∀ {a b : BlockIndex}, mem a → mem b → a.blockHash = b.blockHash → a = b
  passes : ∀ {b : BlockIndex}, mem b → Passes env b
  identify : ∀ {b : BlockIndex}, mem b → HashesIdentify (chainTxs env b)
  nonNull : ∀ {b : BlockIndex}, mem b → HashesNonNull (chainTxs env b)
  count : ∀ {b : BlockIndex}, mem b → regCount (chainTxs env b) < 2 ^ 32

/-- Every block of the tree is storable. -/
def BlockTree.Storable (T : BlockTree env) : Prop :=
  ∀ {b : BlockIndex}, T.mem b → StorableBlock env b

variable {p : BlockIndex} {vtx : List Transaction} {l' l : DeterministicMNList}

/-- The fold of a block with a list, from the fold of its parent. -/
theorem foldList_child {h} (henf : env.isDIP3Enforced (p.nHeight + 1) = true) :
    foldList env (.child p h vtx) = .ok l' ↔ ∃ l, foldList env p = .ok l ∧ ∃ l₁,
      buildNewListFromBlock env.toEnv vtx (prevIndex env p l) = .ok l₁ ∧
      l₁.setBlockHash h = l' := by
  simp only [foldList, henf, if_true, bind_ok, Except.ok.injEq]

variable {T : BlockTree env}

theorem foldList_chain (hb : T.mem b) (hl : foldList env b = .ok l)
    : ChainList env.toEnv (chainTxs env b) b.nHeight l := by
  induction b generalizing l with
  | genesis h =>
    cases hl
    exact .start 0 _
  | child p h vtx ih =>
    by_cases henf : env.isDIP3Enforced (p.nHeight + 1) = true
    · obtain ⟨lp, hlp, l₁, hr, rfl⟩ := (foldList_child henf).mp hl
      rw [chainTxs, if_pos henf]
      have hchain : ChainList env.toEnv (chainTxs env p) (prevIndex env p lp).nHeight
          (prevIndex env p lp).mnList := ih (T.parent hb) hlp
      exact hchain.next h (T.passes hb henf _ hlp) hr
    · rw [Bool.not_eq_true] at henf
      rw [foldList_of_not_enforced henf] at hl
      cases hl
      rw [chainTxs, henf]
      exact .start 0 _

variable (hinj : Function.Injective env.serializeHash)
include hinj

theorem foldList_registry (hb : T.mem b) (hl : foldList env b = .ok l) :
    Registry env.toEnv (chainTxs env b) (regCount (chainTxs env b)) l :=
  (foldList_chain hb hl).registry hinj (T.count hb)

theorem foldList_header (hb : T.mem b) (henf : env.isDIP3Enforced b.nHeight = true)
    (hl : foldList env b = .ok l) : l.blockHash = b.blockHash ∧ l.nHeight = b.nHeight := by
  cases b with
  | genesis h =>
    simp [genesis_not_enforced] at henf
  | child p h vtx =>
    obtain ⟨lp, hlp, l₁, hr, rfl⟩ := (foldList_child henf).mp hl
    exact ⟨rfl, build_nHeight hinj (foldList_registry hinj (T.parent hb) hlp).wf hr⟩

/-- **One difference**: applied to the list of the parent, whatever its header, it gives the
list of the block. -/
theorem applyDiff_foldList {h : Uint256} {lp lp₀ : DeterministicMNList}
    (hb : T.mem (.child p h vtx)) (henf : env.isDIP3Enforced (p.nHeight + 1) = true)
    (hlp : foldList env p = .ok lp) (hl' : foldList env (.child p h vtx) = .ok l')
    (hst : Storable (p.nHeight + 1) lp l')
    (hlp₀ : ∀ blockHash nHeight, (lp₀.setBlockHash blockHash).setHeight nHeight = (lp.setBlockHash blockHash).setHeight nHeight) :
    lp₀.applyDiff env.serializeHash h (p.nHeight + 1) (lp.buildDiff l') = .ok l' := by
  have hreg := foldList_registry hinj (T.parent hb) hlp
  have hreg' := foldList_registry hinj hb hl'
  obtain ⟨hhash, hheight⟩ := foldList_header hinj hb henf hl'
  have htxs : chainTxs env (.child p h vtx) = chainTxs env p ++ vtx := by
    rw [chainTxs, if_pos henf]
  have hident := T.identify hb
  have hcount := T.count hb
  rw [htxs] at hident hcount
  rw [regCount_append] at hcount
  obtain ⟨lp', hlp', l₁, hr, hset⟩ := (foldList_child henf).mp hl'
  obtain rfl := ok_unique hlp' hlp
  have hpass := T.passes hb henf _ hlp
  have hs : Succeeds lp' l' := by
    rw [← hset]
    exact (build_succeeds hinj hreg hpass hident (T.nonNull (T.parent hb)) hr).sub fun _ _ hd => hd
  have htotal : lp'.nTotalRegisteredCount.toNat ≤ l'.nTotalRegisteredCount.toNat := by
    have htotal := build_total hinj hreg hpass hcount hr
    rw [← hset]
    show lp'.nTotalRegisteredCount.toNat ≤ l₁.nTotalRegisteredCount.toNat
    rw [htotal]
    exact Nat.le_add_right _ _
  obtain ⟨r, hrun, hsame, hrtotal⟩ := applyDiff_run hinj hreg.wf hreg'.wf hs
    (fun d hd => hreg.owner (hreg.wf.mem_members.mp hd)) hst.removed
  have hadded : ∀ d ∈ (lp'.buildDiff l').addedMNs,
      d.internalId.toNat + 1 ≤ l'.nTotalRegisteredCount.toNat := fun d hd =>
    hreg'.ids ((mem_addedMNs hreg'.wf).mp hd).1
  have hlt := l'.nTotalRegisteredCount.toNat_lt
  -- the last id is in the list, so the counter is rebuilt, too
  have hcounter : r.nTotalRegisteredCount = l'.nTotalRegisteredCount := by
    refine UInt32.toNat_inj.mp (le_antisymm ?_ ?_) <;> rw [hrtotal]
    · exact totalAfterAdds_le hlt htotal hadded
    · obtain ⟨hle, hall⟩ := le_totalAfterAdds lp'.nTotalRegisteredCount
        fun d hd => lt_of_le_of_lt (hadded d hd) hlt
      rcases hst.count with heq | ⟨d, hd, hid⟩
      · rwa [heq]
      · rw [← hid]
        have hmem := hreg'.wf.mem_members.mp hd
        cases hold : lp'.mnMap[d.proTxHash]? with
        | none => exact hall d ((mem_addedMNs hreg'.wf).mpr ⟨hmem, hold⟩)
        | some f =>
          have hids := hreg.ids hold
          have hkept : d.internalId = f.internalId := by rw [hs.kept hold hmem]
          rw [hkept]
          omega
  have hrl : r = l' := by
    obtain ⟨⟩ := r
    obtain ⟨⟩ := l'
    obtain ⟨h₁, h₂, h₃, h₄, h₅⟩ := hsame
    simp only at h₁ h₂ h₃ h₄ h₅ hcounter
    subst h₁ h₂ h₃ h₄ h₅ hcounter
    rfl
  have hheader : lp₀.applyDiff env.serializeHash h (p.nHeight + 1) (lp'.buildDiff l') =
      lp'.applyDiff env.serializeHash h (p.nHeight + 1) (lp'.buildDiff l') := by
    have hlists := hlp₀ h (p.nHeight + 1)
    simp only [setBlockHash, setHeight] at hlists
    simp only [applyDiff, hlists]
  have hh : l'.blockHash = h := hhash
  have hn : l'.nHeight = p.nHeight + 1 := hheight
  rw [hh, hn] at hrun
  rw [hheader, hrun, hrl]

end Manager

end KmushiCoin
