import KmushiCoin.Coins.Stack
import KmushiCoin.Validation.Ledger

/-!
# KmushiCoin.Validation.ActiveChain

**The active chain and the state of its tip**, over every run of `ConnectTip` and `DisconnectTip`.

* A `Link` is a block of the active chain after the first one, with its index entry and the undo
  data that was written when it was connected. `stateOf` is the state that connecting the blocks
  of a chain one after the other comes to.
* Each call works on a cache over the view of the tip, which is flushed when the call returns.
  Between two calls caches are flushed: as long as no coin is hidden that changes nothing
  (`Coins.Stack`); nothing is assumed about the coins otherwise (`Recached`).
* **Along every run** the nullifiers, the anchors, the best anchor and the best block of the tip are
  those of `stateOf` of the active chain. With it, a nullifier appears in one shielded spend of the
  chain at most, and every shielded spend has an anchor that is the final root of an ancestor of its
  block (`shielded_spends_sound`).
-/

namespace KmushiCoin

open FMap List SaplingMerkleTree Transaction Option

variable {root : SaplingMerkleTree → Uint256} {S : Trees root}

/-! ### Chains -/

/-- A block of the active chain, with its entry and its undo data. -/
structure Link where
  block : Block
  entry : BlockEntry
  undo : BlockUndo

/-- The commitments of a chain; the last block comes first. -/
def treeOf : List Link → SaplingMerkleTree
  | [] => .empty
  | link :: links => (treeOf links).appendTxs link.block.vtx

section
variable (root) (params : ConsensusParams)

/-- The state after the first block, whose outputs are not coins. -/
def ViewState.genesis : ViewState where
  coins := ∅
  hidden := ∅
  nullifiers := ∅
  anchors := (∅ : FMap Uint256 SaplingMerkleTree).insert (root .empty) .empty
  bestAnchor := root .empty
  bestBlock := params.hashGenesisBlock

/-- **The state that a chain comes to.** -/
def stateOf : List Link → ViewState
  | [] => .genesis root params
  | link :: links => (stateOf links).connectBlock root link.entry.nHeight link.block (treeOf links)

/-- The entry of the tip, as the next block sees it. `genesisRoot` is the root in the header of the
first block. -/
def tipEntry (genesisRoot : Uint256) : List Link → PrevEntry
  | [] => ⟨params.hashGenesisBlock, 0, genesisRoot⟩
  | link :: _ => ⟨link.block.hash, link.entry.nHeight, link.block.hashFinalSaplingRoot⟩

end

/-! ### Runs -/

section
variable (S) (params : ConsensusParams) (zc : ZerocoinParams) (genesisRoot : Uint256)

/-- What the caches may do to the state between two calls. -/
structure Recached (s s' : ViewState) : Prop where
  rest : ViewState.CoinsOnly s s'
  coins : s.Plain → s' = s

/-- `ConnectTip` of a block that was accepted, on a view with the state of the tip. -/
structure ConnectTip (links : List Link) (s : ViewState) (link : Link) (s' : ViewState) : Prop where
  height : link.entry.nHeight = links.length + 1
  prev : link.entry.pprev = some (tipEntry params genesisRoot links)
  hash : link.block.hash ≠ params.hashGenesisBlock ∧ link.block.hash ≠ 0
  accepted : ∃ ctx, contextualCheckBlock params zc ctx link.entry.nHeight link.block = .ok ()
  tree : S.mem (treeOf (link :: links))
  connected : ∃ ctx v v', v.toView.Wf S ∧ v.toView.state root = s ∧
    connectBlock root params ctx false link.block link.entry v = .ok (some link.undo, v') ∧
    v'.toView.state root = s'

/-- `DisconnectTip` of the last block. -/
def DisconnectTip (s : ViewState) (link : Link) (s' : ViewState) : Prop :=
  ∃ ctx v v', v.toView.Wf S ∧ v.toView.state root = s ∧
    disconnectBlock root params ctx link.block link.entry link.undo v = .ok (true, v') ∧
    v'.toView.state root = s'

/-- **The active chain and the state of the tip**, in a run that connects permitted blocks only. -/
inductive ActiveChain (permitted : Block → Prop) : List Link → ViewState → Prop
  | start : ActiveChain permitted [] (.genesis root params)
  | recache {links : List Link} {s s' : ViewState} (h : ActiveChain permitted links s)
    (hstep : Recached s s') : ActiveChain permitted links s'
  | connect {links : List Link} {link : Link} {s s' : ViewState} (h : ActiveChain permitted links s)
    (hblock : permitted link.block) (hstep : ConnectTip S params zc genesisRoot links s link s') :
    ActiveChain permitted (link :: links) s'
  | disconnect {links : List Link} {link : Link} {s s' : ViewState}
    (h : ActiveChain permitted (link :: links) s) (hstep : DisconnectTip S params s link s') :
    ActiveChain permitted links s'

end

/-! ### Trees -/

theorem SaplingMerkleTree.commitments_appendTxs (t : SaplingMerkleTree) (txs : List Transaction) :
    (t.appendTxs txs).commitments =
      t.commitments ++ txs.flatMap fun tx => tx.shieldedOutputs.map (·.cmu) := by
  have hfold : ∀ (cmus : List Uint256) (t : SaplingMerkleTree),
      (cmus.foldl append t).commitments = t.commitments ++ cmus := by
    intro cmus
    induction cmus with
    | nil => simp
    | cons cmu cmus ih => simp [ih, append]
  induction txs generalizing t with
  | nil => simp [appendTxs]
  | cons tx txs ih => rw [appendTxs, ih, hfold, flatMap_cons, append_assoc]

variable {txs : List Transaction} {s s' : ViewState} {params : ConsensusParams}

/-- A tree grows, or stays as it is. -/
theorem SaplingMerkleTree.length_lt_appendTxs {t : SaplingMerkleTree} (hne : t.appendTxs txs ≠ t)
    : t.commitments.length < (t.appendTxs txs).commitments.length := by
  have happend := t.commitments_appendTxs txs
  rw [happend, length_append]
  by_contra hlt
  have hnil : (txs.flatMap fun tx => tx.shieldedOutputs.map (·.cmu)) = [] :=
    length_eq_zero_iff.mp (by omega)
  rw [hnil, append_nil] at happend
  exact hne (congrArg mk happend)

theorem length_treeOf_le {links' links} (h : links' <:+ links) :
    (treeOf links').commitments.length ≤ (treeOf links).commitments.length := by
  induction links with
  | nil => rw [suffix_nil.mp h]
  | cons link links ih =>
    rcases suffix_cons_iff.mp h with rfl | h
    · exact le_rfl
    · refine (ih h).trans ?_
      rw [treeOf, commitments_appendTxs, length_append]
      omega

/-! ### Nullifiers -/

namespace ViewState

theorem get_nullifiers_applyTxs (s : ViewState) (nHeight : Nat) (txs : List Transaction) (nf : Uint256) :
    (s.applyTxs nHeight txs).nullifiers[nf]? =
      if nf ∈ txs.flatMap Transaction.nullifiers then some () else s.nullifiers[nf]? := by
  induction txs generalizing s with
  | nil => rfl
  | cons tx txs ih =>
    rw [applyTxs, ih, Ledger.get_nullifiers_updateCoins, flatMap_cons]
    by_cases hrest : nf ∈ txs.flatMap Transaction.nullifiers
    · rw [if_pos hrest, if_pos (mem_append_right _ hrest)]
    · rw [if_neg hrest]
      refine if_congr ?_ rfl rfl
      rw [mem_append, or_iff_left hrest]

/-- What a block does to nullifiers and anchors does not depend on coins. -/
theorem CoinsOnly.connectBlock (h : CoinsOnly s s') (nHeight : Nat) (b : Block)
    (tree : SaplingMerkleTree) :
    CoinsOnly (s.connectBlock root nHeight b tree) (s'.connectBlock root nHeight b tree) := by
  obtain ⟨h₁, h₂, -⟩ := applyTxs_frame s nHeight b.vtx
  obtain ⟨k₁, k₂, -⟩ := applyTxs_frame s' nHeight b.vtx
  have ha : (s'.applyTxs nHeight b.vtx).anchors = (s.applyTxs nHeight b.vtx).anchors := by
    rw [k₁, h₁, h.anchors]
  have hbest : (s'.applyTxs nHeight b.vtx).bestAnchor = (s.applyTxs nHeight b.vtx).bestAnchor := by
    rw [k₂, h₂, h.bestAnchor]
  have hnull : (s'.applyTxs nHeight b.vtx).nullifiers = (s.applyTxs nHeight b.vtx).nullifiers :=
    ext fun nf => by rw [get_nullifiers_applyTxs, get_nullifiers_applyTxs, h.nullifiers]
  unfold ViewState.connectBlock pushAnchor
  rw [hbest]
  split_ifs
  · refine ⟨hnull, ?_, rfl, rfl⟩
    simp only [setBestBlock, setBestAnchor, setAnchorTo, ha]
  · exact ⟨hnull, ha, hbest, rfl⟩

/-- The nullifiers of transactions that connect are different and new. -/
theorem TxsConnect.nullifiers_new {nHeight : Nat} (htxs : ∀ tx ∈ txs, TxChecked params tx)
    (h : s.TxsConnect params nHeight txs) : (txs.flatMap Transaction.nullifiers).Nodup ∧
      ∀ nf ∈ txs.flatMap Transaction.nullifiers, s.nullifiers[nf]? = none := by
  induction txs generalizing s with
  | nil => simp
  | cons tx txs ih =>
    rw [forall_mem_cons] at htxs
    obtain ⟨hnodup, hnone⟩ := ih htxs.2 h.2
    -- a later nullifier is neither marked before the transaction nor one of its own
    have hlater : ∀ nf ∈ txs.flatMap Transaction.nullifiers,
        nf ∉ tx.nullifiers ∧ s.nullifiers[nf]? = none := by
      intro nf hnf
      have := hnone nf hnf
      rw [Ledger.get_nullifiers_updateCoins] at this
      split_ifs at this with hmem
      exact ⟨hmem, this⟩
    rw [flatMap_cons]
    refine ⟨nodup_append.mpr ⟨htxs.1.nodup, hnodup, fun a ha b hb heq => ?_⟩, fun nf hnf => ?_⟩
    · exact (hlater b hb).1 (heq ▸ ha)
    · rcases mem_append.mp hnf with hnf | hnf
      · exact h.1.nullifiers nf hnf
      · exact (hlater nf hnf).2

/-- The anchors of the spends were there before the block. -/
theorem TxsConnect.anchors_known {nHeight : Nat} (h : s.TxsConnect params nHeight txs) :
    ∀ tx ∈ txs, ∀ d ∈ tx.shieldedSpends, s.anchors[d.anchor]? ≠ none := by
  induction txs generalizing s with
  | nil => simp
  | cons tx txs ih =>
    refine forall_mem_cons.mpr ⟨fun d hd => (h.1.spends d hd).2, ?_⟩
    have hrest := ih h.2
    rwa [(updateCoins_frame s nHeight tx).1] at hrest

end ViewState

open ViewState

/-! ### What is known of the blocks of a chain -/

section
variable (S) (params : ConsensusParams) (genesisRoot : Uint256)

/-- The shielded part of a block on a chain. -/
structure Reveals (links : List Link) (link : Link) : Prop where
  checked : ∀ tx ∈ link.block.vtx, TxChecked params tx
  nodup : (link.block.vtx.flatMap Transaction.nullifiers).Nodup
  unspent : ∀ nf ∈ link.block.vtx.flatMap Transaction.nullifiers,
    (stateOf root params links).nullifiers[nf]? = none
  anchors : ∀ tx ∈ link.block.vtx, ∀ d ∈ tx.shieldedSpends,
    (stateOf root params links).anchors[d.anchor]? ≠ none
  tree : S.mem (treeOf (link :: links))
  finalRoot : (tipEntry params genesisRoot (link :: links)).finalSaplingRoot root params =
    root (treeOf (link :: links))
  prev : link.entry.pprev = some (tipEntry params genesisRoot links)
  height : link.entry.nHeight = links.length + 1
  hash : link.block.hash ≠ 0

def Linked : List Link → Prop
  | [] => True
  | link :: links => Reveals S params genesisRoot links link ∧ Linked links

end

section
variable {params : ConsensusParams} {zc : ZerocoinParams} {genesisRoot : Uint256} {links : List Link}

theorem Linked.tree_mem (h : Linked S params genesisRoot links) : S.mem (treeOf links) := by
  cases links with
  | nil => exact S.empty
  | cons link links => exact h.1.tree

theorem Linked.of_suffix {links'} (h : Linked S params genesisRoot links)
    (hsuffix : links' <:+ links) : Linked S params genesisRoot links' := by
  induction links with
  | nil =>
    rw [suffix_nil.mp hsuffix]
    trivial
  | cons link links ih =>
    rcases suffix_cons_iff.mp hsuffix with rfl | hsuffix
    · exact h
    · exact ih h.2 hsuffix

theorem bestAnchor_stateOf (links : List Link) :
    (stateOf root params links).bestAnchor = root (treeOf links) := by
  cases links with
  | nil => rfl
  | cons link links => exact bestAnchor_pushAnchor _ _

theorem get_nullifiers_stateOf (link : Link) (links : List Link) (nf : Uint256) :
    (stateOf root params (link :: links)).nullifiers[nf]? =
      if nf ∈ link.block.vtx.flatMap Transaction.nullifiers then some ()
      else (stateOf root params links).nullifiers[nf]? := by
  rw [← get_nullifiers_applyTxs _ link.entry.nHeight]
  show (pushAnchor root _ _).nullifiers[nf]? = _
  unfold pushAnchor
  split_ifs <;> rfl

/-- A block adds its tree as an anchor, if that grew. -/
theorem get_anchors_cons (link : Link) (links : List Link) (rt : Uint256) :
    (stateOf root params (link :: links)).anchors[rt]? =
      if root (treeOf links) ≠ root (treeOf (link :: links)) ∧ root (treeOf (link :: links)) = rt then
        some (treeOf (link :: links)) else (stateOf root params links).anchors[rt]? := by
  obtain ⟨ha, hbest, -⟩ := (stateOf root params links).applyTxs_frame link.entry.nHeight link.block.vtx
  rw [bestAnchor_stateOf] at hbest
  show (pushAnchor root _ (treeOf (link :: links))).anchors[rt]? = _
  rw [pushAnchor, hbest]
  by_cases hne : root (treeOf links) ≠ root (treeOf (link :: links))
  · rw [if_pos hne, ← ha]
    refine (get_alter _ _ _ _).trans (if_congr ?_ rfl rfl)
    rw [and_iff_right hne]
  · rw [if_neg hne, if_neg fun h => hne h.1, ha]

/-- **The anchors of a chain** are the trees of its ancestors. -/
theorem get_anchors_stateOf (h : Linked S params genesisRoot links) (rt : Uint256)
    (tree : SaplingMerkleTree) : (stateOf root params links).anchors[rt]? = some tree ↔
      ∃ links', links' <:+ links ∧ treeOf links' = tree ∧ root tree = rt := by
  induction links generalizing rt tree with
  | nil =>
    have hempty : (stateOf root params []).anchors[rt]? =
        if root .empty = rt then some .empty else none :=
      (get_insert _ _ _ _).trans (by rw [get_empty])
    rw [hempty]
    constructor
    · intro hget
      split_ifs at hget with heq
      cases hget
      exact ⟨[], suffix_rfl, rfl, heq⟩
    · intro ⟨links', hsuffix, htree, hroot⟩
      rw [suffix_nil.mp hsuffix] at htree
      subst htree
      exact if_pos hroot
  | cons link links ih =>
    have hsplit : (∃ links', links' <:+ link :: links ∧ treeOf links' = tree ∧ root tree = rt) ↔
        (treeOf (link :: links) = tree ∧ root tree = rt) ∨
          (stateOf root params links).anchors[rt]? = some tree := by
      simp only [suffix_cons_iff, or_and_right, exists_or, exists_eq_left, ih h.2]
    rw [hsplit, get_anchors_cons]
    split_ifs with hgrown
    · constructor
      · intro heq
        cases heq
        exact .inl ⟨rfl, hgrown.2⟩
      · intro hcases
        rcases hcases with ⟨rfl, -⟩ | hold
        · rfl
        · -- an older tree with this root is the new one
          obtain ⟨links', hsuffix, rfl, hroot⟩ := (ih h.2 rt tree).mp hold
          have hmem := (h.2.of_suffix hsuffix).tree_mem
          rw [S.injective hmem h.1.tree (hroot.trans hgrown.2.symm)]
    · rw [or_iff_right_of_imp]
      intro ⟨htree, hroot⟩
      subst htree
      -- the tree is the one before: the block has no shielded outputs
      have hroots : root (treeOf links) = root (treeOf (link :: links)) :=
        not_not.mp fun hne => hgrown ⟨hne, hroot⟩
      exact (ih h.2 rt _).mpr ⟨links, suffix_rfl, S.injective h.2.tree_mem h.1.tree hroots, hroot⟩

variable {link : Link} {permitted : Block → Prop}

/-- A tree that grew is a new anchor. -/
theorem Linked.anchor_new (h : Linked S params genesisRoot (link :: links))
    (hne : root (treeOf links) ≠ root (treeOf (link :: links))) :
    (stateOf root params links).anchors[root (treeOf (link :: links))]? = none := by
  rw [eq_none_iff_forall_ne_some]
  intro tree hget
  obtain ⟨links', hsuffix, rfl, hroot⟩ := (get_anchors_stateOf h.2 _ _).mp hget
  have heq := S.injective (h.2.of_suffix hsuffix).tree_mem h.1.tree hroot
  have hle := length_treeOf_le hsuffix
  have hlt : (treeOf links).commitments.length < (treeOf (link :: links)).commitments.length :=
    length_lt_appendTxs fun hsame => hne (congrArg root hsame.symm)
  rw [heq] at hle
  omega

/-- Removing the anchor of the last block leaves those of the blocks before. -/
theorem Linked.anchors_popAnchor (h : Linked S params genesisRoot (link :: links)) {t : ViewState}
    (ha : t.anchors = (stateOf root params (link :: links)).anchors)
    (hbest : t.bestAnchor = root (treeOf (link :: links))) :
    (t.popAnchor (root (treeOf links))).anchors = (stateOf root params links).anchors := by
  refine ext fun rt => ?_
  have hcons : (stateOf root params (link :: links)).anchors[rt]? = _ := get_anchors_cons link links rt
  rw [popAnchor, hbest]
  by_cases hne : root (treeOf (link :: links)) ≠ root (treeOf links)
  · rw [if_pos hne]
    refine (get_alter _ _ _ _).trans ?_
    split_ifs with hrt
    · rw [← hrt, h.anchor_new hne.symm]
    · rw [ha, hcons, if_neg fun h => hrt h.2]
  · rw [if_neg hne, ha, hcons, if_neg fun h => hne h.1.symm]

/-! ### Steps -/

/-- The tree at the best anchor is the tree of the chain. -/
theorem Linked.tree_eq (hl : Linked S params genesisRoot links)
    (hs : CoinsOnly (stateOf root params links) s) {tree}
    (hget : s.anchors[s.bestAnchor]? = some tree) : tree = treeOf links := by
  rw [hs.anchors, hs.bestAnchor] at hget
  obtain ⟨links', hsuffix, rfl, hroot⟩ := (get_anchors_stateOf hl _ _).mp hget
  rw [bestAnchor_stateOf] at hroot
  exact S.injective (hl.of_suffix hsuffix).tree_mem hl.tree_mem hroot

theorem ConnectTip.inv (hl : Linked S params genesisRoot links)
    (hs : CoinsOnly (stateOf root params links) s)
    (h : ConnectTip S params zc genesisRoot links s link s') :
    Connects S params s link.block link.entry (treeOf links) ∧
      s' = s.connectBlock root link.entry.nHeight link.block (treeOf links) ∧
      link.undo = (s.blockUndo link.entry.nHeight link.block.vtx).tail := by
  obtain ⟨ctx, v, v', hv, rfl, hok, rfl⟩ := h.connected
  have htrees : ∀ tree, (v.toView.state root).anchors[(v.toView.state root).bestAnchor]? = some tree →
      S.mem (tree.appendTxs link.block.vtx) := by
    intro tree hget
    rw [hl.tree_eq hs hget]
    exact h.tree
  obtain ⟨tree, hconn, hb, hundo⟩ := connectBlock_ok hv h.hash.1 h.hash.2 htrees hok
  obtain rfl := hl.tree_eq hs hconn.anchor
  exact ⟨hconn, hb.toView_state, some.inj hundo⟩

variable (hgenesis : networkUpgradeActive 0 params.upgradeV5_0 = true → genesisRoot = root .empty)
include hgenesis

theorem Linked.finalRoot (h : Linked S params genesisRoot links) :
    (tipEntry params genesisRoot links).finalSaplingRoot root params = root (treeOf links) := by
  cases links with
  | cons link links => exact h.1.finalRoot
  | nil =>
    unfold PrevEntry.finalSaplingRoot
    split_ifs with hactive
    · exact hgenesis hactive
    · rfl

/-- A block before Sapling leaves the empty tree, and one after it has the root in its header. -/
theorem ConnectTip.finalRoot (hl : Linked S params genesisRoot links)
    (h : ConnectTip S params zc genesisRoot links s link s')
    (hroot : networkUpgradeActive link.entry.nHeight params.upgradeV5_0 = true → link.block.hashFinalSaplingRoot = root (treeOf (link :: links))) :
    (tipEntry params genesisRoot (link :: links)).finalSaplingRoot root params =
      root (treeOf (link :: links)) := by
  unfold PrevEntry.finalSaplingRoot
  split_ifs with hactive
  · exact hroot hactive
  · rw [Bool.not_eq_true] at hactive
    -- the block before is not in the Sapling period either
    have hbefore : networkUpgradeActive (tipEntry params genesisRoot links).nHeight params.upgradeV5_0 =
        false := by
      rw [← Bool.not_eq_true]
      intro htrue
      refine absurd (networkUpgradeActive_mono ?_ htrue) (by rw [hactive]; exact Bool.false_ne_true)
      have hheight : (tipEntry params genesisRoot links).nHeight = links.length := by
        cases links with
        | nil => rfl
        | cons link links => exact hl.1.height
      show ((tipEntry params genesisRoot links).nHeight : Int) ≤ link.entry.nHeight
      rw [hheight, h.height]
      omega
    have hempty : treeOf links = .empty := by
      refine S.injective hl.tree_mem S.empty ?_
      rw [← hl.finalRoot hgenesis, PrevEntry.finalSaplingRoot, hbefore, if_neg Bool.false_ne_true]
    obtain ⟨ctx, hcheck⟩ := h.accepted
    have hnone : (link.block.vtx.flatMap fun tx => tx.shieldedOutputs.map (·.cmu)) = [] := by
      rw [flatMap_eq_nil_iff]
      intro tx htx
      have hshielded := contextualCheckTransaction_shielded
        ((contextualCheckBlock_inv hcheck).1 tx htx) hactive
      unfold shieldedOutputs
      split
      · rfl
      · rw [hshielded]
        rfl
    have hcommitments := commitments_appendTxs (treeOf links) link.block.vtx
    rw [hnone, append_nil] at hcommitments
    have hsame : treeOf (link :: links) = treeOf links := congrArg SaplingMerkleTree.mk hcommitments
    rw [hsame, hempty]

/-- **Connecting a block** adds it to the chain. -/
theorem ConnectTip.linked (hl : Linked S params genesisRoot links)
    (hs : CoinsOnly (stateOf root params links) s)
    (h : ConnectTip S params zc genesisRoot links s link s') :
    Linked S params genesisRoot (link :: links) ∧
      CoinsOnly (stateOf root params (link :: links)) s' := by
  obtain ⟨hconn, rfl, -⟩ := h.inv hl hs
  obtain ⟨hnodup, hnew⟩ := hconn.txs.nullifiers_new hconn.block.txs
  have hknown := hconn.txs.anchors_known
  rw [hs.nullifiers] at hnew
  rw [hs.anchors] at hknown
  exact ⟨⟨⟨hconn.block.txs, hnodup, hnew, hknown, h.tree,
    h.finalRoot hgenesis hl hconn.finalRoot, h.prev, h.height, h.hash.2⟩, hl⟩, hs.connectBlock _ _ _⟩

/-- **Disconnecting the last block** takes it from the chain. -/
theorem DisconnectTip.linked (hzero : params.hashGenesisBlock ≠ 0)
    (hl : Linked S params genesisRoot (link :: links))
    (hs : CoinsOnly (stateOf root params (link :: links)) s)
    (h : DisconnectTip S params s link s') :
    CoinsOnly (stateOf root params links) s' := by
  obtain ⟨ctx, v, v', hv, rfl, hok, rfl⟩ := h
  have hroot : (tipEntry params genesisRoot links).finalSaplingRoot root params ≠ 0 := by
    rw [hl.2.finalRoot hgenesis]
    exact S.ne_null hl.2.tree_mem
  have hhash : (tipEntry params genesisRoot links).hash ≠ 0 := by
    cases links with
    | nil => exact hzero
    | cons link links => exact hl.2.1.hash
  obtain ⟨-, t, hb, hnull, ha, hbest⟩ :=
    disconnectBlock_inv (.refl hv) hl.1.prev hhash hroot
      (fun tx htx => (hl.1.checked tx htx).nullifiers_eq_nil) hok
  rw [hl.2.finalRoot hgenesis] at hb
  rw [hb.toView_state]
  rw [hs.bestAnchor, bestAnchor_stateOf] at hbest
  rw [hs.anchors] at ha
  refine ⟨ext fun nf => ?_, ?_, ?_, by cases links <;> rfl⟩
  · -- a nullifier of the block was not marked before
    show (t.popAnchor _).nullifiers[nf]? = _
    rw [(popAnchor_coins t _).2, hnull, hs.nullifiers, get_nullifiers_stateOf]
    split_ifs with hmem
    · exact (hl.1.unspent nf hmem).symm
    · rfl
  · exact hl.anchors_popAnchor ha hbest
  · exact (bestAnchor_popAnchor t _).trans (bestAnchor_stateOf links).symm

/-- **Every run** keeps the shielded part of the tip together with the active chain. -/
theorem ActiveChain.linked (hzero : params.hashGenesisBlock ≠ 0)
    (h : ActiveChain S params zc genesisRoot permitted links s) :
    Linked S params genesisRoot links ∧ CoinsOnly (stateOf root params links) s := by
  induction h with
  | start => exact ⟨trivial, rfl, rfl, rfl, rfl⟩
  | recache _ hstep ih => exact ⟨ih.1, ih.2.trans hstep.rest⟩
  | connect _ _ hstep ih => exact hstep.linked hgenesis ih.1 ih.2
  | disconnect _ hstep ih => exact ⟨ih.1.2, hstep.linked hgenesis hzero ih.1 ih.2⟩

omit hgenesis in
/-- No nullifier is revealed twice, and the marked ones are those that are revealed. -/
theorem Linked.nullifiers_nodup (h : Linked S params genesisRoot links) :
    (links.flatMap fun link => link.block.vtx.flatMap nullifiers).Nodup ∧
      ∀ nf, (stateOf root params links).nullifiers[nf]? = some () ↔
        ∃ link ∈ links, nf ∈ link.block.vtx.flatMap nullifiers := by
  induction links with
  | nil => simp [stateOf, genesis]
  | cons link links ih =>
    obtain ⟨hnodup, hmarked⟩ := ih h.2
    rw [flatMap_cons, nodup_append]
    refine ⟨⟨h.1.nodup, hnodup, fun nf hnf nf' hnf' heq => ?_⟩, fun nf => ?_⟩
    · -- a nullifier of an older block is marked before this one
      have hnone := h.1.unspent nf hnf
      simp [heq, (hmarked nf').mpr (mem_flatMap.mp hnf')] at hnone
    · rw [get_nullifiers_stateOf, exists_mem_cons_iff, ← hmarked]
      split_ifs with hnf <;> simp [hnf]

/-- A run goes on with a block that connects to a view of its tip. -/
theorem ActiveChain.connectBlock {v v'} {b} {entry}
    {undo} {ctx} (hzero : params.hashGenesisBlock ≠ 0)
    (hv : v.toView.Wf S)
    (h : ActiveChain S params zc genesisRoot permitted links (v.toView.state root))
    (hblock : permitted b) (hheight : entry.nHeight = links.length + 1)
    (hprev : entry.pprev = some (tipEntry params genesisRoot links))
    (hhash : b.hash ≠ params.hashGenesisBlock ∧ b.hash ≠ 0)
    (haccepted : ∃ ctx, contextualCheckBlock params zc ctx entry.nHeight b = .ok ())
    (htree : S.mem ((treeOf links).appendTxs b.vtx))
    (hok : KmushiCoin.connectBlock root params ctx false b entry v = .ok (some undo, v')) :
    v'.toView.Wf S ∧
      ActiveChain S params zc genesisRoot permitted (⟨b, entry, undo⟩ :: links) (v'.toView.state root) := by
  obtain ⟨hl, hs⟩ := h.linked hgenesis hzero
  have htrees : ∀ tree, (v.toView.state root).anchors[(v.toView.state root).bestAnchor]? = some tree →
      S.mem (tree.appendTxs b.vtx) := by
    intro tree hget
    rwa [hl.tree_eq hs hget]
  obtain ⟨_, -, hb, -⟩ := connectBlock_ok hv hhash.1 hhash.2 htrees hok
  exact ⟨hb.toView_wf,
    h.connect hblock ⟨hheight, hprev, hhash, haccepted, htree, ctx, v, v', hv, rfl, hok, rfl⟩⟩

omit hgenesis in
/-- The next call works on a new cache over the view. -/
theorem ActiveChain.child {v : CoinsViewCache} (hv : v.toView.Wf S)
    (h : ActiveChain S params zc genesisRoot permitted links (v.toView.state root)) :
    (CoinsViewCache.ofBase v.toView).toView.Wf S ∧ ActiveChain S params zc genesisRoot permitted links
      ((CoinsViewCache.ofBase v.toView).toView.state root) := by
  have hclear : (CoinsViewCache.ofBase v.toView).toView.state root =
      { v.toView.state root with hidden := ∅ } := CoinsCache.state_clear 0 0 _
  rw [hclear]
  refine ⟨⟨.clear 0 0 _, hv⟩, h.recache ⟨⟨rfl, rfl, rfl, rfl⟩, fun hplain => ?_⟩⟩
  refine ext' rfl ?_ rfl rfl rfl rfl
  exact ext fun o => (get_empty o).trans (hplain o).symm

/-- **Shielded spends of the active chain.** In every run, a nullifier is in one shielded spend of
the active chain at most, and the anchor of a spend is the root after one of the chains before its
block. -/
theorem shielded_spends_sound {s : ViewState} (hzero : params.hashGenesisBlock ≠ 0)
    (h : ActiveChain S params zc genesisRoot (fun _ => True) links s) :
    (links.flatMap fun link => link.block.vtx.flatMap nullifiers).Nodup ∧
      ∀ link links', link :: links' <:+ links → ∀ tx ∈ link.block.vtx, ∀ sap, tx.sapData = some sap →
        ∀ d ∈ sap.vShieldedSpend, ∃ ancestors, ancestors <:+ links' ∧ d.anchor = root (treeOf ancestors) := by
  obtain ⟨hl, -⟩ := h.linked hgenesis hzero
  refine ⟨hl.nullifiers_nodup.1, fun link links' hsuffix tx htx sap hsap d hd => ?_⟩
  have hblock := hl.of_suffix hsuffix
  have hspend := (hblock.1.checked tx htx).mem_shieldedSpends hsap hd
  obtain ⟨tree, htree⟩ := Option.ne_none_iff_exists'.mp (hblock.1.anchors tx htx d hspend)
  obtain ⟨ancestors, hancestors, rfl, hroot⟩ := (get_anchors_stateOf hblock.2 _ _).mp htree
  exact ⟨ancestors, hancestors, hroot.symm⟩

/-- **The shielded state of the tip.** Whatever was connected and disconnected before, the marked
nullifiers are those of the active chain, the anchors are the trees after each of its ancestors, and
the best anchor and the best block are those of its last block. -/
theorem shielded_state_exact {s : ViewState} (hzero : params.hashGenesisBlock ≠ 0)
    (h : ActiveChain S params zc genesisRoot permitted links s) :
    (∀ nf : Uint256, s.nullifiers[nf]? = some () ↔
      ∃ link ∈ links, nf ∈ link.block.vtx.flatMap nullifiers) ∧
    (∀ (rt : Uint256) tree, s.anchors[rt]? = some tree ↔
      ∃ ancestors, ancestors <:+ links ∧ treeOf ancestors = tree ∧ root tree = rt) ∧
    s.bestAnchor = root (treeOf links) ∧ s.bestBlock = (tipEntry params genesisRoot links).hash := by
  obtain ⟨hl, hs⟩ := h.linked hgenesis hzero
  rw [hs.nullifiers, hs.anchors, hs.bestAnchor, hs.bestBlock]
  refine ⟨hl.nullifiers_nodup.2, get_anchors_stateOf hl, bestAnchor_stateOf links, ?_⟩
  cases links <;> rfl

end

/-! ### A note that is created and spent -/

namespace Sample

/-- A network where Sapling is active from the first block on. -/
def saplingParams : ConsensusParams := { chainParams with upgradeV5_0 := 1 }

/-- Zerocoins are never allowed. -/
def noZerocoins : ZerocoinParams := ⟨99999999, 99999999, 7, 7⟩

def contextualContext : ContextualContext := ⟨fun _ => true, fun _ => true, fun _ => true⟩

/-- The tree without a note and the one with the note `7`. -/
def noteTrees : Trees sizeRoot where
  mem t := t = .empty ∨ t = ⟨[7]⟩
  empty := .inl rfl
  injective := by
    intro t t' ht ht' heq
    rcases ht with rfl | rfl
    all_goals rcases ht' with rfl | rfl
    all_goals first | rfl | exact absurd heq (by decide)
  ne_null := by
    intro t ht
    rcases ht with rfl | rfl
    all_goals decide

def coinbaseFor (nHeight : Nat) : Transaction :=
  { coinbaseAt 0 with
    hash := Fin.ofNat _ (1000 + nHeight)
    vin := [⟨OutPoint.null, Script.pushInt nHeight ++ [0]⟩] }

/-- Creates a note from the output of `inputless`. -/
def shieldTx : Transaction where
  hash := 8
  nVersion := 3
  nType := .normal
  vin := [⟨⟨5, 0⟩, []⟩]
  vout := []
  vout_lt := no_vout_lt
  sapData := some ⟨0, [], [⟨7⟩], true⟩
  extraPayload := none

/-- Spends the note, with the root after the first block as its anchor. -/
def spendTx : Transaction := { inputless with hash := 9, sapData := some ⟨0, [⟨2, 11⟩], [], true⟩ }

/-- The view after the first block of the network. -/
def genesisView : CoinsViewCache := .ofBase (.db { bestBlock := some chainParams.hashGenesisBlock })

def shieldBlock : Block := ⟨201, [coinbaseFor 1, inputless, shieldTx], 2⟩

def unshieldBlock : Block := ⟨202, [coinbaseFor 2, spendTx], 2⟩

def firstEntry : BlockEntry := ⟨1, by decide, none, some ⟨chainParams.hashGenesisBlock, 0, 0⟩⟩

/-- The entry of a block at height 2, on a block with this hash and root. -/
def secondEntry (hash hashFinalSaplingRoot : Uint256) : BlockEntry :=
  ⟨2, by decide, none, some ⟨hash, 1, hashFinalSaplingRoot⟩⟩

/-- Connect two blocks, the second one with a cache of its own: whether undo data was written for
each. -/
def connectTwo (params : ConsensusParams) (b b' : Block) : Outcome (Bool × Bool) := do
  let (undo, v) ← connectBlock sizeRoot params connectContext false b firstEntry genesisView
  let r ← connectBlock sizeRoot params connectContext false b'
    (secondEntry b.hash b.hashFinalSaplingRoot) (.ofBase v.toView)
  .ok (undo.isSome, r.1.isSome)

theorem genesisView_wf {S : Trees sizeRoot} : genesisView.toView.Wf S :=
  ⟨⟨All.empty, All.empty, All.empty⟩, All.empty, All.empty⟩

theorem genesisView_state (hhash : params.hashGenesisBlock = chainParams.hashGenesisBlock) :
    genesisView.toView.state sizeRoot = .genesis sizeRoot params := by
  refine (CoinsCache.state_clear 0 0 _).trans ?_
  refine ext' rfl rfl rfl rfl rfl ?_
  exact hhash.symm

/-- Two blocks that are accepted and that `connectTwo` connects are a chain. -/
theorem connectTwo_chain (S : Trees sizeRoot) (permitted : Block → Prop) (b b' : Block)
    (hgenesis : networkUpgradeActive 0 params.upgradeV5_0 = true → (0 : Uint256) = sizeRoot .empty)
    (hhash : params.hashGenesisBlock = chainParams.hashGenesisBlock)
    (hblocks : permitted b ∧ permitted b')
    (hhashes : (b.hash ≠ chainParams.hashGenesisBlock ∧ b.hash ≠ 0) ∧
      b'.hash ≠ chainParams.hashGenesisBlock ∧ b'.hash ≠ 0)
    (haccepted : contextualCheckBlock params noZerocoins contextualContext 1 b = .ok ())
    (haccepted' : contextualCheckBlock params noZerocoins contextualContext 2 b' = .ok ())
    (htrees : S.mem (empty.appendTxs b.vtx) ∧ S.mem ((empty.appendTxs b.vtx).appendTxs b'.vtx))
    (hrun : connectTwo params b b' = .ok (true, true)) :
    ∃ undo undo' s, ActiveChain S params noZerocoins 0 permitted
      [⟨b', secondEntry b.hash b.hashFinalSaplingRoot, undo'⟩, ⟨b, firstEntry, undo⟩] s := by
  obtain ⟨⟨undo, v⟩, hconn, h⟩ := bind_ok.mp hrun
  obtain ⟨⟨undo', v'⟩, hconn', h⟩ := bind_ok.mp h
  obtain ⟨hsome, hsome'⟩ := ok_pair h
  obtain ⟨undo, rfl⟩ := isSome_iff_exists.mp hsome
  obtain ⟨undo', rfl⟩ := isSome_iff_exists.mp hsome'
  rw [← hhash] at hhashes
  have hzero : params.hashGenesisBlock ≠ 0 := by
    rw [hhash]
    decide
  have hstart : ActiveChain S params noZerocoins 0 permitted [] (genesisView.toView.state sizeRoot) := by
    rw [genesisView_state hhash]
    exact .start
  obtain ⟨hv, h₁⟩ := hstart.connectBlock hgenesis hzero genesisView_wf hblocks.1 rfl
    (by rw [tipEntry, hhash]; rfl) hhashes.1 ⟨_, by exact haccepted⟩ htrees.1 hconn
  obtain ⟨hv, h₁⟩ := h₁.child hv
  exact ⟨_, _, _, (h₁.connectBlock hgenesis hzero hv hblocks.2 rfl rfl hhashes.2
    ⟨_, by exact haccepted'⟩ htrees.2 hconn').2⟩

end Sample

open Sample in
/-- A chain with a note that is created in one block and spent in the next one. -/
theorem note_chain_sound :
    ∃ links s, ActiveChain noteTrees saplingParams noZerocoins 0 (fun _ => True) links s ∧
      links.map (·.block) = [unshieldBlock, shieldBlock] ∧
      (links.flatMap fun link => link.block.vtx.flatMap nullifiers).Nodup := by
  have hgenesis : networkUpgradeActive 0 saplingParams.upgradeV5_0 = true → (0 : Uint256) = sizeRoot .empty :=
    fun hactive => absurd hactive (by decide)
  obtain ⟨_, _, _, h⟩ := connectTwo_chain noteTrees (fun _ => True) shieldBlock unshieldBlock hgenesis rfl
    ⟨trivial, trivial⟩ (by decide) (by decide +kernel) (by decide +kernel) ⟨.inr rfl, .inr rfl⟩
    (by decide +kernel)
  exact ⟨_, _, h, rfl, (shielded_spends_sound hgenesis (by decide) h).1⟩

open Sample in
/-- The nullifier of the note is marked at the end of that chain. -/
theorem note_nullifier_marked :
    ∃ links s, ActiveChain noteTrees saplingParams noZerocoins 0 (fun _ => True) links s ∧
      s.nullifiers[(11 : Uint256)]? = some () := by
  have hgenesis : networkUpgradeActive 0 saplingParams.upgradeV5_0 = true → (0 : Uint256) = sizeRoot .empty :=
    fun hactive => absurd hactive (by decide)
  obtain ⟨_, _, _, h⟩ := connectTwo_chain noteTrees (fun _ => True) shieldBlock unshieldBlock hgenesis rfl
    ⟨trivial, trivial⟩ (by decide) (by decide +kernel) (by decide +kernel) ⟨.inr rfl, .inr rfl⟩
    (by decide +kernel)
  have hspent : (11 : Uint256) ∈ unshieldBlock.vtx.flatMap nullifiers := by decide
  exact ⟨_, _, h, ((shielded_state_exact hgenesis (by decide) h).1 11).mpr ⟨_, .head _, hspent⟩⟩

end KmushiCoin
