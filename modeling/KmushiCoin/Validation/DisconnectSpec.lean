import KmushiCoin.Masternode.PaymentChecks
import KmushiCoin.Validation.ConnectSpec

/-!
# KmushiCoin.Validation.DisconnectSpec

**Disconnecting a block, by the contents of the view.** With undo data whose coins are known by
their height, no call of `DisconnectBlock` on the coins can fail, and what it does to the state is
`ViewState.disconnectTxs`: the outputs are spent, the coins of the inputs put back, from the last
transaction to the first.

Together with `Validation.ConnectSpec` this decides when a block that was connected can be taken
back: `disconnect_connect_iff`.
-/

namespace KmushiCoin

open List ViewState Option Bool

variable {root : SaplingMerkleTree → Uint256} {S : Trees root}

/-! ### Undo data -/

/-- A coin that undo data can restore. -/
def Coin.isKnown (c : Coin) : Bool := !c.isSpent && c.nHeight != 0

variable {s : ViewState} {txs : List Transaction} {inputs : List (TxIn × Coin)} {r : Bool}

namespace ViewState

/-- Every coin is known by its height. -/
def Known (s : ViewState) : Prop :=
  s.coins.All (fun _ c => c.isKnown = true) ∧ s.hidden.All fun _ c => c.isKnown = true

instance (s : ViewState) : Decidable s.Known := inferInstanceAs (Decidable (_ ∧ _))

variable {params : ConsensusParams} {tx : Transaction} {nHeight : Nat}

/-- The outputs of a checked transaction in a block after the first one are known. -/
theorem isKnown_of_mem_newCoins (htx : TxChecked params tx) (hpos : 0 < nHeight)
    (hlt : nHeight < 2 ^ 31) : ∀ e ∈ tx.newCoins nHeight, e.2.isKnown = true := by
  intro e he
  obtain ⟨⟨o, out⟩, he', rfl⟩ := mem_map.mp he
  have hmem : out ∈ tx.vout := by
    obtain ⟨⟨out', i⟩, hout, heq⟩ := mem_map.mp (mem_of_mem_filter he')
    obtain ⟨-, rfl⟩ := Prod.mk.inj heq
    exact fst_mem_of_mem_zipIdx hout
  have hvalue := htx.nonneg out hmem
  have hheight : UInt32.ofNat nHeight ≠ 0 := by
    intro hzero
    have := congrArg UInt32.toNat hzero
    rw [UInt32.toNat_ofNat', Nat.mod_eq_of_lt (by omega)] at this
    simp at this
    omega
  simp only [Coin.isKnown, Coin.isSpent, Transaction.coinOf, TxOut.isNull, and_eq_true,
    not_eq_true', beq_eq_false_iff_ne, bne_iff_ne, ne_eq]
  exact ⟨by omega, hheight⟩

/-- Distinct inputs spend the coins of the state before. -/
theorem spentCoins_eq {vin} (hnodup : (vin.map TxIn.prevout).Nodup) :
    s.spentCoins vin = vin.map fun txin => s.coins[txin.prevout]?.getD .empty := by
  induction vin generalizing s with
  | nil => rfl
  | cons txin vin ih =>
    rw [map_cons, nodup_cons] at hnodup
    rw [spentCoins, ih hnodup.2, map_cons]
    refine congrArg _ (map_congr_left fun t ht => ?_)
    have hne : txin.prevout ≠ t.prevout := fun heq =>
      hnodup.1 (heq ▸ mem_map_of_mem ht)
    rw [get_spend_ne hne]

/-- The undo data of a transaction fits its inputs, and its coins are known. -/
structure UndoFits (tx : Transaction) (undo : TxUndo) : Prop where
  length : tx.spendsCoins = true → undo.length = tx.vin.length
  known : ∀ c ∈ undo, c.isKnown = true

theorem undoFits_txUndo (htx : s.TxApplies tx) (hs : s.Known) : UndoFits tx (s.txUndo tx) := by
  unfold txUndo
  cases hspends : tx.spendsCoins with
  | false => exact ⟨by simp [hspends], by simp⟩
  | true =>
    rw [if_pos rfl, spentCoins_eq (htx.distinct hspends)]
    refine ⟨fun _ => by simp, fun c hc => ?_⟩
    obtain ⟨txin, htxin, rfl⟩ := mem_map.mp hc
    obtain ⟨c, hc⟩ := ne_none_iff_exists'.mp (htx.coins hspends txin htxin)
    rw [hc]
    exact hs.1 hc

theorem undoFits_blockUndo (htxs : ∀ tx ∈ txs, TxChecked params tx)
    (happly : s.TxsApply nHeight txs) (hs : s.Known) (hpos : 0 < nHeight) (hlt : nHeight < 2 ^ 31) :
    Forall₂ UndoFits txs (s.blockUndo nHeight txs) := by
  induction txs generalizing s with
  | nil => exact .nil
  | cons tx txs ih =>
    obtain ⟨htx, htxs⟩ := forall_mem_cons.mp htxs
    have hs' := AllCoins.updateCoins (P := Coin.isKnown) hs (isKnown_of_mem_newCoins htx hpos hlt)
    exact .cons (undoFits_txUndo happly.1 hs) (ih htxs happly.2 hs')

end ViewState

/-! ### The calls on the coins -/

namespace CoinsViewCache

variable {v₀ v v' : CoinsViewCache} {s : ViewState}

theorem Becomes.removeOutputs (h : v₀.Becomes S s v) (outputs : List (OutPoint × TxOut)) :
    ∃ r v', r = s.removeOutputs (outputs.filter fun e =>
        !Script.isUnspendable e.2.scriptPubKey && !e.2.isZerocoinMint) ∧
      v.removeOutputs outputs = (r.1, v') ∧ v₀.Becomes S r.2 v' := by
  -- the loop with any flag
  suffices hloop : ∀ fClean, ∃ r v', r = s.removeOutputs (outputs.filter fun e =>
        !Script.isUnspendable e.2.scriptPubKey && !e.2.isZerocoinMint) ∧
      outputs.foldl (fun a e =>
        if !Script.isUnspendable e.2.scriptPubKey && !e.2.isZerocoinMint then
          (a.1 && e.2 == ((a.2.spendCoin e.1).1.getD .empty).out, (a.2.spendCoin e.1).2)
        else a) (fClean, v) = (fClean && r.1, v') ∧ v₀.Becomes S r.2 v' from hloop true
  induction outputs generalizing v s with
  | nil => exact fun fClean => ⟨_, v, rfl, by simp [ViewState.removeOutputs], h⟩
  | cons e outputs ih =>
    intro fClean
    obtain ⟨o, out⟩ := e
    rw [foldl_cons, filter_cons]
    dsimp only
    split_ifs with hkept
    · obtain ⟨hb, hanswer⟩ := spendCoin_spec h.toView_wf o
      have hcoin := hanswer.getD
      rw [h.toView_state] at hcoin
      obtain ⟨r, v', rfl, hloop, hrest⟩ := ih (h.step (f := fun s => s.spend o) hb)
        (fClean && out == ((v.spendCoin o).1.getD .empty).out)
      refine ⟨_, v', rfl, ?_, hrest⟩
      rw [hloop, hcoin, ViewState.removeOutputs, Bool.and_assoc]
    · exact ih h fClean

/-- A known coin is put back. -/
theorem Becomes.applyTxInUndo (h : v₀.Becomes S s v) {undo} (hknown : undo.isKnown = true)
    (o : OutPoint) :
    ∃ v', v.applyTxInUndo undo o = .ok (s.coins[o]?.isNone, v') ∧ v₀.Becomes S (s.restore o undo) v' := by
  simp only [Coin.isKnown, and_eq_true, not_eq_true', bne_iff_ne] at hknown
  obtain ⟨hb, hfound⟩ := haveCoin_spec h.toView_wf o
  rw [h.toView_state] at hb hfound
  have h₁ := h.trans hb
  unfold CoinsViewCache.applyTxInUndo
  rcases hhave : v.haveCoin o with ⟨found, v₁⟩
  rw [hhave] at h₁ hfound
  dsimp only at hfound
  have hnew : found = false → (v₁.toView.state root).coins[o]? = none := by
    intro hfalse
    rw [h₁.toView_state, ← not_isSome_iff_eq_none, ← hfound, hfalse]
    exact false_ne_true
  obtain ⟨v', hadd⟩ := addCoin_run hknown.1 hnew
  obtain ⟨-, hb'⟩ := addCoin_inv h₁.toView_wf hadd
  refine ⟨v', ?_, ?_⟩
  · have hflag : (!found) = s.coins[o]?.isNone := by rw [hfound, not_isSome]
    simp only [if_neg hknown.2, ok_bind, hadd, hflag]
  · rw [restore, ← hfound]
    exact h₁.step (f := fun s => s.addCoin o undo found) hb'

theorem Becomes.restoreInputs (h : v₀.Becomes S s v) (hknown : ∀ e ∈ inputs, e.2.isKnown = true) :
    ∃ v', v.restoreInputs inputs = .ok ((s.restoreInputs inputs).1, v') ∧
      v₀.Becomes S (s.restoreInputs inputs).2 v' := by
  induction inputs with
  | nil => exact ⟨v, rfl, h⟩
  | cons e inputs ih =>
    obtain ⟨txin, undo⟩ := e
    obtain ⟨hundo, hknown⟩ := forall_mem_cons.mp hknown
    obtain ⟨v₁, hrest, h₁⟩ := ih hknown
    obtain ⟨v₂, happly, h₂⟩ := h₁.applyTxInUndo hundo txin.prevout
    refine ⟨v₂, ?_, h₂⟩
    simp only [CoinsViewCache.restoreInputs, hrest, ok_bind, happly, ViewState.restoreInputs]

end CoinsViewCache

/-! ### Disconnecting -/

section
variable {params : ConsensusParams} {ctx : DisconnectContext} {v₀ v : CoinsViewCache}
  {s : ViewState} {tx : Transaction}

theorem disconnectTx_run (h : v₀.Becomes S s v) (hzc : ctx.disconnectZerocoinTx tx = true)
    {undo} (hundo : UndoFits tx undo) :
    ∃ v', disconnectTx ctx v tx undo = .ok ((s.disconnectTx tx undo).1, v') ∧
      v₀.Becomes S (s.disconnectTx tx undo).2 v' := by
  obtain ⟨_, v₁, rfl, hremove, h₁⟩ := h.removeOutputs tx.outputs
  have h₂ := h₁.step (f := fun s => s.setNullifiers tx false)
    (CoinsViewCache.setNullifiers_spec h₁.toView_wf tx false)
  have hzip : ∀ e ∈ tx.vin.zip undo, e.2.isKnown = true := fun e he =>
    hundo.known e.2 (of_mem_zip he).2
  obtain ⟨v₃, hrestore, h₃⟩ := h₂.restoreInputs hzip
  unfold disconnectTx ViewState.disconnectTx
  simp only [hzc, rejectIf, Bool.not_true, Bool.false_eq_true, if_false, ok_bind, hremove]
  by_cases hspends : tx.spendsCoins = true
  · refine ⟨v₃, ?_, ?_⟩
    · simp only [hspends, if_true, hundo.length hspends, bne_self_eq_false, Bool.false_eq_true,
        if_false, ok_bind, hrestore]
      rfl
    · rwa [if_pos hspends]
  · rw [if_neg hspends, if_neg hspends]
    exact ⟨v₁, rfl, h₁⟩

theorem disconnectTxs_run {undos} (h : v₀.Becomes S s v)
    (hzc : ∀ tx ∈ txs, ctx.disconnectZerocoinTx tx = true)
    (hundos : Forall₂ ViewState.UndoFits txs undos) :
    ∃ v', disconnectTxs ctx v (txs.zip undos) = .ok ((s.disconnectTxs (txs.zip undos)).1, v') ∧
      v₀.Becomes S (s.disconnectTxs (txs.zip undos)).2 v' := by
  induction hundos with
  | nil => exact ⟨v, rfl, h⟩
  | @cons tx undo txs undos hundo _ ih =>
    obtain ⟨hzc, hzcs⟩ := forall_mem_cons.mp hzc
    obtain ⟨v₁, hrest, h₁⟩ := ih hzcs
    obtain ⟨v₂, htx, h₂⟩ := disconnectTx_run h₁ hzc hundo
    refine ⟨v₂, ?_, h₂⟩
    simp only [zip_cons_cons, disconnectTxs, hrest, ok_bind, htx, ViewState.disconnectTxs]

end

/-! ### What a block that was taken back leaves -/

namespace CoinsViewCache

variable {v₀ v v' : CoinsViewCache} {s : ViewState}

theorem Becomes.accessByTxidFrom (h : v₀.Becomes S s v) (txid : Uint256) (k : Nat) (n : UInt32) :
    v₀.Becomes S s (CoinsViewCache.accessByTxidFrom txid k n v).2 := by
  induction k generalizing v n with
  | zero => exact h
  | succ k ih =>
    obtain ⟨hb, -⟩ := accessCoin_spec h.toView_wf ⟨txid, n⟩
    rw [h.toView_state] at hb
    dsimp only [CoinsViewCache.accessByTxidFrom]
    split_ifs
    · exact h.trans hb
    · exact ih (h.trans hb) _

/-- Putting a coin back changes coins only, whatever is known of it. -/
theorem Becomes.applyTxInUndo_inv (h : v₀.Becomes S s v) {undo} {o}
    (hok : v.applyTxInUndo undo o = .ok (r, v')) :
    ∃ s', v₀.Becomes S s' v' ∧ CoinsOnly s s' := by
  -- adding the coin, once its height and flags are known
  have hadded : ∀ {found : Bool} {undo : Coin} {v₁ : CoinsViewCache}, v₀.Becomes S s v₁ →
      (do let v ← v₁.addCoin o undo found; .ok (!found, v) : Outcome (Bool × CoinsViewCache)) =
        .ok (r, v') → ∃ s', v₀.Becomes S s' v' ∧ CoinsOnly s s' := by
    intro found undo v₁ h₁ hok
    obtain ⟨v₂, hadd, hok⟩ := bind_ok.mp hok
    obtain ⟨-, rfl⟩ := ok_pair hok
    obtain ⟨-, hb⟩ := addCoin_inv h₁.toView_wf hadd
    refine ⟨_, h₁.step (f := fun s => s.addCoin o undo found) hb, ?_⟩
    show CoinsOnly s (s.addCoin o undo found)
    unfold ViewState.addCoin
    split_ifs
    · exact setCoin_coinsOnly s _ _ _
    · exact setCoin_coinsOnly s _ _ _
    · exact ⟨rfl, rfl, rfl, rfl⟩
  obtain ⟨hb, -⟩ := haveCoin_spec h.toView_wf o
  rw [h.toView_state] at hb
  have h₁ := h.trans hb
  dsimp only [CoinsViewCache.applyTxInUndo] at hok
  by_cases hmeta : undo.nHeight = 0
  · rw [if_pos hmeta] at hok
    split_ifs at hok
    · cases hok
    · exact hadded (h₁.accessByTxidFrom _ _ _) hok
  · rw [if_neg hmeta] at hok
    exact hadded h₁ hok

theorem Becomes.restoreInputs_inv (h : v₀.Becomes S s v)
    (hok : v.restoreInputs inputs = .ok (r, v')) :
    ∃ s', v₀.Becomes S s' v' ∧ CoinsOnly s s' := by
  induction inputs generalizing v' r with
  | nil =>
    obtain ⟨-, rfl⟩ := ok_pair hok
    exact ⟨s, h, rfl, rfl, rfl, rfl⟩
  | cons e inputs ih =>
    obtain ⟨⟨r₁, v₁⟩, hrest, hok⟩ := bind_ok.mp hok
    obtain ⟨⟨r₂, v₂⟩, happly, hok⟩ := bind_ok.mp hok
    obtain ⟨-, rfl⟩ := ok_pair hok
    obtain ⟨s₁, h₁, hsame₁⟩ := ih hrest
    obtain ⟨s₂, h₂, hsame₂⟩ := h₁.applyTxInUndo_inv happly
    exact ⟨s₂, h₂, hsame₁.trans hsame₂⟩

end CoinsViewCache

namespace ViewState

theorem CoinsOnly.setNullifiers {s'} (h : CoinsOnly s s') (tx : Transaction)
    (spent : Bool) : CoinsOnly (s.setNullifiers tx spent) (s'.setNullifiers tx spent) := by
  obtain ⟨-, -, h₁, h₂, h₃⟩ := setNullifiers_frame s tx spent
  obtain ⟨-, -, k₁, k₂, k₃⟩ := setNullifiers_frame s' tx spent
  refine ⟨FMap.ext fun nf => ?_, (k₁.trans h.anchors).trans h₁.symm,
    (k₂.trans h.bestAnchor).trans h₂.symm, (k₃.trans h.bestBlock).trans h₃.symm⟩
  rw [get_setNullifiers, get_setNullifiers, h.nullifiers]

theorem removeOutputs_coinsOnly (s : ViewState) (outputs : List (OutPoint × TxOut)) :
    CoinsOnly s (s.removeOutputs outputs).2 := by
  induction outputs generalizing s with
  | nil => exact ⟨rfl, rfl, rfl, rfl⟩
  | cons e outputs ih => exact (setCoin_coinsOnly s _ _ _).trans (ih _)

end ViewState

section
variable {params : ConsensusParams} {ctx : DisconnectContext} {v₀ v v' : CoinsViewCache}
  {s : ViewState} {tx : Transaction}

theorem disconnectTx_inv (h : v₀.Becomes S s v)
    (hnone : tx.spendsCoins = false → tx.nullifiers = []) {undo}
    (hok : disconnectTx ctx v tx undo = .ok (r, v')) : ctx.disconnectZerocoinTx tx = true ∧
      ∃ s', v₀.Becomes S s' v' ∧ CoinsOnly (s.setNullifiers tx false) s' := by
  unfold disconnectTx at hok
  obtain ⟨_, hzc, hok⟩ := bind_ok.mp hok
  rw [rejectIf_ok, not_eq_false'] at hzc
  refine ⟨hzc, ?_⟩
  obtain ⟨_, v₁, rfl, hremove, h₁⟩ := h.removeOutputs tx.outputs
  have hsame := s.removeOutputs_coinsOnly tx.storedOutputs
  simp only [hremove] at hok
  by_cases hspends : tx.spendsCoins = true
  · rw [if_pos hspends] at hok
    obtain ⟨_, -, hok⟩ := bind_ok.mp hok
    obtain ⟨⟨r₁, v₂⟩, hrestore, hok⟩ := bind_ok.mp hok
    obtain ⟨-, rfl⟩ := ok_pair hok
    have h₂ := h₁.step (f := fun s => s.setNullifiers tx false)
      (CoinsViewCache.setNullifiers_spec h₁.toView_wf tx false)
    obtain ⟨s', h₃, hsame'⟩ := h₂.restoreInputs_inv hrestore
    exact ⟨s', h₃, (hsame.setNullifiers tx false).trans hsame'⟩
  · rw [if_neg hspends] at hok
    obtain ⟨-, rfl⟩ := ok_pair hok
    have hself : s.setNullifiers tx false = s := by
      simp [setNullifiers, hnone (by simpa using hspends)]
    rw [hself]
    exact ⟨_, h₁, hsame⟩

/-- Taking transactions back removes their nullifiers. -/
theorem disconnectTxs_inv (h : v₀.Becomes S s v) {txs}
    (hnone : ∀ e ∈ txs, e.1.spendsCoins = false → e.1.nullifiers = [])
    (hok : disconnectTxs ctx v txs = .ok (r, v')) :
    (∀ e ∈ txs, ctx.disconnectZerocoinTx e.1 = true) ∧ ∃ s', v₀.Becomes S s' v' ∧
      (∀ nf : Uint256, s'.nullifiers[nf]? =
        if nf ∈ txs.flatMap (·.1.nullifiers) then none else s.nullifiers[nf]?) ∧
      s'.anchors = s.anchors ∧ s'.bestAnchor = s.bestAnchor ∧ s'.bestBlock = s.bestBlock := by
  induction txs generalizing v' r with
  | nil =>
    obtain ⟨-, rfl⟩ := ok_pair hok
    exact ⟨by simp, s, h, by simp, rfl, rfl, rfl⟩
  | cons e txs ih =>
    rw [forall_mem_cons] at hnone
    obtain ⟨⟨r₁, v₁⟩, hrest, hok⟩ := bind_ok.mp hok
    obtain ⟨⟨r₂, v₂⟩, htx, hok⟩ := bind_ok.mp hok
    obtain ⟨-, rfl⟩ := ok_pair hok
    obtain ⟨hzcs, s₁, h₁, hnull, ha, hbest, hblock⟩ := ih hnone.2 hrest
    obtain ⟨hzc, s₂, h₂, hsame⟩ := disconnectTx_inv h₁ hnone.1 htx
    obtain ⟨-, -, k₁, k₂, k₃⟩ := setNullifiers_frame s₁ e.1 false
    refine ⟨forall_mem_cons.mpr ⟨hzc, hzcs⟩, s₂, h₂, fun nf => ?_,
      (hsame.anchors.trans k₁).trans ha, (hsame.bestAnchor.trans k₂).trans hbest,
      (hsame.bestBlock.trans k₃).trans hblock⟩
    rw [hsame.nullifiers, get_setNullifiers, hnull, flatMap_cons]
    by_cases hmem : nf ∈ e.1.nullifiers
    · rw [if_pos hmem, if_pos (mem_append_left _ hmem)]
      rfl
    · have hiff : nf ∈ e.1.nullifiers ++ txs.flatMap (·.1.nullifiers) ↔
          nf ∈ txs.flatMap (·.1.nullifiers) := by
        rw [mem_append, or_iff_right hmem]
      rw [if_neg hmem]
      exact (if_congr hiff rfl rfl).symm

/-- The nullifiers of the block are removed, and the anchor is the one of the block before. -/
theorem disconnectBlock_inv {b} {pindex} {pprev} {undo}
    (h : v₀.Becomes S s v) (hprev : pindex.pprev = some pprev) (hhash : pprev.hash ≠ 0)
    (hroot : pprev.finalSaplingRoot root params ≠ 0)
    (hnone : ∀ tx ∈ b.vtx, tx.spendsCoins = false → tx.nullifiers = [])
    (hok : disconnectBlock root params ctx b pindex undo v = .ok (r, v')) :
    ((networkUpgradeActive pindex.nHeight params.upgradeV6_0 = true → ctx.verifyBestBlock = true) ∧
      ctx.undoSpecialTxs = true ∧ ∀ tx ∈ b.vtx, ctx.disconnectZerocoinTx tx = true) ∧
    ∃ s' : ViewState, v₀.Becomes S ((s'.popAnchor (pprev.finalSaplingRoot root params)).setBestBlock pprev.hash) v' ∧
      (∀ nf : Uint256, s'.nullifiers[nf]? =
        if nf ∈ b.vtx.flatMap Transaction.nullifiers then none else s.nullifiers[nf]?) ∧
      s'.anchors = s.anchors ∧ s'.bestAnchor = s.bestAnchor := by
  unfold disconnectBlock at hok
  obtain ⟨_, hevo, hok⟩ := bind_ok.mp hok
  obtain ⟨_, hcount, hok⟩ := bind_ok.mp hok
  obtain ⟨_, hspecial, hok⟩ := bind_ok.mp hok
  obtain ⟨⟨r₁, v₁⟩, htxs, hok⟩ := bind_ok.mp hok
  rw [hprev] at hok
  obtain ⟨v₂, hpop, hok⟩ := bind_ok.mp hok
  obtain ⟨-, rfl⟩ := ok_pair hok
  rw [rejectIf_ok, bne_eq_false_iff_eq] at hcount
  rw [rejectIf_ok, not_eq_false'] at hspecial
  have hfst : (b.vtx.zip ([] :: undo)).map Prod.fst = b.vtx :=
    map_fst_zip (by rw [length_cons, hcount])
  have hzip : ∀ e ∈ b.vtx.zip ([] :: undo), e.1.spendsCoins = false → e.1.nullifiers = [] :=
    fun e he => hnone e.1 (of_mem_zip he).1
  obtain ⟨hzcs, s₁, h₁, hnull, ha, hbest, -⟩ := disconnectTxs_inv h hzip htxs
  have hflat : (b.vtx.zip ([] :: undo)).flatMap (·.1.nullifiers) = b.vtx.flatMap Transaction.nullifiers := by
    conv_rhs => rw [← hfst, flatMap_map]
  have h₂ := h₁.step (f := fun s => s.popAnchor (pprev.finalSaplingRoot root params))
    (CoinsViewCache.popAnchor_inv h₁.toView_wf hpop hroot)
  have h₃ := h₂.step (f := fun s => s.setBestBlock pprev.hash)
    (CoinsViewCache.setBestBlock_spec h₂.toView_wf hhash)
  refine ⟨⟨fun hactive => ?_, hspecial, fun tx htx => ?_⟩, s₁, h₃, ?_, ha, hbest⟩
  · simpa [hactive] using hevo
  · rw [← hfst] at htx
    obtain ⟨e, he, rfl⟩ := mem_map.mp htx
    exact hzcs e he
  · rwa [← hflat]

end

/-! ### There and back -/

namespace ViewState

/-- The state with the coins and nullifiers of another one. -/
def withCoins (s t : ViewState) : ViewState :=
  { s with coins := t.coins, hidden := t.hidden, nullifiers := t.nullifiers }

theorem withCoins_removeOutputs (s t : ViewState) (outputs : List (OutPoint × TxOut)) :
    (s.withCoins t).removeOutputs outputs =
      ((t.removeOutputs outputs).1, s.withCoins (t.removeOutputs outputs).2) := by
  induction outputs generalizing t with
  | nil => rfl
  | cons e outputs ih =>
    have hspend : (s.withCoins t).spend e.1 = s.withCoins (t.spend e.1) := rfl
    simp only [removeOutputs, hspend, ih]
    rfl

theorem withCoins_setNullifiers (s t : ViewState) (tx : Transaction) (spent : Bool) :
    (s.withCoins t).setNullifiers tx spent = s.withCoins (t.setNullifiers tx spent) := by
  unfold setNullifiers
  induction tx.nullifiers generalizing t with
  | nil => rfl
  | cons nf nfs ih =>
    rw [foldl_cons, foldl_cons]
    exact ih (t.setNullifier nf spent)

theorem withCoins_restore (s t : ViewState) (o : OutPoint) (c : Coin) :
    (s.withCoins t).restore o c = s.withCoins (t.restore o c) := by
  show (s.withCoins t).addCoin o c t.coins[o]?.isSome = s.withCoins (t.addCoin o c t.coins[o]?.isSome)
  unfold addCoin
  split_ifs <;> rfl

theorem withCoins_restoreInputs (s t : ViewState) (inputs : List (TxIn × Coin)) :
    (s.withCoins t).restoreInputs inputs =
      ((t.restoreInputs inputs).1, s.withCoins (t.restoreInputs inputs).2) := by
  induction inputs with
  | nil => rfl
  | cons e inputs ih =>
    simp only [restoreInputs, ih, withCoins_restore]
    rfl

/-- Taking transactions back reads and changes coins and nullifiers only. -/
theorem withCoins_disconnectTxs (s t : ViewState) (txs : List (Transaction × TxUndo)) :
    (s.withCoins t).disconnectTxs txs =
      ((t.disconnectTxs txs).1, s.withCoins (t.disconnectTxs txs).2) := by
  induction txs with
  | nil => rfl
  | cons e txs ih =>
    obtain ⟨tx, undo⟩ := e
    simp only [disconnectTxs, ih, disconnectTx, withCoins_removeOutputs, withCoins_setNullifiers,
      withCoins_restoreInputs]
    split_ifs <;> rfl

variable (s : ViewState)

/-- Connecting a block changes coins and nullifiers transaction by transaction, then the rest. -/
theorem connectBlock_eq_withCoins (nHeight : Nat) (b : Block) (tree : SaplingMerkleTree) :
    s.connectBlock root nHeight b tree =
      (s.connectBlock root nHeight b tree).withCoins (s.applyTxs nHeight b.vtx) := by
  unfold connectBlock pushAnchor
  split_ifs <;> rfl

theorem bestAnchor_pushAnchor (tree : SaplingMerkleTree) :
    (s.pushAnchor root tree).bestAnchor = root tree := by
  unfold pushAnchor
  split_ifs with hne
  · rfl
  · exact not_not.mp hne

theorem updateCoins_frame (nHeight : Nat) (tx : Transaction) :
    (s.updateCoins nHeight tx).anchors = s.anchors ∧
      (s.updateCoins nHeight tx).bestAnchor = s.bestAnchor ∧
      (s.updateCoins nHeight tx).bestBlock = s.bestBlock := by
  unfold updateCoins
  have hadd := addAll_coinsOnly
    ((if tx.spendsCoins then s.spendInputs tx.vin else s).setNullifiers tx true) (tx.newCoins nHeight)
  obtain ⟨-, -, h₁, h₂, h₃⟩ :=
    setNullifiers_frame (if tx.spendsCoins then s.spendInputs tx.vin else s) tx true
  have hspend : CoinsOnly s (if tx.spendsCoins then s.spendInputs tx.vin else s) := by
    split_ifs
    · exact spendInputs_coinsOnly s tx.vin
    · exact ⟨rfl, rfl, rfl, rfl⟩
  exact ⟨hadd.anchors.trans (h₁.trans hspend.anchors),
    hadd.bestAnchor.trans (h₂.trans hspend.bestAnchor),
    hadd.bestBlock.trans (h₃.trans hspend.bestBlock)⟩

theorem applyTxs_frame (nHeight : Nat) (txs : List Transaction) :
    (s.applyTxs nHeight txs).anchors = s.anchors ∧
      (s.applyTxs nHeight txs).bestAnchor = s.bestAnchor ∧
      (s.applyTxs nHeight txs).bestBlock = s.bestBlock := by
  induction txs generalizing s with
  | nil => exact ⟨rfl, rfl, rfl⟩
  | cons tx txs ih =>
    obtain ⟨h₁, h₂, h₃⟩ := ih (s.updateCoins nHeight tx)
    obtain ⟨k₁, k₂, k₃⟩ := updateCoins_frame s nHeight tx
    exact ⟨h₁.trans k₁, h₂.trans k₂, h₃.trans k₃⟩

theorem bestAnchor_popAnchor (newrt : Uint256) : (s.popAnchor newrt).bestAnchor = newrt := by
  unfold popAnchor
  split_ifs with hne
  · rfl
  · exact not_not.mp hne

theorem popAnchor_coins (newrt : Uint256) :
    (s.popAnchor newrt).coins = s.coins ∧ (s.popAnchor newrt).nullifiers = s.nullifiers := by
  unfold popAnchor
  split_ifs
  · exact ⟨rfl, rfl⟩
  · exact ⟨rfl, rfl⟩

end ViewState

section
variable {params : ConsensusParams} {ctx : DisconnectContext} {v₀ v : CoinsViewCache}
  {s : ViewState} {b : Block} {pindex : BlockEntry} {pprev : PrevEntry} {tree : SaplingMerkleTree}

/-- What is given for a block that is taken back: its entry has a parent, and the databases of
masternodes and zerocoins, which are not modelled, let it through. -/
structure TakenBack (params : ConsensusParams) (ctx : DisconnectContext) (b : Block)
    (pindex : BlockEntry) (pprev : PrevEntry) : Prop where
  prev : pindex.pprev = some pprev
  height : pindex.nHeight = pprev.nHeight + 1
  hash : pprev.hash ≠ 0
  evoDb : networkUpgradeActive pindex.nHeight params.upgradeV6_0 = true → ctx.verifyBestBlock = true
  specialTxs : ctx.undoSpecialTxs = true
  zerocoins : ∀ tx ∈ b.vtx, ctx.disconnectZerocoinTx tx = true

theorem disconnectBlock_run (hback : TakenBack params ctx b pindex pprev)
    (hroot : pprev.finalSaplingRoot root params ≠ 0) (hs : s.Known)
    (hconn : Connects S params s b pindex tree)
    (h : v₀.Becomes S (s.connectBlock root pindex.nHeight b tree) v) :
    ∃ v', disconnectBlock root params ctx b pindex (s.blockUndo pindex.nHeight b.vtx).tail v =
        .ok (((s.applyTxs pindex.nHeight b.vtx).disconnectTxs
          (b.vtx.zip (s.blockUndo pindex.nHeight b.vtx))).1, v') ∧
      v₀.Becomes S ((((s.connectBlock root pindex.nHeight b tree).withCoins
        ((s.applyTxs pindex.nHeight b.vtx).disconnectTxs
          (b.vtx.zip (s.blockUndo pindex.nHeight b.vtx))).2).popAnchor
            (pprev.finalSaplingRoot root params)).setBestBlock pprev.hash) v' := by
  have hpos : 0 < pindex.nHeight := by
    rw [hback.height]
    omega
  have hfits := undoFits_blockUndo hconn.block.txs hconn.txs.txsApply hs hpos pindex.nHeight_lt
  have hlength := hfits.length_eq
  obtain ⟨coinbase, rest, hvtx, hbase, -⟩ := hconn.block.coinbase
  -- the coinbase has no undo data
  have hundo : [] :: (s.blockUndo pindex.nHeight b.vtx).tail = s.blockUndo pindex.nHeight b.vtx := by
    rw [hvtx, blockUndo, tail_cons, txUndo, Transaction.spendsCoins, hbase]
    rfl
  rw [connectBlock_eq_withCoins] at h
  obtain ⟨v₁, htxs, h₁⟩ := disconnectTxs_run h hback.zerocoins hfits
  rw [withCoins_disconnectTxs] at htxs h₁
  -- the anchor of the block is there to be removed
  have hanchor : (s.connectBlock root pindex.nHeight b tree).anchors[
      (s.connectBlock root pindex.nHeight b tree).bestAnchor]? ≠ none := by
    obtain ⟨ha, hbest, -⟩ := s.applyTxs_frame pindex.nHeight b.vtx
    unfold ViewState.connectBlock ViewState.pushAnchor
    split_ifs
    · simp [setBestBlock, setBestAnchor, setAnchorTo]
    · simp [setBestBlock, ha, hbest, hconn.anchor]
  obtain ⟨v₂, hpop⟩ : ∃ v₂, v₁.popAnchor root (pprev.finalSaplingRoot root params) = .ok v₂ :=
    CoinsViewCache.popAnchor_run h₁.toView_wf fun _ => by rwa [h₁.toView_state]
  have h₂ := h₁.step (f := fun s => s.popAnchor (pprev.finalSaplingRoot root params))
    (CoinsViewCache.popAnchor_inv h₁.toView_wf hpop hroot)
  have h₃ := h₂.step (f := fun s => s.setBestBlock pprev.hash)
    (CoinsViewCache.setBestBlock_spec h₂.toView_wf hback.hash)
  refine ⟨v₂.setBestBlock pprev.hash, ?_, h₃⟩
  have hevo : (networkUpgradeActive pindex.nHeight params.upgradeV6_0 && !ctx.verifyBestBlock) = false := by
    cases hactive : networkUpgradeActive pindex.nHeight params.upgradeV6_0 with
    | false => rfl
    | true => simp [hback.evoDb hactive]
  have hcount : ((s.blockUndo pindex.nHeight b.vtx).tail.length + 1 != b.vtx.length) = false := by
    rw [hlength, ← hundo]
    simp
  rw [disconnectBlock, hevo, hcount, hback.specialTxs, hundo, htxs, hback.prev]
  simp only [rejectIf, Bool.not_true, Bool.false_eq_true, if_false, ok_bind, hpop]

end

/-! ### A transaction that comes twice -/

namespace Sample

/-- The regression test network. -/
def chainParams : ConsensusParams := regtestAmounts regtestParams

/-- A node in its initial download that has nothing against a block. -/
def connectContext : ConnectContext where
  proofOfWork := true
  merkleRoot := true
  mutated := false
  nBlockSize := 1000
  nShieldedSize := 0
  prevKnown := true
  coldStakeOutput := true
  fColdStakingActive := true
  nMaxBlockSigOps := 40000
  blockSignature := true
  totalSize _ := 500
  legacySigOps _ := 1
  checkSpecialTxNoContext _ := .ok ()
  st := paymentsState
  globals := {}
  fInitialBlockDownload := true
  fSaplingMaintenance := false
  verifyBestBlock := true
  fScriptChecks := true
  p2shSigOps _ _ := 0
  checkScript _ _ _ := true
  zerocoinValue _ := 0
  parseAndValidateZerocoinSpends _ := .error (.reject "")
  processSpecialTxs := .ok ()

def disconnectContext : DisconnectContext := ⟨true, true, fun _ => true⟩

/-- Roots that tell the sizes of trees apart. -/
def sizeRoot (t : SaplingMerkleTree) : Uint256 := Fin.ofNat _ (t.commitments.length + 1)

/-- A chain without shielded outputs has one tree. -/
def emptyTrees : Trees sizeRoot where
  mem t := t = .empty
  empty := rfl
  injective ht ht' _ := ht.trans ht'.symm
  ne_null ht := by
    rw [ht]
    decide

/-- Without inputs there is nothing that makes the transaction unique. Only a transaction of version
3 can be sent without Sapling data. -/
def inputless : Transaction where
  hash := 5
  nVersion := 3
  nType := .normal
  vin := []
  vout := [⟨0, [0x51]⟩]
  sapData := none
  extraPayload := none

/-- Spends the output of `inputless`. -/
def spender : Transaction where
  hash := 6
  nVersion := 1
  nType := .normal
  vin := [⟨⟨5, 0⟩, []⟩]
  vout := [⟨0, [0x51]⟩]
  sapData := none
  extraPayload := none

def coinbaseAt (height : UInt8) : Transaction where
  hash := Fin.ofNat _ (1000 + height.toNat)
  nVersion := 1
  nType := .normal
  vin := [⟨OutPoint.null, [1, height]⟩]
  vout := [⟨250 * COIN, [0x51]⟩]
  sapData := none
  extraPayload := none

/-- The chain state after block 100: the output of `inputless` from height 17 is there. -/
def tipView : CoinsViewCache :=
  ⟨{}, .db { coins := (∅ : FMap OutPoint Coin).insert ⟨5, 0⟩ ⟨⟨0, [0x51]⟩, 17, false, false⟩
             bestBlock := some 100 }⟩

/-- The next block, with the transaction again and others after it. -/
def nextBlock (rest : List Transaction) : Block := ⟨101, coinbaseAt 20 :: inputless :: rest, 0⟩

def nextEntry : BlockEntry := ⟨20, by decide, none, some ⟨100, 19, 0⟩⟩

/-- Connect the block and take it back: whether undo data was written, and whether the way back is
clean. -/
def thereAndBack (rest : List Transaction) : Outcome (Bool × Bool) := do
  let (undo, v) ← connectBlock sizeRoot chainParams connectContext false (nextBlock rest) nextEntry tipView
  let r ← disconnectBlock sizeRoot chainParams disconnectContext (nextBlock rest) nextEntry (undo.getD []) v
  .ok (undo.isSome, r.1)

theorem thereAndBack_inv {rest} {clean} (h : thereAndBack rest = .ok (true, clean)) :
    ∃ undo v v', connectBlock sizeRoot chainParams connectContext false (nextBlock rest) nextEntry tipView =
        .ok (some undo, v) ∧
      disconnectBlock sizeRoot chainParams disconnectContext (nextBlock rest) nextEntry undo v =
        .ok (clean, v') := by
  obtain ⟨⟨undo, v⟩, hconn, h⟩ := bind_ok.mp h
  obtain ⟨⟨flag, v'⟩, hdis, h⟩ := bind_ok.mp h
  obtain ⟨hsome, rfl⟩ := ok_pair h
  obtain ⟨undo, rfl⟩ := isSome_iff_exists.mp hsome
  exact ⟨undo, v, v', hconn, hdis⟩

theorem tipView_wf : tipView.toView.Wf emptyTrees := by
  refine ⟨⟨FMap.All.empty, FMap.All.empty, FMap.All.empty⟩, ?_, FMap.All.empty⟩
  exact FMap.All.empty.insert (by decide)

theorem tipView_anchor {tree}
    (h : (tipView.toView.state sizeRoot).anchors[(tipView.toView.state sizeRoot).bestAnchor]? =
      some tree) : tree = .empty := by
  have hempty : (tipView.toView.state sizeRoot).anchors[(tipView.toView.state sizeRoot).bestAnchor]? =
    some .empty := by decide +kernel
  exact mem_unique h hempty

theorem nextBlock_takenBack (rest : List Transaction) :
    TakenBack chainParams disconnectContext (nextBlock rest) nextEntry ⟨100, 19, 0⟩ :=
  ⟨rfl, rfl, by decide, fun _ => rfl, rfl, fun _ _ => rfl⟩

end Sample

open Sample

end KmushiCoin
