import KmushiCoin.Validation.ActiveChain

/-!
# KmushiCoin.Validation.UniqueIds

**Transaction ids along the active chain.** Nothing in the coins view looks for a transaction with
the id of an earlier one: `ConnectBlock` relies on it that an id cannot come twice.

* In every run whose blocks consist of a coinbase and of transactions that consume something, the
  state of the tip is `stateOf` of the active chain, coins included, and that is the ledger of the
  transactions of the chain (`Built`). So the ids are different, no output replaces an unspent one,
  and `AddCoin` never throws (`transaction_ids_distinct`).
* A transaction without inputs and without Sapling data consumes nothing and passes
  `CheckTransaction`. It can come again in a later block, and a block with two of them makes
  `AddCoin` throw (`inputless_comes_twice`).
-/

namespace KmushiCoin

open Transaction List

variable {root : SaplingMerkleTree → Uint256} {S : Trees root} {T : Txs}

/-- Every transaction but the coinbase consumes something. -/
def Block.Consumes (T : Txs) (b : Block) : Prop :=
  (∀ tx ∈ b.vtx, T.mem tx) ∧ ∀ tx ∈ b.vtx.tail, tx.Consumes

/-- The transactions of a chain, the oldest first, with the heights of their blocks. -/
def historyOf : List Link → List (Nat × Transaction)
  | [] => []
  | link :: links => historyOf links ++ link.block.vtx.map (Prod.mk link.entry.nHeight)

/-! ### The invariant -/

theorem Ledger.congr {s s'} {hist} (h : Ledger T s hist)
    (hcoins : s'.coins = s.coins) (hhidden : s'.hidden = s.hidden)
    (hnull : s'.nullifiers = s.nullifiers) : Ledger T s' hist := by
  obtain ⟨hplain, hmem, hids, hfrom, hspent, hmarked, hbases⟩ := h
  refine ⟨?_, hmem, hids, ?_, ?_, ?_, hbases⟩
  · intro o
    rw [hhidden]
    exact hplain o
  · rwa [hcoins]
  · rwa [hcoins]
  · rwa [hnull]

section
variable (S T) (params : ConsensusParams) (genesisRoot : Uint256)

/-- A block as it was connected, and the ledger after it. -/
structure Settles (links : List Link) (link : Link) : Prop where
  connects : Connects S params (stateOf root params links) link.block link.entry (treeOf links)
  undo : link.undo = ((stateOf root params links).blockUndo link.entry.nHeight link.block.vtx).tail
  ledger : Ledger T (stateOf root params (link :: links)) (historyOf (link :: links))
  stored : (stateOf root params (link :: links)).Stored
  known : (stateOf root params (link :: links)).Known

/-- **A chain that was built block by block.** -/
def Built : List Link → Prop
  | [] => True
  | link :: links => Settles S T params links link ∧ Built links

end

section
variable {params : ConsensusParams} {zc : ZerocoinParams} {genesisRoot : Uint256} {links : List Link}
  {link : Link} {s s' : ViewState}

theorem Built.facts (h : Built S T params links) :
    Ledger T (stateOf root params links) (historyOf links) ∧ (stateOf root params links).Stored ∧
      (stateOf root params links).Known := by
  cases links with
  | cons link links => exact ⟨h.1.ledger, h.1.stored, h.1.known⟩
  | nil =>
    refine ⟨⟨fun o => ?_, by simp [historyOf], by simp [historyOf], fun o c hc => ?_, by simp [historyOf],
      by simp [historyOf], by simp [historyOf]⟩, ⟨FMap.All.empty, FMap.All.empty⟩, FMap.All.empty,
      FMap.All.empty⟩
    · exact FMap.get_empty o
    · simp [show (stateOf root params []).coins = ∅ from rfl, FMap.get_empty] at hc

theorem Linked.height_of_mem_historyOf (h : Linked S params genesisRoot links) :
    ∀ e ∈ historyOf links, e.1 ≤ links.length := by
  induction links with
  | nil => simp [historyOf]
  | cons link links ih =>
    intro e he
    rw [length_cons]
    rcases mem_append.mp he with he | he
    · have := ih h.2 e he
      omega
    · obtain ⟨tx, -, rfl⟩ := mem_map.mp he
      exact h.1.height.le

/-! ### Steps -/

/-- **Connecting a block** whose transactions consume something. -/
theorem ConnectTip.settles (hl : Linked S params genesisRoot links) (hbuilt : Built S T params links)
    (hconsumes : link.block.Consumes T)
    (h : ConnectTip S params zc genesisRoot links (stateOf root params links) link s') :
    Settles S T params links link ∧ s' = stateOf root params (link :: links) ∧
      (stateOf root params links).TxsNew link.entry.nHeight link.block.vtx := by
  obtain ⟨hconn, rfl, hundo⟩ := h.inv hl ⟨rfl, rfl, rfl, rfl⟩
  obtain ⟨hledger, hstored, hknown⟩ := hbuilt.facts
  obtain ⟨ctx, hcheck⟩ := h.accepted
  have hheights : ∀ e ∈ historyOf links, e.1 ≠ link.entry.nHeight := by
    intro e he
    have := hl.height_of_mem_historyOf e he
    rw [h.height]
    omega
  obtain ⟨hafter, hnew⟩ := hledger.applyBlock link.entry.nHeight_lt hconn.block hconsumes.1
    hconsumes.2 (contextualCheckBlock_inv hcheck).2 hheights hconn.txs.txsApply
  -- the anchor and the best block are no part of the ledger
  have heq : (stateOf root params links).connectBlock root link.entry.nHeight link.block (treeOf links) =
      _ := ViewState.connectBlock_eq_withCoins _ _ _ _
  have hcoins := congrArg ViewState.coins heq
  have hhidden := congrArg ViewState.hidden heq
  have hnull := congrArg ViewState.nullifiers heq
  have hpos : 0 < link.entry.nHeight := by
    rw [h.height]
    omega
  refine ⟨⟨hconn, hundo, hafter.congr hcoins hhidden hnull, ?_, ?_⟩, rfl, hnew⟩
  · rw [ViewState.Stored, stateOf, hcoins, hhidden]
    exact ViewState.AllCoins.applyTxs (P := Coin.isStored) hstored
      fun _ _ => ViewState.isStored_of_mem_newCoins
  · rw [ViewState.Known, stateOf, hcoins, hhidden]
    exact ViewState.AllCoins.applyTxs (P := Coin.isKnown) hknown fun tx htx =>
      ViewState.isKnown_of_mem_newCoins (hconn.block.txs tx htx) hpos link.entry.nHeight_lt

variable (hgenesis : networkUpgradeActive 0 params.upgradeV5_0 = true → genesisRoot = root .empty)
include hgenesis

/-- **Disconnecting the last block** goes back to the state before it. -/
theorem DisconnectTip.stateOf_eq (hzero : params.hashGenesisBlock ≠ 0)
    (hl : Linked S params genesisRoot (link :: links)) (hbuilt : Built S T params (link :: links))
    (h : DisconnectTip S params (stateOf root params (link :: links)) link s') :
    s' = stateOf root params links := by
  have hrest := h.linked hgenesis hzero hl ⟨rfl, rfl, rfl, rfl⟩
  obtain ⟨ctx, v, v', hv, hstate, hok, rfl⟩ := h
  obtain ⟨-, hstored, hknown⟩ := hbuilt.2.facts
  have hroot : (tipEntry params genesisRoot links).finalSaplingRoot root params ≠ 0 := by
    rw [hl.2.finalRoot hgenesis]
    exact S.ne_null hl.2.tree_mem
  have hhash : (tipEntry params genesisRoot links).hash ≠ 0 := by
    cases links with
    | nil => exact hzero
    | cons link links => exact hl.2.1.hash
  have hheight : link.entry.nHeight = (tipEntry params genesisRoot links).nHeight + 1 := by
    rw [hl.1.height]
    cases links with
    | nil => rfl
    | cons link links => exact congrArg (· + 1) hl.2.1.height.symm
  obtain ⟨⟨hevo, hspecial, hzcs⟩, -⟩ := disconnectBlock_inv (.refl hv) hl.1.prev hhash hroot
    (fun tx htx => (hl.1.checked tx htx).nullifiers_eq_nil) hok
  have hb : v.Becomes S ((stateOf root params links).connectBlock root link.entry.nHeight link.block
      (treeOf links)) v := by
    have := CoinsViewCache.Becomes.refl hv
    rwa [hstate] at this
  obtain ⟨v'', hrun, hb'⟩ := disconnectBlock_run
    ⟨hl.1.prev, hheight, hhash, hevo, hspecial, hzcs⟩ hroot hknown hbuilt.1.connects hb
  rw [← hbuilt.1.undo, hok] at hrun
  obtain ⟨hflag, rfl⟩ := ok_pair hrun
  obtain ⟨hclean, hback⟩ :=
    ViewState.disconnectTxs_clean_iff hbuilt.1.connects.txs.txsApply hstored
  rw [hback (hclean.mp hflag.symm)] at hb'
  -- only the anchor is popped from the state with the coins of before
  refine ViewState.ext' ?_ ?_ hrest.nullifiers hrest.anchors hrest.bestAnchor hrest.bestBlock
  · rw [hb'.toView_state]
    exact (ViewState.popAnchor_coins _ _).1
  · rw [hb'.toView_state]
    show (ViewState.popAnchor _ _).hidden = _
    unfold ViewState.popAnchor
    split_ifs <;> rfl

/-- **Every run** whose transactions consume something keeps the tip at `stateOf` of the chain. -/
theorem ActiveChain.built (hzero : params.hashGenesisBlock ≠ 0)
    (h : ActiveChain S params zc genesisRoot (Block.Consumes T) links s) :
    Linked S params genesisRoot links ∧ Built S T params links ∧ s = stateOf root params links := by
  induction h with
  | start => exact ⟨trivial, trivial, rfl⟩
  | recache _ hstep ih =>
    obtain ⟨hl, hbuilt, rfl⟩ := ih
    exact ⟨hl, hbuilt, hstep.coins hbuilt.facts.1.plain⟩
  | connect _ hblock hstep ih =>
    obtain ⟨hl, hbuilt, rfl⟩ := ih
    obtain ⟨hsettles, rfl, -⟩ := hstep.settles hl hbuilt hblock
    exact ⟨(hstep.linked hgenesis hl ⟨rfl, rfl, rfl, rfl⟩).1, ⟨hsettles, hbuilt⟩, rfl⟩
  | disconnect _ hstep ih =>
    obtain ⟨hl, hbuilt, rfl⟩ := ih
    exact ⟨hl.2, hbuilt.2, hstep.stateOf_eq hgenesis hzero hl hbuilt⟩

omit hgenesis in
theorem map_hash_historyOf (links : List Link) : ((historyOf links).map fun e => e.2.hash).Perm
      (links.flatMap fun link => link.block.vtx.map hash) := by
  induction links with
  | nil => exact .nil
  | cons link links ih =>
    rw [historyOf, map_append, map_map, flatMap_cons]
    exact perm_append_comm.trans (.append_left _ ih)

variable (params zc) in
/-- A block that is given to the loop over its transactions, on the tip of a chain: it was accepted
and passed `CheckBlock`. A zerocoin spend that does not parse is rejected. -/
structure Offered (links : List Link) (b : Block) (pindex : BlockEntry) (ctx : ConnectContext) : Prop where
  height : pindex.nHeight = links.length + 1
  accepted : ∃ ctx, contextualCheckBlock params zc ctx pindex.nHeight b = .ok ()
  checked : checkBlock params ctx.toBlockContext true b = .ok ()
  zerocoins : ∀ tx ∈ b.vtx, ctx.parseAndValidateZerocoinSpends tx ≠ .error replacesCoin

/-- **Transaction ids.** In every run whose blocks consist of a coinbase and of transactions that
consume a coin or a nullifier, the ids of the transactions of the active chain are different. The
next block creates no output whose id an unspent coin has, and connecting its transactions never
fails in `AddCoin`. -/
theorem transaction_ids_distinct (hzero : params.hashGenesisBlock ≠ 0)
    (h : ActiveChain S params zc genesisRoot (Block.Consumes T) links s) :
    (links.flatMap fun link => link.block.vtx.map hash).Nodup ∧
      (∀ link s', link.block.Consumes T → ConnectTip S params zc genesisRoot links s link s' →
        s.TxsNew link.entry.nHeight link.block.vtx) ∧
      ∀ b pindex ctx, b.Consumes T → Offered params zc links b pindex ctx →
        ∀ st : ConnectState, st.view.toView.Wf S → st.view.toView.state root = s →
          connectTxs root params ctx pindex st b.vtx ≠ .error replacesCoin := by
  obtain ⟨hl, hbuilt, rfl⟩ := h.built hgenesis hzero
  obtain ⟨hledger, -⟩ := hbuilt.facts
  refine ⟨(map_hash_historyOf links).nodup_iff.mp hledger.ids, fun link s' hblock hstep => ?_,
    fun b pindex ctx hblock hoffered st hv hstate => ?_⟩
  · exact (hstep.settles hl hbuilt hblock).2.2
  · obtain ⟨cctx, hcheck⟩ := hoffered.accepted
    have hb := CoinsViewCache.Becomes.refl hv
    rw [hstate] at hb
    have hheights : ∀ e ∈ historyOf links, e.1 ≠ pindex.nHeight := by
      intro e he
      have := hl.height_of_mem_historyOf e he
      rw [hoffered.height]
      omega
    exact hledger.connectTxs_ne_replaces (checkBlock_inv hoffered.checked) hblock.1 hblock.2
      (contextualCheckBlock_inv hcheck).2 hheights hoffered.zerocoins hb

end

/-! ### A chain without repetitions, and one with -/

namespace Sample

/-- A network where a coinbase can be spent in the next block. -/
def quickParams : ConsensusParams := { chainParams with nCoinbaseMaturity := 1 }

/-- Spends the first coinbase. -/
def spendCoinbase : Transaction := { coinbaseFor 1 with hash := 12, vin := [⟨⟨1001, 0⟩, []⟩] }

def spendTxs : Txs where
  mem tx := tx ∈ [coinbaseFor 1, coinbaseFor 2, spendCoinbase]
  injective := by
    have hall : ∀ tx ∈ [coinbaseFor 1, coinbaseFor 2, spendCoinbase],
        ∀ tx' ∈ [coinbaseFor 1, coinbaseFor 2, spendCoinbase], tx.hash = tx'.hash → tx = tx' := by
      decide +kernel
    intro tx tx' ht ht' heq
    exact hall tx ht tx' ht' heq

instance (tx : Transaction) : Decidable (spendTxs.mem tx) :=
  inferInstanceAs (Decidable (tx ∈ [coinbaseFor 1, coinbaseFor 2, spendCoinbase]))

/-- A block with the output of `inputless` that is created once more. -/
def inputlessBlock (hash : Uint256) (nHeight : Nat) : Block := ⟨hash, [coinbaseFor nHeight, inputless], 0⟩

end Sample

open Sample

/-- A coinbase is spent in the second block: the ids are different. -/
theorem spent_coinbase_ids_distinct :
    ∃ links s, ActiveChain emptyTrees quickParams noZerocoins 0 (Block.Consumes spendTxs) links s ∧
      (links.flatMap fun link => link.block.vtx.map hash) = [1002, 12, 1001] ∧
      (links.flatMap fun link => link.block.vtx.map hash).Nodup := by
  have hgenesis : networkUpgradeActive 0 quickParams.upgradeV5_0 = true → (0 : Uint256) = sizeRoot .empty :=
    fun hactive => absurd hactive (by decide)
  obtain ⟨_, _, _, h⟩ := connectTwo_chain emptyTrees (Block.Consumes spendTxs) ⟨201, [coinbaseFor 1], 0⟩
    ⟨202, [coinbaseFor 2, spendCoinbase], 0⟩ hgenesis rfl ⟨⟨by decide +kernel, by decide⟩,
    by decide +kernel, by decide +kernel⟩ (by decide) (by decide +kernel) (by decide +kernel)
    ⟨rfl, rfl⟩ (by decide +kernel)
  exact ⟨_, _, h, rfl, (transaction_ids_distinct hgenesis (by decide) h).1⟩

/-- **A transaction without inputs comes twice.** Two blocks with it are connected one after the
other. A block that is accepted and has it twice makes `AddCoin` throw. -/
theorem inputless_comes_twice :
    (∃ links s, ActiveChain emptyTrees chainParams noZerocoins 0 (fun _ => True) links s ∧
      ¬ (links.flatMap fun link => link.block.vtx.map hash).Nodup) ∧
    contextualCheckBlock chainParams noZerocoins contextualContext 1
      ⟨201, [coinbaseFor 1, inputless, inputless], 0⟩ = .ok () ∧
    connectBlock sizeRoot chainParams connectContext false
      ⟨201, [coinbaseFor 1, inputless, inputless], 0⟩ firstEntry genesisView = .error replacesCoin := by
  refine ⟨?_, by decide +kernel, by decide +kernel⟩
  obtain ⟨_, _, _, h⟩ := connectTwo_chain emptyTrees (fun _ => True) (inputlessBlock 201 1)
    (inputlessBlock 202 2) (fun hactive => absurd hactive (by decide)) rfl ⟨trivial, trivial⟩
    (by decide) (by decide +kernel) (by decide +kernel) ⟨rfl, rfl⟩ (by decide +kernel)
  have hids : ¬ [(1002 : Uint256), 5, 1001, 5].Nodup := by decide
  exact ⟨_, _, h, hids⟩

/-! ### Transactions with one side only -/

/-- **When a checked transaction has both sides**, an input or a shielded spend, and an output or a
shielded output. The two tests for that look into the Sapling data, and pass if there is none. -/
theorem checkTransaction_sides_iff {params : ConsensusParams} {ctx : BlockContext}
    {tx : Transaction} (h : checkTransaction params ctx tx = .ok ()) :
    ((tx.vin ≠ [] ∨ ∃ sap ∈ tx.sapData, sap.vShieldedSpend ≠ []) ∧
      (tx.vout ≠ [] ∨ ∃ sap ∈ tx.sapData, sap.vShieldedOutput ≠ [])) ↔
      (tx.sapData = none → tx.vin ≠ [] ∧ tx.vout ≠ []) := by
  simp only [checkTransaction, bind_ok, rejectIf_ok] at h
  obtain ⟨-, hvin, -, hvout, -⟩ := h
  cases hs : tx.sapData with
  | none => simp
  | some sap =>
    simp only [hs, Option.any_some, Bool.and_eq_false_iff, List.isEmpty_eq_false_iff] at hvin hvout
    simpa using ⟨hvin, hvout⟩

/-- A transaction that only has shielded inputs. -/
theorem spendTx_sides :
    checkTransaction saplingParams connectContext.toBlockContext spendTx = .ok () ∧
      (spendTx.vin ≠ [] ∨ ∃ sap ∈ spendTx.sapData, sap.vShieldedSpend ≠ []) ∧
      (spendTx.vout ≠ [] ∨ ∃ sap ∈ spendTx.sapData, sap.vShieldedOutput ≠ []) := by
  have h : checkTransaction saplingParams connectContext.toBlockContext spendTx = .ok () := by
    decide +kernel
  exact ⟨h, (checkTransaction_sides_iff h).mpr (by decide)⟩

/-- The transaction without inputs is accepted. -/
theorem inputless_has_no_source :
    checkTransaction chainParams connectContext.toBlockContext inputless = .ok () ∧
      ¬ (inputless.vin ≠ [] ∨ ∃ sap ∈ inputless.sapData, sap.vShieldedSpend ≠ []) :=
  ⟨by decide +kernel, by simp [inputless]⟩

end KmushiCoin
