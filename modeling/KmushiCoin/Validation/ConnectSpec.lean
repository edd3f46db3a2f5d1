import KmushiCoin.Validation.CoinSteps

/-!
# KmushiCoin.Validation.ConnectSpec

**Connecting a block, by the contents of the view.** Each function of `ConnectBlock` is tied to what
it does to the state of the view it is given:

* a read leaves the state as it is and answers by it;
* `UpdateCoins` is `ViewState.updateCoins`, and the undo data are the coins of the state;
* a transaction that connects (`TxConnects`) had its coins, new nullifiers and known anchors, and
  values in range;
* a block that connects (`Connects`) does so transaction by transaction, and ends in the state that
  `ViewState.connectBlock` says.
-/

namespace KmushiCoin

open Transaction List Bool

variable {root : SaplingMerkleTree → Uint256} {S : Trees root}

variable {nHeight : Nat} {undo : TxUndo}

namespace CoinsViewCache

variable {v₀ v v' : CoinsViewCache} {s : ViewState} (h : v₀.Becomes S s v)
include h

/-- One more call on a view whose state is known. -/
theorem Becomes.step {f : ViewState → ViewState} (h' : v.Becomes S (f (v.toView.state root)) v') :
    v₀.Becomes S (f s) v' := by
  rw [← h.toView_state]
  exact h.trans h'

/-! ### Reading the inputs -/

theorem Becomes.haveCoins (vin : List TxIn) : v₀.Becomes S s (v.haveCoins vin).2 ∧
      ((v.haveCoins vin).1 = true ↔ ∀ txin ∈ vin, s.coins[txin.prevout]? ≠ none) := by
  induction vin generalizing v with
  | nil => exact ⟨h, by simp [CoinsViewCache.haveCoins]⟩
  | cons txin vin ih =>
    obtain ⟨hb, hfound⟩ := haveCoin_spec h.toView_wf txin.prevout
    rw [h.toView_state] at hb hfound
    rw [forall_mem_cons, ← Option.isSome_iff_ne_none, ← hfound]
    unfold CoinsViewCache.haveCoins
    rcases hf : v.haveCoin txin.prevout with ⟨found, v₁⟩
    rw [hf] at hb
    cases found with
    | false => exact ⟨h.trans hb, by simp⟩
    | true =>
      obtain ⟨hrest, hall⟩ := ih (h.trans hb)
      exact ⟨hrest, hall.trans (and_iff_right rfl).symm⟩

theorem Becomes.haveInputs (tx : Transaction) :
    v₀.Becomes S s (v.haveInputs tx).2 ∧ ((v.haveInputs tx).1 = true ↔
      (tx.spendsCoins = true → ∀ txin ∈ tx.vin, s.coins[txin.prevout]? ≠ none)) := by
  have hspends : (!tx.isCoinBase && !tx.hasZerocoinSpendInputs) = tx.spendsCoins := rfl
  rw [CoinsViewCache.haveInputs, hspends]
  cases tx.spendsCoins with
  | false => exact ⟨h, by simp⟩
  | true =>
    obtain ⟨hb, hall⟩ := h.haveCoins tx.vin
    exact ⟨hb, hall.trans ⟨fun hcoins _ => hcoins, fun hcoins => hcoins rfl⟩⟩

theorem Becomes.accessCoins (vin : List TxIn) : v₀.Becomes S s (v.accessCoins vin).2 ∧
      (v.accessCoins vin).1 = vin.map fun txin => s.coins[txin.prevout]?.getD .empty := by
  induction vin generalizing v with
  | nil => exact ⟨h, rfl⟩
  | cons txin vin ih =>
    obtain ⟨hb, hcoin⟩ := accessCoin_spec h.toView_wf txin.prevout
    rw [h.toView_state] at hb hcoin
    obtain ⟨hrest, hcoins⟩ := ih (h.trans hb)
    simp only [CoinsViewCache.accessCoins, map_cons]
    exact ⟨hrest, by rw [hcoin, hcoins]⟩

theorem Becomes.addValueIns (zerocoinValue : TxIn → Int) (vin : List TxIn) (n : Int) :
    v₀.Becomes S s (vin.foldl (addValueIn zerocoinValue) (n, v)).2 := by
  induction vin generalizing v n with
  | nil => exact h
  | cons txin vin ih =>
    rw [foldl_cons, addValueIn]
    split_ifs
    · exact ih h _
    · obtain ⟨hb, -⟩ := accessCoin_spec h.toView_wf txin.prevout
      rw [h.toView_state] at hb
      exact ih (h.trans hb) _

variable {tx : Transaction}

theorem Becomes.getValueIn {zerocoinValue : TxIn → Int} {n : Int}
    (hok : v.getValueIn zerocoinValue tx = .ok (n, v')) : v₀.Becomes S s v' := by
  unfold CoinsViewCache.getValueIn at hok
  split_ifs at hok
  · obtain ⟨-, rfl⟩ := ok_pair hok
    exact h
  · obtain ⟨nShielded, -, hok⟩ := bind_ok.mp hok
    obtain ⟨-, rfl⟩ := ok_pair hok
    exact h.addValueIns zerocoinValue tx.vin 0

theorem Becomes.getP2SHSigOpCount (p2shSigOps : Script → Script → Nat) (tx : Transaction)
    : v₀.Becomes S s (v.getP2SHSigOpCount p2shSigOps tx).2 := by
  unfold CoinsViewCache.getP2SHSigOpCount
  split_ifs
  · exact h
  · exact (h.accessCoins tx.vin).1

theorem Becomes.haveShieldedRequirements (tx : Transaction) :
    v₀.Becomes S s (v.haveShieldedRequirements root tx).2 ∧
      ((v.haveShieldedRequirements root tx).1 = true ↔ ∀ d ∈ tx.shieldedSpends, s.SpendAllowed d) := by
  have ⟨hb, hmet⟩ := haveSpendsRequirements_spec tx.shieldedSpends h.toView_wf
  rw [h.toView_state] at hb hmet
  exact ⟨h.trans hb, hmet⟩

/-! ### Updating the coins -/

theorem Becomes.spendCoins (vin : List TxIn) :
    v₀.Becomes S (s.spendInputs vin) (v.spendCoins vin).2 ∧
      (v.spendCoins vin).1 = s.spentCoins vin := by
  induction vin generalizing v s with
  | nil => exact ⟨h, rfl⟩
  | cons txin vin ih =>
    obtain ⟨hb, hanswer⟩ := spendCoin_spec h.toView_wf txin.prevout
    have hcoin := hanswer.getD
    rw [h.toView_state] at hcoin
    obtain ⟨hrest, hundo⟩ := ih (h.step (f := fun s => s.spend txin.prevout) hb)
    simp only [CoinsViewCache.spendCoins, ViewState.spendInputs, ViewState.spentCoins]
    exact ⟨hrest, by rw [hcoin, hundo]⟩

/-- The outputs of a transaction that are stored are added one after the other, where no coin hides
another one. -/
theorem Becomes.addOutputs {coin : TxOut → Coin} (hcoin : ∀ out, (coin out).out = out)
    {outputs : List (OutPoint × TxOut)} (hnodup : (outputs.map Prod.fst).Nodup)
    (hok : outputs.foldlM (fun v e => v.addCoin e.1 (coin e.2) false) v = .ok v') :
    v₀.Becomes S (s.addAll ((outputs.filter fun e =>
        !Script.isUnspendable e.2.scriptPubKey && !e.2.isZerocoinMint).map fun e => (e.1, coin e.2)))
      v' ∧
    ∀ e ∈ outputs.filter fun e => !Script.isUnspendable e.2.scriptPubKey && !e.2.isZerocoinMint,
      s.hidden[e.1]? = none := by
  induction outputs generalizing v s with
  | nil =>
    cases hok
    exact ⟨h, by simp⟩
  | cons e outputs ih =>
    obtain ⟨v₁, hadd, hok⟩ := bind_ok.mp hok
    obtain ⟨-, hb⟩ := addCoin_inv h.toView_wf hadd
    have hstored : (coin e.2).isStored =
        (!Script.isUnspendable e.2.scriptPubKey && !e.2.isZerocoinMint) := by
      rw [Coin.isStored, hcoin]
    obtain ⟨hnew, hnodup⟩ := nodup_cons.mp hnodup
    obtain ⟨hnext, hhidden⟩ := ih (h.step (f := fun s => s.addCoin e.1 (coin e.2) false) hb) hnodup hok
    simp only [ViewState.addCoin, hstored, false_eq_true, if_false] at hnext hhidden
    rw [filter_cons]
    split_ifs at hnext hhidden ⊢ with hkept
    · refine ⟨hnext, forall_mem_cons.mpr ⟨?_, fun e' he' => ?_⟩⟩
      · have hnone := addCoin_hidden h.toView_wf (hstored.trans hkept) hadd
        rwa [h.toView_state] at hnone
      · have hne : e.1 ≠ e'.1 := fun heq =>
          hnew (heq ▸ mem_map_of_mem (mem_of_mem_filter he'))
        rw [← ViewState.get_hidden_add_ne hne s (coin e.2)]
        exact hhidden e' he'
    · exact ⟨hnext, hhidden⟩

theorem Becomes.addCoins (hok : v.addCoins tx nHeight false = .ok v') :
    v₀.Becomes S (s.addAll (tx.newCoins nHeight)) v' ∧
      ∀ e ∈ tx.storedOutputs, s.hidden[e.1]? = none :=
  h.addOutputs (fun _ => rfl) tx.outputs_nodup hok

theorem Becomes.updateCoins (hok : v.updateCoins tx nHeight = .ok (undo, v')) :
    v₀.Becomes S (s.updateCoins nHeight tx) v' ∧ undo = s.txUndo tx ∧ ∀ e ∈ tx.storedOutputs,
        (if tx.spendsCoins then s.spendInputs tx.vin else s).hidden[e.1]? = none := by
  unfold CoinsViewCache.updateCoins at hok
  unfold ViewState.updateCoins ViewState.txUndo
  -- the nullifiers and the new coins, once the inputs are spent
  have hrest : ∀ {s₁ : ViewState} {v₁ : CoinsViewCache}, v₀.Becomes S s₁ v₁ →
      (v₁.setNullifiers tx true).addCoins tx nHeight false = .ok v' →
      v₀.Becomes S ((s₁.setNullifiers tx true).addAll (tx.newCoins nHeight)) v' ∧
        ∀ e ∈ tx.storedOutputs, s₁.hidden[e.1]? = none := by
    intro s₁ v₁ h₁ hadd
    obtain ⟨hb, hhidden⟩ := (h₁.step (f := fun s => s.setNullifiers tx true)
      (setNullifiers_spec h₁.toView_wf tx true)).addCoins hadd
    rw [(ViewState.setNullifiers_frame s₁ tx true).2.1] at hhidden
    exact ⟨hb, hhidden⟩
  by_cases hspends : tx.spendsCoins = true
  · rw [if_pos hspends] at hok
    obtain ⟨hspend, hundo⟩ := h.spendCoins tx.vin
    obtain ⟨v₁, hadd, hok⟩ := bind_ok.mp hok
    obtain ⟨rfl, rfl⟩ := ok_pair hok
    rw [if_pos hspends, if_pos hspends]
    obtain ⟨hb, hhidden⟩ := hrest hspend hadd
    exact ⟨hb, hundo, hhidden⟩
  · rw [if_neg hspends] at hok
    obtain ⟨v₁, hadd, hok⟩ := bind_ok.mp hok
    obtain ⟨rfl, rfl⟩ := ok_pair hok
    rw [if_neg hspends, if_neg hspends]
    obtain ⟨hb, hhidden⟩ := hrest h hadd
    exact ⟨hb, rfl, hhidden⟩

end CoinsViewCache

open CoinsViewCache

/-! ### Connecting -/

section
variable {params : ConsensusParams} {ctx : ConnectContext} {v₀ v v' : CoinsViewCache}
  {s : ViewState} {tx : Transaction}

/-- The value of the coins at these inputs. -/
def ViewState.valueOf (s : ViewState) (vin : List TxIn) : Int :=
  (vin.map fun txin => (s.coins[txin.prevout]?.getD .empty).out.nValue).sum

variable {nSpendHeight : Nat} {st st' : ConnectState} {pindex : BlockEntry} {txs : List Transaction}

/-- An input that passes has a coin, with a value in range. -/
theorem CoinsViewCache.Becomes.checkTxInput (h : v₀.Becomes S s v) {n n' : Int} {txin}
    (hok : KmushiCoin.checkTxInput params nSpendHeight (n, v) txin = .ok (n', v')) :
    v₀.Becomes S s v' ∧ s.coins[txin.prevout]? ≠ none ∧
      params.moneyRange (s.coins[txin.prevout]?.getD .empty).out.nValue = true ∧
      params.moneyRange n' = true ∧
      n' = wrap64 (n + (s.coins[txin.prevout]?.getD .empty).out.nValue) := by
  obtain ⟨hb, hcoin⟩ := accessCoin_spec h.toView_wf txin.prevout
  rw [h.toView_state] at hb hcoin
  simp only [KmushiCoin.checkTxInput, bind_ok, assert_ok, rejectIf_ok, or_eq_false_iff,
    not_eq_false'] at hok
  obtain ⟨-, hspent, -, -, -, ⟨hvalue, hsum⟩, hok⟩ := hok
  obtain ⟨rfl, rfl⟩ := ok_pair hok
  rw [hcoin] at hspent hvalue hsum ⊢
  refine ⟨h.trans hb, fun hnone => ?_, hvalue, hsum, rfl⟩
  rw [hnone] at hspent
  exact absurd hspent (by decide)

/-- The loop over the inputs adds their values up. -/
theorem CoinsViewCache.Becomes.checkTxInputLoop (h : v₀.Becomes S s v) {n n' : Int} {vin}
    (hok : vin.foldlM (KmushiCoin.checkTxInput params nSpendHeight) (n, v) = .ok (n', v'))
    (hn : params.moneyRange n = true) :
    v₀.Becomes S s v' ∧ params.moneyRange n' = true ∧ n' = n + s.valueOf vin := by
  induction vin generalizing v n with
  | nil =>
    obtain ⟨rfl, rfl⟩ := ok_pair hok
    exact ⟨h, hn, by simp [ViewState.valueOf]⟩
  | cons txin vin ih =>
    obtain ⟨⟨n₁, v₁⟩, hstep, hok⟩ := bind_ok.mp hok
    obtain ⟨hb, -, hvalue, hsum, heq⟩ := h.checkTxInput hstep
    obtain ⟨hrest, hrange, hn'⟩ := ih hb hok hsum
    refine ⟨hrest, hrange, ?_⟩
    rw [ConsensusParams.moneyRange_iff] at hn hvalue
    have hmax := params.nMaxMoneyOut_le
    unfold COIN at hmax
    rw [wrap64_eq (by omega) (by omega)] at heq
    rw [hn', heq, ViewState.valueOf, ViewState.valueOf, map_cons, sum_cons]
    omega

/-- What the test of the inputs says about values. -/
structure InputsChecked (params : ConsensusParams) (s : ViewState) (tx : Transaction) : Prop where
  range : params.moneyRange (s.valueOf tx.vin) = true
  /-- A coinstake is free of the test. -/
  fee : tx.isCoinStake = false → ∃ nShielded nValueOut, tx.getShieldedValueIn = .ok nShielded ∧
    tx.getValueOut = .ok nValueOut ∧ nValueOut ≤ wrap64 (s.valueOf tx.vin + nShielded) ∧
    params.moneyRange (wrap64 (wrap64 (s.valueOf tx.vin + nShielded) - nValueOut)) = true

theorem checkTxFee_ok {nValueIn : Int} (hok : checkTxFee params tx nValueIn = .ok ())
    (hstake : tx.isCoinStake = false) :
    ∃ nValueOut, tx.getValueOut = .ok nValueOut ∧ nValueOut ≤ nValueIn ∧
      params.moneyRange (wrap64 (nValueIn - nValueOut)) = true := by
  unfold checkTxFee at hok
  rw [hstake, if_neg Bool.false_ne_true] at hok
  simp only [bind_ok, rejectIf_ok, decide_eq_false_iff_not, not_lt, Bool.not_eq_false'] at hok
  obtain ⟨nValueOut, hout, -, hle, -, -, hrange⟩ := hok
  exact ⟨nValueOut, hout, hle, hrange⟩

theorem CoinsViewCache.Becomes.checkTxInputs (h : v₀.Becomes S s v)
    (hok : KmushiCoin.checkTxInputs root params nSpendHeight v tx = .ok v') :
    v₀.Becomes S s v' ∧ InputsChecked params s tx := by
  unfold KmushiCoin.checkTxInputs at hok
  obtain ⟨hinputs, -⟩ := h.haveInputs tx
  obtain ⟨_, -, hok⟩ := bind_ok.mp hok
  obtain ⟨hshielded, -⟩ := hinputs.haveShieldedRequirements tx
  obtain ⟨_, -, hok⟩ := bind_ok.mp hok
  obtain ⟨⟨nValueIn, v₁⟩, hloop, hok⟩ := bind_ok.mp hok
  have hzero : params.moneyRange 0 = true :=
    ConsensusParams.moneyRange_iff.mpr ⟨le_rfl, params.nMaxMoneyOut_nonneg⟩
  obtain ⟨hb, hrange, heq⟩ := hshielded.checkTxInputLoop hloop hzero
  rw [zero_add] at heq
  subst heq
  obtain ⟨nShielded, hsh, hok⟩ := bind_ok.mp hok
  obtain ⟨_, hfee, hok⟩ := bind_ok.mp hok
  cases hok
  refine ⟨hb, hrange, fun hstake => ?_⟩
  obtain ⟨nValueOut, hout, hle, hfee⟩ := checkTxFee_ok hfee hstake
  exact ⟨nShielded, nValueOut, hsh, hout, hle, hfee⟩

theorem CoinsViewCache.Becomes.checkInputs (h : v₀.Becomes S s v)
    (hok : KmushiCoin.checkInputs root params ctx nSpendHeight v tx = .ok v') :
    v₀.Becomes S s v' ∧ (tx.spendsCoins = true → InputsChecked params s tx) := by
  unfold KmushiCoin.checkInputs at hok
  split_ifs at hok with hspends hscripts
  · obtain ⟨v₁, hinputs, hok⟩ := bind_ok.mp hok
    obtain ⟨hb, hchecked⟩ := h.checkTxInputs hinputs
    simp only [bind_ok] at hok
    obtain ⟨-, -, -, -, hok⟩ := hok
    cases hok
    exact ⟨(hb.accessCoins tx.vin).1, fun _ => hchecked⟩
  · obtain ⟨v₁, hinputs, hok⟩ := bind_ok.mp hok
    cases hok
    obtain ⟨hb, hchecked⟩ := h.checkTxInputs hinputs
    exact ⟨hb, fun _ => hchecked⟩
  · cases hok
    exact ⟨h, fun htrue => absurd htrue hspends⟩

/-- The requirements of a transaction that is not a coinbase or a zerocoin spend. -/
theorem CoinsViewCache.Becomes.checkRequirements (h : v₀.Becomes S s v) {isV5UpgradeEnforced}
    {n n' : Nat}
    (hok : KmushiCoin.checkRequirements root ctx isV5UpgradeEnforced n v tx = .ok (n', v')) :
    v₀.Becomes S s v' ∧ (tx.spendsCoins = true →
      (∀ txin ∈ tx.vin, s.coins[txin.prevout]? ≠ none) ∧ ∀ d ∈ tx.shieldedSpends, s.SpendAllowed d) := by
  unfold KmushiCoin.checkRequirements at hok
  split_ifs at hok with hzc hbase
  · obtain ⟨_, -, hok⟩ := bind_ok.mp hok
    obtain ⟨-, rfl⟩ := ok_pair hok
    simp only [and_eq_true] at hzc
    exact ⟨h, by simp [spendsCoins, hzc.2]⟩
  · obtain ⟨hinputs, hfound⟩ := h.haveInputs tx
    obtain ⟨_, hhave, hok⟩ := bind_ok.mp hok
    obtain ⟨hshielded, hmet⟩ := hinputs.haveShieldedRequirements tx
    obtain ⟨_, hreq, hok⟩ := bind_ok.mp hok
    have hsig := hshielded.getP2SHSigOpCount ctx.p2shSigOps tx
    obtain ⟨_, -, hok⟩ := bind_ok.mp hok
    obtain ⟨-, rfl⟩ := ok_pair hok
    rw [rejectIf_ok, not_eq_false'] at hhave hreq
    exact ⟨hsig, fun hspends => ⟨hfound.mp hhave hspends, hmet.mp hreq⟩⟩
  · obtain ⟨-, rfl⟩ := ok_pair hok
    simp only [not_eq_true', not_eq_false] at hbase
    exact ⟨h, by simp [spendsCoins, hbase]⟩

theorem connectValues_ok (h : v₀.Becomes S s st.view)
    (hok : connectValues root params ctx nSpendHeight st tx = .ok st') :
    v₀.Becomes S s st'.view ∧ (tx.spendsCoins = true → InputsChecked params s tx) ∧
      st'.vtxundo = st.vtxundo ∧ st'.saplingTree = st.saplingTree := by
  unfold connectValues at hok
  obtain ⟨txValueOut, -, hok⟩ := bind_ok.mp hok
  by_cases hbase : (!tx.isCoinBase) = true
  · rw [if_pos hbase] at hok
    obtain ⟨⟨txValueIn, v₁⟩, hin, hok⟩ := bind_ok.mp hok
    obtain ⟨v₂, hinputs, hok⟩ := bind_ok.mp hok
    cases hok
    obtain ⟨hb, hchecked⟩ := (h.getValueIn hin).checkInputs hinputs
    exact ⟨hb, hchecked, rfl, rfl⟩
  · rw [if_neg hbase] at hok
    cases hok
    simp only [not_eq_true', not_eq_false] at hbase
    exact ⟨h, by simp [spendsCoins, hbase], rfl, rfl⟩

/-- The stages of a transaction. -/
theorem connectTx_inv (hok : connectTx root params ctx pindex st tx = .ok (undo, st')) :
    ∃ n v₁ st₂ v₃,
      checkRequirements root ctx (networkUpgradeActive pindex.nHeight params.upgradeV5_0)
        (st.nSigOps + ctx.legacySigOps tx) st.view tx = .ok (n, v₁) ∧
      connectValues root params ctx pindex.nHeight { st with nSigOps := n, view := v₁ } tx = .ok st₂ ∧
      st₂.view.updateCoins tx pindex.nHeight = .ok (undo, v₃) ∧
      st' = { st₂ with
        view := v₃
        saplingTree := (tx.shieldedOutputs.map (·.cmu)).foldl SaplingMerkleTree.append st₂.saplingTree } := by
  unfold connectTx at hok
  obtain ⟨_, -, hok⟩ := bind_ok.mp hok
  obtain ⟨_, -, hok⟩ := bind_ok.mp hok
  obtain ⟨⟨n, v₁⟩, hreq, hok⟩ := bind_ok.mp hok
  obtain ⟨st₂, hvalues, hok⟩ := bind_ok.mp hok
  obtain ⟨⟨undo', v₃⟩, hupdate, hok⟩ := bind_ok.mp hok
  obtain ⟨rfl, rfl⟩ := ok_pair hok
  exact ⟨n, v₁, st₂, v₃, hreq, hvalues, hupdate, rfl⟩

/-- The tree after the outputs of transactions. -/
def SaplingMerkleTree.appendTxs (t : SaplingMerkleTree) : List Transaction → SaplingMerkleTree
  | [] => t
  | tx :: txs =>
    ((tx.shieldedOutputs.map (·.cmu)).foldl SaplingMerkleTree.append t).appendTxs txs

/-- **A transaction that connects** had its coins, new nullifiers and known anchors, and does to
the state what `ViewState.updateCoins` says. -/
structure TxConnects (params : ConsensusParams) (s : ViewState) (tx : Transaction) : Prop
    extends s.TxApplies tx where
  spends : ∀ d ∈ tx.shieldedSpends, s.SpendAllowed d
  values : tx.spendsCoins = true → InputsChecked params s tx

section
variable (htx : TxChecked params tx)
include htx

/-- A coinbase and a zerocoin spend have no shielded part. -/
theorem TxChecked.nullifiers_eq_nil (hfalse : tx.spendsCoins = false) : tx.nullifiers = [] := by
  refine nullifiers_of_not_hasSaplingData (htx.transparent ?_)
  simp only [spendsCoins, and_eq_false_iff, not_eq_false'] at hfalse
  rcases hfalse with hbase | hzc
  · simp [hbase]
  · simp [hzc]

/-- All spends of a checked transaction count. -/
theorem TxChecked.mem_shieldedSpends {sap} (hsap : tx.sapData = some sap)
    {d} (hd : d ∈ sap.vShieldedSpend) : d ∈ tx.shieldedSpends := by
  have hdata : tx.hasSaplingData = true := by
    have hne : sap.vShieldedSpend.isEmpty = false := by
      rw [isEmpty_eq_false_iff]
      exact ne_nil_of_mem hd
    simp [hasSaplingData, hsap, hne]
  have hshielded : tx.isShieldedTx = true := by
    rw [isShieldedTx, htx.version hdata, hdata]
    rfl
  simp only [shieldedSpends, hsap, hshielded, if_true]
  exact hd

theorem TxChecked.allowed
    (hspends : tx.spendsCoins = true → ∀ d ∈ tx.shieldedSpends, s.SpendAllowed d) :
    ∀ d ∈ tx.shieldedSpends, s.SpendAllowed d := by
  intro d hd
  cases hs : tx.spendsCoins with
  | true => exact hspends hs d hd
  | false =>
    have hmem := mem_map_of_mem (f := (·.nullifier)) hd
    rw [← htx.nullifiers, htx.nullifiers_eq_nil hs] at hmem
    simp at hmem

theorem TxChecked.unmarked (hallowed : ∀ d ∈ tx.shieldedSpends, s.SpendAllowed d) :
    ∀ nf ∈ tx.nullifiers, s.nullifiers[nf]? = none := by
  intro nf hnf
  rw [htx.nullifiers] at hnf
  obtain ⟨d, hd, rfl⟩ := mem_map.mp hnf
  exact (hallowed d hd).1

theorem connectTx_ok (h : v₀.Becomes S s st.view)
    (hok : connectTx root params ctx pindex st tx = .ok (undo, st')) :
    v₀.Becomes S (s.updateCoins pindex.nHeight tx) st'.view ∧ TxConnects params s tx ∧
      undo = s.txUndo tx ∧ st'.vtxundo = st.vtxundo ∧
      st'.saplingTree = st.saplingTree.appendTxs [tx] := by
  obtain ⟨n, v₁, st₂, v₃, hreq, hvalues, hupdate, rfl⟩ := connectTx_inv hok
  obtain ⟨h₁, hspends⟩ := h.checkRequirements hreq
  obtain ⟨h₂, hchecked, hundos, htree⟩ := connectValues_ok h₁ hvalues
  obtain ⟨h₃, hundo, hhidden⟩ := h₂.updateCoins hupdate
  have hallowed := htx.allowed fun hs => (hspends hs).2
  refine ⟨h₃, ⟨⟨fun hs => (hspends hs).1, fun hs => ?_, htx.unmarked hallowed,
    htx.nullifiers_eq_nil, hhidden⟩, hallowed, hchecked⟩, hundo, hundos, by rw [htree]; rfl⟩
  simp only [spendsCoins, and_eq_true, not_eq_true'] at hs
  exact htx.distinct hs.2

end

/-- Each transaction connects in the state before it. -/
def ViewState.TxsConnect (params : ConsensusParams) (s : ViewState) (nHeight : Nat) :
    List Transaction → Prop
  | [] => True
  | tx :: txs => TxConnects params s tx ∧ (s.updateCoins nHeight tx).TxsConnect params nHeight txs

theorem ViewState.TxsConnect.txsApply (h : s.TxsConnect params nHeight txs)
    : s.TxsApply nHeight txs := by
  induction txs generalizing s with
  | nil => trivial
  | cons tx txs ih => exact ⟨h.1.toTxApplies, ih h.2⟩

/-- The transactions after the first one: the undo data is kept in their order. -/
theorem connectNextTxs_ok (htxs : ∀ tx ∈ txs, TxChecked params tx) (h : v₀.Becomes S s st.view)
    (hok : txs.foldlM (connectNextTx root params ctx pindex) st = .ok st') :
    v₀.Becomes S (s.applyTxs pindex.nHeight txs) st'.view ∧ s.TxsConnect params pindex.nHeight txs ∧
      st'.vtxundo = st.vtxundo ++ s.blockUndo pindex.nHeight txs ∧
      st'.saplingTree = st.saplingTree.appendTxs txs := by
  induction txs generalizing s st with
  | nil =>
    cases hok
    exact ⟨h, trivial, by simp [ViewState.blockUndo], rfl⟩
  | cons tx txs ih =>
    obtain ⟨st₁, hnext, hok⟩ := bind_ok.mp hok
    obtain ⟨⟨undo, st₂⟩, htx, hnext⟩ := bind_ok.mp hnext
    cases hnext
    obtain ⟨hchecked, htxs⟩ := forall_mem_cons.mp htxs
    obtain ⟨h₁, hconn, hundo, hundos, htree⟩ := connectTx_ok hchecked h htx
    have hkept : v₀.Becomes S (s.updateCoins pindex.nHeight tx)
        ({ st₂ with vtxundo := st₂.vtxundo ++ [undo] } : ConnectState).view := h₁
    obtain ⟨h₂, hconns, hundos', htree'⟩ := ih htxs hkept hok
    refine ⟨h₂, ⟨hconn, hconns⟩, ?_, ?_⟩
    · rw [hundos', hundo, hundos, ViewState.blockUndo, append_assoc, singleton_append]
    · rw [htree', htree]
      rfl

theorem connectTxs_ok (htxs : ∀ tx ∈ txs, TxChecked params tx) (hempty : st.vtxundo = [])
    (h : v₀.Becomes S s st.view) (hok : connectTxs root params ctx pindex st txs = .ok st') :
    v₀.Becomes S (s.applyTxs pindex.nHeight txs) st'.view ∧ s.TxsConnect params pindex.nHeight txs ∧
      st'.vtxundo = (s.blockUndo pindex.nHeight txs).tail ∧
      st'.saplingTree = st.saplingTree.appendTxs txs := by
  cases txs with
  | nil =>
    cases hok
    exact ⟨h, trivial, hempty, rfl⟩
  | cons coinbase txs =>
    obtain ⟨⟨undo, st₁⟩, hbase, hok⟩ := bind_ok.mp hok
    obtain ⟨hchecked, htxs⟩ := forall_mem_cons.mp htxs
    obtain ⟨h₁, hconn, -, hundos, htree⟩ := connectTx_ok hchecked h hbase
    obtain ⟨h₂, hconns, hundos', htree'⟩ := connectNextTxs_ok htxs h₁ hok
    refine ⟨h₂, ⟨hconn, hconns⟩, ?_, ?_⟩
    · rw [hundos', hundos, hempty]
      rfl
    · rw [htree', htree]
      rfl

/-- What the state becomes when a block is connected over a tree. -/
def ViewState.connectBlock (root : SaplingMerkleTree → Uint256) (s : ViewState) (nHeight : Nat)
    (b : Block) (tree : SaplingMerkleTree) : ViewState :=
  ((s.applyTxs nHeight b.vtx).pushAnchor root (tree.appendTxs b.vtx)).setBestBlock b.hash

/-- **What is known of a block that connects** on a state. -/
structure Connects (S : Trees root) (params : ConsensusParams) (s : ViewState) (b : Block)
    (pindex : BlockEntry) (tree : SaplingMerkleTree) : Prop where
  block : BlockChecked params b
  prev : s.bestBlock = (pindex.pprev.map (·.hash)).getD 0
  anchor : s.anchors[s.bestAnchor]? = some tree
  tree_mem : S.mem tree ∧ root tree = s.bestAnchor
  txs : s.TxsConnect params pindex.nHeight b.vtx
  finalRoot : networkUpgradeActive pindex.nHeight params.upgradeV5_0 = true →
    b.hashFinalSaplingRoot = root (tree.appendTxs b.vtx)

theorem connectTransactions_ok {b} {undo}
    (hblock : ∀ tx ∈ b.vtx, TxChecked params tx) (h : v₀.Becomes S s v)
    (htrees : ∀ tree, s.anchors[s.bestAnchor]? = some tree → S.mem (tree.appendTxs b.vtx))
    (hok : connectTransactions root params ctx pindex b v = .ok (undo, v')) :
    ∃ tree, s.anchors[s.bestAnchor]? = some tree ∧ (S.mem tree ∧ root tree = s.bestAnchor) ∧
      s.TxsConnect params pindex.nHeight b.vtx ∧
      v₀.Becomes S ((s.applyTxs pindex.nHeight b.vtx).pushAnchor root (tree.appendTxs b.vtx)) v' ∧
      undo = (s.blockUndo pindex.nHeight b.vtx).tail ∧
      (networkUpgradeActive pindex.nHeight params.upgradeV5_0 = true →
        b.hashFinalSaplingRoot = root (tree.appendTxs b.vtx)) := by
  unfold connectTransactions at hok
  obtain ⟨hb, hrt⟩ := getBestAnchor_spec h.toView_wf
  rw [h.toView_state] at hb hrt
  have h₁ := h.trans hb
  obtain ⟨hb', hread, htree⟩ := getSaplingAnchorAt_spec h₁.toView_wf s.bestAnchor
  rw [h₁.toView_state] at hb' hread
  simp only [hrt] at hok
  rcases hget : (v.getBestAnchor root).2.getSaplingAnchorAt root s.bestAnchor with ⟨found, v₂⟩
  rw [hget] at hok hb' hread htree
  cases found with
  | none => cases hok
  | some tree =>
    obtain ⟨st, htxs, hok⟩ := bind_ok.mp hok
    obtain ⟨h₂, hconns, hundo, hafter⟩ := connectTxs_ok hblock rfl (h₁.trans hb') htxs
    obtain ⟨_, hroot, hok⟩ := bind_ok.mp hok
    obtain ⟨_, -, hok⟩ := bind_ok.mp hok
    obtain ⟨rfl, rfl⟩ := ok_pair hok
    refine ⟨tree, hread.symm, htree tree rfl, hconns, ?_, hundo, fun hactive => ?_⟩
    · rw [hafter]
      exact h₂.step (f := fun s => s.pushAnchor root (tree.appendTxs b.vtx))
        (pushAnchor_spec h₂.toView_wf (htrees tree hread.symm))
    · rwa [rejectIf_ok, hactive, Bool.true_and, bne_eq_false_iff_eq, hafter] at hroot

/-- The block is not the genesis block, and the tree that it leaves is one of those in use. -/
theorem connectBlock_ok {b} {undo} (hv : v.toView.Wf S)
    (hgenesis : b.hash ≠ params.hashGenesisBlock) (hhash : b.hash ≠ 0)
    (htrees : ∀ tree, (v.toView.state root).anchors[(v.toView.state root).bestAnchor]? = some tree → S.mem (tree.appendTxs b.vtx))
    (hok : connectBlock root params ctx false b pindex v = .ok (undo, v')) :
    ∃ tree, Connects S params (v.toView.state root) b pindex tree ∧
      v.Becomes S ((v.toView.state root).connectBlock root pindex.nHeight b tree) v' ∧
      undo = some ((v.toView.state root).blockUndo pindex.nHeight b.vtx).tail := by
  unfold connectBlock at hok
  obtain ⟨_, hcheck, hok⟩ := bind_ok.mp hok
  have hblock := checkBlock_inv hcheck
  obtain ⟨hbest, hprev⟩ := getBestBlock_spec hv
  obtain ⟨_, hassert, hok⟩ := bind_ok.mp hok
  obtain ⟨_, -, hok⟩ := bind_ok.mp hok
  obtain ⟨_, -, hok⟩ := bind_ok.mp hok
  rw [if_neg hgenesis] at hok
  obtain ⟨_, -, hok⟩ := bind_ok.mp hok
  obtain ⟨⟨vtxundo, v₁⟩, htxs, hok⟩ := bind_ok.mp hok
  obtain ⟨rfl, rfl⟩ := ok_pair hok
  obtain ⟨tree, hanchor, hmem, htxs, hb, hundo, hroot⟩ := connectTransactions_ok hblock.txs hbest htrees htxs
  have hparent := (beq_iff_eq.mp (assert_ok.mp hassert)).trans hprev
  refine ⟨tree, ⟨hblock, hparent.symm, hanchor, hmem, htxs, hroot⟩, ?_, by rw [hundo]⟩
  exact hb.step (f := fun s => s.setBestBlock b.hash)
    (setBestBlock_spec hb.toView_wf hhash)

end

end KmushiCoin
