import KmushiCoin.Validation.ConnectBlock

/-!
# KmushiCoin.Validation.CoinSteps

**What a block does to the contents of a view**, without the caches: the coins of the inputs
are spent, the nullifiers marked and the outputs added (`ViewState.updateCoins`), and what
taking it back does (`ViewState.disconnectTx`).

* A step on one outpoint commutes with a step on another one.
* Adding a coin is taken back by spending it. Spending a coin is taken back by adding it,
  **unless the coin hid another one**, that is there after the spend: then the way back finds a
  coin where there should be none.
* So the way back over a list of transactions is clean exactly when no input spends a coin that
  hides another one (`disconnectTxs_clean_iff`), and then it ends where it started.
-/

namespace KmushiCoin

open List

variable {o a : OutPoint} {s : ViewState} {nHeight : Nat}

namespace ViewState

/-! ### Steps at different outpoints -/

theorem setCoin_setCoin (s : ViewState) (o : OutPoint) (c h c' h' : Option Coin) :
    (s.setCoin o c h).setCoin o c' h' = s.setCoin o c' h' := by
  refine ext' (FMap.ext fun a => ?_) (FMap.ext fun a => ?_) rfl rfl rfl rfl
  all_goals
    simp only [get_setCoin, get_hidden_setCoin]
    split_ifs <;> rfl

theorem setCoin_comm (hne : o ≠ a) (s : ViewState) (c h c' h' : Option Coin) :
    (s.setCoin o c h).setCoin a c' h' = (s.setCoin a c' h').setCoin o c h := by
  refine ext' (FMap.ext fun x => ?_) (FMap.ext fun x => ?_) rfl rfl rfl rfl
  all_goals
    simp only [get_setCoin, get_hidden_setCoin]
    split_ifs with h₁ h₂
    · exact absurd (h₂.trans h₁.symm) hne
    all_goals rfl

theorem get_add_ne (hne : o ≠ a) (s : ViewState) (c : Coin) :
    (s.add o c).coins[a]? = s.coins[a]? := by
  rw [add, get_setCoin, if_neg hne]

theorem get_hidden_add_ne (hne : o ≠ a) (s : ViewState) (c : Coin) :
    (s.add o c).hidden[a]? = s.hidden[a]? := by
  rw [add, get_hidden_setCoin, if_neg hne]

theorem get_spend_ne (hne : o ≠ a) (s : ViewState) : (s.spend o).coins[a]? = s.coins[a]? := by
  rw [spend, get_setCoin, if_neg hne]

theorem get_spend_self (s : ViewState) (o : OutPoint) : (s.spend o).coins[o]? = s.hidden[o]? := by
  rw [spend, get_setCoin, if_pos rfl]

theorem spend_add_comm (hne : o ≠ a) (s : ViewState) (c : Coin) :
    (s.add o c).spend a = (s.spend a).add o c := by
  rw [spend, get_hidden_add_ne hne, add, setCoin_comm hne, add, spend, get_setCoin, if_neg hne.symm]

/-- A coin that was added over nothing hidden is taken back by spending it. -/
theorem spend_add (hhidden : s.hidden[o]? = none) (c : Coin) : (s.add o c).spend o = s := by
  rw [spend, add, get_hidden_setCoin, if_pos rfl, setCoin_setCoin, setCoin_self rfl hhidden]

/-- A coin that was spent and hid nothing is put back by adding it. -/
theorem add_spend {c} (hcoin : s.coins[o]? = some c) (hhidden : s.hidden[o]? = none)
    : (s.spend o).add o c = s := by
  rw [add, get_spend_self, hhidden, spend, setCoin_setCoin, setCoin_self hcoin hhidden]

/-! ### The steps of a transaction -/

def spendInputs (s : ViewState) : List TxIn → ViewState
  | [] => s
  | txin :: vin => (s.spend txin.prevout).spendInputs vin

/-- The coins that the inputs spend, one after the other. -/
def spentCoins (s : ViewState) : List TxIn → List Coin
  | [] => []
  | txin :: vin => s.coins[txin.prevout]?.getD .empty :: (s.spend txin.prevout).spentCoins vin

def addAll (s : ViewState) : List (OutPoint × Coin) → ViewState
  | [] => s
  | (o, c) :: coins => (s.add o c).addAll coins

/-- Spend what is at these outputs; false when one of them is not there as it should be. -/
def removeOutputs (s : ViewState) : List (OutPoint × TxOut) → Bool × ViewState
  | [] => (true, s)
  | (o, out) :: outputs =>
    let r := (s.spend o).removeOutputs outputs
    (out == (s.coins[o]?.getD .empty).out && r.1, r.2)

/-- Put a coin back, over a coin that is there. -/
def restore (s : ViewState) (o : OutPoint) (c : Coin) : ViewState :=
  s.addCoin o c s.coins[o]?.isSome

/-- Put the coins of the inputs back, the last one first; false when one was there. -/
def restoreInputs (s : ViewState) : List (TxIn × Coin) → Bool × ViewState
  | [] => (true, s)
  | (txin, c) :: inputs =>
    let r := s.restoreInputs inputs
    (r.1 && r.2.coins[txin.prevout]?.isNone, r.2.restore txin.prevout c)

end ViewState

namespace Transaction

/-- The outputs that are kept as coins: those that can never be spent are left out. -/
def storedOutputs (tx : Transaction) : List (OutPoint × TxOut) :=
  tx.outputs.filter fun (_, out) => !Script.isUnspendable out.scriptPubKey && !out.isZerocoinMint

/-- The coins that a transaction creates. -/
def newCoins (tx : Transaction) (nHeight : Nat) : List (OutPoint × Coin) :=
  tx.storedOutputs.map fun (o, out) => (o, tx.coinOf nHeight out)

/-- The outpoints of a transaction are different. -/
theorem outputs_nodup (tx : Transaction) : (tx.outputs.map Prod.fst).Nodup := by
  rw [outputs, map_map, Nodup, pairwise_map]
  have hidx : (tx.vout.zipIdx.map Prod.snd).Nodup := by
    rw [zipIdx_map_snd]
    exact nodup_range'
  rw [Nodup, pairwise_map] at hidx
  refine hidx.imp_of_mem fun {a b} ha hb hne heq => hne ?_
  have hn : UInt32.ofNat a.2 = UInt32.ofNat b.2 := congrArg OutPoint.n heq
  have hlt := tx.vout_lt
  have ha' := snd_lt_of_mem_zipIdx ha
  have hb' := snd_lt_of_mem_zipIdx hb
  have hnat := congrArg UInt32.toNat hn
  rwa [UInt32.toNat_ofNat_of_lt' (by simp only [UInt32.size]; omega),
    UInt32.toNat_ofNat_of_lt' (by simp only [UInt32.size]; omega)] at hnat

/-- The outpoints of a transaction have its id. -/
theorem hash_of_mem_outputs (tx : Transaction) {e} (he : e ∈ tx.outputs) : e.1.hash = tx.hash := by
  obtain ⟨_, _, rfl⟩ := mem_map.mp he
  rfl

theorem hash_of_mem_newCoins (tx : Transaction) {e} (he : e ∈ tx.newCoins nHeight)
    : e.1.hash = tx.hash := by
  obtain ⟨e', he', rfl⟩ := mem_map.mp he
  exact tx.hash_of_mem_outputs (mem_of_mem_filter he')

theorem storedOutputs_nodup (tx : Transaction) : (tx.storedOutputs.map Prod.fst).Nodup :=
  tx.outputs_nodup.sublist (filter_sublist.map _)

end Transaction

namespace ViewState

def updateCoins (s : ViewState) (nHeight : Nat) (tx : Transaction) : ViewState :=
  ((if tx.spendsCoins then s.spendInputs tx.vin else s).setNullifiers tx true).addAll
    (tx.newCoins nHeight)

/-- The undo data of a transaction. -/
def txUndo (s : ViewState) (tx : Transaction) : TxUndo :=
  if tx.spendsCoins then s.spentCoins tx.vin else []

def disconnectTx (s : ViewState) (tx : Transaction) (undo : TxUndo) : Bool × ViewState :=
  let r := s.removeOutputs tx.storedOutputs
  if tx.spendsCoins then
    let r' := (r.2.setNullifiers tx false).restoreInputs (tx.vin.zip undo)
    (r.1 && r'.1, r'.2)
  else r

/-! ### What the steps leave alone -/

/-- The states differ in their coins at most. -/
structure CoinsOnly (s s' : ViewState) : Prop where
  nullifiers : s'.nullifiers = s.nullifiers
  anchors : s'.anchors = s.anchors
  bestAnchor : s'.bestAnchor = s.bestAnchor
  bestBlock : s'.bestBlock = s.bestBlock

theorem setCoin_coinsOnly (s : ViewState) (o : OutPoint) (c h : Option Coin) :
    CoinsOnly s (s.setCoin o c h) := ⟨rfl, rfl, rfl, rfl⟩

theorem CoinsOnly.trans {s' s''} (h : CoinsOnly s s') (h' : CoinsOnly s' s'') : CoinsOnly s s'' :=
  ⟨h'.nullifiers.trans h.nullifiers, h'.anchors.trans h.anchors, h'.bestAnchor.trans h.bestAnchor,
    h'.bestBlock.trans h.bestBlock⟩

theorem spendInputs_coinsOnly (s : ViewState) (vin : List TxIn) :
    CoinsOnly s (s.spendInputs vin) := by
  induction vin generalizing s with
  | nil => exact ⟨rfl, rfl, rfl, rfl⟩
  | cons txin vin ih => exact (setCoin_coinsOnly s _ _ _).trans (ih _)

theorem addAll_coinsOnly (s : ViewState) (coins : List (OutPoint × Coin)) :
    CoinsOnly s (s.addAll coins) := by
  induction coins generalizing s with
  | nil => exact ⟨rfl, rfl, rfl, rfl⟩
  | cons e coins ih => exact (setCoin_coinsOnly s _ _ _).trans (ih _)

/-! ### Taking outputs back -/

variable {coins : List (OutPoint × Coin)} {tx : Transaction}

theorem addAll_spend_comm (hne : ∀ e ∈ coins, e.1 ≠ a) (s : ViewState) :
    (s.addAll coins).spend a = (s.spend a).addAll coins := by
  induction coins generalizing s with
  | nil => rfl
  | cons e coins ih =>
    rw [forall_mem_cons] at hne
    rw [addAll, ih hne.2, spend_add_comm hne.1]
    rfl

theorem get_addAll_ne (hne : ∀ e ∈ coins, e.1 ≠ a) (s : ViewState)
    : (s.addAll coins).coins[a]? = s.coins[a]? := by
  induction coins generalizing s with
  | nil => rfl
  | cons e coins ih =>
    rw [forall_mem_cons] at hne
    rw [addAll, ih hne.2, get_add_ne hne.1]

/-- Outputs that were added over nothing hidden are taken back, in their order. -/
theorem removeOutputs_addAll {outputs} (coin : TxOut → Coin)
    (hcoin : ∀ out, (coin out).out = out) (hnodup : (outputs.map Prod.fst).Nodup)
    (hhidden : ∀ e ∈ outputs, s.hidden[e.1]? = none) :
    (s.addAll (outputs.map fun e => (e.1, coin e.2))).removeOutputs outputs = (true, s) := by
  induction outputs generalizing s with
  | nil => rfl
  | cons e outputs ih =>
    obtain ⟨o, out⟩ := e
    rw [map_cons, nodup_cons] at hnodup
    rw [forall_mem_cons] at hhidden
    have hne : ∀ e ∈ outputs.map fun e => (e.1, coin e.2), e.1 ≠ o := by
      intro e he heq
      obtain ⟨e', he', rfl⟩ := mem_map.mp he
      exact hnodup.1 (mem_map.mpr ⟨e', he', heq⟩)
    have hthere : ((s.add o (coin out)).addAll (outputs.map fun e => (e.1, coin e.2))).coins[o]? =
        some (coin out) := by
      rw [get_addAll_ne hne, add, get_setCoin, if_pos rfl]
    have hrest := ih hnodup.2 hhidden.2
    simp only [map_cons, addAll, removeOutputs, hthere, addAll_spend_comm hne,
      spend_add hhidden.1, hrest, Option.getD_some, hcoin, beq_self_eq_true, Bool.and_self]

/-! ### Taking inputs back -/

/-- Inputs are taken back cleanly exactly when none of them hid a coin. -/
theorem restoreInputs_spendInputs {vin} (hnodup : (vin.map TxIn.prevout).Nodup)
    (hcoins : ∀ txin ∈ vin, ∃ c, s.coins[txin.prevout]? = some c ∧ c.isStored = true) :
    (((s.spendInputs vin).restoreInputs (vin.zip (s.spentCoins vin))).1 = true ↔
      ∀ txin ∈ vin, s.hidden[txin.prevout]? = none) ∧
    ((∀ txin ∈ vin, s.hidden[txin.prevout]? = none) →
      ((s.spendInputs vin).restoreInputs (vin.zip (s.spentCoins vin))).2 = s) := by
  induction vin generalizing s with
  | nil => simp [restoreInputs, spendInputs]
  | cons txin vin ih =>
    rw [map_cons, nodup_cons] at hnodup
    rw [forall_mem_cons] at hcoins
    obtain ⟨⟨c, hc, hstored⟩, hcoins⟩ := hcoins
    have hne : ∀ t ∈ vin, txin.prevout ≠ t.prevout := fun t ht heq =>
      hnodup.1 (heq ▸ mem_map_of_mem ht)
    have hiff : (∀ t ∈ vin, (s.spend txin.prevout).hidden[t.prevout]? = none) ↔
        ∀ t ∈ vin, s.hidden[t.prevout]? = none :=
      forall₂_congr fun t ht => by rw [spend, get_hidden_setCoin, if_neg (hne t ht)]
    obtain ⟨hclean, hstate⟩ := ih hnodup.2 (s := s.spend txin.prevout) fun t ht => by
      rw [get_spend_ne (hne t ht)]
      exact hcoins t ht
    rw [hiff] at hclean hstate
    simp only [spendInputs, spentCoins, zip_cons_cons, restoreInputs, hc, Option.getD_some,
      forall_mem_cons, Bool.and_eq_true, Option.isNone_iff_eq_none, hclean]
    -- the inputs after this one are back: what is at its outpoint is what it hid
    refine ⟨⟨fun h => ⟨?_, h.1⟩, fun h => ⟨h.2, ?_⟩⟩, fun h => ?_⟩
    · rw [← get_spend_self s txin.prevout, ← hstate h.1]
      exact h.2
    · rw [hstate h.2, get_spend_self]
      exact h.1
    · rw [hstate h.2, restore, get_spend_self, h.1, addCoin, if_pos hstored]
      exact add_spend hc h.1

/-! ### Taking nullifiers back -/

theorem get_setNullifiers (s : ViewState) (tx : Transaction) (spent : Bool) (nf : Uint256) :
    (s.setNullifiers tx spent).nullifiers[nf]? =
      if nf ∈ tx.nullifiers then (if spent then some () else none) else s.nullifiers[nf]? := by
  unfold setNullifiers
  induction tx.nullifiers generalizing s with
  | nil => simp
  | cons a l ih =>
    rw [foldl_cons, ih, setNullifier, setNullifierTo, FMap.get_alter]
    by_cases ha : a = nf
    · simp [ha]
    · simp [ha, Ne.symm ha]

theorem setNullifiers_frame (s : ViewState) (tx : Transaction) (spent : Bool) :
    (s.setNullifiers tx spent).coins = s.coins ∧ (s.setNullifiers tx spent).hidden = s.hidden ∧
      (s.setNullifiers tx spent).anchors = s.anchors ∧
      (s.setNullifiers tx spent).bestAnchor = s.bestAnchor ∧
      (s.setNullifiers tx spent).bestBlock = s.bestBlock := by
  unfold setNullifiers
  induction tx.nullifiers generalizing s with
  | nil => exact ⟨rfl, rfl, rfl, rfl, rfl⟩
  | cons a l ih => exact ih (s.setNullifier a spent)

/-- Nullifiers that were not there before they were marked are taken back. -/
theorem setNullifiers_setNullifiers (hnew : ∀ nf ∈ tx.nullifiers, s.nullifiers[nf]? = none) :
    (s.setNullifiers tx true).setNullifiers tx false = s := by
  obtain ⟨h₁, h₂, h₃, h₄, h₅⟩ := setNullifiers_frame s tx true
  obtain ⟨k₁, k₂, k₃, k₄, k₅⟩ := setNullifiers_frame (s.setNullifiers tx true) tx false
  refine ext' (k₁.trans h₁) (k₂.trans h₂) (FMap.ext fun nf => ?_) (k₃.trans h₃) (k₄.trans h₄)
    (k₅.trans h₅)
  rw [get_setNullifiers, get_setNullifiers]
  split_ifs with hmem hfalse
  · cases hfalse
  · exact (hnew nf hmem).symm
  · rfl

/-! ### Taking transactions back -/

/-- The coins and nullifiers that a transaction relies on, in the state before it. -/
structure TxApplies (s : ViewState) (tx : Transaction) : Prop where
  coins : tx.spendsCoins = true → ∀ txin ∈ tx.vin, s.coins[txin.prevout]? ≠ none
  distinct : tx.spendsCoins = true → (tx.vin.map TxIn.prevout).Nodup
  nullifiers : ∀ nf ∈ tx.nullifiers, s.nullifiers[nf]? = none
  transparent : tx.spendsCoins = false → tx.nullifiers = []
  /-- A coin is added where no coin hides another one. -/
  outputs : ∀ e ∈ tx.storedOutputs,
    (if tx.spendsCoins then s.spendInputs tx.vin else s).hidden[e.1]? = none

/-- No input of the transaction spends a coin that hides another one. -/
def RevealsNone (s : ViewState) (tx : Transaction) : Prop :=
  tx.spendsCoins = true → ∀ txin ∈ tx.vin, s.hidden[txin.prevout]? = none

instance (s : ViewState) (tx : Transaction) : Decidable (s.RevealsNone tx) :=
  inferInstanceAs (Decidable (_ → _))

/-- The coins of the state are kept by a cache that adds them. -/
def Stored (s : ViewState) : Prop :=
  s.coins.All (fun _ c => c.isStored = true) ∧ s.hidden.All fun _ c => c.isStored = true

instance (s : ViewState) : Decidable s.Stored := inferInstanceAs (Decidable (_ ∧ _))

theorem disconnectTx_updateCoins (nHeight : Nat) (htx : s.TxApplies tx) (hstored : s.Stored) :
    (((s.updateCoins nHeight tx).disconnectTx tx (s.txUndo tx)).1 = true ↔ s.RevealsNone tx) ∧
    (s.RevealsNone tx → ((s.updateCoins nHeight tx).disconnectTx tx (s.txUndo tx)).2 = s) := by
  have hhidden : ∀ e ∈ tx.storedOutputs,
      ((if tx.spendsCoins then s.spendInputs tx.vin else s).setNullifiers tx true).hidden[e.1]? =
        none := by
    intro e he
    rw [(setNullifiers_frame _ tx true).2.1]
    exact htx.outputs e he
  have hremove := removeOutputs_addAll (tx.coinOf nHeight) (fun _ => rfl) tx.storedOutputs_nodup
    hhidden
  unfold updateCoins txUndo disconnectTx RevealsNone
  rw [Transaction.newCoins, hremove]
  cases hspends : tx.spendsCoins with
  | false =>
    -- a coinbase: there is nothing but its outputs
    have hnull : s.setNullifiers tx true = s := by
      simp [setNullifiers, htx.transparent hspends]
    simp [hnull]
  | true =>
    have hcoins : ∀ txin ∈ tx.vin, ∃ c, s.coins[txin.prevout]? = some c ∧ c.isStored = true := by
      intro txin htxin
      obtain ⟨c, hc⟩ := Option.ne_none_iff_exists'.mp (htx.coins hspends txin htxin)
      exact ⟨c, hc, hstored.1 hc⟩
    have hback : ((s.spendInputs tx.vin).setNullifiers tx true).setNullifiers tx false =
        s.spendInputs tx.vin := by
      refine setNullifiers_setNullifiers fun nf hnf => ?_
      rw [(spendInputs_coinsOnly s tx.vin).nullifiers]
      exact htx.nullifiers nf hnf
    simp only [if_true, hback, Bool.true_and, true_implies]
    exact restoreInputs_spendInputs (htx.distinct hspends) hcoins

/-! ### Taking blocks back -/

def applyTxs (s : ViewState) (nHeight : Nat) : List Transaction → ViewState
  | [] => s
  | tx :: txs => (s.updateCoins nHeight tx).applyTxs nHeight txs

/-- The undo data of transactions. -/
def blockUndo (s : ViewState) (nHeight : Nat) : List Transaction → BlockUndo
  | [] => []
  | tx :: txs => s.txUndo tx :: (s.updateCoins nHeight tx).blockUndo nHeight txs

/-- Take transactions back, the last one first. -/
def disconnectTxs (s : ViewState) : List (Transaction × TxUndo) → Bool × ViewState
  | [] => (true, s)
  | (tx, undo) :: txs =>
    let r := s.disconnectTxs txs
    let r' := r.2.disconnectTx tx undo
    (r.1 && r'.1, r'.2)

/-- Each transaction has what it relies on, in the state before it. -/
def TxsApply (s : ViewState) (nHeight : Nat) : List Transaction → Prop
  | [] => True
  | tx :: txs => s.TxApplies tx ∧ (s.updateCoins nHeight tx).TxsApply nHeight txs

/-- No input of the transactions spends a coin that hides another one, in the state it is spent. -/
def TxsRevealNone (s : ViewState) (nHeight : Nat) : List Transaction → Prop
  | [] => True
  | tx :: txs => s.RevealsNone tx ∧ (s.updateCoins nHeight tx).TxsRevealNone nHeight txs

instance decidableTxsRevealNone (s : ViewState) (nHeight : Nat) :
    (txs : List Transaction) → Decidable (s.TxsRevealNone nHeight txs)
  | [] => isTrue trivial
  | tx :: txs =>
    haveI := decidableTxsRevealNone (s.updateCoins nHeight tx) nHeight txs
    inferInstanceAs (Decidable (_ ∧ _))

/-- Every coin has the property, also those that are hidden. -/
def AllCoins (P : Coin → Bool) (s : ViewState) : Prop :=
  s.coins.All (fun _ c => P c = true) ∧ s.hidden.All fun _ c => P c = true

namespace AllCoins

variable {P : Coin → Bool}

theorem setCoin (h : s.AllCoins P) {c d} (hc : ∀ x, c = some x → P x = true)
    (hd : ∀ x, d = some x → P x = true) : (s.setCoin o c d).AllCoins P := by
  constructor
  · intro a x hx
    rw [get_setCoin] at hx
    split_ifs at hx
    · exact hc x hx
    · exact h.1 hx
  · intro a x hx
    rw [get_hidden_setCoin] at hx
    split_ifs at hx
    · exact hd x hx
    · exact h.2 hx

theorem spendInputs (h : s.AllCoins P) (vin : List TxIn) : (s.spendInputs vin).AllCoins P := by
  induction vin generalizing s with
  | nil => exact h
  | cons txin vin ih => exact ih (h.setCoin (fun _ hx => h.2 hx) (by simp))

theorem addAll (h : s.AllCoins P) (hcoins : ∀ e ∈ coins, P e.2 = true) :
    (s.addAll coins).AllCoins P := by
  induction coins generalizing s with
  | nil => exact h
  | cons e coins ih =>
    rw [forall_mem_cons] at hcoins
    exact ih (h.setCoin (by rintro _ ⟨⟩; exact hcoins.1) fun _ hx => h.1 hx) hcoins.2

theorem updateCoins (h : s.AllCoins P) (hnew : ∀ e ∈ tx.newCoins nHeight, P e.2 = true) :
    (s.updateCoins nHeight tx).AllCoins P := by
  refine addAll ?_ hnew
  obtain ⟨hcoins, hhidden, -⟩ := setNullifiers_frame
    (if tx.spendsCoins then s.spendInputs tx.vin else s) tx true
  rw [AllCoins, hcoins, hhidden]
  split_ifs
  · exact h.spendInputs tx.vin
  · exact h

theorem applyTxs {txs} (h : s.AllCoins P)
    (hnew : ∀ tx ∈ txs, ∀ e ∈ tx.newCoins nHeight, P e.2 = true) :
    (s.applyTxs nHeight txs).AllCoins P := by
  induction txs generalizing s with
  | nil => exact h
  | cons tx txs ih =>
    rw [forall_mem_cons] at hnew
    exact ih (h.updateCoins hnew.1) hnew.2

end AllCoins

theorem isStored_of_mem_newCoins : ∀ e ∈ tx.newCoins nHeight, e.2.isStored = true := by
  intro e he
  obtain ⟨e', he', rfl⟩ := mem_map.mp he
  exact (mem_filter.mp he').2

/-- **The way back.** It is clean exactly when no input spends a coin that hides another one,
and then it ends in the state before. -/
theorem disconnectTxs_clean_iff {txs} (htxs : s.TxsApply nHeight txs) (hstored : s.Stored) :
    (((s.applyTxs nHeight txs).disconnectTxs (txs.zip (s.blockUndo nHeight txs))).1 = true ↔
      s.TxsRevealNone nHeight txs) ∧ (s.TxsRevealNone nHeight txs →
      ((s.applyTxs nHeight txs).disconnectTxs (txs.zip (s.blockUndo nHeight txs))).2 = s) := by
  induction txs generalizing s with
  | nil => simp [disconnectTxs, applyTxs, TxsRevealNone]
  | cons tx txs ih =>
    obtain ⟨hclean, hstate⟩ := ih htxs.2
      (AllCoins.updateCoins (P := Coin.isStored) hstored isStored_of_mem_newCoins)
    obtain ⟨hclean', hstate'⟩ := disconnectTx_updateCoins nHeight htxs.1 hstored
    simp only [applyTxs, blockUndo, zip_cons_cons, disconnectTxs, TxsRevealNone,
      Bool.and_eq_true, hclean]
    refine ⟨⟨fun h => ⟨?_, h.1⟩, fun h => ⟨h.2, ?_⟩⟩, fun h => ?_⟩
    · have htx := h.2
      rw [hstate h.1] at htx
      exact hclean'.mp htx
    · rw [hstate h.2]
      exact hclean'.mpr h.1
    · rw [hstate h.2]
      exact hstate' h.1

end ViewState

end KmushiCoin
