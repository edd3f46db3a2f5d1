import KmushiCoin.Validation.ContextualCheck
import KmushiCoin.Validation.DisconnectSpec

/-!
# KmushiCoin.Validation.Ledger

**The coins of a chain and the transactions that made them.** `Ledger` ties a state to the
transactions that were applied to it, with the heights of their blocks:

* the transaction ids are different;
* every coin is an output of one of the transactions;
* what a transaction spent is gone, and its nullifiers are marked.

A transaction that **consumes** something, a coin or a nullifier, cannot come twice: what it
consumed is gone. A coinbase cannot come twice because it names the height of its block. Nothing
keeps a transaction without inputs from coming twice, and `CheckTransaction` lets one through when
it has no Sapling data at all.
-/

namespace KmushiCoin

open List

variable {root : SaplingMerkleTree → Uint256} {S : Trees root}

/-! ### States without hidden coins -/

namespace ViewState

/-- Nothing is hidden. -/
def Plain (s : ViewState) : Prop := ∀ o : OutPoint, s.hidden[o]? = none

variable {s : ViewState}

theorem Plain.spendInputs (hs : s.Plain) (vin : List TxIn) :
    (s.spendInputs vin).Plain ∧ ∀ o : OutPoint, (s.spendInputs vin).coins[o]? =
      if o ∈ vin.map TxIn.prevout then none else s.coins[o]? := by
  induction vin generalizing s with
  | nil => exact ⟨hs, fun o => by simp [ViewState.spendInputs]⟩
  | cons txin vin ih =>
    have hspend : (s.spend txin.prevout).Plain := by
      intro o
      rw [spend, get_hidden_setCoin]
      split_ifs
      · rfl
      · exact hs o
    obtain ⟨hplain, hcoins⟩ := ih hspend
    refine ⟨hplain, fun o => ?_⟩
    have hone : (s.spend txin.prevout).coins[o]? =
        if txin.prevout = o then none else s.coins[o]? := by
      rw [spend, get_setCoin, hs txin.prevout]
    rw [ViewState.spendInputs, hcoins, hone, map_cons]
    by_cases hmem : o ∈ vin.map TxIn.prevout
    · simp [hmem]
    · by_cases heq : txin.prevout = o
      · simp [heq]
      · simp [hmem, heq, Ne.symm heq]

theorem Plain.addAll (hs : s.Plain) {coins}
    (hnodup : (coins.map Prod.fst).Nodup) (hnew : ∀ e ∈ coins, s.coins[e.1]? = none) :
    (s.addAll coins).Plain ∧ ∀ o : OutPoint, (s.addAll coins).coins[o]? =
      (coins.lookup o).or s.coins[o]? := by
  induction coins generalizing s with
  | nil => exact ⟨hs, fun o => by simp [ViewState.addAll]⟩
  | cons e coins ih =>
    obtain ⟨a, c⟩ := e
    have hlookup := FMap.lookup_none_of_nodup hnodup
    obtain ⟨hnotin, hnodup⟩ := nodup_cons.mp hnodup
    obtain ⟨hfirst, hnew⟩ := forall_mem_cons.mp hnew
    have hadd : (s.add a c).Plain := by
      intro o
      rw [add, get_hidden_setCoin]
      split_ifs
      · exact hfirst
      · exact hs o
    have hnew' : ∀ e ∈ coins, (s.add a c).coins[e.1]? = none := by
      intro e he
      have hne : a ≠ e.1 := fun heq => hnotin (mem_map.mpr ⟨e, he, heq.symm⟩)
      rw [get_add_ne hne]
      exact hnew e he
    obtain ⟨hplain, hcoins⟩ := ih hadd hnodup hnew'
    refine ⟨hplain, fun o => ?_⟩
    rw [ViewState.addAll, hcoins, add, get_setCoin, lookup_cons]
    by_cases heq : o = a
    · subst heq
      simp [hlookup]
    · have hbeq : (o == a) = false := beq_eq_false_iff_ne.mpr heq
      simp [hbeq, Ne.symm heq]

/-- The coins after a transaction whose id no coin has. -/
theorem Plain.updateCoins (hs : s.Plain) {tx} (nHeight : Nat)
    (hnew : ∀ o : OutPoint, o.hash = tx.hash → s.coins[o]? = none) :
    (s.updateCoins nHeight tx).Plain ∧ ∀ o : OutPoint, (s.updateCoins nHeight tx).coins[o]? =
      ((tx.newCoins nHeight).lookup o).or
        (if tx.spendsCoins = true ∧ o ∈ tx.vin.map TxIn.prevout then none else s.coins[o]?) := by
  have hspent : (if tx.spendsCoins then s.spendInputs tx.vin else s).Plain ∧
      ∀ o : OutPoint, (if tx.spendsCoins then s.spendInputs tx.vin else s).coins[o]? =
        if tx.spendsCoins = true ∧ o ∈ tx.vin.map TxIn.prevout then none else s.coins[o]? := by
    by_cases hspends : tx.spendsCoins = true
    · simp only [hspends, if_true, true_and]
      exact hs.spendInputs tx.vin
    · simp only [hspends]
      exact ⟨hs, fun _ => rfl⟩
  obtain ⟨hcoins, hhidden, -⟩ := setNullifiers_frame
    (if tx.spendsCoins then s.spendInputs tx.vin else s) tx true
  have hplain : ((if tx.spendsCoins then s.spendInputs tx.vin else s).setNullifiers tx true).Plain := by
    intro o
    rw [hhidden]
    exact hspent.1 o
  have hfst : (tx.newCoins nHeight).map Prod.fst = tx.storedOutputs.map Prod.fst := by
    simp [Transaction.newCoins, Function.comp_def]
  have hfree : ∀ e ∈ tx.newCoins nHeight,
      ((if tx.spendsCoins then s.spendInputs tx.vin else s).setNullifiers tx true).coins[e.1]? = none := by
    intro e he
    rw [hcoins, hspent.2]
    split_ifs
    · rfl
    · exact hnew e.1 (tx.hash_of_mem_newCoins he)
  obtain ⟨hres, hget⟩ := hplain.addAll (hfst ▸ tx.storedOutputs_nodup) hfree
  refine ⟨hres, fun o => ?_⟩
  rw [ViewState.updateCoins, hget, hcoins, hspent.2]

end ViewState

/-! ### Transactions and their ids -/

/-- The transactions in use, told apart by their ids. -/
structure Txs where
  mem : Transaction → Prop
  injective : ∀ {tx tx' : Transaction}, mem tx → mem tx' → tx.hash = tx'.hash → tx = tx'

/-- The transaction uses something up that is there once: a coin or a nullifier. -/
def Transaction.Consumes (tx : Transaction) : Prop :=
  (tx.spendsCoins = true ∧ tx.vin ≠ []) ∨ tx.nullifiers ≠ []

instance (tx : Transaction) : Decidable tx.Consumes := inferInstanceAs (Decidable (_ ∨ _))

/-- **A state and the transactions that led to it**, with the heights of their blocks. -/
structure Ledger (T : Txs) (s : ViewState) (hist : List (Nat × Transaction)) : Prop where
  plain : s.Plain
  mem : ∀ e ∈ hist, T.mem e.2
  ids : (hist.map fun e => e.2.hash).Nodup
  coins : ∀ (o : OutPoint) (c : Coin), s.coins[o]? = some c → ∃ e ∈ hist, e.2.hash = o.hash
  spent : ∀ e ∈ hist, e.2.spendsCoins = true → ∀ txin ∈ e.2.vin,
    s.coins[txin.prevout]? = none ∧ ∃ e' ∈ hist, e'.2.hash = txin.prevout.hash
  nullifiers : ∀ e ∈ hist, ∀ nf ∈ e.2.nullifiers, s.nullifiers[nf]? = some ()
  coinbases : ∀ e ∈ hist, e.2.isCoinBase = true → e.1 < 2 ^ 31 ∧ e.2.CommitsTo e.1

/-- No coin has the id of a transaction when that is applied. -/
def ViewState.TxsNew (s : ViewState) (nHeight : Nat) : List Transaction → Prop
  | [] => True
  | tx :: txs => (∀ o : OutPoint, o.hash = tx.hash → s.coins[o]? = none) ∧
    (s.updateCoins nHeight tx).TxsNew nHeight txs

variable {txs : List Transaction}

namespace Ledger

variable {T : Txs} {s : ViewState} {hist : List (Nat × Transaction)} {tx : Transaction} {nHeight : Nat}

/-- What the transaction is asked for when it arrives: it consumes something that is there, or it is
the coinbase of a height that no transaction before has. -/
def Arrives (s : ViewState) (hist : List (Nat × Transaction)) (nHeight : Nat) (tx : Transaction) : Prop :=
  (tx.Consumes ∧ (tx.spendsCoins = true → ∀ txin ∈ tx.vin, s.coins[txin.prevout]? ≠ none) ∧
    ∀ nf ∈ tx.nullifiers, s.nullifiers[nf]? = none) ∨
  (tx.isCoinBase = true ∧ tx.CommitsTo nHeight ∧ ∀ e ∈ hist, e.1 ≠ nHeight)

/-- **Its id is new.** -/
theorem fresh (h : Ledger T s hist) (htx : T.mem tx) (hlt : nHeight < 2 ^ 31)
    (harrives : Arrives s hist nHeight tx) : ∀ e ∈ hist, e.2.hash ≠ tx.hash := by
  intro e he hid
  have heq : e.2 = tx := T.injective (h.mem e he) htx hid
  rcases harrives with ⟨hconsumes, hcoins, hnull⟩ | ⟨hbase, hcommits, hheights⟩
  · rcases hconsumes with ⟨hspends, hvin⟩ | hnf
    · -- the first input is spent already
      obtain ⟨txin, htxin⟩ := exists_mem_of_ne_nil _ hvin
      refine hcoins hspends txin htxin ?_
      rw [← heq] at hspends htxin
      exact (h.spent e he hspends txin htxin).1
    · obtain ⟨nf, hnf⟩ := exists_mem_of_ne_nil _ hnf
      have hnone := hnull nf hnf
      rw [← heq] at hnf
      simp [h.nullifiers e he nf hnf] at hnone
  · rw [← heq] at hbase hcommits
    obtain ⟨hlt', hcommits'⟩ := h.coinbases e he hbase
    exact hheights e he (hcommits'.unique hlt' hlt hcommits)

/-- No coin has the id. -/
theorem coins_new (h : Ledger T s hist) (hnew : ∀ e ∈ hist, e.2.hash ≠ tx.hash) (o : OutPoint)
    (ho : o.hash = tx.hash) : s.coins[o]? = none := by
  rw [Option.eq_none_iff_forall_ne_some]
  intro c hc
  obtain ⟨e, he, hid⟩ := h.coins o c hc
  exact hnew e he (hid.trans ho)

theorem get_nullifiers_updateCoins (s : ViewState) (nHeight : Nat) (tx : Transaction) (nf : Uint256) :
    (s.updateCoins nHeight tx).nullifiers[nf]? =
      if nf ∈ tx.nullifiers then some () else s.nullifiers[nf]? := by
  unfold ViewState.updateCoins
  rw [(ViewState.addAll_coinsOnly _ _).nullifiers, ViewState.get_setNullifiers, if_pos rfl]
  split_ifs
  · rfl
  · rw [(ViewState.spendInputs_coinsOnly s tx.vin).nullifiers]
  · rfl

/-- **The step.** A transaction with a new id is applied. -/
theorem update (h : Ledger T s hist) (htx : T.mem tx) (hlt : nHeight < 2 ^ 31)
    (happlies : s.TxApplies tx) (hnew : ∀ e ∈ hist, e.2.hash ≠ tx.hash)
    (hcommits : tx.isCoinBase = true → tx.CommitsTo nHeight) :
    Ledger T (s.updateCoins nHeight tx) (hist ++ [(nHeight, tx)]) := by
  obtain ⟨hplain, hcoins⟩ := h.plain.updateCoins nHeight (h.coins_new hnew)
  -- an outpoint of an older transaction is none of the new ones
  have hold : ∀ o : OutPoint, (∃ e ∈ hist, e.2.hash = o.hash) →
      (tx.newCoins nHeight).lookup o = none := by
    intro o ⟨e, he, hid⟩
    rw [lookup_eq_none_iff]
    intro p hp
    have hne : o ≠ p.1 := fun heq =>
      hnew e he (hid.trans (heq ▸ tx.hash_of_mem_newCoins hp))
    simpa using hne
  have hinput : tx.spendsCoins = true → ∀ txin ∈ tx.vin, ∃ e ∈ hist, e.2.hash = txin.prevout.hash := by
    intro hspends txin htxin
    obtain ⟨c, hc⟩ := Option.ne_none_iff_exists'.mp (happlies.coins hspends txin htxin)
    exact h.coins _ c hc
  refine ⟨hplain, ?_, ?_, ?_, ?_, ?_, ?_⟩
  · intro e he
    rcases mem_append.mp he with he | he
    · exact h.mem e he
    · rwa [mem_singleton.mp he]
  · rw [map_append, nodup_append]
    refine ⟨h.ids, nodup_singleton _, fun a ha b hb heq => ?_⟩
    obtain ⟨e, he, rfl⟩ := mem_map.mp ha
    rw [mem_singleton.mp hb] at heq
    exact hnew e he heq
  · intro o c hc
    rw [hcoins, Option.or_eq_some_iff] at hc
    rcases hc with hc | ⟨-, hc⟩
    · obtain ⟨l₁, l₂, heq, -⟩ := lookup_eq_some_iff.mp hc
      have hmem : (o, c) ∈ tx.newCoins nHeight := by
        rw [heq]
        simp
      exact ⟨(nHeight, tx), by simp, (tx.hash_of_mem_newCoins hmem).symm⟩
    · split_ifs at hc
      obtain ⟨e, he, hid⟩ := h.coins o c hc
      exact ⟨e, mem_append_left _ he, hid⟩
  · intro e he hspends txin htxin
    rcases mem_append.mp he with he | he
    · obtain ⟨hnone, e', he', hid⟩ := h.spent e he hspends txin htxin
      refine ⟨?_, e', mem_append_left _ he', hid⟩
      rw [hcoins, hold _ ⟨e', he', hid⟩, hnone]
      simp
    · rw [mem_singleton.mp he] at hspends htxin
      obtain ⟨e', he', hid⟩ := hinput hspends txin htxin
      refine ⟨?_, e', mem_append_left _ he', hid⟩
      rw [hcoins, hold _ ⟨e', he', hid⟩, if_pos ⟨hspends, mem_map_of_mem htxin⟩]
      rfl
  · intro e he nf hnf
    rw [get_nullifiers_updateCoins]
    split_ifs with hmem
    · rfl
    · rcases mem_append.mp he with he | he
      · exact h.nullifiers e he nf hnf
      · rw [mem_singleton.mp he] at hnf
        exact absurd hnf hmem
  · intro e he hbase
    rcases mem_append.mp he with he | he
    · exact h.coinbases e he hbase
    · rw [mem_singleton.mp he] at hbase ⊢
      exact ⟨hlt, hcommits hbase⟩

/-- The transactions after the coinbase of a block. -/
theorem applyTxs (h : Ledger T s hist) (hlt : nHeight < 2 ^ 31) (hmem : ∀ tx ∈ txs, T.mem tx)
    (hconsumes : ∀ tx ∈ txs, tx.Consumes) (hbase : ∀ tx ∈ txs, tx.isCoinBase = false)
    (happly : s.TxsApply nHeight txs) :
    Ledger T (s.applyTxs nHeight txs) (hist ++ txs.map (Prod.mk nHeight)) ∧ s.TxsNew nHeight txs := by
  induction txs generalizing s hist with
  | nil => exact ⟨by simpa [ViewState.applyTxs] using h, trivial⟩
  | cons tx txs ih =>
    rw [forall_mem_cons] at hmem hconsumes hbase
    have hnew := h.fresh hmem.1 hlt (.inl ⟨hconsumes.1, happly.1.coins, happly.1.nullifiers⟩)
    have hnext := h.update hmem.1 hlt happly.1 hnew fun htrue =>
      absurd htrue (by simp [hbase.1])
    obtain ⟨hrest, hnews⟩ := ih hnext hmem.2 hconsumes.2 hbase.2 happly.2
    rw [append_assoc] at hrest
    exact ⟨hrest, h.coins_new hnew, hnews⟩

/-- **The step for a block** at a height that no transaction before has. -/
theorem applyBlock (h : Ledger T s hist) {params} {b} (hlt : nHeight < 2 ^ 31)
    (hblock : BlockChecked params b) (hmem : ∀ tx ∈ b.vtx, T.mem tx)
    (hconsumes : ∀ tx ∈ b.vtx.tail, tx.Consumes)
    (hcommits : ∀ coinbase, b.vtx.head? = some coinbase → coinbase.CommitsTo nHeight)
    (hheights : ∀ e ∈ hist, e.1 ≠ nHeight) (happly : s.TxsApply nHeight b.vtx) :
    Ledger T (s.applyTxs nHeight b.vtx) (hist ++ b.vtx.map (Prod.mk nHeight)) ∧
      s.TxsNew nHeight b.vtx := by
  obtain ⟨coinbase, rest, hvtx, hbase, hrest⟩ := hblock.coinbase
  rw [hvtx] at hmem hconsumes hcommits happly ⊢
  rw [forall_mem_cons] at hmem
  have hcommit := hcommits coinbase rfl
  have hnew := h.fresh hmem.1 hlt (.inr ⟨hbase, hcommit, hheights⟩)
  have hnext := h.update hmem.1 hlt happly.1 hnew fun _ => hcommit
  obtain ⟨hledger, hnews⟩ := hnext.applyTxs hlt hmem.2 hconsumes hrest happly.2
  rw [append_assoc] at hledger
  exact ⟨hledger, h.coins_new hnew, hnews⟩

end Ledger

/-! ### No coin is replaced -/

/-- How `AddCoin` fails where it finds a coin. -/
def replacesCoin : Failure := .throw "Adding new coin that replaces non-pruned entry"

section
variable {α β : Type}

theorem bind_ne_replaces {x} {f : α → Outcome β} (hx : x ≠ .error replacesCoin)
    (hf : ∀ a, x = .ok a → f a ≠ .error replacesCoin) : (x >>= f) ≠ .error replacesCoin := by
  intro h
  rcases bind_error.mp h with h | ⟨a, ha, h⟩
  · exact hx h
  · exact hf a ha h

theorem rejectIf_ne_replaces (c : Bool) (t : String) : rejectIf c t ≠ .error replacesCoin := by
  cases c <;> simp [rejectIf, replacesCoin]

theorem rejectIf_bind_ne {c} {t} {f : Unit → Outcome β} (hf : f () ≠ .error replacesCoin) :
    (rejectIf c t >>= f) ≠ .error replacesCoin :=
  bind_ne_replaces (rejectIf_ne_replaces c t) fun _ _ => hf

theorem assert_ne_replaces (c : Bool) (t : String) : assert c t ≠ .error replacesCoin := by
  cases c <;> simp [assert, replacesCoin]

theorem throwIf_ne_replaces (c : Bool) {t} (ht : Failure.throw t ≠ replacesCoin) :
    throwIf c t ≠ .error replacesCoin := by
  cases c with
  | false => simp [throwIf]
  | true => exact fun h => ht (Except.error.inj h)

theorem foldlM_ne_replaces {f : β → α → Outcome β} (hf : ∀ b a, f b a ≠ .error replacesCoin) (b : β)
    (l : List α) : l.foldlM f b ≠ .error replacesCoin := by
  induction l generalizing b with
  | nil => simp [foldlM_nil, pure, Except.pure]
  | cons a l ih =>
    rw [foldlM_cons]
    exact bind_ne_replaces (hf b a) fun b' _ => ih b'

end

theorem Transaction.getValueOut_ne_replaces (tx : Transaction) :
    tx.getValueOut ≠ .error replacesCoin := by
  refine bind_ne_replaces (foldlM_ne_replaces (fun n out => ?_) _ _) fun n _ => ?_
  · refine bind_ne_replaces (throwIf_ne_replaces _ (by decide)) fun _ _ => ?_
    exact bind_ne_replaces (throwIf_ne_replaces _ (by decide)) fun _ _ => by simp
  · split
    · simp
    · split_ifs
      · exact bind_ne_replaces (throwIf_ne_replaces _ (by decide)) fun _ _ => by simp
      · simp

theorem Transaction.getShieldedValueIn_ne_replaces (tx : Transaction) :
    tx.getShieldedValueIn ≠ .error replacesCoin := by
  unfold Transaction.getShieldedValueIn
  split
  · simp
  · split_ifs
    · exact bind_ne_replaces (throwIf_ne_replaces _ (by decide)) fun _ _ => by simp
    · simp

section
variable {params : ConsensusParams} {ctx : ConnectContext} {v₀ v : CoinsViewCache} {s : ViewState}
  {tx : Transaction}

theorem checkTxInputs_ne_replaces (nSpendHeight : Nat) (v : CoinsViewCache) (tx : Transaction) :
    checkTxInputs root params nSpendHeight v tx ≠ .error replacesCoin := by
  refine rejectIf_bind_ne ?_
  refine rejectIf_bind_ne ?_
  refine bind_ne_replaces (foldlM_ne_replaces (fun r txin => ?_) _ _) fun r _ => ?_
  · refine bind_ne_replaces (assert_ne_replaces _ _) fun _ _ => ?_
    refine rejectIf_bind_ne ?_
    exact rejectIf_bind_ne (by simp)
  · refine bind_ne_replaces tx.getShieldedValueIn_ne_replaces fun _ _ => ?_
    refine bind_ne_replaces ?_ fun _ _ => by simp
    unfold checkTxFee
    split_ifs
    · simp
    · refine bind_ne_replaces tx.getValueOut_ne_replaces fun _ _ => ?_
      refine rejectIf_bind_ne ?_
      exact rejectIf_bind_ne (rejectIf_ne_replaces _ _)

theorem checkInputs_ne_replaces (nSpendHeight : Nat) (v : CoinsViewCache) (tx : Transaction) :
    checkInputs root params ctx nSpendHeight v tx ≠ .error replacesCoin := by
  unfold checkInputs
  split_ifs
  · refine bind_ne_replaces (checkTxInputs_ne_replaces _ _ _) fun _ _ => ?_
    refine bind_ne_replaces (assert_ne_replaces _ _) fun _ _ => ?_
    exact rejectIf_bind_ne (by simp)
  · exact bind_ne_replaces (checkTxInputs_ne_replaces _ _ _) fun _ _ => by simp
  · simp

theorem checkRequirements_ne_replaces
    (hzc : ctx.parseAndValidateZerocoinSpends tx ≠ .error replacesCoin) (isV5UpgradeEnforced : Bool)
    (nSigOps : Nat) (v : CoinsViewCache) :
    checkRequirements root ctx isV5UpgradeEnforced nSigOps v tx ≠ .error replacesCoin := by
  unfold checkRequirements
  split_ifs
  · exact bind_ne_replaces hzc fun _ _ => by simp
  · refine rejectIf_bind_ne ?_
    refine rejectIf_bind_ne ?_
    exact rejectIf_bind_ne (by simp)
  · simp

theorem connectValues_ne_replaces (nSpendHeight : Nat) (st : ConnectState) (tx : Transaction) :
    connectValues root params ctx nSpendHeight st tx ≠ .error replacesCoin := by
  refine bind_ne_replaces tx.getValueOut_ne_replaces fun _ _ => ?_
  by_cases hbase : (!tx.isCoinBase) = true
  · rw [if_pos hbase]
    refine bind_ne_replaces ?_ fun _ _ => ?_
    · unfold CoinsViewCache.getValueIn
      split_ifs
      · simp
      · exact bind_ne_replaces tx.getShieldedValueIn_ne_replaces fun _ _ => by simp
    · exact bind_ne_replaces (checkInputs_ne_replaces _ _ _) fun _ _ => by simp
  · rw [if_neg hbase]
    simp

/-- Outputs are added where there are no coins. -/
theorem CoinsViewCache.Becomes.addOutputs_run (h : v₀.Becomes S s v) {coin : TxOut → Coin}
    {outputs : List (OutPoint × TxOut)} (hunspent : ∀ e ∈ outputs, (coin e.2).isSpent = false)
    (hnodup : (outputs.map Prod.fst).Nodup) (hfree : ∀ e ∈ outputs, s.coins[e.1]? = none) :
    ∃ v', outputs.foldlM (fun v e => v.addCoin e.1 (coin e.2) false) v = .ok v' := by
  induction outputs generalizing v s with
  | nil => exact ⟨v, rfl⟩
  | cons e outputs ih =>
    rw [forall_mem_cons] at hunspent hfree
    rw [map_cons, nodup_cons] at hnodup
    have hnone : false = false → (v.toView.state root).coins[e.1]? = none := by
      rw [h.toView_state]
      exact fun _ => hfree.1
    obtain ⟨v₁, hadd⟩ := CoinsViewCache.addCoin_run hunspent.1 hnone
    obtain ⟨-, hb⟩ := CoinsViewCache.addCoin_inv h.toView_wf hadd
    have hfree' : ∀ e' ∈ outputs, (s.addCoin e.1 (coin e.2) false).coins[e'.1]? = none := by
      intro e' he'
      have hne : e.1 ≠ e'.1 := fun heq => hnodup.1 (heq ▸ mem_map_of_mem he')
      simp only [ViewState.addCoin, Bool.false_eq_true, if_false]
      split_ifs
      · exact (ViewState.get_add_ne hne s _).trans (hfree.2 e' he')
      · exact hfree.2 e' he'
    obtain ⟨v₂, hrest⟩ := ih (h.step (f := fun s => s.addCoin e.1 (coin e.2) false) hb) hunspent.2
      hnodup.2 hfree'
    exact ⟨v₂, by rw [foldlM_cons, hadd]; exact hrest⟩

theorem CoinsViewCache.Becomes.updateCoins_run (h : v₀.Becomes S s v) (hplain : s.Plain)
    (hvalues : ∀ out ∈ tx.vout, 0 ≤ out.nValue) (nHeight : Nat)
    (hnew : ∀ o : OutPoint, o.hash = tx.hash → s.coins[o]? = none) :
    ∃ r, v.updateCoins tx nHeight = .ok r := by
  have hunspent : ∀ e ∈ tx.outputs, (tx.coinOf nHeight e.2).isSpent = false := by
    intro e he
    obtain ⟨⟨out, i⟩, hout, rfl⟩ := mem_map.mp he
    have := hvalues out (fst_mem_of_mem_zipIdx hout)
    simp only [Coin.isSpent, Transaction.coinOf, TxOut.isNull, beq_eq_false_iff_ne]
    omega
  have hadd : ∀ {s₁ : ViewState} {v₁ : CoinsViewCache}, v₀.Becomes S s₁ v₁ →
      (∀ o : OutPoint, o.hash = tx.hash → s₁.coins[o]? = none) →
      ∃ v', (v₁.setNullifiers tx true).addCoins tx nHeight false = .ok v' := by
    intro s₁ v₁ h₁ hfree
    have h₂ := h₁.step (f := fun s => s.setNullifiers tx true)
      (CoinsViewCache.setNullifiers_spec h₁.toView_wf tx true)
    refine h₂.addOutputs_run hunspent tx.outputs_nodup fun e he => ?_
    rw [(ViewState.setNullifiers_frame s₁ tx true).1]
    exact hfree e.1 (tx.hash_of_mem_outputs he)
  unfold CoinsViewCache.updateCoins
  by_cases hspends : tx.spendsCoins = true
  · rw [if_pos hspends]
    obtain ⟨-, hcoins⟩ := hplain.spendInputs tx.vin
    obtain ⟨v', hv'⟩ := hadd (h.spendCoins tx.vin).1 fun o ho => by
      rw [hcoins, hnew o ho, ite_self]
    exact ⟨_, bind_ok.mpr ⟨v', hv', rfl⟩⟩
  · rw [if_neg hspends]
    obtain ⟨v', hv'⟩ := hadd h hnew
    exact ⟨_, bind_ok.mpr ⟨v', hv', rfl⟩⟩

variable {st : ConnectState}

/-- A transaction replaces no coin, if its id is new whenever its inputs are there. -/
theorem connectTx_ne_replaces (htx : TxChecked params tx) (hplain : s.Plain)
    (hzc : ctx.parseAndValidateZerocoinSpends tx ≠ .error replacesCoin) (h : v₀.Becomes S s st.view)
    (hnew : (tx.spendsCoins = true → (∀ txin ∈ tx.vin, s.coins[txin.prevout]? ≠ none) ∧ ∀ d ∈ tx.shieldedSpends, s.SpendAllowed d) → ∀ o : OutPoint, o.hash = tx.hash → s.coins[o]? = none)
    (pindex : BlockEntry) : connectTx root params ctx pindex st tx ≠ .error replacesCoin := by
  refine rejectIf_bind_ne ?_
  refine rejectIf_bind_ne ?_
  refine bind_ne_replaces (checkRequirements_ne_replaces hzc _ _ _) fun ⟨n, v₁⟩ hreq => ?_
  obtain ⟨h₁, hspends⟩ := h.checkRequirements hreq
  refine bind_ne_replaces (connectValues_ne_replaces _ _ _) fun st₂ hvalues => ?_
  have h₂ : v₀.Becomes S s ({ st with nSigOps := n, view := v₁ } : ConnectState).view := h₁
  obtain ⟨h₃, -⟩ := connectValues_ok h₂ hvalues
  obtain ⟨r, hr⟩ := h₃.updateCoins_run hplain htx.nonneg pindex.nHeight (hnew hspends)
  rw [hr]
  simp

variable {T : Txs} {hist : List (Nat × Transaction)} {pindex : BlockEntry}

/-- The transactions after the coinbase replace no coin. -/
theorem Ledger.connectNextTxs_ne_replaces (hl : Ledger T s hist)
    (htxs : ∀ tx ∈ txs, TxChecked params tx) (hmem : ∀ tx ∈ txs, T.mem tx)
    (hconsumes : ∀ tx ∈ txs, tx.Consumes) (hbase : ∀ tx ∈ txs, tx.isCoinBase = false)
    (hzc : ∀ tx ∈ txs, ctx.parseAndValidateZerocoinSpends tx ≠ .error replacesCoin)
    (h : v₀.Becomes S s st.view) :
    txs.foldlM (connectNextTx root params ctx pindex) st ≠ .error replacesCoin := by
  induction txs generalizing s hist st with
  | nil => simp [pure, Except.pure]
  | cons tx txs ih =>
    rw [forall_mem_cons] at htxs hmem hconsumes hbase hzc
    have hnew : (tx.spendsCoins = true → (∀ txin ∈ tx.vin, s.coins[txin.prevout]? ≠ none) ∧
        ∀ d ∈ tx.shieldedSpends, s.SpendAllowed d) → ∀ e ∈ hist, e.2.hash ≠ tx.hash := by
      intro hspends
      refine hl.fresh hmem.1 pindex.nHeight_lt (.inl ⟨hconsumes.1, fun hs => (hspends hs).1, ?_⟩)
      exact htxs.1.unmarked (htxs.1.allowed fun hs => (hspends hs).2)
    rw [foldlM_cons]
    refine bind_ne_replaces (bind_ne_replaces ?_ fun _ _ => by simp) fun st₁ hnext => ?_
    · exact connectTx_ne_replaces htxs.1 hl.plain hzc.1 h (fun hs => hl.coins_new (hnew hs)) pindex
    · obtain ⟨⟨undo, st₂⟩, htx, hnext⟩ := bind_ok.mp hnext
      cases hnext
      obtain ⟨h₁, hconn, -⟩ := connectTx_ok htxs.1 h htx
      have hnext := hl.update hmem.1 pindex.nHeight_lt hconn.toTxApplies
        (hnew fun hs => ⟨hconn.coins hs, hconn.spends⟩) fun htrue => absurd htrue (by simp [hbase.1])
      have h₂ : v₀.Becomes S (s.updateCoins pindex.nHeight tx)
          ({ st₂ with vtxundo := st₂.vtxundo ++ [undo] } : ConnectState).view := h₁
      exact ih hnext htxs.2 hmem.2 hconsumes.2 hbase.2 hzc.2 h₂

/-- **No transaction of the next block replaces a coin.** -/
theorem Ledger.connectTxs_ne_replaces (hl : Ledger T s hist) {b}
    (hblock : BlockChecked params b) (hmem : ∀ tx ∈ b.vtx, T.mem tx)
    (hconsumes : ∀ tx ∈ b.vtx.tail, tx.Consumes)
    (hcommits : ∀ coinbase, b.vtx.head? = some coinbase → coinbase.CommitsTo pindex.nHeight)
    (hheights : ∀ e ∈ hist, e.1 ≠ pindex.nHeight)
    (hzc : ∀ tx ∈ b.vtx, ctx.parseAndValidateZerocoinSpends tx ≠ .error replacesCoin)
    (h : v₀.Becomes S s st.view) :
    connectTxs root params ctx pindex st b.vtx ≠ .error replacesCoin := by
  have htxs := hblock.txs
  obtain ⟨coinbase, rest, hvtx, hbase, hrest⟩ := hblock.coinbase
  rw [hvtx] at hmem hconsumes hcommits hzc htxs ⊢
  rw [forall_mem_cons] at hmem hzc htxs
  have hcommit := hcommits coinbase rfl
  have hnew := hl.fresh hmem.1 pindex.nHeight_lt (.inr ⟨hbase, hcommit, hheights⟩)
  refine bind_ne_replaces ?_ fun ⟨undo, st₁⟩ htx => ?_
  · exact connectTx_ne_replaces htxs.1 hl.plain hzc.1 h (fun _ => hl.coins_new hnew) pindex
  · obtain ⟨h₁, hconn, -⟩ := connectTx_ok htxs.1 h htx
    have hnext := hl.update hmem.1 pindex.nHeight_lt hconn.toTxApplies hnew fun _ => hcommit
    exact hnext.connectNextTxs_ne_replaces htxs.2 hmem.2 hconsumes hrest hzc.2 h₁

end

end KmushiCoin
