import KmushiCoin.Mempool.Accept

/-!
# KmushiCoin.Mempool.Removal

**What the operations do to the set of transactions and to the indexes.**

* The updates of links and totals change neither (`SameTxs`).
* `Tracked`: every entry is stored under the hash of its transaction, none has zerocoin inputs, and
  `mapNextTx` holds exactly the inputs of the entries.
* Every operation that removes is a sequence of **removal steps** (`Removal`): a set of entries
  goes with all its descendants, or a reference to a transaction that is not in the pool is
  dropped. Only `removeForBlock` removes single entries besides.
* What is closed under the removal of one entry (`RemovalClosed`) is kept by all of them.
-/

namespace KmushiCoin

open Function Transaction List

def Transaction.prevouts (tx : Transaction) : List OutPoint := tx.vin.map TxIn.prevout

/-- The transactions of a pool, by their hashes. -/
abbrev TxStore : Type := Uint256 → Option TxInfo

/-! ### What a provider transaction writes to the indexes -/

/-- The keys that a provider transaction claims, and what its removal erases besides. -/
structure ProviderClaims where
  addresses : List Service := []
  keyIDs : List KeyID := []
  collaterals : List OutPoint := []
  erasedCollaterals : List OutPoint := []
  refs : List (Uint256 × Uint256) := []
  erasedRefs : List (Uint256 × Uint256) := []

def ProRegPL.claims (pl : ProRegPL) (hash : Uint256) : ProviderClaims where
  addresses := [pl.addr]
  keyIDs := [pl.keyIDOwner, pl.keyIDOperator]
  collaterals := if pl.collateralOutpoint.hash ≠ 0 then [pl.collateralOutpoint] else []
  erasedCollaterals := [pl.collateralOutpoint]
  refs := if pl.collateralOutpoint.hash ≠ 0 then [(hash, pl.collateralOutpoint.hash)] else []
  erasedRefs :=
    if pl.collateralOutpoint ≠ OutPoint.null then [(hash, pl.collateralOutpoint.hash)] else []

def ProUpServPL.claims (pl : ProUpServPL) (hash : Uint256) : ProviderClaims where
  addresses := [pl.addr]
  refs := [(pl.proTxHash, hash)]
  erasedRefs := [(pl.proTxHash, hash)]

def ProUpRegPL.claims (pl : ProUpRegPL) (hash : Uint256) : ProviderClaims where
  keyIDs := [pl.keyIDOperator]
  refs := [(pl.proTxHash, hash)]
  erasedRefs := [(pl.proTxHash, hash)]

def ProUpRevPL.claims (pl : ProUpRevPL) (hash : Uint256) : ProviderClaims where
  refs := [(pl.proTxHash, hash)]
  erasedRefs := [(pl.proTxHash, hash)]

def Transaction.providerClaims (tx : Transaction) : ProviderClaims :=
  if tx.isSpecialTx then
    match tx.nType with
    | .proReg => (getTxPayload getProRegPL tx).elim {} (·.claims tx.hash)
    | .proUpServ => (getTxPayload getProUpServPL tx).elim {} (·.claims tx.hash)
    | .proUpReg => (getTxPayload getProUpRegPL tx).elim {} (·.claims tx.hash)
    | .proUpRev => (getTxPayload getProUpRevPL tx).elim {} (·.claims tx.hash)
    | _ => {}
  else {}

namespace SideIndexes

/-- What becomes of the provider indexes when a transaction enters, and when it leaves. -/
theorem uncheckedSpecialTx_eq (idx : SideIndexes) (tx : Transaction) :
    idx.addUncheckedSpecialTx tx =
        { idx with
          mapProTxRefs := idx.mapProTxRefs ++ tx.providerClaims.refs
          mapProTxAddresses :=
            tx.providerClaims.addresses.foldl (·.insertIfNew · tx.hash) idx.mapProTxAddresses
          mapProTxPubKeyIDs :=
            tx.providerClaims.keyIDs.foldl (·.insertIfNew · tx.hash) idx.mapProTxPubKeyIDs
          mapProTxCollaterals :=
            tx.providerClaims.collaterals.foldl (·.insertIfNew · tx.hash)
              idx.mapProTxCollaterals } ∧
      idx.removeUncheckedSpecialTx tx =
        { idx with
          mapProTxRefs := idx.mapProTxRefs.filter (· ∉ tx.providerClaims.erasedRefs)
          mapProTxAddresses := tx.providerClaims.addresses.foldl (·.erase ·) idx.mapProTxAddresses
          mapProTxPubKeyIDs := tx.providerClaims.keyIDs.foldl (·.erase ·) idx.mapProTxPubKeyIDs
          mapProTxCollaterals :=
            tx.providerClaims.erasedCollaterals.foldl (·.erase ·) idx.mapProTxCollaterals } := by
  simp only [addUncheckedSpecialTx, removeUncheckedSpecialTx, providerClaims, eraseProTxRef]
  split_ifs
  · cases tx.nType with
    | proReg =>
      cases getTxPayload getProRegPL tx with
      | none => simp
      | some pl =>
        by_cases h : pl.collateralOutpoint.hash = 0 <;>
          by_cases hnull : pl.collateralOutpoint = OutPoint.null <;>
          simp [ProRegPL.claims, h, hnull, show OutPoint.null.hash = 0 from rfl]
    | proUpServ => cases getTxPayload getProUpServPL tx <;> simp [ProUpServPL.claims]
    | proUpReg => cases getTxPayload getProUpRegPL tx <;> simp [ProUpRegPL.claims]
    | proUpRev => cases getTxPayload getProUpRevPL tx <;> simp [ProUpRevPL.claims]
    | normal => simp
    | unknown => simp
  · simp

/-- What becomes of the inputs of a transaction that enters. -/
theorem get_mapNextTx_add (idx : SideIndexes) (i : TxInfo) (o : OutPoint) :
    (idx.add i).mapNextTx[o]? =
      if (i.tx.hasZerocoinSpendInputs = false ∧ o ∈ i.tx.prevouts) ∧ idx.mapNextTx[o]? = none then
        some i.tx else idx.mapNextTx[o]? := by
  simp only [add, uncheckedSpecialTx_eq]
  cases i.tx.hasZerocoinSpendInputs with
  | true => simp
  | false =>
    have := FMap.get_foldl_insertIfNew idx.mapNextTx i.tx.prevouts i.tx o
    rw [prevouts, foldl_map] at this
    simpa [prevouts] using this

/-- What becomes of the inputs of a transaction that leaves. -/
theorem get_mapNextTx_remove (idx : SideIndexes) (i : TxInfo) (o : OutPoint) :
    (idx.remove i).mapNextTx[o]? = if o ∈ i.tx.prevouts then none else idx.mapNextTx[o]? := by
  simp only [remove, uncheckedSpecialTx_eq]
  have := FMap.get_foldl_erase idx.mapNextTx i.tx.prevouts o
  rwa [prevouts, foldl_map] at this

end SideIndexes

namespace MemPool

variable {p q r : MemPool} {x : Uint256}

theorem info_eq_none : p.info x = none ↔ p.mapTx[x]? = none := Option.map_eq_none_iff

theorem info_isSome : (p.info x).isSome = (p.mapTx[x]?).isSome := Option.isSome_map

/-! ### Updates of links and totals -/

/-- The same transactions with the same indexes. -/
structure SameTxs (p q : MemPool) : Prop where
  idx : q.idx = p.idx
  info : q.info = p.info

theorem SameTxs.refl (p : MemPool) : SameTxs p p := ⟨rfl, rfl⟩

theorem SameTxs.trans (h₁ : SameTxs p q) (h₂ : SameTxs q r) : SameTxs p r :=
  ⟨h₂.idx.trans h₁.idx, h₂.info.trans h₁.info⟩

theorem SameTxs.foldl {α : Type} {f : MemPool → α → MemPool} (hf : ∀ p a, SameTxs p (f p a))
    (l : List α) (p : MemPool) : SameTxs p (l.foldl f p) := by
  induction l generalizing p with
  | nil => exact .refl p
  | cons a l ih => exact (hf p a).trans (ih (f p a))

section

variable (p) (S : Finset Uint256)

theorem sameTxs_modifyAll {f : MemPoolEntry → MemPoolEntry} (hf : ∀ e, (f e).toTxInfo = e.toTxInfo)
    : SameTxs p (p.modifyAll S f) where
  idx := rfl
  info := by
    funext x
    simp only [info, modifyAll, FMap.get_alterAll (Finset.sort_nodup S _), Finset.mem_sort]
    split_ifs
    · rw [Option.map_map]
      exact congrArg (Option.map · _) (funext hf)
    · rfl

theorem sameTxs_updateAncestorState (modify : Totals) :
    SameTxs p (p.modifyAll S (MemPoolEntry.updateAncestorState modify)) :=
  sameTxs_modifyAll p S fun _ => rfl

theorem sameTxs_updateDescendantState (modify : Totals) :
    SameTxs p (p.modifyAll S (MemPoolEntry.updateDescendantState modify)) :=
  sameTxs_modifyAll p S fun _ => rfl

theorem sameTxs_updateChild (child : Uint256) (add : Bool) :
    SameTxs p (p.updateChild S child add) := ⟨rfl, rfl⟩

theorem sameTxs_updateParent (parent : Uint256) (add : Bool) :
    SameTxs p (p.updateParent S parent add) := ⟨rfl, rfl⟩

theorem sameTxs_updateAncestorsOf (add : Bool) (x : Uint256) (setAncestors : Finset Uint256) :
    SameTxs p (p.updateAncestorsOf add x setAncestors) :=
  (sameTxs_updateChild p _ x add).trans (sameTxs_updateDescendantState _ _ _)

theorem sameTxs_updateForRemoveFromMempool (updateDescendants : Bool) :
    SameTxs p (p.updateForRemoveFromMempool S updateDescendants) := by
  have hdescendants : ∀ p : MemPool, SameTxs p
      (if updateDescendants then (S.sort (· ≤ ·)).foldl updateDescendantsOf p else p) := by
    intro p
    split_ifs
    · exact SameTxs.foldl (fun _ _ => sameTxs_updateAncestorState _ _ _) _ p
    · exact .refl p
  exact ((hdescendants p).trans
    (SameTxs.foldl (fun _ _ => sameTxs_updateAncestorsOf _ _ _ _) _ _)).trans
    (SameTxs.foldl (fun _ _ => sameTxs_updateParent _ _ _ _) _ _)

theorem sameTxs_updateTransactionsFromBlock (hashes : List Uint256) :
    SameTxs p (p.updateTransactionsFromBlock hashes) := by
  have hstep : ∀ (s : MemPool × FMap Uint256 (Finset Uint256)) (hash : Uint256),
      SameTxs s.1 (updateTransactionFromBlock hashes.toFinset s hash).1 := by
    intro s hash
    rw [updateTransactionFromBlock]
    split_ifs
    · exact ((SameTxs.foldl (fun _ _ => sameTxs_updateChild _ _ _ _) _ _).trans
        (sameTxs_updateParent _ _ _ _)).trans
        ((sameTxs_updateAncestorState _ _ _).trans (sameTxs_updateDescendantState _ _ _))
    · exact .refl _
  have hrun : ∀ (l : List Uint256) (s : MemPool × FMap Uint256 (Finset Uint256)),
      SameTxs s.1 (l.foldl (updateTransactionFromBlock hashes.toFinset) s).1 := by
    intro l
    induction l with
    | nil => exact fun s => .refl s.1
    | cons hash l ih => exact fun s => (hstep s hash).trans (ih _)
  exact hrun _ (p, ∅)

/-! ### Single entries -/

/-- Linking a new entry. -/
theorem sameTxs_link (x : Uint256) (l : List Uint256) (T : Finset Uint256) :
    SameTxs p (((l.foldl (fun p y => p.updateParent {x} y true) p).updateAncestorsOf true x
      S).updateEntryForAncestors x T) :=
  ((SameTxs.foldl (fun p y => sameTxs_updateParent p _ y true) l p).trans
    (sameTxs_updateAncestorsOf _ _ _ _)).trans (sameTxs_updateAncestorState _ _ _)

theorem addUnchecked_idx (i : TxInfo) : (p.addUnchecked i).idx = p.idx.add i :=
  congrArg (SideIndexes.add · i) (sameTxs_link _ _ _ _ _).idx

end

theorem addUnchecked_info {i} (hnew : p.info i.tx.hash = none) :
    (p.addUnchecked i).info = update p.info i.tx.hash (some i) := by
  refine (sameTxs_link _ _ _ _ _).info.trans (funext fun x => ?_)
  have hget := FMap.get_insertIfNew p.mapTx i.tx.hash x (.new i)
  simp only [info, hget, update_apply]
  by_cases hx : x = i.tx.hash
  · subst hx
    simp [info_eq_none.1 hnew, MemPoolEntry.new]
  · simp [hx, Ne.symm hx]

theorem removeUnchecked_of_some {i} (h : p.info x = some i) :
    (p.removeUnchecked x).info = update p.info x none ∧
      (p.removeUnchecked x).idx = p.idx.remove i := by
  obtain ⟨e, he, rfl⟩ := Option.map_eq_some_iff.1 h
  rw [removeUnchecked, he]
  refine ⟨funext fun y => ?_, rfl⟩
  simp only [info, FMap.get_erase, update_apply]
  by_cases hy : y = x
  · simp [hy]
  · simp [hy, Ne.symm hy]

theorem removed_eq_some {info : TxStore} {y j} :
    update info x none y = some j ↔ y ≠ x ∧ info y = some j := by
  rw [update_apply]
  split_ifs with hy <;> simp [hy]

theorem added_eq_some {info : TxStore} {i} (hnew : info i.tx.hash = none) {y j} :
    update info i.tx.hash (some i) y = some j ↔ (y = i.tx.hash ∧ j = i) ∨ info y = some j := by
  rw [update_apply]
  split_ifs with hy
  · subst hy
    simp [hnew, eq_comm]
  · simp [hy]

/-- What is closed under the removal of an entry. -/
def RemovalClosed (I : TxStore → SideIndexes → Prop) : Prop :=
  ∀ info idx x i, I info idx → info x = some i → I (update info x none) (idx.remove i)

section
variable {I : TxStore → SideIndexes → Prop}

theorem SameTxs.keeps (h : SameTxs p q) (hI : I p.info p.idx) : I q.info q.idx := by
  rwa [h.info, h.idx]

theorem RemovalClosed.removeUnchecked (hclosed : RemovalClosed I) (hI : I p.info p.idx)
    (x : Uint256) : I (p.removeUnchecked x).info (p.removeUnchecked x).idx := by
  cases hx : p.info x with
  | none => rwa [MemPool.removeUnchecked, info_eq_none.1 hx]
  | some i =>
    rw [(removeUnchecked_of_some hx).1, (removeUnchecked_of_some hx).2]
    exact hclosed p.info p.idx x i hI hx

theorem RemovalClosed.removeStaged (hclosed : RemovalClosed I) (hI : I p.info p.idx)
    (stage : Finset Uint256) (updateDescendants : Bool) :
    I (p.removeStaged stage updateDescendants).info (p.removeStaged stage updateDescendants).idx := by
  rw [MemPool.removeStaged]
  have hI := (sameTxs_updateForRemoveFromMempool p stage updateDescendants).keeps hI
  generalize p.updateForRemoveFromMempool stage updateDescendants = q at hI
  induction stage.sort (· ≤ ·) generalizing q with
  | nil => exact hI
  | cons x l ih => exact ih (q.removeUnchecked x) (hclosed.removeUnchecked hI x)

end

/-! ### The inputs of the pool -/

/-- What the links are read from. -/
structure Tracked (info : TxStore) (idx : SideIndexes) : Prop where
  keyed : ∀ x i, info x = some i → i.tx.hash = x
  transparent : ∀ x i, info x = some i → i.tx.hasZerocoinSpendInputs = false
  next : ClaimIndex.Indexes info (fun i => i.tx.prevouts) (fun _ i => i.tx) idx.mapNextTx


theorem Tracked.removalClosed : RemovalClosed Tracked := by
  intro info idx x i h hx
  exact
    { keyed := fun y j hy => h.keyed y j (removed_eq_some.1 hy).2
      transparent := fun y j hy => h.transparent y j (removed_eq_some.1 hy).2
      next := h.next.remove hx (fun y j hy htx => by
        rw [← h.keyed y j hy, htx]
        exact h.keyed x i hx) (SideIndexes.get_mapNextTx_remove idx i) }

/-- What the checks know of a transaction that is accepted. -/
structure Accepted (params : ConsensusParams) (p : MemPool) (i : TxInfo) : Prop where
  checked : TxChecked params i.tx
  transparent : i.tx.hasZerocoinSpendInputs = false
  noConflict : p.existsProviderTxConflict i.tx = false
  new : p.info i.tx.hash = none
  unspent : ∀ o ∈ i.tx.prevouts, p.idx.mapNextTx[o]? = none
  unrevealed : ∀ sd ∈ i.tx.shieldedSpends, p.idx.mapSaplingNullifiers[sd.nullifier]? = none

theorem accepted_of_accepts {env : PoolEnv} {i : TxInfo} (h : env.accepts p i = true) :
    Accepted env.params p i := by
  simp only [PoolEnv.accepts, Bool.and_eq_true, Bool.not_eq_true', all_eq_true,
    Option.isNone_iff_eq_none] at h
  obtain ⟨⟨⟨⟨⟨⟨⟨⟨hcheck, hzc⟩, -⟩, -⟩, hconflict⟩, hnew⟩, hunspent⟩, hnull⟩, -⟩ := h
  refine ⟨?_, hzc, hconflict, info_eq_none.2 hnew, ?_, hnull⟩
  · cases hc : checkTransaction env.params env.ctx i.tx with
    | error e =>
      rw [hc] at hcheck
      cases hcheck
    | ok u => exact checkTransaction_inv hc
  · intro o ho
    obtain ⟨txin, htxin, rfl⟩ := mem_map.1 ho
    exact hunspent txin htxin

theorem Tracked.addUnchecked {params} {i} (h : Tracked p.info p.idx)
    (hi : Accepted params p i) : Tracked (p.addUnchecked i).info (p.addUnchecked i).idx := by
  rw [addUnchecked_idx, addUnchecked_info hi.new]
  refine ⟨fun y j hy => ?_, fun y j hy => ?_, h.next.add hi.new hi.unspent fun o => ?_⟩
  · rcases (added_eq_some hi.new).1 hy with ⟨rfl, rfl⟩ | hy
    · rfl
    · exact h.keyed y j hy
  · rcases (added_eq_some hi.new).1 hy with ⟨-, rfl⟩ | hy
    · exact hi.transparent
    · exact h.transparent y j hy
  · rw [SideIndexes.get_mapNextTx_add]
    refine if_congr ?_ rfl rfl
    simp only [hi.transparent, true_and, and_iff_left_iff_imp]
    exact hi.unspent o

/-- The spenders that `mapNextTx` names are in the pool. -/
theorem Tracked.spender (h : Tracked p.info p.idx) {o : OutPoint} {tx : Transaction}
    (ho : p.idx.mapNextTx[o]? = some tx) : (p.info tx.hash).isSome := by
  obtain ⟨y, j, hy, -, rfl⟩ := (h.next o tx).1 ho
  rw [h.keyed y j hy, hy]
  rfl

/-! ### Removals -/

/-- One step of a removal. -/
inductive RemovalStep (p : MemPool) : MemPool → Prop
  | closure (S : Finset Uint256) (hS : ∀ x ∈ S, (p.info x).isSome) :
    RemovalStep p (p.removeWithDescendants S)
  | dropRef (ref : Uint256 × Uint256) (hmem : ref ∈ p.idx.mapProTxRefs)
    (hout : p.info ref.2 = none) :
    RemovalStep p { p with idx := { p.idx with mapProTxRefs := p.idx.mapProTxRefs.erase ref } }

abbrev Removal : MemPool → MemPool → Prop := Relation.ReflTransGen RemovalStep

/-- What every removal keeps, of what is true of the pool and its indexes. -/
structure RemovalSafe (I : TxStore → SideIndexes → Prop) : Prop where
  closed : RemovalClosed I
  dropRef : ∀ {info idx} {ref : Uint256 × Uint256}, I info idx → ref ∈ idx.mapProTxRefs →
    info ref.2 = none → I info { idx with mapProTxRefs := idx.mapProTxRefs.erase ref }
  tracked : ∀ {info idx}, I info idx → Tracked info idx

theorem RemovalSafe.removal {I} (hsafe : RemovalSafe I) (hI : I p.info p.idx) (h : Removal p q) :
    I q.info q.idx := by
  induction h with
  | refl => exact hI
  | tail _ hstep ih =>
    cases hstep with
    | closure S hS => exact hsafe.closed.removeStaged ih _ _
    | dropRef ref hmem hout => exact hsafe.dropRef ih hmem hout

theorem Removal.tracked (h : Removal p q) (hp : Tracked p.info p.idx) : Tracked q.info q.idx :=
  RemovalSafe.removal ⟨Tracked.removalClosed, fun h _ _ => ⟨h.keyed, h.transparent, h.next⟩, id⟩ hp h

/-- A loop of removals is one. -/
theorem removal_foldl {α : Type} {f : MemPool → α → MemPool}
    (hf : ∀ p a, Tracked p.info p.idx → Removal p (f p a)) (l : List α)
    (hp : Tracked p.info p.idx) : Removal p (l.foldl f p) := by
  induction l generalizing p with
  | nil => exact .refl
  | cons a l ih => exact (hf p a hp).trans (ih ((hf p a hp).tracked hp))

theorem removal_removeRecursive (hp : Tracked p.info p.idx) (tx : Transaction) :
    Removal p (p.removeRecursive tx) := by
  refine .single (.closure _ fun x hx => ?_)
  split_ifs at hx with hin
  · rwa [Finset.mem_singleton.1 hx, info_isSome]
  · simp only [spendersOf, mem_toFinset, mem_filterMap, Option.map_eq_some_iff] at hx
    obtain ⟨n, -, other, ho, rfl⟩ := hx
    exact hp.spender ho

theorem removal_removeHash (hp : Tracked p.info p.idx) (hash : Uint256) :
    Removal p (p.removeHash hash) := by
  rw [removeHash]
  split
  · exact .refl
  · exact removal_removeRecursive hp _

theorem mem_select {f : MemPoolEntry → Bool} (hx : x ∈ p.select f) : (p.info x).isSome := by
  simp only [select, mem_toFinset, mem_map, mem_filter] at hx
  obtain ⟨⟨y, e⟩, ⟨he, -⟩, rfl⟩ := hx
  rw [info_isSome, FMap.mem_toList.1 he]
  rfl

theorem removal_expire (p : MemPool) (time : Int) : Removal p (p.expire time) :=
  .single (.closure _ fun _ => mem_select)

section
variable (hp : Tracked p.info p.idx)
include hp

theorem removal_trimToSize (victims : List Uint256) : Removal p (p.trimToSize victims) := by
  refine removal_foldl (fun p x hp => ?_) victims hp
  split_ifs with hin
  · refine .single (.closure _ fun y hy => ?_)
    rwa [Finset.mem_singleton.1 hy, info_isSome]
  · exact .refl

theorem removal_removeWithAnchor (invalidRoot : Uint256) :
    Removal p (p.removeWithAnchor invalidRoot) :=
  removal_foldl (fun _ e hp => removal_removeRecursive hp e.tx) _ hp

theorem removal_removeOther (tx : Transaction) (other : Option Transaction)
    : Removal p (p.removeOther tx other) := by
  cases other with
  | none => exact .refl
  | some other =>
    rw [removeOther]
    split_ifs
    · exact removal_removeRecursive hp other
    · exact .refl

theorem removal_removeConflicts (tx : Transaction) : Removal p (p.removeConflicts tx) :=
  have hinputs := removal_foldl
    (fun p (txin : TxIn) hp => removal_removeOther hp tx p.idx.mapNextTx[txin.prevout]?) tx.vin hp
  hinputs.trans (removal_foldl
    (fun p sd hp => removal_removeOther hp tx p.idx.mapSaplingNullifiers[sd.nullifier]?) _
    (hinputs.tracked hp))

theorem removal_removeConflict (tx : Transaction) (conflictHash : Option Uint256)
    : Removal p (p.removeConflict tx conflictHash) := by
  cases conflictHash with
  | none => exact .refl
  | some h =>
    rw [removeConflict]
    split_ifs
    · exact removal_removeHash hp h
    · exact .refl

theorem removal_removeProTxReferences (proTxHash : Uint256) :
    Removal p (p.removeProTxReferences proTxHash) := by
  rw [removeProTxReferences]
  generalize 2 * p.idx.mapProTxRefs.length = fuel
  induction fuel generalizing p with
  | zero => exact .refl
  | succ fuel ih =>
    rw [removeProTxReferencesLoop]
    split
    · exact .refl
    · next ref hfind =>
      have hstep : Removal p (p.removeProTxReference ref) := by
        rw [removeProTxReference]
        split_ifs with hin
        · exact removal_removeHash hp _
        · refine .single (.dropRef ref (mem_of_find?_eq_some hfind) ?_)
          rwa [info_eq_none, ← Option.not_isSome_iff_eq_none]
      exact hstep.trans (ih (hstep.tracked hp))

theorem removal_removeProTxSpentCollateralConflicts (mnByCollateral : OutPoint → Option Uint256)
    (tx : Transaction) : Removal p (p.removeProTxSpentCollateralConflicts mnByCollateral tx) := by
  refine removal_foldl (fun p txin hp => ?_) tx.vin hp
  cases p.idx.mapProTxCollaterals[txin.prevout]? with
  | none =>
    cases mnByCollateral txin.prevout with
    | none => exact .refl
    | some h => exact removal_removeProTxReferences hp h
  | some h =>
    have hpool := removal_removeProTxReferences hp h
    cases mnByCollateral txin.prevout with
    | none => exact hpool
    | some h' => exact hpool.trans (removal_removeProTxReferences (hpool.tracked hp) h')

theorem removal_removeProTxConflicts (mnByCollateral : OutPoint → Option Uint256) (tx : Transaction) :
    Removal p (p.removeProTxConflicts mnByCollateral tx) := by
  rw [removeProTxConflicts]
  have hspent := removal_removeProTxSpentCollateralConflicts hp mnByCollateral tx
  -- one conflict after the other
  have hnext : ∀ {q : MemPool} (x : Option Uint256), Removal p q →
      Removal p (q.removeConflict tx x) :=
    fun x hq => hq.trans (removal_removeConflict (hq.tracked hp) tx x)
  split_ifs
  · split
    · cases getTxPayload getProRegPL tx with
      | none => exact hspent
      | some pl =>
        dsimp only
        split_ifs
        · exact hnext _ (hnext _ (hnext _ (hnext _ hspent)))
        · exact hnext _ (hnext _ (hnext _ hspent))
    · cases getTxPayload getProUpServPL tx with
      | none => exact hspent
      | some pl => exact hnext _ hspent
    · cases getTxPayload getProUpRegPL tx with
      | none => exact hspent
      | some pl => exact hnext _ hspent
    · exact hspent
  · exact hspent

end

/-- What is accepted is added, and then the pool is limited. -/
theorem removal_acceptToMemoryPool {env : PoolEnv} {i : TxInfo} (haccepts : env.accepts p i = true)
    (hp : Tracked (p.addUnchecked i).info (p.addUnchecked i).idx) (fOverride : Bool)
    (limits : PoolLimits) :
    Removal (p.addUnchecked i) (env.acceptToMemoryPool fOverride p i limits).1 := by
  have hlimit : Removal (p.addUnchecked i)
      (if fOverride then p.addUnchecked i else (p.addUnchecked i).limitMempoolSize limits) := by
    cases fOverride with
    | true => exact .refl
    | false =>
      have hexpire := removal_expire (p.addUnchecked i) limits.time
      exact hexpire.trans (removal_trimToSize (hexpire.tracked hp) limits.victims)
  have htrim := removal_trimToSize (hlimit.tracked hp) limits.lateVictims
  rw [PoolEnv.acceptToMemoryPool, if_pos haccepts]
  dsimp only
  generalize (if fOverride then p.addUnchecked i else (p.addUnchecked i).limitMempoolSize limits)
    = q at hlimit htrim
  split_ifs
  · exact hlimit.trans htrim
  · exact hlimit

namespace RemovalSafe

variable {I : TxStore → SideIndexes → Prop} (hsafe : RemovalSafe I) (hI : I p.info p.idx)
include hsafe hI

theorem removeForBlock (mnByCollateral : OutPoint → Option Uint256) (vtx : List Transaction) :
    I (p.removeForBlock mnByCollateral vtx).info (p.removeForBlock mnByCollateral vtx).idx := by
  rw [MemPool.removeForBlock]
  induction vtx generalizing p with
  | nil => exact hI
  | cons tx vtx ih =>
    refine ih ?_
    have hmined : I (if (p.mapTx[tx.hash]?).isSome then p.removeStaged {tx.hash} true else p).info
        (if (p.mapTx[tx.hash]?).isSome then p.removeStaged {tx.hash} true else p).idx := by
      split_ifs
      · exact hsafe.closed.removeStaged hI _ _
      · exact hI
    rw [removeMined]
    generalize (if (p.mapTx[tx.hash]?).isSome then p.removeStaged {tx.hash} true else p) = q
      at hmined
    have hconflicts := removal_removeConflicts (hsafe.tracked hmined) tx
    exact hsafe.removal hmined (hconflicts.trans (removal_removeProTxConflicts
      (hconflicts.tracked (hsafe.tracked hmined)) mnByCollateral tx))

/-- **One operation** keeps what removals keep, if a transaction that is accepted and `clear` do. -/
theorem step {env : PoolEnv} (op : PoolOp)
    (hadd : ∀ i limits, op = .accept i limits ∨ op = .resurrect i limits → Accepted env.params p i →
      I (p.addUnchecked i).info (p.addUnchecked i).idx)
    (hclear : op = .clear → I p.clear.info p.clear.idx) :
    I (env.step p op).info (env.step p op).idx := by
  have htracked := hsafe.tracked hI
  have haccept : ∀ i limits fOverride, op = .accept i limits ∨ op = .resurrect i limits →
      I (env.acceptToMemoryPool fOverride p i limits).1.info
        (env.acceptToMemoryPool fOverride p i limits).1.idx := by
    intro i limits fOverride hop
    cases haccepts : env.accepts p i with
    | false => simpa [PoolEnv.acceptToMemoryPool, haccepts] using hI
    | true =>
      have hnew := hadd i limits hop (accepted_of_accepts haccepts)
      exact hsafe.removal hnew
        (removal_acceptToMemoryPool haccepts (hsafe.tracked hnew) fOverride limits)
  cases op with
  | accept i limits => exact haccept i limits _ (.inl rfl)
  | resurrect i limits => exact haccept i limits _ (.inr rfl)
  | removeRecursive tx => exact hsafe.removal hI (removal_removeRecursive htracked tx)
  | removeForBlock mnByCollateral vtx => exact hsafe.removeForBlock hI mnByCollateral vtx
  | removeForReorg view => exact hsafe.removal hI (.single (.closure _ fun _ => mem_select))
  | removeWithAnchor root => exact hsafe.removal hI (removal_removeWithAnchor htracked root)
  | removeProTxReferences h => exact hsafe.removal hI (removal_removeProTxReferences htracked h)
  | expire time => exact hsafe.removal hI (removal_expire p time)
  | trimToSize victims => exact hsafe.removal hI (removal_trimToSize htracked victims)
  | updateTransactionsFromBlock hashes =>
    exact (sameTxs_updateTransactionsFromBlock p hashes).keeps hI
  | clear => exact hclear rfl

end RemovalSafe

end MemPool

end KmushiCoin
