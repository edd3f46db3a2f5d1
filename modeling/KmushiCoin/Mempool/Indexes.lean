import KmushiCoin.Lib.Runs
import KmushiCoin.Masternode.PaymentChecks
import KmushiCoin.Mempool.Removal

/-!
# KmushiCoin.Mempool.Indexes

**Are the side indexes of the pool exactly what its transactions claim?** (`IndexesExact`)

Two things break this.

* `clear` forgets three of the indexes: after it the nullifiers, the references and the collaterals
  of the transactions that were in the pool are still there.
* A registration with an external collateral writes its reference the wrong way round: its own hash
  is the key, and the hash of the transaction of its collateral is the value.

Everything else keeps the indexes exact (`indexes_exact_of_run`). That a transaction which leaves
erases no key of another one rests on the conflict check of `AcceptToMemoryPool`, and on updates
being accepted only once the registration they refer to is mined: `existsProviderTxConflict` lets an
update share an address or a key with its own registration.
-/

namespace KmushiCoin

open Transaction Function Finset ProRegPL SideIndexes List Option

open ClaimIndex (Indexes)

/-- The registration that a transaction updates. -/
def Transaction.proTxRefs (tx : Transaction) : List Uint256 :=
  if tx.isSpecialTx then
    match tx.nType with
    | .proUpServ => ((getTxPayload getProUpServPL tx).map (·.proTxHash)).toList
    | .proUpReg => ((getTxPayload getProUpRegPL tx).map (·.proTxHash)).toList
    | .proUpRev => ((getTxPayload getProUpRevPL tx).map (·.proTxHash)).toList
    | _ => []
  else []

variable {p : MemPool} {o : OutPoint}

namespace MemPool

/-- The hashes of the transactions in the pool. -/
def ids (p : MemPool) : Finset Uint256 := (p.mapTx.toList.map Prod.fst).toFinset

theorem mem_ids {x} : x ∈ p.ids ↔ (p.info x).isSome := by
  simp only [ids, List.mem_toFinset, List.mem_map, Prod.exists, exists_and_right, exists_eq_right,
    FMap.mem_toList, info_isSome, isSome_iff_exists]

/-- **The indexes are exactly derived from the pool.** -/
structure IndexesExact (p : MemPool) : Prop where
  next : Indexes p.info (fun i => i.tx.prevouts) (fun _ i => i.tx) p.idx.mapNextTx
  nullifiers : Indexes p.info (fun i => i.tx.shieldedSpends.map (·.nullifier)) (fun _ i => i.tx)
    p.idx.mapSaplingNullifiers
  addresses : Indexes p.info (fun i => i.tx.providerClaims.addresses) (fun h _ => h)
    p.idx.mapProTxAddresses
  keyIDs : Indexes p.info (fun i => i.tx.providerClaims.keyIDs) (fun h _ => h)
    p.idx.mapProTxPubKeyIDs
  collaterals : Indexes p.info (fun i => i.tx.providerClaims.collaterals) (fun h _ => h)
    p.idx.mapProTxCollaterals
  /-- No reference is held twice. -/
  refs_nodup : p.idx.mapProTxRefs.Nodup
  refs : ∀ proTxHash txid, (proTxHash, txid) ∈ p.idx.mapProTxRefs ↔
    ∃ i, p.info txid = some i ∧ proTxHash ∈ i.tx.proTxRefs
  totalTxSize : p.idx.totalTxSize = ∑ x ∈ p.ids, ((p.info x).map TxInfo.nTxSize).getD 0

/-- What can spoil the indexes when a transaction is accepted. -/
structure Undisturbed (p : MemPool) (i : TxInfo) : Prop where
  /-- No transaction has the null hash. -/
  hash_ne : i.tx.hash ≠ 0
  /-- No external collateral is registered. -/
  internal : i.tx.providerClaims.collaterals = []
  /-- The registration that is updated is mined. -/
  mined : ∀ proTxHash ∈ i.tx.proTxRefs, p.info proTxHash = none

/-- The condition on an operation. -/
def Spares (p : MemPool) : PoolOp → Prop
  | .accept i _ | .resurrect i _ => Undisturbed p i
  | .clear => ∀ x i, p.info x = some i → i.tx.shieldedSpends = [] ∧ i.tx.proTxRefs = []
  | _ => True

/-! ### The invariant -/

/-- All indexes but that of the references. -/
structure Matched (info : TxStore) (idx : SideIndexes) : Prop extends Tracked info idx where
  nullifiers : Indexes info (fun i => i.tx.shieldedSpends.map (·.nullifier)) (fun _ i => i.tx)
    idx.mapSaplingNullifiers
  addresses : Indexes info (fun i => i.tx.providerClaims.addresses) (fun h _ => h)
    idx.mapProTxAddresses
  keyIDs : Indexes info (fun i => i.tx.providerClaims.keyIDs) (fun h _ => h)
    idx.mapProTxPubKeyIDs
  collaterals : Indexes info (fun i => i.tx.providerClaims.collaterals) (fun h _ => h)
    idx.mapProTxCollaterals
  total : ∃ S : Finset Uint256, (∀ x, x ∈ S ↔ (info x).isSome) ∧
    idx.totalTxSize = ∑ x ∈ S, ((info x).map TxInfo.nTxSize).getD 0

/-- The references, while no external collateral is registered. -/
structure RefsMatched (info : TxStore) (idx : SideIndexes) : Prop where
  keyed : ∀ x i, info x = some i → i.tx.hash = x
  hash_ne : ∀ x i, info x = some i → x ≠ 0
  internal : ∀ x i, info x = some i → i.tx.providerClaims.collaterals = []
  nodup : idx.mapProTxRefs.Nodup
  refs : ∀ r, r ∈ idx.mapProTxRefs ↔ ∃ i, info r.2 = some i ∧ r.1 ∈ i.tx.proTxRefs

theorem Matched.exact (h : Matched p.info p.idx) (hr : RefsMatched p.info p.idx) :
    p.IndexesExact where
  next := h.next
  nullifiers := h.nullifiers
  addresses := h.addresses
  keyIDs := h.keyIDs
  collaterals := h.collaterals
  refs_nodup := hr.nodup
  refs := fun proTxHash txid => hr.refs (proTxHash, txid)
  totalTxSize := by
    obtain ⟨S, hS, htotal⟩ := h.total
    have hids : S = p.ids := ext fun x => (hS x).trans mem_ids.symm
    rw [htotal, hids]

end MemPool

/-! ### The claims of one transaction -/

/-- The kinds of transactions, with what they claim and what they refer to. An update may share an
address or a key with its registration and with no other transaction. -/
inductive ProviderView (tx : Transaction) : Prop
  | proReg (pl : ProRegPL) (hspecial : tx.isSpecialTx = true) (htype : tx.nType = .proReg)
    (hpl : getTxPayload getProRegPL tx = some pl) (hclaims : tx.providerClaims = pl.claims tx.hash)
    (hrefs : tx.proTxRefs = [])
  | update (proTxHash : Uint256) (addresses : List Service) (keyIDs : List KeyID)
    (hclaims : tx.providerClaims =
      ⟨addresses, keyIDs, [], [], [(proTxHash, tx.hash)], [(proTxHash, tx.hash)]⟩)
    (hrefs : tx.proTxRefs = [proTxHash])
    (haddresses : ∀ {p : MemPool}, p.existsProviderTxConflict tx = false → ∀ a ∈ addresses,
      ∀ h, p.idx.mapProTxAddresses[a]? = some h → h = proTxHash)
    (hkeyIDs : ∀ {p : MemPool}, p.existsProviderTxConflict tx = false → ∀ k ∈ keyIDs,
      ∀ h, p.idx.mapProTxPubKeyIDs[k]? = some h → h = proTxHash)
  | other (hclaims : tx.providerClaims = {}) (hrefs : tx.proTxRefs = [])

theorem providerView (tx : Transaction) : ProviderView tx := by
  cases hspecial : tx.isSpecialTx with
  | false => refine .other ?_ ?_ <;> simp [providerClaims, proTxRefs, *]
  | true =>
    cases htype : tx.nType with
    | proReg =>
      have hrefs : tx.proTxRefs = [] := by simp [proTxRefs, *]
      cases hpl : getTxPayload getProRegPL tx with
      | none => exact .other (by simp [providerClaims, *]) hrefs
      | some pl =>
        exact .proReg pl hspecial htype hpl (by simp [providerClaims, *]) hrefs
    | proUpServ =>
      cases hpl : getTxPayload getProUpServPL tx with
      | none => refine .other ?_ ?_ <;> simp [providerClaims, proTxRefs, *]
      | some pl =>
        refine .update pl.proTxHash [pl.addr] [] ?_ ?_ (fun hfree a ha h hh => ?_) (by simp)
        · simp [providerClaims, ProUpServPL.claims, *]
        · simp [proTxRefs, *]
        · obtain rfl := List.mem_singleton.1 ha
          simpa [MemPool.existsProviderTxConflict, *] using hfree
    | proUpReg =>
      cases hpl : getTxPayload getProUpRegPL tx with
      | none => refine .other ?_ ?_ <;> simp [providerClaims, proTxRefs, *]
      | some pl =>
        refine .update pl.proTxHash [] [pl.keyIDOperator] ?_ ?_ (by simp) fun hfree k hk h hh => ?_
        · simp [providerClaims, ProUpRegPL.claims, *]
        · simp [proTxRefs, *]
        · obtain rfl := List.mem_singleton.1 hk
          simpa [MemPool.existsProviderTxConflict, *] using hfree
    | proUpRev =>
      cases hpl : getTxPayload getProUpRevPL tx with
      | none => refine .other ?_ ?_ <;> simp [providerClaims, proTxRefs, *]
      | some pl =>
        refine .update pl.proTxHash [] [] ?_ ?_ (by simp) (by simp) <;>
          simp [providerClaims, ProUpRevPL.claims, proTxRefs, *]
    | normal | unknown =>
      refine .other ?_ ?_ <;> simp [providerClaims, proTxRefs, *]

namespace Transaction

variable {tx : Transaction}

/-- A collateral that is claimed has a hash. -/
theorem hash_of_mem_collaterals (h : o ∈ tx.providerClaims.collaterals) : o.hash ≠ 0 := by
  cases providerView tx with
  | proReg pl _ _ _ hclaims =>
    simp only [hclaims, claims] at h
    split_ifs at h with hc
    · rwa [List.mem_singleton.1 h]
    · cases h
  | update _ _ _ hclaims => simp [hclaims] at h
  | other hclaims => simp [hclaims] at h

/-- The collaterals that are erased are those that were claimed, and outpoints without a hash. -/
theorem mem_erasedCollaterals (ho : o.hash ≠ 0) :
    o ∈ tx.providerClaims.erasedCollaterals ↔ o ∈ tx.providerClaims.collaterals := by
  cases providerView tx with
  | proReg pl _ _ _ hclaims =>
    simp only [hclaims, claims, List.mem_singleton]
    split_ifs with hc
    · rw [List.mem_singleton]
    · simp only [ne_eq, not_not] at hc
      simp only [List.not_mem_nil, iff_false]
      rintro rfl
      exact ho hc
  | update _ _ _ hclaims => simp [hclaims]
  | other hclaims => simp [hclaims]

/-- Without an external collateral, the references are those to the registration. -/
theorem refs_of_internal (h : tx.providerClaims.collaterals = []) :
    tx.providerClaims.refs = tx.proTxRefs.map fun proTxHash => (proTxHash, tx.hash) := by
  cases providerView tx with
  | proReg pl _ _ _ hclaims hrefs =>
    simp only [hclaims, claims, hrefs] at h ⊢
    split_ifs at h ⊢ with hc
    rfl
  | update _ _ _ hclaims hrefs => simp [hclaims, hrefs]
  | other hclaims hrefs => simp [hclaims, hrefs]

/-- The references that are erased, apart from those to nothing. -/
theorem mem_erasedRefs_of_internal (h : tx.providerClaims.collaterals = []) {r}
    (hr : r.2 ≠ 0) : r ∈ tx.providerClaims.erasedRefs ↔ r.1 ∈ tx.proTxRefs ∧ r.2 = tx.hash := by
  cases providerView tx with
  | proReg pl _ _ _ hclaims hrefs =>
    by_cases hc : pl.collateralOutpoint.hash = 0
    · simp only [hclaims, claims, hrefs, List.not_mem_nil, false_and, iff_false]
      split_ifs
      · rw [List.mem_singleton]
        rintro rfl
        exact hr hc
      · simp
    · simp [hclaims, claims, hc] at h
  | update _ _ _ hclaims hrefs => simp [hclaims, hrefs, Prod.ext_iff]
  | other hclaims hrefs => simp [hclaims, hrefs]

theorem nodup_proTxRefs (tx : Transaction) : tx.proTxRefs.Nodup := by
  cases providerView tx with
  | proReg _ _ _ _ _ hrefs => simp [hrefs]
  | update _ _ _ _ hrefs => simp [hrefs]
  | other _ hrefs => simp [hrefs]

end Transaction

/-! ### Transactions that enter -/

namespace MemPool

section
variable {p : MemPool} {i : TxInfo} (hp : Matched p.info p.idx)
  (hconflict : p.existsProviderTxConflict i.tx = false)
  (hmined : ∀ proTxHash ∈ i.tx.proTxRefs, p.info proTxHash = none)
include hp hconflict hmined

/-- The conflict check finds an address or a key that is taken; the registration of an update is
not in the pool. -/
theorem fresh_claims : (∀ a ∈ i.tx.providerClaims.addresses, p.idx.mapProTxAddresses[a]? = none) ∧
      ∀ k ∈ i.tx.providerClaims.keyIDs, p.idx.mapProTxPubKeyIDs[k]? = none := by
  cases providerView i.tx with
  | proReg pl hspecial htype hpl hclaims =>
    simp only [existsProviderTxConflict, hspecial, htype, hpl, if_true, Bool.or_eq_false_iff,
      isSome_eq_false_iff, isNone_iff_eq_none] at hconflict
    simp only [hclaims, claims, List.forall_mem_cons]
    exact ⟨⟨hconflict.1.1.1, by simp⟩, hconflict.1.1.2, hconflict.1.2, by simp⟩
  | update proTxHash _ _ hclaims hrefs haddresses hkeyIDs =>
    have hnone := hmined proTxHash (by simp [hrefs])
    rw [hclaims]
    exact ⟨fun a ha => hp.addresses.get_eq_none hnone (haddresses hconflict a ha),
      fun k hk => hp.keyIDs.get_eq_none hnone (hkeyIDs hconflict k hk)⟩
  | other hclaims => simp [hclaims]

omit hp hmined in
theorem fresh_collaterals (ho : o ∈ i.tx.providerClaims.collaterals) :
    p.idx.mapProTxCollaterals[o]? = none := by
  have hhash := hash_of_mem_collaterals ho
  cases providerView i.tx with
  | proReg pl hspecial htype hpl hclaims =>
    simp only [hclaims, claims] at ho
    split_ifs at ho with hc
    · simp only [existsProviderTxConflict, hspecial, htype, hpl, if_true, Bool.or_eq_false_iff,
        Bool.and_eq_false_iff, decide_eq_false_iff_not, not_not, hc, false_or,
        isSome_eq_false_iff, isNone_iff_eq_none] at hconflict
      rw [List.mem_singleton.1 ho]
      exact hconflict.2.1
    · cases ho
  | update _ _ _ hclaims => simp [hclaims] at ho
  | other hclaims => simp [hclaims] at ho

end

variable {params : ConsensusParams} {i : TxInfo}

theorem Matched.addUnchecked (hp : Matched p.info p.idx) (hi : Accepted params p i)
    (hmined : ∀ proTxHash ∈ i.tx.proTxRefs, p.info proTxHash = none) :
    Matched (p.addUnchecked i).info (p.addUnchecked i).idx := by
  refine ⟨hp.toTracked.addUnchecked hi, ?_, ?_, ?_, ?_, ?_⟩ <;>
    rw [addUnchecked_idx, addUnchecked_info hi.new] <;>
    simp only [add, uncheckedSpecialTx_eq]
  · refine hp.nullifiers.add hi.new ?_ fun k => ?_
    · intro k hk
      obtain ⟨sd, hsd, rfl⟩ := mem_map.1 hk
      exact hi.unrevealed sd hsd
    · have := FMap.get_foldl_insert p.idx.mapSaplingNullifiers
        (i.tx.shieldedSpends.map (·.nullifier)) i.tx k
      rwa [foldl_map] at this
  · exact hp.addresses.add_insertIfNew hi.new (fresh_claims hp hi.noConflict hmined).1
  · exact hp.keyIDs.add_insertIfNew hi.new (fresh_claims hp hi.noConflict hmined).2
  · exact hp.collaterals.add_insertIfNew hi.new fun _ => fresh_collaterals hi.noConflict
  · obtain ⟨S, hS, htotal⟩ := hp.total
    have hnew : i.tx.hash ∉ S := by simp [hS, hi.new]
    refine ⟨insert i.tx.hash S, fun x => ?_, ?_⟩
    · rw [mem_insert, hS, update_apply]
      split_ifs with hx <;> simp [hx]
    · rw [sum_insert hnew, update_self, htotal, add_comm]
      congr 1
      refine sum_congr rfl fun x hx => ?_
      rw [update_of_ne]
      rintro rfl
      exact hnew hx

theorem RefsMatched.addUnchecked (hp : RefsMatched p.info p.idx) (hi : Accepted params p i)
    (hu : Undisturbed p i) : RefsMatched (p.addUnchecked i).info (p.addUnchecked i).idx := by
  rw [addUnchecked_idx, addUnchecked_info hi.new]
  have hupdate := fun {y j} => added_eq_some hi.new (y := y) (j := j)
  have hrefs : (p.idx.add i).mapProTxRefs =
      p.idx.mapProTxRefs ++ i.tx.proTxRefs.map fun proTxHash => (proTxHash, i.tx.hash) := by
    simp only [add, uncheckedSpecialTx_eq, refs_of_internal hu.internal]
  refine ⟨?_, ?_, ?_, ?_, ?_⟩
  · intro y j hy
    rcases hupdate.1 hy with ⟨rfl, rfl⟩ | hy
    · rfl
    · exact hp.keyed y j hy
  · intro y j hy
    rcases hupdate.1 hy with ⟨rfl, rfl⟩ | hy
    · exact hu.hash_ne
    · exact hp.hash_ne y j hy
  · intro y j hy
    rcases hupdate.1 hy with ⟨rfl, rfl⟩ | hy
    · exact hu.internal
    · exact hp.internal y j hy
  · rw [hrefs, List.nodup_append']
    refine ⟨hp.nodup, i.tx.nodup_proTxRefs.map fun _ _ h => congrArg Prod.fst h, ?_⟩
    -- a reference that is there names a transaction that is there
    intro r hr hnew
    obtain ⟨proTxHash, -, rfl⟩ := List.mem_map.1 hnew
    obtain ⟨j, hj, -⟩ := (hp.refs _).1 hr
    simp [hi.new] at hj
  · intro r
    rw [hrefs, List.mem_append, hp.refs, List.mem_map]
    constructor
    · rintro (⟨j, hj, hmem⟩ | ⟨proTxHash, hmem, rfl⟩)
      · exact ⟨j, hupdate.2 (.inr hj), hmem⟩
      · exact ⟨i, hupdate.2 (.inl ⟨rfl, rfl⟩), hmem⟩
    · rintro ⟨j, hj, hmem⟩
      rcases hupdate.1 hj with ⟨hr, rfl⟩ | hj
      · exact .inr ⟨r.1, hmem, Prod.ext rfl hr.symm⟩
      · exact .inl ⟨j, hj, hmem⟩

/-! ### Transactions that leave -/

theorem Matched.removalClosed : RemovalClosed Matched := by
  intro info idx x i h hx
  have htx : ∀ y j, info y = some j → j.tx = i.tx → y = x := by
    intro y j hy htx
    rw [← h.keyed y j hy, htx]
    exact h.keyed x i hx
  refine ⟨Tracked.removalClosed info idx x i h.toTracked hx, ?_, ?_, ?_, ?_, ?_⟩ <;>
    simp only [remove, uncheckedSpecialTx_eq]
  · refine h.nullifiers.remove hx htx fun k => ?_
    have := FMap.get_foldl_erase idx.mapSaplingNullifiers (i.tx.shieldedSpends.map (·.nullifier)) k
    rwa [foldl_map] at this
  · exact h.addresses.remove_erase hx fun _ _ _ hval => hval
  · exact h.keyIDs.remove_erase hx fun _ _ _ hval => hval
  · refine h.collaterals.remove hx (fun _ _ _ hval => hval) fun o => ?_
    rw [FMap.get_foldl_erase]
    by_cases ho : o.hash = 0
    · -- no outpoint without a hash is there to be erased
      have hnone : idx.mapProTxCollaterals[o]? = none := by
        rw [eq_none_iff_forall_not_mem]
        intro v hv
        obtain ⟨y, j, -, hclaim, -⟩ := (h.collaterals o v).1 hv
        exact hash_of_mem_collaterals hclaim ho
      simp [hnone]
    · exact if_congr (mem_erasedCollaterals ho) rfl rfl
  · obtain ⟨S, hS, htotal⟩ := h.total
    have hmem : x ∈ S := by simp [hS, hx]
    refine ⟨S.erase x, fun y => ?_, ?_⟩
    · rw [mem_erase, hS, update_apply]
      split_ifs with hy <;> simp [hy]
    · rw [htotal, ← add_sum_erase S _ hmem, hx, map_some, getD_some,
        add_sub_cancel_left]
      refine sum_congr rfl fun y hy => ?_
      rw [update_of_ne (ne_of_mem_erase hy)]

theorem RefsMatched.removalClosed : RemovalClosed RefsMatched := by
  intro info idx x i h hx
  have hrefs : (idx.remove i).mapProTxRefs =
      idx.mapProTxRefs.filter (· ∉ i.tx.providerClaims.erasedRefs) := by
    simp only [remove, uncheckedSpecialTx_eq]
  refine ⟨fun y j hy => h.keyed y j (removed_eq_some.1 hy).2,
    fun y j hy => h.hash_ne y j (removed_eq_some.1 hy).2,
    fun y j hy => h.internal y j (removed_eq_some.1 hy).2, ?_, fun r => ?_⟩
  · rw [hrefs]
    exact h.nodup.filter _
  rw [hrefs, mem_filter, decide_eq_true_iff, h.refs]
  constructor
  · rintro ⟨⟨j, hj, hmem⟩, herased⟩
    refine ⟨j, removed_eq_some.2 ⟨fun hr => herased ?_, hj⟩, hmem⟩
    rw [hr, hx] at hj
    cases hj
    rw [mem_erasedRefs_of_internal (h.internal x i hx) (hr ▸ h.hash_ne x i hx), hr, h.keyed x i hx]
    exact ⟨hmem, rfl⟩
  · rintro ⟨j, hj, hmem⟩
    obtain ⟨hne, hj⟩ := removed_eq_some.1 hj
    refine ⟨⟨j, hj, hmem⟩, fun herased => hne ?_⟩
    rw [mem_erasedRefs_of_internal (h.internal x i hx) (h.hash_ne _ j hj),
      h.keyed x i hx] at herased
    exact herased.2

/-! ### Runs -/

/-- What holds in every state of a run. -/
structure IndexInv (info : TxStore) (idx : SideIndexes) : Prop where
  matched : Matched info idx
  refs : RefsMatched info idx

/-- A reference that is there is not dropped: its transaction is in the pool. -/
theorem IndexInv.removalSafe : RemovalSafe IndexInv where
  closed := fun info idx x i h hx => ⟨Matched.removalClosed info idx x i h.matched hx,
    RefsMatched.removalClosed info idx x i h.refs hx⟩
  dropRef := by
    intro info idx ref h hmem hout
    obtain ⟨j, hj, -⟩ := (h.refs.refs ref).1 hmem
    simp [hout] at hj
  tracked := fun h => h.matched.toTracked

theorem indexInv_empty : IndexInv (fun _ => none) {} where
  matched :=
    { keyed := by simp
      transparent := by simp
      next := ClaimIndex.indexes_empty
      nullifiers := ClaimIndex.indexes_empty
      addresses := ClaimIndex.indexes_empty
      keyIDs := ClaimIndex.indexes_empty
      collaterals := ClaimIndex.indexes_empty
      total := ⟨∅, by simp, by simp⟩ }
  refs :=
    { keyed := by simp
      hash_ne := by simp
      internal := by simp
      nodup := by simp
      refs := by simp }

variable {p q : MemPool}

/-- What `clear` leaves is empty if nothing in the pool is in the indexes that it forgets. -/
theorem IndexInv.clear (hp : IndexInv p.info p.idx)
    (hspared : ∀ x i, p.info x = some i → i.tx.shieldedSpends = [] ∧ i.tx.proTxRefs = []) :
    IndexInv p.clear.info p.clear.idx := by
  have hnull : p.idx.mapSaplingNullifiers = ∅ :=
    hp.matched.nullifiers.eq_empty fun x i hx => by simp [(hspared x i hx).1]
  have hcoll : p.idx.mapProTxCollaterals = ∅ :=
    hp.matched.collaterals.eq_empty fun x i hx => hp.refs.internal x i hx
  have hrefs : p.idx.mapProTxRefs = [] := by
    rw [eq_nil_iff_forall_not_mem]
    intro r hr
    obtain ⟨i, hi, hmem⟩ := (hp.refs.refs r).1 hr
    simp [(hspared _ i hi).2] at hmem
  have hinfo : p.clear.info = fun _ => none := funext fun x => by simp [info, MemPool.clear]
  have hidx : p.clear.idx = {} := by
    simp only [MemPool.clear, SideIndexes.clear, hnull, hcoll, hrefs]
  rw [hinfo, hidx]
  exact indexInv_empty

/-- **One operation.** -/
theorem IndexInv.step {env : PoolEnv} (hp : IndexInv p.info p.idx) (op : PoolOp)
    (hspares : p.Spares op) : IndexInv (env.step p op).info (env.step p op).idx := by
  refine IndexInv.removalSafe.step hp op ?_ ?_
  · rintro i limits (rfl | rfl) hi
    all_goals exact ⟨hp.matched.addUnchecked hi hspares.mined, hp.refs.addUnchecked hi hspares⟩
  · rintro rfl
    exact hp.clear hspares

/-- Exact indexes of an empty pool are empty. -/
theorem IndexesExact.idx_of_empty (h : p.IndexesExact) (hempty : p.mapTx = ∅) : p.idx = {} := by
  have hinfo : ∀ x i, p.info x ≠ some i := by simp [info, hempty]
  have hids : p.ids = ∅ := by simp [ids, hempty]
  have hrefs : p.idx.mapProTxRefs = [] := by
    rw [eq_nil_iff_forall_not_mem]
    intro r hr
    obtain ⟨i, hi, -⟩ := (h.refs r.1 r.2).1 hr
    exact hinfo _ i hi
  have hnext := h.next.eq_empty fun x i hx => (hinfo x i hx).elim
  have hnull := h.nullifiers.eq_empty fun x i hx => (hinfo x i hx).elim
  have haddr := h.addresses.eq_empty fun x i hx => (hinfo x i hx).elim
  have hkeys := h.keyIDs.eq_empty fun x i hx => (hinfo x i hx).elim
  have hcoll := h.collaterals.eq_empty fun x i hx => (hinfo x i hx).elim
  have htotal := h.totalTxSize
  rw [hids, sum_empty] at htotal
  cases hidx : p.idx
  simp only [hidx] at hnext hnull haddr hkeys hcoll hrefs htotal
  simp [hnext, hnull, haddr, hkeys, hcoll, hrefs, htotal]

/-- **The side indexes.** In every state of a run in which no transaction registers an external
collateral, updates refer to registrations that are mined, and the pool is only cleared when it
holds no nullifiers and no references, the indexes are exactly derived from the pool; nothing
remains when it is empty. -/
theorem indexes_exact_of_run (env : PoolEnv) {p : MemPool}
    (hrun : GuardedRun env.step Spares {} p) : p.IndexesExact ∧ (p.mapTx = ∅ → p.idx = {}) := by
  have hinit : IndexInv ({} : MemPool).info ({} : MemPool).idx := by
    have hinfo : ({} : MemPool).info = fun _ => none := funext fun x => by simp [info]
    rw [hinfo]
    exact indexInv_empty
  have hp := hrun.invariant (P := fun p => IndexInv p.info p.idx) hinit
    fun p op hp hok => hp.step op hok
  have hexact := hp.matched.exact hp.refs
  exact ⟨hexact, hexact.idx_of_empty⟩

/-! ### Conflicts -/

/-- The inputs of the pool are indexed exactly, and its nullifiers are; those that `clear` left in
the index may be there too. -/
structure Exclusive (info : TxStore) (idx : SideIndexes) : Prop extends Tracked info idx where
  revealed : ∀ x i, info x = some i → ∀ nf ∈ i.tx.shieldedSpends.map (·.nullifier),
    idx.mapSaplingNullifiers[nf]? = some i.tx

theorem Exclusive.removalSafe : RemovalSafe Exclusive where
  closed := by
    intro info idx x i h hx
    refine ⟨Tracked.removalClosed info idx x i h.toTracked hx, fun y j hy nf hnf => ?_⟩
    obtain ⟨hne, hy⟩ := removed_eq_some.1 hy
    have hown : nf ∉ i.tx.shieldedSpends.map (·.nullifier) := by
      intro hmem
      have htx := (h.revealed y j hy nf hnf).symm.trans (h.revealed x i hx nf hmem)
      exact hne (by rw [← h.keyed y j hy, some.inj htx, h.keyed x i hx])
    have herase := FMap.get_foldl_erase idx.mapSaplingNullifiers
      (i.tx.shieldedSpends.map (·.nullifier)) nf
    rw [foldl_map, if_neg hown, h.revealed y j hy nf hnf] at herase
    simpa only [remove, uncheckedSpecialTx_eq] using herase
  dropRef := fun h _ _ => ⟨⟨h.keyed, h.transparent, h.next⟩, h.revealed⟩
  tracked := fun h => h.toTracked

theorem Exclusive.addUnchecked (h : Exclusive p.info p.idx) (hi : Accepted params p i) :
    Exclusive (p.addUnchecked i).info (p.addUnchecked i).idx := by
  refine ⟨h.toTracked.addUnchecked hi, fun y j hy nf hnf => ?_⟩
  have hinsert := FMap.get_foldl_insert p.idx.mapSaplingNullifiers
    (i.tx.shieldedSpends.map (·.nullifier)) i.tx nf
  rw [foldl_map] at hinsert
  rw [addUnchecked_info hi.new] at hy
  simp only [addUnchecked_idx, add, uncheckedSpecialTx_eq, hinsert]
  rcases (added_eq_some hi.new).1 hy with ⟨-, rfl⟩ | hy
  · rw [if_pos hnf]
  · rw [if_neg, h.revealed y j hy nf hnf]
    intro hmem
    obtain ⟨sd, hsd, rfl⟩ := mem_map.1 hmem
    have hfree := hi.unrevealed sd hsd
    simp [h.revealed y j hy _ hnf] at hfree

/-- **No conflicts.** In every pool that any operations lead to, no two transactions spend the same
output or reveal the same nullifier, also after `clear` has left nullifiers in the index. What
`UpdateMempoolForReorg` makes of such a pool is one again. -/
theorem conflict_free_of_run (env : PoolEnv) {p : MemPool}
    (hrun : GuardedRun env.step (fun _ _ => True) {} p) :
    (∀ x y i j, p.info x = some i → p.info y = some j →
      (∃ o ∈ i.tx.prevouts, o ∈ j.tx.prevouts) ∨
        (∃ nf ∈ i.tx.shieldedSpends.map (·.nullifier), nf ∈ j.tx.shieldedSpends.map (·.nullifier)) →
      x = y) ∧
    ∀ fAddToMempool queuedTx view limits, GuardedRun env.step (fun _ _ => True) {}
      (env.updateMempoolForReorg fAddToMempool queuedTx view limits p) := by
  constructor
  · have hp := hrun.invariant (P := fun p => Exclusive p.info p.idx)
      ⟨⟨by simp [info], by simp [info], fun o v => by simp [info]⟩, by simp [info]⟩
      fun p op hp _ => Exclusive.removalSafe.step hp op (fun _ _ _ hi => hp.addUnchecked hi)
        fun _ => ⟨⟨by simp [info, clear], by simp [info, clear],
          fun o v => by simp [info, clear, SideIndexes.clear]⟩, by simp [info, clear]⟩
    intro x y i j hx hy hshared
    have htx : some i.tx = some j.tx := by
      rcases hshared with ⟨o, ho, ho'⟩ | ⟨nf, hnf, hnf'⟩
      · exact ((hp.next o i.tx).2 ⟨x, i, hx, ho, rfl⟩).symm.trans
          ((hp.next o j.tx).2 ⟨y, j, hy, ho', rfl⟩)
      · exact (hp.revealed x i hx nf hnf).symm.trans (hp.revealed y j hy nf hnf')
    rw [← hp.keyed x i hx, Option.some.inj htx, hp.keyed y j hy]
  · intro fAddToMempool queuedTx view limits
    -- each disconnected transaction is a few operations
    have hresurrect : ∀ s : MemPool × List Uint256,
        GuardedRun env.step (fun _ _ => True) {} s.1 → GuardedRun env.step (fun _ _ => True) {}
          (queuedTx.foldl (env.resurrect fAddToMempool) s).1 := by
      induction queuedTx with
      | nil => exact fun s hs => hs
      | cons d queuedTx ih =>
        intro s hs
        refine ih _ ?_
        have hp : GuardedRun env.step (fun _ _ => True) {}
            (if d.1.tx.isSpecialTx && d.1.tx.nType == .proReg then
              s.1.removeProTxReferences d.1.tx.hash else s.1) := by
          split_ifs
          · exact .next (.removeProTxReferences _) hs trivial
          · exact hs
        unfold PoolEnv.resurrect
        dsimp only
        generalize (if d.1.tx.isSpecialTx && d.1.tx.nType == .proReg then
          s.1.removeProTxReferences d.1.tx.hash else s.1) = q at hp ⊢
        have hr := hp.next (.resurrect d.1 d.2) trivial
        split_ifs
        · exact hr
        · exact hr.next (.removeRecursive _) trivial
        · exact hp.next (.removeRecursive _) trivial
    exact ((((hresurrect (p, []) hrun).next (.updateTransactionsFromBlock _) trivial).next
      (.removeForReorg view) trivial).next (.expire limits.time) trivial).next
        (.trimToSize limits.victims) trivial

end MemPool

namespace Sample

def poolParams : ConsensusParams := regtestAmounts regtestParams

/-- A node that has nothing against any transaction. -/
def poolEnv : PoolEnv where
  params := poolParams
  ctx :=
    { proofOfWork := true, merkleRoot := true, mutated := false, nBlockSize := 1000
      nShieldedSize := 0, prevKnown := true, coldStakeOutput := true, fColdStakingActive := true
      nMaxBlockSigOps := 40000, blockSignature := true, totalSize := fun _ => 500
      legacySigOps := fun _ => 1, checkSpecialTxNoContext := fun _ => .ok () }
  otherChecks := fun _ _ => true

/-- Pays out of the shielded pool. -/
def unshield : Transaction :=
  { hash := 501, nVersion := 3, nType := .normal, vin := [], vout := [⟨1000, [0x51]⟩]
    sapData := some
      { valueBalance := 2000, vShieldedSpend := [⟨9, 77⟩], vShieldedOutput := []
        hasBindingSig := true }
    extraPayload := none }

/-- Revokes the operator of a masternode that is registered on the chain. -/
def revokeMined : Transaction :=
  { hash := 502, nVersion := 3, nType := .proUpRev, vin := [⟨⟨8, 0⟩, []⟩], vout := [⟨1000, [0x51]⟩]
    sapData := none
    extraPayload := some (putProUpRevPL { proTxHash := 60, inputsHash := 0, vchSig := [] }) }

def poolTx (tx : Transaction) : TxInfo where
  tx := tx
  nFee := 1000
  nTxSize := 500
  nTime := 50
  spendsCoinbaseOrCoinstake := false
  sigOpCount := 1

def noLimits : PoolLimits := ⟨0, [], []⟩

def shieldThenRevoke : List PoolOp :=
  [.accept (poolTx unshield) noLimits, .accept (poolTx revokeMined) noLimits,
    .removeRecursive unshield]

end Sample

namespace MemPool

open Sample

/-- A shielded transaction enters, a revocation enters, the first one leaves. -/
theorem revocation_indexed : (shieldThenRevoke.foldl poolEnv.step {}).IndexesExact ∧
      (60, 502) ∈ (shieldThenRevoke.foldl poolEnv.step {}).idx.mapProTxRefs := by
  have hrun : GuardedRun poolEnv.step Spares {}
      (shieldThenRevoke.foldl poolEnv.step {}) := by
    have hrefs : unshield.proTxRefs = [] ∧ revokeMined.proTxRefs = [60] := by
      decide +kernel
    refine GuardedRun.foldl .init ⟨⟨by decide, by decide +kernel, ?_⟩,
      ⟨by decide, by decide +kernel, ?_⟩, trivial, trivial⟩
    · intro h hh
      rw [poolTx, hrefs.1] at hh
      cases hh
    · intro h hh
      rw [poolTx, hrefs.2, List.mem_singleton] at hh
      rw [hh]
      decide +kernel
  exact ⟨(indexes_exact_of_run poolEnv hrun).1, by decide +kernel⟩

/-- After a shielded transaction entered and the pool was cleared, the pool is empty and its
nullifier is still in the index. -/
theorem nullifier_left_after_clear : GuardedRun poolEnv.step (fun _ _ => True) {}
        ([.accept (poolTx unshield) noLimits, .clear].foldl poolEnv.step {}) ∧
      ([.accept (poolTx unshield) noLimits, .clear].foldl poolEnv.step {}).mapTx = ∅ ∧
      ([.accept (poolTx unshield) noLimits, .clear].foldl
        poolEnv.step {}).idx.mapSaplingNullifiers[(77 : Uint256)]?.map hash = some 501 :=
  ⟨.foldl .init ⟨trivial, trivial, trivial⟩, by rfl, by decide +kernel⟩

/-- A transaction of a block that was disconnected enters the pool again. -/
theorem resurrected_conflict_free :
    ((poolEnv.updateMempoolForReorg true [(poolTx revokeMined, noLimits)]
      ⟨fun _ => true, fun _ => false⟩ noLimits {}).mapTx[(502 : Uint256)]?).isSome ∧
    GuardedRun poolEnv.step (fun _ _ => True) {} (poolEnv.updateMempoolForReorg true
      [(poolTx revokeMined, noLimits)] ⟨fun _ => true, fun _ => false⟩ noLimits {}) :=
  ⟨by decide +kernel, (conflict_free_of_run poolEnv .init).2 _ _ _ _⟩

end MemPool

end KmushiCoin
