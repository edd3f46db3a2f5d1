import KmushiCoin.Coins.ViewState

/-!
# KmushiCoin.Coins.Flush

**What a flush does to the states**: the view below takes over the coins, nullifiers and
anchors of the child.

* A flush into a cache merges entry by entry (`mergeCoin_spec`, `mergeAnchor_spec`,
  `mergeNullifier_spec`). With right `fresh` flags, no coin is hidden (`NoHidden`): the merge
  does not throw, and the flags of the parent are right again.
* A flush into the database is a list of single writes, that come down to one update
  (`CoinsDB.batchWrite_inv`). The database always has the empty tree.
* The hashes of the child replace those of a parent cache **also when they are null**. The
  parent then has the best anchor and the best block of *its* base again.
-/

namespace KmushiCoin

open FMap CoinsCacheEntry

variable {root : SaplingMerkleTree → Uint256} {S : Trees root}

/-! ### Writes to the database -/

/-- What a written entry leaves in the database. -/
def writtenCoin (old : Option Coin) (e : CoinsCacheEntry) : Option Coin :=
  if e.dirty then e.value else old

def writtenNullifier (old : Option Unit) (e : NullifiersCacheEntry) : Option Unit :=
  if e.dirty then e.value else old

variable (root) in
/-- Nothing is written for the empty tree unless it is removed. -/
def writtenAnchor (rt : Uint256) (old : Option SaplingMerkleTree) (e : AnchorsSaplingCacheEntry) :
    Option SaplingMerkleTree :=
  if e.dirty then
    if e.entered && decide (rt = root .empty) then old else e.value
  else old

namespace CoinsDB

theorem writeBatch_append (d : CoinsDB) (b b' : List DBWrite) :
    d.writeBatch (b ++ b') = (d.writeBatch b).writeBatch b' :=
  List.foldl_append

theorem write_coin (d : CoinsDB) (o : OutPoint) (e : CoinsCacheEntry) :
    d.writeBatch (e.writes o) = { d with coins := d.coins.alter o (writtenCoin · e) } := by
  unfold writes writtenCoin value Coin.unspent
  cases e.dirty with
  | false => simp [writeBatch]
  | true => cases e.coin.isSpent <;> simp [writeBatch, write]

theorem write_nullifier (d : CoinsDB) (nf : Uint256) (e : NullifiersCacheEntry) :
    d.writeBatch (e.writes nf) =
      { d with nullifiers := d.nullifiers.alter nf (writtenNullifier · e) } := by
  unfold NullifiersCacheEntry.writes writtenNullifier NullifiersCacheEntry.value
  cases e.dirty with
  | false => simp [writeBatch]
  | true => cases e.entered <;> simp [writeBatch, write]

theorem write_anchor (d : CoinsDB) (rt : Uint256) (e : AnchorsSaplingCacheEntry) :
    d.writeBatch (e.writes root rt) =
      { d with anchors := d.anchors.alter rt (writtenAnchor root rt · e) } := by
  unfold AnchorsSaplingCacheEntry.writes writtenAnchor AnchorsSaplingCacheEntry.value
  cases e.dirty with
  | false => simp [writeBatch]
  | true =>
    cases e.entered with
    | false => simp [writeBatch, write]
    | true => by_cases h : rt = root .empty <;> simp [writeBatch, write, h]

/-- The writes of the entries of one kind change one map of the database. -/
theorem writeBatch_entries {K V E : Type} [Ord K] [Std.TransOrd K] [Std.LawfulEqOrd K]
    (put : CoinsDB → FMap K V → CoinsDB) (get : CoinsDB → FMap K V) (f : K → Option V → E → Option V)
    (writes : K → E → List DBWrite)
    (hone : ∀ d k e, d.writeBatch (writes k e) = put d ((get d).alter k (f k · e)))
    (hself : ∀ d, put d (get d) = d) (hget : ∀ d m, get (put d m) = m)
    (hput : ∀ d m m', put (put d m) m' = put d m') (l : List (K × E)) (d : CoinsDB) :
    d.writeBatch (l.flatMap fun e => writes e.1 e.2) =
      put d (l.foldl (fun m e => m.alter e.1 (f e.1 · e.2)) (get d)) := by
  induction l generalizing d with
  | nil => exact (hself d).symm
  | cons e l ih =>
    rw [List.flatMap_cons, writeBatch_append, hone, ih, hget, hput]
    rfl

theorem writeBatch_coins (l : List (OutPoint × CoinsCacheEntry)) (d : CoinsDB) :
    d.writeBatch (l.flatMap fun e => e.2.writes e.1) =
      { d with coins := l.foldl (fun m e => m.alter e.1 (writtenCoin · e.2)) d.coins } :=
  writeBatch_entries (fun d coins => { d with coins }) (·.coins) (fun _ => writtenCoin)
    (fun o e => e.writes o) write_coin (fun _ => rfl) (fun _ _ => rfl) (fun _ _ _ => rfl) l d

theorem writeBatch_anchors (l : List (Uint256 × AnchorsSaplingCacheEntry)) (d : CoinsDB) :
    d.writeBatch (l.flatMap fun e => e.2.writes root e.1) =
      { d with anchors := l.foldl (fun m e => m.alter e.1 (writtenAnchor root e.1 · e.2)) d.anchors } :=
  writeBatch_entries (fun d anchors => { d with anchors }) (·.anchors) (writtenAnchor root)
    (fun rt e => e.writes root rt) write_anchor (fun _ => rfl) (fun _ _ => rfl) (fun _ _ _ => rfl) l d

theorem writeBatch_nullifiers (l : List (Uint256 × NullifiersCacheEntry)) (d : CoinsDB) :
    d.writeBatch (l.flatMap fun e => e.2.writes e.1) =
      { d with
        nullifiers := l.foldl (fun m e => m.alter e.1 (writtenNullifier · e.2)) d.nullifiers } :=
  writeBatch_entries (fun d nullifiers => { d with nullifiers }) (·.nullifiers)
    (fun _ => writtenNullifier) (fun nf e => e.writes nf) write_nullifier (fun _ => rfl)
    (fun _ _ => rfl) (fun _ _ _ => rfl) l d

end CoinsDB

/-- **The complete flush into the database**, as one update. -/
theorem CoinsDB.batchWrite_inv {d d' : CoinsDB} {c : CoinsCache}
    (h : d.batchWrite root c = .ok d') :
    d' = { coins := merge (fun _ => writtenCoin) d.coins c.cacheCoins
           anchors := merge (writtenAnchor root) d.anchors c.cacheSaplingAnchors
           nullifiers := merge (fun _ => writtenNullifier) d.nullifiers c.cacheSaplingNullifiers
           bestAnchor := if c.hashSaplingAnchor ≠ 0 then some c.hashSaplingAnchor else d.bestAnchor
           headBlocks := none
           bestBlock := some c.hashBlock } := by
  obtain ⟨_, -, h⟩ := bind_ok.mp h
  obtain ⟨oldTip, -, h⟩ := bind_ok.mp h
  cases h
  rw [writeBatch_append, writeBatch_append, writeBatch_coins]
  -- the last batch
  unfold closingWrites
  rw [writeBatch_append, writeBatch_append, writeBatch_append, writeBatch_anchors,
    writeBatch_nullifiers]
  split_ifs <;> rfl

/-- The database only asserts. -/
theorem CoinsDB.batchWrite_error {d : CoinsDB} {c : CoinsCache} {f : Failure}
    (h : d.batchWrite root c = .error f) : ∃ text, f = .abort text := by
  have hassert : ∀ {b : Bool} {t : String}, assert b t = .error f → ∃ text, f = .abort text := by
    intro b t hb
    cases b with
    | true => cases hb
    | false => exact ⟨t, (Except.error.inj hb).symm⟩
  rcases bind_error.mp h with hnull | ⟨_, -, h⟩
  · exact hassert hnull
  · rcases bind_error.mp h with htip | ⟨_, -, hok⟩
    · unfold oldTip at htip
      split_ifs at htip
      cases hheads : d.headBlocks with
      | none =>
        simp [hheads] at htip
      | some heads =>
        rw [hheads] at htip
        rcases bind_error.mp htip with hhead | ⟨_, -, hok⟩
        · exact hassert hhead
        · cases hok
    · cases hok

/-! ### Coins that nothing hides -/

/-- The flags of a cache are right: it hides no coin. -/
def ViewState.NoHidden (s : ViewState) : Prop := s.hidden = ∅

theorem CoinsCache.noHidden_iff {c : CoinsCache} {base : ViewState} : (c.state base).NoHidden ↔
      c.cacheCoins.All fun o e => e.fresh = true → base.coins[o]? = none := by
  constructor
  · intro h o e he hfresh
    have hget := c.get_hidden base o
    rw [show (c.state base).hidden = ∅ from h, he] at hget
    simpa [hfresh] using hget.symm
  · intro h
    refine ext fun o => ?_
    rw [c.get_hidden base o, get_empty]
    cases he : c.cacheCoins[o]? with
    | none => rfl
    | some e => simpa using h he

/-! ### Into a cache -/

section
variable {us : Option CoinsCacheEntry} {it : CoinsCacheEntry} {base : ViewState} {o : OutPoint}

theorem value_none_iff {e : CoinsCacheEntry} : e.value = none ↔ e.coin.isSpent = true := by
  unfold value Coin.unspent
  split_ifs with h <;> simp [h]

/-- **One coin.** An entry of the child whose flag is right is merged without an exception; the
parent has its coin then, and flags that are right. -/
theorem mergeCoin_spec
    (hus : ∀ e, us = some e → CoinOk base o e ∧ (e.fresh = true → base.coins[o]? = none))
    (hclean : it.dirty = false → it.value = us.elim base.coins[o]? value)
    (hspent : it.coin.isSpent = true → it.coin = .empty)
    (hfresh : it.fresh = true → (it.dirty = false ↔ it.coin.isSpent = true) ∧
      us.elim base.coins[o]? value = none) :
    ∃ us', mergeCoin us it = .ok us' ∧ us'.elim base.coins[o]? value = it.value ∧
      ∀ e, us' = some e → CoinOk base o e ∧ (e.fresh = true → base.coins[o]? = none) := by
  unfold mergeCoin
  cases hdirty : it.dirty with
  | false => exact ⟨us, rfl, (hclean hdirty).symm, hus⟩
  | true =>
    simp only [Bool.not_true, Bool.false_eq_true, if_false]
    have hunspent : it.fresh = true → it.coin.isSpent = false := by
      intro hf
      have hiff := (hfresh hf).1
      rw [hdirty] at hiff
      simpa using hiff
    cases us with
    | none =>
      split_ifs with hboth
      · rw [Bool.and_eq_true] at hboth
        rw [hunspent hboth.1] at hboth
        cases hboth.2
      · refine ⟨_, rfl, rfl, fun e he => ?_⟩
        cases he
        refine ⟨⟨by simp, hspent, fun hf => ?_⟩, fun hf => (hfresh hf).2⟩
        simp [hunspent hf]
    | some e =>
      obtain ⟨-, hnone⟩ := hus e rfl
      dsimp only
      split_ifs with hthrow herase
      · -- a fresh entry of the child: the parent has no coin there
        rw [Bool.and_eq_true, Bool.not_eq_true'] at hthrow
        have hval : e.value = none := (hfresh hthrow.1).2
        simp [value_none_iff, hthrow.2] at hval
      · rw [Bool.and_eq_true] at herase
        refine ⟨none, rfl, ?_, by simp⟩
        show base.coins[o]? = it.value
        rw [hnone herase.1, value_none_iff.mpr herase.2]
      · refine ⟨_, rfl, rfl, fun e' he' => ?_⟩
        obtain rfl := Option.some.inj he'
        refine ⟨⟨by simp, hspent, fun hf => ?_⟩, hnone⟩
        have hne : it.coin.isSpent = false := by
          simpa [show e.fresh = true from hf] using herase
        simp [hne]

end

section
variable {base : ViewState} {rt : Uint256}

/-- **One anchor.** The parent keeps its tree, which has the same root. -/
theorem mergeAnchor_spec {us} {it}
    (hus : ∀ e, us = some e → AnchorOk S base rt e) (htree : S.mem it.tree ∧ root it.tree = rt)
    (hclean : it.dirty = false → it.value = us.elim base.anchors[rt]? (·.value)) :
    (mergeAnchor us it).elim base.anchors[rt]? (·.value) = it.value ∧
      ∀ e, mergeAnchor us it = some e → AnchorOk S base rt e := by
  unfold mergeAnchor
  cases hdirty : it.dirty with
  | false => exact ⟨(hclean hdirty).symm, hus⟩
  | true =>
    simp only [Bool.not_true, Bool.false_eq_true, if_false]
    cases us with
    | none => exact ⟨rfl, by rintro _ ⟨⟩; exact ⟨htree, by simp⟩⟩
    | some p =>
      have hp := hus p rfl
      have hsame : p.tree = it.tree := S.injective hp.tree.1 htree.1 (hp.tree.2.trans htree.2.symm)
      dsimp only
      split_ifs with hentered
      · refine ⟨by simp [AnchorsSaplingCacheEntry.value, hsame], ?_⟩
        rintro _ ⟨⟩
        exact ⟨hp.tree, by simp⟩
      · rw [not_not] at hentered
        exact ⟨by simp [AnchorsSaplingCacheEntry.value, hsame, hentered], hus⟩

end

theorem mergeNullifier_spec {base : ViewState} {nf : Uint256} {us : Option NullifiersCacheEntry}
    {it : NullifiersCacheEntry}
    (hus : ∀ e, us = some e → e.dirty = false → e.value = base.nullifiers[nf]?)
    (hclean : it.dirty = false → it.value = us.elim base.nullifiers[nf]? (·.value)) :
    (mergeNullifier us it).elim base.nullifiers[nf]? (·.value) = it.value ∧
      ∀ e, mergeNullifier us it = some e → e.dirty = false → e.value = base.nullifiers[nf]? := by
  unfold mergeNullifier
  cases hdirty : it.dirty with
  | false => exact ⟨(hclean hdirty).symm, hus⟩
  | true =>
    simp only [Bool.not_true, Bool.false_eq_true, if_false]
    cases us with
    | none => exact ⟨rfl, by rintro _ ⟨⟩ ⟨⟩⟩
    | some p =>
      dsimp only
      split_ifs with hentered
      · exact ⟨rfl, by rintro _ ⟨⟩ ⟨⟩⟩
      · rw [not_not] at hentered
        exact ⟨by simp [NullifiersCacheEntry.value, hentered], hus⟩

/-! ### The two kinds of flush -/

namespace CoinsCache

variable {p c : CoinsCache} {base : ViewState}

/-- The coins of a cache are unspent if those below are. -/
theorem unspent_of_base (hbase : base.coins.All fun _ coin => coin.isSpent = false) {o : OutPoint}
    {coin} (h : (c.state base).coins[o]? = some coin) : coin.isSpent = false := by
  rw [get_coins] at h
  cases hit : c.cacheCoins[o]? with
  | none =>
    rw [hit] at h
    exact hbase h
  | some it =>
    simp only [hit, Option.elim_some, value, Coin.unspent,
      Option.ite_none_left_eq_some, Option.some.injEq] at h
    obtain ⟨hunspent, rfl⟩ := h
    simpa using hunspent

variable (hp : p.Wf S base) (hc : c.Wf S (p.state base))
include hp hc

theorem mergeAnchors_spec (rt : Uint256) :
    (merge (fun _ => mergeAnchor) p.cacheSaplingAnchors c.cacheSaplingAnchors)[rt]?.elim
        base.anchors[rt]? (·.value) = (c.state (p.state base)).anchors[rt]? ∧
      ∀ e, (merge (fun _ => mergeAnchor) p.cacheSaplingAnchors c.cacheSaplingAnchors)[rt]? =
        some e → AnchorOk S base rt e := by
  have hus : ∀ e, p.cacheSaplingAnchors[rt]? = some e → AnchorOk S base rt e :=
    fun e he => hp.anchors he
  rw [get_merge, get_anchors]
  cases hit : c.cacheSaplingAnchors[rt]? with
  | none => exact ⟨(p.get_anchors base rt).symm, hus⟩
  | some it =>
    have hok := hc.anchors hit
    refine mergeAnchor_spec hus hok.tree ?_
    rw [← get_anchors]
    exact hok.clean

theorem mergeNullifiers_spec (nf : Uint256) :
    (merge (fun _ => mergeNullifier) p.cacheSaplingNullifiers
        c.cacheSaplingNullifiers)[nf]?.elim base.nullifiers[nf]? (·.value) =
        (c.state (p.state base)).nullifiers[nf]? ∧
      ∀ e, (merge (fun _ => mergeNullifier) p.cacheSaplingNullifiers
        c.cacheSaplingNullifiers)[nf]? = some e → e.dirty = false →
          e.value = base.nullifiers[nf]? := by
  have hus : ∀ e, p.cacheSaplingNullifiers[nf]? = some e → e.dirty = false →
      e.value = base.nullifiers[nf]? := fun e he => hp.nullifiers he
  rw [get_merge, get_nullifiers]
  cases hit : c.cacheSaplingNullifiers[nf]? with
  | none => exact ⟨(p.get_nullifiers base nf).symm, hus⟩
  | some it =>
    refine mergeNullifier_spec hus ?_
    rw [← get_nullifiers]
    exact hc.nullifiers hit

variable (hpn : (p.state base).NoHidden) (hcn : (c.state (p.state base)).NoHidden)
include hpn hcn

/-- The coins of the parent after a flush into it. -/
theorem mergeCoins_spec :
    ∃ cacheCoins, mergeM (fun _ => mergeCoin) p.cacheCoins c.cacheCoins = .ok cacheCoins ∧
      (∀ o : OutPoint, cacheCoins[o]?.elim base.coins[o]? value =
        (c.state (p.state base)).coins[o]?) ∧
      cacheCoins.All fun o e => CoinOk base o e ∧ (e.fresh = true → base.coins[o]? = none) := by
  rw [noHidden_iff] at hpn hcn
  have hus : ∀ o e, p.cacheCoins[o]? = some e →
      CoinOk base o e ∧ (e.fresh = true → base.coins[o]? = none) :=
    fun o e he => ⟨hp.coins he, hpn he⟩
  have hone : ∀ o it, c.cacheCoins[o]? = some it → ∃ us',
      mergeCoin p.cacheCoins[o]? it = .ok us' ∧ us'.elim base.coins[o]? value = it.value ∧
        ∀ e, us' = some e → CoinOk base o e ∧ (e.fresh = true → base.coins[o]? = none) := by
    intro o it hit
    have hok := hc.coins hit
    refine mergeCoin_spec (hus o) ?_ hok.spent ?_ <;> rw [← get_coins]
    · exact hok.clean
    · exact fun hf => ⟨hok.fresh hf, hcn hit hf⟩
  have hrun : ∃ r, mergeM (fun _ => mergeCoin) p.cacheCoins c.cacheCoins = .ok r :=
    mergeM_run fun o it hit => (hone o it hit).imp fun _ h => h.1
  obtain ⟨cacheCoins, hmerge⟩ := hrun
  have hcoins := mergeM_ok.mp hmerge
  -- the entry of the parent afterwards, one outpoint at a time
  have hcoin : ∀ o : OutPoint, cacheCoins[o]?.elim base.coins[o]? value =
      (c.state (p.state base)).coins[o]? ∧
      ∀ e, cacheCoins[o]? = some e →
        CoinOk base o e ∧ (e.fresh = true → base.coins[o]? = none) := by
    intro o
    have ho := hcoins o
    rw [get_coins]
    cases hit : c.cacheCoins[o]? with
    | none =>
      rw [hit] at ho
      dsimp only at ho
      rw [ho]
      exact ⟨(p.get_coins base o).symm, hus o⟩
    | some it =>
      rw [hit] at ho
      obtain ⟨us', hus', hvalue, hentry⟩ := hone o it hit
      obtain rfl := ok_unique ho hus'
      exact ⟨hvalue, hentry⟩
  exact ⟨cacheCoins, hmerge, fun o => (hcoin o).1, fun o e he => (hcoin o).2 e he⟩

/-- **A flush into a cache** with right flags does not throw. The parent takes over the coins,
nullifiers and anchors of the child, but with a null hash it falls back to its own base. -/
theorem batchWrite_spec : ∃ p', p.batchWrite c = .ok p' ∧ p'.Wf S base ∧
      p'.state base = { c.state (p.state base) with
          bestAnchor := if c.hashSaplingAnchor = 0 then base.bestAnchor else c.hashSaplingAnchor
          bestBlock := if c.hashBlock = 0 then base.bestBlock else c.hashBlock } := by
  obtain ⟨cacheCoins, hmerge, hcoins, hentries⟩ := mergeCoins_spec hp hc hpn hcn
  let p' : CoinsCache := {
    hashBlock := c.hashBlock
    cacheCoins
    hashSaplingAnchor := c.hashSaplingAnchor
    cacheSaplingAnchors := merge (fun _ => mergeAnchor) p.cacheSaplingAnchors
      c.cacheSaplingAnchors
    cacheSaplingNullifiers := merge (fun _ => mergeNullifier) p.cacheSaplingNullifiers
      c.cacheSaplingNullifiers }
  have hrun : p.batchWrite c = .ok p' := by
    rw [batchWrite, hmerge]
    rfl
  have hwf : p'.Wf S base :=
    ⟨fun o e he => (hentries he).1, fun nf e he => (mergeNullifiers_spec hp hc nf).2 e he,
      fun rt e he => (mergeAnchors_spec hp hc rt).2 e he⟩
  have hnone : (p'.state base).NoHidden := noHidden_iff.mpr fun o e he => (hentries he).2
  refine ⟨p', hrun, hwf, ViewState.ext' ?_ ?_ ?_ ?_ rfl rfl⟩
  · exact ext fun o => (get_coins p' base o).trans (hcoins o)
  · exact hnone.trans hcn.symm
  · exact ext fun nf => (get_nullifiers p' base nf).trans (mergeNullifiers_spec hp hc nf).1
  · exact ext fun rt => (get_anchors p' base rt).trans (mergeAnchors_spec hp hc rt).1

end CoinsCache

namespace CoinsDB

variable {d d' : CoinsDB} {c : CoinsCache}

/-- The anchors of the database: the empty tree is there without a record. -/
theorem get_anchors_state (rt : Uint256) :
    (d.state root).anchors[rt]? = if root .empty = rt then some .empty else d.anchors[rt]? :=
  get_insert _ _ _ _

theorem writtenAnchors_wf (hd : d.Wf S) (hc : c.Wf S (d.state root)) :
    (merge (writtenAnchor root) d.anchors c.cacheSaplingAnchors).All
      fun rt t => S.mem t ∧ root t = rt := by
  intro rt t hget
  rw [get_merge] at hget
  cases hit : c.cacheSaplingAnchors[rt]? with
  | none =>
    rw [hit] at hget
    exact hd.anchors hget
  | some it =>
    rw [hit] at hget
    simp only [writtenAnchor, AnchorsSaplingCacheEntry.value] at hget
    split_ifs at hget
    · exact hd.anchors hget
    · cases hget
      exact (hc.anchors hit).tree
    · exact hd.anchors hget

theorem written_eq {V : Type} {dirty : Bool} {value old : Option V} (h : dirty = false → value = old) :
    (if dirty then value else old) = value := by
  cases dirty with
  | true => rfl
  | false => exact (h rfl).symm

/-- **A flush into the database**: it takes over everything, as long as the child still has the
empty tree. -/
theorem batchWrite_spec (hd : d.Wf S) (hc : c.Wf S (d.state root))
    (hempty : (c.state (d.state root)).anchors[root .empty]? = some .empty)
    (h : d.batchWrite root c = .ok d') :
    d'.Wf S ∧ d'.headBlocks = none ∧
      d'.state root = { c.state (d.state root) with hidden := ∅, bestBlock := c.hashBlock } := by
  obtain rfl := batchWrite_inv h
  have hcoin : ∀ o : OutPoint, (merge (fun _ => writtenCoin) d.coins c.cacheCoins)[o]? =
      (c.state (d.state root)).coins[o]? := by
    intro o
    rw [get_merge, CoinsCache.get_coins]
    cases hit : c.cacheCoins[o]? with
    | none => rfl
    | some it => exact written_eq (hc.coins hit).clean
  have hnull : ∀ nf : Uint256, (merge (fun _ => writtenNullifier) d.nullifiers
      c.cacheSaplingNullifiers)[nf]? = (c.state (d.state root)).nullifiers[nf]? := by
    intro nf
    rw [get_merge, CoinsCache.get_nullifiers]
    cases hit : c.cacheSaplingNullifiers[nf]? with
    | none => rfl
    | some it => exact written_eq (hc.nullifiers hit)
  have hanchor : ∀ rt : Uint256, root .empty ≠ rt → (merge (writtenAnchor root) d.anchors
      c.cacheSaplingAnchors)[rt]? = (c.state (d.state root)).anchors[rt]? := by
    intro rt hne
    have hbase : (d.state root).anchors[rt]? = d.anchors[rt]? := by
      rw [get_anchors_state, if_neg hne]
    rw [get_merge, CoinsCache.get_anchors]
    cases hit : c.cacheSaplingAnchors[rt]? with
    | none => exact hbase.symm
    | some it =>
      simp only [writtenAnchor, hne.symm, decide_false, Bool.and_false, Bool.false_eq_true, if_false]
      exact written_eq fun hdirty => ((hc.anchors hit).clean hdirty).trans hbase
  refine ⟨⟨?_, ?_⟩, rfl, ViewState.ext' (ext hcoin) rfl (ext hnull) (ext ?_) ?_ rfl⟩
  · intro o coin hget
    rw [hcoin] at hget
    exact CoinsCache.unspent_of_base hd.coins hget
  · exact writtenAnchors_wf hd hc
  · intro rt
    rw [get_anchors_state]
    by_cases hrt : root .empty = rt
    · rw [if_pos hrt, ← hrt]
      exact hempty.symm
    · rw [if_neg hrt]
      exact hanchor rt hrt
  · show Option.getD (if c.hashSaplingAnchor ≠ 0 then some c.hashSaplingAnchor else d.bestAnchor)
      (root .empty) = if c.hashSaplingAnchor = 0 then d.bestAnchor.getD (root .empty) else _
    by_cases hnull : c.hashSaplingAnchor = 0 <;> simp [hnull]

end CoinsDB

end KmushiCoin
