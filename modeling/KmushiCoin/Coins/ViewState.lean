import KmushiCoin.Coins.View

/-!
# KmushiCoin.Coins.ViewState

**What a view means.** The state of a view (`ViewState`) is a set of coins, nullifiers and
anchors as plain finite maps; the states of a stack are those of its views, from the top.

* The invariant (`Wf`) says that an entry that is not dirty agrees with the view below.
* Nothing here assumes that a `fresh` flag is right. An entry with a wrong flag covers a
  coin of the view below, that is seen again when the entry is spent: the **hidden** coins.
  With them the state is exact: a coin that is added hides the one it replaces, and a
  coin that is spent gives way to the one it hides.
* A read leaves all states of the stack as they are; a write changes the top state only.
-/

namespace KmushiCoin

open FMap CoinsCache CoinsCacheEntry Coin CoinsViewCache Bool

/-- The contents of a view. -/
structure ViewState where
  coins : FMap OutPoint Coin
  /-- The coins below that a fresh entry covers. -/
  hidden : FMap OutPoint Coin
  nullifiers : FMap Uint256 Unit
  anchors : FMap Uint256 SaplingMerkleTree
  bestAnchor : Uint256
  bestBlock : Uint256

variable {s s' : ViewState}

variable {o : OutPoint} {rt : Uint256}

namespace ViewState

@[ext] theorem ext' (hcoins : s.coins = s'.coins) (hhidden : s.hidden = s'.hidden)
    (hnullifiers : s.nullifiers = s'.nullifiers) (hanchors : s.anchors = s'.anchors)
    (hbestAnchor : s.bestAnchor = s'.bestAnchor) (hbestBlock : s.bestBlock = s'.bestBlock) :
    s = s' := by
  cases s
  cases s'
  simp_all

/-- Set the coin at an outpoint, and the one that it hides. -/
def setCoin (s : ViewState) (o : OutPoint) (coin hidden : Option Coin) : ViewState :=
  { s with coins := s.coins.alter o fun _ => coin, hidden := s.hidden.alter o fun _ => hidden }

/-- The coin replaces what is there. -/
def overwrite (s : ViewState) (o : OutPoint) (c : Coin) : ViewState :=
  s.setCoin o (some c) s.hidden[o]?

/-- The coin hides what is there. -/
def add (s : ViewState) (o : OutPoint) (c : Coin) : ViewState := s.setCoin o (some c) s.coins[o]?

/-- The coin gives way to the one it hides. -/
def spend (s : ViewState) (o : OutPoint) : ViewState := s.setCoin o s.hidden[o]? none

def setNullifierTo (s : ViewState) (nf : Uint256) (value : Option Unit) : ViewState :=
  { s with nullifiers := s.nullifiers.alter nf fun _ => value }

def setNullifier (s : ViewState) (nf : Uint256) (spent : Bool) : ViewState :=
  s.setNullifierTo nf (if spent then some () else none)

def setAnchorTo (s : ViewState) (rt : Uint256) (value : Option SaplingMerkleTree) : ViewState :=
  { s with anchors := s.anchors.alter rt fun _ => value }

def setBestAnchor (s : ViewState) (bestAnchor : Uint256) : ViewState := { s with bestAnchor }

def setBestBlock (s : ViewState) (bestBlock : Uint256) : ViewState := { s with bestBlock }

def pushAnchor (root : SaplingMerkleTree → Uint256) (s : ViewState) (tree : SaplingMerkleTree) :
    ViewState :=
  if s.bestAnchor ≠ root tree then
    (s.setAnchorTo (root tree) (some tree)).setBestAnchor (root tree)
  else s

def popAnchor (s : ViewState) (newrt : Uint256) : ViewState :=
  if s.bestAnchor ≠ newrt then
    (s.setAnchorTo s.bestAnchor none).setBestAnchor newrt
  else s

theorem get_setCoin (s : ViewState) (o a : OutPoint) (coin hidden : Option Coin) :
    (s.setCoin o coin hidden).coins[a]? = if o = a then coin else s.coins[a]? :=
  get_alter _ _ _ _

theorem get_hidden_setCoin (s : ViewState) (o a : OutPoint) (coin hidden : Option Coin) :
    (s.setCoin o coin hidden).hidden[a]? = if o = a then hidden else s.hidden[a]? :=
  get_alter _ _ _ _

theorem setCoin_self {coin hidden} (hcoin : s.coins[o]? = coin)
    (hhidden : s.hidden[o]? = hidden) : s.setCoin o coin hidden = s :=
  ext' (alter_eq_self hcoin) (alter_eq_self hhidden) rfl rfl rfl rfl

end ViewState

/-! ### The state of a view -/

/-- The value of an entry for a plain map. -/
def CoinsCacheEntry.value (e : CoinsCacheEntry) : Option Coin := e.coin.unspent

def AnchorsSaplingCacheEntry.value (e : AnchorsSaplingCacheEntry) : Option SaplingMerkleTree :=
  if e.entered then some e.tree else none

def NullifiersCacheEntry.value (e : NullifiersCacheEntry) : Option Unit :=
  if e.entered then some () else none

/-- The entries of a cache over the contents of the view below. -/
def CoinsCache.state (c : CoinsCache) (base : ViewState) : ViewState where
  coins := merge (fun _ _ => value) base.coins c.cacheCoins
  hidden := Std.ExtTreeMap.filterMap (fun o (e : CoinsCacheEntry) =>
    if e.fresh then base.coins[o]? else none) c.cacheCoins
  nullifiers := merge (fun _ _ => NullifiersCacheEntry.value) base.nullifiers
    c.cacheSaplingNullifiers
  anchors := merge (fun _ _ => AnchorsSaplingCacheEntry.value) base.anchors
    c.cacheSaplingAnchors
  bestAnchor := if c.hashSaplingAnchor = 0 then base.bestAnchor else c.hashSaplingAnchor
  bestBlock := if c.hashBlock = 0 then base.bestBlock else c.hashBlock

section
variable (root : SaplingMerkleTree → Uint256)

/-- The contents of the database; the empty tree is always there. -/
def CoinsDB.state (d : CoinsDB) : ViewState where
  coins := d.coins
  hidden := ∅
  nullifiers := d.nullifiers
  anchors := d.anchors.insert (root .empty) .empty
  bestAnchor := d.bestAnchor.getD (root .empty)
  bestBlock := d.getBestBlock

def CoinsView.state : CoinsView → ViewState
  | .db d => d.state root
  | .cache c base => c.state base.state

/-- The states of the views of a stack, from the top. -/
def CoinsView.states : CoinsView → List ViewState
  | .db d => [d.state root]
  | .cache c base => c.state (base.state root) :: base.states

end

namespace CoinsCache

variable (c : CoinsCache) (base : ViewState)

theorem get_coins (o : OutPoint) : (c.state base).coins[o]? =
    c.cacheCoins[o]?.elim base.coins[o]? value := by
  rw [state, get_merge]
  cases c.cacheCoins[o]? <;> rfl

theorem get_hidden (o : OutPoint) : (c.state base).hidden[o]? =
    c.cacheCoins[o]?.bind fun e => if e.fresh then base.coins[o]? else none :=
  get_filterMap _ _ o

theorem get_nullifiers (nf : Uint256) : (c.state base).nullifiers[nf]? =
    c.cacheSaplingNullifiers[nf]?.elim base.nullifiers[nf]? NullifiersCacheEntry.value := by
  rw [state, get_merge]
  cases c.cacheSaplingNullifiers[nf]? <;> rfl

theorem get_anchors (rt : Uint256) : (c.state base).anchors[rt]? =
    c.cacheSaplingAnchors[rt]?.elim base.anchors[rt]? AnchorsSaplingCacheEntry.value := by
  rw [state, get_merge]
  cases c.cacheSaplingAnchors[rt]? <;> rfl

theorem state_setCoin (o : OutPoint) (e : CoinsCacheEntry) :
    ({ c with cacheCoins := c.cacheCoins.insert o e } : CoinsCache).state base =
      (c.state base).setCoin o e.value (if e.fresh then base.coins[o]? else none) := by
  refine ViewState.ext' (ext fun a => ?_) (ext fun a => ?_) rfl rfl rfl rfl
  · rw [get_coins, ViewState.get_setCoin, get_coins, get_insert]
    split_ifs <;> rfl
  · rw [get_hidden, ViewState.get_hidden_setCoin, get_hidden, get_insert]
    by_cases h : o = a <;> simp [h]

theorem state_eraseCoin (o : OutPoint) :
    ({ c with cacheCoins := c.cacheCoins.erase o } : CoinsCache).state base =
      (c.state base).setCoin o base.coins[o]? none := by
  refine ViewState.ext' (ext fun a => ?_) (ext fun a => ?_) rfl rfl rfl rfl
  · rw [get_coins, ViewState.get_setCoin, get_coins, get_erase]
    by_cases h : o = a <;> simp [h]
  · rw [get_hidden, ViewState.get_hidden_setCoin, get_hidden, get_erase]
    split_ifs <;> rfl

theorem state_setNullifier (nf : Uint256) (e : NullifiersCacheEntry) :
    ({ c with cacheSaplingNullifiers := c.cacheSaplingNullifiers.insert nf e } : CoinsCache).state
        base = (c.state base).setNullifierTo nf e.value := by
  refine ViewState.ext' rfl rfl (ext fun a => ?_) rfl rfl rfl
  rw [get_nullifiers, ViewState.setNullifierTo, get_alter, get_nullifiers, get_insert]
  split_ifs <;> rfl

theorem state_setAnchor (rt : Uint256) (e : AnchorsSaplingCacheEntry) :
    ({ c with cacheSaplingAnchors := c.cacheSaplingAnchors.insert rt e } : CoinsCache).state base =
      (c.state base).setAnchorTo rt e.value := by
  refine ViewState.ext' rfl rfl rfl (ext fun a => ?_) rfl rfl
  rw [get_anchors, ViewState.setAnchorTo, get_alter, get_anchors, get_insert]
  split_ifs <;> rfl

end CoinsCache

/-! ### The invariant -/

/-- An entry without changes has the coin of the view below; a spent entry is cleared, and a
fresh entry is spent exactly as long as it has no changes. -/
structure CoinOk (base : ViewState) (o : OutPoint) (e : CoinsCacheEntry) : Prop where
  clean : e.dirty = false → e.value = base.coins[o]?
  spent : e.coin.isSpent = true → e.coin = .empty
  fresh : e.fresh = true → (e.dirty = false ↔ e.coin.isSpent = true)

/-- The trees in use, told apart by their roots. -/
structure Trees (root : SaplingMerkleTree → Uint256) where
  mem : SaplingMerkleTree → Prop
  empty : mem .empty
  injective : ∀ {t t' : SaplingMerkleTree}, mem t → mem t' → root t = root t' → t = t'
  ne_null : ∀ {t : SaplingMerkleTree}, mem t → root t ≠ 0

section
variable {root : SaplingMerkleTree → Uint256} (S : Trees root)

structure AnchorOk (base : ViewState) (rt : Uint256) (e : AnchorsSaplingCacheEntry) : Prop where
  tree : S.mem e.tree ∧ root e.tree = rt
  clean : e.dirty = false → e.value = base.anchors[rt]?

structure CoinsCache.Wf (c : CoinsCache) (base : ViewState) : Prop where
  coins : c.cacheCoins.All (CoinOk base)
  nullifiers : c.cacheSaplingNullifiers.All fun nf e =>
    e.dirty = false → e.value = base.nullifiers[nf]?
  anchors : c.cacheSaplingAnchors.All (AnchorOk S base)

structure CoinsDB.Wf (d : CoinsDB) : Prop where
  coins : d.coins.All fun _ c => c.isSpent = false
  anchors : d.anchors.All fun rt t => S.mem t ∧ root t = rt

def CoinsView.Wf : CoinsView → Prop
  | .db d => d.Wf S
  | .cache c base => c.Wf S (base.state root) ∧ base.Wf

/-- The database is not in the middle of a flush. -/
def CoinsView.Idle : CoinsView → Prop
  | .db d => d.headBlocks = none
  | .cache _ base => base.Idle

/-- The second view differs from the first in what is cached at most. -/
structure CoinsView.Alike (v v' : CoinsView) : Prop where
  states : v'.states root = v.states root
  wf : v'.Wf S
  idle : v.Idle → v'.Idle

end

variable {root : SaplingMerkleTree → Uint256} {S : Trees root}

theorem CoinsView.states_head (v : CoinsView) : (v.states root).head? = some (v.state root) := by
  cases v <;> rfl

namespace CoinsView.Alike

variable {v v' v'' : CoinsView}

theorem refl (h : v.Wf S) : Alike S v v := ⟨rfl, h, id⟩

theorem trans (h : Alike S v v') (h' : Alike S v' v'') : Alike S v v'' :=
  ⟨h'.states.trans h.states, h'.wf, fun hi => h'.idle (h.idle hi)⟩

theorem state (h : Alike S v v') : v'.state root = v.state root := by
  have hh : (v'.states root).head? = some (v'.state root) := v'.states_head
  rw [h.states, states_head] at hh
  exact (Option.some.inj hh).symm

/-- Caches with the same state, over views that are alike. -/
theorem cache {base base'} {c c'} (h : Alike S base base') (hwf : c'.Wf S (base.state root))
    (hstate : c'.state (base.state root) = c.state (base.state root)) :
    Alike S (.cache c base) (.cache c' base') := by
  refine ⟨?_, ⟨?_, h.wf⟩, h.idle⟩
  · simp only [CoinsView.states, h.states, h.state, hstate]
  · rwa [h.state]

end CoinsView.Alike

/-! ### Reads -/

/-- What a read of a coin may answer: the coin, or a spent one or nothing if there is none. -/
def Answers (found : Option Coin) (coin : Option Coin) : Prop :=
  found.bind unspent = coin ∧ ∀ c, found = some c → c.isSpent = true → c = .empty

/-- A view and its state, for writes at the top: the views below stay as they are. -/
structure CoinsViewCache.Becomes (S : Trees root) (v : CoinsViewCache) (s : ViewState)
    (v' : CoinsViewCache) : Prop where
  base : CoinsView.Alike S v.base v'.base
  wf : v'.cache.Wf S (v.base.state root)
  state : v'.cache.state (v.base.state root) = s

namespace CoinsViewCache

variable {v v' : CoinsViewCache}

theorem Becomes.alike (h : v.Becomes S (v.toView.state root) v') :
    CoinsView.Alike S v.toView v'.toView :=
  h.base.cache h.wf h.state

theorem Becomes.toView_wf (h : v.Becomes S s v') : v'.toView.Wf S :=
  ⟨h.base.state ▸ h.wf, h.base.wf⟩

theorem Becomes.toView_state (h : v.Becomes S s v') : v'.toView.state root = s := by
  rw [← h.state, ← h.base.state]
  rfl

theorem Becomes.refl (h : v.toView.Wf S) : v.Becomes S (v.toView.state root) v :=
  ⟨.refl h.2, h.1, rfl⟩

theorem Becomes.trans {v''} (h : v.Becomes S s v') (h' : v'.Becomes S s' v'')
    : v.Becomes S s' v'' where
  base := h.base.trans h'.base
  wf := h.base.state ▸ h'.wf
  state := h.base.state ▸ h'.state

variable (hv : v.toView.Wf S)
include hv

/-- `FetchCoin` over a view that answers with its coin. -/
theorem fetchCoinWith_spec (o : OutPoint) {read} (hbase : CoinsView.Alike S v.base read.2)
    (hread : Answers read.1 (v.base.state root).coins[o]?) :
    v.Becomes S (v.toView.state root) (v.fetchCoinWith o read).2 ∧
      (v.fetchCoinWith o read).2.cache.cacheCoins[o]? = (v.fetchCoinWith o read).1 ∧
      Answers ((v.fetchCoinWith o read).1.map (·.coin)) (v.toView.state root).coins[o]? := by
  have hcoin : (v.toView.state root).coins[o]? = _ := v.cache.get_coins (v.base.state root) o
  unfold fetchCoinWith
  cases he : v.cache.cacheCoins[o]? with
  | some e =>
    rw [he] at hcoin
    exact ⟨.refl hv, he, hcoin.symm, by rintro _ ⟨⟩; exact (hv.1.coins he).spent⟩
  | none =>
    rw [he] at hcoin
    obtain ⟨_ | coin, base⟩ := read
    · exact ⟨⟨hbase, hv.1, rfl⟩, he, hread.1.trans hcoin.symm, hread.2⟩
    · obtain ⟨hvalue, hempty⟩ := hread
      have hclean : (⟨coin, false, coin.isSpent⟩ : CoinsCacheEntry).value =
          (v.base.state root).coins[o]? := hvalue
      refine ⟨⟨hbase, ⟨hv.1.coins.insert ⟨fun _ => hclean, hempty coin rfl, fun hs =>
        ⟨fun _ => hs, fun _ => rfl⟩⟩, hv.1.nullifiers, hv.1.anchors⟩, ?_⟩,
        by simp, hvalue.trans hcoin.symm, hempty⟩
      -- a fresh entry covers nothing: the coin below is spent
      have hhidden : (v.cache.state (v.base.state root)).hidden[o]? = _ :=
        v.cache.get_hidden (v.base.state root) o
      rw [he] at hhidden
      have hcovers : (if coin.isSpent = true then (v.base.state root).coins[o]? else none) =
          none := by
        rw [← hvalue]
        split_ifs with hs
        · simp [unspent, hs]
        · rfl
      rw [state_setCoin, hclean, hcovers]
      exact ViewState.setCoin_self hcoin hhidden

theorem getSaplingAnchorAtWith_spec (rt : Uint256) {read} (hbase : CoinsView.Alike S v.base read.2)
    (hread : read.1 = (v.base.state root).anchors[rt]?)
    (htree : ∀ t, read.1 = some t → S.mem t ∧ root t = rt) :
    v.Becomes S (v.toView.state root) (v.getSaplingAnchorAtWith rt read).2 ∧
      (v.getSaplingAnchorAtWith rt read).1 = (v.toView.state root).anchors[rt]? ∧
      ∀ t, (v.getSaplingAnchorAtWith rt read).1 = some t → S.mem t ∧ root t = rt := by
  have hanchor : (v.toView.state root).anchors[rt]? = _ :=
    v.cache.get_anchors (v.base.state root) rt
  unfold getSaplingAnchorAtWith
  cases he : v.cache.cacheSaplingAnchors[rt]? with
  | some e =>
    rw [he] at hanchor
    refine ⟨.refl hv, hanchor.symm, fun t ht => ?_⟩
    simp only [Option.ite_none_right_eq_some, Option.some.injEq] at ht
    exact ht.2 ▸ (hv.1.anchors he).tree
  | none =>
    rw [he] at hanchor
    obtain ⟨_ | tree, base⟩ := read
    · exact ⟨⟨hbase, hv.1, rfl⟩, hread.trans hanchor.symm, htree⟩
    · refine ⟨⟨hbase, ⟨hv.1.coins, hv.1.nullifiers, hv.1.anchors.insert
        ⟨htree tree rfl, fun _ => hread⟩⟩, ?_⟩, hread.trans hanchor.symm, htree⟩
      rw [state_setAnchor]
      exact ViewState.ext' rfl rfl rfl (FMap.alter_eq_self (hanchor.trans hread.symm)) rfl rfl

theorem getNullifierWith_spec (nf : Uint256) {read} (hbase : CoinsView.Alike S v.base read.2)
    (hread : read.1 = (v.base.state root).nullifiers[nf]?.isSome) :
    v.Becomes S (v.toView.state root) (v.getNullifierWith nf read).2 ∧
      (v.getNullifierWith nf read).1 = (v.toView.state root).nullifiers[nf]?.isSome := by
  have hnull : (v.toView.state root).nullifiers[nf]? = _ :=
    v.cache.get_nullifiers (v.base.state root) nf
  unfold getNullifierWith
  cases he : v.cache.cacheSaplingNullifiers[nf]? with
  | some e =>
    rw [he] at hnull
    refine ⟨.refl hv, ?_⟩
    simp only [hnull, Option.elim_some, NullifiersCacheEntry.value]
    cases e.entered <;> rfl
  | none =>
    rw [he] at hnull
    have hvalue : (⟨read.1, false⟩ : NullifiersCacheEntry).value =
        (v.base.state root).nullifiers[nf]? := by
      rw [NullifiersCacheEntry.value, hread]
      cases (v.base.state root).nullifiers[nf]? <;> rfl
    refine ⟨⟨hbase, ⟨hv.1.coins, hv.1.nullifiers.insert fun _ => hvalue, hv.1.anchors⟩, ?_⟩, ?_⟩
    · rw [state_setNullifier]
      exact ViewState.ext' rfl rfl (FMap.alter_eq_self (hnull.trans hvalue.symm)) rfl rfl rfl
    · rwa [hnull]

variable {read : Uint256 × CoinsView}

theorem getBestAnchorWith_spec (hbase : CoinsView.Alike S v.base read.2)
    (hread : read.1 = (v.base.state root).bestAnchor) :
    v.Becomes S (v.toView.state root) (v.getBestAnchorWith read).2 ∧
      (v.getBestAnchorWith read).1 = (v.toView.state root).bestAnchor := by
  unfold getBestAnchorWith
  split_ifs with h
  · have hbest : (v.toView.state root).bestAnchor = read.1 := (if_pos h).trans hread.symm
    refine ⟨⟨hbase, ⟨hv.1.coins, hv.1.nullifiers, hv.1.anchors⟩, ?_⟩, hbest.symm⟩
    refine ViewState.ext' rfl rfl rfl rfl ?_ rfl
    rw [hbest]
    simp [state, hread]
  · exact ⟨.refl hv, (if_neg h).symm⟩

theorem getBestBlockWith_spec (hbase : CoinsView.Alike S v.base read.2)
    (hread : read.1 = (v.base.state root).bestBlock) :
    v.Becomes S (v.toView.state root) (v.getBestBlockWith read).2 ∧
      (v.getBestBlockWith read).1 = (v.toView.state root).bestBlock := by
  unfold getBestBlockWith
  split_ifs with h
  · have hbest : (v.toView.state root).bestBlock = read.1 := (if_pos h).trans hread.symm
    refine ⟨⟨hbase, ⟨hv.1.coins, hv.1.nullifiers, hv.1.anchors⟩, ?_⟩, hbest.symm⟩
    refine ViewState.ext' rfl rfl rfl rfl rfl ?_
    rw [hbest]
    simp [state, hread]
  · exact ⟨.refl hv, (if_neg h).symm⟩

end CoinsViewCache

namespace CoinsView

variable {v : CoinsView}

/-- **Every view answers with its coin** and keeps its state, by induction on the stack. -/
theorem getCoin_spec (hv : v.Wf S) (o : OutPoint) :
    Alike S v (v.getCoin o).2 ∧ Answers (v.getCoin o).1 (v.state root).coins[o]? := by
  induction v with
  | db d =>
    refine ⟨.refl hv, ?_, fun c hc hs => ?_⟩
    · show (d.coins[o]?).bind unspent = d.coins[o]?
      cases hc : d.coins[o]? with
      | none => rfl
      | some c => simp [unspent, hv.coins hc]
    · simp [hv.coins hc] at hs
  | cache c base ih =>
    obtain ⟨hbase, hread⟩ := ih hv.2
    obtain ⟨hb, -, hanswer⟩ := fetchCoinWith_spec (v := ⟨c, base⟩) hv o hbase hread
    exact ⟨hb.alike, hanswer⟩

theorem getSaplingAnchorAt_spec (hv : v.Wf S) (rt : Uint256) :
    Alike S v (v.getSaplingAnchorAt root rt).2 ∧
      (v.getSaplingAnchorAt root rt).1 = (v.state root).anchors[rt]? ∧
      ∀ t, (v.getSaplingAnchorAt root rt).1 = some t → S.mem t ∧ root t = rt := by
  induction v with
  | db d =>
    refine ⟨.refl hv, ?_, fun t ht => ?_⟩
    · show (if rt = root .empty then some SaplingMerkleTree.empty else d.anchors[rt]?) =
        (d.anchors.insert (root .empty) .empty)[rt]?
      rw [get_insert]
      simp only [eq_comm]
    · simp only [getSaplingAnchorAt] at ht
      split_ifs at ht with hrt
      · cases ht
        exact ⟨S.empty, hrt.symm⟩
      · exact hv.anchors ht
  | cache c base ih =>
    obtain ⟨hbase, hread, htree⟩ := ih hv.2
    obtain ⟨hb, hanswer⟩ := getSaplingAnchorAtWith_spec (v := ⟨c, base⟩) hv rt hbase hread htree
    exact ⟨hb.alike, hanswer⟩

theorem getNullifier_spec (hv : v.Wf S) (nf : Uint256) : Alike S v (v.getNullifier nf).2 ∧
      (v.getNullifier nf).1 = (v.state root).nullifiers[nf]?.isSome := by
  induction v with
  | db d => exact ⟨.refl hv, rfl⟩
  | cache c base ih =>
    obtain ⟨hbase, hread⟩ := ih hv.2
    obtain ⟨hb, hanswer⟩ := getNullifierWith_spec (v := ⟨c, base⟩) hv nf hbase hread
    exact ⟨hb.alike, hanswer⟩

theorem getBestAnchor_spec (hv : v.Wf S) :
    Alike S v (v.getBestAnchor root).2 ∧ (v.getBestAnchor root).1 = (v.state root).bestAnchor := by
  induction v with
  | db d => exact ⟨.refl hv, rfl⟩
  | cache c base ih =>
    obtain ⟨hbase, hread⟩ := ih hv.2
    obtain ⟨hb, hanswer⟩ := getBestAnchorWith_spec (v := ⟨c, base⟩) hv hbase hread
    exact ⟨hb.alike, hanswer⟩

theorem getBestBlock_spec (hv : v.Wf S) :
    Alike S v v.getBestBlock.2 ∧ v.getBestBlock.1 = (v.state root).bestBlock := by
  induction v with
  | db d => exact ⟨.refl hv, rfl⟩
  | cache c base ih =>
    obtain ⟨hbase, hread⟩ := ih hv.2
    obtain ⟨hb, hanswer⟩ := getBestBlockWith_spec (v := ⟨c, base⟩) hv hbase hread
    exact ⟨hb.alike, hanswer⟩

end CoinsView

/-! ### What the calls do to the state -/

/-- A coin that `AddCoin` stores. -/
def Coin.isStored (c : Coin) : Bool :=
  !Script.isUnspendable c.out.scriptPubKey && !c.out.isZerocoinMint

/-- The answer of a read for an absent coin is a spent one. -/
theorem Answers.getD {found coin} (h : Answers found coin) :
    found.getD .empty = coin.getD .empty := by
  obtain ⟨hcoin, hspent⟩ := h
  cases found with
  | none => rw [← hcoin]; rfl
  | some c =>
    rw [← hcoin]
    by_cases hs : c.isSpent = true
    · obtain rfl := hspent c rfl hs
      rfl
    · simp [unspent, hs]

theorem Answers.isSome {found coin} (h : Answers found coin) :
    (found.any fun c => !c.isSpent) = coin.isSome := by
  rw [← h.1]
  cases found with
  | none => rfl
  | some c => by_cases hs : c.isSpent = true <;> simp [unspent, hs]

/-- What the state becomes when a coin is added. -/
def ViewState.addCoin (s : ViewState) (o : OutPoint) (coin : Coin) (possibleOverwrite : Bool) :
    ViewState :=
  if coin.isStored then
    if possibleOverwrite then s.overwrite o coin else s.add o coin
  else s

namespace CoinsViewCache

variable {v v' : CoinsViewCache} (hv : v.toView.Wf S)
include hv

theorem fetchCoin_spec (o : OutPoint) : v.Becomes S (v.toView.state root) (v.fetchCoin o).2 ∧
      (v.fetchCoin o).2.cache.cacheCoins[o]? = (v.fetchCoin o).1 ∧
      Answers ((v.fetchCoin o).1.map (·.coin)) (v.toView.state root).coins[o]? := by
  obtain ⟨hbase, hread⟩ := CoinsView.getCoin_spec hv.2 o
  exact fetchCoinWith_spec hv o hbase hread

theorem getCoin_spec (o : OutPoint) : v.Becomes S (v.toView.state root) (v.getCoin o).2 ∧
      (v.getCoin o).1.bind unspent = (v.toView.state root).coins[o]? := by
  obtain ⟨hb, -, hanswer⟩ := fetchCoin_spec hv o
  exact ⟨hb, hanswer.1⟩

theorem accessCoin_spec (o : OutPoint) : v.Becomes S (v.toView.state root) (v.accessCoin o).2 ∧
      (v.accessCoin o).1 = (v.toView.state root).coins[o]?.getD .empty := by
  obtain ⟨hb, -, hanswer⟩ := fetchCoin_spec hv o
  exact ⟨hb, hanswer.getD⟩

theorem haveCoin_spec (o : OutPoint) : v.Becomes S (v.toView.state root) (v.haveCoin o).2 ∧
      (v.haveCoin o).1 = (v.toView.state root).coins[o]?.isSome := by
  obtain ⟨hb, -, hanswer⟩ := fetchCoin_spec hv o
  refine ⟨hb, ?_⟩
  rw [← hanswer.isSome, Option.any_map]
  rfl

/-- An entry is set at the top. -/
theorem setEntry_spec {e} (he : CoinOk (v.base.state root) o e) :
    v.Becomes S ((v.toView.state root).setCoin o e.value
      (if e.fresh then (v.base.state root).coins[o]? else none)) (v.setEntry o e) :=
  ⟨.refl hv.2, ⟨hv.1.coins.insert he, hv.1.nullifiers, hv.1.anchors⟩,
    state_setCoin _ _ o e⟩

theorem eraseEntry_spec (o : OutPoint) :
    v.Becomes S ((v.toView.state root).setCoin o (v.base.state root).coins[o]? none)
      (v.eraseEntry o) :=
  ⟨.refl hv.2, ⟨hv.1.coins.erase, hv.1.nullifiers, hv.1.anchors⟩, state_eraseCoin _ _ o⟩

omit hv in
theorem hidden_eq (o : OutPoint) : (v.toView.state root).hidden[o]? =
    if (v.entryAt o).fresh then (v.base.state root).coins[o]? else none := by
  refine (v.cache.get_hidden (v.base.state root) o).trans ?_
  unfold entryAt
  cases v.cache.cacheCoins[o]? <;> rfl

/-- A coin added over a spent entry hides what is there: nothing, or a coin of the view below
when there was no entry at all. -/
theorem covered_eq (hs : (v.entryAt o).coin.isSpent = true) :
    (if ((v.entryAt o).fresh || !(v.entryAt o).dirty) = true then (v.base.state root).coins[o]?
      else none) = (v.toView.state root).coins[o]? := by
  refine Eq.trans ?_ (v.cache.get_coins (v.base.state root) o).symm
  unfold entryAt at *
  cases he : v.cache.cacheCoins[o]? with
  | none => rfl
  | some e =>
    rw [he, Option.getD_some] at hs
    obtain ⟨hclean, -, hfresh⟩ := hv.1.coins he
    have hnone : e.value = none := by simp [value, unspent, hs]
    simp only [Option.getD_some, Option.elim_some, hnone, ite_eq_right_iff]
    intro hflags
    rw [or_eq_true, not_eq_true'] at hflags
    exact (hclean (hflags.elim (fun hf => (hfresh hf).mpr hs) id)).symm.trans hnone

variable {coin : Coin} {newrt : Uint256} {possibleOverwrite : Bool}

theorem addCoin_inv (h : v.addCoin o coin possibleOverwrite = .ok v') : coin.isSpent = false ∧
      v.Becomes S ((v.toView.state root).addCoin o coin possibleOverwrite) v' := by
  have hvalue : coin.isSpent ≠ true → ∀ fresh,
      (⟨coin, true, fresh⟩ : CoinsCacheEntry).value = some coin ∧
      CoinOk (v.base.state root) o ⟨coin, true, fresh⟩ := fun hs fresh =>
    ⟨by simp [value, unspent, hs], by simp, fun hs' => absurd hs' hs,
      fun _ => ⟨by simp, fun hs' => absurd hs' hs⟩⟩
  unfold addCoin at h
  split_ifs at h with hspent hunspendable hmint hover hreplaces <;> obtain rfl := Except.ok.inj h <;>
    refine ⟨by simpa using hspent, ?_⟩
  · simpa [ViewState.addCoin, isStored, hunspendable] using Becomes.refl hv
  · simpa [ViewState.addCoin, isStored, hmint] using Becomes.refl hv
  · -- the flag of the entry that is overwritten is kept
    obtain ⟨hsome, hok⟩ := hvalue hspent (v.entryAt o).fresh
    have hb := setEntry_spec hv hok
    rw [hsome, ← hidden_eq] at hb
    simp only [ViewState.addCoin, isStored, hunspendable, hmint, hover, if_true]
    exact hb
  · -- the new coin is fresh unless a spent coin is still to be written
    obtain ⟨hsome, hok⟩ := hvalue hspent ((v.entryAt o).fresh || !(v.entryAt o).dirty)
    have hb := setEntry_spec hv hok
    rw [hsome, covered_eq hv (by simpa using hreplaces)] at hb
    simp only [ViewState.addCoin, isStored, hunspendable, hmint, hover]
    exact hb

/-- A coin that hides another one is not spent, and nothing is added over it. -/
theorem addCoin_hidden (hstored : coin.isStored = true) (h : v.addCoin o coin false = .ok v')
    : (v.toView.state root).hidden[o]? = none := by
  rw [hidden_eq]
  split_ifs with hfresh
  · have hspent : (v.entryAt o).coin.isSpent = true := by
      unfold addCoin at h
      simp only [isStored, and_eq_true, not_eq_true'] at hstored
      simp only [hstored.1, hstored.2, false_eq_true, if_false] at h
      split_ifs at h with _ hreplaces
      simpa using hreplaces
    unfold entryAt at hfresh hspent
    cases he : v.cache.cacheCoins[o]? with
    | none =>
      simp [he] at hfresh
    | some e =>
      rw [he, Option.getD_some] at hfresh hspent
      obtain ⟨hclean, -, hflag⟩ := hv.1.coins he
      rw [← hclean ((hflag hfresh).mpr hspent)]
      simp [value, unspent, hspent]
  · rfl

omit hv in
theorem addCoin_run (hspent : coin.isSpent = false)
    (hnew : possibleOverwrite = false → (v.toView.state root).coins[o]? = none) :
    ∃ v', v.addCoin o coin possibleOverwrite = .ok v' := by
  rw [addCoin, hspent, if_neg Bool.false_ne_true]
  split_ifs with hunspendable hmint hover hreplaces
  iterate 3 exact ⟨_, rfl⟩
  · have hcoin := v.cache.get_coins (v.base.state root) o
    have hnone : (v.cache.state (v.base.state root)).coins[o]? = none := hnew (by simpa using hover)
    rw [hnone] at hcoin
    unfold entryAt at hreplaces
    cases he : v.cache.cacheCoins[o]? with
    | none =>
      rw [he] at hreplaces
      cases hreplaces
    | some e =>
      rw [he] at hcoin hreplaces
      have hs : e.coin.isSpent = false := by simpa using hreplaces
      simp [value, unspent, hs] at hcoin
  · exact ⟨_, rfl⟩

theorem spendCoin_spec (o : OutPoint) :
    v.Becomes S ((v.toView.state root).spend o) (v.spendCoin o).2 ∧
      Answers (v.spendCoin o).1 (v.toView.state root).coins[o]? := by
  obtain ⟨hb, hentry, hanswer⟩ := fetchCoin_spec hv o
  rcases hf : v.fetchCoin o with ⟨it, v₁⟩
  rw [hf] at hb hentry hanswer
  have hv₁ := hb.toView_wf
  have hhidden : (v₁.toView.state root).hidden[o]? = _ := hidden_eq o
  rw [← hb.toView_state] at hanswer ⊢
  rw [entryAt, show v₁.cache.cacheCoins[o]? = it from hentry] at hhidden
  rw [spendCoin, hf]
  cases it with
  | none =>
    have hs : (v₁.toView.state root).spend o = v₁.toView.state root :=
      ViewState.setCoin_self (hanswer.1.symm.trans hhidden.symm) hhidden
    rw [hs, hb.toView_state]
    exact ⟨hb, hb.toView_state ▸ hanswer⟩
  | some e =>
    rw [ViewState.spend, hhidden, Option.getD_some]
    simp only
    cases hfresh : e.fresh with
    | true => exact ⟨hb.trans (eraseEntry_spec hv₁ o), hanswer⟩
    | false =>
      have hset := setEntry_spec hv₁ (o := o) (e := ⟨.empty, true, false⟩)
        ⟨by simp, fun _ => rfl, by simp⟩
      exact ⟨hb.trans hset, hanswer⟩

theorem uncache_spec (o : OutPoint) : v.Becomes S (v.toView.state root) (v.uncache o) := by
  unfold uncache
  cases he : v.cache.cacheCoins[o]? with
  | none => exact .refl hv
  | some e =>
    simp only
    split_ifs with hflags
    · have hcoin : (v.toView.state root).coins[o]? = _ := v.cache.get_coins (v.base.state root) o
      have hhidden : (v.toView.state root).hidden[o]? = _ := hidden_eq o
      rw [he] at hcoin
      rw [Bool.and_eq_true, Bool.not_eq_true', Bool.not_eq_true'] at hflags
      rw [entryAt, he, Option.getD_some, hflags.2, if_neg Bool.false_ne_true] at hhidden
      have hclean := (hv.1.coins he).clean hflags.1
      have hb := eraseEntry_spec hv o
      rwa [ViewState.setCoin_self (hcoin.trans hclean) hhidden] at hb
    · exact .refl hv

theorem getBestBlock_spec : v.Becomes S (v.toView.state root) v.getBestBlock.2 ∧
      v.getBestBlock.1 = (v.toView.state root).bestBlock := by
  obtain ⟨hbase, hread⟩ := CoinsView.getBestBlock_spec hv.2
  exact getBestBlockWith_spec hv hbase hread

theorem setBestBlock_spec {h} (hne : h ≠ 0) :
    v.Becomes S ((v.toView.state root).setBestBlock h) (v.setBestBlock h) :=
  ⟨.refl hv.2, ⟨hv.1.coins, hv.1.nullifiers, hv.1.anchors⟩,
    ViewState.ext' rfl rfl rfl rfl rfl (if_neg hne)⟩

theorem getNullifier_spec (nf : Uint256) : v.Becomes S (v.toView.state root) (v.getNullifier nf).2 ∧
      (v.getNullifier nf).1 = (v.toView.state root).nullifiers[nf]?.isSome := by
  obtain ⟨hbase, hread⟩ := CoinsView.getNullifier_spec hv.2 nf
  exact getNullifierWith_spec hv nf hbase hread

theorem getSaplingAnchorAt_spec (rt : Uint256) :
    v.Becomes S (v.toView.state root) (v.getSaplingAnchorAt root rt).2 ∧
      (v.getSaplingAnchorAt root rt).1 = (v.toView.state root).anchors[rt]? ∧
      ∀ t, (v.getSaplingAnchorAt root rt).1 = some t → S.mem t ∧ root t = rt := by
  obtain ⟨hbase, hread, htree⟩ := CoinsView.getSaplingAnchorAt_spec hv.2 rt
  exact getSaplingAnchorAtWith_spec hv rt hbase hread htree

theorem getBestAnchor_spec : v.Becomes S (v.toView.state root) (v.getBestAnchor root).2 ∧
      (v.getBestAnchor root).1 = (v.toView.state root).bestAnchor := by
  obtain ⟨hbase, hread⟩ := CoinsView.getBestAnchor_spec hv.2
  exact getBestAnchorWith_spec hv hbase hread

/-- An anchor is set at the top, with the best one. -/
theorem setAnchor_spec {best} {e}
    (htree : S.mem e.tree ∧ root e.tree = rt) (hdirty : e.dirty = true) (hbest : best ≠ 0) :
    v.Becomes S (((v.toView.state root).setAnchorTo rt e.value).setBestAnchor best)
      (v.setAnchor rt e best) := by
  refine ⟨.refl hv.2, ⟨hv.1.coins, hv.1.nullifiers, hv.1.anchors.insert ⟨htree, ?_⟩⟩, ?_⟩
  · exact fun hclean => absurd (hdirty.symm.trans hclean) (by decide)
  · have hset := state_setAnchor v.cache (v.base.state root) rt e
    have hanchors := congrArg ViewState.anchors hset
    exact ViewState.ext' rfl rfl rfl hanchors (if_neg hbest) rfl

theorem pushAnchor_spec {tree} (htree : S.mem tree) :
    v.Becomes S ((v.toView.state root).pushAnchor root tree) (v.pushAnchor root tree) := by
  obtain ⟨hb, hbest⟩ := getBestAnchor_spec hv
  unfold pushAnchor ViewState.pushAnchor
  rcases hg : v.getBestAnchor root with ⟨currentRoot, v₁⟩
  rw [hg] at hb hbest
  simp only at hb hbest ⊢
  rw [hbest]
  split_ifs
  · rw [← hb.toView_state]
    have hset := setAnchor_spec hb.toView_wf (e := ⟨true, tree, true⟩) ⟨htree, rfl⟩ rfl
      (S.ne_null htree)
    exact hb.trans hset
  · exact hb

theorem popAnchor_inv (h : v.popAnchor root newrt = .ok v') (hnew : newrt ≠ 0)
    : v.Becomes S ((v.toView.state root).popAnchor newrt) v' := by
  obtain ⟨hb, hbest⟩ := getBestAnchor_spec hv
  unfold popAnchor at h
  unfold ViewState.popAnchor
  rcases hg : v.getBestAnchor root with ⟨currentRoot, v₁⟩
  rw [hg] at hb hbest h
  simp only at hb hbest h
  rw [← hbest]
  split_ifs at h ⊢ with hcur
  · obtain ⟨hb₂, -, htree⟩ := getSaplingAnchorAt_spec hb.toView_wf currentRoot
    rcases hr : v₁.getSaplingAnchorAt root currentRoot with ⟨_ | tree, v₂⟩ <;>
      rw [hr] at h hb₂ htree
    · cases h
    · cases h
      have hset := setAnchor_spec hb₂.toView_wf (e := ⟨false, tree, true⟩) (htree tree rfl) rfl hnew
      rw [hb₂.toView_state, hb.toView_state] at hset
      exact (hb.trans hb₂).trans hset
  · cases h
    exact hb

theorem popAnchor_run
    (h : (v.toView.state root).bestAnchor ≠ newrt → (v.toView.state root).anchors[(v.toView.state root).bestAnchor]? ≠ none) :
    ∃ v', v.popAnchor root newrt = .ok v' := by
  obtain ⟨hb, hbest⟩ := getBestAnchor_spec hv
  unfold popAnchor
  rcases hg : v.getBestAnchor root with ⟨currentRoot, v₁⟩
  rw [hg] at hb hbest
  simp only at hb hbest ⊢
  rw [← hbest] at h
  split_ifs with hcur
  · obtain ⟨-, hread, -⟩ := getSaplingAnchorAt_spec hb.toView_wf currentRoot
    rw [hb.toView_state] at hread
    rcases hr : v₁.getSaplingAnchorAt root currentRoot with ⟨_ | tree, v₂⟩ <;> rw [hr] at hread
    · exact absurd hread.symm (h hcur)
    · exact ⟨_, rfl⟩
  · exact ⟨_, rfl⟩

theorem setNullifier_spec (nf : Uint256) (spent : Bool) :
    v.Becomes S ((v.toView.state root).setNullifier nf spent) (v.setNullifier nf spent) :=
  ⟨.refl hv.2, ⟨hv.1.coins, hv.1.nullifiers.insert (by simp), hv.1.anchors⟩,
    state_setNullifier _ _ nf ⟨spent, true⟩⟩

omit hv in
theorem setNullifiers_foldl (spends : List SpendDescription) (spent : Bool) {v : CoinsViewCache}
    (hv : v.toView.Wf S) :
    v.Becomes S (spends.foldl (fun s d => s.setNullifier d.nullifier spent) (v.toView.state root))
      (spends.foldl (fun v d => v.setNullifier d.nullifier spent) v) := by
  induction spends generalizing v with
  | nil => exact .refl hv
  | cons d spends ih =>
    have hb := setNullifier_spec hv d.nullifier spent
    have hrest := ih hb.toView_wf
    rw [hb.toView_state] at hrest
    exact hb.trans hrest

end CoinsViewCache

/-- The nullifiers that `SetNullifiers` marks. -/
def Transaction.nullifiers (tx : Transaction) : List Uint256 :=
  match tx.sapData with
  | none => []
  | some sap => sap.vShieldedSpend.map (·.nullifier)

def ViewState.setNullifiers (s : ViewState) (tx : Transaction) (spent : Bool) : ViewState :=
  tx.nullifiers.foldl (fun s nf => s.setNullifier nf spent) s

/-- The requirements of a shielded spend. -/
def ViewState.SpendAllowed (s : ViewState) (d : SpendDescription) : Prop :=
  s.nullifiers[d.nullifier]? = none ∧ s.anchors[d.anchor]? ≠ none

namespace CoinsViewCache

variable {v v' : CoinsViewCache} (hv : v.toView.Wf S)
include hv

theorem setNullifiers_spec (tx : Transaction) (spent : Bool) :
    v.Becomes S ((v.toView.state root).setNullifiers tx spent) (v.setNullifiers tx spent) := by
  unfold setNullifiers ViewState.setNullifiers Transaction.nullifiers
  cases tx.sapData with
  | none => exact .refl hv
  | some sap =>
    simp only [List.foldl_map]
    exact setNullifiers_foldl sap.vShieldedSpend spent hv

theorem haveSpendRequirements_spec (d : SpendDescription) :
    v.Becomes S (v.toView.state root) (v.haveSpendRequirements root d).2 ∧
      ((v.haveSpendRequirements root d).1 = true ↔ (v.toView.state root).SpendAllowed d) := by
  obtain ⟨hb, hspent⟩ := getNullifier_spec hv d.nullifier
  unfold haveSpendRequirements ViewState.SpendAllowed
  rcases hg : v.getNullifier d.nullifier with ⟨spent, v₁⟩
  rw [hg] at hb hspent
  simp only at hb hspent ⊢
  split_ifs with h
  · rw [h] at hspent
    refine ⟨hb, by simp, fun hallowed => ?_⟩
    simp [hallowed.1] at hspent
  · obtain ⟨hb₂, hread, -⟩ := getSaplingAnchorAt_spec hb.toView_wf d.anchor
    rw [hb.toView_state] at hb₂ hread
    rw [not_eq_true] at h
    rw [h] at hspent
    refine ⟨hb.trans hb₂, ?_⟩
    rw [hread, Option.isSome_iff_ne_none]
    exact ⟨fun ha => ⟨Option.isSome_eq_false_iff.mp hspent.symm |> Option.isNone_iff_eq_none.mp, ha⟩,
      fun ha => ha.2⟩

omit hv in
theorem haveSpendsRequirements_spec (spends : List SpendDescription) {v : CoinsViewCache}
    (hv : v.toView.Wf S) :
    v.Becomes S (v.toView.state root) (v.haveSpendsRequirements root spends).2 ∧
      ((v.haveSpendsRequirements root spends).1 = true ↔
        ∀ d ∈ spends, (v.toView.state root).SpendAllowed d) := by
  induction spends generalizing v with
  | nil => exact ⟨.refl hv, by simp [haveSpendsRequirements]⟩
  | cons d spends ih =>
    obtain ⟨hb, hone⟩ := haveSpendRequirements_spec hv d
    unfold haveSpendsRequirements
    rcases hg : v.haveSpendRequirements root d with ⟨ok, v₁⟩
    rw [hg] at hb hone
    simp only at hb hone ⊢
    split_ifs with h
    · obtain ⟨hb₂, hrest⟩ := ih hb.toView_wf
      rw [hb.toView_state] at hb₂ hrest
      refine ⟨hb.trans hb₂, hrest.trans ?_⟩
      rw [List.forall_mem_cons]
      exact (and_iff_right (hone.mp h)).symm
    · refine ⟨hb, by simp, fun hall => ?_⟩
      exact absurd (hone.mpr (hall d (by simp))) h

end CoinsViewCache

end KmushiCoin
