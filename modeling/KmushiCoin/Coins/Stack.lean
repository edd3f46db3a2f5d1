import KmushiCoin.Coins.Flush

/-!
# KmushiCoin.Coins.Stack

**A stack of caches against plain maps.** A run applies calls to the top cache, creates a
child, flushes it or discards it; the same calls are made on plain finite maps.

* `PlainStack` is the abstract model: one plain state for each view, the database last. A
  flush copies the top state to the one below.
* `Sound` ties a stack of caches to it. Each call keeps it (`Sound.apply`), so it holds along
  every run whose steps keep the best anchor (`KeepsBestAnchor`).
* A step that does not keep it is a flush of a child that has no best anchor of its own into
  a parent that has one (the parent loses it), or a removal of the empty tree.
-/

namespace KmushiCoin

open CoinsView FMap List ViewState

/-! ### Plain maps -/

/-- The contents of a view as plain maps. -/
structure PlainState where
  coins : FMap OutPoint Coin
  nullifiers : FMap Uint256 Unit
  anchors : FMap Uint256 SaplingMerkleTree
  bestAnchor : Uint256

namespace PlainState

def addCoin (s : PlainState) (o : OutPoint) (coin : Coin) : PlainState :=
  if coin.isStored then { s with coins := s.coins.insert o coin } else s

def spendCoin (s : PlainState) (o : OutPoint) : PlainState := { s with coins := s.coins.erase o }

def setNullifier (s : PlainState) (spent : Bool) (nf : Uint256) : PlainState :=
  { s with nullifiers := if spent then s.nullifiers.insert nf () else s.nullifiers.erase nf }

def setNullifiers (s : PlainState) (tx : Transaction) (spent : Bool) : PlainState :=
  tx.nullifiers.foldl (fun s nf => s.setNullifier spent nf) s

def pushAnchor (root : SaplingMerkleTree → Uint256) (s : PlainState) (tree : SaplingMerkleTree) :
    PlainState :=
  if s.bestAnchor ≠ root tree then
    { s with anchors := s.anchors.insert (root tree) tree, bestAnchor := root tree }
  else s

def popAnchor (s : PlainState) (newrt : Uint256) : PlainState :=
  if s.bestAnchor ≠ newrt then
    { s with anchors := s.anchors.erase s.bestAnchor, bestAnchor := newrt }
  else s

end PlainState

/-- The plain maps of a state. -/
def ViewState.plain (s : ViewState) : PlainState :=
  ⟨s.coins, s.nullifiers, s.anchors, s.bestAnchor⟩

/-! ### Runs -/

/-- A call to the top cache, or a change of the stack. -/
inductive ViewOp
  | addCoin (o : OutPoint) (coin : Coin) (possibleOverwrite : Bool)
  | spendCoin (o : OutPoint)
  | getCoin (o : OutPoint)
  | accessCoin (o : OutPoint)
  | haveCoin (o : OutPoint)
  | uncache (o : OutPoint)
  | setNullifiers (tx : Transaction) (spent : Bool)
  | getNullifier (nf : Uint256)
  | pushAnchor (tree : SaplingMerkleTree)
  | popAnchor (newrt : Uint256)
  | getSaplingAnchorAt (rt : Uint256)
  | getBestAnchor
  | getBestBlock
  | setBestBlock (hashBlock : Uint256)
  /-- A child of the top cache is the new top. -/
  | create
  | flush
  /-- The top cache is dropped as it is. -/
  | discard

section
variable (root : SaplingMerkleTree → Uint256)

def CoinsViewCache.apply (v : CoinsViewCache) : ViewOp → Outcome CoinsViewCache
  | .addCoin o coin possibleOverwrite => v.addCoin o coin possibleOverwrite
  | .spendCoin o => .ok (v.spendCoin o).2
  | .getCoin o => .ok (v.getCoin o).2
  | .accessCoin o => .ok (v.accessCoin o).2
  | .haveCoin o => .ok (v.haveCoin o).2
  | .uncache o => .ok (v.uncache o)
  | .setNullifiers tx spent => .ok (v.setNullifiers tx spent)
  | .getNullifier nf => .ok (v.getNullifier nf).2
  | .pushAnchor tree => .ok (v.pushAnchor root tree)
  | .popAnchor newrt => v.popAnchor root newrt
  | .getSaplingAnchorAt rt => .ok (v.getSaplingAnchorAt root rt).2
  | .getBestAnchor => .ok (v.getBestAnchor root).2
  | .getBestBlock => .ok v.getBestBlock.2
  | .setBestBlock hashBlock => .ok (v.setBestBlock hashBlock)
  | .create => .ok (.ofBase v.toView)
  | .flush => v.flush root
  | .discard =>
    match v.base with
    | .db _ => .ok v
    | .cache c base => .ok ⟨c, base⟩

/-- The plain states of a stack: the top one and those below, the database last. -/
structure PlainStack where
  top : PlainState
  below : List PlainState

def PlainStack.apply (P : PlainStack) : ViewOp → PlainStack
  | .addCoin o coin _ => { P with top := P.top.addCoin o coin }
  | .spendCoin o => { P with top := P.top.spendCoin o }
  | .setNullifiers tx spent => { P with top := P.top.setNullifiers tx spent }
  | .pushAnchor tree => { P with top := P.top.pushAnchor root tree }
  | .popAnchor newrt => { P with top := P.top.popAnchor newrt }
  | .create => ⟨P.top, P.top :: P.below⟩
  | .flush =>
    match P.below with
    | [] => P
    | _ :: rest => ⟨P.top, P.top :: rest⟩
  | .discard =>
    match P.below with
    | p :: q :: rest => ⟨p, q :: rest⟩
    | _ => P
  | .getCoin _ | .accessCoin _ | .haveCoin _ | .uncache _ | .getNullifier _
  | .getSaplingAnchorAt _ | .getBestAnchor | .getBestBlock | .setBestBlock _ => P

variable {root} (S : Trees root)

/-- How the calls may be used: a coin is added without the overwrite flag only where there is
none, and the trees are told apart by their roots. -/
def Allowed (P : PlainStack) : ViewOp → Prop
  | .addCoin o _ possibleOverwrite => possibleOverwrite = false → P.top.coins[o]? = none
  | .pushAnchor tree => S.mem tree
  | _ => True

variable (root) in
/-- The best anchor survives the step: a child without one is flushed only into the database or
where the parent has the best anchor of its base; the empty tree is not removed and the best
anchor is not set to null. -/
def KeepsBestAnchor (v : CoinsViewCache) : ViewOp → Prop
  | .popAnchor newrt => newrt ≠ 0 ∧
    ((v.getBestAnchor root).1 ≠ newrt → (v.getBestAnchor root).1 ≠ root .empty)
  | .flush =>
    match v.base with
    | .db _ => True
    | .cache p base => v.cache.hashSaplingAnchor ≠ 0 ∨
      ((cache p base).getBestAnchor root).1 = (base.getBestAnchor root).1
  | _ => True

/-- What a stack over a database and the plain maps come to, in a run whose steps are all
permitted. -/
inductive Reaches (permitted : PlainStack → CoinsViewCache → ViewOp → Prop) :
    CoinsViewCache → PlainStack → Prop
  | start {d : CoinsDB} (hwf : d.Wf S) (hidle : d.headBlocks = none) :
    Reaches permitted (.ofBase (.db d)) ⟨(d.state root).plain, [(d.state root).plain]⟩
  | step {v v' : CoinsViewCache} {P : PlainStack} {op : ViewOp} (h : Reaches permitted v P)
    (hpermitted : permitted P v op) (hop : v.apply root op = .ok v') :
    Reaches permitted v' (P.apply root op)

variable (root) in
/-- Every read of the cache answers what the plain maps have; a spent coin counts as none. -/
structure ReadsAgree (v : CoinsViewCache) (s : PlainState) : Prop where
  getCoin : ∀ o, (v.getCoin o).1.bind Coin.unspent = s.coins[o]?
  accessCoin : ∀ o, (v.accessCoin o).1 = s.coins[o]?.getD .empty
  haveCoin : ∀ o, (v.haveCoin o).1 = s.coins[o]?.isSome
  getNullifier : ∀ nf, (v.getNullifier nf).1 = s.nullifiers[nf]?.isSome
  getSaplingAnchorAt : ∀ rt, (v.getSaplingAnchorAt root rt).1 = s.anchors[rt]?
  getBestAnchor : (v.getBestAnchor root).1 = s.bestAnchor

/-! ### The invariant -/

/-- A state that the plain maps describe: no coin is hidden and the empty tree is there. -/
structure ViewState.Exact (root : SaplingMerkleTree → Uint256) (s : ViewState) : Prop where
  noHidden : s.NoHidden
  empty : s.anchors[root .empty]? = some .empty

/-- **A stack of caches and its plain states.** -/
structure Sound (v : CoinsViewCache) (P : PlainStack) : Prop where
  wf : v.toView.Wf S
  idle : v.toView.Idle
  states : (v.toView.states root).map ViewState.plain = P.top :: P.below
  exact : ∀ s ∈ v.toView.states root, s.Exact root

end

variable {root : SaplingMerkleTree → Uint256} {S : Trees root} {v v' : CoinsViewCache}
  {P : PlainStack}

/-! ### The plain form of the calls -/

namespace ViewState

variable {s : ViewState} (h : s.Exact root)
include h

theorem add_exact {o} (coin : Coin) {possibleOverwrite}
    (hnew : possibleOverwrite = false → s.coins[o]? = none) :
    (s.addCoin o coin possibleOverwrite).Exact root ∧
      (s.addCoin o coin possibleOverwrite).plain = s.plain.addCoin o coin := by
  have hnone : s.hidden[o]? = none := by
    rw [show s.hidden = ∅ from h.noHidden, get_empty]
  have hset : s.setCoin o (some coin) none = { s with coins := s.coins.insert o coin } := by
    refine ext' ?_ (alter_eq_self hnone) rfl rfl rfl rfl
    exact alter_some _ _ _
  have hadd : s.addCoin o coin possibleOverwrite =
      if coin.isStored then { s with coins := s.coins.insert o coin } else s := by
    unfold addCoin overwrite add
    cases possibleOverwrite with
    | true => rw [if_pos rfl, hnone, hset]
    | false => rw [if_neg Bool.false_ne_true, hnew rfl, hset]
  rw [hadd, PlainState.addCoin]
  split_ifs
  · exact ⟨⟨h.noHidden, h.empty⟩, rfl⟩
  · exact ⟨h, rfl⟩

theorem spend_exact (o : OutPoint) :
    (s.spend o).Exact root ∧ (s.spend o).plain = s.plain.spendCoin o := by
  have hnone : s.hidden[o]? = none := by
    rw [show s.hidden = ∅ from h.noHidden, get_empty]
  have hspend : s.spend o = { s with coins := s.coins.erase o } := by
    rw [spend, hnone]
    refine ext' ?_ (alter_eq_self hnone) rfl rfl rfl rfl
    exact alter_none _ _
  rw [hspend]
  exact ⟨⟨h.noHidden, h.empty⟩, rfl⟩

theorem setNullifier_exact (nf : Uint256) (spent : Bool) : (s.setNullifier nf spent).Exact root ∧
      (s.setNullifier nf spent).plain = s.plain.setNullifier spent nf := by
  refine ⟨⟨h.noHidden, h.empty⟩, ?_⟩
  cases spent <;>
    simp [setNullifier, setNullifierTo, plain, PlainState.setNullifier, alter_some,
      alter_none]

theorem setNullifiers_exact (tx : Transaction) (spent : Bool) :
    (s.setNullifiers tx spent).Exact root ∧
      (s.setNullifiers tx spent).plain = s.plain.setNullifiers tx spent := by
  unfold setNullifiers PlainState.setNullifiers
  induction tx.nullifiers generalizing s with
  | nil => exact ⟨h, rfl⟩
  | cons nf nfs ih =>
    obtain ⟨hexact, hplain⟩ := setNullifier_exact h nf spent
    obtain ⟨hrest, hrestPlain⟩ := ih hexact
    refine ⟨hrest, ?_⟩
    rw [foldl_cons, hrestPlain, hplain]
    rfl

theorem pushAnchor_exact {tree} (htree : S.mem tree) : (s.pushAnchor root tree).Exact root ∧
      (s.pushAnchor root tree).plain = s.plain.pushAnchor root tree := by
  unfold pushAnchor PlainState.pushAnchor
  by_cases hbest : s.bestAnchor = root tree
  · simp [hbest, plain, h]
  · simp only [plain, ne_eq, hbest, not_false_eq_true, if_true, setAnchorTo, setBestAnchor,
      alter_some, and_true]
    refine ⟨h.noHidden, (get_insert _ _ _ _).trans ?_⟩
    split_ifs with heq
    · rw [S.injective htree S.empty heq]
    · exact h.empty

theorem popAnchor_exact {newrt} (hkeep : s.bestAnchor ≠ newrt → s.bestAnchor ≠ root .empty) :
    (s.popAnchor newrt).Exact root ∧ (s.popAnchor newrt).plain = s.plain.popAnchor newrt := by
  unfold popAnchor PlainState.popAnchor
  by_cases hbest : s.bestAnchor = newrt
  · simp [hbest, plain, h]
  · simp only [plain, ne_eq, hbest, not_false_eq_true, if_true, setAnchorTo, setBestAnchor,
      alter_none, and_true]
    exact ⟨h.noHidden, (get_erase_ne (hkeep hbest)).trans h.empty⟩

end ViewState

/-! ### Steps -/

/-- A cache without entries shows the view below. -/
theorem CoinsCache.state_clear (hashBlock hashSaplingAnchor : Uint256) (base : ViewState) :
    ({ hashBlock, hashSaplingAnchor } : CoinsCache).state base =
      { base with
        hidden := ∅
        bestAnchor := if hashSaplingAnchor = 0 then base.bestAnchor else hashSaplingAnchor
        bestBlock := if hashBlock = 0 then base.bestBlock else hashBlock } := by
  refine ext' ?_ ?_ ?_ ?_ rfl rfl <;> refine ext fun k => ?_
  · simp [get_coins]
  · simp [get_hidden]
  · simp [get_nullifiers]
  · simp [get_anchors]

theorem CoinsCache.Wf.clear (hashBlock hashSaplingAnchor : Uint256) (base : ViewState) :
    ({ hashBlock, hashSaplingAnchor } : CoinsCache).Wf S base :=
  ⟨.empty, .empty, .empty⟩

theorem CoinsView.states_cons (v : CoinsView) :
    v.states root = v.state root :: (v.states root).tail := by
  cases v <;> rfl

namespace Sound

/-- A stack from the state of its top and the states of its base. -/
theorem of_base {s} {t} {rest} (hwf : v.toView.Wf S)
    (hidle : v.base.Idle) (hstate : v.toView.state root = s) (hexact : s.Exact root)
    (hplain : s.plain = t) (hrest : (v.base.states root).map plain = rest)
    (hbase : ∀ s ∈ v.base.states root, s.Exact root) : Sound S v ⟨t, rest⟩ := by
  have hstates : v.toView.states root = s :: v.base.states root := by
    rw [← hstate]
    rfl
  refine ⟨hwf, hidle, ?_, ?_⟩
  · rw [hstates, map_cons, hplain, hrest]
  · rw [hstates]
    exact forall_mem_cons.mpr ⟨hexact, hbase⟩

theorem start {d} (hwf : d.Wf S) (hidle : d.headBlocks = none) :
    Sound S (.ofBase (.db d)) ⟨(d.state root).plain, [(d.state root).plain]⟩ := by
  have hexact : (d.state root).Exact root :=
    ⟨rfl, (CoinsDB.get_anchors_state _).trans (if_pos rfl)⟩
  have hstate : (CoinsViewCache.ofBase (.db d)).toView.state root = d.state root :=
    (CoinsCache.state_clear 0 0 _).trans rfl
  refine of_base ⟨.clear 0 0 _, hwf⟩ hidle hstate hexact rfl rfl ?_
  intro s hs
  obtain rfl := mem_singleton.mp hs
  exact hexact

variable (h : Sound S v P)
include h

theorem top : (v.toView.state root).plain = P.top := (cons.inj h.states).1

theorem below : (v.base.states root).map plain = P.below :=
  (cons.inj h.states).2

theorem topExact : (v.toView.state root).Exact root :=
  h.exact _ (.head _)

theorem baseExact : ∀ s ∈ v.base.states root, s.Exact root :=
  fun s hs => h.exact s (.tail _ hs)

/-- A call that leaves the views below alone. -/
theorem becomes {s} {t} (hb : v.Becomes S s v') (hexact : s.Exact root) (hplain : s.plain = t) :
    Sound S v' ⟨t, P.below⟩ := by
  refine of_base hb.toView_wf (hb.base.idle h.idle) hb.toView_state hexact hplain ?_ ?_
  · rw [hb.base.states, h.below]
  · rw [hb.base.states]
    exact h.baseExact

/-- A read. -/
theorem read (hb : v.Becomes S (v.toView.state root) v') : Sound S v' P :=
  h.becomes hb h.topExact h.top

theorem setBestBlock (hashBlock : Uint256) : Sound S (v.setBestBlock hashBlock) P := by
  have hb : v.Becomes S ((v.setBestBlock hashBlock).toView.state root)
      (v.setBestBlock hashBlock) :=
    ⟨.refl h.wf.2, ⟨h.wf.1.coins, h.wf.1.nullifiers, h.wf.1.anchors⟩, rfl⟩
  exact h.becomes hb ⟨h.topExact.noHidden, h.topExact.empty⟩ h.top

/-- A new child has the state of its parent. -/
theorem create : Sound S (.ofBase v.toView) ⟨P.top, P.top :: P.below⟩ := by
  have hstate : (CoinsViewCache.ofBase v.toView).toView.state root = v.toView.state root := by
    refine (CoinsCache.state_clear 0 0 _).trans ?_
    exact ext' rfl h.topExact.noHidden.symm rfl rfl rfl rfl
  exact of_base ⟨.clear 0 0 _, h.wf⟩ h.idle hstate h.topExact h.top h.states h.exact

omit h in
/-- The parent of a child that is dropped is as before. -/
theorem discard {c p} {base} (h : Sound S ⟨c, .cache p base⟩ P) :
    ∃ t q rest, P.below = t :: q :: rest ∧ Sound S ⟨p, base⟩ ⟨t, q :: rest⟩ := by
  have hcons : (base.states root).map plain =
      (base.state root).plain :: (base.states root).tail.map plain := by
    rw [base.states_cons, map_cons]
    rfl
  refine ⟨((cache p base).state root).plain, _, _, ?_,
    of_base h.wf.2 h.idle rfl (h.baseExact _ (.head _)) rfl hcons
      fun s hs => h.baseExact s (.tail _ hs)⟩
  rw [← h.below, ← hcons]
  rfl

/-- After a flush the child is empty over a base with its state. -/
theorem flushed {base} (hwf : base.Wf S) (hidle : base.Idle)
    (hplain : (base.state root).plain = (v.toView.state root).plain)
    (hnone : (base.state root).NoHidden)
    (htail : (base.states root).tail = (v.base.states root).tail)
    (hhash : v.cache.hashSaplingAnchor = 0 ∨
      v.cache.hashSaplingAnchor = (v.toView.state root).bestAnchor) : Sound S ⟨{ hashBlock :=v.cache.hashBlock, hashSaplingAnchor := v.cache.hashSaplingAnchor },
      base⟩ ⟨P.top, P.top :: P.below.tail⟩ := by
  have hbest : (base.state root).bestAnchor = (v.toView.state root).bestAnchor :=
    congrArg PlainState.bestAnchor hplain
  have hempty : (base.state root).anchors[root .empty]? = some .empty := by
    rw [show (base.state root).anchors = (v.toView.state root).anchors from
      congrArg PlainState.anchors hplain]
    exact h.topExact.empty
  have hexact : ∀ s ∈ base.states root, s.Exact root := by
    rw [base.states_cons, htail]
    exact forall_mem_cons.mpr ⟨⟨hnone, hempty⟩, fun s hs => h.baseExact s (mem_of_mem_tail hs)⟩
  have hrest : (base.states root).map plain = P.top :: P.below.tail := by
    rw [base.states_cons, htail, map_cons, hplain, h.top, ← h.below, map_tail]
  refine of_base ⟨.clear _ _ _, hwf⟩ hidle (CoinsCache.state_clear _ _ _) ⟨rfl, hempty⟩ ?_ hrest
    hexact
  rw [← h.top, ← hplain]
  have hkept : (if v.cache.hashSaplingAnchor = 0 then (base.state root).bestAnchor
      else v.cache.hashSaplingAnchor) = (base.state root).bestAnchor := by
    rcases hhash with hnull | hown
    · rw [if_pos hnull]
    · rw [hown, hbest, ite_self]
  exact congrArg (PlainState.mk _ _ _) hkept

theorem flush (hkeep : KeepsBestAnchor root v .flush) (hop : v.flush root = .ok v') :
    Sound S v' ⟨P.top, P.top :: P.below.tail⟩ := by
  obtain ⟨base', hwrite, hv'⟩ := bind_ok.mp hop
  obtain rfl := Except.ok.inj hv'
  obtain ⟨c, base⟩ := v
  have hown : c.hashSaplingAnchor = 0 ∨
      c.hashSaplingAnchor = ((⟨c, base⟩ : CoinsViewCache).toView.state root).bestAnchor := by
    by_cases hnull : c.hashSaplingAnchor = 0
    · exact .inl hnull
    · exact .inr (if_neg hnull).symm
  cases base with
  | db d =>
    obtain ⟨d', hd', rfl⟩ := map_ok.mp hwrite
    obtain ⟨hwf, hidle, hstate⟩ := CoinsDB.batchWrite_spec h.wf.2 h.wf.1 h.topExact.empty hd'
    refine h.flushed hwf hidle ?_ ?_ rfl hown
    · exact (congrArg plain hstate).trans rfl
    · exact (congrArg ViewState.hidden hstate).trans rfl
  | cache p base =>
    obtain ⟨p', hp', rfl⟩ := map_ok.mp hwrite
    have hpn := (h.baseExact _ (.head _)).noHidden
    obtain ⟨p'', hp'', hwf, hstate⟩ :=
      CoinsCache.batchWrite_spec h.wf.2.1 h.wf.1 hpn h.topExact.noHidden
    obtain rfl := ok_unique hp'' hp'
    refine h.flushed ⟨hwf, h.wf.2.2⟩ h.idle ?_ ?_ rfl hown
    · -- without a hash of the child the parent has the best anchor of its base
      have hbest : (if c.hashSaplingAnchor = 0 then (base.state root).bestAnchor
          else c.hashSaplingAnchor) = (c.state (p.state (base.state root))).bestAnchor := by
        by_cases hnull : c.hashSaplingAnchor = 0
        · have hsame := hkeep.resolve_left fun hne => hne hnull
          rw [(getBestAnchor_spec (v := .cache p base) h.wf.2).2,
            (getBestAnchor_spec h.wf.2.2).2] at hsame
          rw [if_pos hnull, ← hsame]
          exact (if_pos hnull).symm
        · rw [if_neg hnull]
          exact (if_neg hnull).symm
      refine (congrArg plain hstate).trans ?_
      exact congrArg (PlainState.mk _ _ _) hbest
    · refine (congrArg ViewState.hidden hstate).trans ?_
      exact h.topExact.noHidden

theorem flush_below : P.apply root .flush = ⟨P.top, P.top :: P.below.tail⟩ := by
  have hbelow := h.below
  rw [v.base.states_cons, map_cons] at hbelow
  simp only [PlainStack.apply, ← hbelow, tail_cons]

/-- **Each call keeps the stack and its plain states together.** -/
theorem apply {op} (hallowed : Allowed S P op) (hkeep : KeepsBestAnchor root v op)
    (hop : v.apply root op = .ok v') : Sound S v' (P.apply root op) := by
  have hcoins : (v.toView.state root).coins = P.top.coins := congrArg PlainState.coins h.top
  have hbest := (CoinsViewCache.getBestAnchor_spec h.wf).2
  cases op with
  | addCoin o coin possibleOverwrite =>
    obtain ⟨-, hb⟩ := CoinsViewCache.addCoin_inv h.wf hop
    have hnew : possibleOverwrite = false → (v.toView.state root).coins[o]? = none := by
      rwa [hcoins]
    have hadd := add_exact h.topExact coin hnew
    exact h.becomes hb hadd.1 (h.top ▸ hadd.2)
  | spendCoin o =>
    cases hop
    obtain ⟨hb, -⟩ := CoinsViewCache.spendCoin_spec h.wf o
    have hspend := spend_exact h.topExact o
    exact h.becomes hb hspend.1 (h.top ▸ hspend.2)
  | getCoin o => exact Except.ok.inj hop ▸ h.read (CoinsViewCache.getCoin_spec h.wf o).1
  | accessCoin o => exact Except.ok.inj hop ▸ h.read (CoinsViewCache.accessCoin_spec h.wf o).1
  | haveCoin o => exact Except.ok.inj hop ▸ h.read (CoinsViewCache.haveCoin_spec h.wf o).1
  | uncache o => exact Except.ok.inj hop ▸ h.read (CoinsViewCache.uncache_spec h.wf o)
  | setNullifiers tx spent =>
    cases hop
    have hset := setNullifiers_exact h.topExact tx spent
    exact h.becomes (CoinsViewCache.setNullifiers_spec h.wf tx spent) hset.1 (h.top ▸ hset.2)
  | getNullifier nf => exact Except.ok.inj hop ▸ h.read (CoinsViewCache.getNullifier_spec h.wf nf).1
  | pushAnchor tree =>
    cases hop
    have hpush := pushAnchor_exact h.topExact hallowed
    exact h.becomes (CoinsViewCache.pushAnchor_spec h.wf hallowed) hpush.1 (h.top ▸ hpush.2)
  | popAnchor newrt =>
    have hpop := popAnchor_exact h.topExact (hbest ▸ hkeep.2)
    exact h.becomes (CoinsViewCache.popAnchor_inv h.wf hop hkeep.1) hpop.1 (h.top ▸ hpop.2)
  | getSaplingAnchorAt rt =>
    exact Except.ok.inj hop ▸ h.read (CoinsViewCache.getSaplingAnchorAt_spec h.wf rt).1
  | getBestAnchor => exact Except.ok.inj hop ▸ h.read (CoinsViewCache.getBestAnchor_spec h.wf).1
  | getBestBlock => exact Except.ok.inj hop ▸ h.read (CoinsViewCache.getBestBlock_spec h.wf).1
  | setBestBlock hashBlock => exact Except.ok.inj hop ▸ h.setBestBlock hashBlock
  | create => exact Except.ok.inj hop ▸ h.create
  | flush =>
    rw [h.flush_below]
    exact h.flush hkeep hop
  | discard =>
    obtain ⟨c, base⟩ := v
    cases base with
    | db d =>
      cases hop
      have hbelow : [(d.state root).plain] = P.below := h.below
      simp only [PlainStack.apply, ← hbelow]
      exact h
    | cache p base =>
      cases hop
      obtain ⟨t, q, rest, hbelow, hsound⟩ := h.discard
      simp only [PlainStack.apply, hbelow]
      exact hsound

theorem readsAgree : ReadsAgree root v P.top := by
  rw [← h.top]
  exact ⟨fun o => (CoinsViewCache.getCoin_spec h.wf o).2,
    fun o => (CoinsViewCache.accessCoin_spec h.wf o).2,
    fun o => (CoinsViewCache.haveCoin_spec h.wf o).2,
    fun nf => (CoinsViewCache.getNullifier_spec h.wf nf).2,
    fun rt => (CoinsViewCache.getSaplingAnchorAt_spec h.wf rt).2.1,
    (CoinsViewCache.getBestAnchor_spec h.wf).2⟩

/-- A flush does not throw: into a cache it returns, and the database only asserts. -/
theorem flush_not_throw (what : String) : v.flush root ≠ .error (.throw what) := by
  intro hthrow
  obtain ⟨c, base⟩ := v
  cases base with
  | db d =>
    rcases bind_error.mp hthrow with hwrite | ⟨_, -, hok⟩
    · cases hdb : d.batchWrite root c with
      | ok d' => simp [batchWrite, hdb] at hwrite
      | error f =>
        obtain ⟨text, rfl⟩ := CoinsDB.batchWrite_error hdb
        simp [batchWrite, hdb] at hwrite
    · cases hok
  | cache p base =>
    have hpn := (h.baseExact _ (.head _)).noHidden
    obtain ⟨p', hp', -⟩ := CoinsCache.batchWrite_spec h.wf.2.1 h.wf.1 hpn h.topExact.noHidden
    simp only [CoinsViewCache.flush, batchWrite, hp'] at hthrow
    cases hthrow

end Sound

/-- **Caches read like plain maps.** In every run whose steps are used as they may be and keep
the best anchor, every read of a coin, a nullifier or an anchor answers what the plain maps
have, and a flush does not throw. -/
theorem reads_refine
    (h : Reaches S (fun P v op => Allowed S P op ∧ KeepsBestAnchor root v op) v P) :
    ReadsAgree root v P.top ∧ ∀ what, v.flush root ≠ .error (.throw what) := by
  suffices hsound : Sound S v P from ⟨hsound.readsAgree, hsound.flush_not_throw⟩
  induction h with
  | start hwf hidle => exact .start hwf hidle
  | step _ hpermitted hop ih => exact ih.apply hpermitted.1 hpermitted.2 hop

/-! ### One flush -/

/-- The best block survives a flush: a child without one is flushed only into the database, which
insists on one, or where the parent has the best block of its base. -/
def KeepsBestBlock (v : CoinsViewCache) : Prop :=
  match v.base with
  | .db _ => True
  | .cache p base => v.cache.hashBlock ≠ 0 ∨
    (cache p base).getBestBlock.1 = base.getBestBlock.1

variable (root) in
/-- The parent has the best block and the best anchor of the child, and answers as before where
the child has no entry. -/
structure TakesOver (parent : CoinsView) (v : CoinsViewCache) : Prop where
  bestBlock : parent.getBestBlock.1 = v.getBestBlock.1
  bestAnchor : (parent.getBestAnchor root).1 = (v.getBestAnchor root).1
  coins : ∀ o, v.cache.cacheCoins[o]? = none → (parent.getCoin o).1 = (v.base.getCoin o).1
  nullifiers : ∀ nf, v.cache.cacheSaplingNullifiers[nf]? = none →
    (parent.getNullifier nf).1 = (v.base.getNullifier nf).1
  anchors : ∀ rt, v.cache.cacheSaplingAnchors[rt]? = none →
    (parent.getSaplingAnchorAt root rt).1 = (v.base.getSaplingAnchorAt root rt).1

section
variable (root) (c p : CoinsCache) (base : CoinsView) {c' : CoinsCache}

theorem bestBlock_iff (h : c'.hashBlock = c.hashBlock) : (cache c' base).getBestBlock.1 =
      (⟨c, .cache p base⟩ : CoinsViewCache).getBestBlock.1 ↔
    c.hashBlock ≠ 0 ∨ (cache p base).getBestBlock.1 = base.getBestBlock.1 := by
  simp only [getBestBlock, CoinsViewCache.getBestBlock, CoinsViewCache.getBestBlockWith, h]
  by_cases hnull : c.hashBlock = 0 <;> simp [hnull, eq_comm]

theorem bestAnchor_iff (h : c'.hashSaplingAnchor = c.hashSaplingAnchor) :
    ((cache c' base).getBestAnchor root).1 =
      ((⟨c, .cache p base⟩ : CoinsViewCache).getBestAnchor root).1 ↔ c.hashSaplingAnchor ≠ 0 ∨
    ((cache p base).getBestAnchor root).1 = (base.getBestAnchor root).1 := by
  simp only [getBestAnchor, CoinsViewCache.getBestAnchor, CoinsViewCache.getBestAnchorWith, h]
  by_cases hnull : c.hashSaplingAnchor = 0 <;> simp [hnull, eq_comm]

end

/-- **What a flush leaves in the parent.** -/
theorem flush_takesOver_iff (h : v.flush root = .ok v') :
    TakesOver root v'.base v ↔ KeepsBestBlock v ∧ KeepsBestAnchor root v .flush := by
  obtain ⟨parent, hwrite, hv'⟩ := bind_ok.mp h
  obtain rfl := Except.ok.inj hv'
  obtain ⟨c, base⟩ := v
  cases base with
  | db d =>
    obtain ⟨d', hd', rfl⟩ := map_ok.mp hwrite
    have hblock : c.hashBlock ≠ 0 := by
      obtain ⟨_, hassert, -⟩ := bind_ok.mp hd'
      simpa using hassert
    obtain rfl := CoinsDB.batchWrite_inv hd'
    refine iff_of_true ⟨?_, ?_, fun o ho => ?_, fun nf hnf => ?_, fun rt hrt => ?_⟩ ⟨trivial, trivial⟩
    · simp [getBestBlock, CoinsDB.getBestBlock, CoinsViewCache.getBestBlock,
        CoinsViewCache.getBestBlockWith, hblock]
    · by_cases hnull : c.hashSaplingAnchor = 0 <;> simp [getBestAnchor,
        CoinsViewCache.getBestAnchor, CoinsViewCache.getBestAnchorWith, hnull]
    · simp [getCoin, get_merge, ho]
    · simp [getNullifier, get_merge, hnf]
    · simp [getSaplingAnchorAt, get_merge, hrt]
  | cache p base =>
    obtain ⟨p', hp', rfl⟩ := map_ok.mp hwrite
    obtain ⟨cacheCoins, hcoins, hp'⟩ := bind_ok.mp hp'
    have hp' := Except.ok.inj hp'
    have hblock := bestBlock_iff c p base (congrArg CoinsCache.hashBlock hp').symm
    have hanchor := bestAnchor_iff root c p base (congrArg CoinsCache.hashSaplingAnchor hp').symm
    subst hp'
    refine ⟨fun htakes => ⟨hblock.mp htakes.bestBlock, hanchor.mp htakes.bestAnchor⟩, fun hkeeps =>
      ⟨hblock.mpr hkeeps.1, hanchor.mpr hkeeps.2, fun o ho => ?_, fun nf hnf => ?_,
        fun rt hrt => ?_⟩⟩
    · have hsame := mergeM_ok.mp hcoins o
      simp only [ho] at hsame
      simp only [getCoin, CoinsViewCache.fetchCoinWith, hsame]
      cases p.cacheCoins[o]? <;> rcases base.getCoin o with ⟨_ | coin, base'⟩ <;> rfl
    · simp only [getNullifier, CoinsViewCache.getNullifierWith, get_merge, hnf]
      cases p.cacheSaplingNullifiers[nf]? <;> rfl
    · simp only [getSaplingAnchorAt, CoinsViewCache.getSaplingAnchorAtWith,
        get_merge, hrt]
      cases p.cacheSaplingAnchors[rt]? <;>
        rcases base.getSaplingAnchorAt root rt with ⟨_ | tree, base'⟩ <;> rfl

/-! ### Two runs -/

variable (root) in
/-- The cache after a call that returns. -/
def CoinsViewCache.after (v : CoinsViewCache) (op : ViewOp) : CoinsViewCache :=
  match v.apply root op with
  | .ok v' => v'
  | .error _ => v

theorem Reaches.next {permitted : PlainStack → CoinsViewCache → ViewOp → Prop} (op : ViewOp)
    (h : Reaches S permitted v P) (hpermitted : permitted P v op)
    (hok : (v.apply root op).isOk = true) :
    Reaches S permitted (v.after root op) (P.apply root op) := by
  refine h.step hpermitted ?_
  obtain ⟨v', hv'⟩ := exists_ok_of_isOk hok
  simp only [CoinsViewCache.after, hv']

namespace Sample

/-- A stand-in for the roots: the first commitment. -/
def treeRoot (t : SaplingMerkleTree) : Uint256 := t.commitments.headD 1

def oneTree : SaplingMerkleTree := ⟨[5]⟩

/-- The empty tree and one other. -/
def twoTrees : Trees treeRoot where
  mem t := t = .empty ∨ t = oneTree
  empty := .inl rfl
  injective := by
    rintro t t' (rfl | rfl) (rfl | rfl) heq <;> first | rfl | exact absurd heq (by decide)
  ne_null := by
    rintro t (rfl | rfl) <;> decide

def emptyStack : CoinsViewCache := .ofBase (.db {})

def emptyPlain : PlainStack :=
  ⟨(CoinsDB.state treeRoot {}).plain, [(CoinsDB.state treeRoot {}).plain]⟩

theorem emptyStack_reaches (permitted : PlainStack → CoinsViewCache → ViewOp → Prop) :
    Reaches twoTrees permitted emptyStack emptyPlain :=
  .start ⟨.empty, .empty⟩ rfl

end Sample

open Sample

/-- A child that was only created is flushed: the parent forgets its best block. -/
theorem lostBlock_flush : ∃ v', CoinsViewCache.flush treeRoot
      (.ofBase (emptyStack.setBestBlock 7).toView) = .ok v' ∧
    v'.base.getBestBlock.1 = 0 ∧ (emptyStack.setBestBlock 7).getBestBlock.1 = 7 :=
  ⟨_, rfl, by decide +kernel, by decide +kernel⟩

/-- A child that has its own best block and best anchor keeps those of its parent. -/
theorem keptBlock_flush : TakesOver treeRoot
    ((CoinsViewCache.ofBase emptyStack.toView).setBestBlock 7 |>.after treeRoot .flush).base
    ((CoinsViewCache.ofBase emptyStack.toView).setBestBlock 7) :=
  (flush_takesOver_iff rfl).mpr ⟨.inl (by decide), .inr (by decide +kernel)⟩

/-- When the tree is popped again it is gone, for the caches as for the plain maps. -/
theorem keptAnchor_reads : ∃ v P, Reaches twoTrees
        (fun P v op => Allowed twoTrees P op ∧ KeepsBestAnchor treeRoot v op) v P ∧
      P.top.anchors[(5 : Uint256)]? = none ∧ ReadsAgree treeRoot v P.top := by
  have hstart : Reaches twoTrees
      (fun P v op => Allowed twoTrees P op ∧ KeepsBestAnchor treeRoot v op)
      emptyStack emptyPlain := emptyStack_reaches _
  have hpush := hstart.next (.pushAnchor oneTree) ⟨.inr rfl, trivial⟩ rfl
  have hchild := (hpush.next .create ⟨trivial, trivial⟩ rfl).next .getBestAnchor
    ⟨trivial, trivial⟩ rfl
  have hflush := (hchild.next .flush ⟨trivial, .inl (by decide +kernel)⟩ (by decide +kernel)).next
    .discard ⟨trivial, trivial⟩ (by decide +kernel)
  have hpop := hflush.next (.popAnchor 1)
    ⟨trivial, by decide, fun _ => by decide +kernel⟩ (by decide +kernel)
  exact ⟨_, _, hpop, by decide +kernel, (reads_refine hpop).1⟩

/-- **An anchor that stays.** A child that looked up nothing is flushed: the parent loses its
best anchor, and removing the anchor does nothing. The plain maps do not have it any more. -/
theorem lostAnchor_reads : ∃ v P, Reaches twoTrees (fun P _ op => Allowed twoTrees P op) v P ∧
      (v.getSaplingAnchorAt treeRoot 5).1 = some oneTree ∧
      P.top.anchors[(5 : Uint256)]? = none := by
  have hstart : Reaches twoTrees (fun P _ op => Allowed twoTrees P op)
      emptyStack emptyPlain := emptyStack_reaches _
  have hpush := hstart.next (.pushAnchor oneTree) (.inr rfl) rfl
  have hflush := ((hpush.next .create trivial rfl).next .flush trivial (by decide +kernel)).next
    .discard trivial (by decide +kernel)
  have hpop := hflush.next (.popAnchor 1) trivial (by decide +kernel)
  exact ⟨_, _, hpop, by decide +kernel, by decide +kernel⟩

end KmushiCoin
