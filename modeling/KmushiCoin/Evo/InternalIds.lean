import KmushiCoin.Evo.ManagerSound

/-!
# KmushiCoin.Evo.InternalIds

**The registration counter along a chain.** The counter of a list is the number of
registrations that were applied up to its block (`appliedCount`), and it is the internal id
of the next one.

* `foldList_total`: this holds of the fold of `BuildNewListFromBlock`.
* `Node.registrations_counted`: it holds of what `GetListForBlock` answers after any run, and
  no id is given to two masternodes, as long as the blocks are storable.
* `Sample.countLostNode`: a masternode that is registered and spent in one block is in the
  counter of the list that was built, but not in the difference. The list that is read back
  has a smaller counter, and the next registration gets the id again.
-/

namespace KmushiCoin

open Codec DeterministicMNList BlockIndex Sample

variable {b a pprev : BlockIndex} {vtx : List Transaction} {tx : Transaction} {g : Uint256}

namespace Manager

variable {env : ChainEnv}

/-! ### The counter of the fold -/

variable (env) in
/-- The registrations applied since the activation; the first transaction of a block is
skipped. -/
def appliedCount : BlockIndex → Nat
  | .genesis _ => 0
  | .child pprev _ vtx =>
    if env.isDIP3Enforced (pprev.nHeight + 1) then appliedCount pprev + regCount vtx.tail else 0

/-- **The counter of the fold** counts the registrations. -/
theorem foldList_total (hinj : Function.Injective env.serializeHash) {T : BlockTree env}
    (hb : T.mem b) {l : DeterministicMNList} (hl : foldList env b = .ok l) :
    l.nTotalRegisteredCount.toNat = appliedCount env b := by
  induction b generalizing l with
  | genesis g =>
    cases hl
    rfl
  | child p g vtx ih =>
    by_cases henf : env.isDIP3Enforced (p.nHeight + 1) = true
    · obtain ⟨lp, hlp, l₁, hr, rfl⟩ := (foldList_child henf).mp hl
      have hcount := T.count hb
      rw [chainTxs, if_pos henf, regCount_append] at hcount
      have htotal := build_total hinj (foldList_registry hinj (T.parent hb) hlp)
        (T.passes hb henf lp hlp) hcount hr
      rwa [appliedCount, if_pos henf, ← ih (T.parent hb) hlp]
    · rw [Bool.not_eq_true] at henf
      rw [foldList_of_not_enforced henf] at hl
      cases hl
      rw [appliedCount, henf]
      rfl

/-- Since the activation the counter only grows. -/
theorem appliedCount_le (hab : a ∈ b.ancestors) (hb : b.depth < 2 ^ 31)
    (ha : env.isDIP3Enforced a.nHeight = true) : appliedCount env a ≤ appliedCount env b := by
  induction b with
  | genesis g =>
    obtain rfl := List.mem_singleton.mp hab
    exact le_rfl
  | child p g vtx ih =>
    have henf := enforced_of_depth_le (depth_le_of_mem_ancestors hab) hb ha
    rcases List.mem_cons.mp hab with rfl | hap
    · exact le_rfl
    · have hp : p.depth + 1 < 2 ^ 31 := hb
      have hle := ih hap (by omega)
      have henf' : env.isDIP3Enforced (p.nHeight + 1) = true := henf
      rw [appliedCount, if_pos henf']
      omega

end Manager

/-! ### The ids given in a block -/

/-- A registration of the block gets the internal id: the counter of the list before it. -/
def AssignsId (env : Env) (vtx : List Transaction) (prev : PrevIndex) (id : UInt64)
    (p : Uint256) : Prop :=
  ∃ i tx l, 0 < i ∧ vtx[i]? = some tx ∧ tx.nType = .proReg ∧ tx.hash = p ∧
    listBeforeTx env vtx prev i = .ok l ∧ id = l.nTotalRegisteredCount.toUInt64

/-- There are more registrations up to a later position. -/
theorem regCount_take_lt {i j : Nat} (hi : 0 < i) (hij : i < j) (htx : vtx[i]? = some tx)
    (htype : tx.nType = .proReg) : regCount (vtx.take i).tail < regCount (vtx.take j).tail := by
  have htx' : (vtx.take j)[i]? = some tx := by rw [List.getElem?_take_of_lt hij, htx]
  rw [tail_eq_take_tail_append hi htx', List.take_take, min_eq_left hij.le]
  simp [regCount, htype]

/-- Two registrations of one block have different numbers. -/
theorem regCount_take_inj {i j : Nat} {tx'} (hi : 0 < i) (hj : 0 < j)
    (htx : vtx[i]? = some tx) (htx' : vtx[j]? = some tx') (htype : tx.nType = .proReg)
    (htype' : tx'.nType = .proReg) (heq : regCount (vtx.take i).tail = regCount (vtx.take j).tail)
    : tx = tx' := by
  rcases lt_trichotomy i j with hlt | rfl | hlt
  · exact absurd heq (regCount_take_lt hi hlt htx htype).ne
  · exact Option.mem_unique htx htx'
  · exact absurd heq (regCount_take_lt hj hlt htx' htype').ne'

namespace Node

open Manager

variable {env : ChainEnv}

variable (env) in
/-- A registration of the block gets the internal id, on the list that the node answers for
the block before it. -/
def Assigns (n : Node) : BlockIndex → UInt64 → Uint256 → Prop
  | .genesis _, _, _ => False
  | .child pprev _ vtx, id, p => env.isDIP3Enforced (pprev.nHeight + 1) = true ∧
    ∃ l m, (getListForBlock env pprev).exec n.manager = (.ok l, m) ∧
      AssignsId env.toEnv vtx (prevIndex env pprev l) id p

section
variable {T : Manager.BlockTree env} {n n' : Node}
  (hinj : Function.Injective env.serializeHash) (hst : T.Storable)
include hinj hst

variable {p : Uint256}

/-- The id that a registration gets: the registrations before its block and the earlier ones
in it. -/
theorem Consistent.assigns_eq (h : Consistent T n)
    (hb : child pprev g vtx ∈ n.tip.ancestors) {id : UInt64}
    (ha : n.Assigns env (.child pprev g vtx) id p) :
    env.isDIP3Enforced (pprev.nHeight + 1) = true ∧ ∃ i tx, 0 < i ∧ vtx[i]? = some tx ∧
      tx.nType = .proReg ∧ tx.hash = p ∧
      id.toNat = appliedCount env pprev + regCount (vtx.take i).tail := by
  obtain ⟨henf, l, m, hexec, i, tx, lb, hi, htx, htype, hhash, hlb, rfl⟩ := ha
  obtain ⟨hmem, -⟩ := h.answers hinj hst hb
  obtain ⟨hmemp, l₀, m₀, hexec₀, hfold⟩ := h.answers hinj hst (parent_mem_ancestors hb)
  rw [hexec₀] at hexec
  obtain ⟨hl, -⟩ := Prod.mk.inj hexec
  obtain rfl := Except.ok.inj hl
  have hcount := T.count hmem
  rw [chainTxs, if_pos henf, regCount_append] at hcount
  have hreg : Registry env.toEnv (chainTxs env pprev) (regCount (chainTxs env pprev))
      (prevIndex env pprev l₀).mnList := foldList_registry hinj hmemp hfold
  have hinv := hreg.blockInv_total hinj (T.passes hmem henf l₀ hfold) hcount
  have htotal := (hinv.before hinj hreg.wf hi htx hlb).2.2
  have hbase : (prevIndex env pprev l₀).mnList.nTotalRegisteredCount.toNat =
      appliedCount env pprev := foldList_total hinj hmemp hfold
  rw [hbase] at htotal
  exact ⟨henf, i, tx, hi, htx, htype, hhash, by simpa using htotal⟩

/-- An id given in a block is not given again in a later one. -/
theorem Consistent.assigns_lt (h : Consistent T n) (hb : b ∈ n.tip.ancestors)
    (hab : a ∈ b.ancestors) (hne : a ≠ b) (hdepth : n.tip.depth < 2 ^ 31) {id id'}
    {p'} (ha : n.Assigns env a id p) (hb' : n.Assigns env b id' p')
    : id.toNat < id'.toNat := by
  cases a with
  | genesis g => exact ha.elim
  | child pa ga vtxa =>
    cases b with
    | genesis g => exact hb'.elim
    | child pb gb vtxb =>
      obtain ⟨henf, i, tx, hi, htx, htype, -, hid⟩ :=
        h.assigns_eq hinj hst (ancestors_trans hab hb) ha
      obtain ⟨-, j, -, -, -, -, -, hid'⟩ := h.assigns_eq hinj hst hb hb'
      have hap : child pa ga vtxa ∈ pb.ancestors := by
        rcases List.mem_cons.mp hab with heq | hap
        · exact absurd heq hne
        · exact hap
      have hpb := depth_le_of_mem_ancestors hb
      rw [depth] at hpb
      have hle := appliedCount_le hap (by omega) henf
      rw [appliedCount, if_pos henf, tail_eq_take_tail_append hi htx] at hle
      simp only [regCount_append] at hle
      have hone : 0 < regCount (tx :: vtxa.drop (i + 1)) := by simp [regCount, htype]
      omega

/-- **Registrations are counted and ids are given once.** On a tree whose blocks are all
storable, from any consistent state and after any run: the list that `GetListForBlock`
returns for a block of the active chain has as its counter the number of registrations
applied up to the block, and no internal id is given to two masternodes of the chain. -/
theorem registrations_counted (h : Consistent T n) (hrun : Relation.ReflTransGen (Step T) n n')
    (hdepth : n'.tip.depth < 2 ^ 31) :
    (∀ b ∈ n'.tip.ancestors, ∃ l m, (getListForBlock env b).exec n'.manager = (.ok l, m) ∧
      l.nTotalRegisteredCount.toNat = appliedCount env b) ∧
    ∀ a ∈ n'.tip.ancestors, ∀ b ∈ n'.tip.ancestors, ∀ id p p',
      n'.Assigns env a id p → n'.Assigns env b id p' → p = p' := by
  have hn' := h.run hinj hst hrun
  constructor
  · intro b hb
    obtain ⟨hmem, l, m, hexec, hfold⟩ := hn'.answers hinj hst hb
    exact ⟨l, m, hexec, foldList_total hinj hmem hfold⟩
  · intro a ha b hb id p p' hap hbp
    by_cases hne : a = b
    · subst hne
      cases a with
      | genesis g => exact hap.elim
      | child pa ga vtxa =>
        obtain ⟨-, i, tx, hi, htx, htype, rfl, hid⟩ := hn'.assigns_eq hinj hst ha hap
        obtain ⟨-, j, tx', hj, htx', htype', rfl, hid'⟩ := hn'.assigns_eq hinj hst ha hbp
        rw [regCount_take_inj hi hj htx htx' htype htype' (by omega)]
    · rcases ancestors_total ha hb with hab | hba
      · exact absurd (hn'.assigns_lt hinj hst hb hab hne hdepth hap hbp) (lt_irrefl _)
      · exact absurd (hn'.assigns_lt hinj hst ha hba (Ne.symm hne) hdepth hbp hap) (lt_irrefl _)

end

end Node

open Manager

namespace Sample

def countLostTree : Manager.BlockTree regtestChain :=
  countLostNode.tip.tree (by decide +kernel) (by decide +kernel)
    (by unfold HashesIdentify HashesNonNull; decide +kernel)

theorem countLostNode_run : Relation.ReflTransGen (Node.Step countLostTree) fresh countLostNode :=
  .tail (.tail (.single (step_connected (mem_tree (by decide +kernel)) (by decide +kernel)))
      (step_connected (mem_tree (by decide +kernel)) (by decide +kernel)))
    (step_connected (mem_tree (by decide +kernel)) (by decide +kernel))

/-- An id that was given, by evaluation. -/
theorem assigns_of_eval {n : Node} {i : Nat} {id : UInt64} (hi : 0 < i) (htx : vtx[i]? = some tx)
    (htype : tx.nType = .proReg) (henf : regtestChain.isDIP3Enforced (pprev.nHeight + 1) = true)
    (hok : ((getListForBlock regtestChain pprev).exec n.manager).1.isOk = true)
    (hid : ∀ l, ((getListForBlock regtestChain pprev).exec n.manager).1 = .ok l → (listBeforeTx regtestChain.toEnv vtx (prevIndex regtestChain pprev l) i).map (fun l => l.nTotalRegisteredCount.toUInt64) = .ok id) :
    n.Assigns regtestChain (.child pprev g vtx) id tx.hash := by
  obtain ⟨l, hl⟩ := exists_ok_of_isOk hok
  have hmap := hid l hl
  cases hb : listBeforeTx regtestChain.toEnv vtx (prevIndex regtestChain pprev l) i with
  | error e =>
    rw [hb] at hmap
    cases hmap
  | ok lb =>
    rw [hb] at hmap
    exact ⟨henf, l, _, Prod.ext hl rfl, i, tx, lb, hi, htx, htype, rfl, hb,
      (Except.ok.inj hmap).symm⟩

end Sample

/-- After the masternode was registered and spent, one registration is counted. -/
theorem spentNode_registrations_counted : (∀ b ∈ spentNode.tip.ancestors, ∃ l m,
      (getListForBlock regtestChain b).exec spentNode.manager = (.ok l, m) ∧
      l.nTotalRegisteredCount.toNat = appliedCount regtestChain b) ∧
    appliedCount regtestChain spentNode.tip = 1 :=
  ⟨(Node.registrations_counted UniqueProperty.numbering_injective spendTree_storable
    (fresh_consistent (mem_tree (by decide +kernel))) spentNode_run (by decide)).1, by decide⟩

/-- **A registration is lost and its id is given again**: three registrations were applied, the
list of the tip counts two, and the masternodes 20 and 22 got the same internal id. -/
theorem countLostNode_reuses_id : Node.Consistent countLostTree fresh ∧
    Relation.ReflTransGen (Node.Step countLostTree) fresh countLostNode ∧
    appliedCount regtestChain countLostNode.tip = 3 ∧
    ((getListForBlock regtestChain countLostNode.tip).exec
      countLostNode.manager).1.map (fun l => l.nTotalRegisteredCount) = .ok 2 ∧
    countLostNode.Assigns regtestChain (.child registerBlock 130
      [coinbase, registerFurther 20 50, spendFurther]) 1 20 ∧
    countLostNode.Assigns regtestChain countLostNode.tip 1 22 := by
  refine ⟨fresh_consistent (mem_tree (by decide +kernel)), countLostNode_run, by decide, by decide +kernel, ?_, ?_⟩
  · exact assigns_of_eval Nat.one_pos (show _ = some (registerFurther 20 50) from rfl) rfl
      (by decide) (by decide +kernel) (by decide +kernel)
  · exact assigns_of_eval Nat.one_pos (show _ = some (registerFurther 22 60) from rfl) rfl
      (by decide) (by decide +kernel) (by decide +kernel)

end KmushiCoin
