import KmushiCoin.Mining.BlockAssembler

/-!
# KmushiCoin.Mining.AssemblerSpec

**What one turn of the selection does.** `turn_cases` lists the ways in which the loop comes back
to its head; `Added` says what has changed when some entries were added to the block;
`get_updatePackagesForAdded` says what the corrections leave of a modified entry.

`AssemblerEnv.Consistent` is what `CTxMemPool::check` asserts of the links of a pool. The
selection from a pool with such links is consistent (`consistent_ofPool`).
-/

namespace KmushiCoin

open Worklist Finset Option

namespace AssemblerEnv

variable {env : AssemblerEnv}

/-! ### The pool -/

variable {x d : Uint256} {S package alreadyAdded : Finset Uint256}
  {mods : FMap Uint256 ModifiedEntry} {st st' : AssemblerState}

theorem mem_entries : x ∈ env.entries ↔ x ∈ env.mapTx := by
  simp [entries]

theorem mem_inOrder : x ∈ env.inOrder S ↔ x ∈ env.mapTx ∧ x ∈ S := by
  simp [inOrder, mem_entries]

theorem nodup_inOrder (env : AssemblerEnv) (S : Finset Uint256) : (env.inOrder S).Nodup :=
  (FMap.nodup_keys env.mapTx).filter _

theorem mem_byAncestorScore : x ∈ env.byAncestorScore ↔ x ∈ env.mapTx := by
  rw [byAncestorScore, List.mem_insertionSort, mem_entries]

/-- **Consistent links**, as `CTxMemPool::check` asserts them, with what the traversals of the
links return. -/
structure Consistent (env : AssemblerEnv) : Prop where
  /-- The parents are the entries that the inputs refer to. -/
  mem_parents : ∀ {x : Uint256} {e : MemPoolEntry}, env.mapTx[x]? = some e →
    ∀ q, q ∈ env.parents x ↔ q ∈ env.mapTx ∧ q ∈ e.tx.inputHashes
  acyclic : ∀ x, ¬ Below env.parents x x
  mem_ancestors : ∀ {x}, x ∈ env.mapTx →
    ∀ q, q ∈ env.ancestors x ↔ Below env.parents x q
  mem_descendants : ∀ {x}, x ∈ env.mapTx →
    ∀ d, d ∈ env.descendants x ↔ d ∈ env.mapTx ∧ Reach env.parents d x
  size_nonneg : ∀ x, 0 ≤ env.own x .size
  sigOps_nonneg : ∀ x, 0 ≤ env.own x .sigOps

namespace Consistent

variable {x q d : Uint256}

section
variable (hc : env.Consistent) (hx : x ∈ env.mapTx)
include hc hx

theorem parent_mem (hq : q ∈ env.parents x) : q ∈ env.mapTx := by
  obtain ⟨e, he⟩ := FMap.mem_iff_get.mp hx
  exact ((hc.mem_parents he q).mp hq).1

theorem below_mem (hq : Below env.parents x q) : q ∈ env.mapTx := by
  induction hq with
  | single h => exact hc.parent_mem hx h
  | tail _ h ih => exact hc.parent_mem ih h

theorem ancestor_mem (hq : q ∈ env.ancestors x) : q ∈ env.mapTx :=
  hc.below_mem hx ((hc.mem_ancestors hx q).mp hq)

theorem not_mem_ancestors : x ∉ env.ancestors x :=
  fun h => hc.acyclic x ((hc.mem_ancestors hx x).mp h)

/-- Ancestors of ancestors are ancestors. -/
theorem ancestors_trans (hq : q ∈ env.ancestors x) (hd : d ∈ env.ancestors q)
    : d ∈ env.ancestors x :=
  (hc.mem_ancestors hx d).mpr (((hc.mem_ancestors hx q).mp hq).trans
    ((hc.mem_ancestors (hc.ancestor_mem hx hq) d).mp hd))

theorem parents_subset : env.parents x ⊆ env.ancestors x :=
  fun _ hq => (hc.mem_ancestors hx _).mpr (.single hq)

/-- The descendants of an entry are those that have it as an ancestor, and itself. -/
theorem mem_descendants_iff :
    d ∈ env.descendants x ↔ d ∈ env.mapTx ∧ (d = x ∨ x ∈ env.ancestors d) := by
  rw [hc.mem_descendants hx]
  refine and_congr_right fun hd => ?_
  rw [hc.mem_ancestors hd, Reach, Relation.reflTransGen_iff_eq_or_transGen]
  exact or_congr_left eq_comm

end

end Consistent

/-! ### The links of a pool -/

section OfPool

variable {p : MemPool}

/-- What `CTxMemPool::check` asserts of the links. -/
structure Checked (p : MemPool) : Prop where
  mem_mapLinks : ∀ x, x ∈ p.mapLinks ↔ x ∈ p.mapTx
  mem_parents : ∀ {x : Uint256} {e : MemPoolEntry}, p.mapTx[x]? = some e →
    ∀ q, q ∈ p.parents x ↔ q ∈ p.mapTx ∧ q ∈ e.tx.inputHashes
  mem_children : ∀ x y, y ∈ p.children x ↔ y ∈ p.mapTx ∧ x ∈ p.parents y
  acyclic : ∀ x, ¬ Below p.parents x x
  size_nonneg : ∀ {x : Uint256} {e : MemPoolEntry}, p.mapTx[x]? = some e → 0 ≤ e.nTxSize
  sigOps_nonneg : ∀ {x : Uint256} {e : MemPoolEntry}, p.mapTx[x]? = some e → 0 ≤ e.sigOpCount

/-- The linked entries. -/
def linked (p : MemPool) : Finset Uint256 := (p.mapLinks.toList.map Prod.fst).toFinset

theorem mem_linked : x ∈ linked p ↔ x ∈ p.mapLinks := by
  simp [linked]

/-- No traversal takes more steps than there are linked entries. -/
theorem card_le_steps (hS : S ⊆ linked p) : S.card ≤ p.steps := by
  refine (card_le_card hS).trans ((List.toFinset_card_le _).trans ?_)
  rw [List.length_map, MemPool.steps]

theorem Checked.parents_subset (h : Checked p) : ∀ x ∈ linked p, p.parents x ⊆ linked p := by
  intro x hx q hq
  have hx' : x ∈ p.mapTx := (h.mem_mapLinks x).mp (mem_linked.mp hx)
  obtain ⟨e, he⟩ := FMap.mem_iff_get.mp hx'
  exact mem_linked.mpr ((h.mem_mapLinks q).mpr ((h.mem_parents he q).mp hq).1)

theorem Checked.children_subset (h : Checked p) (x : Uint256) : p.children x ⊆ linked p :=
  fun y hy => mem_linked.mpr ((h.mem_mapLinks y).mpr ((h.mem_children x y).mp hy).1)

/-- Going down the children is going up the parents. -/
theorem Checked.reach_children (h : Checked p) (hx : x ∈ p.mapTx) :
    Reach p.children x d ↔ d ∈ p.mapTx ∧ Reach p.parents d x := by
  constructor
  · intro hr
    induction hr with
    | refl => exact ⟨hx, .refl⟩
    | tail _ hstep ih =>
      obtain ⟨hmem, hparent⟩ := (h.mem_children _ _).mp hstep
      exact ⟨hmem, .head hparent ih.2⟩
  · intro ⟨hd, hr⟩
    induction hr using Relation.ReflTransGen.head_induction_on with
    | refl => exact .refl
    | head hstep _ ih =>
      obtain ⟨e, he⟩ := FMap.mem_iff_get.mp hd
      have hmem := ((h.mem_parents he _).mp hstep).1
      exact (ih hmem).tail ((h.mem_children _ _).mpr ⟨hd, hstep⟩)

/-- **The selection from a checked pool is consistent**: the traversals of its links end and find
exactly the ancestors and the descendants. -/
theorem consistent_ofPool (h : Checked p) (settings : AssemblerEnv) :
    (ofPool p settings).Consistent where
  mem_parents := h.mem_parents
  acyclic := h.acyclic
  mem_ancestors := by
    intro x hx q
    have hlinked : x ∈ linked p := mem_linked.mpr ((h.mem_mapLinks x).mpr hx)
    have hstage := h.parents_subset x hlinked
    have hcard : (p.parents x ∪ (linked p \ ∅)).card ≤ p.steps :=
      card_le_steps (union_subset hstage (by simp))
    have hmem := mem_closeFrom h.parents_subset hstage hcard (by simp) (d := q)
    refine hmem.trans ?_
    simp only [notMem_empty, false_or]
    rw [Below, Relation.TransGen.head'_iff]
    rfl
  mem_descendants := by
    intro x hx d
    have hlinked : x ∈ linked p := mem_linked.mpr ((h.mem_mapLinks x).mpr hx)
    have hstage : ({x} : Finset Uint256) ⊆ linked p := by simpa using hlinked
    have hcard : (({x} : Finset Uint256) ∪ (linked p \ ∅)).card ≤ p.steps :=
      card_le_steps (union_subset hstage (by simp))
    have hmem := mem_closeFrom (fun y _ => h.children_subset y) hstage hcard (by simp)
      (d := d)
    have hdef : (ofPool p settings).descendants x =
        closeFrom p.children (fun _ => none) p.steps {x} ∅ := by
      simp [ofPool, MemPool.calculateDescendants]
    rw [hdef, hmem]
    simp only [notMem_empty, false_or, mem_singleton, exists_eq_left]
    exact h.reach_children hx
  size_nonneg := by
    intro x
    cases he : p.mapTx[x]? with
    | none => simp [own, ofPool, he]
    | some e =>
      have hnonneg := h.size_nonneg he
      simpa [own, ofPool, he, TxInfo.toAncestors] using hnonneg
  sigOps_nonneg := by
    intro x
    cases he : p.mapTx[x]? with
    | none => simp [own, ofPool, he]
    | some e =>
      have hnonneg := h.sigOps_nonneg he
      simpa [own, ofPool, he, TxInfo.toAncestors] using hnonneg

end OfPool

/-! ### Choosing a package -/

theorem bestOf_mem (e : Uint256 × ModifiedEntry) (l : List (Uint256 × ModifiedEntry)) :
    bestOf e l ∈ e :: l := by
  induction l generalizing e with
  | nil => simp [bestOf]
  | cons f l ih =>
    have hcons : bestOf e (f :: l) = bestOf (if compareModifiedEntry f e then f else e) l := rfl
    rw [hcons]
    have hmem := ih (if compareModifiedEntry f e then f else e)
    split_ifs at hmem ⊢
    · exact .tail _ hmem
    · rcases List.mem_cons.mp hmem with h | h
      · rw [h]
        exact .head _
      · exact .tail _ (.tail _ h)

theorem firstModified_some {y} {m} (h : firstModified mods = some (y, m)) : mods[y]? = some m := by
  unfold firstModified at h
  cases hl : mods.toList with
  | nil => simp [hl] at h
  | cons e l =>
    simp only [hl, some.injEq] at h
    have hmem := bestOf_mem e l
    rw [h, ← hl] at hmem
    exact FMap.mem_toList.mp hmem

/-- A choice is a modified entry, or the entry at `mi` with its own totals. -/
theorem choose_some {c} (h : env.choose st = some c) :
    (c.fUsingModified = true ∧ st.mapModifiedTx[c.iter]? = some c.totals) ∨
    (c.fUsingModified = false ∧ c.totals = env.modifiedEntry c.iter ∧
      ∃ rest, st.mi = c.iter :: rest) := by
  unfold choose at h
  cases hmi : st.mi with
  | nil =>
    cases hfirst : firstModified st.mapModifiedTx with
    | none => simp [hmi, hfirst] at h
    | some e =>
      simp only [hmi, hfirst, some.injEq] at h
      subst h
      exact .inl ⟨rfl, firstModified_some hfirst⟩
  | cons x rest =>
    cases hfirst : firstModified st.mapModifiedTx with
    | none =>
      simp only [hmi, hfirst, some.injEq] at h
      subst h
      exact .inr ⟨rfl, rfl, rest, rfl⟩
    | some e =>
      simp only [hmi, hfirst] at h
      split_ifs at h
      · cases h
        exact .inl ⟨rfl, firstModified_some hfirst⟩
      · cases h
        exact .inr ⟨rfl, rfl, rest, rfl⟩

@[simp] theorem inBlock_advance (st : AssemblerState) (c : PackageChoice) :
    (advance st c).inBlock = st.inBlock := by
  unfold advance
  split_ifs <;> rfl

/-- **The ways to the next turn**: an entry at `mi` is skipped, a package fails, or a package is
added. -/
theorem turn_cases (h : env.turn st = .ok (.inl st')) :
    (∃ x rest, st.mi = x :: rest ∧ skipMapTxEntry st x = true ∧ st' = { st with mi := rest }) ∨
    ∃ c, env.choose st = some c ∧ c.iter ∉ st.inBlock ∧
      ((env.admissible (advance st c) c = false ∧ st' = fail (advance st c) c) ∨
        (env.admissible (advance st c) c = true ∧ st' = env.addPackage (advance st c) c)) := by
  unfold turn at h
  by_cases hskip : st.mi.head?.any (skipMapTxEntry st) = true
  · rw [if_pos hskip] at h
    cases hmi : st.mi with
    | nil => simp [hmi] at hskip
    | cons x rest =>
      refine .inl ⟨x, rest, rfl, by simpa [hmi] using hskip, ?_⟩
      simpa [hmi] using h.symm
  · rw [if_neg hskip] at h
    split at h
    · cases h
    rename_i c hchoose
    simp only [inBlock_advance] at h
    by_cases hin : c.iter ∈ st.inBlock
    · simp [hin] at h
    rw [if_neg hin] at h
    split_ifs at h with hfee hadm
    · simp at h
    · refine .inr ⟨c, hchoose, hin, .inr ⟨hadm, ?_⟩⟩
      simpa using h.symm
    · refine .inr ⟨c, hchoose, hin, .inl ⟨by simpa using hadm, ?_⟩⟩
      simpa using h.symm

/-! ### Adding a package -/

/-- The sum of a statistic over some entries. -/
def total (env : AssemblerEnv) (stat : Stat) (l : List Uint256) : Int :=
  (l.map fun x => env.own x stat).sum

/-- The sum of the sizes of the shielded entries. -/
def shieldedTotal (env : AssemblerEnv) (l : List Uint256) : Int :=
  env.total .size (l.filter env.isShielded)

@[simp] theorem total_nil (stat : Stat) : env.total stat [] = 0 := rfl

@[simp] theorem total_cons (stat : Stat) (x : Uint256) (l : List Uint256) :
    env.total stat (x :: l) = env.own x stat + env.total stat l := by
  simp [total]

theorem total_append (stat : Stat) (l l' : List Uint256) :
    env.total stat (l ++ l') = env.total stat l + env.total stat l' := by
  simp [total]

/-- **What adding entries changes.** -/
structure Added (env : AssemblerEnv) (st : AssemblerState) (added : List Uint256)
    (st' : AssemblerState) : Prop where
  vtx : st'.vtx = st.vtx ++ added
  inBlock : st'.inBlock = st.inBlock ∪ added.toFinset
  nBlockSize : 0 ≤ st.nBlockSize → st.nBlockSize < 2 ^ 64 →
    st'.nBlockSize = (st.nBlockSize + env.total .size added) % 2 ^ 64
  nBlockSigOps : 0 ≤ st.nBlockSigOps → st.nBlockSigOps < 2 ^ 32 →
    st'.nBlockSigOps = (st.nBlockSigOps + env.total .sigOps added) % 2 ^ 32
  nSizeShielded : st'.nSizeShielded = st.nSizeShielded + env.shieldedTotal added
  shielded_le : st.nSizeShielded ≤ maxBlockShieldedTxesSize →
    st'.nSizeShielded ≤ maxBlockShieldedTxesSize
  mapModifiedTx : ∀ x, st'.mapModifiedTx[x]? =
    if x ∈ added then none else st.mapModifiedTx[x]?
  failedTx : st'.failedTx = st.failedTx
  mi : st'.mi = st.mi

theorem Added.refl (st : AssemblerState) : Added env st [] st where
  vtx := by simp
  inBlock := by simp
  nBlockSize := fun h h' => by rw [total_nil, add_zero, Int.emod_eq_of_lt h h']
  nBlockSigOps := fun h h' => by rw [total_nil, add_zero, Int.emod_eq_of_lt h h']
  nSizeShielded := by simp [shieldedTotal]
  shielded_le := id
  mapModifiedTx := by simp
  failedTx := rfl
  mi := rfl

/-- One entry that is not left out, and then the rest. -/
theorem Added.cons {added} (hx : env.leftOut st x = false)
    (h : Added env (env.addToBlock { st with nSizeShielded := env.sizeShieldedWith st x } x) added st')
    : Added env st (x :: added) st' where
  vtx := by simp [h.vtx, addToBlock]
  inBlock := by
    rw [h.inBlock]
    ext y
    simp only [addToBlock, mem_union, mem_insert, List.mem_toFinset, List.mem_cons]
    tauto
  nBlockSize := by
    intro _ _
    rw [h.nBlockSize (Int.emod_nonneg _ (by norm_num)) (Int.emod_lt_of_pos _ (by norm_num)),
      total_cons, ← add_assoc]
    exact Int.emod_add_emod ..
  nBlockSigOps := by
    intro _ _
    rw [h.nBlockSigOps (Int.emod_nonneg _ (by norm_num)) (Int.emod_lt_of_pos _ (by norm_num)),
      total_cons, ← add_assoc]
    exact Int.emod_add_emod ..
  nSizeShielded := by
    rw [h.nSizeShielded]
    by_cases hs : env.isShielded x = true
    · simp [addToBlock, sizeShieldedWith, shieldedTotal, hs, add_assoc]
    · simp [addToBlock, sizeShieldedWith, shieldedTotal, hs]
  shielded_le := by
    intro hle
    refine h.shielded_le ?_
    by_cases hs : env.isShielded x = true
    · simp only [leftOut, hs, Bool.true_and, Bool.or_eq_false_iff, decide_eq_false_iff_not,
        not_lt] at hx
      simpa [addToBlock, sizeShieldedWith, hs] using hx.2
    · simpa [addToBlock, sizeShieldedWith, hs] using hle
  mapModifiedTx := by
    intro y
    rw [h.mapModifiedTx y]
    simp only [addToBlock, FMap.get_erase, List.mem_cons, @eq_comm _ y x]
    by_cases hy : y ∈ added <;> by_cases hxy : x = y <;> simp [hy, hxy]
  failedTx := h.failedTx
  mi := h.mi

/-- **The loop over the sorted entries** adds a part of them from the front: all of them, or those
before one that is left out. -/
theorem addSorted_spec (env : AssemblerEnv) (st : AssemblerState) (sorted : List Uint256) :
    ∃ added rest, sorted = added ++ rest ∧ Added env st added (env.addSorted st sorted) := by
  induction sorted generalizing st with
  | nil => exact ⟨[], [], rfl, .refl st⟩
  | cons x sorted ih =>
    unfold addSorted
    by_cases hleft : env.leftOut st x = true
    · rw [if_pos hleft]
      exact ⟨[], x :: sorted, rfl, .refl st⟩
    · rw [if_neg hleft]
      obtain ⟨added, rest, rfl, hadded⟩ :=
        ih (env.addToBlock { st with nSizeShielded := env.sizeShieldedWith st x } x)
      exact ⟨x :: added, rest, rfl, .cons (by simpa using hleft) hadded⟩

/-- **A package is added** from the front, and the corrections are made for all of it. -/
theorem addPackage_spec (env : AssemblerEnv) (st : AssemblerState) (c : PackageChoice) :
    ∃ added rest st₁, env.sortForBlock (env.package st c.iter) = added ++ rest ∧
      Added env st added st₁ ∧ env.addPackage st c = { st₁ with
        mapModifiedTx := env.updatePackagesForAdded (env.package st c.iter) st₁.mapModifiedTx } := by
  obtain ⟨added, rest, hsorted, hadded⟩ :=
    addSorted_spec env st (env.sortForBlock (env.package st c.iter))
  exact ⟨added, rest, _, hsorted, hadded, rfl⟩

/-! ### Sorting a package -/

instance : Std.Total env.AncestorCountLe where
  total a b := by
    rcases lt_trichotomy (env.withAncestors a .count) (env.withAncestors b .count) with h | h | h
    · exact .inl (.inl h)
    · rcases le_total a b with hab | hab
      · exact .inl (.inr ⟨h, hab⟩)
      · exact .inr (.inr ⟨h.symm, hab⟩)
    · exact .inr (.inl h)

instance : IsTrans Uint256 env.AncestorCountLe where
  trans a b c hab hbc := by
    unfold AncestorCountLe at *
    rcases hab with hab | ⟨hab, hle⟩ <;> rcases hbc with hbc | ⟨hbc, hle'⟩
    · exact .inl (hab.trans hbc)
    · exact .inl (hbc ▸ hab)
    · exact .inl (hab ▸ hbc)
    · exact .inr ⟨hab.trans hbc, hle.trans hle'⟩

theorem mem_sortForBlock : x ∈ env.sortForBlock package ↔ x ∈ env.mapTx ∧ x ∈ package := by
  rw [sortForBlock, List.mem_insertionSort, mem_inOrder]

theorem nodup_sortForBlock (env : AssemblerEnv) (package : Finset Uint256) :
    (env.sortForBlock package).Nodup :=
  (List.perm_insertionSort _ _).nodup_iff.mpr (nodup_inOrder env package)

/-- An entry with fewer ancestors comes first. -/
theorem mem_before_of_count_lt {before after} {q}
    (hsorted : env.sortForBlock package = before ++ x :: after) (hq : q ∈ env.sortForBlock package)
    (hlt : env.withAncestors q .count < env.withAncestors x .count) : q ∈ before := by
  have hpair := List.pairwise_insertionSort env.AncestorCountLe (env.inOrder package)
  rw [show List.insertionSort env.AncestorCountLe (env.inOrder package) = before ++ x :: after
    from hsorted, List.pairwise_append] at hpair
  rw [hsorted, List.mem_append, List.mem_cons] at hq
  rcases hq with hq | rfl | hq
  · exact hq
  · exact absurd hlt (lt_irrefl _)
  · -- behind `x` there are at least as many ancestors
    rcases List.rel_of_pairwise_cons hpair.2.1 hq with h | ⟨h, -⟩ <;> omega

/-! ### The corrections -/

/-- **What the corrections leave**: an entry outside of the package loses every member of the
package that it descends from. -/
theorem get_updatePackagesForAdded (env : AssemblerEnv) (alreadyAdded : Finset Uint256)
    (mods : FMap Uint256 ModifiedEntry) (d : Uint256) :
    (env.updatePackagesForAdded alreadyAdded mods)[d]? =
      ((env.inOrder alreadyAdded).filter fun it =>
        d ∈ env.inOrder (env.descendants it \ alreadyAdded)).foldl
        (fun m it => some (env.updateForParent it d m)) mods[d]? := by
  unfold updatePackagesForAdded
  generalize env.inOrder alreadyAdded = l
  induction l generalizing mods with
  | nil => rfl
  | cons it l ih =>
    rw [List.foldl_cons, ih, FMap.get_foldl_alter_keys (nodup_inOrder env _)
      (fun desc m => some (env.updateForParent it desc m))]
    by_cases hd : d ∈ env.inOrder (env.descendants it \ alreadyAdded)
    · rw [List.filter_cons_of_pos (by simpa using hd), List.foldl_cons, if_pos hd]
    · rw [List.filter_cons_of_neg (by simpa using hd), if_neg hd]

/-- A modified entry was one before, or descends from a member of the package. -/
theorem mem_updatePackagesForAdded (h : d ∈ env.updatePackagesForAdded alreadyAdded mods) :
    d ∈ mods ∨ ∃ it ∈ alreadyAdded, it ∈ env.mapTx ∧ d ∈ env.mapTx ∧ d ∈ env.descendants it ∧
      d ∉ alreadyAdded := by
  rw [Std.ExtTreeMap.mem_iff_isSome_getElem?, get_updatePackagesForAdded] at h
  cases hits : (env.inOrder alreadyAdded).filter fun it =>
      d ∈ env.inOrder (env.descendants it \ alreadyAdded) with
  | nil =>
    rw [hits] at h
    exact .inl (Std.ExtTreeMap.mem_iff_isSome_getElem?.mpr h)
  | cons it its =>
    have hit : it ∈ (env.inOrder alreadyAdded).filter fun it =>
        d ∈ env.inOrder (env.descendants it \ alreadyAdded) := by simp [hits]
    rw [List.mem_filter, mem_inOrder, decide_eq_true_eq, mem_inOrder, mem_sdiff] at hit
    obtain ⟨⟨hitm, hita⟩, hdm, hdd, hda⟩ := hit
    exact .inr ⟨it, hita, hitm, hdm, hdd, hda⟩

theorem get_updatePackagesForAdded_of_mem (hd : d ∈ alreadyAdded) :
    (env.updatePackagesForAdded alreadyAdded mods)[d]? = mods[d]? := by
  rw [get_updatePackagesForAdded, List.filter_eq_nil_iff.mpr]
  · rfl
  · intro it _
    simp [mem_inOrder, hd]

end AssemblerEnv

end KmushiCoin
