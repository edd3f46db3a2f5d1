import KmushiCoin.Mining.Selection

/-!
# KmushiCoin.Mining.Limits

**The limits of a block template.** A package is tested with its totals. The totals of a modified
entry are those of the entry with its ancestors, less the ancestors that were taken off by the
corrections. As long as **every package is added whole**, what was taken off is in the block
(`Remaining`), so the totals are at least those of what would be added, and the limits of size and
signature operations hold.

When the shielded rules cut a package short, the corrections take off entries that are not in the
block. The next package is then tested with totals that are too small, and the template can exceed
its limit (`Sample.template_too_large`).
-/

namespace KmushiCoin

open Finset List

namespace AssemblerEnv

variable {env : AssemblerEnv}

/-- **The ancestor totals are exact**, within the bounds that `UpdateAncestorState` asserts. -/
structure TotalsExact (env : AssemblerEnv) : Prop where
  exact : ∀ x ∈ env.mapTx, ∀ stat, stat ≠ .fees →
    env.withAncestors x stat = ∑ q ∈ insert x (env.ancestors x), env.own q stat
  size_lt : ∀ x ∈ env.mapTx, env.withAncestors x .size < 2 ^ 63
  sigOps_lt : ∀ x ∈ env.mapTx, env.withAncestors x .sigOps < 2 ^ 31

variable {x : Uint256} {B : Finset Uint256} {m : Option ModifiedEntry} {stat : Stat}
  {st st' : AssemblerState}

theorem own_count (hx : x ∈ env.mapTx) : env.own x .count = 1 := by
  obtain ⟨e, he⟩ := FMap.mem_iff_get.mp hx
  simp [own, he, TxInfo.toAncestors]

theorem TotalsExact.countsExact (h : env.TotalsExact) (hcons : env.Consistent) :
    env.CountsExact := by
  intro x hx
  have hone : ∀ q ∈ insert x (env.ancestors x), env.own q .count = 1 := by
    intro q hq
    rcases mem_insert.mp hq with rfl | hq
    · exact own_count hx
    · exact own_count (hcons.ancestor_mem hx hq)
  rw [h.exact x hx .count (by simp), sum_congr rfl hone,
    sum_const, card_insert_of_notMem (hcons.not_mem_ancestors hx)]
  simp

/-! ### What is left of a package -/

/-- The totals of an entry and its ancestors without some of the ancestors. -/
def restTotal (env : AssemblerEnv) (x : Uint256) (T : Finset Uint256) (stat : Stat) : Int :=
  ∑ q ∈ insert x (env.ancestors x) \ T, env.own q stat

/-- **Only what is in the block has been taken off** the totals of a modified entry. -/
def Remaining (env : AssemblerEnv) (inBlock : Finset Uint256) (x : Uint256) (m : ModifiedEntry) :
    Prop :=
  ∃ T ⊆ inBlock, T ⊆ env.ancestors x ∧ m.nSizeWithAncestors = env.restTotal x T .size ∧
    m.nSigOpCountWithAncestors = env.restTotal x T .sigOps

theorem Remaining.mono {B'} {m} (h : env.Remaining B x m)
    (hsub : B ⊆ B') : env.Remaining B' x m := by
  obtain ⟨T, hT, hrest⟩ := h
  exact ⟨T, hT.trans hsub, hrest⟩

theorem restTotal_empty (hexact : env.TotalsExact) (hx : x ∈ env.mapTx) (hstat : stat ≠ .fees) :
    env.restTotal x ∅ stat = env.withAncestors x stat := by
  rw [restTotal, sdiff_empty, hexact.exact x hx stat hstat]

/-- The totals of an entry itself. -/
theorem remaining_modifiedEntry (hexact : env.TotalsExact) (hx : x ∈ env.mapTx) (B : Finset Uint256)
    : env.Remaining B x (env.modifiedEntry x) :=
  ⟨∅, by simp, by simp, (restTotal_empty hexact hx (by simp)).symm,
    (restTotal_empty hexact hx (by simp)).symm⟩

section Bounds

variable {stat : Stat} {x it : Uint256} {T : Finset Uint256}

theorem restTotal_le (hown : ∀ q, 0 ≤ env.own q stat) (hexact : env.TotalsExact)
    (hx : x ∈ env.mapTx) (hstat : stat ≠ .fees) :
    env.restTotal x T stat ≤ env.withAncestors x stat := by
  rw [← restTotal_empty hexact hx hstat, restTotal, restTotal, sdiff_empty]
  exact sum_le_sum_of_subset_of_nonneg sdiff_subset fun q _ _ => hown q

theorem restTotal_insert (hit : it ∈ env.ancestors x) (hT : it ∉ T) :
    env.restTotal x (insert it T) stat = env.restTotal x T stat - env.own it stat := by
  have hmem : it ∈ insert x (env.ancestors x) \ T :=
    mem_sdiff.mpr ⟨mem_insert_of_mem hit, hT⟩
  rw [restTotal, restTotal, sdiff_insert, sum_erase_eq_sub hmem]

/-- One more correction does not wrap around. -/
theorem restTotal_sub_emod {w : Int} (hown : ∀ q, 0 ≤ env.own q stat) (hexact : env.TotalsExact)
    (hx : x ∈ env.mapTx) (hstat : stat ≠ .fees) (hw : env.withAncestors x stat < w)
    (hit : it ∈ env.ancestors x) (hT : it ∉ T) :
    (env.restTotal x T stat - env.own it stat) % w = env.restTotal x (insert it T) stat := by
  rw [← restTotal_insert hit hT]
  have hle : env.restTotal x (insert it T) stat ≤ env.withAncestors x stat :=
    restTotal_le hown hexact hx hstat
  exact Int.emod_eq_of_lt (sum_nonneg fun q _ => hown q) (by omega)

end Bounds

/-- **One correction**: an ancestor that is not in the block is taken off. -/
theorem remaining_updateForParent (hcons : env.Consistent) (hexact : env.TotalsExact) {it}
    (hx : x ∈ env.mapTx) (hm : ∀ e, m = some e → env.Remaining B x e) (hit : it ∈ env.ancestors x)
    (hB : it ∉ B) : env.Remaining (insert it B) x (env.updateForParent it x m) := by
  have hrest : env.Remaining B x (m.getD (env.modifiedEntry x)) := by
    cases m with
    | none => exact remaining_modifiedEntry hexact hx B
    | some e => exact hm e rfl
  obtain ⟨T, hT, hanc, hsize, hsigOps⟩ := hrest
  have hitT : it ∉ T := fun h => hB (hT h)
  refine ⟨insert it T, insert_subset_insert it hT, insert_subset hit hanc, ?_, ?_⟩
  · simp only [updateForParent, hsize]
    have hlt := hexact.size_lt x hx
    exact restTotal_sub_emod hcons.size_nonneg hexact hx (by simp) (by omega) hit hitT
  · simp only [updateForParent, hsigOps]
    have hlt := hexact.sigOps_lt x hx
    exact restTotal_sub_emod hcons.sigOps_nonneg hexact hx (by simp) (by omega) hit hitT

/-- **All the corrections** of an entry for some of its ancestors, none of which is in the block. -/
theorem remaining_foldl (hcons : env.Consistent) (hexact : env.TotalsExact) (hx : x ∈ env.mapTx)
    {its : List Uint256} (hnodup : its.Nodup) (hits : ∀ it ∈ its, it ∈ env.ancestors x)
    (hB : ∀ it ∈ its, it ∉ B) (hm : ∀ e, m = some e → env.Remaining B x e) {e : ModifiedEntry}
    (he : its.foldl (fun m it => some (env.updateForParent it x m)) m = some e) :
    env.Remaining (B ∪ its.toFinset) x e := by
  induction its generalizing B m with
  | nil => exact (hm e he).mono (by simp)
  | cons it its ih =>
    obtain ⟨hnew, hnodup⟩ := List.nodup_cons.mp hnodup
    have hfirst := remaining_updateForParent hcons hexact hx hm (hits it (by simp))
      (hB it (by simp))
    have hB' : ∀ q ∈ its, q ∉ insert it B := by
      intro q hq hmem
      rcases mem_insert.mp hmem with rfl | hqB
      · exact hnew hq
      · exact hB q (by simp [hq]) hqB
    refine (ih hnodup (fun q hq => hits q (by simp [hq])) hB' ?_ he).mono ?_
    · intro e' he'
      obtain rfl := Option.some.inj he'
      exact hfirst
    · intro q hq
      simp only [mem_union, mem_insert, List.mem_toFinset, List.mem_cons] at hq ⊢
      tauto

/-! ### Packages that are added whole -/

/-- **Nothing is left out** of a package that fits. -/
def AddsWhole (env : AssemblerEnv) (st : AssemblerState) : Prop :=
  ∀ c ∈ env.choose st, env.admissible (advance st c) c = true →
    (env.addPackage (advance st c) c).vtx =
      st.vtx ++ env.sortForBlock (env.package (advance st c) c.iter)

instance : DecidablePred env.AddsWhole := fun st =>
  inferInstanceAs (Decidable (∀ c ∈ env.choose st, env.admissible (advance st c) c = true →
    (env.addPackage (advance st c) c).vtx =
      st.vtx ++ env.sortForBlock (env.package (advance st c) c.iter)))

/-- **The counters are exact and within the limits.** -/
structure Counted (env : AssemblerEnv) (st : AssemblerState) : Prop where
  nBlockSize : st.nBlockSize = 1000 + env.total .size st.vtx
  nBlockSigOps : st.nBlockSigOps = 100 + env.total .sigOps st.vtx
  size_lt : st.vtx = [] ∨ st.nBlockSize < env.nBlockMaxSize
  sigOps_lt : st.nBlockSigOps < maxBlockSigOpsCurrent
  totals : ∀ x m, st.mapModifiedTx[x]? = some m → env.Remaining st.inBlock x m

theorem counted_start (env : AssemblerEnv) : env.Counted env.start where
  nBlockSize := rfl
  nBlockSigOps := rfl
  size_lt := .inl rfl
  sigOps_lt := by simp [start, maxBlockSigOpsCurrent]
  totals := by simp [start]

/-- The package of an entry has at most the totals that are left of it. -/
theorem total_sortForBlock_le (hown : ∀ q, 0 ≤ env.own q stat) (hcons : env.Consistent)
    {iter} (hiter : iter ∈ env.mapTx) {T} (hT : T ⊆ st.inBlock)
    (hanc : T ⊆ env.ancestors iter) :
    env.total stat (env.sortForBlock (env.package st iter)) ≤ env.restTotal iter T stat := by
  rw [total, ← sum_toFinset _ (nodup_sortForBlock env _)]
  refine sum_le_sum_of_subset_of_nonneg ?_ fun q _ _ => hown q
  intro q hq
  obtain ⟨-, hp⟩ := mem_sortForBlock.mp (mem_toFinset.mp hq)
  rcases mem_insert.mp hp with rfl | hp
  · exact mem_sdiff.mpr ⟨mem_insert_self _ _,
      fun h => hcons.not_mem_ancestors hiter (hanc h)⟩
  · obtain ⟨hqa, hqb⟩ := mem_sdiff.mp hp
    exact mem_sdiff.mpr ⟨mem_insert_of_mem hqa, fun h => hqb (hT h)⟩

theorem total_nonneg (hown : ∀ q, 0 ≤ env.own q stat) (l : List Uint256) :
    0 ≤ env.total stat l := by
  refine sum_nonneg ?_
  intro v hv
  obtain ⟨q, -, rfl⟩ := mem_map.mp hv
  exact hown q

/-- **What a tested package leaves of a counter.** -/
theorem counter_lt {counter package tested limit w : Int} (hpackage : package ≤ tested)
    (hnonneg : 0 ≤ package) (hcounter : 0 ≤ counter) (hw : counter + tested < w)
    (htest : (counter + tested) % w < limit) :
    (counter + package) % w = counter + package ∧ counter + package < limit := by
  rw [Int.emod_eq_of_lt (by omega) hw] at htest
  exact ⟨Int.emod_eq_of_lt (by omega) (by omega), by omega⟩

/-- **The corrections after a whole package**: what they take off is in the block. -/
theorem remaining_updatePackages (hcons : env.Consistent) (hexact : env.TotalsExact)
    {inBlock package : Finset Uint256} {mods : FMap Uint256 ModifiedEntry}
    (hdisjoint : ∀ it ∈ package, it ∉ inBlock)
    (hmods : ∀ x m, mods[x]? = some m → x ∈ env.mapTx ∧ env.Remaining inBlock x m)
    (hout : ∀ x ∈ package, mods[x]? = none) {m : ModifiedEntry}
    (hm : (env.updatePackagesForAdded package mods)[x]? = some m) :
    env.Remaining (inBlock ∪ package) x m := by
  have hx : x ∉ package := by
    intro hx
    rw [get_updatePackagesForAdded_of_mem hx, hout x hx] at hm
    simp at hm
  have hxm : x ∈ env.mapTx := by
    have hmod : x ∈ env.updatePackagesForAdded package mods := by
      simp [Std.ExtTreeMap.mem_iff_isSome_getElem?, hm]
    rcases mem_updatePackagesForAdded hmod with hold | ⟨-, -, -, hxm, -⟩
    · obtain ⟨m', hm'⟩ :=
        FMap.mem_iff_get.mp hold
      exact (hmods x m' hm').1
    · exact hxm
  -- the corrections are for members of the package that the entry descends from
  have hits : ∀ it ∈ (env.inOrder package).filter fun it =>
      x ∈ env.inOrder (env.descendants it \ package), it ∈ package ∧ it ∈ env.ancestors x := by
    intro it hit
    rw [mem_filter, mem_inOrder, decide_eq_true_eq, mem_inOrder, mem_sdiff] at hit
    obtain ⟨⟨hitm, hitp⟩, -, hxd, -⟩ := hit
    refine ⟨hitp, ?_⟩
    rcases ((hcons.mem_descendants_iff hitm).mp hxd).2 with rfl | hanc
    · exact absurd hitp hx
    · exact hanc
  rw [get_updatePackagesForAdded] at hm
  refine (remaining_foldl hcons hexact hxm ((nodup_inOrder env _).filter _)
    (fun it hit => (hits it hit).2) (fun it hit => hdisjoint it (hits it hit).1)
    (fun e he => (hmods x e he).2) hm).mono ?_
  refine union_subset_union subset_rfl ?_
  intro it hit
  exact (hits it (mem_toFinset.mp hit)).1

namespace Counted

variable {st : AssemblerState} {c : PackageChoice}

section
variable (h : env.Counted st)
include h

theorem with_mi (mi : List Uint256) : env.Counted { st with mi := mi } :=
  ⟨h.nBlockSize, h.nBlockSigOps, h.size_lt, h.sigOps_lt, h.totals⟩

theorem advance (c : PackageChoice) : env.Counted (AssemblerEnv.advance st c) := by
  unfold AssemblerEnv.advance
  split_ifs
  · exact h
  · exact h.with_mi _

theorem fail (c : PackageChoice) : env.Counted (AssemblerEnv.fail st c) := by
  unfold AssemblerEnv.fail
  split_ifs
  · refine ⟨h.nBlockSize, h.nBlockSigOps, h.size_lt, h.sigOps_lt, ?_⟩
    intro x m hm
    rw [FMap.get_erase] at hm
    split_ifs at hm
    exact h.totals x m hm
  · exact h

/-- The totals of a choice leave out only what is in the block. -/
theorem choice_remaining (hsel : env.Selected st) (hexact : env.TotalsExact)
    (hc : env.choose st = some c) : env.Remaining st.inBlock c.iter c.totals := by
  have hmem := hsel.choice_mem hc
  rcases choose_some hc with ⟨-, hmod⟩ | ⟨-, htotals, -⟩
  · exact h.totals c.iter c.totals hmod
  · rw [htotals]
    exact remaining_modifiedEntry hexact hmem _

/-- A template is within the largest block from the start. -/
theorem nBlockSize_le : st.nBlockSize ≤ env.nBlockMaxSize := by
  rcases h.size_lt with hnil | hlt
  · rw [h.nBlockSize, hnil, total_nil]
    exact le_max_left _ _
  · exact hlt.le

theorem nBlockSize_nonneg (hcons : env.Consistent) : 0 ≤ st.nBlockSize := by
  have htotal : 0 ≤ env.total .size st.vtx := total_nonneg hcons.size_nonneg _
  rw [h.nBlockSize]
  omega

theorem nBlockSigOps_nonneg (hcons : env.Consistent) : 0 ≤ st.nBlockSigOps := by
  have htotal : 0 ≤ env.total .sigOps st.vtx := total_nonneg hcons.sigOps_nonneg _
  rw [h.nBlockSigOps]
  omega

/-- A package that fits brings neither counter over its limit. -/
theorem counters_lt (hcons : env.Consistent) (hexact : env.TotalsExact) (hmem : c.iter ∈ env.mapTx)
    (hrest : env.Remaining st.inBlock c.iter c.totals) (hadm : env.admissible st c = true)
    {added} (hadd : added = env.sortForBlock (env.package st c.iter)) :
    ((st.nBlockSize + env.total .size added) % 2 ^ 64 = st.nBlockSize + env.total .size added ∧
      st.nBlockSize + env.total .size added < env.nBlockMaxSize) ∧
    ((st.nBlockSigOps + env.total .sigOps added) % 2 ^ 32 =
        st.nBlockSigOps + env.total .sigOps added ∧
      st.nBlockSigOps + env.total .sigOps added < maxBlockSigOpsCurrent) := by
  obtain ⟨T, hT, hanc, hsize, hsigOps⟩ := hrest
  simp only [admissible, testPackage, hsize, hsigOps, Bool.and_eq_true, Bool.not_eq_true',
    decide_eq_false_iff_not, not_le] at hadm
  obtain ⟨⟨htestSize, htestSigOps⟩, -⟩ := hadm
  have hmax : env.nBlockMaxSize ≤ 2000000 := by
    unfold nBlockMaxSize
    omega
  have hlimit : (maxBlockSigOpsCurrent : Int) = 40000 := rfl
  have hsizeLe := h.nBlockSize_le
  have hsigOpsLt := h.sigOps_lt
  have hsizeT : env.restTotal c.iter T .size < 2 ^ 63 :=
    (restTotal_le hcons.size_nonneg hexact hmem (by simp)).trans_lt (hexact.size_lt _ hmem)
  have hsigOpsT : env.restTotal c.iter T .sigOps < 2 ^ 31 :=
    (restTotal_le hcons.sigOps_nonneg hexact hmem (by simp)).trans_lt (hexact.sigOps_lt _ hmem)
  subst hadd
  exact ⟨counter_lt (total_sortForBlock_le hcons.size_nonneg hcons hmem hT hanc)
      (total_nonneg hcons.size_nonneg _) (h.nBlockSize_nonneg hcons) (by omega) htestSize,
    counter_lt (total_sortForBlock_le hcons.sigOps_nonneg hcons hmem hT hanc)
      (total_nonneg hcons.sigOps_nonneg _) (h.nBlockSigOps_nonneg hcons) (by omega) htestSigOps⟩

/-- **A package that fits and is added whole keeps the limits.** -/
theorem addPackage (hsel : env.Selected st) (hcons : env.Consistent) (hexact : env.TotalsExact)
    (hmem : c.iter ∈ env.mapTx) (hiter : c.iter ∉ st.inBlock)
    (hrest : env.Remaining st.inBlock c.iter c.totals) (hadm : env.admissible st c = true)
    (hwhole : (env.addPackage st c).vtx = st.vtx ++ env.sortForBlock (env.package st c.iter)) :
    env.Counted (env.addPackage st c) := by
  obtain ⟨added, rest, st₁, hsorted, hadded, heq⟩ := addPackage_spec env st c
  have hadd : added = env.sortForBlock (env.package st c.iter) := by
    rw [heq] at hwhole
    exact append_cancel_left (hadded.vtx.symm.trans hwhole)
  have hmemAdded : ∀ x, x ∈ added ↔ x ∈ env.package st c.iter := by
    intro x
    rw [hadd, mem_sortForBlock]
    refine and_iff_right_of_imp fun hx => ?_
    rcases mem_insert.mp hx with rfl | hx
    · exact hmem
    · exact hcons.ancestor_mem hmem (mem_sdiff.mp hx).1
  obtain ⟨⟨hsizeEq, hsizeLt⟩, hsigOpsEq, hsigOpsLt⟩ :=
    h.counters_lt hcons hexact hmem hrest hadm hadd
  have hmax : env.nBlockMaxSize ≤ 2000000 := by
    unfold nBlockMaxSize
    omega
  have hsizeLe := h.nBlockSize_le
  have hsigOpsLe : st.nBlockSigOps < 40000 := h.sigOps_lt
  have hnBlockSize := hadded.nBlockSize (h.nBlockSize_nonneg hcons) (by omega)
  have hnBlockSigOps := hadded.nBlockSigOps (h.nBlockSigOps_nonneg hcons) (by omega)
  rw [hsizeEq] at hnBlockSize
  rw [hsigOpsEq] at hnBlockSigOps
  rw [heq]
  exact
    { nBlockSize := by
        rw [hnBlockSize, hadded.vtx, total_append, h.nBlockSize, add_assoc]
      nBlockSigOps := by
        rw [hnBlockSigOps, hadded.vtx, total_append, h.nBlockSigOps, add_assoc]
      size_lt := .inr (hnBlockSize.trans_lt hsizeLt)
      sigOps_lt := hnBlockSigOps.trans_lt hsigOpsLt
      totals := by
        intro x m hm
        have hset : st₁.inBlock = st.inBlock ∪ env.package st c.iter := by
          rw [hadded.inBlock]
          congr 1
          ext y
          rw [mem_toFinset, hmemAdded]
        rw [hset]
        refine remaining_updatePackages hcons hexact
          (fun it => Selected.not_inBlock_of_mem_package hiter) ?_ ?_ hm
        · intro y e he
          rw [hadded.mapModifiedTx] at he
          split_ifs at he
          exact ⟨(hsel.modified y (FMap.mem_iff_get.mpr ⟨_, he⟩)).1,
            h.totals y e he⟩
        · intro y hy
          rw [hadded.mapModifiedTx, if_pos ((hmemAdded y).mpr hy)] }

/-- **Kept by every turn** that adds whole packages. -/
theorem turn (hsel : env.Selected st) (hcons : env.Consistent) (hexact : env.TotalsExact)
    (hwhole : env.AddsWhole st) (hturn : env.turn st = .ok (.inl st')) : env.Counted st' := by
  rcases turn_cases hturn with ⟨x, rest, -, -, rfl⟩ | ⟨c, hchoose, hin, hcase⟩
  · exact h.with_mi rest
  · have hfields : (AssemblerEnv.advance st c).inBlock = st.inBlock ∧
        (AssemblerEnv.advance st c).vtx = st.vtx := by
      unfold AssemblerEnv.advance
      split_ifs <;> exact ⟨rfl, rfl⟩
    have hrest := h.choice_remaining hsel hexact hchoose
    rcases hcase with ⟨-, rfl⟩ | ⟨hadm, rfl⟩
    · exact (h.advance c).fail c
    · refine (h.advance c).addPackage (hsel.advance c) hcons hexact (hsel.choice_mem hchoose)
        (hfields.1 ▸ hin) (hfields.1 ▸ hrest) hadm ?_
      rw [hfields.2]
      exact hwhole c hchoose hadm

end

end Counted

/-- What is returned has the transactions of the last turn. -/
theorem turn_return (h : env.turn st = .ok (.inr st')) : st'.vtx = st.vtx := by
  unfold turn at h
  by_cases hskip : st.mi.head?.any (skipMapTxEntry st) = true
  · simp [hskip] at h
  · rw [if_neg hskip] at h
    cases hchoose : env.choose st with
    | none =>
      simp only [hchoose, Except.ok.injEq, Sum.inr.injEq] at h
      rw [h]
    | some c =>
      simp only [hchoose] at h
      split_ifs at h
      · obtain rfl := Sum.inr.inj (Except.ok.inj h)
        unfold advance
        split_ifs <;> rfl
      · simp at h
      · simp at h

/-- **The template.** From every consistent pool with exact ancestor totals, every transaction is
selected once, its parents in the pool are selected and come before it, and the shielded
transactions keep to their limit. When every package is added whole, and the largest block has
more than the reserved size, the size and the signature operations are below their limits. -/
theorem template_sound (hcons : env.Consistent) (hexact : env.TotalsExact) {n : Nat}
    {st : AssemblerState} (hdone : env.addPackageTxs n = .ok (.inr st)) : (st.vtx.Nodup ∧
      (∀ before x after, st.vtx = before ++ x :: after → ∃ e, env.mapTx[x]? = some e ∧
        ∀ q ∈ e.tx.inputHashes, q ∈ env.mapTx → q ∈ before) ∧
      env.shieldedTotal st.vtx ≤ maxBlockShieldedTxesSize) ∧
    ((∀ st', Loop.Reach env.turn env.start st' → env.AddsWhole st') → 1000 < env.nBlockMaxSize →
      1000 + env.total .size st.vtx < env.nBlockMaxSize ∧
        100 + env.total .sigOps st.vtx < maxBlockSigOpsCurrent) := by
  obtain ⟨last, hreach, hreturn⟩ := Loop.exists_reach_of_return hdone
  have hcount := hexact.countsExact hcons
  have hsel := selected_of_reach hcons hcount hreach
  rw [turn_return hreturn]
  refine ⟨⟨hsel.nodup, ?_, hsel.nSizeShielded ▸ hsel.shielded_le⟩, ?_⟩
  · intro before x after heq
    have hx : x ∈ env.mapTx := hsel.mem x (by simp [heq])
    obtain ⟨e, he⟩ := FMap.mem_iff_get.mp hx
    refine ⟨e, he, fun q hq hqm => ?_⟩
    have hparent := (hcons.mem_parents he q).mpr ⟨hqm, hq⟩
    simpa using hsel.ordered before x after heq (hcons.parents_subset hx hparent)
  · intro hwhole hmax
    have hcounted : env.Counted last := by
      refine hreach.invariant (counted_start env) ?_
      intro s s' hs hcs hturn
      exact hcs.turn (selected_of_reach hcons hcount hs) hcons hexact (hwhole s hs) hturn
    refine ⟨?_, hcounted.nBlockSigOps ▸ hcounted.sigOps_lt⟩
    rcases hcounted.size_lt with hnil | hlt
    · rw [hnil, total_nil]
      omega
    · exact hcounted.nBlockSize ▸ hlt

end AssemblerEnv

open AssemblerEnv

namespace Sample

/-- A shielded transaction `1` and a transparent one `2`, a child `3` of both and a child `4` of the
second, with room for a hundred thousand bytes besides the reserved ones. -/
def fourTransactions (fSaplingMaintenance : Bool) : AssemblerEnv where
  mapTx := ((((∅ : FMap Uint256 MemPoolEntry).insert
    1 (poolEntry 1 [100] true 1 10000 1 10000 1)).insert
    2 (poolEntry 2 [101] false 1 50000 1 50000 1)).insert
    3 (poolEntry 3 [1, 2] false 1000000 10000 3 70000 1000002)).insert
    4 (poolEntry 4 [2] false 500000 60000 2 110000 500001)
  parents x := if x = 3 then {1, 2} else if x = 4 then {2} else ∅
  ancestors x := if x = 3 then {1, 2} else if x = 4 then {2} else ∅
  descendants x := if x = 1 then {1, 3} else if x = 2 then {2, 3, 4} else {x}
  feeDelta _ := 0
  blockMaxSizeArg := 101000
  minRelayTxFee := 0
  fSaplingMaintenance := fSaplingMaintenance
  isFinalTx _ := true

theorem entries_fourTransactions (b : Bool) : (fourTransactions b).entries = [1, 2, 3, 4] := by
  cases b <;> decide +kernel

theorem flatPool_fourTransactions (b : Bool) : FlatPool (fourTransactions b) := by
  constructor
  case flat =>
    rw [entries_fourTransactions]
    simp [fourTransactions]
  case parents_outside =>
    intro x hx
    have hne : ∀ y ∈ (fourTransactions b).entries, x ≠ y := fun y hy heq => hx (heq ▸ hy)
    have h3 : x ≠ 3 := hne 3 (mem_entries.mpr (by simp [fourTransactions]))
    have h4 : x ≠ 4 := hne 4 (mem_entries.mpr (by simp [fourTransactions]))
    simp [fourTransactions, h3, h4]
  all_goals
    rw [← forall_iff_forall_mem, entries_fourTransactions]
    cases b <;> decide +kernel

theorem totalsExact_fourTransactions (b : Bool) : (fourTransactions b).TotalsExact := by
  have hall : ∀ x ∈ (fourTransactions b).entries, (∀ stat ∈ [Stat.count, .size, .sigOps],
      (fourTransactions b).withAncestors x stat =
        ∑ q ∈ insert x ((fourTransactions b).ancestors x), (fourTransactions b).own q stat) ∧
      (fourTransactions b).withAncestors x .size < 2 ^ 63 ∧
      (fourTransactions b).withAncestors x .sigOps < 2 ^ 31 :=
    forall_iff_forall_mem.mp (by rw [entries_fourTransactions]; cases b <;> decide +kernel)
  simp only [mem_entries] at hall
  refine ⟨fun x hx stat hstat => (hall x hx).1 stat ?_, fun x hx => (hall x hx).2.1,
    fun x hx => (hall x hx).2.2⟩
  cases stat <;> simp_all

/-- Without maintenance the packages are added whole. -/
theorem template_fits : ∃ st, (fourTransactions false).addPackageTxs 8 = .ok (.inr st) ∧
    1000 + (fourTransactions false).total .size st.vtx < (fourTransactions false).nBlockMaxSize := by
  have hret : ∃ st, (fourTransactions false).addPackageTxs 8 = .ok (.inr st) := ⟨_, rfl⟩
  obtain ⟨st, hst⟩ := hret
  have hwhole : ∀ st ∈ Loop.heads (fourTransactions false).turn 8 (fourTransactions false).start,
      (fourTransactions false).AddsWhole st := by
    decide +kernel
  have hsound := template_sound (flatPool_fourTransactions false).consistent
    (totalsExact_fourTransactions false) hst
  exact ⟨st, hst, (hsound.2 (fun st' hreach => hwhole st' (hreach.mem_heads hst))
    (by decide)).1⟩

/-- **The template is too large.** In maintenance the package of `3` is cut at `1`, and yet `2` is
taken off the totals of `4`. So the package of `2` and `4` is tested as the size of `4` alone. -/
theorem template_too_large :
    (fourTransactions true).Consistent ∧ (fourTransactions true).TotalsExact ∧
    ∃ st, (fourTransactions true).addPackageTxs 7 = .ok (.inr st) ∧
      (fourTransactions true).nBlockMaxSize ≤
        1000 + (fourTransactions true).total .size st.vtx := by
  refine ⟨(flatPool_fourTransactions true).consistent, totalsExact_fourTransactions true, ?_⟩
  refine ⟨_, rfl, ?_⟩
  decide +kernel

end Sample

end KmushiCoin
