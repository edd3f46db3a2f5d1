import KmushiCoin.Mining.AssemblerSpec

/-!
# KmushiCoin.Mining.Selection

**Which transactions are selected**, and whether the selection ends.

* `Selected` holds at the head of every turn, for every pool with exact ancestor counts: nothing is
  selected twice, ancestors come first, the shielded transactions keep to their limit. It also says
  that no modified entry is in the block, so that the assertion of the loop never fails.
* A turn that takes its package from the modified entries and adds nothing of it leaves the entry
  where it is. When there is no such turn (`Progresses`) the loop ends: more is in the block, or
  less of the pool is left, or there are fewer modified entries. When there is one, the loop can
  take the same package for ever (`Sample.selection_never_ends`).
-/

namespace KmushiCoin

open Finset

variable {x q : Uint256}

namespace AssemblerEnv

variable {env : AssemblerEnv}

/-- **The ancestor counts are exact.** -/
def CountsExact (env : AssemblerEnv) : Prop :=
  ∀ x ∈ env.mapTx, env.withAncestors x .count = (env.ancestors x).card + 1

/-- An ancestor has fewer ancestors. -/
theorem Consistent.count_lt (hc : env.Consistent) (hcount : env.CountsExact) (hx : x ∈ env.mapTx)
    (hq : q ∈ env.ancestors x) : env.withAncestors q .count < env.withAncestors x .count := by
  have hqmem := hc.ancestor_mem hx hq
  have hss : env.ancestors q ⊂ env.ancestors x := by
    rw [ssubset_iff_of_subset fun d hd => hc.ancestors_trans hx hq hd]
    exact ⟨q, hq, hc.not_mem_ancestors hqmem⟩
  have hcard := card_lt_card hss
  rw [hcount q hqmem, hcount x hx]
  omega

/-! ### Ancestors first -/

/-- The ancestors of every transaction of a list are among some transactions or before it. -/
def Ordered (env : AssemblerEnv) (done : Finset Uint256) (l : List Uint256) : Prop :=
  ∀ before x after, l = before ++ x :: after → env.ancestors x ⊆ done ∪ before.toFinset

theorem Ordered.left {done} {l l'} (h : env.Ordered done (l ++ l')) : env.Ordered done l := by
  intro before x after heq
  exact h before x (after ++ l') (by simp [heq])

theorem Ordered.append {done} {l l'} (h : env.Ordered done l)
    (h' : env.Ordered (done ∪ l.toFinset) l') : env.Ordered done (l ++ l') := by
  intro before x after heq
  rcases List.append_eq_append_iff.mp heq with ⟨mid, rfl, hl'⟩ | ⟨mid, rfl, hmid⟩
  · have hsub := h' mid x after hl'
    intro q hq
    have hmem := hsub hq
    simp only [mem_union, List.mem_toFinset, List.mem_append] at hmem ⊢
    tauto
  · cases mid with
    | nil =>
      have hsub := h' [] x after (by simpa using hmid.symm)
      simpa using hsub
    | cons y mid =>
      obtain ⟨rfl, -⟩ := List.cons.inj hmid
      exact h before x mid rfl

variable {iter : Uint256} {st st' : AssemblerState}

/-- A sorted package has ancestors first, besides those in the block. -/
theorem ordered_sortForBlock (hc : env.Consistent) (hcount : env.CountsExact)
    (hiter : iter ∈ env.mapTx) :
    env.Ordered st.inBlock (env.sortForBlock (env.package st iter)) := by
  intro before x after hsorted q hq
  have hxs : x ∈ env.sortForBlock (env.package st iter) := by simp [hsorted]
  obtain ⟨hxmem, hxp⟩ := mem_sortForBlock.mp hxs
  have hqmem := hc.ancestor_mem hxmem hq
  by_cases hin : q ∈ st.inBlock
  · exact mem_union_left _ hin
  · refine mem_union_right _ (List.mem_toFinset.mpr ?_)
    refine mem_before_of_count_lt hsorted ?_ (hc.count_lt hcount hxmem hq)
    -- an ancestor of a member of the package is an ancestor of the entry
    have hanc : q ∈ env.ancestors iter := by
      rcases mem_insert.mp hxp with rfl | hx
      · exact hq
      · exact hc.ancestors_trans hiter (mem_sdiff.mp hx).1 hq
    exact mem_sortForBlock.mpr ⟨hqmem, mem_insert_of_mem (mem_sdiff.mpr ⟨hanc, hin⟩)⟩

/-! ### The invariant -/

/-- **What holds at the head of every turn.** -/
structure Selected (env : AssemblerEnv) (st : AssemblerState) : Prop where
  nodup : st.vtx.Nodup
  inBlock : st.inBlock = st.vtx.toFinset
  mem : ∀ x ∈ st.vtx, x ∈ env.mapTx
  ordered : env.Ordered ∅ st.vtx
  modified : ∀ x ∈ st.mapModifiedTx, x ∈ env.mapTx ∧ x ∉ st.inBlock
  mi_mem : ∀ x ∈ st.mi, x ∈ env.mapTx
  nSizeShielded : st.nSizeShielded = env.shieldedTotal st.vtx
  shielded_le : st.nSizeShielded ≤ maxBlockShieldedTxesSize

theorem selected_start (env : AssemblerEnv) : env.Selected env.start where
  nodup := List.nodup_nil
  inBlock := rfl
  mem := by simp [start]
  ordered := fun _ _ _ h => by simp [start] at h
  modified := by simp [start]
  mi_mem := fun _ => mem_byAncestorScore.mp
  nSizeShielded := rfl
  shielded_le := by simp [start, maxBlockShieldedTxesSize]

namespace Selected

variable {st : AssemblerState} {c : PackageChoice}

/-- The members of a package are not in the block. -/
theorem not_inBlock_of_mem_package (hiter : iter ∉ st.inBlock) (hx : x ∈ env.package st iter)
    : x ∉ st.inBlock := by
  rcases mem_insert.mp hx with rfl | hx
  · exact hiter
  · exact (mem_sdiff.mp hx).2

variable (h : env.Selected st)
include h

/-- The chosen entry is in the pool. -/
theorem choice_mem (hc : env.choose st = some c) : c.iter ∈ env.mapTx := by
  rcases choose_some hc with ⟨-, hmod⟩ | ⟨-, -, rest, hmi⟩
  · exact (h.modified c.iter (FMap.mem_iff_get.mpr ⟨_, hmod⟩)).1
  · exact h.mi_mem c.iter (by simp [hmi])

/-- **The assertion of the loop holds**, unless the entry at `mi` is skipped. -/
theorem choice_not_inBlock (hc : env.choose st = some c)
    (hskip : st.mi.head?.any (skipMapTxEntry st) = false) : c.iter ∉ st.inBlock := by
  rcases choose_some hc with ⟨-, hmod⟩ | ⟨-, -, rest, hmi⟩
  · exact (h.modified c.iter (FMap.mem_iff_get.mpr ⟨_, hmod⟩)).2
  · simp only [hmi, List.head?_cons, Option.any_some, skipMapTxEntry, Bool.or_eq_false_iff,
      decide_eq_false_iff_not] at hskip
    exact hskip.1.2

theorem with_mi {mi} (hmi : ∀ x ∈ mi, x ∈ st.mi) : env.Selected { st with mi := mi } :=
  { h with mi_mem := fun x hx => h.mi_mem x (hmi x hx) }

theorem advance (c : PackageChoice) : env.Selected (AssemblerEnv.advance st c) := by
  unfold AssemblerEnv.advance
  split_ifs
  · exact h
  · exact h.with_mi fun x hx => List.mem_of_mem_tail hx

theorem fail (c : PackageChoice) : env.Selected (AssemblerEnv.fail st c) := by
  unfold AssemblerEnv.fail
  split_ifs
  · exact { h with modified := fun x hx => h.modified x (Std.ExtTreeMap.mem_of_mem_erase hx) }
  · exact h

/-- In the block there is nothing that descends from a transaction outside. -/
theorem ancestors_inBlock (hx : x ∈ st.inBlock) (hq : q ∈ env.ancestors x) : q ∈ st.inBlock := by
  rw [h.inBlock, List.mem_toFinset] at hx ⊢
  obtain ⟨before, after, heq⟩ := List.append_of_mem hx
  have hmem := h.ordered before x after heq hq
  simp only [empty_union, List.mem_toFinset] at hmem
  simp [heq, hmem]

theorem addPackage (hcons : env.Consistent) (hcount : env.CountsExact) (hmem : c.iter ∈ env.mapTx)
    (hiter : c.iter ∉ st.inBlock) : env.Selected (env.addPackage st c) := by
  obtain ⟨added, rest, st₁, hsorted, hadded, heq⟩ := addPackage_spec env st c
  have hsub : ∀ x ∈ added, x ∈ env.mapTx ∧ x ∈ env.package st c.iter := by
    intro x hx
    exact mem_sortForBlock.mp (by simp [hsorted, hx])
  have hnot : ∀ x ∈ added, x ∉ st.inBlock := fun x hx =>
    not_inBlock_of_mem_package hiter (hsub x hx).2
  have hordered : env.Ordered st.inBlock (env.sortForBlock (env.package st c.iter)) :=
    ordered_sortForBlock hcons hcount hmem
  have hnodup := nodup_sortForBlock env (env.package st c.iter)
  rw [hsorted] at hordered hnodup
  rw [heq]
  exact
    { nodup := by
        rw [hadded.vtx]
        refine h.nodup.append hnodup.of_append_left ?_
        intro x hx hx'
        exact hnot x hx' (by rwa [h.inBlock, List.mem_toFinset])
      inBlock := by
        rw [hadded.inBlock, hadded.vtx, h.inBlock, List.toFinset_append]
      mem := by
        intro x hx
        rw [hadded.vtx, List.mem_append] at hx
        rcases hx with hx | hx
        · exact h.mem x hx
        · exact (hsub x hx).1
      ordered := by
        rw [hadded.vtx]
        refine h.ordered.append ?_
        rw [empty_union, ← h.inBlock]
        exact hordered.left
      modified := by
        intro x hx
        rcases mem_updatePackagesForAdded hx with hx | ⟨it, hitp, hitm, hxm, hxd, hxp⟩
        · rw [Std.ExtTreeMap.mem_iff_isSome_getElem?, hadded.mapModifiedTx] at hx
          split_ifs at hx with hxa
          · simp at hx
          · obtain ⟨hxm, hxb⟩ := h.modified x (Std.ExtTreeMap.mem_iff_isSome_getElem?.mpr hx)
            exact ⟨hxm, by simp [hadded.inBlock, hxb, hxa]⟩
        · refine ⟨hxm, ?_⟩
          rw [hadded.inBlock, mem_union, List.mem_toFinset]
          intro hxb
          rcases hxb with hxb | hxa
          · -- in the block there would be a descendant of a member of the package
            rcases ((hcons.mem_descendants_iff hitm).mp hxd).2 with rfl | hanc
            · exact hxp hitp
            · exact not_inBlock_of_mem_package hiter hitp (h.ancestors_inBlock hxb hanc)
          · exact hxp (hsub x hxa).2
      mi_mem := by
        rw [hadded.mi]
        exact h.mi_mem
      nSizeShielded := by
        rw [hadded.nSizeShielded, hadded.vtx, h.nSizeShielded]
        simp [shieldedTotal, total_append]
      shielded_le := hadded.shielded_le h.shielded_le }

/-- **Kept by every turn.** -/
theorem turn (hcons : env.Consistent) (hcount : env.CountsExact)
    (hturn : env.turn st = .ok (.inl st')) : env.Selected st' := by
  rcases turn_cases hturn with ⟨x, rest, hmi, -, rfl⟩ | ⟨c, hchoose, hin, hcase⟩
  · exact h.with_mi fun y hy => by simp [hmi, hy]
  · have hadv := h.advance c
    rcases hcase with ⟨-, rfl⟩ | ⟨-, rfl⟩
    · exact hadv.fail c
    · exact hadv.addPackage hcons hcount (h.choice_mem hchoose) (by rwa [inBlock_advance])

/-- No turn fails. -/
theorem turn_ne_error (e : Failure) : env.turn st ≠ .error e := by
  unfold AssemblerEnv.turn
  by_cases hskip : st.mi.head?.any (skipMapTxEntry st) = true
  · simp [hskip]
  · rw [if_neg hskip]
    cases hchoose : env.choose st with
    | none => simp
    | some c =>
      have hin := h.choice_not_inBlock hchoose (by simpa using hskip)
      simp only [inBlock_advance, hin, if_false]
      split_ifs <;> simp

end Selected

theorem selected_of_reach (hcons : env.Consistent) (hcount : env.CountsExact)
    (h : Loop.Reach env.turn env.start st) : env.Selected st :=
  h.invariant (selected_start env) fun _ _ _ hs hturn => hs.turn hcons hcount hturn

/-! ### The end of the loop -/

/-- **Something is added** of every package that comes from the modified entries and that fits. -/
def Progresses (env : AssemblerEnv) (st : AssemblerState) : Prop :=
  ∀ c ∈ env.choose st, c.fUsingModified = true → env.admissible st c = true →
    (env.addPackage st c).vtx ≠ st.vtx

instance : DecidablePred env.Progresses := fun st =>
  inferInstanceAs (Decidable (∀ c ∈ env.choose st, c.fUsingModified = true →
    env.admissible st c = true → (env.addPackage st c).vtx ≠ st.vtx))

/-- What a turn descends in: what is not in the block, then what is left of the pool, then the
modified entries. -/
def rank (env : AssemblerEnv) (st : AssemblerState) : ℕ × ℕ × ℕ :=
  ((env.entries.toFinset \ st.inBlock).card, st.mi.length, st.mapModifiedTx.size)

def Descends (env : AssemblerEnv) : AssemblerState → AssemblerState → Prop :=
  InvImage (Prod.Lex (· < ·) (Prod.Lex (· < ·) (· < ·))) env.rank

theorem wellFounded_descends (env : AssemblerEnv) : WellFounded env.Descends :=
  InvImage.wf _ (wellFounded_lt.prod_lex (wellFounded_lt.prod_lex wellFounded_lt))

theorem descends_of_mi (hin : st'.inBlock = st.inBlock) (hmi : st'.mi.length < st.mi.length)
    : env.Descends st' st := by
  unfold Descends InvImage rank
  rw [hin]
  exact .right _ (.left _ _ hmi)

/-- A package of which something is added takes that from what is left. -/
theorem descends_of_added {added rest} (hiter : iter ∉ st.inBlock)
    (hsorted : env.sortForBlock (env.package st iter) = added ++ rest)
    (hin : st'.inBlock = st.inBlock ∪ added.toFinset) (hne : added ≠ []) : env.Descends st' st := by
  obtain ⟨x, hx⟩ := List.exists_mem_of_ne_nil added hne
  have hxs : x ∈ env.sortForBlock (env.package st iter) := by simp [hsorted, hx]
  obtain ⟨hxm, hxp⟩ := mem_sortForBlock.mp hxs
  have hlt : (env.entries.toFinset \ st'.inBlock).card <
      (env.entries.toFinset \ st.inBlock).card := by
    refine card_lt_card ?_
    rw [hin, ssubset_iff_of_subset
      (sdiff_subset_sdiff subset_rfl subset_union_left)]
    refine ⟨x, ?_, ?_⟩
    · simp [mem_entries, hxm, Selected.not_inBlock_of_mem_package hiter hxp]
    · simp [hx]
  exact .left _ _ hlt

/-- **A turn that progresses descends.** -/
theorem turn_descends (hprogress : env.Progresses st) (hturn : env.turn st = .ok (.inl st'))
    : env.Descends st' st := by
  rcases turn_cases hturn with ⟨x, rest, hmi, -, rfl⟩ | ⟨c, hchoose, hin, hcase⟩
  · exact descends_of_mi rfl (by simp [hmi])
  · rcases choose_some hchoose with ⟨hmod, hget⟩ | ⟨hmod, -, rest, hmi⟩
    · -- a modified entry is erased, or something of its package is added
      have hadv : advance st c = st := by simp [advance, hmod]
      rw [hadv] at hcase
      rcases hcase with ⟨-, rfl⟩ | ⟨hadm, rfl⟩
      · rw [fail, if_pos hmod]
        exact .right _ (.right _ (FMap.size_erase_lt hget))
      · obtain ⟨added, more, st₁, hsorted, hadded, heq⟩ := addPackage_spec env st c
        have hne : added ≠ [] := by
          intro hnil
          subst hnil
          refine hprogress c hchoose hmod hadm ?_
          rw [heq]
          simpa using hadded.vtx
        rw [heq]
        exact descends_of_added hin hsorted hadded.inBlock hne
    · -- the entry at `mi` is used up
      have hadv : advance st c = { st with mi := rest } := by simp [advance, hmod, hmi]
      rw [hadv] at hcase
      rcases hcase with ⟨-, rfl⟩ | ⟨-, rfl⟩
      · exact descends_of_mi (by simp [fail, hmod]) (by simp [fail, hmod, hmi])
      · obtain ⟨added, more, st₁, hsorted, hadded, heq⟩ :=
          addPackage_spec env { st with mi := rest } c
        rw [heq]
        by_cases hne : added = []
        · subst hne
          refine descends_of_mi ?_ ?_
          · simpa using hadded.inBlock
          · simp [hadded.mi, hmi]
        · exact descends_of_added hin hsorted hadded.inBlock hne

/-- **The selection ends** when no turn leaves a package of a modified entry as it is: for every
pool and every setting the loop is left, and for a consistent pool with exact ancestor counts it
is left without a failed assertion. -/
theorem addPackageTxs_ends (env : AssemblerEnv)
    (hprogress : ∀ st, Loop.Reach env.turn env.start st → env.Progresses st) :
    (∃ n, ∀ st, env.addPackageTxs n ≠ .ok (.inl st)) ∧
    (env.Consistent → env.CountsExact → ∃ n st, env.addPackageTxs n = .ok (.inr st)) := by
  suffices hends : ∃ n, (∀ st, env.addPackageTxs n ≠ .ok (.inl st)) ∧
      (env.Consistent → env.CountsExact → ∃ st, env.addPackageTxs n = .ok (.inr st)) by
    obtain ⟨n, hends, hreturns⟩ := hends
    exact ⟨⟨n, hends⟩, fun hcons hcount => ⟨n, hreturns hcons hcount⟩⟩
  refine Loop.ends (Q := fun x => (∀ st, x ≠ .ok (.inl st)) ∧ (_ → _ → ∃ st, x = .ok (.inr st)))
    (wellFounded_descends env) (fun st (hreach : Loop.Reach env.turn env.start st) => ?_) .init
  rcases hturn : env.turn st with e | st' | st'
  · exact .inl ⟨by simp, fun hcons hcount =>
      absurd hturn ((selected_of_reach hcons hcount hreach).turn_ne_error e)⟩
  · exact .inr ⟨st', rfl, hreach.next hturn, turn_descends (hprogress st hreach) hturn⟩
  · exact .inl ⟨by simp, fun _ _ => ⟨st', rfl⟩⟩

end AssemblerEnv

open AssemblerEnv

namespace Sample

/-- A pool in which no parent has a parent, described by what can be computed. -/
structure FlatPool (env : AssemblerEnv) : Prop where
  parents_eq : ∀ x ∈ env.entries, env.parents x =
    ((env.mapTx[x]?.map (·.tx.inputHashes)).getD []).toFinset.filter (· ∈ env.mapTx)
  flat : ∀ x ∈ env.entries, ∀ q ∈ env.parents x, env.parents q = ∅
  parents_outside : ∀ x, x ∉ env.entries → env.parents x = ∅
  ancestors_eq : ∀ x ∈ env.entries, env.ancestors x = env.parents x
  descendants_eq : ∀ x ∈ env.entries, env.descendants x =
    env.entries.toFinset.filter fun d => d = x ∨ x ∈ env.parents d
  nonneg : ∀ x ∈ env.entries, 0 ≤ env.own x .size ∧ 0 ≤ env.own x .sigOps

namespace FlatPool

variable {env : AssemblerEnv}

theorem parents_parents (h : FlatPool env) (hq : q ∈ env.parents x) : env.parents q = ∅ := by
  by_cases hx : x ∈ env.entries
  · exact h.flat x hx q hq
  · simp [h.parents_outside x hx] at hq

theorem parents_of_below (h : FlatPool env) (hq : Worklist.Below env.parents x q)
    : env.parents q = ∅ := by
  cases hq with
  | single hq => exact h.parents_parents hq
  | tail _ hq => exact h.parents_parents hq

/-- Ancestors are parents. -/
theorem below_iff (h : FlatPool env) : Worklist.Below env.parents x q ↔ q ∈ env.parents x := by
  constructor
  · intro hbelow
    cases hbelow with
    | single hq => exact hq
    | tail hbelow hq =>
      rw [h.parents_of_below hbelow] at hq
      simp at hq
  · exact fun hq => .single hq

theorem own_nonneg (h : FlatPool env) (x : Uint256) :
    0 ≤ env.own x .size ∧ 0 ≤ env.own x .sigOps := by
  by_cases hx : x ∈ env.entries
  · exact h.nonneg x hx
  · have hnone : env.mapTx[x]? = none := by
      rw [mem_entries, Std.ExtTreeMap.mem_iff_isSome_getElem?] at hx
      simpa using hx
    simp [own, hnone]

theorem consistent (h : FlatPool env) : env.Consistent where
  mem_parents := by
    intro x e he q
    have hx : x ∈ env.entries := by
      simp [mem_entries, Std.ExtTreeMap.mem_iff_isSome_getElem?, he]
    rw [h.parents_eq x hx, he]
    simp [and_comm]
  acyclic := by
    intro x hbelow
    have hx := h.below_iff.mp hbelow
    rw [h.parents_parents hx] at hx
    simp at hx
  mem_ancestors := by
    intro x hx q
    rw [h.ancestors_eq x (mem_entries.mpr hx), h.below_iff]
  mem_descendants := by
    intro x hx d
    rw [h.descendants_eq x (mem_entries.mpr hx), Worklist.Reach,
      Relation.reflTransGen_iff_eq_or_transGen, ← Worklist.Below, h.below_iff, mem_filter,
      List.mem_toFinset, mem_entries, @eq_comm _ d x]
  size_nonneg := fun x => (h.own_nonneg x).1
  sigOps_nonneg := fun x => (h.own_nonneg x).2

end FlatPool

/-- An entry of the pool that spends first outputs, with its totals. -/
def poolEntry (hash : Uint256) (inputs : List Uint256) (shielded : Bool) (nFee nTxSize : Int)
    (count size fees : Int) : MemPoolEntry where
  tx :=
    { hash := hash
      nVersion := if shielded then 3 else 1
      nType := .normal
      vin := inputs.map fun h => ⟨⟨h, 0⟩, []⟩
      vout := [⟨1, []⟩]
      sapData := if shielded then some ⟨0, [], [⟨5⟩], true⟩ else none
      extraPayload := none }
  nFee := nFee
  nTxSize := nTxSize
  nTime := 0
  spendsCoinbaseOrCoinstake := false
  sigOpCount := 1
  withDescendants := 0
  withAncestors
    | .count => count
    | .size => size
    | .fees => fees
    | .sigOps => count

/-- A shielded transaction that spends a transparent one with a higher fee rate. -/
def parentAndChild (fSaplingMaintenance : Bool) : AssemblerEnv where
  mapTx := ((∅ : FMap Uint256 MemPoolEntry).insert 1
    (poolEntry 1 [100] false 1000 200 1 200 1000)).insert 2 (poolEntry 2 [1] true 100 300 2 500 1100)
  parents x := if x = 2 then {1} else ∅
  ancestors x := if x = 2 then {1} else ∅
  descendants x := if x = 1 then {1, 2} else {x}
  feeDelta _ := 0
  blockMaxSizeArg := 750000
  minRelayTxFee := 0
  fSaplingMaintenance := fSaplingMaintenance
  isFinalTx _ := true

theorem entries_parentAndChild (b : Bool) : (parentAndChild b).entries = [1, 2] := by
  cases b <;> decide +kernel

theorem flatPool_parentAndChild (b : Bool) : FlatPool (parentAndChild b) := by
  constructor
  case flat =>
    rw [entries_parentAndChild]
    simp [parentAndChild]
  case parents_outside =>
    intro x hx
    have hne : x ≠ 2 := by
      rintro rfl
      exact hx (mem_entries.mpr (by simp [parentAndChild]))
    simp [parentAndChild, hne]
  all_goals
    rw [← List.forall_iff_forall_mem, entries_parentAndChild]
    cases b <;> decide +kernel

theorem countsExact_parentAndChild (b : Bool) : (parentAndChild b).CountsExact := by
  intro x hx
  have hall : ∀ x ∈ (parentAndChild b).entries, (parentAndChild b).withAncestors x .count =
      ((parentAndChild b).ancestors x).card + 1 :=
    List.forall_iff_forall_mem.mp (by rw [entries_parentAndChild]; cases b <;> decide +kernel)
  exact hall x (mem_entries.mpr hx)

/-- Without maintenance both are selected, the child from the modified entries. -/
theorem selection_ends : (∃ n, ∀ st, (parentAndChild false).addPackageTxs n ≠ .ok (.inl st)) ∧
    ∃ n st, (parentAndChild false).addPackageTxs n = .ok (.inr st) := by
  have hret : ∃ st, (parentAndChild false).addPackageTxs 4 = .ok (.inr st) :=
    ⟨_, rfl⟩
  have hprogress : ∀ st ∈ Loop.heads (parentAndChild false).turn 4 (parentAndChild false).start,
      (parentAndChild false).Progresses st := by
    decide +kernel
  obtain ⟨st, hst⟩ := hret
  obtain ⟨hends, hreturns⟩ := addPackageTxs_ends (parentAndChild false)
    fun st' hreach => hprogress st' (hreach.mem_heads hst)
  exact ⟨hends, hreturns (flatPool_parentAndChild false).consistent
    (countsExact_parentAndChild false)⟩

/-- The child is the only modified entry, and nothing is left of the pool. -/
def stuck : AssemblerState where
  vtx := [1]
  inBlock := {1}
  nBlockSize := 1200
  nBlockSigOps := 101
  mapModifiedTx := (∅ : FMap Uint256 ModifiedEntry).insert 2 ⟨300, 100, 1⟩
  mi := []

/-- **The selection never ends.** In maintenance the child is left out of its own package, which
stays the best of the modified entries. -/
theorem selection_never_ends :
    (parentAndChild true).Consistent ∧ (parentAndChild true).CountsExact ∧
    ∀ n, ∃ st, (parentAndChild true).addPackageTxs n = .ok (.inl st) := by
  refine ⟨(flatPool_parentAndChild true).consistent, countsExact_parentAndChild true, ?_⟩
  have hreach : Loop.iterate (parentAndChild true).turn 2 (parentAndChild true).start =
      .ok (.inl stuck) := by decide +kernel
  have hfixed : (parentAndChild true).turn stuck = .ok (.inl stuck) := by decide +kernel
  exact Loop.not_returns_of_fixed (Loop.reach_of_iterate hreach) hfixed

end Sample

end KmushiCoin
