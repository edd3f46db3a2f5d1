import KmushiCoin.Evo.Manager

/-!
# KmushiCoin.Evo.ManagerFrame

**`GetListForBlock` is a read.** It fills the two caches, and that changes no answer, whatever
is stored.

* `answer` is the list as a function of the state: the cached list or the snapshot of the
  block, or the difference of the block applied to the answer for its parent.
* `Filled m₀ m` says that `m` is `m₀` with entries added to its caches that agree with the
  answers of `m₀`. Then `m` has the answers of `m₀` (`Filled.answer`).
* `getListForBlock_reads`: the call returns the answer and only fills.

Nothing is assumed of the lists and differences in the stores but that a list stored under a
block hash carries this hash (`Keyed`).
-/

namespace KmushiCoin

open Codec DeterministicMNList

/-! ### The block hash of a rebuilt list -/

variable {diff : DeterministicMNListDiff}

namespace DeterministicMNList

variable {serializeHash : UniqueProperty → Nat} {l l' : DeterministicMNList}

theorem addMN_blockHash {dmn} {fBump}
    (hr : l.addMN serializeHash dmn fBump = .ok l') : l'.blockHash = l.blockHash := by
  unfold addMN at hr
  iterate 9 obtain ⟨_, -, hr⟩ := bind_ok.mp hr
  cases hr
  rfl

theorem updateMN_blockHash {oldDmn} {s}
    (hr : l.updateMN serializeHash oldDmn s = .ok l') : l'.blockHash = l.blockHash := by
  unfold updateMN at hr
  iterate 5 obtain ⟨_, -, hr⟩ := bind_ok.mp hr
  cases hr
  rfl

theorem removeMN_blockHash {proTxHash}
    (hr : l.removeMN serializeHash proTxHash = .ok l') : l'.blockHash = l.blockHash := by
  unfold removeMN at hr
  split at hr
  · cases hr
  rename_i dmn hget
  iterate 5 obtain ⟨_, -, hr⟩ := bind_ok.mp hr
  cases hr
  rfl

/-- A difference gives the list the hash of its block. -/
theorem applyDiff_blockHash {blockHash} {nHeight}
    (hr : l.applyDiff serializeHash blockHash nHeight diff = .ok l')
    : l'.blockHash = blockHash := by
  unfold applyDiff at hr
  obtain ⟨l₁, hremove, hr⟩ := bind_ok.mp hr
  obtain ⟨l₂, hadd, hupdate⟩ := bind_ok.mp hr
  have h₁ : l₁.blockHash = blockHash := by
    refine foldlM_inv (P := fun _ l => l.blockHash = blockHash) ?_ rfl hremove
    intro pre id post l l' _ hpre hstep
    unfold removeById at hstep
    split at hstep
    · cases hstep
    rename_i dmn hget
    exact (removeMN_blockHash hstep).trans hpre
  have h₂ : l₂.blockHash = blockHash := by
    refine foldlM_inv (P := fun _ l => l.blockHash = blockHash) ?_ h₁ hadd
    exact fun pre dmn post l l' _ hpre hstep => (addMN_blockHash hstep).trans hpre
  refine foldlM_inv (P := fun _ l => l.blockHash = blockHash) ?_ h₂ hupdate
  intro pre p post l l' _ hpre hstep
  unfold updateById at hstep
  split at hstep
  · cases hstep
  rename_i oldDmn hget
  exact (updateMN_blockHash hstep).trans hpre

end DeterministicMNList

/-- A set of blocks with their ancestors, in which a hash belongs to one block. -/
structure Blocks where
  mem : BlockIndex → Prop
  parent : ∀ {p : BlockIndex} {h : Uint256} {vtx : List Transaction}, mem (.child p h vtx) → mem p
  hash_injective : ∀ {a b : BlockIndex}, mem a → mem b → a.blockHash = b.blockHash → a = b

namespace Manager

/-! ### The answer as a function of the state -/

section
variable (env : ChainEnv) (m : Manager)

/-- The list that is cached or stored for a block. -/
def listFor (b : BlockIndex) : Outcome (Option DeterministicMNList) :=
  match m.mnListsCache[b.blockHash]? with
  | some l => .ok (some l)
  | none => m.evoDb.readSnapshot env.serializeHash b.blockHash

/-- The difference that is cached or stored for a block. -/
def diffFor (b : BlockIndex) : Option DeterministicMNListDiff :=
  (m.mnListDiffsCache[b.blockHash]?).or
    ((m.evoDb.readDiff b.blockHash).map fun diff => { diff with nHeight := b.nHeight })

/-- The list of a block from the list before it. -/
def extendBy (snapshot : DeterministicMNList) (b : BlockIndex) : Outcome DeterministicMNList :=
  match diffFor m b with
  | none => .error (.throw "unordered_map::at")
  | some diff =>
    if diff.hasChanges then snapshot.applyDiff env.serializeHash b.blockHash b.nHeight diff
    else .ok ((snapshot.setBlockHash b.blockHash).setHeight b.nHeight)

/-- The list for a block without a list and a difference. -/
def initialFor (b : BlockIndex) : Outcome DeterministicMNList :=
  if env.isActivationHeight (b.nHeight + 1) then .ok ⟨b.blockHash, -1, 0, ∅, ∅, ∅⟩
  else .error (.throw
    "No masternode list data found for block %s at height %d. Possible corrupt database.")

/-- The answer for a block with a list. -/
def answerFor : BlockIndex → Outcome DeterministicMNList
  | .genesis h =>
    match listFor env m (.genesis h) with
    | .error f => .error f
    | .ok (some l) => .ok l
    | .ok none =>
      if (diffFor m (.genesis h)).isSome then .error (.abort "null pointer: pindex->GetBlockHash()")
      else initialFor env (.genesis h)
  | .child pprev h vtx =>
    match listFor env m (.child pprev h vtx) with
    | .error f => .error f
    | .ok (some l) => .ok l
    | .ok none =>
      if (diffFor m (.child pprev h vtx)).isSome then do
        let snapshot ← answerFor pprev
        extendBy env m snapshot (.child pprev h vtx)
      else initialFor env (.child pprev h vtx)

/-- **What `GetListForBlock` returns** in a state. -/
def answer (b : BlockIndex) : Outcome DeterministicMNList :=
  if !env.isDIP3Enforced b.nHeight then .ok {} else answerFor env m b

end

/-- The lists are stored under their block hashes. -/
def Keyed (env : ChainEnv) (S : Blocks) (m : Manager) : Prop :=
  ∀ b, S.mem b → ∀ l, listFor env m b = .ok (some l) → l.blockHash = b.blockHash

variable {env : ChainEnv} {S : Blocks} {m₀ m : Manager}

variable {b : BlockIndex} {l : DeterministicMNList}

theorem answerFor_of_list (h : listFor env m b = .ok (some l)) : answerFor env m b = .ok l := by
  cases b <;> simp [answerFor, h]

theorem answerFor_of_error {f} (h : listFor env m b = .error f) : answerFor env m b = .error f := by
  cases b <;> simp [answerFor, h]

theorem answerFor_of_initial (h : listFor env m b = .ok none) (hd : diffFor m b = none)
    : answerFor env m b = initialFor env b := by
  cases b <;> simp [answerFor, h, hd]

theorem answerFor_child {p} {h} {vtx} (hl : listFor env m (.child p h vtx) = .ok none)
    (hd : (diffFor m (.child p h vtx)).isSome = true) : answerFor env m (.child p h vtx) =
      answerFor env m p >>= fun l => extendBy env m l (.child p h vtx) := by
  simp [answerFor, hl, hd]

/-- An answer carries the hash of its block. -/
theorem Keyed.answerFor (hkeyed : Keyed env S m) (hb : S.mem b) (hl : answerFor env m b = .ok l)
    : l.blockHash = b.blockHash := by
  cases hlist : listFor env m b with
  | error f =>
    rw [answerFor_of_error hlist] at hl
    cases hl
  | ok found =>
    cases found with
    | some l' =>
      rw [answerFor_of_list hlist] at hl
      cases hl
      exact hkeyed b hb _ hlist
    | none =>
      cases hdiff : diffFor m b with
      | none =>
        rw [answerFor_of_initial hlist hdiff, initialFor] at hl
        split_ifs at hl
        cases hl
        rfl
      | some diff =>
        cases b with
        | genesis h => simp [Manager.answerFor, hlist, hdiff] at hl
        | child p h vtx =>
          rw [answerFor_child hlist (by simp [hdiff])] at hl
          obtain ⟨snapshot, -, hl⟩ := bind_ok.mp hl
          simp only [extendBy, hdiff] at hl
          split_ifs at hl
          · exact applyDiff_blockHash hl
          · cases hl
            rfl

/-! ### Filling the caches -/

/-- `m` is `m₀` with more in its caches. -/
structure Filled (env : ChainEnv) (S : Blocks) (m₀ m : Manager) : Prop where
  evoDb : m.evoDb = m₀.evoDb
  tipIndex : m.tipIndex = m₀.tipIndex
  diffs : ∀ b, S.mem b → diffFor m b = diffFor m₀ b
  /-- A cached list was cached before, or it is the answer. -/
  lists : ∀ b, S.mem b → m.mnListsCache[b.blockHash]? = m₀.mnListsCache[b.blockHash]? ∨
    m₀.mnListsCache[b.blockHash]? = none ∧
      ∃ l, m.mnListsCache[b.blockHash]? = some l ∧ answerFor env m₀ b = .ok l

namespace Filled

theorem refl (m : Manager) : Filled env S m m :=
  ⟨rfl, rfl, fun _ _ => rfl, fun _ _ => .inl rfl⟩

/-- The answers are those of `m₀`. -/
theorem answerFor_eq (h : Filled env S m₀ m) (hb : S.mem b) :
    answerFor env m b = answerFor env m₀ b := by
  have hcases : listFor env m b = listFor env m₀ b ∨
      ∃ l, listFor env m b = .ok (some l) ∧ answerFor env m₀ b = .ok l := by
    rcases h.lists b hb with heq | ⟨-, l, hl, hanswer⟩
    · exact .inl (by simp only [listFor, heq, h.evoDb])
    · exact .inr ⟨l, by simp only [listFor, hl], hanswer⟩
  induction b with
  | genesis g =>
    rcases hcases with heq | ⟨l, hl, hanswer⟩
    · simp only [answerFor, heq, h.diffs _ hb]
    · rw [answerFor_of_list hl, hanswer]
  | child p g vtx ih =>
    rcases hcases with heq | ⟨l, hl, hanswer⟩
    · have hp : answerFor env m p = answerFor env m₀ p := by
        refine ih (S.parent hb) ?_
        rcases h.lists p (S.parent hb) with heq | ⟨-, l, hl, hanswer⟩
        · exact .inl (by simp only [listFor, heq, h.evoDb])
        · exact .inr ⟨l, by simp only [listFor, hl], hanswer⟩
      simp only [answerFor, heq, h.diffs _ hb, hp, extendBy]
    · rw [answerFor_of_list hl, hanswer]

/-- Cache the answer for a block. -/
theorem cacheList (h : Filled env S m₀ m) (hb : S.mem b) (hl : answerFor env m₀ b = .ok l) :
    Filled env S m₀ (m.cacheList b.blockHash l) := by
  refine ⟨h.evoDb, h.tipIndex, h.diffs, fun c hc => ?_⟩
  have hget : (m.cacheList b.blockHash l).mnListsCache[c.blockHash]? =
      (m.mnListsCache.insertIfNew b.blockHash l)[c.blockHash]? := rfl
  rw [hget, Std.ExtTreeMap.getElem?_insertIfNew]
  split_ifs with hnew
  · -- a new entry: the block was not cached in `m₀` either
    obtain ⟨heq, hmem⟩ := hnew
    obtain rfl := S.hash_injective hb hc (compare_eq_iff_eq.mp heq)
    have hnone : m.mnListsCache[b.blockHash]? = none := by
      simpa using hmem
    rcases h.lists b hb with heq | ⟨-, l', hl', -⟩
    · exact .inr ⟨heq ▸ hnone, l, rfl, hl⟩
    · rw [hnone] at hl'
      cases hl'
  · exact h.lists c hc

/-- Cache the stored difference of a block. -/
theorem cacheDiff (h : Filled env S m₀ m) (hb : S.mem b)
    (hnone : m.mnListDiffsCache[b.blockHash]? = none)
    (hdiff : m.evoDb.readDiff b.blockHash = some diff) :
    Filled env S m₀ (m.cacheDiff b.blockHash { diff with nHeight := b.nHeight }) := by
  refine ⟨h.evoDb, h.tipIndex, fun c hc => ?_, h.lists⟩
  rw [← h.diffs c hc]
  show ((m.mnListDiffsCache.insertIfNew b.blockHash _)[c.blockHash]?).or _ = _
  rw [Std.ExtTreeMap.getElem?_insertIfNew]
  split_ifs with hnew
  · obtain rfl := S.hash_injective hb hc (compare_eq_iff_eq.mp hnew.1)
    simp [diffFor, hnone, hdiff]
  · rfl

end Filled

/-! ### The call -/

/-- The state of a search: the differences of the blocks passed so far are cached. -/
structure Reading (env : ChainEnv) (S : Blocks) (m₀ : Manager) (path : List BlockIndex)
    (m : Manager) : Prop where
  filled : Filled env S m₀ m
  cached : ∀ b ∈ path, ∃ diff, m.mnListDiffsCache[b.blockHash]? = some diff ∧
    diffFor m₀ b = some diff

variable {path : List BlockIndex}

theorem Reading.cacheList (h : Reading env S m₀ path m) (hb : S.mem b)
    (hl : answerFor env m₀ b = .ok l) : Reading env S m₀ path (m.cacheList b.blockHash l) :=
  ⟨h.filled.cacheList hb hl, h.cached⟩

/-- The difference of a block is among the cached ones. -/
theorem Reading.found (h : Reading env S m₀ path m) (hb : S.mem b)
    (hdiff : m.mnListDiffsCache[b.blockHash]? = some diff) : Reading env S m₀ (b :: path) m := by
  refine ⟨h.filled, fun c hc => ?_⟩
  rcases List.mem_cons.mp hc with rfl | hc
  · refine ⟨diff, hdiff, ?_⟩
    rw [← h.filled.diffs c hb]
    simp [diffFor, hdiff]
  · exact h.cached c hc

/-- A stored difference becomes a cached one. -/
theorem Reading.cacheDiff (h : Reading env S m₀ path m) (hb : S.mem b)
    (hnone : m.mnListDiffsCache[b.blockHash]? = none)
    (hdiff : m.evoDb.readDiff b.blockHash = some diff) :
    Reading env S m₀ (b :: path) (m.cacheDiff b.blockHash { diff with nHeight := b.nHeight }) := by
  have hkept : Reading env S m₀ path
      (m.cacheDiff b.blockHash { diff with nHeight := b.nHeight }) := by
    refine ⟨h.filled.cacheDiff hb hnone hdiff, fun c hc => ?_⟩
    obtain ⟨d, hd, hd₀⟩ := h.cached c hc
    refine ⟨d, ?_, hd₀⟩
    show (m.mnListDiffsCache.insertIfNew b.blockHash _)[c.blockHash]? = some d
    rw [Std.ExtTreeMap.getElem?_insertIfNew, if_neg, hd]
    rintro ⟨heq, -⟩
    simp [compare_eq_iff_eq.mp heq, hd] at hnone
  have hcached : (m.cacheDiff b.blockHash { diff with nHeight := b.nHeight }).mnListDiffsCache[
      b.blockHash]? = some { diff with nHeight := b.nHeight } := by
    show (m.mnListDiffsCache.insertIfNew b.blockHash _)[b.blockHash]? = some _
    rw [Std.ExtTreeMap.getElem?_insertIfNew, if_pos ⟨compare_eq_iff_eq.mpr rfl, by simpa using hnone⟩]
  exact hkept.found hb hcached

theorem findList_reads (hb : S.mem b) : Prog.Triple (Reading env S m₀ path) (findList env b)
      (fun found m => Reading env S m₀ path m ∧ match found with
        | some l => answerFor env m₀ b = .ok l
        | none => listFor env m₀ b = .ok none)
      (fun f m => Reading env S m₀ path m ∧ answerFor env m₀ b = .error f) := by
  refine .get_bind fun m hm => ?_
  cases hcache : m.mnListsCache[b.blockHash]? with
  | some l =>
    refine .pure fun m' hm' => ?_
    subst hm'
    refine ⟨hm, ?_⟩
    rw [← hm.filled.answerFor_eq hb]
    exact answerFor_of_list (by simp [listFor, hcache])
  | none =>
    -- what is not cached now was not cached before
    have hlist : listFor env m₀ b = m.evoDb.readSnapshot env.serializeHash b.blockHash := by
      rcases hm.filled.lists b hb with heq | ⟨-, l, hl, -⟩
      · rw [hcache] at heq
        simp [listFor, ← heq, hm.filled.evoDb]
      · simp [hcache] at hl
    refine .bind (R := fun found m' => listFor env m₀ b = .ok found ∧ m' = m)
      (.ofExcept ?_ ?_) ?_
    · exact fun found m' hr hm' => ⟨hlist.trans hr, hm'⟩
    · intro f m' hr hm'
      subst hm'
      exact ⟨hm, answerFor_of_error (hlist.trans hr)⟩
    · intro found
      cases found with
      | none =>
        refine .pure fun m' hm' => ?_
        obtain ⟨hnone, rfl⟩ := hm'
        exact ⟨hm, hnone⟩
      | some l =>
        refine .bind (R := fun _ m' => Reading env S m₀ path m' ∧ answerFor env m₀ b = .ok l) ?_ ?_
        · refine .modify fun m' hm' => ?_
          obtain ⟨hsome, rfl⟩ := hm'
          have hanswer := answerFor_of_list hsome
          exact ⟨hm.cacheList hb hanswer, hanswer⟩
        · exact fun _ => .pure fun m' hm' => hm'

theorem findDiff_reads (hb : S.mem b) : Prog.Triple (Reading env S m₀ path) (findDiff b)
      (fun found m => match found with
        | true => Reading env S m₀ (b :: path) m
        | false => Reading env S m₀ path m ∧ diffFor m₀ b = none)
      (fun _ _ => False) := by
  refine .get_bind fun m hm => ?_
  cases hcache : m.mnListDiffsCache[b.blockHash]? with
  | some diff =>
    refine .pure fun m' hm' => ?_
    subst hm'
    exact hm.found hb hcache
  | none =>
    cases hread : m.evoDb.readDiff b.blockHash with
    | none =>
      refine .pure fun m' hm' => ?_
      subst hm'
      refine ⟨hm, ?_⟩
      rw [← hm.filled.diffs b hb]
      simp [diffFor, hcache, hread]
    | some diff =>
      refine .bind (R := fun _ m' => Reading env S m₀ (b :: path) m') ?_ ?_
      · refine .modify fun m' hm' => ?_
        subst hm'
        exact hm.cacheDiff hb hcache hread
      · exact fun _ => .pure fun m' hm' => hm'

theorem initialSnapshot_reads (hb : S.mem b) (hlist : listFor env m₀ b = .ok none)
    (hdiff : diffFor m₀ b = none) : Prog.Triple (Reading env S m₀ path) (initialSnapshot env b)
      (fun l m => Reading env S m₀ path m ∧ answerFor env m₀ b = .ok l)
      (fun f m => Reading env S m₀ path m ∧ answerFor env m₀ b = .error f) := by
  have hanswer := answerFor_of_initial hlist hdiff
  unfold initialFor at hanswer
  unfold initialSnapshot
  split_ifs at hanswer ⊢
  · refine .bind (R := fun _ m => Reading env S m₀ path m) ?_ ?_
    · exact .modify fun m hm => hm.cacheList hb hanswer
    · exact fun _ => .pure fun m hm => ⟨hm, hanswer⟩
  · exact .throw fun m hm => ⟨hm, hanswer⟩

theorem visit_reads (hb : S.mem b) : Prog.Triple (Reading env S m₀ path) (visit env b)
      (fun found m => match found with
        | some l => Reading env S m₀ path m ∧ answerFor env m₀ b = .ok l
        | none => Reading env S m₀ (b :: path) m ∧ listFor env m₀ b = .ok none)
      (fun f m => Filled env S m₀ m ∧ answerFor env m₀ b = .error f) := by
  refine .bind ((findList_reads hb).failing fun _ _ h => ⟨h.1.filled, h.2⟩) ?_
  intro found
  cases found with
  | some l => exact .pure fun m hm => hm
  | none =>
    intro m ⟨hm, hlist⟩
    refine (Prog.Triple.bind (R := fun found m => match found with
        | true => Reading env S m₀ (b :: path) m
        | false => Reading env S m₀ path m ∧ diffFor m₀ b = none)
      ((findDiff_reads hb).failing (by simp)) ?_) m hm
    intro stored
    cases stored with
    | true => exact .pure fun m hm => ⟨hm, hlist⟩
    | false =>
      rw [if_neg Bool.false_ne_true]
      refine .map fun m hm => ?_
      exact ((initialSnapshot_reads hb hlist hm.2).failing fun _ _ h => ⟨h.1.filled, h.2⟩) m hm.1

/-- The search finds a list from which the blocks passed lead to the answer. -/
theorem search_reads (hb : S.mem b) (path : List BlockIndex) :
    Prog.Triple (Reading env S m₀ path) (search env b path)
      (fun r m => Reading env S m₀ r.2 m ∧ ∃ passed, r.2 = passed ++ path ∧
        answerFor env m₀ b = passed.foldlM (extendBy env m₀) r.1)
      (fun f m => Filled env S m₀ m ∧ answerFor env m₀ b = .error f) := by
  induction b generalizing path with
  | genesis h =>
    refine .bind (visit_reads hb) fun found => ?_
    cases found with
    | some l => exact .pure fun m hm => ⟨hm.1, [], rfl, hm.2⟩
    | none =>
      refine .throw fun m hm => ⟨hm.1.filled, ?_⟩
      obtain ⟨diff, -, hdiff⟩ := hm.1.cached _ (.head _)
      simp [answerFor, hm.2, hdiff]
  | child p h vtx ih =>
    refine .bind (visit_reads hb) fun found => ?_
    cases found with
    | some l => exact .pure fun m hm => ⟨hm.1, [], rfl, hm.2⟩
    | none =>
      intro m ⟨hreading, hlist⟩
      obtain ⟨diff, -, hdiff⟩ := hreading.cached _ (.head _)
      have hchild := answerFor_child hlist (by simp [hdiff])
      refine ((ih (S.parent hb) _).conseq (fun _ h => h) ?_ ?_) m hreading
      · intro r m' ⟨hreading', passed, hpassed, hanswer⟩
        refine ⟨hreading', passed ++ [.child p h vtx], by simp [hpassed], ?_⟩
        rw [hchild, hanswer, List.foldlM_append]
        simp
      · intro f m' hf
        refine ⟨hf.1, ?_⟩
        rw [hchild, hf.2]
        rfl

/-- Replaying the cached differences is what `extendBy` says. -/
theorem replays_reads (path : List BlockIndex) (l : DeterministicMNList) :
    Prog.Triple (Reading env S m₀ path) (path.foldlM (replay env) l)
      (fun l' m => Filled env S m₀ m ∧ path.foldlM (extendBy env m₀) l = .ok l')
      (fun f m => Filled env S m₀ m ∧ path.foldlM (extendBy env m₀) l = .error f) := by
  induction path generalizing l with
  | nil => exact .pure fun m hm => ⟨hm.filled, rfl⟩
  | cons b path ih =>
    rw [List.foldlM_cons, List.foldlM_cons]
    have hstep : Prog.Triple (Reading env S m₀ (b :: path)) (replay env l b)
        (fun l' m => Reading env S m₀ path m ∧ extendBy env m₀ l b = .ok l')
        (fun f m => Filled env S m₀ m ∧ extendBy env m₀ l b = .error f) := by
      refine .get_bind fun m hm => ?_
      obtain ⟨diff, hcached, hdiff⟩ := hm.cached b (.head _)
      have hrest : Reading env S m₀ path m :=
        ⟨hm.filled, fun c hc => hm.cached c (.tail _ hc)⟩
      simp only [hcached, extendBy, hdiff]
      split_ifs
      · refine .ofExcept ?_ ?_
        · intro l' m' hr hm'
          subst hm'
          exact ⟨hrest, hr⟩
        · intro f m' hr hm'
          subst hm'
          exact ⟨hm.filled, hr⟩
      · refine .pure fun m' hm' => ?_
        subst hm'
        exact ⟨hrest, rfl⟩
    refine .bind (hstep.failing ?_) fun l₁ m hm => ?_
    · intro f m hf
      refine ⟨hf.1, ?_⟩
      rw [hf.2]
      rfl
    · obtain ⟨hreading, hext⟩ := hm
      rw [hext]
      exact ih l₁ m hreading

/-- **`GetListForBlock` returns the answer and only fills the caches.** -/
theorem getListForBlock_reads (hkeyed : Keyed env S m₀) (hb : S.mem b) :
    Prog.Triple (Filled env S m₀) (getListForBlock env b)
      (fun l m => Filled env S m₀ m ∧ answer env m₀ b = .ok l)
      (fun f m => Filled env S m₀ m ∧ answer env m₀ b = .error f) := by
  unfold getListForBlock answer
  split_ifs
  · exact .pure fun m hm => ⟨hm, rfl⟩
  refine .bind (R := fun r m => Reading env S m₀ r.2 m ∧
      answerFor env m₀ b = r.2.foldlM (extendBy env m₀) r.1)
    ((search_reads hb []).conseq (fun m hm => ⟨hm, by simp⟩) ?_ fun _ _ h => h) ?_
  · intro r m ⟨hreading, passed, hpassed, hanswer⟩
    rw [List.append_nil] at hpassed
    exact ⟨hreading, hpassed ▸ hanswer⟩
  · intro ⟨snapshot, listDiffIndexes⟩
    intro m ⟨hreading, hanswer⟩
    rw [hanswer]
    refine (Prog.Triple.bind (replays_reads listDiffIndexes snapshot) fun l => ?_) m hreading
    refine .bind (R := fun _ m => Filled env S m₀ m ∧
      listDiffIndexes.foldlM (extendBy env m₀) snapshot = .ok l) (.modify fun m hm => ?_)
      fun _ => .pure fun m hm => hm
    obtain ⟨hfilled, hl⟩ := hm
    refine ⟨?_, hl⟩
    -- the list is cached under its own hash, which is the one of the block
    have hl' := hanswer.trans hl
    unfold keepTip
    split
    · exact hfilled
    · split_ifs
      · rw [hkeyed.answerFor hb hl']
        exact hfilled.cacheList hb hl'
      · exact hfilled

end Manager

end KmushiCoin
