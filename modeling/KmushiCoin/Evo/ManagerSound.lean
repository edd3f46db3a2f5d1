import KmushiCoin.Evo.FoldList

/-!
# KmushiCoin.Evo.ManagerSound

**What the manager answers is the fold** of `BuildNewListFromBlock` over the blocks since
the activation, whatever is cached and wherever snapshots were stored.

* The invariant (`Sound`) says of every entry of the three stores that it is the list, or
  the difference, of *its* block. It is kept by every call, also by one that fails.
* `Stored` says that the database has the differences of a block and its ancestors; then
  the search of `GetListForBlock` ends.
* A `Node` is a manager with the tip of its chain. Its steps (`Step`) connect and
  disconnect blocks in a transaction of the database, that is committed when the call
  returns and rolled back when it fails, and call the manager in between.
-/

namespace KmushiCoin

open Codec DeterministicMNList Std.ExtTreeMap List Option

variable {b a : BlockIndex}

variable {h : Uint256} {db : EvoDB} {m : Manager} {vtx : List Transaction}

namespace Manager

variable {env : ChainEnv}

/-! ### The stores -/

variable (T : BlockTree env)

/-- The list is the one that the search may find for the block with this hash. -/
def IsList (h : Uint256) (l : DeterministicMNList) : Prop :=
  ∃ b, T.mem b ∧ b.blockHash = h ∧ knownList env b = .ok l

/-- The list is the one of the block with this hash, and it can be read back. -/
def IsSnapshot (h : Uint256) (l : DeterministicMNList) : Prop :=
  ∃ b, T.mem b ∧ b.blockHash = h ∧ env.isDIP3Enforced b.nHeight = true ∧
    foldList env b = .ok l ∧ l.members.length ≤ maxSize ∧
    ∀ d ∈ l.members, d.pdmnState.keyIDOperator ≠ 0

variable (env) in
/-- The difference is the one of the block, marked with a height. -/
def DiffOf (b : BlockIndex) (nHeight : Int32) (diff : DeterministicMNListDiff) : Prop :=
  ∃ p h vtx l l', b = .child p h vtx ∧ env.isDIP3Enforced (p.nHeight + 1) = true ∧
    foldList env p = .ok l ∧ foldList env b = .ok l' ∧
    diff = { l.buildDiff l' with nHeight := nHeight }

/-- The difference is the one of the block with this hash, as it is stored. -/
def IsDiff (h : Uint256) (diff : DeterministicMNListDiff) : Prop :=
  ∃ b, T.mem b ∧ b.blockHash = h ∧ DiffOf env b (-1) diff

/-- The difference is the one of the block with this hash, as it is cached. -/
def IsCachedDiff (h : Uint256) (diff : DeterministicMNListDiff) : Prop :=
  ∃ b, T.mem b ∧ b.blockHash = h ∧ DiffOf env b b.nHeight diff

/-- Every entry of the transaction is the one of its block. -/
structure TxSound (tx : EvoTx) : Prop where
  snapshots : tx.snapshots.All (IsSnapshot T)
  diffs : tx.diffs.All (IsDiff T)

/-- Every record on disk was written for its block. -/
structure DiskSound (disk : EvoDisk) : Prop where
  snapshots : disk.snapshots.All fun h bytes =>
    ∃ l, IsSnapshot T h l ∧ bytes = l.serializeAs (env.traversal l)
  diffs : disk.diffs.All fun h bytes => ∃ diff, IsDiff T h diff ∧ bytes = diff.serialize

structure DBSound (db : EvoDB) : Prop where
  cur : TxSound T db.cur
  root : TxSound T db.root
  disk : DiskSound T db.disk

/-- Every entry of the stores is the one of its block. -/
structure Sound (m : Manager) : Prop where
  db : DBSound T m.evoDb
  lists : m.mnListsCache.All (IsList T)
  diffs : m.mnListDiffsCache.All (IsCachedDiff T)
  tip : ∀ tip, m.tipIndex = some tip → T.mem tip

/-- A difference is stored for the block with this hash. -/
def HasDiff (db : EvoDB) (h : Uint256) : Prop :=
  h ∈ db.cur.diffs ∨ h ∈ db.root.diffs ∨ h ∈ db.disk.diffs

variable (env) in
/-- The differences of the block and of the blocks before it are stored. -/
def Stored (db : EvoDB) : BlockIndex → Prop
  | .genesis _ => True
  | .child p h _ => (env.isDIP3Enforced (p.nHeight + 1) = true → HasDiff db h) ∧ Stored db p

variable {T}

theorem TxSound.empty : TxSound T {} := ⟨.empty, .empty⟩

variable {l : DeterministicMNList} {diff : DeterministicMNListDiff}

theorem IsSnapshot.isList (hl : IsSnapshot T h l) : IsList T h l := by
  obtain ⟨b, hb, hh, henf, hfold, -⟩ := hl
  exact ⟨b, hb, hh, by rw [knownList, if_pos henf, hfold]⟩

/-- The entry under the hash of a block is the one of this block. -/
theorem IsList.known (hb : T.mem b) (hl : IsList T b.blockHash l) : knownList env b = .ok l := by
  obtain ⟨b', hb', hh, hknown⟩ := hl
  obtain rfl := T.hash_injective hb' hb hh
  exact hknown

theorem IsCachedDiff.diffOf (hb : T.mem b) (hd : IsCachedDiff T b.blockHash diff)
    : DiffOf env b b.nHeight diff := by
  obtain ⟨b', hb', hh, hdiff⟩ := hd
  obtain rfl := T.hash_injective hb' hb hh
  exact hdiff

theorem IsDiff.diffOf (hb : T.mem b) (hd : IsDiff T b.blockHash diff) : DiffOf env b (-1) diff := by
  obtain ⟨b', hb', hh, hdiff⟩ := hd
  obtain rfl := T.hash_injective hb' hb hh
  exact hdiff

theorem DiffOf.mark {n} (h : DiffOf env b n diff) (n' : Int32)
    : DiffOf env b n' { diff with nHeight := n' } := by
  obtain ⟨p, hh, vtx, l, l', hb, henf, hl, hl', rfl⟩ := h
  exact ⟨p, hh, vtx, l, l', hb, henf, hl, hl', rfl⟩

/-- Only blocks with a list have a difference. -/
theorem DiffOf.enforced {n} (h : DiffOf env b n diff) : env.isDIP3Enforced b.nHeight = true := by
  obtain ⟨p, hh, vtx, l, l', rfl, henf, -⟩ := h
  exact henf

section
variable (hinj : Function.Injective env.serializeHash) (hst : T.Storable)
include hinj hst

/-- A stored difference is read back from the disk. -/
theorem IsDiff.reads (hd : IsDiff T h diff) :
    DeterministicMNListDiff.unserialize.run diff.serialize = .ok (diff, []) := by
  obtain ⟨b, hb, -, p, hh, vtx, l, l', rfl, henf, hl, hl', rfl⟩ := hd
  have hreg' := foldList_registry hinj hb hl'
  have hreads := reads_buildDiff (foldList_registry hinj (T.parent hb) hl).wf hreg'.wf
    hreg'.scriptsFit (hst hb henf _ hl _ hl').changes []
  rwa [append_nil] at hreads

omit hst in
/-- A stored snapshot is read back from the disk. -/
theorem IsSnapshot.reads (hl : IsSnapshot T h l) :
    unserialize env.serializeHash (l.serializeAs (env.traversal l)) = .ok (l, []) := by
  obtain ⟨b, hb, -, -, hfold, hsize, hkeys⟩ := hl
  have hreg := foldList_registry hinj hb hfold
  have hiff := unserialize_serializeAs_iff hinj hreg.wf (env.traversal_perm l) hreg.scriptsFit
    hreg.length_members_lt []
  rw [append_nil] at hiff
  exact hiff.mpr ⟨hsize, fun d hd => ⟨hreg.owner (hreg.wf.mem_members.mp hd), hkeys d hd⟩⟩

omit hst in
theorem DBSound.readSnapshot (hdb : DBSound T db) (h : Uint256) :
    ∃ found, db.readSnapshot env.serializeHash h = .ok found ∧
      ∀ l, found = some l → IsSnapshot T h l := by
  unfold EvoDB.readSnapshot
  cases hmem : (db.cur.snapshots[h]?).or db.root.snapshots[h]? with
  | some l =>
    refine ⟨some l, rfl, ?_⟩
    rintro l' ⟨⟩
    rcases or_eq_some_iff.mp hmem with hl | ⟨-, hl⟩
    · exact hdb.cur.snapshots hl
    · exact hdb.root.snapshots hl
  | none =>
    cases hdisk : db.disk.snapshots[h]? with
    | none => exact ⟨none, rfl, by simp⟩
    | some bytes =>
      obtain ⟨l, hl, rfl⟩ := hdb.disk.snapshots hdisk
      refine ⟨some l, ?_, ?_⟩
      · show EvoDB.decoded _ = _
        rw [hl.reads hinj, EvoDB.decoded]
      · rintro l' ⟨⟩
        exact hl

/-- A difference is found exactly where one is stored. -/
theorem DBSound.readDiff (hdb : DBSound T db) (h : Uint256) :
    (∀ diff, db.readDiff h = some diff → IsDiff T h diff) ∧
      (db.readDiff h = none → ¬ HasDiff db h) := by
  unfold EvoDB.readDiff
  cases hmem : (db.cur.diffs[h]?).or db.root.diffs[h]? with
  | some diff =>
    refine ⟨?_, by simp⟩
    rintro diff' ⟨⟩
    rcases or_eq_some_iff.mp hmem with hd | ⟨-, hd⟩
    · exact hdb.cur.diffs hd
    · exact hdb.root.diffs hd
  | none =>
    obtain ⟨hcur, hroot⟩ := or_eq_none_iff.mp hmem
    cases hdisk : db.disk.diffs[h]? with
    | none =>
      refine ⟨by simp, fun _ => ?_⟩
      simp only [HasDiff, mem_iff_isSome_getElem?, hcur, hroot, hdisk]
      simp
    | some bytes =>
      obtain ⟨diff, hd, rfl⟩ := hdb.disk.diffs hdisk
      simp only [hd.reads hinj hst]
      refine ⟨?_, by simp⟩
      rintro diff' ⟨⟩
      exact hd

/-! ### The search -/

/-- The state of a search: the database is left alone and the differences of the blocks
passed so far are cached. -/
structure Searching (T : BlockTree env) (db : EvoDB) (path : List BlockIndex) (m : Manager) :
    Prop where
  sound : Sound T m
  evoDb : m.evoDb = db
  cached : ∀ b ∈ path, b.blockHash ∈ m.mnListDiffsCache

variable {db : EvoDB} {path : List BlockIndex}

omit hinj hst in
theorem Searching.cacheList (h : Searching T db path m) {b} (hl : IsList T b l)
    : Searching T db path (m.cacheList b l) :=
  ⟨⟨h.sound.db, h.sound.lists.insertIfNew hl, h.sound.diffs, h.sound.tip⟩, h.evoDb, h.cached⟩

omit hinj hst in
theorem Searching.cacheDiff (h : Searching T db path m) (hd : IsCachedDiff T b.blockHash diff) :
    Searching T db (b :: path) (m.cacheDiff b.blockHash diff) := by
  refine ⟨⟨h.sound.db, h.sound.lists, h.sound.diffs.insertIfNew hd, h.sound.tip⟩, h.evoDb, ?_⟩
  intro c hc
  rw [Manager.cacheDiff, mem_insertIfNew]
  rcases mem_cons.mp hc with rfl | hc
  · exact .inl (by simp)
  · exact .inr (h.cached c hc)

omit hst in
theorem findList_spec (hb : T.mem b) : Prog.Triple (Searching T db path) (findList env b)
      (fun found m => Searching T db path m ∧ ∀ l, found = some l → knownList env b = .ok l)
      (fun _ _ => False) := by
  refine .get_bind fun m hm => ?_
  cases hcache : m.mnListsCache[b.blockHash]? with
  | some l =>
    refine .pure ?_
    rintro _ rfl
    exact ⟨hm, fun l' hl' => some.inj hl' ▸ (hm.sound.lists hcache).known hb⟩
  | none =>
    obtain ⟨found, hread, hfound⟩ := hm.sound.db.readSnapshot hinj b.blockHash
    simp only [hread]
    refine .bind (R := fun r m' => r = found ∧ m' = m) (.ofExcept ?_ (by simp)) ?_
    · rintro r _ hr rfl
      exact ⟨(Except.ok.inj hr).symm, rfl⟩
    · rintro (_ | l)
      · refine .pure ?_
        rintro _ ⟨-, rfl⟩
        exact ⟨hm, by simp⟩
      · refine .bind (R := fun _ m' => Searching T db path m' ∧ knownList env b = .ok l) ?_ ?_
        · refine .modify ?_
          rintro _ ⟨hl, rfl⟩
          have hlist := (hfound l hl.symm).isList
          exact ⟨hm.cacheList hlist, hlist.known hb⟩
        · exact fun _ => .pure fun m' hm' => ⟨hm'.1, fun l' hl' => some.inj hl' ▸ hm'.2⟩

theorem findDiff_spec (hb : T.mem b) : Prog.Triple (Searching T db path) (findDiff b)
      (fun found m => match found with
        | true => Searching T db (b :: path) m ∧ env.isDIP3Enforced b.nHeight = true
        | false => Searching T db path m ∧ ¬ HasDiff db b.blockHash)
      (fun _ _ => False) := by
  refine .get_bind fun m hm => ?_
  cases hcache : m.mnListDiffsCache[b.blockHash]? with
  | some diff =>
    refine .pure ?_
    rintro _ rfl
    refine ⟨⟨hm.sound, hm.evoDb, ?_⟩, ((hm.sound.diffs hcache).diffOf hb).enforced⟩
    intro c hc
    rcases mem_cons.mp hc with rfl | hc
    · rw [mem_iff_isSome_getElem?, hcache]
      rfl
    · exact hm.cached c hc
  | none =>
    obtain ⟨hsome, hnone⟩ := hm.sound.db.readDiff hinj hst b.blockHash
    cases hread : m.evoDb.readDiff b.blockHash with
    | none =>
      refine .pure ?_
      rintro _ rfl
      exact ⟨hm, hm.evoDb ▸ hnone hread⟩
    | some diff =>
      have hd := (hsome diff hread).diffOf hb
      refine .bind (R := fun _ m' => Searching T db (b :: path) m') ?_ ?_
      · refine .modify ?_
        rintro _ rfl
        exact hm.cacheDiff ⟨b, hb, rfl, hd.mark _⟩
      · exact fun _ => .pure fun m' hm' => ⟨hm', hd.enforced⟩

omit hinj hst in
theorem isList_initial (hb : T.mem b) (hact : env.isActivationHeight (b.nHeight + 1) = true) :
    IsList T b.blockHash ⟨b.blockHash, -1, 0, ∅, ∅, ∅⟩ := by
  refine ⟨b, hb, rfl, ?_⟩
  rw [knownList, not_enforced_of_isActivationHeight hact]
  rfl

/-- The search may stop at a block: it has a list, or it is the one before the first that has. -/
def Searched (env : ChainEnv) (b : BlockIndex) : Prop :=
  env.isDIP3Enforced b.nHeight = true ∨ env.isActivationHeight (b.nHeight + 1) = true

omit hinj hst in
/-- Without a difference the search stops only where no list is to be expected. -/
theorem Searched.not_stored (h : Searched env b)
    (hact : env.isActivationHeight (b.nHeight + 1) ≠ true) (hdiff : ¬ HasDiff db b.blockHash) :
    ¬ Stored env db b := by
  have henf := h.resolve_right hact
  cases b with
  | genesis h =>
    simp [genesis_not_enforced] at henf
  | child p h vtx => exact fun hs => hdiff (hs.1 henf)

omit hinj hst in
theorem initialSnapshot_spec (hb : T.mem b) (hs : Searched env b) :
    Prog.Triple (fun m => Searching T db path m ∧ ¬ HasDiff db b.blockHash) (initialSnapshot env b)
      (fun l m => Searching T db path m ∧ knownList env b = .ok l)
      (fun _ m => Searching T db [] m ∧ ¬ Stored env db b) := by
  unfold initialSnapshot
  split_ifs with hact
  · have hlist := isList_initial hb hact
    refine .bind (R := fun _ m => Searching T db path m) ?_ ?_
    · exact .modify fun m hm => hm.1.cacheList hlist
    · exact fun _ => .pure fun m hm => ⟨hm, hlist.known hb⟩
  · refine .throw fun m hm => ⟨⟨hm.1.sound, hm.1.evoDb, by simp⟩, ?_⟩
    exact hs.not_stored hact hm.2

/-- One round: a list that is known, or the difference is cached. -/
theorem visit_spec (hb : T.mem b) (hs : Searched env b) :
    Prog.Triple (Searching T db path) (visit env b)
      (fun found m => match found with
        | some l => Searching T db path m ∧ knownList env b = .ok l
        | none => Searching T db (b :: path) m ∧ env.isDIP3Enforced b.nHeight = true)
      (fun _ m => Searching T db [] m ∧ ¬ Stored env db b) := by
  refine .bind ((findList_spec hinj hb).failing (by simp)) ?_
  rintro (_ | l)
  · refine .bind ((findDiff_spec hinj hst hb).conseq (fun _ h => h.1) (fun _ _ h => h) (by simp)) ?_
    rintro (_ | _)
    · rw [if_neg Bool.false_ne_true]
      exact .map (initialSnapshot_spec hb hs)
    · exact .pure fun m hm => hm
  · exact .pure fun m hm => ⟨hm.1, hm.2 l rfl⟩

/-- The blocks from one to another, the first one excluded. -/
inductive Path : BlockIndex → List BlockIndex → BlockIndex → Prop
  | nil (b : BlockIndex) : Path b [] b
  | cons {a b : BlockIndex} {h : Uint256} {vtx : List Transaction} {path : List BlockIndex} :
    Path (.child a h vtx) path b → Path a (.child a h vtx :: path) b

omit hinj hst in
theorem Path.mem (h : Path a path b) (hb : T.mem b) : T.mem a := by
  induction h with
  | nil b => exact hb
  | cons hpath ih => exact T.parent (ih hb)

/-- The search ends at a block whose list is known. -/
theorem search_spec {target} (hb : T.mem b) (hs : Searched env b)
    (hpath : Path b path target) : Prog.Triple (Searching T db path) (search env b path)
      (fun r m => Searching T db r.2 m ∧
        ∃ a, T.mem a ∧ knownList env a = .ok r.1 ∧ Path a r.2 target)
      (fun _ m => Searching T db [] m ∧ ¬ Stored env db b) := by
  induction b generalizing path with
  | genesis h =>
    refine .bind (visit_spec hinj hst hb hs) ?_
    rintro (_ | l)
    · refine .throw fun m hm => ?_
      rw [genesis_not_enforced] at hm
      cases hm.2
    · exact .pure fun m hm => ⟨hm.1, _, hb, hm.2, hpath⟩
  | child p h vtx ih =>
    refine .bind (visit_spec hinj hst hb hs) ?_
    rintro (_ | l)
    · intro m hm
      -- the parent has a list, too, or it is the block before the activation
      have hsp : Searched env p := by
        cases hp : env.isDIP3Enforced p.nHeight with
        | true => exact .inl hp
        | false => exact .inr (isActivationHeight_of_enforced hp hm.2)
      refine (ih (T.parent hb) hsp (.cons hpath)).failing ?_ m hm.1
      exact fun _ m' hm' => ⟨hm'.1, fun hstored => hm'.2 hstored.2⟩
    · exact .pure fun m hm => ⟨hm.1, _, hb, hm.2, hpath⟩

omit hinj hst in
/-- The lists known for a block differ in their header at most. -/
theorem knownList_header {lb} (hl : knownList env b = .ok l)
    (hlb : foldList env b = .ok lb) (blockHash : Uint256) (nHeight : Int32) :
    (l.setBlockHash blockHash).setHeight nHeight = (lb.setBlockHash blockHash).setHeight nHeight := by
  unfold knownList at hl
  split_ifs at hl with henf
  · rw [ok_unique hl hlb]
  · rw [Bool.not_eq_true] at henf
    rw [foldList_of_not_enforced henf] at hlb
    rw [← Except.ok.inj hl, ← Except.ok.inj hlb]
    rfl

variable {p : BlockIndex}

/-- One cached difference takes the list of the parent to the list of the block. -/
theorem replay_spec (hb : T.mem (.child p h vtx)) (hl : knownList env p = .ok l) :
    Prog.Triple (Searching T db (.child p h vtx :: path)) (replay env l (.child p h vtx))
      (fun l' m => Searching T db path m ∧ knownList env (.child p h vtx) = .ok l')
      (fun _ _ => False) := by
  refine .get_bind fun m hm => ?_
  have hmem := hm.cached (.child p h vtx) (by simp)
  rw [mem_iff_isSome_getElem?, isSome_iff_exists] at hmem
  obtain ⟨diff, hdiff⟩ := hmem
  have hnext : Searching T db path m :=
    ⟨hm.sound, hm.evoDb, fun b hb => hm.cached b (.tail _ hb)⟩
  obtain ⟨p', h', vtx', lp, l', heq, henf, hlp, hl', rfl⟩ := (hm.sound.diffs hdiff).diffOf hb
  obtain ⟨rfl, rfl, rfl⟩ := BlockIndex.child.inj heq
  have hknown : knownList env (.child p h vtx) = .ok l' := (if_pos henf).trans hl'
  have happly := applyDiff_foldList hinj hb henf hlp hl' (hst hb henf _ hlp _ hl')
    (knownList_header hl hlp)
  simp only [hdiff]
  split_ifs with hchanges
  · refine .ofExcept ?_ ?_
    · rintro a _ ha rfl
      obtain rfl := ok_unique happly ha
      exact ⟨hnext, hknown⟩
    · rintro e _ he rfl
      cases happly.symm.trans he
  · have hnone : (lp.buildDiff l').hasChanges = false := Bool.eq_false_of_not_eq_true hchanges
    rw [applyDiff_of_not_hasChanges hnone] at happly
    refine .pure ?_
    rintro _ rfl
    exact ⟨hnext, hknown.trans happly.symm⟩

/-- The differences of a path, one after the other. -/
theorem replays_spec (hpath : Path a path b) (hb : T.mem b) (hl : knownList env a = .ok l) :
    Prog.Triple (Searching T db path) (path.foldlM (replay env) l)
      (fun l' m => Searching T db [] m ∧ knownList env b = .ok l') (fun _ _ => False) := by
  induction hpath generalizing l with
  | nil b => exact .pure fun m hm => ⟨hm, hl⟩
  | @cons a b h vtx path hpath ih =>
    rw [foldlM_cons]
    refine .bind (replay_spec hinj hst (hpath.mem hb) hl) fun l' m hm => ?_
    exact ih hb hm.2 m hm.1

omit hinj hst in
theorem Searching.keepTip (h : Searching T db path m) (hl : IsList T l.blockHash l)
    : Searching T db path (m.keepTip l) := by
  unfold Manager.keepTip
  cases m.tipIndex with
  | none => exact h
  | some tip =>
    simp only
    split_ifs
    · exact h.cacheList hl
    · exact h

/-- **`GetListForBlock` answers the fold**, and it fails only when a difference is missing. -/
theorem getListForBlock_spec (hb : T.mem b) :
    Prog.Triple (Searching T db []) (getListForBlock env b)
      (fun l m => Searching T db [] m ∧ foldList env b = .ok l)
      (fun _ m => Searching T db [] m ∧ ¬ Stored env db b) := by
  unfold getListForBlock
  cases henf : env.isDIP3Enforced b.nHeight with
  | false => exact .pure fun m hm => ⟨hm, foldList_of_not_enforced henf⟩
  | true =>
    refine .bind (search_spec hinj hst hb (.inl henf) (.nil b)) ?_
    rintro ⟨l₀, path⟩ m₀ ⟨hm₀, a, -, hknown, hpath⟩
    refine Prog.Triple.bind (((replays_spec hinj hst hpath hb hknown)).failing (by simp)) (fun l => ?_) m₀ hm₀
    refine .bind (R := fun _ m => Searching T db [] m ∧ foldList env b = .ok l) ?_ ?_
    · refine .modify fun m hm => ?_
      have hfold : foldList env b = .ok l := by rw [← hm.2, knownList, if_pos henf]
      refine ⟨hm.1.keepTip ⟨b, hb, ?_, hm.2⟩, hfold⟩
      exact (foldList_header hinj hb henf hfold).1.symm
    · exact fun _ => .pure fun m hm => hm

/-! ### Connecting and disconnecting -/

/-- The state within a transaction: what was committed before is left alone. -/
structure InTransaction (T : BlockTree env) (db : EvoDB) (m : Manager) : Prop where
  sound : Sound T m
  root : m.evoDb.root = db.root
  disk : m.evoDb.disk = db.disk

omit hinj hst in
theorem Searching.inTransaction (h : Searching T db path m) : InTransaction T db m := by
  obtain ⟨hs, rfl, -⟩ := h
  exact ⟨hs, rfl, rfl⟩

omit hst in
/-- The list that `ProcessBlock` stores is the fold. -/
theorem foldList_finishList {newList} (hb : T.mem (.child p h vtx))
    (henf : env.isDIP3Enforced (p.nHeight + 1) = true) (hl : foldList env p = .ok l)
    (hnew : buildNewListFromBlock env.toEnv vtx (prevIndex env p l) = .ok newList) :
    foldList env (.child p h vtx) = .ok (finishList (p.nHeight + 1) h newList) := by
  have hheight : newList.nHeight = p.nHeight + 1 :=
    build_nHeight hinj (foldList_registry hinj (T.parent hb) hl).wf hnew
  refine (foldList_child henf).mpr ⟨l, hl, newList, hnew, ?_⟩
  rw [finishList, ← hheight]
  split_ifs <;> rfl

omit hinj in
/-- What is stored for a block is right. -/
theorem InTransaction.storeList (hm : InTransaction T db m) {l'}
    (hb : T.mem (.child p h vtx)) (henf : env.isDIP3Enforced (p.nHeight + 1) = true)
    (hl : foldList env p = .ok l) (hl' : foldList env (.child p h vtx) = .ok l') :
    InTransaction T db (m.storeList (p.nHeight + 1) h l l') ∧
      h ∈ (m.storeList (p.nHeight + 1) h l l').evoDb.cur.diffs := by
  have hdiff : DiffOf env (.child p h vtx) (-1) (l.buildDiff l') :=
    ⟨p, h, vtx, l, l', rfl, henf, hl, hl', rfl⟩
  have hcached : IsCachedDiff T h { l.buildDiff l' with nHeight := p.nHeight + 1 } :=
    ⟨_, hb, rfl, hdiff.mark _⟩
  have hdiffs : FMap.All (IsDiff T) (m.evoDb.cur.diffs.insert h (l.buildDiff l')) :=
    hm.sound.db.cur.diffs.insert ⟨_, hb, rfl, hdiff⟩
  have hmem : h ∈ m.evoDb.cur.diffs.insert h (l.buildDiff l') := by simp
  unfold Manager.storeList
  simp only
  split_ifs with hsnap
  · have hfits := (hst hb henf _ hl _ hl').snapshot hsnap
    have hs : IsSnapshot T h l' := ⟨_, hb, rfl, henf, hl', hfits⟩
    exact ⟨⟨⟨⟨⟨hm.sound.db.cur.snapshots.insert hs, hdiffs⟩, hm.sound.db.root, hm.sound.db.disk⟩,
      hm.sound.lists.insertIfNew hs.isList, hm.sound.diffs.insertIfNew hcached, hm.sound.tip⟩,
      hm.root, hm.disk⟩, hmem⟩
  · exact ⟨⟨⟨⟨⟨hm.sound.db.cur.snapshots, hdiffs⟩, hm.sound.db.root, hm.sound.db.disk⟩,
      hm.sound.lists, hm.sound.diffs.insertIfNew hcached, hm.sound.tip⟩, hm.root, hm.disk⟩, hmem⟩

omit hinj hst in
theorem InTransaction.cleanupCache (hm : InTransaction T db m) (nHeight : Int32) :
    InTransaction T db (m.cleanupCache nHeight) :=
  ⟨⟨hm.sound.db, hm.sound.lists.filter, hm.sound.diffs.filter, hm.sound.tip⟩, hm.root, hm.disk⟩

theorem connectList_spec (hb : T.mem b) (henf : env.isDIP3Enforced b.nHeight = true)
    (fJustCheck : Bool) : Prog.Triple (Searching T db []) (connectList env fJustCheck b)
      (fun _ m => InTransaction T db m ∧ (fJustCheck = false → b.blockHash ∈ m.evoDb.cur.diffs))
      (fun _ m => InTransaction T db m) := by
  cases b with
  | genesis h =>
    simp [genesis_not_enforced] at henf
  | child p h vtx =>
    have hget : Prog.Triple (Searching T db []) (getListForBlock env p)
        (fun l m => Searching T db [] m ∧ foldList env p = .ok l)
        (fun _ m => InTransaction T db m) :=
      (getListForBlock_spec hinj hst (T.parent hb)).failing fun _ _ h => h.1.inTransaction
    refine .bind hget fun l => ?_
    refine .bind (R := fun newList m => Searching T db [] m ∧ foldList env p = .ok l ∧
      buildNewListFromBlock env.toEnv vtx (prevIndex env p l) = .ok newList) ?_ fun newList => ?_
    · exact .ofExcept (fun a m ha hm => ⟨hm.1, hm.2, ha⟩) fun e m _ hm => hm.1.inTransaction
    refine .onlyWhen (fun hcheck => ?_) fun hcheck m hm =>
      ⟨hm.1.inTransaction, by simp_all⟩
    intro m ⟨hm, hl, hnew⟩
    refine Prog.Triple.bind hget (fun oldList => .modify fun m' hm' => ?_) m hm
    obtain rfl := ok_unique hl hm'.2
    obtain ⟨hin, hmem⟩ := hm'.1.inTransaction.storeList hst hb henf hl
      (foldList_finishList hinj hb henf hl hnew)
    exact ⟨hin, fun _ => hmem⟩

/-- **`ProcessBlock`** keeps the invariant, and a block that is connected has its difference
in the transaction. -/
theorem processBlock_spec (hb : T.mem b) (fJustCheck : Bool) :
    Prog.Triple (Searching T db []) (processBlock env b fJustCheck)
      (fun _ m => InTransaction T db m ∧ (fJustCheck = false →
        env.isDIP3Enforced b.nHeight = true → b.blockHash ∈ m.evoDb.cur.diffs))
      (fun _ m => InTransaction T db m) := by
  unfold processBlock
  cases henf : env.isDIP3Enforced b.nHeight with
  | false => exact .pure fun m hm => ⟨hm.inTransaction, by simp⟩
  | true =>
    refine .bind (.mapError (connectList_spec hinj hst hb henf fJustCheck)) fun _ => ?_
    refine .onlyWhen (fun _ => .modify fun m hm => ?_) fun hcheck m hm => ⟨hm.1, fun h _ => hm.2 h⟩
    exact ⟨hm.1.cleanupCache _, fun h _ => hm.2 h⟩

theorem readLists_spec (hb : T.mem b) : Prog.Triple (Searching T db []) (readLists env b)
      (fun _ m => Searching T db [] m) (fun _ m => Searching T db [] m) := by
  have hget : ∀ {c}, T.mem c → Prog.Triple (Searching T db []) (getListForBlock env c)
      (fun _ m => Searching T db [] m) (fun _ m => Searching T db [] m) := fun hc =>
    (getListForBlock_spec hinj hst hc).conseq (fun _ h => h) (fun _ _ h => h.1) fun _ _ h => h.1
  cases b with
  | genesis h => exact .throw fun m hm => hm
  | child p h vtx =>
    exact .bind (hget hb) fun _ => .bind (hget (T.parent hb)) fun _ => .pure fun m hm => hm

/-- **`UndoBlock`** keeps the invariant; the database keeps the difference of the block. -/
theorem undoBlock_spec (hb : T.mem b) : Prog.Triple (Searching T db []) (undoBlock env b)
      (fun _ m => Searching T db [] m) (fun _ m => Searching T db [] m) := by
  unfold undoBlock
  split_ifs
  · exact .pure fun m hm => hm
  refine .get_bind fun m hm => ?_
  refine .bind (R := fun _ m => Searching T db [] m) (.onlyWhen (fun _ => ?_) ?_) fun _ => ?_
  · exact (readLists_spec hinj hst hb).conseq (fun _ h => h ▸ hm) (fun _ _ h => h) fun _ _ h => h
  · rintro _ _ rfl
    exact hm
  · refine .modify fun m hm => ⟨⟨hm.sound.db, hm.sound.lists.erase, hm.sound.diffs.erase,
      hm.sound.tip⟩, hm.evoDb, by simp⟩

end

end Manager

open Manager

/-! ### Runs -/

/-- A manager and the tip of the active chain. -/
structure Node where
  manager : Manager
  tip : BlockIndex

namespace BlockIndex

/-- The block and the blocks before it. -/
def ancestors : BlockIndex → List BlockIndex
  | genesis h => [genesis h]
  | child pprev h vtx => child pprev h vtx :: ancestors pprev

/-- What holds of a block and passes on to the parent holds of all blocks before it. -/
theorem ancestors_induction {P : BlockIndex → Prop} (h : a ∈ b.ancestors) (hb : P b)
    (hparent : ∀ {p h vtx}, P (child p h vtx) → P p) : P a := by
  induction b with
  | genesis g => exact mem_singleton.mp h ▸ hb
  | child p g vtx ih =>
    rcases mem_cons.mp h with rfl | h
    · exact hb
    · exact ih h (hparent hb)

theorem parent_mem_ancestors {p} (hb : child p h vtx ∈ b.ancestors) : p ∈ b.ancestors := by
  induction b with
  | genesis g => simp [ancestors] at hb
  | child q g txs ih =>
    refine mem_cons_of_mem _ ?_
    rcases mem_cons.mp hb with heq | hb
    · obtain ⟨rfl, -⟩ := child.inj heq
      cases p <;> simp [ancestors]
    · exact ih hb

theorem ancestors_trans {c : BlockIndex} (hab : a ∈ b.ancestors) (hbc : b ∈ c.ancestors) :
    a ∈ c.ancestors :=
  ancestors_induction hab hbc parent_mem_ancestors

theorem depth_le_of_mem_ancestors (h : a ∈ b.ancestors) : a.depth ≤ b.depth :=
  ancestors_induction (P := fun a => a.depth ≤ b.depth) h le_rfl (Nat.le_succ _).trans

/-- Two blocks of one chain are one and the same, or one is before the other. -/
theorem ancestors_total {t : BlockIndex} (ha : a ∈ t.ancestors) (hb : b ∈ t.ancestors) :
    a ∈ b.ancestors ∨ b ∈ a.ancestors := by
  induction t with
  | genesis g =>
    obtain rfl := mem_singleton.mp ha
    exact .inr hb
  | child p g vtx ih =>
    rcases mem_cons.mp ha, mem_cons.mp hb with ⟨rfl | ha', rfl | hb'⟩
    iterate 2 exact .inr hb
    · exact .inl ha
    · exact ih ha' hb'

end BlockIndex

namespace Node

open Manager

variable {env : ChainEnv}

def commit (m : Manager) : Manager := { m with evoDb := m.evoDb.commitCurTransaction }

def rollback (m : Manager) : Manager := { m with evoDb := m.evoDb.rollbackCurTransaction }

/-- **What may happen next** on a node of the block tree. A block is connected to the tip,
and the tip disconnected, in a transaction. -/
inductive Step (T : Manager.BlockTree env) : Node → Node → Prop
  | connect {n : Node} {h : Uint256} {vtx : List Transaction} {m : Manager} :
    T.mem (.child n.tip h vtx) →
    (processBlock env (.child n.tip h vtx) false).exec n.manager = (.ok (), m) →
    Step T n ⟨commit m, .child n.tip h vtx⟩
  /-- A block that is refused, here or by a later check. -/
  | connectFails {n : Node} {b : BlockIndex} :
    T.mem b → Step T n ⟨rollback ((processBlock env b false).exec n.manager).2, n.tip⟩
  | justCheck {n : Node} {b : BlockIndex} :
    T.mem b → Step T n ⟨rollback ((processBlock env b true).exec n.manager).2, n.tip⟩
  | disconnect {n : Node} {p : BlockIndex} {h : Uint256} {vtx : List Transaction} {m : Manager} :
    n.tip = .child p h vtx → (undoBlock env n.tip).exec n.manager = (.ok (), m) →
    Step T n ⟨commit m, p⟩
  | disconnectFails {n : Node} :
    Step T n ⟨rollback ((undoBlock env n.tip).exec n.manager).2, n.tip⟩
  | getListForBlock {n : Node} {b : BlockIndex} :
    T.mem b → Step T n ⟨((getListForBlock env b).exec n.manager).2, n.tip⟩
  | cleanupCache {n : Node} (nHeight : Int32) :
    Step T n ⟨n.manager.cleanupCache nHeight, n.tip⟩
  | updatedBlockTip {n : Node} {tip : Option BlockIndex} :
    (∀ b, tip = some b → T.mem b) → Step T n ⟨n.manager.updatedBlockTip tip, n.tip⟩
  | flush {n : Node} :
    Step T n ⟨{ n.manager with
      evoDb := n.manager.evoDb.commitRootTransaction env.traversal }, n.tip⟩

/-- The state between two steps: the differences of the active chain are stored, what is
stored and cached is right, and no transaction is open. -/
structure Consistent (T : Manager.BlockTree env) (n : Node) : Prop where
  sound : Manager.Sound T n.manager
  cur : n.manager.evoDb.cur = {}
  tip : T.mem n.tip
  stored : Stored env n.manager.evoDb n.tip

variable {T : Manager.BlockTree env} {n n' : Node}

theorem Consistent.searching (h : Consistent T n) :
    Searching T n.manager.evoDb [] n.manager := ⟨h.sound, rfl, by simp⟩

variable {db' : EvoDB}

theorem stored_mono (h : ∀ h, HasDiff db h → HasDiff db' h) (hb : Stored env db b)
    : Stored env db' b := by
  induction b with
  | genesis _ => trivial
  | child p hash vtx ih => exact ⟨fun henf => h _ (hb.1 henf), ih hb.2⟩

theorem stored_ancestor {tip} (hb : b ∈ tip.ancestors) (htip : T.mem tip)
    (hstored : Stored env db tip) : T.mem b ∧ Stored env db b :=
  BlockIndex.ancestors_induction (P := fun b => T.mem b ∧ Stored env db b) hb ⟨htip, hstored⟩
    fun h => ⟨T.parent h.1, h.2.2⟩

/-- What is in no open transaction stays stored. -/
theorem hasDiff_of_committed (hcur : db.cur = {}) (hroot : db'.root = db.root)
    (hdisk : db'.disk = db.disk) (hh : HasDiff db h) : HasDiff db' h := by
  rcases hh with hh | hh | hh
  · rw [hcur] at hh
    simp at hh
  · exact .inr (.inl (hroot ▸ hh))
  · exact .inr (.inr (hdisk ▸ hh))

theorem hasDiff_commit (hh : HasDiff db h) : HasDiff db.commitCurTransaction h := by
  rcases hh with hh | hh | hh
  · exact .inr (.inl (mem_union_iff.mpr (.inr hh)))
  · exact .inr (.inl (mem_union_iff.mpr (.inl hh)))
  · exact .inr (.inr hh)

theorem sound_commit (h : Manager.Sound T m) : Manager.Sound T (commit m) :=
  ⟨⟨.empty, ⟨h.db.root.snapshots.union h.db.cur.snapshots, h.db.root.diffs.union h.db.cur.diffs⟩,
    h.db.disk⟩, h.lists, h.diffs, h.tip⟩

/-- After a rollback the node is as consistent as before the transaction. -/
theorem Consistent.rollback (h : Consistent T n) (hm : InTransaction T n.manager.evoDb m)
    : Consistent T ⟨rollback m, n.tip⟩ where
  sound := ⟨⟨.empty, hm.sound.db.root, hm.sound.db.disk⟩, hm.sound.lists, hm.sound.diffs,
    hm.sound.tip⟩
  cur := rfl
  tip := h.tip
  stored := stored_mono (fun _ => hasDiff_of_committed h.cur
    (show (Node.rollback m).evoDb.root = n.manager.evoDb.root from hm.root) hm.disk) h.stored

theorem Consistent.commit (h : Consistent T n) (hm : InTransaction T n.manager.evoDb m)
    : Consistent T ⟨commit m, n.tip⟩ where
  sound := sound_commit hm.sound
  cur := rfl
  tip := h.tip
  stored := stored_mono (fun _ hh =>
    hasDiff_commit (hasDiff_of_committed h.cur hm.root hm.disk hh)) h.stored

theorem Consistent.flush (h : Consistent T n) : Consistent T ⟨{ n.manager with
    evoDb := n.manager.evoDb.commitRootTransaction env.traversal }, n.tip⟩ where
  sound := by
    obtain ⟨hcur, hroot, hdisk⟩ := h.sound.db
    refine ⟨⟨hcur, .empty, ⟨hdisk.snapshots.union (hroot.snapshots.map ?_),
      hdisk.diffs.union (hroot.diffs.map ?_)⟩⟩, h.sound.lists, h.sound.diffs, h.sound.tip⟩
    · exact fun k l hl => ⟨l, hl, rfl⟩
    · exact fun k diff hd => ⟨diff, hd, rfl⟩
  cur := h.cur
  tip := h.tip
  stored := by
    refine stored_mono ?_ h.stored
    rintro b (hb | hb | hb)
    · exact .inl hb
    · exact .inr (.inr (mem_union_iff.mpr (.inr (by simpa using hb))))
    · exact .inr (.inr (mem_union_iff.mpr (.inl hb)))

section
variable (hinj : Function.Injective env.serializeHash) (hst : T.Storable)
include hinj hst

/-- **Every step keeps the node consistent.** -/
theorem Consistent.step (h : Consistent T n) (hstep : Step T n n') : Consistent T n' := by
  cases hstep with
  | connect hb hrun =>
    obtain ⟨hm, hdiff⟩ := (processBlock_spec hinj hst hb false).ok h.searching hrun
    obtain ⟨hsound, hcur, -, hstored⟩ := h.commit hm
    exact ⟨hsound, hcur, hb, fun henf => hasDiff_commit (.inl (hdiff rfl henf)), hstored⟩
  | connectFails hb =>
    exact h.rollback ((processBlock_spec hinj hst hb false).state (fun _ _ h => h.1)
      (fun _ _ h => h) h.searching)
  | justCheck hb =>
    exact h.rollback ((processBlock_spec hinj hst hb true).state (fun _ _ h => h.1)
      (fun _ _ h => h) h.searching)
  | disconnect htip hrun =>
    have hm := (undoBlock_spec hinj hst h.tip).ok h.searching hrun
    obtain ⟨hsound, hcur, hmem, hstored⟩ := h.commit hm.inTransaction
    rw [htip] at hmem hstored
    exact ⟨hsound, hcur, T.parent hmem, hstored.2⟩
  | disconnectFails =>
    have hm := (undoBlock_spec hinj hst h.tip).state (fun _ _ h => h) (fun _ _ h => h) h.searching
    exact h.rollback hm.inTransaction
  | getListForBlock hb =>
    obtain ⟨hsound, hdb, -⟩ := (getListForBlock_spec hinj hst hb).state (fun _ _ h => h.1)
      (fun _ _ h => h.1) h.searching
    exact ⟨hsound, by rw [hdb, h.cur], h.tip, by rw [hdb]; exact h.stored⟩
  | cleanupCache nHeight =>
    exact ⟨(h.searching.inTransaction.cleanupCache nHeight).sound, h.cur, h.tip, h.stored⟩
  | updatedBlockTip htip =>
    exact ⟨⟨h.sound.db, h.sound.lists, h.sound.diffs, htip⟩, h.cur, h.tip, h.stored⟩
  | flush => exact h.flush

theorem Consistent.run (h : Consistent T n) (hrun : Relation.ReflTransGen (Step T) n n') :
    Consistent T n' := by
  induction hrun with
  | refl => exact h
  | tail _ hstep ih => exact ih.step hinj hst hstep

/-- The answers of a consistent node for its active chain. -/
theorem Consistent.answers (h : Consistent T n) (hb : b ∈ n.tip.ancestors) :
    T.mem b ∧ ∃ l m, (getListForBlock env b).exec n.manager = (.ok l, m) ∧
      foldList env b = .ok l := by
  obtain ⟨hmem, hstored⟩ := stored_ancestor hb h.tip h.stored
  refine ⟨hmem, ?_⟩
  rcases hexec : (getListForBlock env b).exec n.manager with ⟨e | l, m⟩
  · have hfail := (getListForBlock_spec hinj hst hmem).error h.searching hexec
    exact absurd hstored hfail.2
  · have hok := (getListForBlock_spec hinj hst hmem).ok h.searching hexec
    exact ⟨l, m, rfl, hok.2⟩

/-- **The manager answers the fold.** On a tree whose blocks are all storable, from any
consistent state and after any run, `GetListForBlock` returns for every block of the active
chain the fold of `BuildNewListFromBlock`. -/
theorem getListForBlock_run (h : Consistent T n) (hrun : Relation.ReflTransGen (Step T) n n')
    {b : BlockIndex} (hb : b ∈ n'.tip.ancestors) :
    ∃ l m, (getListForBlock env b).exec n'.manager = (.ok l, m) ∧ foldList env b = .ok l :=
  ((h.run hinj hst hrun).answers hinj hst hb).2

end

end Node

/-! ### A chain with a revoked masternode -/

open Manager

/-- The chain up to a block, as a tree. -/
def BlockIndex.tree {env : ChainEnv} (tip : BlockIndex)
    (hash_injective : ∀ a ∈ tip.ancestors, ∀ b ∈ tip.ancestors, a.blockHash = b.blockHash → a = b)
    (passes : ∀ b ∈ tip.ancestors, Passes env b)
    (chain : ∀ b ∈ tip.ancestors, HashesIdentify (chainTxs env b) ∧
      HashesNonNull (chainTxs env b) ∧ regCount (chainTxs env b) < 2 ^ 32) : Manager.BlockTree env where
  mem b := b ∈ tip.ancestors
  parent := parent_mem_ancestors
  hash_injective ha hb := hash_injective _ ha _ hb
  passes hb := passes _ hb
  identify hb := (chain _ hb).1
  nonNull hb := (chain _ hb).2.1
  count hb := (chain _ hb).2.2

theorem mem_tree {env : ChainEnv} {tip b : BlockIndex} {hinj hpass hchain}
    (hb : b ∈ tip.ancestors) : (@tip.tree env hinj hpass hchain).mem b :=
  hb

namespace Sample

/-- The network of the samples, with lists from the first block on. -/
def regtestChain : ChainEnv where
  toEnv := { regtest with isDIP3Enforced := fun h => decide (1 ≤ h) }
  nActivationHeight := 1
  activation_pos := by decide
  enforced_iff _ := rfl
  coinsAfter _ o := if o = ⟨2, 0⟩ then some ⟨100, p2pkh 4⟩ else none
  traversal l := l.members
  traversal_perm _ := .refl _

def genesisBlock : BlockIndex := .genesis 90
def registerBlock : BlockIndex := .child genesisBlock 100 [coinbase, register]
def spendBlock : BlockIndex := .child registerBlock 120 [coinbase, spend]
def revokeBlock : BlockIndex := .child registerBlock 110 [coinbase, revoke]
def rekeySpendBlock : BlockIndex := .child revokeBlock 120 [coinbase, rekey, spend]

def spendTree : Manager.BlockTree regtestChain :=
  spendBlock.tree (by decide +kernel) (by decide +kernel)
    (by unfold HashesIdentify HashesNonNull; decide +kernel)

def rekeySpendTree : Manager.BlockTree regtestChain :=
  rekeySpendBlock.tree (by decide +kernel) (by decide +kernel)
    (by unfold HashesIdentify HashesNonNull; decide +kernel)

/-- A node at the first block, with nothing stored. -/
def fresh : Node := ⟨{}, genesisBlock⟩

/-- The node after a block was connected. -/
def connected (n : Node) (h : Uint256) (vtx : List Transaction) : Node :=
  ⟨Node.commit ((processBlock regtestChain (.child n.tip h vtx) false).exec n.manager).2,
    .child n.tip h vtx⟩

variable {T : Manager.BlockTree regtestChain}

theorem fresh_consistent (h : T.mem genesisBlock) : Node.Consistent T fresh :=
  ⟨⟨⟨.empty, .empty, .empty, .empty⟩, .empty, .empty, by simp [fresh]⟩, rfl, h, trivial⟩

theorem step_connected {n} (hmem : T.mem (.child n.tip h vtx))
    (hok : ((processBlock regtestChain (.child n.tip h vtx) false).exec n.manager).1 = .ok ()) :
    Node.Step T n (connected n h vtx) :=
  .connect hmem (Prod.ext hok rfl)

def registeredNode : Node := connected fresh 100 [coinbase, register]
def spentNode : Node := connected registeredNode 120 [coinbase, spend]
def revokedNode : Node := connected registeredNode 110 [coinbase, revoke]
def rekeySpentNode : Node := connected revokedNode 120 [coinbase, rekey, spend]

theorem spentNode_run : Relation.ReflTransGen (Node.Step spendTree) fresh spentNode :=
  .tail (.single (step_connected (mem_tree (by decide +kernel)) (by decide +kernel)))
    (step_connected (mem_tree (by decide +kernel)) (by decide +kernel))

theorem rekeySpentNode_run :
    Relation.ReflTransGen (Node.Step rekeySpendTree) fresh rekeySpentNode :=
  .tail (.tail (.single (step_connected (mem_tree (by decide +kernel)) (by decide +kernel)))
      (step_connected (mem_tree (by decide +kernel)) (by decide +kernel)))
    (step_connected (mem_tree (by decide +kernel)) (by decide +kernel))

theorem spendTree_storable : spendTree.Storable := by
  have hall : ∀ b ∈ spendBlock.ancestors, StorableBlock regtestChain b := by decide +kernel
  exact fun {b} hb => hall b hb

/-- Register a further masternode, with keys and a collateral of its own. -/
def registerFurther (hash : Uint256) (k : KeyID) : Transaction :=
  { register with
    hash
    extraPayload := some (putProRegPL
      { collateralOutpoint := ⟨0, 0⟩, keyIDOwner := k, keyIDOperator := k + 1, keyIDVoting := k + 2,
        scriptPayout := p2pkh (k + 3), inputsHash := 0 })
    vout := [⟨100, p2pkh (k + 3)⟩]
    vout_lt := by simp }

/-- Spend the collateral of the further masternode. -/
def spendFurther : Transaction := { spend with hash := 21, vin := [⟨⟨20, 0⟩, []⟩] }

/-- A masternode is registered and spent in one block, and another one is registered in the
next. -/
def countLostNode : Node :=
  connected (connected registeredNode 130 [coinbase, registerFurther 20 50, spendFurther]) 140
    [coinbase, registerFurther 22 60]

end Sample

open Sample

/-- After the masternode was registered and spent, the list of the registration is answered. -/
theorem spentNode_getListForBlock :
    ∃ l m, (getListForBlock regtestChain registerBlock).exec spentNode.manager = (.ok l, m) ∧
      foldList regtestChain registerBlock = .ok l :=
  Node.getListForBlock_run UniqueProperty.numbering_injective spendTree_storable
    (fresh_consistent (mem_tree (by decide +kernel))) spentNode_run (by decide +kernel)

/-- **The node cannot answer for its own tip**: the revoked masternode got a new key and was
spent in the block of the tip, that was connected without an error. -/
theorem rekeySpentNode_aborts : Node.Consistent rekeySpendTree fresh ∧
    Relation.ReflTransGen (Node.Step rekeySpendTree) fresh rekeySpentNode ∧
    (foldList regtestChain rekeySpentNode.tip).isOk = true ∧
    ((getListForBlock regtestChain rekeySpentNode.tip).exec
      rekeySpentNode.manager).1 = .error (.abort "oldValue != nullValue") :=
  ⟨fresh_consistent (mem_tree (by decide +kernel)), rekeySpentNode_run, by decide +kernel, by decide +kernel⟩

/-- A registration that does not outlive its block is not in the difference. The counter is
then lost, and the next masternode gets another internal id than in the fold. -/
example :
    (foldList regtestChain countLostNode.tip).map
      (fun l => l.members.map (·.internalId)) = .ok [0, 2] ∧
    ((getListForBlock regtestChain countLostNode.tip).exec
      countLostNode.manager).1.map (fun l => l.members.map (·.internalId)) = .ok [0, 1] := by
  decide +kernel

end KmushiCoin
