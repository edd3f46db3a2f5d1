import KmushiCoin.Lib.Overlay
import KmushiCoin.Primitives.Transaction

/-!
# KmushiCoin.Db.Transaction

**Database transactions** (`CDBTransaction`): pending writes and deletes over a parent, which is
another transaction or the database.

* A pending write holds the value with the C++ type it was written as; a read at another type
  throws. The database holds bytes, and a read at any type decodes them.
* `Commit` erases and writes in the parent. For the transaction over the database it fills a batch,
  which is then written (`CommitRootTransaction`); the model takes these two steps as one. The two
  transactions of `CEvoDB` are a stack of two: `CommitCurTransaction` commits at depth zero,
  `RollbackCurTransaction` clears there, `CommitRootTransaction` commits at depth one.
* The abstract model is a stack of overlays (`Overlay.Stack`). `DbStack.overlays_run` says that the
  transactions refine it along every sequence of operations. This needs that no key is both
  written and deleted in one transaction, which `DbStack.AllDisjoint.run` states.

Keys are serialized keys, in any linear order; the source compares their bytes. The bookkeeping of
memory usage is left out.
-/

namespace KmushiCoin

open Overlay FMap List

open Codec (Bytes)

/-- The **value types** of a database. What a type writes, it reads back. -/
structure ValueTypes where
  Ty : Type
  decEq : DecidableEq Ty
  Val : Ty → Type
  serialize : {ty : Ty} → Val ty → Bytes
  /-- `none` if reading throws. -/
  unserialize : (ty : Ty) → Bytes → Option (Val ty)
  unserialize_serialize : ∀ {ty} (v : Val ty), unserialize ty (serialize v) = some v

instance (T : ValueTypes) : DecidableEq T.Ty := T.decEq

variable {T : ValueTypes} {Key : Type}

/-- `ValueHolder`: a value with its type. -/
structure Held (T : ValueTypes) where
  ty : T.Ty
  value : T.Val ty

/-- What a key has: a pending value, or the bytes in the database. -/
inductive Cell (T : ValueTypes)
  | held (h : Held T)
  | raw (bytes : Bytes)

/-- Read the value at a type. -/
def Cell.read (ty : T.Ty) : Cell T → Outcome (Option (T.Val ty))
  | .held h =>
    if hty : h.ty = ty then .ok (some (hty ▸ h.value))
    else .error (.throw "Read called with V != previously written type")
  | .raw bytes => .ok (T.unserialize ty bytes)

/-- The form a value has in the database. -/
def Cell.settle : Cell T → Cell T
  | .held h => .raw (T.serialize h.value)
  | .raw bytes => .raw bytes

/-- A read that returns is the same once the value is in the database. -/
theorem Cell.read_settle {ty : T.Ty} {c : Cell T} {r : Option (T.Val ty)} (h : c.read ty = .ok r) :
    c.settle.read ty = .ok r := by
  cases c with
  | raw bytes => exact h
  | held held =>
    obtain ⟨ty', value⟩ := held
    simp only [Cell.read] at h
    split at h
    · next hty =>
      subst hty
      rw [← h]
      exact congrArg Except.ok (T.unserialize_serialize value)
    · cases h

variable [LinearOrder Key]

instance transOrd_key : Std.TransOrd Key := inferInstance

local instance isTrans_key : IsTrans Key (· ≤ ·) := inferInstance

local instance antisymm_key : @Std.Antisymm Key (· ≤ ·) := inferInstance

/-- `CDBTransaction`: the pending writes and deletes. -/
structure DbTransaction (T : ValueTypes) (Key : Type) [LinearOrder Key] where
  writes : FMap Key (Held T)
  deletes : Finset Key

/-- `CDBWrapper`: the entries of the database. -/
abbrev Database (Key : Type) [LinearOrder Key] : Type := FMap Key Bytes

/-- An operation of a `CDBBatch`. -/
inductive BatchOp (Key : Type)
  | put (key : Key) (value : Bytes)
  | delete (key : Key)

def Database.writeBatch (db : Database Key) (batch : List (BatchOp Key)) : Database Key :=
  batch.foldl (fun db op => match op with
    | .put key value => db.insert key value
    | .delete key => db.erase key) db

namespace DbTransaction

def empty : DbTransaction T Key := ⟨∅, ∅⟩

def write (key : Key) (v : Held T) (t : DbTransaction T Key) : DbTransaction T Key :=
  ⟨t.writes.insert key v, t.deletes.erase key⟩

def erase (key : Key) (t : DbTransaction T Key) : DbTransaction T Key :=
  ⟨t.writes.erase key, insert key t.deletes⟩

/-- `Commit` into a parent transaction: first the deletes, then the writes. -/
def commitInto (t parent : DbTransaction T Key) : DbTransaction T Key :=
  t.writes.toList.foldl (fun p e => p.write e.1 e.2)
    ((t.deletes.sort (· ≤ ·)).foldl (fun p key => p.erase key) parent)

/-- `Commit` into a batch. -/
def commitBatch (t : DbTransaction T Key) : List (BatchOp Key) :=
  (t.deletes.sort (· ≤ ·)).map .delete ++
    t.writes.toList.map fun e => .put e.1 (T.serialize e.2.value)

end DbTransaction

open DbTransaction

/-- Transactions over a database; the first one is the innermost. -/
structure DbStack (T : ValueTypes) (Key : Type) [LinearOrder Key] where
  layers : List (DbTransaction T Key)
  db : Database Key

namespace DbStack

/-- Read through the given transactions. -/
def readFrom (db : Database Key) (ty : T.Ty) (key : Key) :
    List (DbTransaction T Key) → Outcome (Option (T.Val ty))
  | [] => .ok (db[key]?.bind (T.unserialize ty))
  | t :: parents =>
    if key ∈ t.deletes then .ok none
    else match t.writes[key]? with
      | some h => Cell.read ty (.held h)
      | none => readFrom db ty key parents

def existsFrom (db : Database Key) (key : Key) : List (DbTransaction T Key) → Bool
  | [] => db[key]?.isSome
  | t :: parents =>
    if key ∈ t.deletes then false
    else if t.writes[key]?.isSome then true
    else existsFrom db key parents

/-- `Read` on the transaction at a depth; at the depth of the database, its own `Read`. -/
def read (s : DbStack T Key) (depth : Nat) (ty : T.Ty) (key : Key) : Outcome (Option (T.Val ty)) :=
  readFrom s.db ty key (s.layers.drop depth)

/-- `Exists` on the transaction at a depth. -/
def «exists» (s : DbStack T Key) (depth : Nat) (key : Key) : Bool :=
  existsFrom s.db key (s.layers.drop depth)

/-- The operations that change the state. -/
inductive Op (T : ValueTypes) (Key : Type)
  | write (depth : Nat) (key : Key) (v : Held T)
  | erase (depth : Nat) (key : Key)
  | commit (depth : Nat)
  | clear (depth : Nat)

def modifyAt (depth : Nat) (f : DbTransaction T Key → DbTransaction T Key) (s : DbStack T Key) :
    DbStack T Key :=
  { s with layers := s.layers.modify depth f }

def commit (depth : Nat) (s : DbStack T Key) : DbStack T Key :=
  let r := commitAt empty commitInto
    (fun t db => db.writeBatch t.commitBatch) depth s.layers s.db
  ⟨r.1, r.2⟩

def step (s : DbStack T Key) : Op T Key → DbStack T Key
  | .write depth key v => s.modifyAt depth (·.write key v)
  | .erase depth key => s.modifyAt depth (·.erase key)
  | .commit depth => s.commit depth
  | .clear depth => s.modifyAt depth fun _ => .empty

/-- `n` empty transactions over a database. -/
def start (n : Nat) (db : Database Key) : DbStack T Key := ⟨replicate n .empty, db⟩

def run (s : DbStack T Key) (ops : List (Op T Key)) : DbStack T Key := ops.foldl step s

end DbStack

/-! ### The abstract model -/

/-- What a transaction says about a key. -/
def DbTransaction.layer (t : DbTransaction T Key) : Layer Key (Cell T) := fun key =>
  if key ∈ t.deletes then some none else t.writes[key]?.map fun h => some (.held h)

def Database.view (db : Database Key) : Key → Option (Cell T) := fun key => db[key]?.map .raw

def DbStack.overlays (s : DbStack T Key) : Stack Key (Cell T) :=
  ⟨s.layers.map layer, s.db.view⟩

/-- The operations on overlays. -/
def overlayStep (s : Stack Key (Cell T)) : DbStack.Op T Key → Stack Key (Cell T)
  | .write depth key v => s.modifyAt depth (say key (some (.held v)))
  | .erase depth key => s.modifyAt depth (say key none)
  | .commit depth => s.commit Cell.settle depth
  | .clear depth => s.modifyAt depth fun _ => nothing

def overlayRun (s : Stack Key (Cell T)) (ops : List (DbStack.Op T Key)) :
    Stack Key (Cell T) :=
  ops.foldl overlayStep s

/-! ### One transaction -/

variable {t : DbTransaction T Key} {l : List (Key × Held T)}

namespace DbTransaction

/-- No key is both written and deleted. -/
def Disjoint (t : DbTransaction T Key) : Prop := ∀ key ∈ t.deletes, t.writes[key]? = none

theorem disjoint_empty : (empty : DbTransaction T Key).Disjoint := by simp [Disjoint, empty]

theorem Disjoint.write (h : t.Disjoint) (key : Key) (v : Held T) : (t.write key v).Disjoint := by
  intro k hk
  obtain ⟨hne, hk⟩ := Finset.mem_erase.mp hk
  show (t.writes.insert key v)[k]? = none
  rw [get_insert_ne (Ne.symm hne), h k hk]

theorem Disjoint.erase (h : t.Disjoint) (key : Key) : (t.erase key).Disjoint := by
  intro k hk
  show (t.writes.erase key)[k]? = none
  rcases Finset.mem_insert.mp hk with rfl | hk
  · exact get_erase_self _ _
  · rw [get_erase]
    split
    · rfl
    · exact h k hk

@[simp] theorem layer_empty : (empty : DbTransaction T Key).layer = nothing := by
  funext k
  simp [layer, empty, nothing]

theorem layer_write (t : DbTransaction T Key) (key : Key) (v : Held T) :
    (t.write key v).layer = say key (some (.held v)) t.layer := by
  funext k
  by_cases hk : k = key
  · subst hk
    simp [layer, write, say]
  · have hne : key ≠ k := fun h => hk h.symm
    simp [layer, write, say, hk, get_insert_ne hne]

theorem layer_erase (t : DbTransaction T Key) (key : Key) :
    (t.erase key).layer = say key none t.layer := by
  funext k
  by_cases hk : k = key
  · subst hk
    simp [layer, erase, say]
  · have hne : key ≠ k := fun h => hk h.symm
    simp [layer, erase, say, hk, get_erase_ne hne]

variable {p : DbTransaction T Key}

theorem foldl_erase (l : List Key) :
    (p.Disjoint → (l.foldl (fun p key => p.erase key) p).Disjoint) ∧
      (l.foldl (fun p key => p.erase key) p).layer =
        fun k => if k ∈ l then some none else p.layer k := by
  induction l generalizing p with
  | nil => exact ⟨id, by simp⟩
  | cons key l ih =>
    obtain ⟨hdisj, hlayer⟩ := ih (p := p.erase key)
    refine ⟨fun h => hdisj (h.erase key), ?_⟩
    rw [foldl_cons, hlayer, layer_erase]
    funext k
    by_cases hk : k = key
    · subst hk
      simp [say]
    · simp [say, hk]

theorem foldl_write (hnodup : (l.map Prod.fst).Nodup) :
    (p.Disjoint → (l.foldl (fun p e => p.write e.1 e.2) p).Disjoint) ∧
      (l.foldl (fun p e => p.write e.1 e.2) p).layer = fun k => match l.lookup k with
          | some v => some (some (.held v))
          | none => p.layer k := by
  induction l generalizing p with
  | nil => exact ⟨id, by simp⟩
  | cons e l ih =>
    obtain ⟨key, v⟩ := e
    rw [map_cons, nodup_cons] at hnodup
    obtain ⟨hdisj, hlayer⟩ := ih (p := p.write key v) hnodup.2
    refine ⟨fun h => hdisj (h.write key v), ?_⟩
    rw [foldl_cons, hlayer, layer_write]
    funext k
    by_cases hk : k = key
    · subst hk
      have hnone : l.lookup k = none :=
        lookup_none_of_nodup (nodup_cons.mpr hnodup : (((k, v) :: l).map Prod.fst).Nodup)
      simp [hnone, say]
    · have hb : (k == key) = false := by simpa using hk
      simp [say, hk, lookup_cons, hb]

/-- Committing into a parent lays the transaction onto it. -/
theorem layer_commitInto (h : t.Disjoint) (p : DbTransaction T Key) :
    (t.commitInto p).layer = onto t.layer p.layer := by
  rw [commitInto, (foldl_write (nodup_keys t.writes)).2, (foldl_erase _).2]
  funext k
  rw [lookup_toList, onto, layer]
  by_cases hk : k ∈ t.deletes
  · simp [h k hk, hk]
  · cases hw : t.writes[k]? <;> simp [hk]

theorem Disjoint.commitInto (t : DbTransaction T Key) (h : p.Disjoint) :
    (t.commitInto p).Disjoint :=
  (foldl_write (nodup_keys t.writes)).1 ((foldl_erase _).1 h)

end DbTransaction

/-! ### The database -/

namespace Database

theorem view_writeBatch_append (db : Database Key) (b b' : List (BatchOp Key)) :
    db.writeBatch (b ++ b') = (db.writeBatch b).writeBatch b' :=
  foldl_append

theorem get_writeBatch_deletes (db : Database Key) (l : List Key) (k : Key) :
    (db.writeBatch (l.map .delete))[k]? = if k ∈ l then none else db[k]? := by
  rw [writeBatch, foldl_map]
  exact get_foldl_erase db l k

theorem get_writeBatch_puts (db : Database Key) (hnodup : (l.map Prod.fst).Nodup) (k : Key) :
    (db.writeBatch (l.map fun e => .put e.1 (T.serialize e.2.value)))[k]? =
      match l.lookup k with
      | none => db[k]?
      | some v => some (T.serialize v.value) := by
  have hwritten := get_foldl_alter (fun _ _ v => some (T.serialize v.value)) hnodup db k
  simp only [alter_some] at hwritten
  rw [writeBatch, foldl_map, hwritten]
  cases lookup k l <;> rfl

/-- Writing the batch of a transaction lays its settled values over the database. -/
theorem view_writeBatch (h : t.Disjoint) (db : Database Key) :
    (db.writeBatch t.commitBatch).view = settleOver Cell.settle t.layer db.view := by
  funext k
  unfold view commitBatch settleOver layer
  rw [view_writeBatch_append, get_writeBatch_puts _ (nodup_keys t.writes),
    get_writeBatch_deletes, lookup_toList]
  by_cases hk : k ∈ t.deletes
  · simp [h k hk, hk]
  · cases hw : t.writes[k]? <;> simp [hk, Cell.settle]

end Database

/-! ### The stack -/

namespace DbStack

/-- Every transaction keeps its writes and deletes apart. -/
def AllDisjoint (s : DbStack T Key) : Prop := ∀ t ∈ s.layers, t.Disjoint

theorem forall_mem_modify {α : Type} {P : α → Prop} {f : α → α} (hf : ∀ a, P a → P (f a))
    {l : List α} (h : ∀ a ∈ l, P a) (i : Nat) : ∀ a ∈ l.modify i f, P a := by
  induction l generalizing i with
  | nil => simp
  | cons b l ih =>
    rw [forall_mem_cons] at h
    cases i with
    | zero => simpa using ⟨hf b h.1, h.2⟩
    | succ i => simpa using ⟨h.1, ih h.2 i⟩

variable {s : DbStack T Key}

theorem AllDisjoint.step (h : s.AllDisjoint) (op : Op T Key) : (s.step op).AllDisjoint := by
  cases op with
  | write depth key v => exact forall_mem_modify (fun t ht => ht.write key v) h depth
  | erase depth key => exact forall_mem_modify (fun t ht => ht.erase key) h depth
  | clear depth => exact forall_mem_modify (fun _ _ => disjoint_empty) h depth
  | commit depth =>
    exact commitAt_forall disjoint_empty (fun t p _ hp => hp.commitInto t) h depth s.db

theorem allDisjoint_start (n : Nat) (db : Database Key) : (start n db : DbStack T Key).AllDisjoint := by
  intro t ht
  rw [eq_of_mem_replicate ht]
  exact disjoint_empty

/-- **Writes and deletes stay disjoint.** -/
theorem AllDisjoint.run (h : s.AllDisjoint) (ops : List (Op T Key)) : (s.run ops).AllDisjoint := by
  induction ops generalizing s with
  | nil => exact h
  | cons op ops ih => exact ih (h.step op)

theorem overlays_modifyAt (s : DbStack T Key) (depth : Nat)
    {f : DbTransaction T Key → DbTransaction T Key} {g : Layer Key (Cell T) → Layer Key (Cell T)}
    (h : ∀ t, (f t).layer = g t.layer) :
    (s.modifyAt depth f).overlays = s.overlays.modifyAt depth g := by
  have hlayers : ∀ (l : List (DbTransaction T Key)) (i : Nat),
      (l.modify i f).map layer = (l.map layer).modify i g := by
    intro l
    induction l with
    | nil => simp
    | cons t l ih =>
      intro i
      cases i with
      | zero => simp [h]
      | succ i => simp [ih]
  unfold overlays modifyAt Stack.modifyAt
  rw [hlayers]

/-- **One operation refines** the operation on overlays. -/
theorem overlays_step (h : s.AllDisjoint) (op : Op T Key) :
    (s.step op).overlays = overlayStep s.overlays op := by
  cases op with
  | write depth key v => exact s.overlays_modifyAt depth fun t => t.layer_write key v
  | erase depth key => exact s.overlays_modifyAt depth fun t => t.layer_erase key
  | clear depth => exact s.overlays_modifyAt depth fun _ => layer_empty
  | commit depth =>
    have hmap := commitAt_map (g := Database.view (T := T)) layer_empty
      (fun t ht p => layer_commitInto (h t ht) p)
      (fun t ht db => Database.view_writeBatch (h t ht) db) depth s.db
    simp only [overlayStep, Stack.commit, overlays, step, commit, hmap]

/-- **Every run refines** the run on overlays. -/
theorem overlays_run (h : s.AllDisjoint) (ops : List (Op T Key)) :
    (s.run ops).overlays = overlayRun s.overlays ops := by
  induction ops generalizing s with
  | nil => rfl
  | cons op ops ih =>
    show ((s.step op).run ops).overlays = overlayRun (overlayStep s.overlays op) ops
    rw [ih (h.step op), overlays_step h]

/-- The value that a lookup in overlays gives at a type. -/
def readCell (ty : T.Ty) : Option (Cell T) → Outcome (Option (T.Val ty))
  | none => .ok none
  | some c => c.read ty

/-- `Read` is a lookup in the overlays. -/
theorem read_eq (s : DbStack T Key) (depth : Nat) (ty : T.Ty) (key : Key) :
    s.read depth ty key = readCell ty (s.overlays.view depth key) := by
  unfold read Stack.view overlays
  rw [← map_drop]
  generalize s.layers.drop depth = layers
  induction layers with
  | nil =>
    show _ = readCell ty (s.db[key]?.map .raw)
    cases hdb : s.db[key]? <;> simp [readFrom, hdb, readCell, Cell.read]
  | cons t parents ih =>
    by_cases hk : key ∈ t.deletes
    · simp [readFrom, hk, seen, layer, readCell]
    · cases hw : t.writes[key]? with
      | none => simpa [readFrom, hk, hw, seen, layer] using ih
      | some v => simp [readFrom, hk, hw, seen, layer, readCell]

/-- `Exists` is a lookup in the overlays. -/
theorem exists_eq (s : DbStack T Key) (depth : Nat) (key : Key) :
    s.exists depth key = (s.overlays.view depth key).isSome := by
  unfold «exists» Stack.view overlays
  rw [← map_drop]
  generalize s.layers.drop depth = layers
  induction layers with
  | nil =>
    show _ = (s.db[key]?.map Cell.raw).isSome
    simp [existsFrom]
  | cons t parents ih =>
    by_cases hk : key ∈ t.deletes
    · simp [existsFrom, hk, seen, layer]
    · cases hw : t.writes[key]? with
      | none => simpa [existsFrom, hk, hw, seen, layer] using ih
      | some v => simp [existsFrom, hk, hw, seen, layer]

end DbStack

end KmushiCoin
