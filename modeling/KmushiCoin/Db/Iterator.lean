import KmushiCoin.Db.Transaction
import KmushiCoin.Lib.Cursor

/-!
# KmushiCoin.Db.Iterator

**Iterators** (`CDBTransactionIterator`): the keys of a transaction and of its parent, merged.

An iterator of a transaction has two cursors, one over its pending writes and one over the parent.
At each time one of them is the current one: the one with the smaller key. Keys of the parent that
the transaction deletes or overwrites are skipped. Since the parent's iterator is a parameter of
the class, the model builds a `Cursor` from a `Cursor`; a pass over the pending writes is the list
of the keys still to come.

* `TxIterator.shows`: from a decided state the iterator shows the merge of its two cursors.
* `DbStack.newIterator_enumerates`: over any stack it enumerates the keys that exist.
* `DbStack.transactions_refine_overlays` collects the results on transactions.
-/

namespace KmushiCoin

open Overlay List

variable {T : ValueTypes} {Key : Type} [LinearOrder Key]

/-! ### Keys in order -/

/-- The keys from a start on: all of them, or those that `lower_bound` leaves. -/
def keysFrom (start : Option Key) (keys : List Key) : List Key :=
  match start with
  | none => keys
  | some key => keys.dropWhile (· < key)

theorem pairwise_keys {V : Type} (m : FMap Key V) : m.keys.Pairwise (· < ·) :=
  (Std.ExtTreeMap.ordered_keys (t := m)).imp fun h => compare_lt_iff_lt.mp h

variable {k : Key} {l : List Key}

theorem mem_keys {V : Type} {m : FMap Key V} : k ∈ m.keys ↔ m[k]?.isSome := by
  rw [Std.ExtTreeMap.mem_keys, Std.ExtTreeMap.isSome_getElem?_iff_mem]

theorem pairwise_keysFrom (start : Option Key) (hl : l.Pairwise (· < ·)) :
    (keysFrom start l).Pairwise (· < ·) := by
  cases start with
  | none => exact hl
  | some a => exact hl.sublist (dropWhile_sublist _)

theorem mem_keysFrom (start : Option Key) (hl : l.Pairwise (· < ·)) :
    k ∈ keysFrom start l ↔ k ∈ l ∧ ∀ a ∈ start, a ≤ k := by
  cases start with
  | none => simp [keysFrom]
  | some a => simpa [keysFrom] using mem_dropWhile_lt hl

/-! ### The iterators -/

/-- `CDBIterator`: the database's own iterator, over its keys in order. -/
def Database.newIterator [Inhabited Key] (db : Database Key) : Cursor Failure Key where
  State := List Key
  new := []
  seek := fun start _ => .ok (keysFrom start db.keys)
  valid := fun it => !it.isEmpty
  key := fun it => it.headD default
  next := fun it => .ok it.tail
  left := length

/-- `CDBTransactionIterator`, for a parent whose iterator has the states `P`. -/
structure TxIterator (Key P : Type) where
  transactionIt : List Key
  parentIt : P
  parentKey : Key
  curIsParent : Bool

namespace TxIterator

variable (t : DbTransaction T Key) (parent : Cursor Failure Key)

/-- The parent's key is deleted or overwritten in the transaction. -/
def shadowed (key : Key) : Bool := decide (key ∈ t.deletes) || t.writes[key]?.isSome

def skipDeletedAndOverwritten (it : TxIterator Key parent.State) :
    Outcome (TxIterator Key parent.State) := do
  let r ← parent.skipWhile (shadowed t) (parent.left it.parentIt) it.parentIt it.parentKey
  pure { it with parentIt := r.1, parentKey := r.2 }

def decideCur (it : TxIterator Key parent.State) : TxIterator Key parent.State :=
  match it.transactionIt, parent.valid it.parentIt with
  | _ :: _, false => { it with curIsParent := false }
  | [], true => { it with curIsParent := true }
  | key :: _, true => { it with curIsParent := !decide (key < it.parentKey) }
  | [], false => it

def valid (it : TxIterator Key parent.State) : Bool :=
  !it.transactionIt.isEmpty || parent.valid it.parentIt

/-- `SeekToFirst` without a start, `Seek` with one. -/
def seek (start : Option Key) (it : TxIterator Key parent.State) :
    Outcome (TxIterator Key parent.State) := do
  let parentIt ← parent.seek start it.parentIt
  let it ← skipDeletedAndOverwritten t parent
    { it with transactionIt := keysFrom start t.writes.keys, parentIt }
  pure (decideCur parent it)

def next (it : TxIterator Key parent.State) : Outcome (TxIterator Key parent.State) :=
  if it.transactionIt.isEmpty && !parent.valid it.parentIt then .ok it
  else if it.curIsParent then do
    assert (parent.valid it.parentIt) "parentIt->Valid()"
    let parentIt ← parent.next it.parentIt
    let it ← skipDeletedAndOverwritten t parent { it with parentIt }
    pure (decideCur parent it)
  else do
    assert (!it.transactionIt.isEmpty) "transactionIt != transaction.writes.end()"
    pure (decideCur parent { it with transactionIt := it.transactionIt.tail })

/-- `GetKey`; the empty key if there is none. -/
def getKey [Inhabited Key] (it : TxIterator Key parent.State) : Key :=
  if !valid parent it then default
  else if it.curIsParent then parent.key it.parentIt
  else it.transactionIt.headD default

end TxIterator

open TxIterator

/-- The iterator of a transaction, from that of its parent. -/
def DbTransaction.newIterator [Inhabited Key] (t : DbTransaction T Key) (parent : Cursor Failure Key) :
    Cursor Failure Key where
  State := TxIterator Key parent.State
  new := ⟨[], parent.new, default, false⟩
  seek := seek t parent
  valid := valid parent
  key := getKey parent
  next := next t parent
  left := fun it => it.transactionIt.length + parent.left it.parentIt

def DbStack.newIteratorFrom [Inhabited Key] (db : Database Key) :
    List (DbTransaction T Key) → Cursor Failure Key
  | [] => db.newIterator
  | t :: parents => t.newIterator (newIteratorFrom db parents)

/-- `NewIterator` on the transaction at a depth. -/
def DbStack.newIterator [Inhabited Key] (s : DbStack T Key) (depth : Nat) : Cursor Failure Key :=
  newIteratorFrom s.db (s.layers.drop depth)

/-! ### The database -/

theorem Database.shows [Inhabited Key] (db : Database Key) (l : List Key) : db.newIterator.Shows l l := by
  induction l with
  | nil => exact .done rfl
  | cons k l ih => exact .here rfl rfl (Nat.lt_succ_self _) rfl ih

theorem Database.newIterator_enumerates [Inhabited Key] (db : Database Key) :
    db.newIterator.Enumerates fun k => db[k]?.isSome := by
  intro start it
  refine ⟨_, keysFrom start db.keys, rfl, db.shows _, pairwise_keysFrom start (pairwise_keys db),
    fun k => ?_⟩
  rw [mem_keysFrom start (pairwise_keys db), mem_keys]

/-! ### One transaction -/

namespace TxIterator

variable {t : DbTransaction T Key} {parent : Cursor Failure Key}

/-- A **decided** state: the parent's cursor shows `l`, whose first key is not shadowed and is the
one on record, and the current cursor is the one with the smaller key. -/
structure Decided (t : DbTransaction T Key) (parent : Cursor Failure Key) (l : List Key)
    (it : TxIterator Key parent.State) : Prop where
  shows : parent.Shows l it.parentIt
  live : ∀ k ∈ l.head?, shadowed t k = false ∧ it.parentKey = k
  cur : decideCur parent it = it

variable (it : TxIterator Key parent.State)

@[simp] theorem decideCur_fields : (decideCur parent it).transactionIt = it.transactionIt ∧
      (decideCur parent it).parentIt = it.parentIt ∧
      (decideCur parent it).parentKey = it.parentKey := by
  unfold decideCur
  split <;> simp

theorem decideCur_decideCur : decideCur parent (decideCur parent it) = decideCur parent it := by
  obtain ⟨transactionIt, parentIt, parentKey, curIsParent⟩ := it
  cases transactionIt <;> cases hv : parent.valid parentIt <;> simp [decideCur, hv]

/-- Skipping leads to the first key that is not shadowed. -/
theorem skip_decided (h : parent.Shows l it.parentIt) :
    ∃ it', skipDeletedAndOverwritten t parent it = .ok it' ∧ it'.transactionIt = it.transactionIt ∧
      Decided t parent (l.dropWhile (shadowed t)) (decideCur parent it') := by
  obtain ⟨p, key, hrun, hshow, hhead⟩ :=
    Cursor.skipWhile_shows (shadowed t) h h.length_le it.parentKey
  refine ⟨{ it with parentIt := p, parentKey := key }, ?_, rfl, ?_, ?_, decideCur_decideCur _⟩
  · rw [skipDeletedAndOverwritten, hrun]
    rfl
  · simpa using hshow
  · intro k hk
    have hlive := head?_dropWhile_not (shadowed t) l
    rw [Option.mem_def.mp hk] at hlive
    exact ⟨by simpa using hlive, by simpa using hhead k hk⟩

variable {a b : Key} {A : List Key} {it}

theorem next_parent {it'} {p}
    (hvalid : parent.valid it.parentIt = true) (hcur : it.curIsParent = true)
    (hnext : parent.next it.parentIt = .ok p)
    (hskip : skipDeletedAndOverwritten t parent { it with parentIt := p } = .ok it') :
    next t parent it = .ok (decideCur parent it') := by
  rw [next, if_neg (by simp [hvalid]), if_pos hcur, hvalid, hnext]
  show (skipDeletedAndOverwritten t parent { it with parentIt := p } >>=
    fun it => pure (decideCur parent it)) = _
  rw [hskip]
  rfl

/-- The parent's cursor is current exactly if its key is smaller, or it alone has one. -/
theorem Decided.curIsParent_eq (h : Decided t parent l it) (hit : it.transactionIt = a :: A) :
    it.curIsParent = l.head?.any fun b => !decide (a < b) := by
  have hcur := congrArg curIsParent h.cur
  cases hl : h.shows with
  | done hend => simpa [decideCur, hit, hend] using hcur.symm
  | here hvalid hkey hleft hnext hrest =>
    have hk := (h.live _ rfl).2
    simpa [decideCur, hit, hvalid, hk] using hcur.symm

/-- The parent's cursor is current if the pending keys are at their end. -/
theorem Decided.curIsParent_end (h : Decided t parent (b :: l) it) (hit : it.transactionIt = [])
    : it.curIsParent = true := by
  have hcur := congrArg curIsParent h.cur
  cases hl : h.shows with
  | here hvalid hkey hleft hnext hrest => simpa [decideCur, hit, hvalid] using hcur.symm

/-- What the iterator still shows. -/
def merged (t : DbTransaction T Key) (A l : List Key) : List Key :=
  A.merge (l.filter fun k => !shadowed t k) fun a b => a ≤ b

theorem length_merged_le (A l : List Key) : (merged t A l).length ≤ A.length + l.length := by
  rw [merged, length_merge]
  exact Nat.add_le_add_left (length_filter_le _ _) _

section Shows

variable [Inhabited Key]

/-- The step over a pending key. -/
theorem shows_own (h : Decided t parent l it) (hit : it.transactionIt = a :: A)
    (hcur : it.curIsParent = false)
    (hrest : (t.newIterator parent).Shows (merged t A l) (decideCur parent { it with transactionIt := A })) :
    (t.newIterator parent).Shows (a :: merged t A l) it := by
  have hlen := length_merged_le (t := t) A l
  have hleft := h.shows.length_le
  refine .here ?_ ?_ ?_ (by simp [DbTransaction.newIterator, next, hit, hcur, assert]) hrest
  · show valid parent it = true
    simp [valid, hit]
  · show getKey parent it = a
    simp [getKey, valid, hit, hcur]
  · show _ < it.transactionIt.length + parent.left it.parentIt
    rw [hit, length_cons]
    omega

/-- The step over a key of the parent. -/
theorem shows_parent {rest} (h : Decided t parent (b :: l) it)
    (hcur : it.curIsParent = true) (hlen : rest.length ≤ it.transactionIt.length + l.length)
    (hrest : ∀ it', it'.transactionIt = it.transactionIt → Decided t parent (l.dropWhile (shadowed t)) it' → (t.newIterator parent).Shows rest it') :
    (t.newIterator parent).Shows (b :: rest) it := by
  have hleft := h.shows.length_le
  cases hl : h.shows with
  | @here _ p _ _ hvalid hkey _ hnext hshow =>
    obtain ⟨it', hskip, hit', hdec⟩ := skip_decided (t := t) { it with parentIt := p } hshow
    refine .here ?_ ?_ ?_ (next_parent hvalid hcur hnext hskip) (hrest _ (by simpa using hit') hdec)
    · show valid parent it = true
      simp [valid, hvalid]
    · show getKey parent it = b
      simp [getKey, valid, hvalid, hcur, hkey]
    · show _ < it.transactionIt.length + parent.left it.parentIt
      rw [length_cons] at hleft
      omega

/-- **An iterator shows the merge** of the pending keys and of the parent's keys that are neither
deleted nor overwritten. -/
theorem shows (h : Decided t parent l it) (hit : it.transactionIt = A)
    (hA : ∀ a ∈ A, shadowed t a = true) : (t.newIterator parent).Shows (merged t A l) it := by
  -- The number of keys that the two cursors have left decreases with each step.
  induction hn : A.length + l.length using Nat.strong_induction_on generalizing A l it with
  | _ n ih =>
    have hparent : ∀ {b l'}, l = b :: l' → it.curIsParent = true →
        (t.newIterator parent).Shows (b :: merged t A l') it := by
      intro b l' hl hcur
      subst hl
      refine shows_parent h hcur (by rw [hit]; exact length_merged_le A l') ?_
      intro it' hit' hdec
      have hshort := length_dropWhile_le (shadowed t) l'
      have hrec := ih _ (by rw [← hn, length_cons]; omega) hdec (hit'.trans hit) hA rfl
      rwa [merged, filter_not_dropWhile] at hrec
    have hown : ∀ {a A'}, A = a :: A' → it.curIsParent = false →
        (t.newIterator parent).Shows (a :: merged t A' l) it := by
      intro a A' hA' hcur
      subst hA'
      have hdec : Decided t parent l (decideCur parent { it with transactionIt := A' }) :=
        ⟨by simpa using h.shows, by simpa using h.live, decideCur_decideCur _⟩
      refine shows_own h hit hcur ?_
      exact ih _ (by rw [← hn, length_cons]; omega) hdec (by simp)
        (fun a ha => hA a (.tail _ ha)) rfl
    cases A with
    | nil =>
      cases l with
      | nil =>
        cases h.shows with
        | done hend =>
          rw [show merged t [] [] = [] by simp [merged]]
          refine .done ?_
          show valid parent it = false
          simp [valid, hit, hend]
      | cons b l =>
        have hb := (h.live b rfl).1
        have hshow := hparent rfl (h.curIsParent_end hit)
        simpa [merged, hb] using hshow
    | cons a A =>
      have hcur := h.curIsParent_eq hit
      cases l with
      | nil =>
        have hshow := hown rfl (by simpa using hcur)
        simpa [merged] using hshow
      | cons b l =>
        have hb := (h.live b rfl).1
        have hne : a ≠ b := by
          intro hab
          rw [← hab, hA a mem_cons_self] at hb
          cases hb
        by_cases hlt : a < b
        · have hshow := hown rfl (by simpa [hlt] using hcur)
          have hle := le_of_lt hlt
          simpa [merged, hb, hle] using hshow
        · have hshow := hparent rfl (by simpa [hlt] using hcur)
          have hle : ¬ a ≤ b := fun h => hlt (lt_of_le_of_ne h hne)
          simpa [merged, hb, hle] using hshow

end Shows

end TxIterator

section Enumerates

variable [Inhabited Key]

/-- Over a parent whose iterator enumerates the keys with `P`, the iterator of a transaction
enumerates the keys it writes and those keys with `P` that it does not delete. -/
theorem DbTransaction.newIterator_enumerates {t : DbTransaction T Key} (ht : t.Disjoint)
    {parent : Cursor Failure Key} {P : Key → Prop} (h : parent.Enumerates P) :
    (t.newIterator parent).Enumerates fun k => t.writes[k]?.isSome ∨ (k ∉ t.deletes ∧ P k) := by
  intro start it
  obtain ⟨p, l, hseek, hshow, hsorted, hmem⟩ := h start it.parentIt
  have hkeys := pairwise_keys t.writes
  obtain ⟨it', hskip, hit', hdec⟩ := skip_decided (t := t)
    { it with transactionIt := keysFrom start t.writes.keys, parentIt := p } hshow
  have hwritten : ∀ a ∈ keysFrom start t.writes.keys, t.writes[a]?.isSome := fun a ha =>
    mem_keys.mp ((mem_keysFrom start hkeys).mp ha).1
  have hA : ∀ a ∈ keysFrom start t.writes.keys, shadowed t a = true := by
    intro a ha
    simp [shadowed, hwritten a ha]
  refine ⟨decideCur parent it', merged t (keysFrom start t.writes.keys) l,
    ?_, ?_, ?_, ?_⟩
  · show (parent.seek start it.parentIt >>= fun parentIt => do
      let it ← skipDeletedAndOverwritten t parent
        { it with transactionIt := keysFrom start t.writes.keys, parentIt }
      pure (decideCur parent it)) = _
    rw [hseek]
    show (skipDeletedAndOverwritten t parent _ >>= _) = _
    rw [hskip]
    rfl
  · have hshows := shows hdec (by simpa using hit') hA
    rwa [merged, filter_not_dropWhile] at hshows
  · refine pairwise_lt_merge (pairwise_keysFrom start hkeys) (hsorted.filter _) ?_
    intro a ha hl
    have hlive := (mem_filter.mp hl).2
    simp [hA a ha] at hlive
  · intro k
    rw [merged, mem_merge, mem_filter, hmem, mem_keysFrom start hkeys, mem_keys]
    have hdel : t.writes[k]?.isSome → k ∉ t.deletes := by
      intro hw hk
      simp [ht k hk] at hw
    have hsh : (!shadowed t k) = true ↔ k ∉ t.deletes ∧ ¬ t.writes[k]?.isSome := by
      simp only [shadowed, Bool.not_eq_eq_eq_not, Bool.not_true, Bool.or_eq_false_iff,
        decide_eq_false_iff_not, Bool.not_eq_true]
    rw [hsh]
    by_cases hw : t.writes[k]?.isSome
    · simp [hw]
    · simp only [hw]
      tauto

namespace DbStack

/-- The iterator at a depth enumerates the keys that exist there. -/
theorem newIterator_enumerates {s : DbStack T Key} (h : s.AllDisjoint) (depth : Nat) :
    (s.newIterator depth).Enumerates fun k => s.exists depth k := by
  have hdrop : ∀ t ∈ s.layers.drop depth, t.Disjoint := fun t ht => h t (mem_of_mem_drop ht)
  unfold newIterator «exists»
  generalize s.layers.drop depth = layers at hdrop
  induction layers with
  | nil => exact s.db.newIterator_enumerates
  | cons t parents ih =>
    rw [forall_mem_cons] at hdrop
    have hbelow := DbTransaction.newIterator_enumerates hdrop.1 (ih hdrop.2)
    intro start it
    obtain ⟨it', l, hseek, hshow, hsorted, hmem⟩ := hbelow start it
    refine ⟨it', l, hseek, hshow, hsorted, fun k => ?_⟩
    rw [hmem]
    by_cases hk : k ∈ t.deletes
    · simp [existsFrom, hk, hdrop.1 k hk]
    · by_cases hw : t.writes[k]?.isSome <;> simp [existsFrom, hk, hw]

/-- What holds of a stack of transactions `s` whose history on overlays is `o`. -/
structure RefinesOverlays (s : DbStack T Key) (o : Stack Key (Cell T)) : Prop where
  /-- A read returns what the overlays have; a pending value is returned at its own type only. -/
  read : ∀ depth ty key, s.read depth ty key = readCell ty (o.view depth key)
  «exists» : ∀ depth key, s.exists depth key = (o.view depth key).isSome
  /-- A commit leaves the reads through the layer as they are and shows them in the parent. -/
  commit : ∀ depth < s.layers.length, ∀ ty key r, s.read depth ty key = .ok r →
    (s.commit depth).read depth ty key = .ok r ∧ (s.commit depth).read (depth + 1) ty key = .ok r
  commit_exists : ∀ depth < s.layers.length, ∀ key,
    (s.commit depth).exists depth key = s.exists depth key ∧
      (s.commit depth).exists (depth + 1) key = s.exists depth key
  /-- Clearing a layer shows the parent, which stays as it is. -/
  clear : ∀ depth < s.layers.length, ∀ ty key,
    (s.step (.clear depth)).read depth ty key = s.read (depth + 1) ty key ∧
      (s.step (.clear depth)).read (depth + 1) ty key = s.read (depth + 1) ty key
  clear_exists : ∀ depth < s.layers.length, ∀ key,
    (s.step (.clear depth)).exists depth key = s.exists (depth + 1) key
  disjoint : ∀ t ∈ s.layers, ∀ key ∈ t.deletes, t.writes[key]? = none
  /-- Wherever an iterator is positioned, it shows the keys that exist from there on, in order and
  once each. -/
  iterator : ∀ depth, (s.newIterator depth).Enumerates fun key => s.exists depth key

/-- **Transactions are overlays.** Any number of stacked transactions over a database, after any
sequence of operations. -/
theorem transactions_refine_overlays (n : Nat) (db : Database Key) (ops : List (Op T Key)) :
    ((start n db).run ops).RefinesOverlays (overlayRun (start n db : DbStack T Key).overlays ops) := by
  have hdisj := (allDisjoint_start (T := T) n db).run ops
  rw [← overlays_run (allDisjoint_start n db) ops]
  generalize (start n db : DbStack T Key).run ops = s at hdisj
  have hlen : s.overlays.layers.length = s.layers.length := by simp [overlays]
  have hcommit : ∀ depth, (s.commit depth).overlays = s.overlays.commit Cell.settle depth :=
    fun depth => overlays_step hdisj (.commit depth)
  have hclear : ∀ depth, (s.step (.clear depth)).overlays =
      s.overlays.modifyAt depth fun _ => nothing :=
    fun depth => overlays_step hdisj (.clear depth)
  refine ⟨s.read_eq, s.exists_eq, ?_, ?_, ?_, ?_, hdisj, newIterator_enumerates hdisj⟩
  · intro depth hdepth ty key r hr
    obtain ⟨hthrough, hbelow⟩ := Stack.view_commit Cell.settle (hlen ▸ hdepth) key
    rw [read_eq] at hr
    rw [read_eq, read_eq, hcommit, hthrough, and_self]
    rcases hbelow with hsame | hsettled
    · rw [hsame, hr]
    · rw [hsettled]
      cases hv : s.overlays.view depth key with
      | none => rwa [hv] at hr
      | some c =>
        rw [hv] at hr
        exact Cell.read_settle hr
  · intro depth hdepth key
    obtain ⟨hthrough, hbelow⟩ := Stack.view_commit Cell.settle (hlen ▸ hdepth) key
    rw [exists_eq, exists_eq, exists_eq, hcommit, hthrough, and_self]
    rcases hbelow with hsame | hsettled
    · rw [hsame]
    · rw [hsettled, Option.isSome_map]
  · intro depth hdepth ty key
    rw [read_eq, read_eq, read_eq, hclear, Stack.view_clear (hlen ▸ hdepth),
      Stack.view_modifyAt_below _ (Nat.lt_succ_self depth), and_self]
  · intro depth hdepth key
    rw [exists_eq, exists_eq, hclear, Stack.view_clear (hlen ▸ hdepth)]

end DbStack

end Enumerates

/-- Two types of one byte with the same encoding. -/
abbrev Sample.byteTypes : ValueTypes where
  Ty := Bool
  decEq := inferInstance
  Val := fun _ => UInt8
  serialize := fun v => [v]
  unserialize := fun _ bytes => match bytes with
    | [v] => some v
    | _ => none
  unserialize_serialize := fun _ => rfl

/-- A transaction in which the byte five is pending under the key one. -/
def Sample.pendingByte : DbStack Sample.byteTypes Nat :=
  (DbStack.start 1 ∅).run [.write 0 1 ⟨false, (5 : UInt8)⟩]

/-- A read at the other type throws as long as the value is pending, and returns it once it is
committed. -/
theorem DbStack.other_type_returns_after_commit :
    Sample.pendingByte.read 0 true 1 =
        .error (.throw "Read called with V != previously written type") ∧
      (Sample.pendingByte.commit 0).read 0 true 1 = .ok (some (5 : UInt8)) := by
  refine ⟨rfl, ?_⟩
  have hdisj : Sample.pendingByte.AllDisjoint := (allDisjoint_start 1 ∅).run _
  rw [read_eq]
  show readCell true ((Sample.pendingByte.step (.commit 0)).overlays.view 0 1) = _
  rw [overlays_step hdisj]
  rfl

end KmushiCoin
