import Mathlib

set_option linter.unusedSectionVars false

/-!
# Finite maps

`FMap K V` is the standard library's extensional tree map at the order of `K`:
two maps are *equal* as soon as their lookups agree, and a traversal visits the
keys in order. The lemmas here restate the lookup rules of `insert` and `erase`
with an equality of keys in place of a comparison, which is the form the
protocols over these maps are proved in.
-/

/-- Finite maps from `K` to `V`, up to their lookups. -/
abbrev FMap (K V : Type) [Ord K] : Type := Std.ExtTreeMap K V compare

namespace FMap

open List Std.ExtTreeMap

variable {K V : Type} [Ord K] [Std.TransOrd K] [Std.LawfulEqOrd K]

variable {m : FMap K V} {k a : K}

/-- Two maps with the same lookups are equal. -/
theorem ext {m'} (h : ∀ k : K, m[k]? = m'[k]?) : m = m' :=
  ext_getElem? h

/-- Membership in the traversal is lookup. -/
theorem mem_iff_get : k ∈ m ↔ ∃ v, m[k]? = some v := by
  rw [mem_iff_isSome_getElem?, Option.isSome_iff_exists]

theorem mem_toList {v : V} : (k, v) ∈ m.toList ↔ m[k]? = some v :=
  mem_toList_iff_getElem?_eq_some

/-- A traversal visits every key once. -/
theorem nodup_keys (m : FMap K V) : (m.toList.map Prod.fst).Nodup := by
  rw [nodup_iff_pairwise_ne, pairwise_map]
  refine Pairwise.imp ?_ (distinct_keys_toList (t := m))
  intro a b hne hab
  exact hne (by simpa using hab)

/-- A traversal has no repeated entry. -/
theorem nodup_toList (m : FMap K V) : m.toList.Nodup :=
  Nodup.of_map Prod.fst (nodup_keys m)

variable [DecidableEq K]

theorem get_insert (m : FMap K V) (k a : K) (v : V) :
    (m.insert k v)[a]? = if k = a then some v else m[a]? := by
  simp [Std.ExtTreeMap.getElem?_insert]

@[simp] theorem get_insert_self (m : FMap K V) (k : K) (v : V) : (m.insert k v)[k]? = some v := by
  simp

theorem get_insert_ne {v : V} (h : k ≠ a) : (m.insert k v)[a]? = m[a]? := by
  simp [get_insert, h]

/-- What is there after an insertion is the new entry, or was there before. -/
theorem of_get_insert {v w : V} (h : (m.insert k v)[a]? = some w) :
    (k = a ∧ v = w) ∨ (k ≠ a ∧ m[a]? = some w) := by
  rw [get_insert] at h
  split_ifs at h with hka
  · exact .inl ⟨hka, Option.some.inj h⟩
  · exact .inr ⟨hka, h⟩

theorem get_erase (m : FMap K V) (k a : K) : (m.erase k)[a]? = if k = a then none else m[a]? := by
  simp [getElem?_erase]

@[simp] theorem get_erase_self (m : FMap K V) (k : K) : (m.erase k)[k]? = none := by
  simp

theorem get_erase_ne (h : k ≠ a) : (m.erase k)[a]? = m[a]? := by
  simp [get_erase, h]

theorem size_erase_lt {v : V} (h : m[k]? = some v) : (m.erase k).size < m.size := by
  have hpos : 0 < m.size := by
    rw [← length_toList]
    exact length_pos_of_mem (mem_toList.mpr h)
  have hmem : m.contains k = true := by
    simp [contains_eq_isSome_getElem?, h]
  rw [size_erase, if_pos hmem]
  omega

theorem get_insertIfNew (m : FMap K V) (k a : K) (v : V) :
    (m.insertIfNew k v)[a]? = if k = a ∧ m[a]? = none then some v else m[a]? := by
  rw [getElem?_insertIfNew]
  by_cases h : k = a <;> simp [h]

theorem get_insertIfNew_of_none (hnew : m[k]? = none) (a : K) (v : V) :
    (m.insertIfNew k v)[a]? = if k = a then some v else m[a]? := by
  rw [get_insertIfNew]
  by_cases ha : k = a
  · subst ha
    simp [hnew]
  · simp [ha]

@[simp] theorem get_empty (k : K) : (∅ : FMap K V)[k]? = none := by
  simp

/-! ### Maps from entries -/

/-- The map that holds, for each key, its first entry in the list. -/
def ofEntries (l : List (K × V)) : FMap K V :=
  l.foldl (fun m e => m.insertIfNew e.1 e.2) ∅

/-- With different keys, a list holds the entries that a lookup finds. -/
theorem lookup_eq_some {l : List (K × V)} (hnodup : (l.map Prod.fst).Nodup) {v : V} :
    l.lookup k = some v ↔ (k, v) ∈ l := by
  induction l with
  | nil => simp
  | cons e l ih =>
    obtain ⟨a, b⟩ := e
    obtain ⟨hnew, hnodup⟩ := nodup_cons.mp hnodup
    by_cases hk : k = a
    · subst hk
      have hnot : (k, v) ∉ l := fun h => hnew (mem_map.mpr ⟨_, h, rfl⟩)
      simp [hnot, eq_comm]
    · have hb : (k == a) = false := by simpa using hk
      simp [lookup_cons, hb, hk, ih hnodup]

theorem lookup_toList (m : FMap K V) (k : K) : m.toList.lookup k = m[k]? :=
  Option.ext fun _ => (lookup_eq_some (nodup_keys m)).trans mem_toList

theorem get_ofEntries_eq (l : List (K × V)) (k : K) : (ofEntries l)[k]? = l.lookup k := by
  suffices hgen : ∀ m : FMap K V, (l.foldl (fun m e => m.insertIfNew e.1 e.2) m)[k]? =
      m[k]?.or (l.lookup k) by
    simpa [ofEntries] using hgen ∅
  induction l with
  | nil => simp
  | cons e l ih =>
    obtain ⟨a, b⟩ := e
    intro m
    rw [foldl_cons, ih, get_insertIfNew, lookup_cons]
    by_cases hk : k = a
    · subst hk
      cases m[k]? <;> simp
    · have hb : (k == a) = false := by simpa using hk
      simp [hb, Ne.symm hk]

/-- With different keys, the lookups are the entries. -/
theorem get_ofEntries {l} (hnodup : (l.map Prod.fst).Nodup) {v : V} :
    (ofEntries l)[k]? = some v ↔ (k, v) ∈ l := by
  rw [get_ofEntries_eq, lookup_eq_some hnodup]

/-- The entries in order give the map back. -/
theorem ofEntries_toList (m : FMap K V) : ofEntries m.toList = m := by
  refine ext fun k => Option.ext fun v => ?_
  rw [get_ofEntries (nodup_keys m), mem_toList]

theorem length_toList_ofEntries {l : List (K × V)} (hnodup : (l.map Prod.fst).Nodup) :
    (ofEntries l).toList.length = l.length := by
  have hperm : (ofEntries l).toList.Perm l := by
    rw [perm_ext_iff_of_nodup (nodup_toList _) (Nodup.of_map _ hnodup)]
    rintro ⟨k, v⟩
    rw [mem_toList, get_ofEntries hnodup]
  exact hperm.length_eq

theorem get_filterMap {W : Type} (m : FMap K V) (f : K → V → Option W) (k : K) :
    (filterMap f m)[k]? = m[k]?.bind (f k) := by
  rw [getElem?_filterMap]
  have hkey : ∀ h, m.getKey k h = k := fun h =>
    Std.LawfulEqOrd.eq_of_compare (compare_getKey_self h)
  simp only [hkey]
  cases m[k]? <;> rfl

/-! ### Merging -/

section Merge

variable {W ε : Type}

theorem get_alter (m : FMap K V) (k a : K) (f : Option V → Option V) :
    (m.alter k f)[a]? = if k = a then f m[k]? else m[a]? := by
  rw [getElem?_alter]
  by_cases h : k = a
  · subst h
    simp
  · simp [h]

/-- Setting the value that is there changes nothing. -/
theorem alter_eq_self {v} (h : m[k]? = v) : (m.alter k fun _ => v) = m := by
  refine ext fun a => ?_
  rw [get_alter]
  split_ifs with hka
  · rw [← hka, h]
  · rfl

@[simp] theorem alter_id (m : FMap K V) (k : K) : (m.alter k fun v => v) = m := by
  refine ext fun a => ?_
  rw [get_alter]
  split_ifs with hka
  · rw [hka]
  · rfl

@[simp] theorem alter_some (m : FMap K V) (k : K) (v : V) :
    (m.alter k fun _ => some v) = m.insert k v := by
  refine ext fun a => ?_
  rw [get_alter, get_insert]

@[simp] theorem alter_none (m : FMap K V) (k : K) : (m.alter k fun _ => none) = m.erase k := by
  refine ext fun a => ?_
  rw [get_alter, get_erase]

/-- Change every value of the first map that the second has an entry for. -/
def merge (f : K → Option V → W → Option V) (m : FMap K V) (m' : FMap K W) : FMap K V :=
  m'.toList.foldl (fun m e => m.alter e.1 (f e.1 · e.2)) m

/-- The same with changes that may fail. -/
def mergeM (f : K → Option V → W → Except ε (Option V)) (m : FMap K V) (m' : FMap K W) :
    Except ε (FMap K V) :=
  m'.toList.foldlM (fun m e => do
    let v ← f e.1 m[e.1]? e.2
    pure (m.alter e.1 fun _ => v)) m

variable {r : FMap K V} {l : List (K × W)} {f : K → Option V → W → Except ε (Option V)}

theorem lookup_none_of_nodup {w : W} (hnodup : (((k, w) :: l).map Prod.fst).Nodup)
    : l.lookup k = none := by
  obtain ⟨hnew, hnodup⟩ := nodup_cons.mp hnodup
  refine Option.eq_none_iff_forall_ne_some.mpr fun v hv => ?_
  exact hnew (mem_map.mpr ⟨_, (lookup_eq_some hnodup).mp hv, rfl⟩)

/-- Writing one value at every key of a list. -/
theorem get_foldl_set {set : FMap K V → K → FMap K V} {v : Option V}
    (hset : ∀ m k (a : K), (set m k)[a]? = if k = a then v else m[a]?) (m : FMap K V)
    (keys : List K) (a : K) : (keys.foldl set m)[a]? = if a ∈ keys then v else m[a]? := by
  induction keys generalizing m with
  | nil => simp
  | cons k keys ih =>
    rw [foldl_cons, ih, hset]
    rcases eq_or_ne k a with rfl | hka
    · simp
    · simp [hka, hka.symm]

/-- Every key of a list is written. -/
theorem get_foldl_insert (m : FMap K V) (keys : List K) (v : V) (a : K) :
    (keys.foldl (fun m k => m.insert k v) m)[a]? = if a ∈ keys then some v else m[a]? :=
  get_foldl_set (fun m k a => get_insert m k a v) m keys a

/-- Every key of a list is erased. -/
theorem get_foldl_erase (m : FMap K V) (keys : List K) (a : K) :
    (keys.foldl (fun m k => m.erase k) m)[a]? = if a ∈ keys then none else m[a]? :=
  get_foldl_set get_erase m keys a

theorem get_foldl_alter (f : K → Option V → W → Option V) (hnodup : (l.map Prod.fst).Nodup)
    (m : FMap K V) (k : K) :
    (l.foldl (fun m e => m.alter e.1 (f e.1 · e.2)) m)[k]? = match l.lookup k with
      | none => m[k]?
      | some w => f k m[k]? w := by
  induction l generalizing m with
  | nil => rfl
  | cons e l ih =>
    obtain ⟨a, w⟩ := e
    have hnone := lookup_none_of_nodup hnodup
    rw [map_cons, nodup_cons] at hnodup
    rw [foldl_cons, ih hnodup.2, get_alter, lookup_cons]
    by_cases h : k = a
    · subst h
      simp [hnone]
    · have hne : (k == a) = false := by simpa using h
      rw [if_neg (Ne.symm h), hne]

theorem get_merge (f : K → Option V → W → Option V) (m : FMap K V) (m' : FMap K W) (k : K) :
    (merge f m m')[k]? =
      match m'[k]? with
      | none => m[k]?
      | some w => f k m[k]? w := by
  rw [merge, get_foldl_alter f (nodup_keys m'), lookup_toList]

theorem foldlM_alter_ok (hnodup : (l.map Prod.fst).Nodup) : (l.foldlM (fun m e => do
      let v ← f e.1 m[e.1]? e.2
      pure (m.alter e.1 fun _ => v)) m) = .ok r ↔
      ∀ k : K, match l.lookup k with
        | none => r[k]? = m[k]?
        | some w => f k m[k]? w = .ok r[k]? := by
  induction l generalizing m with
  | nil =>
    rw [foldlM_nil]
    constructor
    · intro h k
      rw [Except.ok.inj h]
      rfl
    · intro h
      exact congrArg Except.ok (ext fun k => (h k).symm)
  | cons e l ih =>
    obtain ⟨a, w⟩ := e
    have hnone := lookup_none_of_nodup hnodup
    rw [map_cons, nodup_cons] at hnodup
    rw [foldlM_cons]
    -- at the first key the rest changes nothing, elsewhere the first step changes nothing
    have hsplit : (∀ k : K, match ((a, w) :: l).lookup k with
        | none => r[k]? = m[k]?
        | some w => f k m[k]? w = .ok r[k]?) ↔
        ∃ v, f a m[a]? w = .ok v ∧ ∀ k : K, match l.lookup k with
          | none => r[k]? = (m.alter a fun _ => v)[k]?
          | some w => f k (m.alter a fun _ => v)[k]? w = .ok r[k]? := by
      constructor
      · intro h
        have ha := h a
        rw [lookup_cons_self] at ha
        refine ⟨r[a]?, ha, fun k => ?_⟩
        have hk := h k
        rw [lookup_cons] at hk
        rw [get_alter]
        by_cases hka : k = a
        · subst hka
          rw [hnone]
          simp
        · have hne : (k == a) = false := by simpa using hka
          rw [hne] at hk
          rwa [if_neg (Ne.symm hka)]
      · rintro ⟨v, hv, h⟩ k
        have hk := h k
        rw [get_alter] at hk
        rw [lookup_cons]
        by_cases hka : k = a
        · subst hka
          rw [hnone] at hk
          simp only [if_true] at hk
          simp [hk, hv]
        · have hne : (k == a) = false := by simpa using hka
          rw [if_neg (Ne.symm hka)] at hk
          rwa [hne]
    rw [hsplit]
    cases hv : f a m[a]? w with
    | error e => simp [bind, Except.bind]
    | ok v =>
      simp only [Except.ok.injEq, exists_eq_left']
      exact ih hnodup.2

/-- A merge that returns is pointwise. -/
theorem mergeM_ok {m'} : mergeM f m m' = .ok r ↔ ∀ k : K, match m'[k]? with
      | none => r[k]? = m[k]?
      | some w => f k m[k]? w = .ok r[k]? := by
  rw [mergeM, foldlM_alter_ok (nodup_keys m')]
  simp only [lookup_toList]

/-- A merge whose changes all return, returns. -/
theorem mergeM_run {m'} (h : ∀ (k : K) w, m'[k]? = some w → ∃ v, f k m[k]? w = .ok v)
    : ∃ r, mergeM f m m' = .ok r := by
  refine ⟨merge (fun k v w => match f k v w with
    | .ok v' => v'
    | .error _ => none) m m', mergeM_ok.mpr fun k => ?_⟩
  rw [get_merge]
  cases hk : m'[k]? with
  | none => rfl
  | some w =>
    obtain ⟨v, hv⟩ := h k w hk
    simp [hv]

end Merge

/-! ### Filtering and counting entries -/

/-- A new entry is one more in the traversal. -/
theorem toList_insert_perm (hnew : m[k]? = none) (v : V) :
    (m.insert k v).toList.Perm ((k, v) :: m.toList) := by
  have hnot : (k, v) ∉ m.toList := by
    rw [mem_toList, hnew]
    simp
  rw [perm_ext_iff_of_nodup (nodup_toList _) (nodup_cons.mpr ⟨hnot, nodup_toList _⟩)]
  intro ⟨a, w⟩
  rw [mem_toList, mem_cons, mem_toList, get_insert]
  by_cases hka : k = a
  · subst hka
    simp [hnew, eq_comm]
  · simp [hka, Ne.symm hka]

/-- The number of entries with a property. -/
def countP (p : K → V → Bool) (m : FMap K V) : Nat := m.toList.countP fun e => p e.1 e.2

@[simp] theorem countP_empty (p : K → V → Bool) : countP p (∅ : FMap K V) = 0 := by
  simp [countP]

theorem countP_insert (hnew : m[k]? = none) (p : K → V → Bool) (v : V) :
    countP p (m.insert k v) = countP p m + if p k v then 1 else 0 := by
  rw [countP, (toList_insert_perm hnew v).countP_eq, countP_cons, countP]

/-- Entries that are not counted may be dropped. -/
theorem countP_congr {m'} {p : K → V → Bool}
    (h : ∀ (k : K) v, p k v = true → (m[k]? = some v ↔ m'[k]? = some v)) :
    countP p m = countP p m' := by
  rw [countP, countP, countP_eq_length_filter, countP_eq_length_filter]
  refine Perm.length_eq ?_
  rw [perm_ext_iff_of_nodup ((nodup_toList _).filter _) ((nodup_toList _).filter _)]
  intro ⟨k, v⟩
  rw [mem_filter, mem_filter, mem_toList, mem_toList]
  exact and_congr_left fun hp => h k v hp

/-! ### Properties of all entries -/

/-- Every entry has the property. -/
def All (P : K → V → Prop) (m : FMap K V) : Prop := ∀ ⦃k : K⦄ ⦃v : V⦄, m[k]? = some v → P k v

instance {P : K → V → Prop} [∀ k v, Decidable (P k v)] (m : FMap K V) : Decidable (All P m) :=
  decidable_of_iff (∀ e ∈ m.toList, P e.1 e.2)
    ⟨fun h k v hv => h (k, v) (mem_toList.mpr hv), fun h _ he => h (mem_toList.mp he)⟩

namespace All

variable {P : K → V → Prop} {m m' : FMap K V} {k : K} {v : V}

theorem empty : All P ∅ := by
  intro k v h
  simp at h

theorem insert (h : All P m) (hv : P k v) : All P (m.insert k v) := by
  intro a w hw
  rcases of_get_insert hw with ⟨hka, rfl⟩ | ⟨-, hw⟩
  · exact hka ▸ hv
  · exact h hw

theorem insertIfNew (h : All P m) (hv : P k v) : All P (m.insertIfNew k v) := by
  intro a w hw
  rw [getElem?_insertIfNew] at hw
  split_ifs at hw with hka
  · cases hw
    exact (Std.LawfulEqOrd.eq_of_compare hka.1) ▸ hv
  · exact h hw

theorem erase (h : All P m) : All P (m.erase k) := by
  intro a w hw
  rw [get_erase] at hw
  split_ifs at hw
  exact h hw

theorem filter {f : K → V → Bool} (h : All P m) : All P (m.filter f) := by
  intro a w hw
  rw [Std.ExtTreeMap.getElem?_filter, Option.pfilter_eq_some_iff] at hw
  exact h hw.1

theorem union (h : All P m) (h' : All P m') : All P (m ∪ m') := by
  intro a w hw
  rw [getElem?_union, Option.or_eq_some_iff] at hw
  rcases hw with hw | ⟨-, hw⟩
  · exact h' hw
  · exact h hw

theorem map {W : Type} {Q : K → W → Prop} {f : K → V → W} (h : All P m)
    (hf : ∀ k v, P k v → Q k (f k v)) : All Q (map f m) := by
  intro a w hw
  rw [Std.ExtTreeMap.getElem?_map, Option.map_eq_some_iff] at hw
  obtain ⟨v, hv, rfl⟩ := hw
  exact hf _ _ (h hv)

end All

end FMap
