import KmushiCoin.Lib.FMap

set_option linter.unusedSectionVars false

/-!
# Indexes of the keys that stored items claim

A store holds items under names, and every item **claims** some keys. An index of the claims maps
each claimed key to the item that claims it (`Indexes`). An item that enters writes its keys, one
after the other, and an item that leaves erases them:

* `Indexes.add`: the index stays exact if the keys of the new item are claimed by no other;
* `Indexes.remove`: the index stays exact, since no two items claim one key.

The loops over keys come first: what a map holds after each key of a list was written or erased.
-/

namespace FMap

variable {K V : Type} [Ord K] [Std.TransOrd K] [Std.LawfulEqOrd K] [DecidableEq K]

/-- Entries at different keys are altered, each by its own function. -/
theorem get_foldl_alter_keys {keys : List K} (hnodup : keys.Nodup)
    (f : K → Option V → Option V) (m : FMap K V) (k : K) :
    (keys.foldl (fun m a => m.alter a (f a)) m)[k]? = if k ∈ keys then f k m[k]? else m[k]? := by
  induction keys generalizing m with
  | nil => simp
  | cons a keys ih =>
    obtain ⟨hnew, hnodup⟩ := List.nodup_cons.1 hnodup
    rw [List.foldl_cons, ih hnodup, get_alter]
    by_cases hka : a = k
    · subst hka
      simp [hnew]
    · simp [hka, Ne.symm hka]

/-- `for (k : keys) m.modify(k, f)`. -/
def alterAll (m : FMap K V) (keys : List K) (f : Option V → Option V) : FMap K V :=
  keys.foldl (fun m k => m.alter k f) m

theorem get_alterAll {keys : List K} (hnodup : keys.Nodup) (m : FMap K V)
    (f : Option V → Option V) (k : K) :
    (m.alterAll keys f)[k]? = if k ∈ keys then f m[k]? else m[k]? :=
  get_foldl_alter_keys hnodup (fun _ => f) m k

/-- Every key of a list is written unless it is there. -/
theorem get_foldl_insertIfNew (m : FMap K V) (keys : List K) (v : V) (a : K) :
    (keys.foldl (fun m k => m.insertIfNew k v) m)[a]? =
      if a ∈ keys ∧ m[a]? = none then some v else m[a]? := by
  induction keys generalizing m with
  | nil => simp
  | cons k keys ih =>
    rw [List.foldl_cons, ih, get_insertIfNew]
    by_cases hka : k = a
    · subst hka
      cases m[k]? <;> simp
    · simp [hka, Ne.symm hka]

end FMap

namespace ClaimIndex

variable {H T K V : Type} [Ord K] [Std.TransOrd K] [Std.LawfulEqOrd K] [DecidableEq K]
variable [DecidableEq H]

/-- **Exactness.** The index has a key if and only if an item claims it, and then the value of
that item. -/
def Indexes (items : H → Option T) (claims : T → List K) (value : H → T → V) (m : FMap K V) :
    Prop :=
  ∀ k v, m[k]? = some v ↔ ∃ h t, items h = some t ∧ k ∈ claims t ∧ value h t = v

variable {items : H → Option T} {claims : T → List K} {value : H → T → V} {m m' : FMap K V}
variable {h : H} {t : T}

theorem indexes_empty : Indexes (fun _ : H => none) claims value (∅ : FMap K V) := by
  intro k v
  simp

/-- A key that at most an absent item has is not there. -/
theorem Indexes.get_eq_none {m} (hm : Indexes items claims (fun h _ => h) m)
    (hnone : items h = none) {k : K} (honly : ∀ h', m[k]? = some h' → h' = h) : m[k]? = none := by
  rw [Option.eq_none_iff_forall_not_mem]
  intro h' hh
  obtain ⟨y, t, hy, -, rfl⟩ := (hm k h').1 hh
  cases hnone.symm.trans (honly y hh ▸ hy)

variable (hm : Indexes items claims value m)
include hm

/-- If no item claims anything, the index is empty. -/
theorem Indexes.eq_empty (hnone : ∀ h t, items h = some t → claims t = []) : m = ∅ := by
  refine FMap.ext fun k => ?_
  rw [FMap.get_empty, Option.eq_none_iff_forall_not_mem]
  intro v hv
  obtain ⟨h, t, hitem, hclaim, -⟩ := (hm k v).1 hv
  simp [hnone h t hitem] at hclaim

/-- **An item enters.** The map gets the keys of the item, none of which it had. -/
theorem Indexes.add (hnew : items h = none) (hfresh : ∀ k ∈ claims t, m[k]? = none)
    (hm' : ∀ k, m'[k]? = if k ∈ claims t then some (value h t) else m[k]?) :
    Indexes (Function.update items h (some t)) claims value m' := by
  intro k v
  rw [hm']
  constructor
  · intro hv
    split_ifs at hv with hk
    · exact ⟨h, t, Function.update_self .., hk, Option.some.inj hv⟩
    · obtain ⟨h', t', hitem, hclaim, hval⟩ := (hm k v).1 hv
      have hne : h' ≠ h := by
        rintro rfl
        cases hnew.symm.trans hitem
      exact ⟨h', t', by rwa [Function.update_of_ne hne], hclaim, hval⟩
  · rintro ⟨h', t', hitem, hclaim, hval⟩
    by_cases hh : h' = h
    · subst hh
      rw [Function.update_self] at hitem
      cases hitem
      rw [if_pos hclaim, hval]
    · rw [Function.update_of_ne hh] at hitem
      have hv := (hm k v).2 ⟨h', t', hitem, hclaim, hval⟩
      rw [if_neg, hv]
      intro hk
      cases (hfresh k hk).symm.trans hv

/-- **An item leaves.** The map loses the keys of the item; values tell items apart. -/
theorem Indexes.remove (hitem : items h = some t)
    (hvalue : ∀ h' t', items h' = some t' → value h' t' = value h t → h' = h)
    (hm' : ∀ k, m'[k]? = if k ∈ claims t then none else m[k]?) :
    Indexes (Function.update items h none) claims value m' := by
  intro k v
  rw [hm']
  constructor
  · intro hv
    split_ifs at hv with hk
    obtain ⟨h', t', hitem', hclaim, hval⟩ := (hm k v).1 hv
    have hne : h' ≠ h := by
      rintro rfl
      obtain rfl := Option.mem_unique hitem hitem'
      exact hk hclaim
    exact ⟨h', t', by rwa [Function.update_of_ne hne], hclaim, hval⟩
  · rintro ⟨h', t', hitem', hclaim, hval⟩
    by_cases hh : h' = h
    · subst hh
      rw [Function.update_self] at hitem'
      cases hitem'
    rw [Function.update_of_ne hh] at hitem'
    have hv := (hm k v).2 ⟨h', t', hitem', hclaim, hval⟩
    rw [if_neg, hv]
    intro hk
    -- the key would be claimed by both items, and have the values of both
    have hv' := (hm k (value h t)).2 ⟨h, t, hitem, hk, rfl⟩
    refine hh (hvalue h' t' hitem' ?_)
    rw [hval]
    exact Option.mem_unique hv hv'

/-- The loop that writes the keys of an item, where it skips those that are there. -/
theorem Indexes.add_insertIfNew (hnew : items h = none) (hfresh : ∀ k ∈ claims t, m[k]? = none) :
    Indexes (Function.update items h (some t)) claims value
      ((claims t).foldl (·.insertIfNew · (value h t)) m) := by
  refine hm.add hnew hfresh fun k => ?_
  rw [FMap.get_foldl_insertIfNew]
  refine if_congr ?_ rfl rfl
  rw [and_iff_left_iff_imp]
  exact hfresh k

/-- The loop that erases the keys of an item. -/
theorem Indexes.remove_erase (hitem : items h = some t)
    (hvalue : ∀ h' t', items h' = some t' → value h' t' = value h t → h' = h) :
    Indexes (Function.update items h none) claims value ((claims t).foldl (·.erase ·) m) :=
  hm.remove hitem hvalue fun k => FMap.get_foldl_erase m (claims t) k

end ClaimIndex
