import KmushiCoin.Lib.FMap

set_option linter.unusedSectionVars false

/-!
# Reference-counted ownership indexes

An index maps the *hash* of a value to the one owner of that value and to the
number of times the owner holds it. `Owns hash idx own` says that `idx` is
exactly the index of the ownership function `own`, which gives every owner the
multiset of values it holds. The two update rules say what adding one reference
and dropping one reference do to the ownership function; everything an index is
used for (who owns a value, is it held at all, no value has two owners, two
indexes of the same ownership are equal) is read off `Owns`.
-/

namespace RefIndex

open Multiset Function

variable {H K V : Type} [Ord H] [Std.TransOrd H] [Std.LawfulEqOrd H]
variable [DecidableEq H] [DecidableEq K] [DecidableEq V]

/-- The index entry of a value held by `k`: the owner and the number of references. -/
abbrev Index (H K : Type) [Ord H] : Type := FMap H (K × Nat)

/-- `idx` is the index of the ownership function `own`: an entry of a value names
its owner and counts the owner's references, and every entry is the entry of some
value. -/
structure Owns (hash : V → H) (idx : Index H K) (own : K → Multiset V) : Prop where
  /-- The entry of a value is its owner with the number of references it holds. -/
  entry : ∀ v k c, idx[hash v]? = some (k, c) ↔ 0 < c ∧ (own k).count v = c
  /-- Every key of the index is the hash of a value. -/
  hashed : ∀ h e, idx[h]? = some e → ∃ v, hash v = h

variable {hash : V → H} {idx idx' : Index H K} {own own' : K → Multiset V} {k k' : K} {v : V}

/-- The empty index is the index of the ownership in which nobody holds anything. -/
theorem Owns.empty : Owns hash (∅ : Index H K) (fun _ => 0) :=
  ⟨fun v k c => by simp; omega, fun x e he => by simp at he⟩

variable (h : Owns hash idx own)
include h

/-- A held value has an entry, which names the holder. -/
theorem Owns.lookup_of_mem (hv : v ∈ own k) : idx[hash v]? = some (k, (own k).count v) :=
  (h.entry v k _).mpr ⟨count_pos.mpr hv, rfl⟩

/-- The owner an entry names holds the value. -/
theorem Owns.mem_of_lookup {c : Nat} (he : idx[hash v]? = some (k, c)) : v ∈ own k := by
  obtain ⟨hpos, hcount⟩ := (h.entry v k c).mp he
  exact count_pos.mp (by omega)

/-- A value without an entry is held by nobody. -/
theorem Owns.not_mem_of_lookup_none (he : idx[hash v]? = none) : v ∉ own k := by
  intro hv
  rw [h.lookup_of_mem hv] at he
  exact absurd he (by simp)

/-- No value has two owners. -/
theorem Owns.unique (hk : v ∈ own k) (hk' : v ∈ own k') : k = k' := by
  have h1 := h.lookup_of_mem hk
  rw [h.lookup_of_mem hk'] at h1
  exact (Prod.mk.inj (Option.some.inj h1)).1.symm

/-- An index is determined by the ownership function. -/
theorem Owns.eq (h' : Owns hash idx' own) : idx = idx' := by
  have key : ∀ {i i' : Index H K}, Owns hash i own → Owns hash i' own →
      ∀ (x : H) e, i[x]? = some e → i'[x]? = some e := by
    intro i i' hi hi' x e he
    obtain ⟨v, rfl⟩ := hi.hashed x e he
    exact (hi'.entry v e.1 e.2).mpr ((hi.entry v e.1 e.2).mp he)
  refine FMap.ext fun x => ?_
  cases hx : idx[x]? with
  | some e => exact (key h h' x e hx).symm
  | none =>
    cases hx' : idx'[x]? with
    | none => rfl
    | some e => exact absurd (key h' h x e hx') (by simp [hx])

/-- An ownership function may be replaced by one with the same multisets. -/
theorem Owns.congr (heq : ∀ k, own k = own' k) : Owns hash idx own' := by
  obtain rfl : own = own' := funext heq
  exact h

variable (hinj : Injective hash)
include hinj

/-- **One entry changes.** When nobody but `k` holds `v`, the entry of `v` may be replaced by what
it is for another multiset of `k` that differs in `v` only. -/
theorem Owns.replace (hfree : ∀ j, j ≠ k → v ∉ own j) {bag : Multiset V}
    (hbag : ∀ w, w ≠ v → bag.count w = (own k).count w)
    (hself : ∀ j c, idx'[hash v]? = some (j, c) ↔ j = k ∧ 0 < c ∧ bag.count v = c)
    (hother : ∀ x, x ≠ hash v → idx'[x]? = idx[x]?) : Owns hash idx' (update own k bag) := by
  refine ⟨fun w j c => ?_, fun x e he => ?_⟩
  · by_cases hw : w = v
    · subst hw
      rw [hself]
      by_cases hj : j = k
      · subst hj
        simp
      · have hzero : (own j).count w = 0 := count_eq_zero.mpr (hfree j hj)
        rw [update_of_ne hj, hzero]
        exact ⟨fun heq => absurd heq.1 hj, fun heq => by omega⟩
    · rw [hother _ fun heq => hw (hinj heq), h.entry]
      by_cases hj : j = k
      · subst hj
        rw [update_self, hbag w hw]
      · rw [update_of_ne hj]
  · by_cases hx : x = hash v
    · exact ⟨v, hx.symm⟩
    · rw [hother x hx] at he
      exact h.hashed x e he

/-- **Adding a reference**, when nobody but `k` holds `v`. -/
theorem Owns.add (hfree : ∀ j, j ≠ k → v ∉ own j) :
    Owns hash (idx.insert (hash v) (k, (own k).count v + 1)) (update own k (v ::ₘ own k)) := by
  refine h.replace hinj hfree (fun w hw => count_cons_of_ne hw _) (fun j c => ?_)
    fun x hx => FMap.get_insert_ne hx.symm
  rw [FMap.get_insert_self, Option.some.injEq, Prod.mk.injEq, count_cons_self]
  exact ⟨fun ⟨hk, hc⟩ => ⟨hk.symm, by omega, hc⟩, fun ⟨hk, _, hc⟩ => ⟨hk.symm, hc⟩⟩

/-- **Dropping a reference** of a value held more than once. -/
theorem Owns.drop (hc : 1 < (own k).count v) :
    Owns hash (idx.insert (hash v) (k, (own k).count v - 1)) (update own k ((own k).erase v)) := by
  have hmem : v ∈ own k := count_pos.mp (by omega)
  refine h.replace hinj (fun j hj hv => hj (h.unique hv hmem))
    (fun w hw => count_erase_of_ne hw _) (fun j c => ?_)
    fun x hx => FMap.get_insert_ne hx.symm
  rw [FMap.get_insert_self, Option.some.injEq, Prod.mk.injEq, count_erase_self]
  exact ⟨fun ⟨hk, hc⟩ => ⟨hk.symm, by omega, hc⟩, fun ⟨hk, _, hc⟩ => ⟨hk.symm, hc⟩⟩

/-- **Dropping the last reference** erases the entry. -/
theorem Owns.dropLast (hc : (own k).count v = 1) :
    Owns hash (idx.erase (hash v)) (update own k ((own k).erase v)) := by
  have hmem : v ∈ own k := count_pos.mp (by omega)
  refine h.replace hinj (fun j hj hv => hj (h.unique hv hmem))
    (fun w hw => count_erase_of_ne hw _) (fun j c => ?_)
    fun x hx => FMap.get_erase_ne hx.symm
  rw [FMap.get_erase, if_pos rfl, count_erase_self, hc]
  simp
  omega

end RefIndex
