import Mathlib.Data.List.Sort
import Mathlib.Data.List.Rotate

/-!
# KmushiCoin.Lib.RoundRobin

**A queue given by keys.** The elements that wait are ordered by a key; the first one is
served and gets a key beyond all others. Serving is then the rotation of the queue:

* `Ordered.serve` is one turn;
* `map_head_rotate_range'`: as many turns as there are elements serve each of them, in the
  order of the queue at the first turn.
-/

namespace KmushiCoin.RoundRobin

open List

variable {α K : Type*} [LinearOrder K] {key key' : α → K} {q q' : List α}

/-- The list has its elements by strictly increasing keys. -/
def Ordered (key : α → K) (q : List α) : Prop := q.Pairwise fun a b => key a < key b

/-- Elements and keys determine the queue. -/
theorem Ordered.eq_of_mem_iff (h : Ordered key q) (h' : Ordered key q')
    (hmem : ∀ a, a ∈ q ↔ a ∈ q') : q = q' := by
  have : Std.Irrefl fun a b : α => key a < key b := ⟨fun a => lt_irrefl (key a)⟩
  have : Std.Antisymm fun a b : α => key a < key b :=
    ⟨fun a b hab hba => absurd hab (lt_asymm hba)⟩
  exact Pairwise.eq_of_mem_iff h h' hmem

theorem Ordered.nodup (h : Ordered key q) : q.Nodup :=
  Pairwise.imp (fun hlt => ne_of_apply_ne key hlt.ne) h

/-- **One turn**: the first element goes to the end. -/
theorem Ordered.serve {a : α} (h : Ordered key (a :: q)) (hkeep : ∀ b ∈ q, key' b = key b)
    (hlast : ∀ b ∈ q, key' b < key' a) : Ordered key' (q ++ [a]) := by
  refine pairwise_append.mpr ⟨?_, pairwise_singleton _ _, ?_⟩
  · refine (Pairwise.of_cons h).imp_of_mem fun {b c} hb hc hlt => ?_
    rwa [hkeep b hb, hkeep c hc]
  · intro b hb c hc
    obtain rfl := mem_singleton.mp hc
    exact hlast b hb

theorem head_rotate {j : ℕ} (hj : q ≠ []) : (q.rotate j).head? = q[j % q.length]? := by
  have hpos : 0 < q.length := length_pos_of_ne_nil hj
  rw [head?_eq_getElem?, getElem?_rotate hpos, Nat.zero_add]

/-- The elements served in as many turns as there are elements. -/
theorem map_head_rotate_range' (q : List α) (i : ℕ) :
    (range' i q.length).map (fun j => (q.rotate j).head?) = (q.rotate i).map some := by
  refine ext_getElem (by simp) fun k hk hk' => ?_
  have hlt : k < q.length := by simpa using hk
  have hne : q ≠ [] := by
    rintro rfl
    simp at hlt
  have hmod : (i + k) % q.length < q.length := Nat.mod_lt _ (Nat.lt_of_le_of_lt (Nat.zero_le k) hlt)
  simp only [getElem_map, getElem_range', Nat.one_mul, getElem_rotate]
  rw [head_rotate hne, getElem?_eq_getElem hmod]
  simp only [Nat.add_comm i k]

/-- The elements served first. -/
theorem map_head_rotate_range {c : ℕ} (hc : c ≤ q.length) :
    (range c).map (fun j => (q.rotate j).head?) = (q.take c).map some := by
  have hall := map_head_rotate_range' q 0
  rw [rotate_zero, ← range_eq_range'] at hall
  have htake := congrArg (take c) hall
  rwa [← map_take, ← map_take, take_range, min_eq_left hc] at htake

end KmushiCoin.RoundRobin
