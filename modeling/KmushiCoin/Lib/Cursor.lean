import Mathlib

/-!
# Cursors

A **cursor** walks over keys in order: it is positioned at the first key or at the first one from a
given key on, tells whether it stands at a key and at which, and moves on. Positioning and moving
may fail.

* `Shows c l s`: from the state `s`, moving on step by step, the cursor stands at the keys `l`, one
  after the other, and then at none.
* `Enumerates c P`: wherever it is positioned, the cursor shows exactly the keys with `P` from
  there on, in order and once each.
* `skipWhile` moves on over unwanted keys; the loop is bounded by what the cursor has left.
-/

/-- A cursor over keys. -/
structure Cursor (ε K : Type) : Type 1 where
  State : Type
  /-- A cursor that has not been positioned. -/
  new : State
  /-- Position the cursor at the first key, or at the first one that is not below a given key. -/
  seek : Option K → State → Except ε State
  valid : State → Bool
  key : State → K
  next : State → Except ε State
  /-- How often the cursor can be moved on at most. -/
  left : State → Nat

namespace Cursor

variable {ε K : Type}

/-- The keys at which the cursor stands from a state on. -/
inductive Shows (c : Cursor ε K) : List K → c.State → Prop
  | done {s : c.State} (hend : c.valid s = false) : Shows c [] s
  | here {s s' : c.State} {k : K} {l : List K} (hvalid : c.valid s = true) (hkey : c.key s = k)
      (hleft : l.length < c.left s) (hnext : c.next s = .ok s') (hrest : Shows c l s') :
      Shows c (k :: l) s

theorem Shows.length_le {c : Cursor ε K} {l : List K} {s : c.State} (h : c.Shows l s) :
    l.length ≤ c.left s := by
  cases h with
  | done _ => exact Nat.zero_le _
  | here _ _ hleft _ _ => exact hleft

/-- Wherever the cursor is positioned, it shows the keys with `P` from there on. -/
def Enumerates [LinearOrder K] (c : Cursor ε K) (P : K → Prop) : Prop :=
  ∀ (start : Option K) (s : c.State), ∃ s' l, c.seek start s = .ok s' ∧ c.Shows l s' ∧
    l.Pairwise (· < ·) ∧ ∀ k, k ∈ l ↔ P k ∧ ∀ a ∈ start, a ≤ k

/-! ### Skipping -/

/-- Move on while the key is unwanted. Also returns the last key that was looked at. -/
def skipWhile (c : Cursor ε K) (unwanted : K → Bool) : Nat → c.State → K → Except ε (c.State × K)
  | 0, s, key => .ok (s, key)
  | n + 1, s, key =>
    if c.valid s then
      if unwanted (c.key s) then do
        let s' ← c.next s
        skipWhile c unwanted n s' (c.key s)
      else .ok (s, c.key s)
    else .ok (s, key)

theorem skipWhile_shows {c : Cursor ε K} (unwanted : K → Bool) {l : List K} {s : c.State}
    (h : c.Shows l s) {n : Nat} (hn : l.length ≤ n) (key : K) :
    ∃ s' key', c.skipWhile unwanted n s key = .ok (s', key') ∧
      c.Shows (l.dropWhile unwanted) s' ∧ ∀ k ∈ (l.dropWhile unwanted).head?, key' = k := by
  induction h generalizing n key with
  | @done s hend =>
    refine ⟨s, key, ?_, .done hend, fun k hk => nomatch hk⟩
    cases n with
    | zero => rfl
    | succ n => simp [skipWhile, hend]
  | @here s s' k l hvalid hkey hleft hnext hrest ih =>
    cases n with
    | zero => simp at hn
    | succ n =>
      by_cases hk : unwanted k
      · obtain ⟨s'', key', hrun, hshow, hhead⟩ := ih (by simpa using hn) k
        refine ⟨s'', key', ?_, by rwa [List.dropWhile_cons_of_pos hk],
          by rwa [List.dropWhile_cons_of_pos hk]⟩
        simp only [skipWhile, hvalid, hkey, hk, if_true, hnext]
        exact hrun
      · refine ⟨s, k, ?_, ?_, ?_⟩
        · simp [skipWhile, hvalid, hkey, hk]
        · rw [List.dropWhile_cons_of_neg hk]
          exact .here hvalid hkey hleft hnext hrest
        · rw [List.dropWhile_cons_of_neg hk]
          intro k' hk'
          exact Option.some.inj hk'

end Cursor

/-! ### Merging sorted lists -/

namespace List

variable {K : Type}

/-- Leading elements that a filter drops can be dropped first. -/
theorem filter_not_dropWhile (p : K → Bool) (l : List K) :
    (l.dropWhile p).filter (fun k => !p k) = l.filter fun k => !p k := by
  induction l with
  | nil => rfl
  | cons k l ih =>
    by_cases hk : p k
    · rw [dropWhile_cons_of_pos hk, ih, filter_cons_of_neg (by simp [hk])]
    · rw [dropWhile_cons_of_neg hk]

variable [LinearOrder K]

/-- The merge of two increasing lists without a common element is increasing. -/
theorem pairwise_lt_merge {l l' : List K} (hl : l.Pairwise (· < ·)) (hl' : l'.Pairwise (· < ·))
    (hdisj : ∀ k ∈ l, k ∉ l') : (l.merge l' fun a b => a ≤ b).Pairwise (· < ·) := by
  have hle : (l.merge l' fun a b => a ≤ b).Pairwise (· ≤ ·) := by
    have h := @pairwise_merge K (fun a b : K => decide (a ≤ b))
      (fun a b c hab hbc => by simp at *; exact le_trans hab hbc)
      (fun a b => by simp; exact le_total a b) l l'
      (hl.imp fun h => by simpa using le_of_lt h) (hl'.imp fun h => by simpa using le_of_lt h)
    simpa using h
  have hnodup : (l.merge l' fun a b => a ≤ b).Nodup := by
    rw [(merge_perm_append _).nodup_iff, nodup_append]
    refine ⟨hl.imp ne_of_lt, hl'.imp ne_of_lt, ?_⟩
    intro a ha b hb hab
    exact hdisj a ha (hab ▸ hb)
  exact (hle.and hnodup).imp fun h => lt_of_le_of_ne h.1 h.2

/-- The elements of an increasing list from a bound on. -/
theorem mem_dropWhile_lt {l : List K} (hl : l.Pairwise (· < ·)) {a k : K} :
    k ∈ l.dropWhile (fun k => k < a) ↔ k ∈ l ∧ a ≤ k := by
  induction l with
  | nil => simp
  | cons b l ih =>
    rw [pairwise_cons] at hl
    by_cases hb : b < a
    · rw [dropWhile_cons_of_pos (by simpa using hb), ih hl.2, mem_cons]
      constructor
      · intro ⟨hk, ha⟩
        exact ⟨.inr hk, ha⟩
      · intro ⟨hk, ha⟩
        rcases hk with rfl | hk
        · exact absurd hb (not_lt.mpr ha)
        · exact ⟨hk, ha⟩
    · rw [dropWhile_cons_of_neg (by simpa using hb)]
      have hle := not_lt.mp hb
      refine ⟨fun hk => ⟨hk, ?_⟩, fun hk => hk.1⟩
      rcases mem_cons.mp hk with rfl | hk
      · exact hle
      · exact le_trans hle (le_of_lt (hl.1 k hk))

end List
