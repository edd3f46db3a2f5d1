import Mathlib.Data.List.Infix
import Mathlib.Data.List.TakeWhile
import Mathlib.Data.List.Nodup

/-!
# Trees by parent pointers

A `ParentTree` gives every node at most one parent and a height, one more than the height of the
parent.

* `path b` is the way from `b` to its root, `b` first. Along it the heights fall by one, so a node
  is on it at most once, and of two nodes on it one is on the path of the other.
* `above b h` is the part of the path above a height, `ancestor b h` the node on it at a height.
* `branch b c` is the part of the path of `b` before it meets the path of `c`, and `fork b c` the
  node where they meet.
-/

/-- Nodes with a parent pointer. -/
structure ParentTree (β : Type) where
  parent : β → Option β
  height : β → Nat
  height_parent : ∀ {b p : β}, parent b = some p → height b = height p + 1

namespace ParentTree

open List Option

variable {β : Type} (t : ParentTree β) {a b c f p : β} {h h' : Nat}

/-! ### Paths -/

def pathFrom : Nat → β → List β
  | 0, b => [b]
  | n + 1, b => b :: match t.parent b with
    | none => []
    | some p => pathFrom n p

/-- The way from a node to its root. -/
def path (b : β) : List β := t.pathFrom (t.height b) b

variable {t}

theorem path_of_root (hb : t.parent b = none) : t.path b = [b] := by
  unfold path
  cases t.height b with
  | zero => rfl
  | succ n => rw [pathFrom, hb]

theorem path_of_parent (hb : t.parent b = some p) : t.path b = b :: t.path p := by
  unfold path
  rw [t.height_parent hb, pathFrom, hb]

/-- What follows from the same for the parent holds for every node. -/
theorem induction {P : β → Prop} (hstep : ∀ b, (∀ p, t.parent b = some p → P p) → P b) (b : β) :
    P b := by
  have hle : ∀ n b, t.height b ≤ n → P b := by
    intro n
    induction n with
    | zero =>
      intro b hb
      refine hstep b fun p hp => ?_
      have := t.height_parent hp
      omega
    | succ n ih =>
      intro b hb
      refine hstep b fun p hp => ih p ?_
      have := t.height_parent hp
      omega
  exact hle _ b le_rfl

@[simp] theorem mem_path_self (t : ParentTree β) (b : β) : b ∈ t.path b := by
  cases hb : t.parent b with
  | none => simp [path_of_root hb]
  | some p => simp [path_of_parent hb]

theorem mem_path_iff : a ∈ t.path b ↔ a = b ∨ ∃ p, t.parent b = some p ∧ a ∈ t.path p := by
  cases hb : t.parent b with
  | none => simp [path_of_root hb]
  | some p => simp [path_of_parent hb]

theorem mem_path_of_parent (hb : t.parent b = some p) : p ∈ t.path b :=
  mem_path_iff.mpr (.inr ⟨p, hb, t.mem_path_self p⟩)

theorem height_le_of_mem (hab : a ∈ t.path b) : t.height a ≤ t.height b := by
  induction b using induction (t := t) with
  | hstep b ih =>
    rcases mem_path_iff.mp hab with rfl | ⟨p, hp, hmem⟩
    · exact le_rfl
    · have := ih p hp hmem
      have := t.height_parent hp
      omega

theorem height_lt_of_mem (hab : a ∈ t.path b) (hne : a ≠ b) : t.height a < t.height b := by
  rcases mem_path_iff.mp hab with rfl | ⟨p, hp, hmem⟩
  · exact absurd rfl hne
  · have := height_le_of_mem hmem
    have := t.height_parent hp
    omega

/-- What holds of a node and passes on from parents holds wherever the node is on the path. -/
@[elab_as_elim] theorem path_induction {P : β → Prop} (hab : a ∈ t.path b) (hself : P a)
    (hstep : ∀ b p, t.parent b = some p → t.height a < t.height b → P p → P b) : P b := by
  induction b using induction (t := t) with
  | hstep b ih =>
    rcases mem_path_iff.mp hab with rfl | ⟨p, hp, hmem⟩
    · exact hself
    · have := height_le_of_mem hmem
      exact hstep b p hp (by rw [t.height_parent hp]; omega) (ih p hp hmem)

theorem path_suffix (hab : a ∈ t.path b) : t.path a <:+ t.path b := by
  refine path_induction hab suffix_rfl fun b p hp _ ih => ?_
  rw [path_of_parent hp]
  exact ih.trans (suffix_cons b _)

theorem mem_path_trans (hab : a ∈ t.path b) (hbc : b ∈ t.path c) : a ∈ t.path c :=
  (path_suffix hbc).subset hab

/-- Of two nodes on a path one is on the path of the other. -/
theorem mem_path_or (hac : a ∈ t.path c) (hbc : b ∈ t.path c) : a ∈ t.path b ∨ b ∈ t.path a := by
  induction c using induction (t := t) with
  | hstep c ih =>
    rcases mem_path_iff.mp hac with rfl | ⟨p, hp, hap⟩
    · exact .inr hbc
    · rcases mem_path_iff.mp hbc with rfl | ⟨p', hp', hbp⟩
      · exact .inl hac
      · obtain rfl := mem_unique hp hp'
        exact ih p hp hap hbp

theorem exists_root (t : ParentTree β) (b : β) : ∃ r ∈ t.path b, t.parent r = none := by
  induction b using induction (t := t) with
  | hstep b ih =>
    cases hb : t.parent b with
    | none => exact ⟨b, t.mem_path_self b, hb⟩
    | some p =>
      obtain ⟨r, hr, hroot⟩ := ih p hb
      exact ⟨r, mem_path_trans hr (mem_path_of_parent hb), hroot⟩

theorem root_unique (hac : a ∈ t.path c) (hbc : b ∈ t.path c) (ha : t.parent a = none)
    (hb : t.parent b = none) : a = b := by
  rcases mem_path_or hac hbc with hab | hba
  · simpa [path_of_root hb] using hab
  · simpa [path_of_root ha, eq_comm] using hba

theorem eq_of_height_eq (hac : a ∈ t.path c) (hbc : b ∈ t.path c) (hheight : t.height a = t.height b) :
    a = b := by
  by_contra hne
  rcases mem_path_or hac hbc with hab | hba
  · have := height_lt_of_mem hab hne
    omega
  · have := height_lt_of_mem hba (Ne.symm hne)
    omega

theorem mem_path_of_height_le (hac : a ∈ t.path c) (hbc : b ∈ t.path c)
    (hle : t.height a ≤ t.height b) : a ∈ t.path b := by
  rcases mem_path_or hac hbc with hab | hba
  · exact hab
  · have hle' := height_le_of_mem hba
    rw [eq_of_height_eq hac hbc (by omega)]
    exact t.mem_path_self b

theorem path_nodup (t : ParentTree β) (b : β) : (t.path b).Nodup := by
  induction b using induction (t := t) with
  | hstep b ih =>
    cases hb : t.parent b with
    | none => simp [path_of_root hb]
    | some p =>
      rw [path_of_parent hb, nodup_cons]
      refine ⟨fun hmem => ?_, ih p hb⟩
      have := height_le_of_mem hmem
      have := t.height_parent hb
      omega

/-! ### Parts of a path -/

variable (t)

/-- The node of the path at a height. -/
def ancestor (b : β) (h : Nat) : Option β := (t.path b).find? fun a => t.height a == h

/-- The path down to a height, without the node there. -/
def above (b : β) (h : Nat) : List β := (t.path b).takeWhile fun a => t.height a != h

variable {t}

theorem ancestor_self (t : ParentTree β) (b : β) : t.ancestor b (t.height b) = some b := by
  unfold ancestor
  cases hb : t.parent b with
  | none => simp [path_of_root hb]
  | some p => simp [path_of_parent hb]

theorem above_self (t : ParentTree β) (b : β) : t.above b (t.height b) = [] := by
  unfold above
  cases hb : t.parent b with
  | none => simp [path_of_root hb]
  | some p => simp [path_of_parent hb]

theorem ancestor_of_ne (hne : t.height b ≠ h) (hb : t.parent b = some p) :
    t.ancestor b h = t.ancestor p h := by
  simp [ancestor, path_of_parent hb, hne]

theorem above_of_ne (hne : t.height b ≠ h) (hb : t.parent b = some p) :
    t.above b h = b :: t.above p h := by
  simp [above, path_of_parent hb, hne]

theorem ancestor_of_mem (hab : a ∈ t.path b) : t.ancestor b (t.height a) = some a := by
  refine path_induction hab (t.ancestor_self a) fun b p hp hlt ih => ?_
  rw [ancestor_of_ne hlt.ne' hp, ih]

/-- Between two nodes of a path there is one at every height. -/
theorem exists_mem_path_of_height (hab : a ∈ t.path b) (hle : t.height a ≤ h)
    (hle' : h ≤ t.height b) : ∃ c, t.height c = h ∧ c ∈ t.path b ∧ a ∈ t.path c := by
  induction b using induction (t := t) with
  | hstep b ih =>
    by_cases heq : t.height b = h
    · exact ⟨b, heq, t.mem_path_self b, hab⟩
    · rcases mem_path_iff.mp hab with rfl | ⟨p, hp, hmem⟩
      · omega
      · have := t.height_parent hp
        obtain ⟨c, hc, hcp, hac⟩ := ih p hp hmem (by omega)
        exact ⟨c, hc, mem_path_trans hcp (mem_path_of_parent hp), hac⟩

/-- The path is what is above a node of it, and the path of that. -/
theorem path_eq_above_append (hab : a ∈ t.path b) : t.path b = t.above b (t.height a) ++ t.path a := by
  refine path_induction hab (by simp [above_self]) fun b p hp hlt ih => ?_
  rw [above_of_ne hlt.ne' hp, path_of_parent hp, ih, cons_append]

theorem above_eq_append (hca : c ∈ t.path a) (hab : a ∈ t.path b) :
    t.above b (t.height c) = t.above b (t.height a) ++ t.above a (t.height c) := by
  have hb := path_eq_above_append (mem_path_trans hca hab)
  rw [path_eq_above_append hab, path_eq_above_append hca, ← append_assoc] at hb
  exact (append_cancel_right hb).symm

theorem mem_above_iff (hab : a ∈ t.path b) :
    c ∈ t.above b (t.height a) ↔ c ∈ t.path b ∧ t.height a < t.height c := by
  constructor
  · intro hc
    have hmem : c ∈ t.path b := ( takeWhile_prefix _).subset hc
    refine ⟨hmem, ?_⟩
    by_contra hle
    have hnodup := t.path_nodup b
    rw [path_eq_above_append hab, nodup_append] at hnodup
    exact hnodup.2.2 c hc c (mem_path_of_height_le hmem hab (by omega)) rfl
  · intro ⟨hmem, hlt⟩
    rw [path_eq_above_append hab] at hmem
    rcases mem_append.mp hmem with hc | hc
    · exact hc
    · have := height_le_of_mem hc
      omega

/-- The nodes of a path from a height on. -/
theorem mem_take_path_iff {n : Nat} :
    a ∈ (t.path b).take n ↔ a ∈ t.path b ∧ t.height b < t.height a + n := by
  induction n generalizing b with
  | zero =>
    simp only [take_zero, not_mem_nil, false_iff, not_and]
    intro ha
    have := height_le_of_mem ha
    omega
  | succ n ih =>
    cases hb : t.parent b with
    | none =>
      rw [path_of_root hb]
      simp only [take_succ_cons, take_nil, mem_singleton]
      refine ⟨fun h => ⟨h, by subst h; omega⟩, fun h => h.1⟩
    | some p =>
      have hheight := t.height_parent hb
      rw [path_of_parent hb, take_succ_cons, mem_cons, mem_cons, ih]
      constructor
      · intro h
        rcases h with rfl | ⟨hmem, hlt⟩
        · exact ⟨.inl rfl, by omega⟩
        · exact ⟨.inr hmem, by omega⟩
      · intro ⟨h, hlt⟩
        rcases h with rfl | hmem
        · exact .inl rfl
        · exact .inr ⟨hmem, by omega⟩

theorem length_above (hab : a ∈ t.path b) :
    (t.above b (t.height a)).length = t.height b - t.height a := by
  refine path_induction hab (by simp [above_self]) fun b p hp hlt ih => ?_
  have := t.height_parent hp
  rw [above_of_ne hlt.ne' hp, length_cons, ih]
  omega

/-! ### Where two paths meet -/

variable [DecidableEq β]

variable (t) in
/-- The path of `b` before it meets the path of `c`. -/
def branch (b c : β) : List β := (t.path b).takeWhile fun a => decide (a ∉ t.path c)

variable (t) in
/-- The node where the path of `b` meets the path of `c`. -/
def fork (b c : β) : Option β := (t.path b).find? fun a => decide (a ∈ t.path c)

theorem fork_of_mem (hbc : b ∈ t.path c) : t.fork b c = some b := by
  unfold fork
  cases hb : t.parent b with
  | none => simp [path_of_root hb, hbc]
  | some p => simp [path_of_parent hb, hbc]

theorem fork_of_not_mem (hbc : b ∉ t.path c) (hb : t.parent b = some p) :
    t.fork b c = t.fork p c := by
  simp [fork, path_of_parent hb, hbc]

theorem branch_of_not_mem (hbc : b ∉ t.path c) (hb : t.parent b = some p) :
    t.branch b c = b :: t.branch p c := by
  simp [branch, path_of_parent hb, hbc]

theorem fork_mem (hf : t.fork b c = some f) : f ∈ t.path b ∧ f ∈ t.path c :=
  ⟨mem_of_find?_eq_some hf, by simpa using find?_some hf⟩

theorem mem_path_of_mem_branch (ha : a ∈ t.branch b c) : a ∈ t.path b :=
  ( takeWhile_prefix _).subset ha

/-- What is not on the branch is below the fork. -/
theorem mem_branch_or (hab : a ∈ t.path b) (hf : t.fork b c = some f) :
    a ∈ t.branch b c ∨ a ∈ t.path f := by
  induction b using induction (t := t) with
  | hstep b ih =>
    by_cases hbc : b ∈ t.path c
    · rw [fork_of_mem hbc] at hf
      rw [← some.inj hf]
      exact .inr hab
    · cases hb : t.parent b with
      | none => simp [fork, path_of_root hb, hbc] at hf
      | some p =>
        rw [fork_of_not_mem hbc hb] at hf
        rw [branch_of_not_mem hbc hb]
        rcases mem_path_iff.mp hab with rfl | ⟨p', hp', hmem⟩
        · exact .inl (.head _)
        · obtain rfl := mem_unique hb hp'
          rcases ih p hb hmem hf with hmem | hmem
          · exact .inl (.tail _ hmem)
          · exact .inr hmem

/-- What both paths have in common is on the path of the fork. -/
theorem mem_path_fork (hf : t.fork b c = some f) (hab : a ∈ t.path b) (hac : a ∈ t.path c) :
    a ∈ t.path f := by
  rcases mem_branch_or hab hf with hmem | hmem
  · exact absurd hac (by simpa using mem_takeWhile_imp hmem)
  · exact hmem

/-- Paths with a common node meet. -/
theorem exists_fork (hab : a ∈ t.path b) (hac : a ∈ t.path c) : ∃ f, t.fork b c = some f := by
  rw [← isSome_iff_exists, fork, find?_isSome]
  exact ⟨a, hab, by simpa using hac⟩

end ParentTree
