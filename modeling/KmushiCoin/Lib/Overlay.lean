import Mathlib

/-!
# Overlays

A **layer** says, for each key, nothing, that the key is gone, or which value it has. Layers are
stacked over a base map; a key is looked up in the topmost layer that says something about it.

* `Stack.view s d` is the map that is seen through the layers from depth `d` on (depth `0` is the
  top).
* `Stack.commit` merges a layer into the one below it, the last one into the base. The base may
  store values in another form than the layers: `settle` turns a value into the form it has there.

The operations at a depth are those of any stack of layers, so `commitAt` takes the merges as
arguments, and `commitAt_map` transports it along a map of the layers.
-/

namespace Overlay

open List

/-! ### Committing at a depth -/

section Commit

variable {L L' B B' : Type}

/-- Merge the layer at a depth into what is below it and leave an empty one. -/
def commitAt (empty : L) (intoLayer : L → L → L) (intoBase : L → B → B) :
    Nat → List L → B → List L × B
  | _, [], b => ([], b)
  | 0, [t], b => ([empty], intoBase t b)
  | 0, t :: p :: ts, b => (empty :: intoLayer t p :: ts, b)
  | d + 1, t :: ts, b =>
    let r := commitAt empty intoLayer intoBase d ts b
    (t :: r.1, r.2)

variable {intoLayer : L → L → L} {intoBase : L → B → B}

/-- A map of the layers and of the base that respects the merges respects the commit. -/
theorem commitAt_map {empty : L} {empty' : L'} {intoLayer' : L' → L' → L'}
    {intoBase' : L' → B' → B'} {f : L → L'} {g : B → B'} {ts : List L} (hempty : f empty = empty')
    (hlayer : ∀ t ∈ ts, ∀ p, f (intoLayer t p) = intoLayer' (f t) (f p))
    (hbase : ∀ t ∈ ts, ∀ b, g (intoBase t b) = intoBase' (f t) (g b)) (d : Nat) (b : B) :
    commitAt empty' intoLayer' intoBase' d (ts.map f) (g b) =
      ((commitAt empty intoLayer intoBase d ts b).1.map f,
        g (commitAt empty intoLayer intoBase d ts b).2) := by
  induction ts generalizing d with
  | nil => simp [commitAt]
  | cons t ts ih =>
    cases d with
    | zero =>
      cases ts with
      | nil => simp [commitAt, hempty, hbase]
      | cons p ts => simp [commitAt, hempty, hlayer]
    | succ d =>
      have htail := ih (fun t ht => hlayer t (.tail _ ht)) (fun t ht => hbase t (.tail _ ht)) d
      simp only [map_cons, commitAt, htail]

/-- A commit keeps what holds of every layer. -/
theorem commitAt_forall {P : L → Prop} {empty : L} (hempty : P empty)
    (hlayer : ∀ t p, P t → P p → P (intoLayer t p)) {ts : List L} (hts : ∀ t ∈ ts, P t) (d : Nat)
    (b : B) : ∀ t ∈ (commitAt empty intoLayer intoBase d ts b).1, P t := by
  induction ts generalizing d with
  | nil => simp [commitAt]
  | cons t ts ih =>
    rw [forall_mem_cons] at hts
    cases d with
    | zero =>
      cases ts with
      | nil => simpa [commitAt] using hempty
      | cons p ts =>
        have hp := forall_mem_cons.mp hts.2
        simp only [commitAt, forall_mem_cons]
        exact ⟨hempty, hlayer t p hts.1 hp.1, hp.2⟩
    | succ d =>
      simp only [commitAt, forall_mem_cons]
      exact ⟨hts.1, ih hts.2 d⟩

end Commit

/-! ### Layers of keys -/

variable {K V : Type}

/-- What a layer says about each key. -/
abbrev Layer (K V : Type) : Type := K → Option (Option V)

/-- The layer that says nothing. -/
def nothing : Layer K V := fun _ => none

/-- Look a key up in a layer first. -/
def seen (l : Layer K V) (below : K → Option V) : K → Option V := fun k => (l k).getD (below k)

/-- The layer that says what `upper` says, and what `lower` says where `upper` says nothing. -/
def onto (upper lower : Layer K V) : Layer K V := fun k => (upper k).or (lower k)

/-- Put a layer's values into a base that stores them in settled form. -/
def settleOver (settle : V → V) (l : Layer K V) (base : K → Option V) : K → Option V :=
  fun k => match l k with
    | none => base k
    | some v => v.map settle

/-- Say `v` about the key `k`. -/
def say [DecidableEq K] (k : K) (v : Option V) (l : Layer K V) : Layer K V :=
  Function.update l k (some v)

@[simp] theorem seen_nothing (below : K → Option V) : seen nothing below = below := rfl

theorem seen_onto (upper lower : Layer K V) (below : K → Option V) :
    seen (onto upper lower) below = seen upper (seen lower below) := by
  funext k
  cases h : upper k <;> simp [seen, onto, h]

/-- Layers over a base; the first is the topmost. -/
structure Stack (K V : Type) where
  layers : List (Layer K V)
  base : K → Option V

namespace Stack

/-- What is seen through the layers from a depth on. -/
def view (s : Stack K V) (depth : Nat) : K → Option V := (s.layers.drop depth).foldr seen s.base

def modifyAt (depth : Nat) (f : Layer K V → Layer K V) (s : Stack K V) : Stack K V :=
  { s with layers := s.layers.modify depth f }

def commit (settle : V → V) (depth : Nat) (s : Stack K V) : Stack K V :=
  let r := commitAt nothing onto (settleOver settle) depth s.layers s.base
  ⟨r.1, r.2⟩

variable {s : Stack K V}

/-- Below the depth that is modified nothing changes. -/
theorem view_modifyAt_below {depth d : Nat} (f : Layer K V → Layer K V) (h : depth < d)
    : (s.modifyAt depth f).view d = s.view d := by
  show ((s.layers.modify depth f).drop d).foldr seen s.base = _
  rw [drop_modify_of_lt f depth d s.layers h]
  rfl

/-- A layer that says nothing shows what is below it. -/
theorem view_clear {depth : Nat} (h : depth < s.layers.length) :
    (s.modifyAt depth fun _ => nothing).view depth = s.view (depth + 1) := by
  have hbelow := view_modifyAt_below (s := s) (fun _ => nothing) (Nat.lt_succ_self depth)
  rw [← hbelow]
  unfold view
  have hlen : depth < (s.modifyAt depth fun _ => nothing).layers.length := by
    simpa [modifyAt] using h
  rw [drop_eq_getElem_cons hlen, foldr_cons]
  have htop : (s.modifyAt depth fun _ => nothing).layers[depth] = nothing := by
    simp [modifyAt]
  rw [htop, seen_nothing]

/-- **Committing a layer.** Through the layer, and without it, the same is seen as through it
before, up to the form that values have in the base. -/
theorem view_commit (settle : V → V) {depth : Nat} (h : depth < s.layers.length) (k : K) :
    (s.commit settle depth).view depth k = (s.commit settle depth).view (depth + 1) k ∧
      ((s.commit settle depth).view (depth + 1) k = s.view depth k ∨
        (s.commit settle depth).view (depth + 1) k = (s.view depth k).map settle) := by
  obtain ⟨layers, base⟩ := s
  unfold view commit
  induction layers generalizing depth with
  | nil => simp at h
  | cons t ts ih =>
    cases depth with
    | zero =>
      cases ts with
      | nil =>
        refine ⟨rfl, ?_⟩
        cases ht : t k <;> simp [commitAt, settleOver, seen, ht]
      | cons p ts =>
        refine ⟨rfl, .inl ?_⟩
        simp [commitAt, seen_onto]
    | succ d =>
      have hd : d < ts.length := by simpa using h
      simpa [commitAt] using ih hd

end Stack

end Overlay
