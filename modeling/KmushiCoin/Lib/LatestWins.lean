import KmushiCoin.Lib.FMap

set_option linter.unusedSectionVars false

/-!
# Registers in which the latest value wins

A map holds one value for each key. `put` stores a value when its key is free or when it
`replaces` the value that is there; a relation that says "later, and by enough".

Replacing can depend on the order in which values come: of two values that are too close the
first one stays. `latest_iff` says when it does not: if of any two different values of one key
the later one replaces the earlier one, then the map ends up with the latest value of each key.
-/

namespace LatestWins

open List Option

variable {K V : Type} [Ord K] [Std.TransOrd K] [Std.LawfulEqOrd K] [DecidableEq K]

section
variable (key : V → K) (replaces : V → V → Prop) [DecidableRel replaces]

/-- Store a value, unless the one that is there stays. -/
def put (m : FMap K V) (v : V) : FMap K V :=
  match m[key v]? with
  | none => m.insert (key v) v
  | some old => if replaces old v then m.insert (key v) v else m

def putAll (m : FMap K V) (l : List V) : FMap K V := l.foldl (put key replaces) m

end

variable {key : V → K} {replaces : V → V → Prop} [DecidableRel replaces] {m : FMap K V} {v : V}

theorem put_of_stays (h : ∃ old, m[key v]? = some old ∧ ¬ replaces old v) :
    put key replaces m v = m := by
  obtain ⟨old, hold, hnot⟩ := h
  simp [put, hold, hnot]

theorem put_of_stored (h : ∀ old, m[key v]? = some old → replaces old v) :
    put key replaces m v = m.insert (key v) v := by
  unfold put
  cases hold : m[key v]? with
  | none => rfl
  | some old => exact if_pos (h old hold)

@[simp] theorem putAll_nil : putAll key replaces m [] = m := rfl

theorem putAll_append (l l' : List V) :
    putAll key replaces m (l ++ l') = putAll key replaces (putAll key replaces m l) l' :=
  foldl_append

/-! ### The latest value -/

variable (key) in
/-- The latest of the values of a key. -/
def Latest (time : V → Int) (l : List V) (k : K) (v : V) : Prop :=
  v ∈ l ∧ key v = k ∧ ∀ w ∈ l, key w = k → time w ≤ time v

variable (key replaces) in
/-- Of two values of one key the later one replaces the earlier. -/
def Ordered (time : V → Int) (l : List V) : Prop :=
  ∀ v ∈ l, ∀ w ∈ l, key v = key w → (replaces v w ↔ time v < time w)

variable (key replaces) in
/-- Different values of one key have different times, and the later one replaces the earlier. -/
structure Spaced (time : V → Int) (l : List V) : Prop where
  ne : ∀ v ∈ l, ∀ w ∈ l, key v = key w → time v = time w → v = w
  replaces : Ordered key replaces time l

variable (key) in
/-- The map holds the latest of the values so far. -/
structure Holds (time : V → Int) (l : List V) (m : FMap K V) : Prop where
  latest : ∀ (k : K) v, m[k]? = some v → Latest key time l k v
  full : ∀ v ∈ l, (m[key v]?).isSome

section
variable {time : V → Int} {l l' : List V} {k : K}

theorem Spaced.mono (h : Spaced key replaces time l) (hsub : ∀ v ∈ l', v ∈ l) :
    Spaced key replaces time l' where
  ne v hv w hw := h.ne v (hsub v hv) w (hsub w hw)
  replaces v hv w hw := h.replaces v (hsub v hv) w (hsub w hw)

theorem Spaced.latest_unique (h : Spaced key replaces time l) {w : V}
    (hv : Latest key time l k v) (hw : Latest key time l k w) : v = w :=
  h.ne v hv.1 w hw.1 (hv.2.1.trans hw.2.1.symm)
    (le_antisymm (hw.2.2 v hv.1 hv.2.1) (hv.2.2 w hw.1 hw.2.1))

theorem Holds.empty : Holds key time [] (∅ : FMap K V) where
  latest k v hv := by simp at hv
  full v hv := by simp at hv

/-- **One more value.** The latest value of its key is the new one or the one before. -/
theorem Holds.put (h : Holds key time l m) (hord : Ordered key replaces time (l ++ [v])) :
    Holds key time (l ++ [v]) (put key replaces m v) := by
  have hvmem : v ∈ l ++ [v] := by simp
  by_cases hstored : ∀ old, m[key v]? = some old → replaces old v
  · rw [put_of_stored hstored]
    refine ⟨fun k w hw => ?_, fun w hw => ?_⟩
    · rcases FMap.of_get_insert hw with ⟨hk, rfl⟩ | ⟨hk, hw⟩
      · refine ⟨hvmem, hk, forall_mem_append.mpr ⟨fun u hu huk => ?_, by simp⟩⟩
        obtain ⟨old, hold⟩ := isSome_iff_exists.mp (h.full u hu)
        rw [huk, ← hk] at hold
        have hlatest := h.latest _ _ hold
        have hlt := (hord old (mem_append_left _ hlatest.1) v hvmem hlatest.2.1).mp
          (hstored old hold)
        exact (hlatest.2.2 u hu (huk.trans hk.symm)).trans hlt.le
      · obtain ⟨hmem, hkey, hmax⟩ := h.latest k w hw
        exact ⟨mem_append_left _ hmem, hkey, forall_mem_append.mpr ⟨hmax, by simp [hk]⟩⟩
    · rw [FMap.get_insert]
      split_ifs with hk
      · rfl
      · have hold : w ∈ l := by simpa [show w ≠ v from fun heq => hk (heq ▸ rfl)] using hw
        exact h.full w hold
  · push Not at hstored
    rw [put_of_stays hstored]
    obtain ⟨old, hold, hnot⟩ := hstored
    have hlatest := h.latest _ _ hold
    have hle : time v ≤ time old := not_lt.mp fun hlt => hnot
      ((hord old (mem_append_left _ hlatest.1) v hvmem hlatest.2.1).mpr hlt)
    refine ⟨fun k w hw => ?_, forall_mem_append.mpr ⟨h.full, ?_⟩⟩
    · obtain ⟨hmem, hkey, hmax⟩ := h.latest k w hw
      refine ⟨mem_append_left _ hmem, hkey, forall_mem_append.mpr ⟨hmax, ?_⟩⟩
      rw [forall_mem_singleton]
      rintro rfl
      exact mem_unique hold hw ▸ hle
    · rw [forall_mem_singleton, hold]
      rfl

theorem Holds.putAll (h : Ordered key replaces time l) :
    Holds key time l (putAll key replaces ∅ l) := by
  induction l using reverseRecOn with
  | nil => exact Holds.empty
  | append_singleton l v ih =>
    rw [putAll_append]
    exact (ih fun v hv w hw => h v (mem_append_left _ hv) w (mem_append_left _ hw)).put h

/-- **The latest value wins.** -/
theorem latest_iff (h : Spaced key replaces time l) :
    (putAll key replaces ∅ l)[k]? = some v ↔ Latest key time l k v := by
  have hholds := Holds.putAll h.replaces
  refine ⟨hholds.latest k v, fun hv => ?_⟩
  obtain ⟨w, hw⟩ := isSome_iff_exists.mp (hholds.full v hv.1)
  rw [hv.2.1] at hw
  rw [hw, h.latest_unique hv (hholds.latest k w hw)]

/-- So neither the order of the values matters nor how often they come. -/
theorem putAll_congr (h : Spaced key replaces time l) (hmem : ∀ v, v ∈ l' ↔ v ∈ l) :
    putAll key replaces ∅ l' = putAll key replaces ∅ l := by
  refine FMap.ext fun k => ext fun v => ?_
  rw [latest_iff h, latest_iff (h.mono fun v hv => (hmem v).mp hv)]
  simp only [Latest, hmem]

end

end LatestWins
