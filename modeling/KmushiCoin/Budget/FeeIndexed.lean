import KmushiCoin.Lib.ClaimIndex
import KmushiCoin.Primitives.Transaction

/-!
# KmushiCoin.Budget.FeeIndexed

**Objects with an index by fee transaction.** The budget manager stores proposals and finalized
budgets in the same way: a map from hashes to objects, and a map from the hash of an object's fee
transaction to the hash of the object.

* `FeeIndexed.Exact` says that the index is the inverse of the fee field. It holds at the start and
  is kept by the three calls, if an object that is added has a fee transaction of its own.
* `emplace` keeps an entry that is there. An object whose fee transaction is already in the index
  is stored and not indexed, and its removal takes the entry of the other object away.
* `FeeIndexed.SameFees` are the changes of which the index need not know.
-/

namespace KmushiCoin

open FMap Option

/-! ### Objects with an index -/

/-- Objects by their hash, and the hashes by fee transaction. -/
structure FeeIndexed (T : Type) where
  objects : FMap Uint256 T := ∅
  byFeeTx : FMap Uint256 Uint256 := ∅

/-- What the index needs to know about an object. -/
structure FeeKind (T : Type) where
  hash : T → Uint256
  feeTx : T → Uint256

namespace FeeIndexed

variable {T : Type} (kind : FeeKind T)

/-- Store an object and index it. -/
def add (s : FeeIndexed T) (t : T) : FeeIndexed T where
  objects := s.objects.insertIfNew (kind.hash t) t
  byFeeTx := s.byFeeTx.insertIfNew (kind.feeTx t) (kind.hash t)

/-- One round of the loop of `CheckAndRemove`: what is not valid any more loses its entry in the
index, the others go to the new map. -/
def check (updateValid : T → Except String T) (s : FeeIndexed T) (e : Uint256 × T) : FeeIndexed T :=
  match updateValid e.2 with
  | .error _ => { s with byFeeTx := s.byFeeTx.erase (kind.feeTx e.2) }
  | .ok t => { s with objects := s.objects.insertIfNew (kind.hash t) t }

/-- The loop; the new map takes the place of the old one. -/
def checkAndRemove (updateValid : T → Except String T) (s : FeeIndexed T) : FeeIndexed T :=
  s.objects.toList.foldl (check kind updateValid) ⟨∅, s.byFeeTx⟩

/-- Remove what the index has for a fee transaction; `none` if it has nothing. -/
def removeByFeeTxId (s : FeeIndexed T) (feeTxId : Uint256) : Option (Option T × FeeIndexed T) :=
  match s.byFeeTx[feeTxId]? with
  | none => none
  | some nHash => some (s.objects[nHash]?, ⟨s.objects.erase nHash, s.byFeeTx.erase feeTxId⟩)

/-! ### What the calls keep -/

/-- **Exact.** Every object is stored under its hash, and the index is the inverse of the fee
field. -/
structure Exact (s : FeeIndexed T) : Prop where
  keyed : ∀ (nHash : Uint256) (t : T), s.objects[nHash]? = some t → kind.hash t = nHash
  index : ∀ feeTx nHash : Uint256, s.byFeeTx[feeTx]? = some nHash ↔
    ∃ t, s.objects[nHash]? = some t ∧ kind.feeTx t = feeTx

/-- An object has the fee transaction. -/
def Has (s : FeeIndexed T) (feeTx : Uint256) : Prop :=
  ∃ (nHash : Uint256) (t : T), s.objects[nHash]? = some t ∧ kind.feeTx t = feeTx

theorem exact_empty : Exact kind {} where
  keyed nHash t h := by simp at h
  index feeTx nHash := by simp

variable {kind} {s s' : FeeIndexed T} {feeTx : Uint256}

variable {n : Uint256} {t t' : T}

/-- In an exact index the object of a fee transaction is unique. -/
theorem Exact.unique (h : s.Exact kind) {n'} (ht : s.objects[n]? = some t)
    (ht' : s.objects[n']? = some t') (hfee : kind.feeTx t = kind.feeTx t') : n = n' := by
  have hn := (h.index (kind.feeTx t) n).mpr ⟨t, ht, rfl⟩
  have hn' := (h.index (kind.feeTx t) n').mpr ⟨t', ht', hfee.symm⟩
  exact mem_unique hn hn'

theorem Exact.none_iff (h : s.Exact kind) : s.byFeeTx[feeTx]? = none ↔ ¬ s.Has kind feeTx := by
  constructor
  · intro hnone ⟨nHash, t, ht, hfee⟩
    have hsome := (h.index feeTx nHash).mpr ⟨t, ht, hfee⟩
    simp [hnone] at hsome
  · intro hnot
    rw [eq_none_iff_forall_ne_some]
    intro nHash hsome
    obtain ⟨t, ht, hfee⟩ := (h.index feeTx nHash).mp hsome
    exact hnot ⟨nHash, t, ht, hfee⟩

/-- A new object with a fee transaction of its own. -/
theorem Exact.add (h : s.Exact kind) (hnew : s.objects[kind.hash t]? = none)
    (hfee : ¬ s.Has kind (kind.feeTx t)) : (s.add kind t).Exact kind := by
  have hobj : ∀ n : Uint256,
      (s.add kind t).objects[n]? = if kind.hash t = n then some t else s.objects[n]? := by
    intro n
    rw [FeeIndexed.add, get_insertIfNew_of_none hnew]
  have hidx : ∀ f : Uint256, (s.add kind t).byFeeTx[f]? =
      if kind.feeTx t = f then some (kind.hash t) else s.byFeeTx[f]? := by
    intro f
    rw [FeeIndexed.add, get_insertIfNew_of_none (h.none_iff.mpr hfee)]
  refine ⟨?_, ?_⟩
  · intro n t' ht'
    rw [hobj] at ht'
    split_ifs at ht' with hn
    · rw [← some.inj ht', hn]
    · exact h.keyed n t' ht'
  · intro f n
    rw [hidx, hobj]
    by_cases hf : kind.feeTx t = f
    · rw [if_pos hf]
      by_cases hn : kind.hash t = n
      · simp [hn, hf]
      · -- another object would have the same fee transaction
        rw [if_neg hn]
        simp only [some.injEq, hn, false_iff, not_exists, not_and]
        intro t' ht' hfee'
        exact hfee ⟨n, t', ht', hfee'.trans hf.symm⟩
    · rw [if_neg hf, h.index]
      by_cases hn : kind.hash t = n
      · subst hn
        simp [hnew, hf]
      · rw [if_neg hn]

theorem has_add (h : (s.add kind t).Has kind feeTx) : feeTx = kind.feeTx t ∨ s.Has kind feeTx := by
  obtain ⟨n, t', ht', hfee⟩ := h
  rw [FeeIndexed.add, get_insertIfNew] at ht'
  split_ifs at ht' with hn
  · rw [← some.inj ht'] at hfee
    exact .inl hfee.symm
  · exact .inr ⟨n, t', ht', hfee⟩

/-- What the loop leaves of the entries `l`. The accumulator has none of their keys. -/
theorem foldl_check {updateValid : T → Except String T} {l : List (Uint256 × T)}
    (hnodup : (l.map Prod.fst).Nodup) (hnew : ∀ e ∈ l, s.objects[e.1]? = none)
    (hkeyed : ∀ e ∈ l, ∀ t, updateValid e.2 = .ok t → kind.hash t = e.1) :
    (∀ n : Uint256, (l.foldl (check kind updateValid) s).objects[n]? =
      ((l.lookup n).bind fun t => (updateValid t).toOption).or s.objects[n]?) ∧
    (∀ f n : Uint256, (l.foldl (check kind updateValid) s).byFeeTx[f]? = some n ↔
      s.byFeeTx[f]? = some n ∧
        ∀ e ∈ l, kind.feeTx e.2 = f → (updateValid e.2).toOption.isSome) := by
  induction l generalizing s with
  | nil => simp
  | cons e l ih =>
    obtain ⟨k, t⟩ := e
    have hlookup := lookup_none_of_nodup hnodup
    have hnodup' := (List.nodup_cons.mp hnodup).2
    have hne : ∀ e ∈ l, k ≠ e.1 := by
      intro e he heq
      exact (List.nodup_cons.mp hnodup).1 (List.mem_map.mpr ⟨e, he, heq.symm⟩)
    have hkeyed' := fun e he => hkeyed e (.tail _ he)
    rw [List.foldl_cons]
    cases hvalid : updateValid t with
    | error reason =>
      have hcheck : check kind updateValid s (k, t) =
          { s with byFeeTx := s.byFeeTx.erase (kind.feeTx t) } := by
        simp [check, hvalid]
      obtain ⟨hobj, hidx⟩ := ih (s := { s with byFeeTx := s.byFeeTx.erase (kind.feeTx t) }) hnodup'
        (fun e he => hnew e (.tail _ he)) hkeyed'
      rw [hcheck]
      refine ⟨fun n => ?_, fun f n => ?_⟩
      · rw [hobj, List.lookup_cons]
        by_cases hn : n = k
        · subst hn
          simp [hlookup, hvalid, Except.toOption]
        · have hbeq : (n == k) = false := beq_eq_false_iff_ne.mpr hn
          simp [hbeq]
      · rw [hidx, get_erase]
        by_cases hf : kind.feeTx t = f
        · simp [hf, hvalid, Except.toOption]
        · simp [hf]
    | ok t' =>
      have hhash : kind.hash t' = k := hkeyed (k, t) (.head _) t' hvalid
      have hcheck : check kind updateValid s (k, t) =
          { s with objects := s.objects.insertIfNew k t' } := by
        simp [check, hvalid, hhash]
      have hk : s.objects[k]? = none := hnew (k, t) (.head _)
      obtain ⟨hobj, hidx⟩ := ih (s := { s with objects := s.objects.insertIfNew k t' }) hnodup'
        (fun e he => by
          rw [get_insertIfNew_of_none hk, if_neg (hne e he)]
          exact hnew e (.tail _ he)) hkeyed'
      rw [hcheck]
      refine ⟨fun n => ?_, fun f n => ?_⟩
      · rw [hobj, List.lookup_cons, get_insertIfNew_of_none hk]
        by_cases hn : n = k
        · subst hn
          simp [hlookup, hvalid, Except.toOption]
        · have hbeq : (n == k) = false := beq_eq_false_iff_ne.mpr hn
          simp [hbeq, Ne.symm hn]
      · rw [hidx]
        simp [hvalid, Except.toOption]

section
variable {updateValid : T → Except String T}
  (hkeeps : ∀ t t', updateValid t = .ok t' →
    kind.hash t' = kind.hash t ∧ kind.feeTx t' = kind.feeTx t)
include hkeeps

theorem Exact.checkAndRemove_maps (h : s.Exact kind) :
    (∀ n : Uint256, (s.checkAndRemove kind updateValid).objects[n]? =
      s.objects[n]?.bind fun t => (updateValid t).toOption) ∧
    (∀ f n : Uint256, (s.checkAndRemove kind updateValid).byFeeTx[f]? = some n ↔
      s.byFeeTx[f]? = some n ∧
        ∀ e ∈ s.objects.toList, kind.feeTx e.2 = f → (updateValid e.2).toOption.isSome) := by
  have hkeyed : ∀ e ∈ s.objects.toList, ∀ t, updateValid e.2 = .ok t → kind.hash t = e.1 := by
    intro e he t ht
    rw [(hkeeps e.2 t ht).1]
    exact h.keyed e.1 e.2 (mem_toList.mp he)
  obtain ⟨hobj, hidx⟩ := foldl_check (s := ⟨∅, s.byFeeTx⟩) (nodup_keys s.objects)
    (fun e _ => get_empty e.1) hkeyed
  refine ⟨fun n => ?_, hidx⟩
  rw [checkAndRemove, hobj, lookup_toList, get_empty, or_none]

/-- What is left was there before, with the same hash and fee transaction. -/
theorem Exact.of_checkAndRemove (h : s.Exact kind)
    (ht' : (s.checkAndRemove kind updateValid).objects[n]? = some t') :
    ∃ t, s.objects[n]? = some t ∧ updateValid t = .ok t' := by
  rw [(h.checkAndRemove_maps hkeeps).1, bind_eq_some_iff] at ht'
  obtain ⟨t, ht, hvalid⟩ := ht'
  refine ⟨t, ht, ?_⟩
  cases hu : updateValid t with
  | error reason => simp [hu, Except.toOption] at hvalid
  | ok u => simpa [hu, Except.toOption] using hvalid

theorem Exact.has_of_checkAndRemove (h : s.Exact kind)
    (hhas : (s.checkAndRemove kind updateValid).Has kind feeTx) : s.Has kind feeTx := by
  obtain ⟨n, t', ht', hfee⟩ := hhas
  obtain ⟨t, ht, hvalid⟩ := h.of_checkAndRemove hkeeps ht'
  exact ⟨n, t, ht, by rw [← (hkeeps t t' hvalid).2, hfee]⟩

theorem Exact.checkAndRemove (h : s.Exact kind) :
    (s.checkAndRemove kind updateValid).Exact kind where
  keyed n t' ht' := by
    obtain ⟨t, ht, hvalid⟩ := h.of_checkAndRemove hkeeps ht'
    rw [(hkeeps t t' hvalid).1, h.keyed n t ht]
  index f n := by
    obtain ⟨hobj, hidx⟩ := h.checkAndRemove_maps hkeeps
    rw [hidx, h.index]
    constructor
    · intro ⟨⟨t, ht, hfee⟩, hall⟩
      have hsome := hall (n, t) (mem_toList.mpr ht) hfee
      cases hu : updateValid t with
      | error reason => simp [hu, Except.toOption] at hsome
      | ok t' =>
        exact ⟨t', by simp [hobj, ht, hu, Except.toOption], (hkeeps t t' hu).2.trans hfee⟩
    · intro ⟨t', ht', hfee'⟩
      obtain ⟨t, ht, hvalid⟩ := h.of_checkAndRemove hkeeps ht'
      have hfee : kind.feeTx t = f := (hkeeps t t' hvalid).2.symm.trans hfee'
      refine ⟨⟨t, ht, hfee⟩, fun e he hfee' => ?_⟩
      -- the entry goes with an object that is not valid; here that is `t` itself
      have he' := mem_toList.mp he
      have hn := h.unique he' ht (hfee'.trans hfee.symm)
      rw [hn, ht] at he'
      rw [← some.inj he', hvalid]
      rfl

end

/-- If the index has an entry, the object goes, and no other object has the fee transaction. -/
theorem Exact.removeByFeeTxId_some (h : s.Exact kind) {t}
    (hrem : s.removeByFeeTxId feeTx = some (t, s')) :
    s.Has kind feeTx ∧ s'.Exact kind ∧ ∀ f, s'.Has kind f ↔ s.Has kind f ∧ f ≠ feeTx := by
  unfold removeByFeeTxId at hrem
  split at hrem
  · cases hrem
  rename_i nHash hn
  simp only [some.injEq, Prod.mk.injEq] at hrem
  obtain ⟨t₀, ht₀, hfee₀⟩ := (h.index feeTx nHash).mp hn
  obtain ⟨-, hs'⟩ := hrem
  have hleft : ∀ (n : Uint256) (t : T), s'.objects[n]? = some t ↔
      s.objects[n]? = some t ∧ kind.feeTx t ≠ feeTx := by
    intro n t
    rw [← hs', get_erase]
    split_ifs with heq
    · subst heq
      simp only [ht₀, false_iff, not_and, some.injEq, not_not]
      exact fun heq => heq ▸ hfee₀
    · refine ⟨fun ht => ⟨ht, fun hfee => heq ?_⟩, And.left⟩
      exact h.unique ht₀ ht (hfee₀.trans hfee.symm)
  refine ⟨⟨nHash, t₀, ht₀, hfee₀⟩,
    ⟨fun n t ht => h.keyed n t ((hleft n t).mp ht).1, fun f n => ?_⟩, fun f => ?_⟩
  · rw [← hs', get_erase, hs']
    split_ifs with hf
    · simp only [false_iff, not_exists, not_and]
      intro t ht hfee
      exact ((hleft n t).mp ht).2 (hfee.trans hf.symm)
    · rw [h.index]
      refine exists_congr fun t => ?_
      rw [hleft, and_assoc, and_congr_right_iff]
      intro _
      exact ⟨fun hfee => ⟨fun hfee' => hf (hfee'.symm.trans hfee), hfee⟩, And.right⟩
  · constructor
    · intro ⟨n, t, ht, hfee⟩
      exact ⟨⟨n, t, ((hleft n t).mp ht).1, hfee⟩, hfee ▸ ((hleft n t).mp ht).2⟩
    · intro ⟨⟨n, t, ht, hfee⟩, hne⟩
      exact ⟨n, t, (hleft n t).mpr ⟨ht, hfee ▸ hne⟩, hfee⟩

theorem Exact.removeByFeeTxId_none (h : s.Exact kind) (hrem : s.removeByFeeTxId feeTx = none) :
    ¬ s.Has kind feeTx := by
  apply h.none_iff.mp
  unfold removeByFeeTxId at hrem
  cases hn : s.byFeeTx[feeTx]? with
  | none => rfl
  | some nHash => simp [hn] at hrem

/-! ### Changes that the index does not see -/

variable (kind) in
/-- The same objects up to what is neither part of the hash nor the fee transaction. -/
def SameFees (s s' : FeeIndexed T) : Prop :=
  s'.byFeeTx = s.byFeeTx ∧
    ∀ n : Uint256, s'.objects[n]?.map (fun t => (kind.hash t, kind.feeTx t)) =
      s.objects[n]?.map fun t => (kind.hash t, kind.feeTx t)

theorem SameFees.refl (s : FeeIndexed T) : SameFees kind s s := ⟨rfl, fun _ => rfl⟩
section

variable (h : SameFees kind s s')
include h


theorem SameFees.trans {s''} (h' : SameFees kind s' s'') : SameFees kind s s'' :=
  ⟨h'.1.trans h.1, fun n => (h'.2 n).trans (h.2 n)⟩

theorem SameFees.symm : SameFees kind s' s :=
  ⟨h.1.symm, fun n => (h.2 n).symm⟩

theorem SameFees.get (ht' : s'.objects[n]? = some t') :
    ∃ t, s.objects[n]? = some t ∧ kind.hash t = kind.hash t' ∧ kind.feeTx t = kind.feeTx t' := by
  have hn := h.2 n
  rw [ht', map_some, eq_comm, map_eq_some_iff] at hn
  obtain ⟨t, ht, heq⟩ := hn
  exact ⟨t, ht, congrArg Prod.fst heq, congrArg Prod.snd heq⟩

theorem SameFees.has (hhas : s'.Has kind feeTx) : s.Has kind feeTx := by
  obtain ⟨n, t', ht', hfee⟩ := hhas
  obtain ⟨t, ht, -, heq⟩ := h.get ht'
  exact ⟨n, t, ht, heq.trans hfee⟩

theorem SameFees.exact (hs : s.Exact kind) : s'.Exact kind where
  keyed n t' ht' := by
    obtain ⟨t, ht, hhash, -⟩ := h.get ht'
    rw [← hhash, hs.keyed n t ht]
  index f n := by
    rw [h.1, hs.index]
    constructor
    · intro ⟨t, ht, hfee⟩
      obtain ⟨t', ht', -, heq⟩ := h.symm.get ht
      exact ⟨t', ht', heq.trans hfee⟩
    · intro ⟨t', ht', hfee⟩
      obtain ⟨t, ht, -, heq⟩ := h.get ht'
      exact ⟨t, ht, heq.trans hfee⟩

end

/-- An object takes the place of one with the same hash and fee transaction. -/
theorem SameFees.insert (ht : s.objects[n]? = some t) (hhash : kind.hash t' = kind.hash t)
    (hfee : kind.feeTx t' = kind.feeTx t) :
    SameFees kind s { s with objects := s.objects.insert n t' } := by
  refine ⟨rfl, fun m => ?_⟩
  rw [get_insert]
  split_ifs with hm
  · subst hm
    simp [ht, hhash, hfee]
  · rfl

theorem SameFees.map {f : Uint256 → T → T} (hhash : ∀ n t, kind.hash (f n t) = kind.hash t)
    (hfee : ∀ n t, kind.feeTx (f n t) = kind.feeTx t) :
    SameFees kind s { s with objects := s.objects.map f } := by
  refine ⟨rfl, fun n => ?_⟩
  rw [Std.ExtTreeMap.getElem?_map, map_map]
  exact congrArg (s.objects[n]?.map ·) (funext fun t => Prod.ext (hhash n t) (hfee n t))

end FeeIndexed

end KmushiCoin
