import Mathlib.Data.Finset.Max
import Mathlib.Data.Finset.Sort
import Mathlib.Logic.Relation

set_option linter.unusedSectionVars false

/-!
# Reachability by a worklist

`Worklist.closeFrom` is the traversal of a graph with a set of staged nodes and a set of recorded
ones: the least staged node is recorded and its successors that are not recorded are staged, until
nothing is staged. Some nodes can have a **cache** of what lies below them; the traversal takes
the cache over and does not enter such a node.

`mem_closeFrom` says what is recorded without caches: exactly what can be reached.
-/

namespace Worklist

open Finset

variable {V : Type} [LinearOrder V]

/-- Whether a node can be reached from another along successors, in any number of steps. -/
abbrev Reach (next : V → Finset V) : V → V → Prop := Relation.ReflTransGen fun a b => b ∈ next a

/-- Whether a node lies below another: in at least one step. -/
abbrev Below (next : V → Finset V) : V → V → Prop := Relation.TransGen fun a b => b ∈ next a

/-- A successor is met: its cache is recorded, or it is staged unless it is recorded. -/
def visit (cache : V → Option (Finset V)) (s : Finset V × Finset V) (c : V) :
    Finset V × Finset V :=
  match cache c with
  | some below => (s.1, s.2 ∪ below)
  | none => if c ∈ s.2 then s else (insert c s.1, s.2)

/-- The traversal, from the staged and the recorded nodes. -/
def closeFrom (next : V → Finset V) (cache : V → Option (Finset V)) :
    Nat → Finset V → Finset V → Finset V
  | 0, _, done => done
  | fuel + 1, stage, done =>
    if h : stage.Nonempty then
      let x := stage.min' h
      let s := ((next x).sort (· ≤ ·)).foldl (visit cache) (stage.erase x, insert x done)
      closeFrom next cache fuel s.1 s.2
    else done

variable {next : V → Finset V}

/-- Without caches the successors that are not recorded are staged. -/
theorem foldl_visit (l : List V) (stage done : Finset V) :
    l.foldl (visit fun _ => none) (stage, done) = (stage ∪ (l.toFinset \ done), done) := by
  induction l generalizing stage with
  | nil => simp
  | cons c l ih =>
    rw [List.foldl_cons, visit]
    dsimp only
    split_ifs with hc
    · rw [ih, List.toFinset_cons, insert_sdiff_of_mem _ hc]
    · rw [ih, List.toFinset_cons, insert_sdiff_of_notMem _ hc, insert_union,
        union_insert]

/-- What lies below a recorded node is recorded, or lies below a staged one. -/
theorem mem_of_reach {stage done} (hdone : ∀ y ∈ done, next y ⊆ done ∪ stage) {y d : V}
    (h : Reach next y d) (hy : y ∈ done) : d ∈ done ∨ ∃ s ∈ stage, Reach next s d := by
  induction h using Relation.ReflTransGen.head_induction_on with
  | refl => exact .inl hy
  | @head y c hstep hrest ih =>
    rcases mem_union.mp (hdone y hy hstep) with hc | hc
    · exact ih hc
    · exact .inr ⟨c, hc, hrest⟩

/-- **Without caches** exactly what can be reached is recorded. -/
theorem mem_closeFrom {U} (hnext : ∀ x ∈ U, next x ⊆ U) {fuel : Nat}
    {stage done} (hstage : stage ⊆ U) (hfuel : (stage ∪ (U \ done)).card ≤ fuel)
    (hdone : ∀ y ∈ done, next y ⊆ done ∪ stage) {d : V} :
    d ∈ closeFrom next (fun _ => none) fuel stage done ↔
      d ∈ done ∨ ∃ s ∈ stage, Reach next s d := by
  induction fuel generalizing stage done with
  | zero =>
    have hempty := union_eq_empty.mp (card_eq_zero.mp (Nat.le_zero.mp hfuel))
    simp [closeFrom, hempty.1]
  | succ fuel ih =>
    rw [closeFrom]
    split_ifs with hne
    · -- one node is recorded, and its successors are staged
      set x := stage.min' hne with hx
      have hmem : x ∈ stage := stage.min'_mem hne
      dsimp only
      rw [foldl_visit, sort_toFinset]
      have hdone' : ∀ y ∈ insert x done, next y ⊆
          insert x done ∪ (stage.erase x ∪ (next x \ insert x done)) := by
        intro y hy c hc
        have hold : y ∈ done → c ∈ done ∪ stage := fun hy => hdone y hy hc
        simp only [mem_union, mem_insert, mem_erase, mem_sdiff] at *
        rcases hy with rfl | hy
        · tauto
        · rcases hold hy with h | h <;> tauto
      rw [ih ?_ ?_ hdone']
      · constructor
        · intro h
          rcases h with hd | ⟨s, hs, hsd⟩
          · rcases mem_insert.mp hd with rfl | hd
            · exact .inr ⟨x, hmem, .refl⟩
            · exact .inl hd
          · rcases mem_union.mp hs with hs | hs
            · exact .inr ⟨s, mem_of_mem_erase hs, hsd⟩
            · exact .inr ⟨x, hmem, .head (mem_sdiff.mp hs).1 hsd⟩
        · intro h
          rcases h with hd | ⟨s, hs, hsd⟩
          · exact .inl (mem_insert_of_mem hd)
          · by_cases hsx : s = x
            · exact mem_of_reach hdone' (hsx ▸ hsd) (mem_insert_self x done)
            · exact .inr ⟨s, mem_union_left _ (mem_erase.mpr ⟨hsx, hs⟩), hsd⟩
      · exact union_subset ((erase_subset _ _).trans hstage)
          (sdiff_subset.trans (hnext x (hstage hmem)))
      · -- the recorded node was staged, and is neither staged nor left now
        refine Nat.le_of_lt_succ (lt_of_lt_of_le (card_lt_card ?_) hfuel)
        refine (ssubset_iff_of_subset fun y hy => ?_).mpr
          ⟨x, mem_union_left _ hmem, by simp⟩
        have hsub : y ∈ next x → y ∈ U := fun hy => hnext x (hstage hmem) hy
        simp only [mem_union, mem_insert, mem_erase, mem_sdiff] at *
        tauto
    · simp [not_nonempty_iff_eq_empty.mp hne]

end Worklist
