import KmushiCoin.Lib.Codec

/-!
# Prefix-free encodings

An encoding is **prefix-free** on a set of values if two encodings, each followed by anything, are
the same bytes only for the same value and the same rest. A record whose fields are prefix-free can
be taken apart from the front, one field after the other, and a sequence of such records needs no
count.

Every encoding that a reader reads back is prefix-free (`PrefixFree.of_reads`); an encoding that is
too long for its reader can be prefix-free all the same.
-/

namespace Codec

open List

variable {α β : Type} {P : α → Prop} {put : α → Bytes}

/-- Two encodings followed by anything agree only for the same value and the same rest. -/
def PrefixFree (P : α → Prop) (put : α → Bytes) : Prop :=
  ∀ ⦃a b : α⦄, P a → P b → ∀ ⦃r r' : Bytes⦄, put a ++ r = put b ++ r' → a = b ∧ r = r'

theorem PrefixFree.of_reads {g : Get α} (h : ∀ a, P a → Reads g (put a) a) : PrefixFree P put := by
  intro a b ha hb r r' heq
  have hrun := h a ha r
  rw [heq, h b hb r'] at hrun
  obtain ⟨hab, hr⟩ := Prod.mk.inj (Except.ok.inj hrun)
  exact ⟨hab.symm, hr.symm⟩

/-- A sequence of records that are not empty, without their number. -/
theorem PrefixFree.flatMap_inj (h : PrefixFree P put) (hne : ∀ a, put a ≠ []) {l l' : List α}
    (hl : ∀ a ∈ l, P a) (hl' : ∀ a ∈ l', P a) (heq : l.flatMap put = l'.flatMap put) : l = l' := by
  induction l generalizing l' with
  | nil =>
    cases l' with
    | nil => rfl
    | cons b l' =>
      rw [flatMap_nil, flatMap_cons] at heq
      exact absurd (append_eq_nil_iff.mp heq.symm).1 (hne b)
  | cons a l ih =>
    cases l' with
    | nil =>
      rw [flatMap_nil, flatMap_cons] at heq
      exact absurd (append_eq_nil_iff.mp heq).1 (hne a)
    | cons b l' =>
      rw [flatMap_cons, flatMap_cons] at heq
      obtain ⟨rfl, hrest⟩ := h (hl a (.head _)) (hl' b (.head _)) heq
      rw [ih (fun c hc => hl c (.tail _ hc))
        (fun c hc => hl' c (.tail _ hc)) hrest]

/-- Sizes of up to 64 bits. -/
theorem prefixFree_compactSize : PrefixFree (· < 256 ^ 8) putCompactSize :=
  .of_reads fun _ h => reads_compactSizeBody h

theorem putCompactSize_ne_nil (n : Nat) : putCompactSize n ≠ [] := by
  unfold putCompactSize
  split_ifs <;> simp [putLE, toLE]

end Codec
