import KmushiCoin.Primitives.Transaction

/-!
# KmushiCoin.Wallet.NoteData

**Sapling note data of a wallet transaction**: what the wallet knows about each shielded output.
When the transaction is added again, `UpdatedNoteData` takes the notes of the new version and keeps
the witnesses that are cached for the old one. It looks up every old note in the new version, also
where it has just seen that the note is not there, and keeps no nullifier (`updatedNoteData_iff`).
-/

namespace KmushiCoin

open Codec (Bytes)

/-- `SaplingNoteData`, over any type of witnesses. -/
structure SaplingNoteData (W : Type) where
  witnesses : List W := []
  ivk : Option Uint256 := none
  amount : Option Int := none
  address : Option Bytes := none
  memo : Option Bytes := none
  witnessHeight : Int := -1
  nullifier : Option Uint256 := none
  deriving DecidableEq

/-- `mapSaplingNoteData_t`. -/
abbrev NoteDataMap (W : Type) : Type := FMap OutPoint (SaplingNoteData W)

variable {W : Type}

/-- What `operator==` compares: everything but the witnesses. -/
def NoteDataMap.compared (notes : NoteDataMap W) : List (OutPoint × SaplingNoteData Empty) :=
  notes.toList.map fun e => (e.1, { e.2 with witnesses := [] })

/-- The new data of a note, with the cache of the old data; `at` throws where there is none. -/
def SaplingNoteData.keepCache (old : SaplingNoteData W) :
    Option (SaplingNoteData W) → Outcome (Option (SaplingNoteData W))
  | none => .error (.throw "map::at")
  | some nd => .ok (some { nd with
      witnesses := if old.witnesses.length > 0 then old.witnesses else nd.witnesses
      witnessHeight := old.witnessHeight })

/-- The notes that are left of the old version `wtx`, and whether they changed. -/
def updatedNoteData (wtxIn wtx : NoteDataMap W) : Outcome (NoteDataMap W × Bool) :=
  if wtxIn.isEmpty ∨ wtxIn.compared = wtx.compared then .ok (wtx, false)
  else do
    let tmp ← FMap.mergeM (fun _ nd old => old.keepCache nd) wtxIn wtx
    pure (tmp, true)

/-- The notes of both versions, with what was known about those of the old one. -/
structure NoteDataMap.Merges (notes wtxIn wtx : NoteDataMap W) : Prop where
  old : ∀ {op : OutPoint} {nd}, wtx[op]? = some nd → ∃ nd', notes[op]? = some nd' ∧
    (nd.witnesses ≠ [] → nd'.witnesses = nd.witnesses) ∧ nd'.witnessHeight = nd.witnessHeight ∧
    ∀ nf, nd.nullifier = some nf → nd'.nullifier = some nf
  new : ∀ {op : OutPoint} {nd}, wtx[op]? = none → wtxIn[op]? = some nd → notes[op]? = some nd

variable {wtxIn wtx : NoteDataMap W}

theorem NoteDataMap.isSome_of_compared {op : OutPoint} {nd : SaplingNoteData W}
    (h : wtxIn.compared = wtx.compared) (hnd : wtxIn[op]? = some nd) : wtx[op]? ≠ none := by
  have hmem : op ∈ wtxIn.compared.map Prod.fst := by
    simp only [compared, List.map_map]
    exact List.mem_map.mpr ⟨(op, nd), FMap.mem_toList.mpr hnd, rfl⟩
  rw [h, compared, List.map_map] at hmem
  obtain ⟨e, he, rfl⟩ := List.mem_map.mp hmem
  simp [FMap.mem_toList.mp he]

/-- **The merge of note data.** It returns and keeps every note with what is known about it exactly
when nothing is to be done or the new version has all the old notes, with their nullifiers. -/
theorem updatedNoteData_iff (wtxIn wtx : NoteDataMap W) :
    (∃ notes changed, updatedNoteData wtxIn wtx = .ok (notes, changed) ∧ notes.Merges wtxIn wtx) ↔
    (wtxIn.isEmpty ∨ wtxIn.compared = wtx.compared) ∨
      ∀ (op : OutPoint) nd, wtx[op]? = some nd → ∃ nd', wtxIn[op]? = some nd' ∧
        ∀ nf, nd.nullifier = some nf → nd'.nullifier = some nf := by
  unfold updatedNoteData
  split_ifs with hsame
  · refine iff_of_true ⟨wtx, false, rfl, fun hnd => ⟨_, hnd, fun _ => rfl, rfl, fun _ => id⟩, ?_⟩
      (.inl hsame)
    intro op nd hnone hnd
    rcases hsame with hempty | hsame
    · obtain rfl := Std.ExtTreeMap.isEmpty_iff.mp hempty
      simp at hnd
    · exact absurd hnone (NoteDataMap.isSome_of_compared hsame hnd)
  · rw [or_iff_right hsame]
    constructor
    · rintro ⟨notes, changed, hrun, hkept⟩ op nd hnd
      obtain ⟨tmp, hmerge, hpure⟩ := bind_ok.mp hrun
      cases hpure
      have hget := FMap.mergeM_ok.mp hmerge op
      obtain ⟨nd', hnd', -, -, hnullifier⟩ := hkept.old hnd
      cases hnew : wtxIn[op]? with
      | none => simp [hnd, hnew, SaplingNoteData.keepCache] at hget
      | some new =>
        simp only [hnd, hnew, hnd', SaplingNoteData.keepCache, Except.ok.injEq, Option.some.injEq] at hget
        subst hget
        exact ⟨new, rfl, hnullifier⟩
    · intro hall
      obtain ⟨notes, hmerge⟩ : ∃ notes, FMap.mergeM (fun _ nd old => old.keepCache nd) wtxIn wtx =
          .ok notes := FMap.mergeM_run fun op old hold => by
        obtain ⟨nd, hnd, -⟩ := hall op old hold
        exact ⟨_, by rw [hnd]; rfl⟩
      refine ⟨notes, true, by rw [hmerge]; rfl, fun {op nd} hnd => ?_, fun {op nd} hnone hnd => ?_⟩
      · have hget := FMap.mergeM_ok.mp hmerge op
        obtain ⟨nd', hnd', hnullifier⟩ := hall op nd hnd
        simp only [hnd, hnd', SaplingNoteData.keepCache, Except.ok.injEq] at hget
        exact ⟨_, hget.symm, fun hne => if_pos (List.length_pos_iff.mpr hne), rfl, hnullifier⟩
      · have hget := FMap.mergeM_ok.mp hmerge op
        simp only [hnone] at hget
        rw [hget, hnd]

/-- An old note that the new version does not have, and a nullifier that only the old one has. -/
theorem Sample.notes_lost :
    updatedNoteData (.insert ∅ ⟨1, 1⟩ {}) (.insert ∅ ⟨1, 0⟩ {} : NoteDataMap Nat) =
      .error (.throw "map::at") ∧
    ∀ r, updatedNoteData (.insert ∅ ⟨1, 0⟩ {})
        (.insert ∅ ⟨1, 0⟩ { nullifier := some 7 } : NoteDataMap Nat) = .ok r →
      (r.1[(⟨1, 0⟩ : OutPoint)]?).bind (·.nullifier) = none := by
  decide

end KmushiCoin
