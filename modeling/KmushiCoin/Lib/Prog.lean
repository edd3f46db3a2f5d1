import Mathlib

/-!
# Programs with state and failures

A `Prog σ ε α` changes a state and returns a result or fails; a failure **keeps the
changes** made before it, as an exception does. `Triple P x Q E` is the contract of a
program: from a state with `P`, a result comes with `Q` and a failure with `E`. The rules
compose contracts along a `do` block, so a proof about a program follows its text.
-/

/-- A program over the state `σ` that may fail with an `ε`. -/
abbrev Prog (σ ε α : Type) : Type := ExceptT ε (StateM σ) α

namespace Prog

variable {σ ε α β : Type}

/-- Run a program: its result or failure, and the state it leaves. -/
def exec (x : Prog σ ε α) (s : σ) : Except ε α × σ := x.run.run s

@[simp] theorem exec_pure (a : α) (s : σ) : (pure a : Prog σ ε α).exec s = (.ok a, s) := rfl

@[simp] theorem exec_throw (e : ε) (s : σ) : (throw e : Prog σ ε α).exec s = (.error e, s) := rfl

@[simp] theorem exec_get (s : σ) : (get : Prog σ ε σ).exec s = (.ok s, s) := rfl

@[simp] theorem exec_modify (f : σ → σ) (s : σ) :
    (modify f : Prog σ ε PUnit).exec s = (.ok ⟨⟩, f s) := rfl

theorem exec_bind (x : Prog σ ε α) (f : α → Prog σ ε β) (s : σ) : (x >>= f).exec s =
      match x.exec s with
      | (.ok a, s') => (f a).exec s'
      | (.error e, s') => (.error e, s') := by
  simp only [exec, ExceptT.run_bind, StateT.run_bind]
  rcases x.run.run s with ⟨_ | _, _⟩ <;> rfl

/-- A computation without state. -/
def ofExcept (r : Except ε α) : Prog σ ε α :=
  match r with
  | .ok a => pure a
  | .error e => throw e

@[simp] theorem exec_ofExcept (r : Except ε α) (s : σ) :
    (ofExcept r : Prog σ ε α).exec s = (r, s) := by
  cases r <;> rfl

/-- Run a program and change the way it fails. -/
def mapError (f : ε → ε) (x : Prog σ ε α) : Prog σ ε α :=
  ExceptT.adapt f x

theorem exec_mapError (f : ε → ε) (x : Prog σ ε α) (s : σ) : (mapError f x).exec s =
      match x.exec s with
      | (.ok a, s') => (.ok a, s')
      | (.error e, s') => (.error (f e), s') := by
  show ((x.exec s).1.mapError f, (x.exec s).2) = _
  rcases x.exec s with ⟨_ | _, _⟩ <;> rfl

/-- Run a program only when the condition holds. -/
def onlyWhen (c : Bool) (x : Prog σ ε Unit) : Prog σ ε Unit := if c then x else pure ()

/-! ### Parts of a state -/

section
variable {τ : Type}

/-- Run a program on the first part of a state. -/
def onFst (x : Prog σ ε α) : Prog (σ × τ) ε α :=
  ExceptT.mk fun s => ((x.exec s.1).1, ((x.exec s.1).2, s.2))

/-- Run a program on the second part of a state. -/
def onSnd (x : Prog τ ε α) : Prog (σ × τ) ε α :=
  ExceptT.mk fun s => ((x.exec s.2).1, (s.1, (x.exec s.2).2))

@[simp] theorem exec_onFst (x : Prog σ ε α) (s : σ × τ) :
    (onFst x).exec s = ((x.exec s.1).1, ((x.exec s.1).2, s.2)) := rfl

@[simp] theorem exec_onSnd (x : Prog τ ε α) (s : σ × τ) :
    (onSnd x).exec s = ((x.exec s.2).1, (s.1, (x.exec s.2).2)) := rfl

/-- A loop over the first part of a state. -/
theorem exec_forM_onFst {γ : Type} (f : γ → Prog σ ε PUnit) (l : List γ) (s : σ × τ) :
    (l.forM fun c => onFst (f c)).exec s =
      (((l.forM f).exec s.1).1, (((l.forM f).exec s.1).2, s.2)) := by
  induction l generalizing s with
  | nil => rfl
  | cons c l ih =>
    have hlifted : ((c :: l).forM fun c => (onFst (f c) : Prog (σ × τ) ε PUnit)) =
        onFst (f c) >>= fun _ => l.forM fun c => onFst (f c) := rfl
    have hplain : (c :: l).forM f = f c >>= fun _ => l.forM f := rfl
    rw [hlifted, hplain, exec_bind, exec_bind, exec_onFst]
    rcases (f c).exec s.1 with ⟨e | _, s'⟩
    · rfl
    · exact ih (s', s.2)

end

/-! ### Contracts -/

/-- From a state with `P`, the program returns with `Q` or fails with `E`. -/
def Triple (P : σ → Prop) (x : Prog σ ε α) (Q : α → σ → Prop) (E : ε → σ → Prop) : Prop :=
  ∀ s, P s →
    match x.exec s with
    | (.ok a, s') => Q a s'
    | (.error e, s') => E e s'

namespace Triple

variable {P P' : σ → Prop} {Q Q' : α → σ → Prop} {E E' : ε → σ → Prop} {x : Prog σ ε α}

theorem ok (h : Triple P x Q E) {s s' : σ} {a : α} (hs : P s) (hx : x.exec s = (.ok a, s')) :
    Q a s' := by
  have hr := h s hs
  rwa [hx] at hr

theorem error (h : Triple P x Q E) {s s' : σ} {e : ε} (hs : P s)
    (hx : x.exec s = (.error e, s')) : E e s' := by
  have hr := h s hs
  rwa [hx] at hr

/-- Whatever the outcome, the state left has what both postconditions have. -/
theorem state (h : Triple P x Q E) {R : σ → Prop} (hQ : ∀ a s, Q a s → R s)
    (hE : ∀ e s, E e s → R s) {s : σ} (hs : P s) : R (x.exec s).2 := by
  have hr := h s hs
  rcases hx : x.exec s with ⟨e | a, s'⟩ <;> rw [hx] at hr
  · exact hE e s' hr
  · exact hQ a s' hr

theorem conseq (h : Triple P x Q E) (hP : ∀ s, P' s → P s) (hQ : ∀ a s, Q a s → Q' a s)
    (hE : ∀ e s, E e s → E' e s) : Triple P' x Q' E' := by
  intro s hs
  have hr := h s (hP s hs)
  revert hr
  rcases x.exec s with ⟨e | a, s'⟩
  · exact hE e s'
  · exact hQ a s'

theorem failing (h : Triple P x Q E) (hE : ∀ e s, E e s → E' e s) : Triple P x Q E' :=
  h.conseq (fun _ h => h) (fun _ _ h => h) hE

theorem pure {a : α} (h : ∀ s, P s → Q a s) : Triple P (Pure.pure a) Q E := fun s hs => h s hs

theorem throw {e : ε} (h : ∀ s, P s → E e s) : Triple P (MonadExcept.throw e : Prog σ ε α) Q E :=
  fun s hs => h s hs

theorem modify {f : σ → σ} {Q : PUnit → σ → Prop} (h : ∀ s, P s → Q ⟨⟩ (f s)) :
    Triple P (modify f : Prog σ ε PUnit) Q E := fun s hs => h s hs

theorem ofExcept {r} (hok : ∀ a s, r = .ok a → P s → Q a s)
    (herr : ∀ e s, r = .error e → P s → E e s) : Triple P (Prog.ofExcept r) Q E := by
  intro s hs
  rw [exec_ofExcept]
  cases hr : r with
  | ok a => exact hok a s hr hs
  | error e => exact herr e s hr hs

/-- The state is read: the rest is proved for a known state. -/
theorem get_bind {f : σ → Prog σ ε α} (h : ∀ s, P s → Triple (fun s' => s' = s) (f s) Q E) :
    Triple P (get >>= f) Q E := by
  intro s hs
  rw [exec_bind, exec_get]
  exact h s hs s rfl

theorem bind {y} {f : β → Prog σ ε α} {R : β → σ → Prop} (hy : Triple P y R E)
    (hf : ∀ b, Triple (R b) (f b) Q E) : Triple P (y >>= f) Q E := by
  intro s hs
  rw [exec_bind]
  have hr := hy s hs
  revert hr
  rcases y.exec s with ⟨e | b, s'⟩
  · exact id
  · exact hf b s'

theorem map {y} {f : β → α} (hy : Triple P y (fun b => Q (f b)) E) : Triple P (f <$> y) Q E :=
  hy.bind fun _ => .pure fun _ h => h

theorem mapError {f : ε → ε} (h : Triple P x Q fun e => E (f e)) :
    Triple P (Prog.mapError f x) Q E := by
  intro s hs
  rw [exec_mapError]
  have hr := h s hs
  revert hr
  rcases x.exec s with ⟨e | a, s'⟩ <;> exact id

theorem onlyWhen {c} {x} {Q : Unit → σ → Prop}
    (htrue : c = true → Triple P x Q E) (hfalse : c = false → ∀ s, P s → Q () s) :
    Triple P (Prog.onlyWhen c x) Q E := by
  cases c with
  | true => exact htrue rfl
  | false => exact fun s hs => hfalse rfl s hs

end Triple

end Prog
