import Mathlib.Order.WellFounded

/-!
# Loops

A loop is given by one `turn`: from the variables at the head of the loop it fails, returns, or
comes to the head again. `Loop.iterate turn n` makes up to `n` turns. `Loop.Reach` is the variables
that the loop has at its head at some time; `Loop.ends` is the rule for termination, with an
invariant and a well-founded relation that every turn descends in.
-/

namespace Loop

variable {σ ρ ε : Type}

/-- Up to `n` turns: the variables at the head of the loop, or what was returned. -/
def iterate (turn : σ → Except ε (σ ⊕ ρ)) : Nat → σ → Except ε (σ ⊕ ρ)
  | 0, s => .ok (.inl s)
  | n + 1, s =>
    match turn s with
    | .error e => .error e
    | .ok (.inl s') => iterate turn n s'
    | .ok (.inr r) => .ok (.inr r)

/-- The loop comes from `s₀` to its head with the variables `s`. -/
inductive Reach (turn : σ → Except ε (σ ⊕ ρ)) (s₀ : σ) : σ → Prop
  | init : Reach turn s₀ s₀
  | next {s s' : σ} : Reach turn s₀ s → turn s = .ok (.inl s') → Reach turn s₀ s'

variable {turn : σ → Except ε (σ ⊕ ρ)} {s₀ s s' : σ} {r : ρ} {n m : Nat}

/-- **The invariant rule.** -/
theorem Reach.invariant {P : σ → Prop} (hinit : P s₀)
    (hturn : ∀ s s', Reach turn s₀ s → P s → turn s = .ok (.inl s') → P s')
    (h : Reach turn s₀ s) : P s := by
  induction h with
  | init => exact hinit
  | next hreach hstep ih => exact hturn _ _ hreach ih hstep

theorem iterate_succ_of_turn (h : turn s = .ok (.inl s')) :
    iterate turn (n + 1) s = iterate turn n s' := by
  simp only [iterate, h]

theorem Reach.trans (h : Reach turn s₀ s) (h' : Reach turn s s') : Reach turn s₀ s' := by
  induction h' with
  | init => exact h
  | next _ hstep ih => exact .next ih hstep

theorem iterate_one (turn : σ → Except ε (σ ⊕ ρ)) (s : σ) : iterate turn 1 s = turn s := by
  unfold iterate
  split <;> simp only [iterate, *]

/-- What some turns end with is the head of the loop, or comes from a turn at its head. -/
theorem iterate_cases {x : σ ⊕ ρ} (h : iterate turn n s = .ok x) :
    ∃ s', Reach turn s s' ∧ (x = .inl s' ∨ turn s' = .ok x) := by
  induction n generalizing s with
  | zero => exact ⟨s, .init, .inl (Except.ok.inj h).symm⟩
  | succ n ih =>
    cases hturn : turn s with
    | error e => simp [iterate, hturn] at h
    | ok y =>
      cases y with
      | inl s₁ =>
        rw [iterate_succ_of_turn hturn] at h
        obtain ⟨s', hreach, hx⟩ := ih h
        exact ⟨s', (Reach.init.next hturn).trans hreach, hx⟩
      | inr r =>
        rw [iterate, hturn] at h
        exact ⟨s, .init, .inr (hturn.trans h)⟩

/-- After some turns the loop is at its head. -/
theorem reach_of_iterate (h : iterate turn n s = .ok (.inl s')) : Reach turn s s' := by
  obtain ⟨s₁, hreach, heq | hturn⟩ := iterate_cases h
  · rwa [Sum.inl.inj heq]
  · exact hreach.next hturn

/-- What is returned is returned by a turn from the head of the loop. -/
theorem exists_reach_of_return (h : iterate turn n s = .ok (.inr r)) :
    ∃ s', Reach turn s s' ∧ turn s' = .ok (.inr r) := by
  obtain ⟨s', hreach, heq | hturn⟩ := iterate_cases h
  · cases heq
  · exact ⟨s', hreach, hturn⟩

/-- **The termination rule.** When every turn that does not end as it should keeps the invariant
and descends, the loop ends as it should. -/
theorem ends {lt : σ → σ → Prop} (hwf : WellFounded lt) {P : σ → Prop} {Q : Except ε (σ ⊕ ρ) → Prop}
    (hturn : ∀ s, P s → Q (turn s) ∨ ∃ s', turn s = .ok (.inl s') ∧ P s' ∧ lt s' s) (hs : P s) :
    ∃ n, Q (iterate turn n s) := by
  induction s using hwf.induction with
  | h s ih =>
    rcases hturn s hs with hend | ⟨s', hnext, hs', hlt⟩
    · exact ⟨1, by rwa [iterate_one]⟩
    · obtain ⟨n, hn⟩ := ih s' hlt hs'
      exact ⟨n + 1, by rwa [iterate_succ_of_turn hnext]⟩

/-- The variables at the head of the loop in the first `n` turns. -/
def heads (turn : σ → Except ε (σ ⊕ ρ)) : Nat → σ → List σ
  | 0, s => [s]
  | n + 1, s =>
    match turn s with
    | .ok (.inl s') => s :: heads turn n s'
    | _ => [s]

/-- The first turn of a run. -/
theorem Reach.cases_head (h : Reach turn s₀ s) :
    s₀ = s ∨ ∃ s₁, turn s₀ = .ok (.inl s₁) ∧ Reach turn s₁ s := by
  induction h with
  | init => exact .inl rfl
  | next _ hstep ih =>
    obtain rfl | ⟨s₁, h₁, hr₁⟩ := ih
    · exact .inr ⟨_, hstep, .init⟩
    · exact .inr ⟨s₁, h₁, hr₁.next hstep⟩

/-- When the loop returns, what it reaches is a list. -/
theorem Reach.mem_heads (h : Reach turn s s') (hret : iterate turn n s = .ok (.inr r)) :
    s' ∈ heads turn n s := by
  induction n generalizing s with
  | zero => simp [iterate] at hret
  | succ n ih =>
    obtain rfl | ⟨s₁, h₁, hr₁⟩ := h.cases_head
    · unfold heads
      split <;> simp
    · rw [iterate_succ_of_turn h₁] at hret
      simp only [heads, h₁, List.mem_cons]
      exact .inr (ih hr₁ hret)

/-- A turn that changes nothing is made again and again. -/
theorem iterate_of_fixed (h : turn s = .ok (.inl s)) (n : Nat) :
    iterate turn n s = .ok (.inl s) := by
  induction n with
  | zero => rfl
  | succ n ih => rw [iterate_succ_of_turn h, ih]

/-- **A loop that reaches a fixed point never returns.** -/
theorem not_returns_of_fixed (hreach : Reach turn s₀ s) (h : turn s = .ok (.inl s)) (n : Nat) :
    ∃ s', iterate turn n s₀ = .ok (.inl s') := by
  suffices hgen : ∀ s₁, Reach turn s₁ s → ∃ s', iterate turn n s₁ = .ok (.inl s') from
    hgen s₀ hreach
  induction n with
  | zero => exact fun s₁ _ => ⟨s₁, rfl⟩
  | succ n ih =>
    intro s₁ h₁
    obtain rfl | ⟨s₂, h₂, hr₂⟩ := h₁.cases_head
    · exact ⟨s₁, iterate_of_fixed h (n + 1)⟩
    · obtain ⟨s', hs'⟩ := ih s₂ hr₂
      exact ⟨s', (iterate_succ_of_turn h₂).trans hs'⟩

end Loop
