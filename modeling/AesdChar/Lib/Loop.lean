import Mathlib.Tactic

/-!
# Loops with fuel

A C loop is a body that either goes round again with a new state, leaves with a result, or does
not come back.  `run body n s` gives the body `n` rounds; `none` says that the loop has not left
by then.
-/

namespace Loop

inductive Step (σ ρ : Type) where
  | next (s : σ)
  | done (r : ρ)
  | hang

variable {σ ρ : Type}

def Step.map {σ' ρ' : Type} (f : σ → σ') (g : ρ → ρ') : Step σ ρ → Step σ' ρ'
  | .next s => .next (f s)
  | .done r => .done (g r)
  | .hang => .hang

theorem Step.map_eq_next_iff {σ' ρ' : Type} {f : σ → σ'} {g : ρ → ρ'} {step : Step σ ρ} {s' : σ'} :
    step.map f g = .next s' ↔ ∃ s, step = .next s ∧ f s = s' := by
  cases step <;> simp [Step.map]

theorem Step.map_eq_hang_iff {σ' ρ' : Type} {f : σ → σ'} {g : ρ → ρ'} {step : Step σ ρ} :
    step.map f g = .hang ↔ step = .hang := by
  cases step <;> simp [Step.map]

def run (body : σ → Step σ ρ) : Nat → σ → Option ρ
  | 0, _ => none
  | n + 1, s =>
      match body s with
      | .next s' => run body n s'
      | .done r => some r
      | .hang => none

/-- The state after `n` rounds of a loop that has not left by then. -/
def after (body : σ → Step σ ρ) : Nat → σ → Option σ
  | 0, s => some s
  | n + 1, s =>
      match body s with
      | .next s' => after body n s'
      | .done _ => none
      | .hang => none

theorem run_next {body : σ → Step σ ρ} {s s' : σ} (h : body s = .next s') (n : Nat) :
    run body (n + 1) s = run body n s' := by
  rw [run, h]

theorem run_done {body : σ → Step σ ρ} {s : σ} {r : ρ} (h : body s = .done r) (n : Nat) :
    run body (n + 1) s = some r := by
  rw [run, h]

theorem run_after {body : σ → Step σ ρ} {n : Nat} {s s' : σ} (h : after body n s = some s')
    (m : Nat) : run body (n + m) s = run body m s' := by
  induction n generalizing s with
  | zero => rw [Nat.zero_add, Option.some.inj h]
  | succ n ih =>
      rw [after] at h
      cases hb : body s with
      | next s1 =>
          rw [hb] at h
          rw [Nat.add_right_comm, run_next hb]
          exact ih h
      | done r => rw [hb] at h; exact absurd h (Option.some_ne_none _).symm
      | hang => rw [hb] at h; exact absurd h (Option.some_ne_none _).symm

theorem run_of_after {body : σ → Step σ ρ} {n : Nat} {s s' : σ} (h : after body n s = some s') :
    run body n s = none :=
  run_after h 0

theorem run_mono {body : σ → Step σ ρ} {n : Nat} {s : σ} {r : ρ} (h : run body n s = some r)
    (m : Nat) : run body (n + m) s = some r := by
  induction n generalizing s with
  | zero => exact absurd h (Option.some_ne_none r).symm
  | succ n ih =>
      rw [run] at h
      rw [Nat.add_right_comm, run]
      cases hb : body s with
      | next s' =>
          rw [hb] at h
          exact ih h
      | done r' => rw [hb] at h; exact h
      | hang => rw [hb] at h; exact h

theorem after_succ_iff {body : σ → Step σ ρ} {n : Nat} {s s2 : σ} :
    after body (n + 1) s = some s2 ↔ ∃ s1, after body n s = some s1 ∧ body s1 = .next s2 := by
  induction n generalizing s with
  | zero => cases hs : body s <;> simp [after, hs]
  | succ n ih =>
      rw [after]
      cases hs : body s with
      | next s' => rw [after, hs]; exact ih
      | done r => simp [after, hs]
      | hang => simp [after, hs]

/-- A loop that does not hang on the way has left, or is still in it. -/
theorem run_or_after {body : σ → Step σ ρ} {n : Nat} {s : σ}
    (h : ∀ k s', k < n → after body k s = some s' → body s' ≠ .hang) :
    (∃ r, run body n s = some r) ∨ ∃ s', after body n s = some s' := by
  induction n with
  | zero => exact Or.inr ⟨s, rfl⟩
  | succ n ih =>
      rcases ih fun k s' hk => h k s' (Nat.lt_succ_of_lt hk) with ⟨r, hr⟩ | ⟨s', hs'⟩
      · exact Or.inl ⟨r, run_mono hr 1⟩
      · cases hb : body s' with
        | next s2 => exact Or.inr ⟨s2, after_succ_iff.mpr ⟨s', hs', hb⟩⟩
        | done r => exact Or.inl ⟨r, by rw [run_after hs', run_done hb]⟩
        | hang => exact absurd hb (h n s' (Nat.lt_succ_self n) hs')

/-- Total correctness: under an invariant, with a measure that every further round decreases,
the loop leaves within that many rounds and its result satisfies the postcondition. -/
theorem run_total (body : σ → Step σ ρ) (inv : σ → Prop) (measure : σ → Nat) (post : ρ → Prop)
    (hbody : ∀ s, inv s →
      (∃ s', body s = .next s' ∧ inv s' ∧ measure s' < measure s) ∨
      (∃ r, body s = .done r ∧ post r))
    {s : σ} (hs : inv s) {n : Nat} (hn : measure s < n) :
    ∃ r, run body n s = some r ∧ post r := by
  induction n generalizing s with
  | zero => omega
  | succ n ih =>
      rcases hbody s hs with ⟨s', hb, hs', hlt⟩ | ⟨r, hb, hr⟩
      · rw [run_next hb]
        exact ih hs' (by omega)
      · exact ⟨r, run_done hb n, hr⟩

end Loop
