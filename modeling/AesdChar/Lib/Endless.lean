import Mathlib.Tactic

/-!
# Endless runs

A deterministic machine that is given a turn at every instant, for ever.  What is reached, and when,
depends on which turns keep coming back: a measure that no turn raises, and that the turns of one
kind lower, runs out if turns of that kind never cease.
-/

namespace Endless

variable {σ τ : Type}

/-- The state before turn `n`. -/
def state (step : σ → τ → σ) (s : σ) (turns : Nat → τ) : Nat → σ
  | 0 => s
  | n + 1 => step (state step s turns n) (turns n)

variable {step : σ → τ → σ} {s : σ} {turns : Nat → τ}

/-- What every allowed turn keeps stays, if the turns are allowed. -/
theorem stays_among (ok : σ → τ → Prop) {P : σ → Prop} (hstep : ∀ s t, ok s t → P s → P (step s t))
    {k : Nat} (hok : ∀ m ≥ k, ok (state step s turns m) (turns m)) (hk : P (state step s turns k))
    {m : Nat} (hm : k ≤ m) : P (state step s turns m) := by
  induction m, hm using Nat.le_induction with
  | base => exact hk
  | succ m hm ih => exact hstep _ _ (hok m hm) ih

/-- What every turn keeps stays. -/
theorem stays {P : σ → Prop} (hstep : ∀ s t, P s → P (step s t)) {k : Nat}
    (hk : P (state step s turns k)) {m : Nat} (hm : k ≤ m) : P (state step s turns m) :=
  stays_among (fun _ _ => True) (fun s t _ => hstep s t) (fun _ _ => trivial) hk hm

/-- A measure that no allowed turn raises short of the goal, and that helpful turns lower, runs out
if helpful turns keep coming until the goal is there. -/
theorem reaches_among (ok : σ → τ → Prop) (inv goal : σ → Prop) (measure : σ → Nat)
    (helps : σ → τ → Prop) (hinv : ∀ s t, ok s t → inv s → inv (step s t))
    (hle : ∀ s t, ok s t → inv s → ¬ goal s → measure (step s t) ≤ measure s)
    (hlt : ∀ s t, ok s t → inv s → ¬ goal s → helps s t → measure (step s t) < measure s) {k : Nat}
    (hok : ∀ m ≥ k, ok (state step s turns m) (turns m))
    (hfair : ∀ m ≥ k, ¬ goal (state step s turns m) →
      ∃ m' ≥ m, helps (state step s turns m') (turns m'))
    (hk : inv (state step s turns k)) : ∃ m ≥ k, goal (state step s turns m) := by
  by_contra hnever
  have hnot : ∀ m ≥ k, ¬ goal (state step s turns m) := fun m hm hgoal => hnever ⟨m, hm, hgoal⟩
  have hinvs : ∀ m ≥ k, inv (state step s turns m) := fun m hm => stays_among ok hinv hok hk hm
  have hmono : ∀ m ≥ k, ∀ m' ≥ m,
      measure (state step s turns m') ≤ measure (state step s turns m) := by
    intro m hm m' hm'
    induction m', hm' using Nat.le_induction with
    | base => exact le_rfl
    | succ j hj ih =>
        have hkj : k ≤ j := hm.trans hj
        exact (hle _ _ (hok j hkj) (hinvs j hkj) (hnot j hkj)).trans ih
  -- induction on the measure: every helpful turn leads to a smaller one
  have hfalse : ∀ n, ∀ m ≥ k, measure (state step s turns m) = n → False := by
    intro n
    induction n using Nat.strong_induction_on with
    | h n ih =>
        intro m hm hn
        obtain ⟨m', hm', hhelps⟩ := hfair m hm (hnot m hm)
        have hkm : k ≤ m' := hm.trans hm'
        have hlower := hlt _ _ (hok m' hkm) (hinvs m' hkm) (hnot m' hkm) hhelps
        have hbefore := hmono m hm m' hm'
        exact ih (measure (state step s turns (m' + 1)))
          (lt_of_lt_of_le hlower (hbefore.trans hn.le)) (m' + 1) (by omega) rfl
  exact hfalse _ k le_rfl rfl

/-- The rule for a measure that no turn raises. -/
theorem reaches (inv goal : σ → Prop) (measure : σ → Nat) (helps : σ → τ → Prop)
    (hinv : ∀ s t, inv s → inv (step s t))
    (hle : ∀ s t, inv s → ¬ goal s → measure (step s t) ≤ measure s)
    (hlt : ∀ s t, inv s → ¬ goal s → helps s t → measure (step s t) < measure s)
    (hfair : ∀ m, ∃ m' ≥ m, helps (state step s turns m') (turns m')) {k : Nat}
    (hk : inv (state step s turns k)) : ∃ m ≥ k, goal (state step s turns m) :=
  reaches_among (fun _ _ => True) inv goal measure helps (fun s t _ => hinv s t)
    (fun s t _ => hle s t) (fun s t _ => hlt s t) (fun _ _ => trivial) (fun m _ _ => hfair m) hk

/-- Goals that stay, each of which is reached, are reached together. -/
theorem reaches_all {α : Type} (goal : α → σ → Prop) (hstep : ∀ a s t, goal a s → goal a (step s t))
    {k : Nat} (l : List α) (hl : ∀ a ∈ l, ∃ m ≥ k, goal a (state step s turns m)) :
    ∃ m ≥ k, ∀ a ∈ l, goal a (state step s turns m) := by
  induction l with
  | nil => exact ⟨k, le_rfl, fun a ha => absurd ha List.not_mem_nil⟩
  | cons a l ih =>
      obtain ⟨m, hm, ha⟩ := hl a List.mem_cons_self
      obtain ⟨m', hm', hrest⟩ := ih fun b hb => hl b (List.mem_cons_of_mem _ hb)
      refine ⟨max m m', by omega, fun b hb => ?_⟩
      rcases List.mem_cons.mp hb with rfl | hb
      · exact stays (hstep b) ha (by omega)
      · exact stays (hstep b) (hrest b hb) (by omega)

end Endless
