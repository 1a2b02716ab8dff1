import Mathlib.Tactic

/-!
# Runs of a deterministic machine

A run feeds a list of inputs to a step function, `inputs.foldl step s`.  A guard says which
inputs are harmless in which state; `Guarded` asks it of every step of the run.
-/

namespace Runs

variable {σ ι : Type}

/-- Every step of the run from `s` meets the guard in the state it is taken in. -/
def Guarded (step : σ → ι → σ) (guard : σ → ι → Prop) : σ → List ι → Prop
  | _, [] => True
  | s, i :: is => guard s i ∧ Guarded step guard (step s i) is

instance decidableGuarded (step : σ → ι → σ) (guard : σ → ι → Prop)
    [∀ s i, Decidable (guard s i)] : (s : σ) → (is : List ι) →
    Decidable (Guarded step guard s is)
  | _, [] => inferInstanceAs (Decidable True)
  | s, i :: is =>
      have := decidableGuarded step guard (step s i) is
      inferInstanceAs (Decidable (guard s i ∧ Guarded step guard (step s i) is))

variable {step : σ → ι → σ} {guard : σ → ι → Prop}

theorem guarded_append {s : σ} {is js : List ι} :
    Guarded step guard s (is ++ js) ↔
      Guarded step guard s is ∧ Guarded step guard (is.foldl step s) js := by
  induction is generalizing s with
  | nil => simp [Guarded]
  | cons i is ih =>
      rw [List.cons_append, Guarded, Guarded, ih, List.foldl_cons, and_assoc]

theorem invariant (inv : σ → Prop) (hstep : ∀ s i, inv s → inv (step s i)) {s : σ} (hs : inv s)
    (is : List ι) : inv (is.foldl step s) := by
  induction is generalizing s with
  | nil => exact hs
  | cons i is ih => exact ih (hstep s i hs)

theorem Guarded.invariant (inv : σ → Prop)
    (hstep : ∀ s i, inv s → guard s i → inv (step s i)) {s : σ} (hs : inv s)
    {is : List ι} (h : Guarded step guard s is) : inv (is.foldl step s) := by
  induction is generalizing s with
  | nil => exact hs
  | cons i is ih => exact ih (hstep s i hs h.1) h.2

theorem guarded_true (s : σ) (is : List ι) : Guarded step (fun _ _ => True) s is := by
  induction is generalizing s with
  | nil => trivial
  | cons i is ih => exact ⟨trivial, ih _⟩

theorem guarded_const {ok : ι → Prop} {s : σ} {is : List ι} :
    Guarded step (fun _ i => ok i) s is ↔ ∀ i ∈ is, ok i := by
  induction is generalizing s with
  | nil => simp [Guarded]
  | cons i is ih => rw [Guarded, ih, List.forall_mem_cons]

/-- A run is guarded when each of its steps is, in the state the steps before it lead to. -/
theorem guarded_iff_forall {s : σ} {is : List ι} :
    Guarded step guard s is ↔
      ∀ pre i post, is = pre ++ i :: post → guard (pre.foldl step s) i := by
  induction is generalizing s with
  | nil => simp [Guarded]
  | cons i is ih =>
      rw [Guarded, ih]
      constructor
      · rintro ⟨hi, hrest⟩ pre j post heq
        cases pre with
        | nil =>
            rw [List.nil_append, List.cons.injEq] at heq
            rw [List.foldl_nil, ← heq.1]
            exact hi
        | cons i' pre =>
            rw [List.cons_append, List.cons.injEq] at heq
            rw [List.foldl_cons, ← heq.1]
            exact hrest pre j post heq.2
      · intro hall
        constructor
        · exact hall [] i is rfl
        · intro pre j post heq
          exact hall (i :: pre) j post (by rw [heq, List.cons_append])

/-- Guards that agree wherever an invariant holds. -/
theorem guarded_congr {guard' : σ → ι → Prop} (inv : σ → Prop)
    (hstep : ∀ s i, inv s → inv (step s i)) (hguard : ∀ s i, inv s → (guard s i ↔ guard' s i))
    {s : σ} (hs : inv s) (is : List ι) :
    Guarded step guard s is ↔ Guarded step guard' s is := by
  induction is generalizing s with
  | nil => exact Iff.rfl
  | cons i is ih => exact and_congr (hguard s i hs) (ih (hstep s i hs))

/-- When, among the steps a run is assumed to take, a guarded one keeps the invariant and an
unguarded one breaks the property at once, the property holds at every point of the run exactly
when every step of it is guarded. -/
theorem forall_prefix_iff {assumed : σ → ι → Prop} (inv prop : σ → Prop)
    (hprop : ∀ s, inv s → prop s)
    (hgood : ∀ s i, inv s → assumed s i → guard s i → inv (step s i))
    (hbad : ∀ s i, inv s → assumed s i → ¬ guard s i → ¬ prop (step s i))
    {s : σ} (hs : inv s) {is : List ι} (hrun : Guarded step assumed s is) :
    (∀ pre, pre <+: is → prop (pre.foldl step s)) ↔ Guarded step guard s is := by
  induction is generalizing s with
  | nil =>
      constructor
      · exact fun _ => trivial
      · intro _ pre hpre
        rw [List.prefix_nil.mp hpre]
        exact hprop s hs
  | cons i is ih =>
      by_cases hi : guard s i
      · have hrest := ih (hgood s i hs hrun.1 hi) hrun.2
        constructor
        · intro hall
          refine ⟨hi, hrest.mp fun pre hpre => ?_⟩
          exact hall (i :: pre) (List.cons_prefix_cons.mpr ⟨rfl, hpre⟩)
        · intro h pre hpre
          cases pre with
          | nil => exact hprop s hs
          | cons j pre =>
              obtain ⟨rfl, htail⟩ := List.cons_prefix_cons.mp hpre
              exact hrest.mpr h.2 pre htail
      · constructor
        · intro hall
          exact absurd (hall [i] (by simp)) (hbad s i hs hrun.1 hi)
        · exact fun h => absurd h.1 hi

end Runs
