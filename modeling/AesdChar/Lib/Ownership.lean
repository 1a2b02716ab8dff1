import Mathlib.Logic.Function.Basic
import Mathlib.Tactic

/-!
# Ownership

Owners each of which holds one thing or nothing, as a partial map.  `Held` says that some owner
has the thing, `Exclusive` that no two owners have the same one.  `Covered` says that nothing live
is forgotten: it is kept in a common place or held by an owner.
-/

namespace Ownership

variable {ι α : Type} {g : ι → Option α}

def Held (g : ι → Option α) (x : α) : Prop := ∃ i, g i = some x

def Exclusive (g : ι → Option α) : Prop := ∀ i j x, g i = some x → g j = some x → i = j

theorem exclusive_none : Exclusive fun _ : ι => (none : Option α) :=
  fun _ _ x h => absurd h (Option.some_ne_none x).symm

theorem not_held_none (x : α) : ¬ Held (fun _ : ι => none) x :=
  fun ⟨_, h⟩ => absurd h (Option.some_ne_none x).symm

variable [DecidableEq ι] {i : ι} {x y : α}

/-- An owner with nothing is given something. -/
theorem held_give (h : g i = none) :
    Held (Function.update g i (some x)) y ↔ x = y ∨ Held g y := by
  constructor
  · rintro ⟨j, hj⟩
    by_cases hij : j = i
    · rw [hij, Function.update_self] at hj
      exact Or.inl (Option.some.inj hj)
    · rw [Function.update_of_ne hij] at hj
      exact Or.inr ⟨j, hj⟩
  · rintro (rfl | ⟨j, hj⟩)
    · exact ⟨i, Function.update_self _ _ _⟩
    · refine ⟨j, ?_⟩
      rw [Function.update_of_ne]
      · exact hj
      · rintro rfl
        rw [h] at hj
        exact absurd hj (Option.some_ne_none y).symm

theorem held_drop (hex : Exclusive g) (h : g i = some x) :
    Held (Function.update g i none) y ↔ y ≠ x ∧ Held g y := by
  constructor
  · rintro ⟨j, hj⟩
    by_cases hij : j = i
    · rw [hij, Function.update_self] at hj
      exact absurd hj (Option.some_ne_none y).symm
    · rw [Function.update_of_ne hij] at hj
      refine ⟨?_, j, hj⟩
      rintro rfl
      exact hij (hex j i y hj h)
  · rintro ⟨hne, j, hj⟩
    refine ⟨j, ?_⟩
    rw [Function.update_of_ne]
    · exact hj
    · rintro rfl
      rw [h] at hj
      exact hne (Option.some.inj hj).symm

theorem Exclusive.give (hex : Exclusive g) (hx : ¬ Held g x) :
    Exclusive (Function.update g i (some x)) := by
  have hother : ∀ j k y, j ≠ i → g j = some y → Function.update g i (some x) k = some y →
      j = k := by
    intro j k y hj hjy hky
    by_cases hk : k = i
    · rw [hk, Function.update_self] at hky
      rw [← Option.some.inj hky] at hjy
      exact absurd ⟨j, hjy⟩ hx
    · rw [Function.update_of_ne hk] at hky
      exact hex j k y hjy hky
  intro j k y hj hk
  by_cases hji : j = i
  · by_cases hki : k = i
    · rw [hji, hki]
    · rw [Function.update_of_ne hki] at hk
      exact (hother k j y hki hk hj).symm
  · rw [Function.update_of_ne hji] at hj
    exact hother j k y hji hj hk

theorem Exclusive.drop (hex : Exclusive g) : Exclusive (Function.update g i none) := by
  have hkept : ∀ j y, Function.update g i none j = some y → g j = some y := by
    intro j y hj
    by_cases hji : j = i
    · rw [hji, Function.update_self] at hj
      exact absurd hj (Option.some_ne_none y).symm
    · rwa [Function.update_of_ne hji] at hj
  intro j k y hj hk
  exact hex j k y (hkept j y hj) (hkept k y hk)

/-! ## What is live is kept or held -/

def Covered (live kept : α → Prop) (g : ι → Option α) : Prop := ∀ x, live x → kept x ∨ Held g x

variable {live live' kept kept' : α → Prop} {mine : Option α}

/-- One owner moves: what is new, what was kept and what it held is kept by then, or its own. -/
theorem Covered.update (h : Covered live kept g)
    (hnew : ∀ x, live' x → ¬ live x → kept' x ∨ mine = some x)
    (hkept : ∀ x, kept x → live' x → kept' x ∨ mine = some x)
    (hown : ∀ x, g i = some x → live' x → kept' x ∨ mine = some x) :
    Covered live' kept' (Function.update g i mine) := by
  intro x hx
  have hself : kept' x ∨ mine = some x → kept' x ∨ Held (Function.update g i mine) x := by
    intro hx
    rcases hx with hk | hm
    · exact Or.inl hk
    · refine Or.inr ⟨i, ?_⟩
      rw [Function.update_self]
      exact hm
  by_cases hlive : live x
  · rcases h x hlive with hk | ⟨j, hj⟩
    · exact hself (hkept x hk hx)
    · by_cases hij : j = i
      · rw [hij] at hj
        exact hself (hown x hj hx)
      · refine Or.inr ⟨j, ?_⟩
        rw [Function.update_of_ne hij]
        exact hj
  · exact hself (hnew x hx hlive)

/-- One owner lets go of what nobody else has. -/
theorem not_covered_update (hex : Exclusive g) (hown : g i = some x) (hlive : live' x)
    (hkept : ¬ kept' x) (hmine : mine ≠ some x) :
    ¬ Covered live' kept' (Function.update g i mine) := by
  intro h
  rcases h x hlive with hk | ⟨j, hj⟩
  · exact hkept hk
  · by_cases hij : j = i
    · rw [hij, Function.update_self] at hj
      exact hmine hj
    · rw [Function.update_of_ne hij] at hj
      exact hij (hex j i x hj hown)

end Ownership
