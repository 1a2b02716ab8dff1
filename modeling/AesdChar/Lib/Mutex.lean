import Mathlib.Tactic

/-!
# A lock and those inside its section

The lock says who holds it, and each party's place says whether it is inside the section.  The two
agree at every instant, if each step takes the lock on the way in and gives it back on the way out.
Where a party may leave with the lock, whoever is inside still holds it.
-/

namespace Mutex

variable {ω : Type} {holder holder' : Option ω} {inside inside' : ω → Bool} {o p : ω}

/-- Nobody is inside without the lock. -/
def Excludes (holder : Option ω) (inside : ω → Bool) : Prop :=
  ∀ o, inside o = true → holder = some o

theorem Excludes.alone (h : Excludes holder inside) (ho : inside o = true)
    (hp : inside p = true) : p = o := by
  have heq := h p hp
  rw [h o ho] at heq
  exact (Option.some.inj heq).symm

/-- With the lock free or its own, a party moves. -/
theorem Excludes.moves (h : Excludes holder inside) (hown : holder = none ∨ inside o = true)
    (hin : inside' o = true → holder' = some o) (hother : ∀ p, p ≠ o → inside' p = inside p) :
    Excludes holder' inside' := by
  intro p hp
  by_cases hpo : p = o
  · rw [hpo] at hp ⊢
    exact hin hp
  · rw [hother p hpo] at hp
    rcases hown with hfree | ho
    · rw [h p hp] at hfree
      exact absurd hfree (Option.some_ne_none p)
    · exact absurd (h.alone ho hp) hpo

/-- A party that is not inside by then moves. -/
theorem Excludes.moves_out (h : Excludes holder inside) (hout : inside' o = false)
    (hother : ∀ p, p ≠ o → inside' p = inside p) : Excludes holder inside' := by
  intro p hp
  by_cases hpo : p = o
  · rw [hpo, hout] at hp
    exact absurd hp Bool.false_ne_true
  · exact h p ((hother p hpo).symm.trans hp)

/-- Who holds the lock is inside, and nobody else is. -/
def Guards (holder : Option ω) (inside : ω → Bool) : Prop :=
  ∀ o, holder = some o ↔ inside o = true

/-- What one step of `o` does to the lock. -/
inductive Moves (holder holder' : Option ω) (o : ω) (before after : Bool) : Prop
  | kept (hholder : holder' = holder) (hin : after = before)
  | taken (hfree : holder = none) (hholder : holder' = some o) (hin : after = true)
  | released (hheld : holder = some o) (hholder : holder' = none) (hin : after = false)

namespace Guards

theorem nobody : Guards (none : Option ω) fun _ => false :=
  fun o => iff_of_false (Option.some_ne_none o).symm Bool.false_ne_true

theorem excludes (h : Guards holder inside) : Excludes holder inside := fun o => (h o).mpr

theorem moves (h : Guards holder inside) (hm : Moves holder holder' o (inside o) (inside' o))
    (hother : ∀ p, p ≠ o → inside' p = inside p) : Guards holder' inside' := by
  intro p
  by_cases hp : p = o
  · rw [hp]
    cases hm with
    | kept hholder hin => rw [hholder, hin, h o]
    | taken _ hholder hin =>
        rw [hholder, hin]
        exact iff_of_true rfl rfl
    | released _ hholder hin =>
        rw [hholder, hin]
        exact iff_of_false (Option.some_ne_none o).symm Bool.false_ne_true
  · rw [hother p hp, ← h p]
    cases hm with
    | kept hholder _ => rw [hholder]
    | taken hfree hholder _ => simp [hfree, hholder, Ne.symm hp]
    | released hheld hholder _ => simp [hheld, hholder, Ne.symm hp]

theorem outside (h : Guards holder inside) (ho : inside o = false) : holder ≠ some o := by
  intro hheld
  rw [(h o).mp hheld] at ho
  exact Bool.noConfusion ho

theorem free (h : Guards holder inside) (hout : ∀ o, inside o = false) : holder = none := by
  cases hh : holder with
  | none => rfl
  | some o => exact absurd hh (h.outside (hout o))

end Guards

end Mutex
