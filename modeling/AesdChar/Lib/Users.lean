import AesdChar.Lib.Simulation

/-!
# Users of a machine

Users take steps of their own and take part in the events of a machine; an event that they refuse
does not happen.  What holds of users over a specification holds of them over every machine that it
simulates.
-/

structure Users (υ κ ε : Type) where
  own : υ → κ → υ
  -- `none` when they refuse the event
  hear : υ → ε → Option υ

/-- A guard that asks something of the users' own steps only. -/
def Users.OwnSteps {υ κ σ ι : Type} (ok : υ → κ → Prop) : υ × σ → κ ⊕ ι → Prop
  | (x, _), .inl k => ok x k
  | _, .inr _ => True

instance {υ κ σ ι : Type} (ok : υ → κ → Prop) [∀ x k, Decidable (ok x k)] (s : υ × σ) :
    (i : κ ⊕ ι) → Decidable (Users.OwnSteps ok s i)
  | .inl k => inferInstanceAs (Decidable (ok s.1 k))
  | .inr _ => inferInstanceAs (Decidable True)

/-- With something that each own step of the run has anyway. -/
theorem Users.ownSteps_and {υ κ σ ι : Type} {step : υ × σ → κ ⊕ ι → υ × σ} {ok : υ → κ → Prop}
    {ok' : κ → Prop} {s : υ × σ} {is : List (κ ⊕ ι)} (h : Runs.Guarded step (OwnSteps ok) s is)
    (h' : ∀ k, .inl k ∈ is → ok' k) :
    Runs.Guarded step (OwnSteps fun x k => ok x k ∧ ok' k) s is := by
  induction is generalizing s with
  | nil => trivial
  | cons i is ih =>
      refine ⟨?_, ih h.2 fun k hk => h' k (List.mem_cons_of_mem _ hk)⟩
      cases i with
      | inl k => exact ⟨h.1, h' k List.mem_cons_self⟩
      | inr i => exact h.1

namespace Machine

variable {υ κ σ τ ι ι' ε : Type}

/-- A step of the users, or one of the machine that they take part in. -/
def joint (m : Machine σ ι ε) (u : Users υ κ ε) : υ × σ → κ ⊕ ι → υ × σ
  | (x, s), .inl k => (u.own x k, s)
  | (x, s), .inr i =>
      match (m.out s i).foldlM u.hear x with
      | none => (x, s)
      | some x' => (x', m.step s i)

theorem joint_refused {m : Machine σ ι ε} {u : Users υ κ ε} {x : υ} {s : σ} {i : ι}
    (h : (m.out s i).foldlM u.hear x = none) : m.joint u (x, s) (.inr i) = (x, s) := by
  simp only [joint, h]

theorem joint_heard {m : Machine σ ι ε} {u : Users υ κ ε} {x x' : υ} {s : σ} {i : ι}
    (h : (m.out s i).foldlM u.hear x = some x') :
    m.joint u (x, s) (.inr i) = (x', m.step s i) := by
  simp only [joint, h]

variable {ok : υ → κ → Prop}

/-- What users keep in each event they keep in a list of them. -/
theorem heard_invariant {u : Users υ κ ε} (inv : υ → Prop)
    (hhear : ∀ x e x', inv x → u.hear x e = some x' → inv x') {x x' : υ} (hx : inv x)
    {es : List ε} (h : es.foldlM u.hear x = some x') : inv x' := by
  induction es generalizing x with
  | nil =>
      rw [List.foldlM_nil] at h
      rwa [← Option.some.inj h]
  | cons e es ih =>
      rw [List.foldlM_cons] at h
      obtain ⟨y, hfirst, hrest⟩ := Option.bind_eq_some_iff.mp h
      exact ih (hhear x e y hx hfirst) hrest

/-- What users keep on their own they keep over any machine. -/
theorem joint_invariant (m : Machine σ ι ε) {u : Users υ κ ε} (inv : υ → Prop)
    (hown : ∀ x k, inv x → ok x k → inv (u.own x k))
    (hhear : ∀ x e x', inv x → u.hear x e = some x' → inv x') {x : υ} {s : σ} (hx : inv x)
    {is : List (κ ⊕ ι)} (hrun : Runs.Guarded (m.joint u) (Users.OwnSteps ok) (x, s) is) :
    inv (is.foldl (m.joint u) (x, s)).1 := by
  refine Runs.Guarded.invariant (fun p : υ × σ => inv p.1) ?_ hx hrun
  intro (x, s) i hx hok
  cases i with
  | inl k => exact hown x k hx hok
  | inr i =>
      cases hheard : (m.out s i).foldlM u.hear x with
      | none =>
          rw [joint_refused hheard]
          exact hx
      | some x' =>
          rw [joint_heard hheard]
          exact heard_invariant inv hhear hx hheard

/-- What every allowed step of the users over `m` keeps. -/
structure Kept (m : Machine σ ι ε) (u : Users υ κ ε) (ok : υ → κ → Prop) (inv : υ → σ → Prop) :
    Prop where
  own : ∀ x s k, inv x s → ok x k → inv (u.own x k) s
  step : ∀ x s i x', inv x s → (m.out s i).foldlM u.hear x = some x' → inv x' (m.step s i)

/-- A run of the machine whose events the users take part in. -/
theorem Kept.run {m : Machine σ ι ε} {u : Users υ κ ε} {inv : υ → σ → Prop}
    (h : m.Kept u ok inv) {x x' : υ} {s : σ} (hinv : inv x s) {is : List ι}
    (hheard : (m.trace s is).foldlM u.hear x = some x') : inv x' (m.run s is) := by
  induction is generalizing x s with
  | nil =>
      rw [trace, List.foldlM_nil] at hheard
      rw [← Option.some.inj hheard]
      exact hinv
  | cons i is ih =>
      rw [trace, List.foldlM_append] at hheard
      obtain ⟨y, hfirst, hrest⟩ := Option.bind_eq_some_iff.mp hheard
      exact ih (h.step x s i y hinv hfirst) hrest

/-- Users over a machine keep what they keep over its specification, which may be what the
simulation rests on. -/
theorem Simulates.users {m : Machine σ ι ε} {m' : Machine τ ι' ε} {guard : σ → ι → Prop}
    {rel : σ → τ → Prop} (h : m.Simulates m' guard rel) {u : Users υ κ ε} {inv : υ → τ → Prop}
    (hkept : m'.Kept u ok inv)
    (hguard : ∀ x s t i, inv x t → rel s t → guard s i) {x : υ} {s : σ} {t : τ} (hrel : rel s t)
    (hinv : inv x t) {is : List (κ ⊕ ι)}
    (hrun : Runs.Guarded (m.joint u) (Users.OwnSteps ok) (x, s) is) :
    ∃ t', rel (is.foldl (m.joint u) (x, s)).2 t' ∧ inv (is.foldl (m.joint u) (x, s)).1 t' := by
  refine Runs.Guarded.invariant (fun p : υ × σ => ∃ t', rel p.2 t' ∧ inv p.1 t') ?_
    ⟨t, hrel, hinv⟩ hrun
  intro (x, s) i ⟨t, hrel, hinv⟩ hok
  cases i with
  | inl k => exact ⟨t, hrel, hkept.own x t k hinv hok⟩
  | inr i =>
      cases hheard : (m.out s i).foldlM u.hear x with
      | none =>
          rw [joint_refused hheard]
          exact ⟨t, hrel, hinv⟩
      | some x' =>
          obtain ⟨js, hrel', htrace⟩ := h s t i hrel (hguard x s t i hinv hrel)
          rw [← htrace] at hheard
          have hinv' := hkept.run hinv hheard
          rw [htrace] at hheard
          rw [joint_heard hheard]
          exact ⟨_, hrel', hinv'⟩

end Machine
