import Mathlib.Tactic

/-!
# Traces of one lock

What a call does to a lock and to the data the lock protects, in order.  A call is disciplined when
it unlocks and accesses only while it holds the lock, and does not hold it when it returns.
-/

namespace LockTrace

inductive Event (ρ : Type) where
  | lock
  | unlock
  | access (r : ρ)
deriving DecidableEq

variable {ρ : Type}

/-- Unlocking and accessing are for the holder only. -/
def Event.NeedsLock : Event ρ → Prop
  | .lock => False
  | .unlock => True
  | .access _ => True

def Event.after (held : Bool) : Event ρ → Bool
  | .lock => true
  | .unlock => false
  | .access _ => held

/-- Whether the call holds the lock after these events. -/
def held (es : List (Event ρ)) : Bool := es.foldl Event.after false

structure Disciplined (es : List (Event ρ)) : Prop where
  holding : ∀ pre e post, es = pre ++ e :: post → e.NeedsLock → held pre = true
  released : held es = false

/-- The discipline, checked from one event to the next. -/
def follows : Bool → List (Event ρ) → Bool
  | held, [] => !held
  | _, .lock :: es => follows true es
  | held, .unlock :: es => held && follows false es
  | held, .access _ :: es => held && follows held es

theorem follows_cons (h : Bool) (e : Event ρ) (es : List (Event ρ)) :
    follows h (e :: es) = true ↔ (e.NeedsLock → h = true) ∧ follows (e.after h) es = true := by
  cases e <;> simp [follows, Event.NeedsLock, Event.after]

theorem follows_iff (h : Bool) (es : List (Event ρ)) :
    follows h es = true ↔
      (∀ pre e post, es = pre ++ e :: post → e.NeedsLock → pre.foldl Event.after h = true) ∧
        es.foldl Event.after h = false := by
  induction es generalizing h with
  | nil => simp [follows]
  | cons e es ih =>
      rw [follows_cons, ih, List.foldl_cons, ← and_assoc]
      apply and_congr_left
      intro _
      constructor
      · rintro ⟨hfirst, hrest⟩ pre x post heq hx
        cases pre with
        | nil =>
            rw [List.nil_append, List.cons.injEq] at heq
            exact hfirst (heq.1 ▸ hx)
        | cons e' pre =>
            rw [List.cons_append, List.cons.injEq] at heq
            rw [List.foldl_cons, ← heq.1]
            exact hrest pre x post heq.2 hx
      · intro hall
        constructor
        · exact hall [] e es rfl
        · intro pre x post heq
          exact hall (e :: pre) x post (by rw [heq, List.cons_append])

theorem disciplined_iff (es : List (Event ρ)) : Disciplined es ↔ follows false es = true := by
  rw [follows_iff]
  exact ⟨fun h => ⟨h.holding, h.released⟩, fun h => ⟨h.1, h.2⟩⟩

instance (es : List (Event ρ)) : Decidable (Disciplined es) :=
  decidable_of_iff _ (disciplined_iff es).symm

/-- A critical section is disciplined whatever it accesses. -/
theorem disciplined_section (rs : List ρ) :
    Disciplined (.lock :: (rs.map .access ++ [.unlock])) := by
  rw [disciplined_iff, follows]
  induction rs with
  | nil => rfl
  | cons r rs ih => rwa [List.map_cons, List.cons_append, follows, Bool.true_and]

end LockTrace
