import Mathlib.Tactic

/-!
# Cutting a sequence behind every terminator

`split p xs` cuts `xs` behind every element that satisfies `p`.  The closed groups each end with
their first terminator; the open group is what follows the last one.
-/

namespace Groups

variable {α : Type} (p : α → Bool)

def step (acc : List (List α) × List α) (x : α) : List (List α) × List α :=
  if p x then (acc.1 ++ [acc.2 ++ [x]], []) else (acc.1, acc.2 ++ [x])

def split (xs : List α) : List (List α) × List α := xs.foldl (step p) ([], [])

def closed (xs : List α) : List (List α) := (split p xs).1

def pending (xs : List α) : List α := (split p xs).2

@[simp] theorem closed_nil : closed p [] = [] := rfl

@[simp] theorem pending_nil : pending p [] = [] := rfl

theorem split_concat (xs : List α) (x : α) : split p (xs ++ [x]) = step p (split p xs) x := by
  rw [split, List.foldl_append]
  rfl

theorem closed_concat (xs : List α) (x : α) :
    closed p (xs ++ [x]) =
      if p x then closed p xs ++ [pending p xs ++ [x]] else closed p xs := by
  rw [closed, split_concat, step]
  split <;> rfl

theorem pending_concat (xs : List α) (x : α) :
    pending p (xs ++ [x]) = if p x then [] else pending p xs ++ [x] := by
  rw [pending, split_concat, step]
  split <;> rfl

/-- No element is lost, duplicated or moved by the cutting. -/
theorem flatten_closed_append_pending (xs : List α) :
    (closed p xs).flatten ++ pending p xs = xs := by
  induction xs using List.reverseRecOn with
  | nil => rfl
  | append_singleton xs x ih =>
      rw [closed_concat, pending_concat]
      split
      · rw [List.flatten_concat, List.append_nil, ← List.append_assoc, ih]
      · rw [← List.append_assoc, ih]

theorem pending_free (xs : List α) : ∀ x ∈ pending p xs, p x = false := by
  induction xs using List.reverseRecOn with
  | nil => simp
  | append_singleton xs x ih =>
      rw [pending_concat]
      split
      · simp
      · rename_i hx
        intro y hy
        rcases List.mem_append.mp hy with hy | hy
        · exact ih y hy
        · rw [List.mem_singleton.mp hy]
          exact Bool.eq_false_iff.mpr hx

theorem closed_shape (xs : List α) : ∀ g ∈ closed p xs,
    ∃ pre x, g = pre ++ [x] ∧ p x = true ∧ ∀ y ∈ pre, p y = false := by
  induction xs using List.reverseRecOn with
  | nil => simp
  | append_singleton xs x ih =>
      rw [closed_concat]
      split
      · rename_i hx
        intro g hg
        rcases List.mem_append.mp hg with hg | hg
        · exact ih g hg
        · exact ⟨pending p xs, x, List.mem_singleton.mp hg, hx, pending_free p xs⟩
      · exact ih

/-- Cutting goes on from where it stands. -/
theorem foldl_step (xs : List α) (gs : List (List α)) (cur : List α)
    (hcur : ∀ x ∈ cur, p x = false) :
    xs.foldl (step p) (gs, cur) = (gs ++ closed p (cur ++ xs), pending p (cur ++ xs)) := by
  have hfree : split p cur = ([], cur) := by
    induction cur using List.reverseRecOn with
    | nil => rfl
    | append_singleton cur x ih =>
        rw [split_concat, ih fun y hy => hcur y (List.mem_append_left _ hy), step,
          if_neg (by simp [hcur x (by simp)])]
  induction xs using List.reverseRecOn with
  | nil => simp [closed, pending, hfree]
  | append_singleton xs x ih =>
      rw [List.foldl_append, ih, ← List.append_assoc, closed_concat, pending_concat,
        List.foldl_cons, List.foldl_nil, step]
      split <;> simp

theorem closed_of_free (xs : List α) (h : ∀ x ∈ xs, p x = false) : closed p xs = [] := by
  have := congrArg Prod.fst (foldl_step p [] [] xs h)
  simpa using this.symm

theorem closed_cons_group (pre : List α) (x : α) (rest : List α)
    (hpre : ∀ y ∈ pre, p y = false) (hx : p x = true) :
    closed p (pre ++ x :: rest) = (pre ++ [x]) :: closed p rest := by
  have h := foldl_step p (x :: rest) [] pre hpre
  rw [List.foldl_cons, step, if_pos hx, foldl_step p rest _ [] (by simp)] at h
  simpa using (congrArg Prod.fst h).symm

theorem pending_of_terminated (xs : List α) (x : α) (hx : p x = true) :
    pending p (xs ++ [x]) = [] := by
  rw [pending_concat, if_pos hx]

theorem flatten_closed_of_last (xs : List α) (x : α) (rest : List α) (hx : p x = true)
    (hrest : ∀ y ∈ rest, p y = false) : (closed p (xs ++ x :: rest)).flatten = xs ++ [x] := by
  -- what follows the last terminator closes no group
  have hend := flatten_closed_append_pending p (xs ++ [x])
  rw [pending_of_terminated p xs x hx, List.append_nil] at hend
  induction rest using List.reverseRecOn with
  | nil => exact hend
  | append_singleton rest y ih =>
      have hy : p y = false := hrest y (by simp)
      rw [← List.cons_append, ← List.append_assoc, closed_concat, if_neg (by simp [hy])]
      exact ih fun z hz => hrest z (List.mem_append_left _ hz)

theorem closed_ne_nil (xs : List α) : ∀ g ∈ closed p xs, g ≠ [] := by
  intro g hg hnil
  obtain ⟨pre, x, hgx, -, -⟩ := closed_shape p xs g hg
  rw [hnil] at hgx
  exact absurd hgx (by simp)

end Groups
