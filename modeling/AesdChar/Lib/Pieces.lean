import Mathlib.Tactic

/-!
# A sequence in pieces

What the lengths of pieces laid end to end say about the pieces, and where an element of the whole
lies among them.
-/

namespace Pieces

variable {α : Type}

/-! ## Lengths -/

theorem length_flatten_le {segs : List (List α)} {m : Nat} (h : ∀ s ∈ segs, s.length ≤ m) :
    segs.flatten.length ≤ m * segs.length := by
  have hsum := List.sum_le_card_nsmul (segs.map List.length) m (by
    intro n hn
    obtain ⟨s, hs, rfl⟩ := List.mem_map.mp hn
    exact h s hs)
  rwa [List.length_map, smul_eq_mul, Nat.mul_comm, ← List.length_flatten] at hsum

/-- Only full pieces reach the bound together. -/
theorem full_of_length_flatten {segs : List (List α)} {m : Nat} (h : ∀ s ∈ segs, s.length ≤ m)
    (hlen : m * segs.length ≤ segs.flatten.length) : ∀ s ∈ segs, s.length = m := by
  induction segs with
  | nil => simp
  | cons s segs ih =>
      have hs := h s List.mem_cons_self
      have hrest := length_flatten_le fun s' hs' => h s' (List.mem_cons_of_mem s hs')
      rw [List.length_cons, Nat.mul_succ, List.flatten_cons, List.length_append] at hlen
      rw [List.forall_mem_cons]
      exact ⟨by omega, ih (fun s' hs' => h s' (List.mem_cons_of_mem s hs')) (by omega)⟩

theorem eq_nil_of_length_flatten {segs : List (List α)} (hne : ∀ s ∈ segs, s ≠ [])
    (hlen : segs.flatten.length = 0) : segs = [] := by
  cases segs with
  | nil => rfl
  | cons s segs =>
      rw [List.flatten_cons, List.length_append] at hlen
      exact absurd (List.eq_nil_of_length_eq_zero (by omega)) (hne s List.mem_cons_self)

/-- A piece among nonempty ones that is as long as all of them together is the only one. -/
theorem eq_singleton_of_length_flatten {segs : List (List α)} {l : List α}
    (hne : ∀ s ∈ segs, s ≠ []) (hl : l ∈ segs) (hlen : segs.flatten.length ≤ l.length) :
    segs = [l] := by
  obtain ⟨pre, post, rfl⟩ := List.append_of_mem hl
  rw [List.flatten_append, List.flatten_cons, List.length_append, List.length_append] at hlen
  have hpre : pre = [] :=
    eq_nil_of_length_flatten (fun s hs => hne s (List.mem_append_left _ hs)) (by omega)
  have hpost : post = [] :=
    eq_nil_of_length_flatten
      (fun s hs => hne s (List.mem_append_right _ (List.mem_cons_of_mem _ hs))) (by omega)
  rw [hpre, hpost, List.nil_append]

/-! ## The first and the last occurrence -/

theorem getElem?_behind (x : List α) (c : α) (y : List α) (i : Nat) :
    (x ++ c :: y)[x.length + 1 + i]? = y[i]? := by
  rw [Nat.add_assoc, List.getElem?_append_right (Nat.le_add_right _ _), Nat.add_sub_cancel_left,
    Nat.add_comm, List.getElem?_cons_succ]

variable [DecidableEq α]

theorem first_unique {c : α} {x x' y y' : List α} (hx : c ∉ x) (hx' : c ∉ x')
    (h : x ++ c :: y = x' ++ c :: y') : x = x' ∧ y = y' := by
  have hidx : ∀ {z w : List α}, c ∉ z → (z ++ c :: w).idxOf c = z.length := by
    intro z w hz
    rw [List.idxOf_append_of_notMem hz, List.idxOf_cons_self, Nat.add_zero]
  have hlen : x.length = x'.length := by
    rw [← hidx hx (w := y), h, hidx hx']
  obtain ⟨he, hrest⟩ := List.append_inj h hlen
  exact ⟨he, List.tail_eq_of_cons_eq hrest⟩

/-- The piece with the last occurrence. -/
theorem exists_last {c : α} {segs : List (List α)} (h : c ∈ segs.flatten) :
    ∃ pre u v post, segs = pre ++ (u ++ c :: v) :: post ∧ c ∉ v ∧ c ∉ post.flatten := by
  induction segs using List.reverseRecOn with
  | nil => exact absurd h List.not_mem_nil
  | append_singleton segs seg ih =>
      by_cases hseg : c ∈ seg
      · obtain ⟨v, u, hrev, hv⟩ := List.eq_append_cons_of_mem (List.mem_reverse.mpr hseg)
        refine ⟨segs, u.reverse, v.reverse, [], ?_, by simpa using hv, by simp⟩
        rw [← List.reverse_reverse seg, hrev, List.reverse_append, List.reverse_cons,
          List.append_assoc, List.singleton_append]
      · rw [List.flatten_concat, List.mem_append] at h
        obtain ⟨pre, u, v, post, hsplit, hv, hpost⟩ := ih (h.resolve_right hseg)
        refine ⟨pre, u, v, post ++ [seg], by rw [hsplit]; simp, hv, ?_⟩
        rw [List.flatten_concat, List.mem_append, not_or]
        exact ⟨hpost, hseg⟩

end Pieces
