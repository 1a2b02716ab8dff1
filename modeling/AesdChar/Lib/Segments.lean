import Mathlib.Tactic

/-!
# Positions in a concatenation

`locate sizes p` finds position `p` in segments of the given sizes laid end to end: the index of
the segment that contains it and the offset inside that segment.
-/

namespace Segments

def locate : List Nat → Nat → Option (Nat × Nat)
  | [], _ => none
  | size :: sizes, p =>
      if p < size then some (0, p)
      else (locate sizes (p - size)).map fun r => (r.1 + 1, r.2)

theorem locate_none_iff (sizes : List Nat) (p : Nat) :
    locate sizes p = none ↔ sizes.sum ≤ p := by
  induction sizes generalizing p with
  | nil => simp [locate]
  | cons size sizes ih =>
      rw [locate, List.sum_cons]
      split
      · simp only [reduceCtorEq, false_iff]
        omega
      · rw [Option.map_eq_none_iff, ih]
        omega

theorem locate_some_iff (sizes : List Nat) (p k o : Nat) :
    locate sizes p = some (k, o) ↔
      k < sizes.length ∧ o < sizes.getD k 0 ∧ p = (sizes.take k).sum + o := by
  -- induction on the sizes: `k` counts the segments passed, `p` loses their sizes
  induction sizes generalizing p k with
  | nil => simp [locate]
  | cons size sizes ih =>
      rw [locate]
      split
      · rename_i hlt
        cases k with
        | zero =>
            simp only [Option.some.injEq, Prod.mk.injEq, true_and, List.length_cons,
              List.getD_cons_zero, List.take_zero, List.sum_nil]
            omega
        | succ k =>
            simp only [Option.some.injEq, Prod.mk.injEq, List.take_succ_cons, List.sum_cons]
            omega
      · rename_i hge
        cases k with
        | zero =>
            simp only [Option.map_eq_some_iff, Prod.mk.injEq, Nat.add_eq_zero_iff, one_ne_zero,
              and_false, false_and, exists_false, false_iff, List.getD_cons_zero,
              List.take_zero, List.sum_nil]
            omega
        | succ k =>
            have hmap : (locate sizes (p - size)).map (fun r => (r.1 + 1, r.2)) =
                some (k + 1, o) ↔ locate sizes (p - size) = some (k, o) := by
              rw [Option.map_eq_some_iff]
              constructor
              · rintro ⟨⟨i, j⟩, hr, he⟩
                simp only [Prod.mk.injEq, Nat.add_right_cancel_iff] at he
                rw [hr, he.1, he.2]
              · exact fun h => ⟨(k, o), h, rfl⟩
            rw [hmap, ih]
            simp only [List.length_cons, List.getD_cons_succ, List.take_succ_cons, List.sum_cons]
            omega

theorem locate_isSome_iff (sizes : List Nat) (p : Nat) :
    (locate sizes p).isSome ↔ p < sizes.sum := by
  rw [Option.isSome_iff_ne_none, Ne, locate_none_iff]
  omega

theorem exists_locate {sizes : List Nat} {p : Nat} (h : p < sizes.sum) :
    ∃ k o, locate sizes p = some (k, o) := by
  obtain ⟨⟨k, o⟩, hloc⟩ := Option.isSome_iff_exists.mp ((locate_isSome_iff sizes p).mpr h)
  exact ⟨k, o, hloc⟩

theorem sum_take_le (sizes : List Nat) (k : Nat) : (sizes.take k).sum ≤ sizes.sum := by
  have h := List.sum_take_add_sum_drop sizes k
  omega

theorem sum_take_succ_getD (sizes : List Nat) (k : Nat) :
    (sizes.take (k + 1)).sum = (sizes.take k).sum + sizes.getD k 0 := by
  induction sizes generalizing k with
  | nil => simp
  | cons size sizes ih =>
      cases k with
      | zero => simp
      | succ k =>
          rw [List.take_succ_cons, List.sum_cons, ih, List.take_succ_cons, List.sum_cons,
            List.getD_cons_succ, Nat.add_assoc]

variable {α : Type}

/-- What follows a position in the concatenation: the rest of its segment, then the others. -/
theorem drop_flatten (segs : List (List α)) {p k o : Nat}
    (h : locate (segs.map List.length) p = some (k, o)) :
    segs.flatten.drop p = (segs.getD k []).drop o ++ (segs.drop (k + 1)).flatten := by
  induction segs generalizing p k o with
  | nil => simp [locate] at h
  | cons seg segs ih =>
      rw [List.map_cons, locate] at h
      by_cases hlt : p < seg.length
      · rw [if_pos hlt, Option.some.injEq, Prod.mk.injEq] at h
        rw [← h.1, ← h.2, List.flatten_cons, List.drop_append_of_le_length hlt.le,
          List.getD_cons_zero, List.drop_succ_cons, List.drop_zero]
      · rw [if_neg hlt, Option.map_eq_some_iff] at h
        obtain ⟨r, hr, he⟩ := h
        rw [Prod.mk.injEq] at he
        have hrest := ih hr
        rw [← he.1, ← he.2, List.flatten_cons, List.getD_cons_succ, List.drop_succ_cons, ← hrest,
          List.drop_append, List.drop_of_length_le (by omega), List.nil_append]

end Segments
