import Mathlib.Data.List.DropRight
import Mathlib.Tactic

/-!
# Circular windows and the last `n` elements

A circular buffer of capacity `cap` shows the `n` slots from `out` on, wrapping at `cap`.
Writing the slot behind a window that is not yet full appends an element; writing it when the
window is full replaces the oldest one.  Seen from outside both keep the last `cap` elements.
-/

namespace Circular

variable {α β : Type}

def window (slot : Nat → α) (out cap n : Nat) : List α :=
  (List.range n).map fun k => slot ((out + k) % cap)

@[simp] theorem length_window (slot : Nat → α) (out cap n : Nat) :
    (window slot out cap n).length = n := by
  simp [window]

theorem getElem_window (slot : Nat → α) (out cap n k : Nat)
    (h : k < (window slot out cap n).length) :
    (window slot out cap n)[k] = slot ((out + k) % cap) := by
  simp [window]

theorem window_succ (slot : Nat → α) (out cap n : Nat) :
    window slot out cap (n + 1) = window slot out cap n ++ [slot ((out + n) % cap)] := by
  simp [window, List.range_succ]

theorem window_cons (slot : Nat → α) (out cap n : Nat) :
    window slot out cap (n + 1) = slot (out % cap) :: window slot (out + 1) cap n := by
  simp only [window, List.range_succ_eq_map, List.map_cons, List.map_map, Nat.add_zero]
  congr 1
  apply List.map_congr_left
  intro k _
  rw [Function.comp_apply, Nat.succ_eq_add_one, Nat.add_right_comm, Nat.add_assoc]

theorem window_mod (slot : Nat → α) (out cap n : Nat) :
    window slot (out % cap) cap n = window slot out cap n := by
  simp [window, Nat.mod_add_mod]

theorem offset_inj {out cap a b : Nat} (ha : a < cap) (hb : b < cap)
    (h : (out + a) % cap = (out + b) % cap) : a = b := by
  have hmod : out + a ≡ out + b [MOD cap] := h
  have hab : a ≡ b [MOD cap] := Nat.ModEq.add_left_cancel' out hmod
  rwa [Nat.ModEq, Nat.mod_eq_of_lt ha, Nat.mod_eq_of_lt hb] at hab

theorem window_congr {slot slot' : Nat → α} {out cap n : Nat}
    (h : ∀ k, k < n → slot' ((out + k) % cap) = slot ((out + k) % cap)) :
    window slot' out cap n = window slot out cap n := by
  apply List.map_congr_left
  intro k hk
  exact h k (List.mem_range.mp hk)

theorem window_push (slot : Nat → α) {slot' : Nat → α} {out cap n : Nat} (hn : n < cap)
    (hother : ∀ i, i ≠ (out + n) % cap → slot' i = slot i) :
    window slot' out cap (n + 1) = window slot out cap n ++ [slot' ((out + n) % cap)] := by
  rw [window_succ, window_congr]
  intro k hk
  apply hother
  intro heq
  have := offset_inj (by omega) hn heq
  omega

/-- Overwriting the oldest slot of a full window drops it and appends the new element. -/
theorem window_rotate (slot : Nat → α) {slot' : Nat → α} {out cap : Nat} (hcap : 0 < cap)
    (hother : ∀ i, i ≠ out % cap → slot' i = slot i) :
    window slot' (out + 1) cap cap =
      (window slot out cap cap).tail ++ [slot' (out % cap)] := by
  obtain ⟨n, rfl⟩ : ∃ n, cap = n + 1 := ⟨cap - 1, by omega⟩
  rw [window_cons slot, List.tail_cons, window_push slot (by omega)]
  · rw [show (out + 1 + n) % (n + 1) = out % (n + 1) by
      rw [Nat.add_assoc, Nat.add_comm 1 n, Nat.add_mod_right]]
  · intro i hi
    apply hother
    rwa [Nat.add_assoc, Nat.add_comm 1 n, Nat.add_mod_right] at hi

/-! ## The last `n` elements -/

@[simp] theorem length_rtake (n : Nat) (l : List α) : (l.rtake n).length = min n l.length := by
  rw [List.rtake, List.length_drop]
  omega

theorem rtake_of_length_le {n : Nat} {l : List α} (h : l.length ≤ n) : l.rtake n = l := by
  rw [List.rtake, Nat.sub_eq_zero_of_le h, List.drop_zero]

theorem tail_rtake (n : Nat) (l : List α) (h : n < l.length) :
    (l.rtake (n + 1)).tail = l.rtake n := by
  rw [List.rtake, List.rtake, List.tail_drop]
  congr 1
  omega

theorem rtake_rtake (n m : Nat) (l : List α) (h : n ≤ m) : (l.rtake m).rtake n = l.rtake n := by
  rw [List.rtake, List.rtake, List.rtake, List.drop_drop, List.length_drop]
  congr 1
  omega

theorem rtake_concat {n : Nat} (l : List α) (x : α) :
    (l ++ [x]).rtake n = (l.rtake n ++ [x]).rtake n := by
  cases n with
  | zero => simp
  | succ n =>
      rw [List.rtake_concat_succ, List.rtake_concat_succ, rtake_rtake n (n + 1) l (by omega)]

theorem rtake_suffix (n : Nat) (l : List α) : l.rtake n <:+ l :=
  List.drop_suffix _ _

end Circular
