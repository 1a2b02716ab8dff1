import AesdChar.CircularBuffer
import AesdChar.Lib.Circular
import AesdChar.Lib.Segments
import Mathlib.Data.List.GetD

/-!
# The circular buffer as a bounded FIFO

`in_offs = out_offs` stands for both the empty and the full buffer, told apart by `full`.
`RingInv` ties the three together; under it `stored` is the list of entries, oldest first, an
add keeps the last ten, and every walk visits exactly the stored slots.
-/

namespace AesdChar

open CInt Circular

structure RingInv (b : AesdCircularBuffer) : Prop where
  inLt : b.inOffs < 10
  outLt : b.outOffs < 10
  fullEq : b.full = true → b.inOffs = b.outOffs

namespace AesdCircularBuffer

def count (b : AesdCircularBuffer) : Nat :=
  if b.full then AESDCHAR_MAX_WRITE_OPERATIONS_SUPPORTED
  else (b.inOffs + AESDCHAR_MAX_WRITE_OPERATIONS_SUPPORTED - b.outOffs) %
    AESDCHAR_MAX_WRITE_OPERATIONS_SUPPORTED

def slots (b : AesdCircularBuffer) : List Nat :=
  window id b.outOffs AESDCHAR_MAX_WRITE_OPERATIONS_SUPPORTED b.count

/-- The stored entries, oldest first. -/
def stored (b : AesdCircularBuffer) : List AesdBufferEntry :=
  window b.slot b.outOffs AESDCHAR_MAX_WRITE_OPERATIONS_SUPPORTED b.count

def sizes (b : AesdCircularBuffer) : List Nat := b.stored.map AesdBufferEntry.size

def totalSize (b : AesdCircularBuffer) : Nat := b.sizes.sum

@[simp] theorem length_stored (b : AesdCircularBuffer) : b.stored.length = b.count :=
  length_window _ _ _ _

@[simp] theorem length_sizes (b : AesdCircularBuffer) : b.sizes.length = b.count := by
  simp [sizes]

@[simp] theorem length_slots (b : AesdCircularBuffer) : b.slots.length = b.count :=
  length_window _ _ _ _

theorem map_slot_slots (b : AesdCircularBuffer) : b.slots.map b.slot = b.stored := by
  simp [slots, stored, window]

theorem map_size_slots (b : AesdCircularBuffer) :
    b.slots.map (fun i => (b.slot i).size) = b.sizes := by
  rw [sizes, ← map_slot_slots, List.map_map]
  rfl

theorem getD_slots (b : AesdCircularBuffer) (k : Nat) (hk : k < b.count) :
    b.slots.getD k 0 = (b.outOffs + k) % 10 := by
  have hk' : k < b.slots.length := by rwa [length_slots]
  rw [List.getD_eq_getElem _ _ hk']
  exact getElem_window id _ _ _ _ hk'

theorem count_le (b : AesdCircularBuffer) : b.count ≤ 10 := by
  unfold count AESDCHAR_MAX_WRITE_OPERATIONS_SUPPORTED
  split <;> omega

theorem count_of_full {b : AesdCircularBuffer} (h : b.full = true) : b.count = 10 :=
  if_pos h

theorem count_lt_of_not_full {b : AesdCircularBuffer} (h : b.full = false) : b.count < 10 := by
  rw [count, if_neg (by simp [h])]
  exact Nat.mod_lt _ (by decide)

theorem full_iff (b : AesdCircularBuffer) : b.full = true ↔ b.count = 10 := by
  refine ⟨count_of_full, fun h => ?_⟩
  by_contra hf
  have hlt := count_lt_of_not_full (Bool.eq_false_iff.mpr hf)
  omega

end AesdCircularBuffer

open AesdCircularBuffer

theorem nextPtr_of_lt {ptr : Nat} (h : ptr < 10) : nextPtr ptr = (ptr + 1) % 10 := by
  unfold nextPtr AESDCHAR_MAX_WRITE_OPERATIONS_SUPPORTED
  split <;> omega

theorem nextPtr_lt (ptr : Nat) : nextPtr ptr < 10 := by
  unfold nextPtr AESDCHAR_MAX_WRITE_OPERATIONS_SUPPORTED
  split <;> omega

theorem nextPtr_offset (out k : Nat) : nextPtr ((out + k) % 10) = (out + (k + 1)) % 10 := by
  rw [nextPtr_of_lt (Nat.mod_lt _ (by decide))]
  omega

namespace RingInv

variable {b : AesdCircularBuffer}

theorem inOffs_eq (h : RingInv b) : b.inOffs = (b.outOffs + b.count) % 10 := by
  have hin := h.inLt
  have hout := h.outLt
  by_cases hf : b.full = true
  · rw [count_of_full hf, h.fullEq hf]
    omega
  · have hc : b.count = (b.inOffs + 10 - b.outOffs) % 10 := if_neg hf
    omega

theorem isEmpty_iff (h : RingInv b) : b.isEmpty = true ↔ b.count = 0 := by
  have hin := h.inLt
  have hout := h.outLt
  unfold isEmpty
  rw [Bool.and_eq_true, beq_iff_eq, Bool.not_eq_true']
  by_cases hf : b.full = true
  · simp [hf, count_of_full hf]
  · have hc : b.count = (b.inOffs + 10 - b.outOffs) % 10 := if_neg hf
    simp only [Bool.eq_false_iff.mpr hf, and_true]
    omega

theorem init : RingInv aesdCircularBufferInit where
  inLt := by decide
  outLt := by decide
  fullEq := by decide

/-- The last stored slot is the one whose successor is `in_offs`. -/
theorem next_eq_inOffs_iff (h : RingInv b) {k : Nat} (hk : k < b.count) :
    (b.outOffs + (k + 1)) % 10 = b.inOffs ↔ k + 1 = b.count := by
  have hle := b.count_le
  rw [h.inOffs_eq]
  omega

end RingInv

@[simp] theorem stored_init : aesdCircularBufferInit.stored = [] := by decide

/-! ## Adding an entry -/

section Add

variable {b : AesdCircularBuffer}

theorem slot_addEntry_self (h : RingInv b) (e : AesdBufferEntry) :
    (aesdCircularBufferAddEntry b e).2.slot b.inOffs = e :=
  slot_setSlot_self b e h.inLt

theorem slot_addEntry_of_ne (b : AesdCircularBuffer) (e : AesdBufferEntry) {i : Nat}
    (hi : i ≠ b.inOffs) : (aesdCircularBufferAddEntry b e).2.slot i = b.slot i :=
  slot_setSlot_of_ne b e hi

theorem inOffs_addEntry (b : AesdCircularBuffer) (e : AesdBufferEntry) :
    (aesdCircularBufferAddEntry b e).2.inOffs = nextPtr b.inOffs := rfl

theorem outOffs_addEntry (b : AesdCircularBuffer) (e : AesdBufferEntry) :
    (aesdCircularBufferAddEntry b e).2.outOffs =
      if b.full then nextPtr b.inOffs else b.outOffs := rfl

theorem full_addEntry (b : AesdCircularBuffer) (e : AesdBufferEntry) :
    (aesdCircularBufferAddEntry b e).2.full =
      (b.full || decide (nextPtr b.inOffs = b.outOffs)) := rfl

theorem ringInv_addEntry (h : RingInv b) (e : AesdBufferEntry) :
    RingInv (aesdCircularBufferAddEntry b e).2 where
  inLt := nextPtr_lt _
  outLt := by
    rw [outOffs_addEntry]
    split
    · exact nextPtr_lt _
    · exact h.outLt
  fullEq := by
    rw [full_addEntry, inOffs_addEntry, outOffs_addEntry, Bool.or_eq_true, decide_eq_true_eq]
    intro hf
    by_cases hb : b.full = true
    · rw [if_pos hb]
    · rw [if_neg hb]
      exact hf.resolve_left hb

theorem count_addEntry (h : RingInv b) (e : AesdBufferEntry) :
    (aesdCircularBufferAddEntry b e).2.count = min 10 (b.count + 1) := by
  have hi := h.inOffs_eq
  have hout := h.outLt
  by_cases hb : b.full = true
  · have hfull : (aesdCircularBufferAddEntry b e).2.full = true := by simp [full_addEntry, hb]
    rw [count_of_full hfull, count_of_full hb]
    rfl
  · have hc := count_lt_of_not_full (Bool.eq_false_iff.mpr hb)
    have hnext : nextPtr b.inOffs = (b.outOffs + (b.count + 1)) % 10 := by
      rw [hi, nextPtr_offset]
    rw [count, full_addEntry, inOffs_addEntry, outOffs_addEntry, Bool.eq_false_iff.mpr hb, hnext]
    simp only [AESDCHAR_MAX_WRITE_OPERATIONS_SUPPORTED, Bool.false_or, decide_eq_true_eq,
      Bool.false_eq_true, if_false]
    split <;> omega

/-- The ring keeps the last ten entries added, oldest first. -/
theorem stored_addEntry (h : RingInv b) (e : AesdBufferEntry) :
    (aesdCircularBufferAddEntry b e).2.stored = (b.stored ++ [e]).rtake 10 := by
  have hcount := count_addEntry h e
  have hslot := slot_addEntry_self h e
  unfold stored
  rw [hcount, outOffs_addEntry]
  by_cases hb : b.full = true
  · have hin : b.inOffs = b.outOffs % 10 := by
      rw [h.fullEq hb, Nat.mod_eq_of_lt h.outLt]
    rw [if_pos hb, count_of_full hb, nextPtr_of_lt h.inLt, h.fullEq hb]
    change window _ ((b.outOffs + 1) % 10) 10 10 = (window b.slot b.outOffs 10 10 ++ [e]).rtake 10
    rw [window_mod, List.rtake_concat_succ,
      ← tail_rtake 9 _ (by rw [length_window]; decide), rtake_of_length_le (by simp),
      window_rotate b.slot (by decide), ← hin, hslot]
    intro i hi
    exact slot_addEntry_of_ne b e (by rw [hin]; exact hi)
  · have hc := count_lt_of_not_full (Bool.eq_false_iff.mpr hb)
    rw [if_neg hb, show min 10 (b.count + 1) = b.count + 1 by omega,
      rtake_of_length_le (by simpa using hc)]
    change window _ b.outOffs 10 (b.count + 1) = window b.slot b.outOffs 10 b.count ++ [e]
    rw [window_push b.slot hc, ← h.inOffs_eq, hslot]
    intro i hi
    exact slot_addEntry_of_ne b e (by rw [h.inOffs_eq]; exact hi)

/-- Only a full ring gives up an entry: its oldest. -/
theorem addEntry_removed (h : RingInv b) (e : AesdBufferEntry) :
    (aesdCircularBufferAddEntry b e).1 =
      if b.count = 10 then (b.stored.head?).bind AesdBufferEntry.buffptr else none := by
  change (if b.full then (b.slot b.outOffs).buffptr else none) = _
  by_cases hb : b.full = true
  · have hhead : b.stored.head? = some (b.slot b.outOffs) := by
      unfold stored
      rw [count_of_full hb]
      change (window b.slot b.outOffs 10 (9 + 1)).head? = _
      rw [window_cons, List.head?_cons, Nat.mod_eq_of_lt h.outLt]
    rw [if_pos hb, if_pos (count_of_full hb), hhead, Option.bind_some]
  · rw [if_neg hb, if_neg (fun hc => hb ((full_iff b).mpr hc))]

end Add

/-! ## Walking the stored slots -/

section Walk

variable {α ρ : Type}

/-- What a walk computes, as a recursion over the slots it visits. -/
def foldVisit (visit : Nat → α → Loop.Step α ρ) (atEnd : α → ρ) : List Nat → α → Option ρ
  | [], acc => some (atEnd acc)
  | i :: is, acc =>
      match visit i acc with
      | .next acc => foldVisit visit atEnd is acc
      | .done r => some r
      | .hang => none

variable {b : AesdCircularBuffer}

theorem run_walkBody (h : RingInv b) (visit : Nat → α → Loop.Step α ρ) (atEnd : α → ρ)
    (n k fuel : Nat) (hk : k + (n + 1) = b.count) (hfuel : n < fuel) (acc : α) :
    Loop.run (walkBody b visit atEnd) fuel
        ((b.outOffs + k) % 10, (b.outOffs + (k + 1)) % 10, acc) =
      foldVisit visit atEnd (window id (b.outOffs + k) 10 (n + 1)) acc := by
  -- induction on the slots left: the walk at the `k`-th slot has the rest of the window before it,
  -- and leaves at the slot whose successor is `in_offs`
  induction n generalizing k fuel acc with
  | zero =>
      obtain ⟨fuel, rfl⟩ : ∃ m, fuel = m + 1 := ⟨fuel - 1, by omega⟩
      have hlast : (b.outOffs + (k + 1)) % 10 = b.inOffs :=
        (h.next_eq_inOffs_iff (by omega)).mpr hk
      rw [window_cons, Loop.run, walkBody, foldVisit, id]
      cases visit ((b.outOffs + k) % 10) acc with
      | next acc => simp only [if_pos hlast]; rfl
      | done r => rfl
      | hang => rfl
  | succ n ih =>
      obtain ⟨fuel, rfl⟩ : ∃ m, fuel = m + 1 := ⟨fuel - 1, by omega⟩
      have hmore : ¬ (b.outOffs + (k + 1)) % 10 = b.inOffs := by
        rw [h.next_eq_inOffs_iff (by omega)]
        omega
      rw [window_cons, Loop.run, walkBody, foldVisit, id]
      cases visit ((b.outOffs + k) % 10) acc with
      | next acc =>
          simp only [if_neg hmore, nextPtr_offset]
          exact ih (k + 1) fuel (by omega) (by omega) acc
      | done r => rfl
      | hang => rfl

/-- A walk over a ring that is not empty leaves within ten rounds, having visited the stored
slots in order. -/
theorem walk_eq (h : RingInv b) (visit : Nat → α → Loop.Step α ρ) (atEnd : α → ρ)
    (hne : b.count ≠ 0) {fuel : Nat} (hfuel : AESDCHAR_MAX_WRITE_OPERATIONS_SUPPORTED ≤ fuel)
    (acc : α) :
    walk fuel b visit atEnd acc = foldVisit visit atEnd b.slots acc := by
  obtain ⟨n, hn⟩ : ∃ n, b.count = n + 1 := ⟨b.count - 1, by omega⟩
  have hle : b.count ≤ fuel := le_trans b.count_le hfuel
  have hrun := run_walkBody h visit atEnd n 0 fuel (by omega) (by omega) acc
  rw [Nat.add_zero, Nat.mod_eq_of_lt h.outLt] at hrun
  rw [walk, nextPtr_of_lt h.outLt, slots, hn]
  exact hrun

/-- The test for emptiness and the walk behind it, where the empty buffer gives what a walk over
no slots gives. -/
theorem walk_slots (h : RingInv b) (visit : Nat → α → Loop.Step α ρ) (atEnd : α → ρ) (acc : α)
    {empty : Option ρ} (hempty : empty = some (atEnd acc)) :
    (if b.isEmpty then empty
      else walk AESDCHAR_MAX_WRITE_OPERATIONS_SUPPORTED b visit atEnd acc) =
      foldVisit visit atEnd b.slots acc := by
  by_cases hc : b.count = 0
  · have hnil : b.slots = [] := List.eq_nil_of_length_eq_zero (by rw [length_slots, hc])
    rw [if_pos (h.isEmpty_iff.mpr hc), hempty, hnil, foldVisit]
  · rw [if_neg (fun he => hc (h.isEmpty_iff.mp he)), walk_eq h _ _ hc le_rfl]

theorem foldVisit_next (visit : Nat → α → α) (atEnd : α → ρ) (is : List Nat) (acc : α) :
    foldVisit (fun i acc => .next (visit i acc)) atEnd is acc =
      some (atEnd (is.foldl (fun acc i => visit i acc) acc)) := by
  induction is generalizing acc with
  | nil => rfl
  | cons i is ih => exact ih (visit i acc)

end Walk

/-- The entries met by a walk from `out_offs`. -/
def AesdCircularBuffer.walked (b : AesdCircularBuffer) : Option (List AesdBufferEntry) :=
  if b.isEmpty then some []
  else
    walk AESDCHAR_MAX_WRITE_OPERATIONS_SUPPORTED b
      (fun i acc => .next (acc ++ [b.slot i])) (fun acc => acc) []

theorem foldl_concat_map {α β : Type} (f : α → β) (is : List α) (acc : List β) :
    is.foldl (fun acc i => acc ++ [f i]) acc = acc ++ is.map f := by
  induction is generalizing acc with
  | nil => simp
  | cons i is ih =>
      rw [List.foldl_cons, ih, List.map_cons, List.append_assoc, List.singleton_append]

theorem walked_eq_stored {b : AesdCircularBuffer} (h : RingInv b) : b.walked = some b.stored := by
  rw [AesdCircularBuffer.walked, walk_slots h,
    foldVisit_next (fun i acc => acc ++ [b.slot i]), foldl_concat_map, List.nil_append,
    map_slot_slots]
  rfl

end AesdChar
