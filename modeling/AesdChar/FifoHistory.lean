import AesdChar.RingFifo

/-!
# Histories of adds

The ring from `aesd_circular_buffer_init` on, over any number of adds: which entries its three
walks visit, what each add gives back, and what is left for the cleanup to free.
-/

namespace AesdChar

open CInt Circular AesdCircularBuffer

namespace AesdCircularBuffer

def addAll (b : AesdCircularBuffer) (entries : List AesdBufferEntry) : AesdCircularBuffer :=
  entries.foldl (fun b e => (aesdCircularBufferAddEntry b e).2) b

/-- What the adds return, in order. -/
def returned : AesdCircularBuffer → List AesdBufferEntry → List (Option Nat)
  | _, [] => []
  | b, e :: entries =>
      (aesdCircularBufferAddEntry b e).1 :: returned (aesdCircularBufferAddEntry b e).2 entries

/-- The pointers that the cleanup hands to `kfree`, in order. -/
def freed (b : AesdCircularBuffer) : Option (List (Option Nat)) :=
  cleanupCirculatBuffers (fun freed buffptr => freed ++ [buffptr]) b []

theorem addAll_concat (b : AesdCircularBuffer) (entries : List AesdBufferEntry)
    (e : AesdBufferEntry) :
    b.addAll (entries ++ [e]) = (aesdCircularBufferAddEntry (b.addAll entries) e).2 := by
  rw [addAll, List.foldl_append]
  rfl

theorem returned_concat (b : AesdCircularBuffer) (entries : List AesdBufferEntry)
    (e : AesdBufferEntry) :
    b.returned (entries ++ [e]) =
      b.returned entries ++ [(aesdCircularBufferAddEntry (b.addAll entries) e).1] := by
  induction entries generalizing b with
  | nil => rfl
  | cons e' entries ih =>
      rw [List.cons_append, returned, ih, returned, List.cons_append]
      rfl

end AesdCircularBuffer

/-! ## The stored entries -/

theorem ringInv_addAll {b : AesdCircularBuffer} (h : RingInv b) (entries : List AesdBufferEntry) :
    RingInv (b.addAll entries) := by
  induction entries generalizing b with
  | nil => exact h
  | cons e entries ih => exact ih (ringInv_addEntry h e)

theorem stored_addAll (entries : List AesdBufferEntry) :
    (aesdCircularBufferInit.addAll entries).stored = entries.rtake 10 := by
  -- induction on the history, its last add first
  induction entries using List.reverseRecOn with
  | nil => exact stored_init
  | append_singleton entries e ih =>
      rw [addAll_concat, stored_addEntry (ringInv_addAll RingInv.init entries), ih,
        ← rtake_concat]

theorem count_addAll (entries : List AesdBufferEntry) :
    (aesdCircularBufferInit.addAll entries).count = min 10 entries.length := by
  rw [← length_stored, stored_addAll, length_rtake]

theorem slots_nodup (b : AesdCircularBuffer) : b.slots.Nodup := by
  have hle := b.count_le
  apply List.Nodup.map_on
  · intro j hj k hk heq
    rw [List.mem_range] at hj hk
    exact offset_inj (show j < 10 by omega) (show k < 10 by omega) heq
  · exact List.nodup_range

/-! ## The pointers given back -/

theorem head_rtake (entries : List AesdBufferEntry) :
    (entries.rtake 10).head? = entries[entries.length - 10]? := by
  rw [List.rtake, List.head?_drop]

/-- The first ten adds return NULL, each later one the pointer added ten adds before. -/
theorem returned_eq (entries : List AesdBufferEntry) :
    aesdCircularBufferInit.returned entries =
      List.replicate (min 10 entries.length) none ++
        (entries.take (entries.length - 10)).map AesdBufferEntry.buffptr := by
  induction entries using List.reverseRecOn with
  | nil => rfl
  | append_singleton entries e ih =>
      have hring := ringInv_addAll RingInv.init entries
      rw [returned_concat, ih, addEntry_removed hring, count_addAll, stored_addAll,
        List.length_append, List.length_singleton]
      by_cases hfull : 10 ≤ entries.length
      · have hlt : entries.length - 10 < entries.length := by omega
        have hcut : entries.length + 1 - 10 = entries.length - 10 + 1 := by omega
        rw [if_pos (Nat.min_eq_left hfull), head_rtake, Nat.min_eq_left hfull,
          Nat.min_eq_left (by omega), hcut, List.getElem?_eq_getElem hlt, Option.bind_some,
          List.append_assoc, List.take_append_of_le_length (by omega),
          ← List.take_concat_get' _ _ hlt, List.map_append]
        rfl
      · have hmin : min 10 entries.length = entries.length := by omega
        have hnext : min 10 (entries.length + 1) = entries.length + 1 := by omega
        have hnone : entries.length - 10 = 0 := by omega
        have hnone' : entries.length + 1 - 10 = 0 := by omega
        rw [hmin, hnext, if_neg (by omega), hnone, hnone', List.take_zero, List.take_zero,
          List.map_nil, List.append_nil, List.append_nil, List.replicate_succ']

theorem foldVisit_returns {α ρ : Type} {visit : Nat → α → Loop.Step α ρ} {atEnd : α → ρ}
    (h : ∀ i acc, visit i acc ≠ .hang) (is : List Nat) (acc : α) :
    (foldVisit visit atEnd is acc).isSome := by
  induction is generalizing acc with
  | nil => rfl
  | cons i is ih =>
      rw [foldVisit]
      cases hv : visit i acc with
      | next acc' => exact ih acc'
      | done r => rfl
      | hang => exact absurd hv (h i acc)

/-- The three walks come back, and go through the same slots in the same order. -/
structure WalksVisit (b : AesdCircularBuffer) (is : List Nat) : Prop where
  find : ∀ charOffset,
    aesdCircularBufferFindEntryOffsetForFpos b charOffset =
      foldVisit (findVisit b) (fun _ => none) is (int32 charOffset) ∧
    (aesdCircularBufferFindEntryOffsetForFpos b charOffset).isSome
  adjust : ∀ fPos writeCmd writeCmdOffset,
    aesdAdjustFileOffset b fPos writeCmd writeCmdOffset =
      (if is = [] then some (0, 0)
        else foldVisit (adjustVisit b fPos writeCmd writeCmdOffset) (fun _ => (-EINVAL, fPos)) is
          (0, 0)) ∧
    (aesdAdjustFileOffset b fPos writeCmd writeCmdOffset).isSome
  cleanup : ∀ {H : Type} (kfree : H → Option Nat → H) (heap : H),
    cleanupCirculatBuffers kfree b heap =
      some (is.foldl (fun heap i => kfree heap (b.slot i).buffptr) heap)

theorem walksVisit_slots {b : AesdCircularBuffer} (h : RingInv b) : WalksVisit b b.slots where
  find := by
    intro charOffset
    have hwalk : aesdCircularBufferFindEntryOffsetForFpos b charOffset =
        foldVisit (findVisit b) (fun _ => none) b.slots (int32 charOffset) := by
      rw [aesdCircularBufferFindEntryOffsetForFpos, walk_slots h]
      rfl
    refine ⟨hwalk, ?_⟩
    rw [hwalk]
    apply foldVisit_returns
    intro i acc
    unfold findVisit
    split <;> nofun
  adjust := by
    intro fPos writeCmd writeCmdOffset
    have hnil : b.slots = [] ↔ b.count = 0 := by
      rw [← List.length_eq_zero_iff, length_slots]
    have hwalk : aesdAdjustFileOffset b fPos writeCmd writeCmdOffset =
        if b.slots = [] then some (0, 0)
        else foldVisit (adjustVisit b fPos writeCmd writeCmdOffset) (fun _ => (-EINVAL, fPos))
          b.slots (0, 0) := by
      rw [aesdAdjustFileOffset]
      by_cases hc : b.count = 0
      · rw [if_pos (h.isEmpty_iff.mpr hc), if_pos (hnil.mpr hc)]
      · rw [if_neg (fun he => hc (h.isEmpty_iff.mp he)), if_neg (fun he => hc (hnil.mp he)),
          walk_eq h _ _ hc le_rfl]
    refine ⟨hwalk, ?_⟩
    rw [hwalk]
    split
    · rfl
    · apply foldVisit_returns
      intro i acc
      unfold adjustVisit
      split
      · dsimp only
        split <;> nofun
      · nofun
  cleanup := by
    intro H kfree heap
    rw [cleanupCirculatBuffers, walk_slots h,
      foldVisit_next (fun i heap => kfree heap (b.slot i).buffptr)]
    · rfl
    · rfl

theorem freed_eq {b : AesdCircularBuffer} (h : RingInv b) :
    b.freed = some (b.stored.map AesdBufferEntry.buffptr) := by
  rw [freed, (walksVisit_slots h).cleanup, foldl_concat_map (fun i => (b.slot i).buffptr),
    List.nil_append, ← map_slot_slots, List.map_map]
  rfl

/-- After any adds to the fresh ring: the indices are in range, the walks visit the last ten
entries, oldest first and each in a slot of its own, an add returns the pointer added ten adds
before, and what the adds return with what the cleanup frees are the pointers added. -/
theorem bounded_fifo (entries : List AesdBufferEntry) :
    let b := aesdCircularBufferInit.addAll entries
    (b.inOffs < 10 ∧ b.outOffs < 10) ∧
    (WalksVisit b b.slots ∧ b.slots.Nodup ∧ b.slots.map b.slot = entries.rtake 10) ∧
    (∀ k (hk : k < entries.length), (aesdCircularBufferInit.returned entries)[k]? =
      some (if k < 10 then none else entries[k - 10].buffptr)) ∧
    ∃ freed, b.freed = some freed ∧
      (aesdCircularBufferInit.returned entries).drop 10 ++ freed =
        entries.map AesdBufferEntry.buffptr := by
  intro b
  have hring : RingInv b := ringInv_addAll RingInv.init entries
  have hstored : b.stored = entries.rtake 10 := stored_addAll entries
  refine ⟨⟨hring.inLt, hring.outLt⟩, ⟨walksVisit_slots hring, slots_nodup b, ?_⟩, ?_, ?_⟩
  · rw [map_slot_slots, hstored]
  · intro k hk
    rw [returned_eq]
    by_cases hlt : k < 10
    · rw [if_pos hlt, List.getElem?_append_left (by rw [List.length_replicate]; omega),
        List.getElem?_replicate, if_pos (by omega)]
    · have hten : min 10 entries.length = 10 := by omega
      rw [if_neg hlt, hten, List.getElem?_append_right (by rw [List.length_replicate]; omega),
        List.length_replicate, List.getElem?_map, List.getElem?_take_of_lt (by omega),
        List.getElem?_eq_getElem (by omega), Option.map_some]
  · refine ⟨_, freed_eq hring, ?_⟩
    rw [hstored, returned_eq, List.rtake]
    by_cases hfull : 10 ≤ entries.length
    · rw [Nat.min_eq_left hfull, List.drop_left' (List.length_replicate ..), ← List.map_append,
        List.take_append_drop]
    · have hzero : entries.length - 10 = 0 := by omega
      rw [hzero, List.take_zero, List.map_nil, List.append_nil, List.drop_zero,
        List.drop_of_length_le (by rw [List.length_replicate]; omega), List.nil_append]

end AesdChar
