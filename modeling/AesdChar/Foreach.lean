import AesdChar.CallsReturn
import AesdChar.Ledger

/-!
# The clean-up that the header suggests

`AESD_CIRCULAR_BUFFER_FOREACH` visits all ten entries from index 0, and its example of use frees
what they designate.  `cleanup_circulat_buffers` walks from `out_offs` over the stored ones instead.
They free the same blocks, because an entry that is not stored still has the NULL of the `memset`.
-/

namespace AesdChar

open AesdCircularBuffer

/-- The macro with its body, which may use the entry. -/
def aesdCircularBufferForeach {α : Type} (buffer : AesdCircularBuffer)
    (body : α → AesdBufferEntry → α) (acc : α) : α :=
  (List.range AESDCHAR_MAX_WRITE_OPERATIONS_SUPPORTED).foldl
    (fun acc index => body acc (buffer.slot index)) acc

/-! ## The slots that are not stored -/

/-- Entries that have not been written are NULL. -/
structure UnusedNull (b : AesdCircularBuffer) : Prop where
  ring : RingInv b
  null : ∀ i < 10, i ∉ b.slots → (b.slot i).buffptr = none

theorem mem_slots {b : AesdCircularBuffer} {i : Nat} :
    i ∈ b.slots ↔ ∃ k < b.count, (b.outOffs + k) % 10 = i := by
  simp [slots, Circular.window, AESDCHAR_MAX_WRITE_OPERATIONS_SUPPORTED]

theorem nodup_slots (b : AesdCircularBuffer) : b.slots.Nodup := by
  apply List.Nodup.map_on
  · intro k hk k' hk' heq
    have hle := b.count_le
    have hlt := List.mem_range.mp hk
    have hlt' := List.mem_range.mp hk'
    exact @Circular.offset_inj b.outOffs 10 k k' (by omega) (by omega) heq
  · exact List.nodup_range

namespace UnusedNull

theorem init : UnusedNull aesdCircularBufferInit where
  ring := RingInv.init
  null := by decide

theorem addEntry {b : AesdCircularBuffer} (h : UnusedNull b) (e : AesdBufferEntry) :
    UnusedNull (aesdCircularBufferAddEntry b e).2 where
  ring := ringInv_addEntry h.ring e
  null := by
    intro i hi hout
    rw [mem_slots, count_addEntry h.ring, outOffs_addEntry] at hout
    by_cases hfull : b.full = true
    · -- there is no slot left
      rw [if_pos hfull, count_of_full hfull] at hout
      refine absurd ⟨(i + 10 - nextPtr b.inOffs) % 10, ?_, ?_⟩ hout
      · omega
      · have hlt := nextPtr_lt b.inOffs
        omega
    · have hcount := count_lt_of_not_full (Bool.eq_false_iff.mpr hfull)
      rw [if_neg hfull, show min 10 (b.count + 1) = b.count + 1 by omega] at hout
      have hother : i ≠ b.inOffs := by
        rw [h.ring.inOffs_eq]
        exact fun he => hout ⟨b.count, by omega, he.symm⟩
      rw [slot_addEntry_of_ne b e hother]
      apply h.null i hi
      rw [mem_slots]
      exact fun ⟨k, hk, he⟩ => hout ⟨k, by omega, he⟩

/-- All ten entries designate what the stored ones do. -/
theorem blocks_perm {b : AesdCircularBuffer} (h : UnusedNull b) :
    (((List.range 10).map b.slot).filterMap AesdBufferEntry.buffptr).Perm b.blocks := by
  have hin : ((List.range 10).filter (· ∈ b.slots)).Perm b.slots := by
    apply (List.perm_ext_iff_of_nodup (List.nodup_range.filter _) (nodup_slots b)).mpr
    intro i
    rw [List.mem_filter, List.mem_range, decide_eq_true_eq, and_iff_right_iff_imp]
    intro hi
    obtain ⟨k, _, rfl⟩ := mem_slots.mp hi
    exact Nat.mod_lt _ (by decide)
  have hout : (((List.range 10).filter (¬ · ∈ b.slots)).map b.slot).filterMap
      AesdBufferEntry.buffptr = [] := by
    apply List.filterMap_eq_nil_iff.mpr
    intro e he
    obtain ⟨i, hi, rfl⟩ := List.mem_map.mp he
    rw [List.mem_filter, List.mem_range, decide_eq_true_eq] at hi
    exact h.null i hi.1 hi.2
  have hsplit := (List.filter_append_perm (fun i => decide (i ∈ b.slots)) (List.range 10)).symm
  have hall := (hsplit.map b.slot).filterMap AesdBufferEntry.buffptr
  rw [List.map_append, List.filterMap_append] at hall
  simp only [← decide_not, hout, List.append_nil] at hall
  refine hall.trans ?_
  rw [AesdCircularBuffer.blocks, ← map_slot_slots]
  exact (hin.map b.slot).filterMap _

end UnusedNull

/-! ## Both clean-ups -/

theorem foreach_free (b : AesdCircularBuffer) (heap : Heap) :
    aesdCircularBufferForeach b (fun heap entry => heap.free entry.buffptr) heap =
      (((List.range 10).map b.slot).filterMap AesdBufferEntry.buffptr).foldl
        (fun heap p => heap.free (some p)) heap := by
  rw [← foldl_free_buffptr, List.foldl_map]
  rfl

theorem UnusedNull.step {ι : Type} [DecidableEq ι] {fixedSizeLlseek : LlseekFn} {k : Kernel ι}
    (h : UnusedNull k.driver.dev.buffer) (t : KernelTurn ι) :
    UnusedNull (k.step fixedSizeLlseek t).driver.dev.buffer := by
  rcases Kernel.step_buffer fixedSizeLlseek k t with hsame | ⟨_, _, _, _, e, _, hadded⟩
  · rw [hsame]
    exact h
  · rw [hadded]
    exact h.addEntry e

theorem unusedNull_run {ι : Type} [DecidableEq ι] (fixedSizeLlseek : LlseekFn) (fPos : ι → Int)
    (turns : List (KernelTurn ι)) :
    UnusedNull ((Kernel.machine fixedSizeLlseek).run (Kernel.start fPos) turns).driver.dev.buffer :=
  Runs.invariant (fun k : Kernel ι => UnusedNull k.driver.dev.buffer)
    (fun _ t hk => UnusedNull.step hk t) .init turns

/-- Wherever any number of threads have got to in their calls, whatever failed in them: the clean-up
when the module is removed and the one that the header suggests free the same blocks, as often, and
differ in the order only. -/
theorem foreach_frees_the_same {ι : Type} [DecidableEq ι] (fixedSizeLlseek : LlseekFn)
    (fPos : ι → Int) (turns : List (KernelTurn ι)) :
    let s := ((Kernel.machine fixedSizeLlseek).run (Kernel.start fPos) turns).driver
    ∃ heap, aesdCleanupModule s = some heap ∧
      heap.Reordered (aesdCircularBufferForeach s.dev.buffer
        (fun heap entry => heap.free entry.buffptr) s.heap) := by
  have h := unusedNull_run fixedSizeLlseek fPos turns
  refine ⟨_, aesdCleanupModule_eq h.ring, ?_⟩
  rw [foreach_free]
  exact Heap.Reordered.of_perm h.blocks_perm.symm _

end AesdChar
