import AesdChar.InFlight

/-!
# What the locked sections do to the log

The chunk's block may have been issued long before the lock was acquired, and the evicted block is
freed after the unlock.  Between the statements of the section of a complete write the pending
command is in a block of the call's own.
-/

namespace AesdChar

open CInt Heap AesdCircularBuffer

namespace Holds

variable {s : Driver} {log : CommandLog}

/-- `handle_partial_data` on a chunk that has had its block for a while. -/
theorem joined (h : Holds s log) {buf : List UInt8} {env : WriteEnv} {buffptr : Nat}
    (hr : Received s buf env buffptr) (hout : buffptr ∉ s.held)
    (hcat : WriteCall.Concatenates s ⟨buf, 0, env⟩) :
    ∃ ptr heap,
      handlePartialData s.heap s.dev.partMemPtr s.dev.partBufSize (some buffptr)
          (int32 (s.dev.partBufSize + buf.length)) env = (some ptr, heap) ∧
      heap.load (some ptr) = some (log.extended (env.received buf)) ∧
      ptr ∉ s.held ∧ (ptr = buffptr ∨ ¬ s.heap.Live ptr) ∧
      (∀ b, s.dev.partMemPtr ≠ some b → s.heap.Live b →
        heap.load (some b) = s.heap.load (some b)) ∧
      heap.fault = false := by
  rcases h.pending_cases with ⟨hlog, hp, _⟩ | ⟨p, old, hlog, hp, hload, hsize, _⟩
  · have hext : log.extended (env.received buf) = env.received buf := by
      simp [CommandLog.extended, hlog]
    rw [hext, hp]
    exact ⟨buffptr, s.heap, rfl, hr.load, hout, Or.inl rfl, fun _ _ _ => rfl, h.noFault⟩
  · have hext : log.extended (env.received buf) = old ++ env.received buf := by
      simp [CommandLog.extended, hlog]
    have hlen := h.extended_small (c := ⟨buf, 0, env⟩) hr.memory hcat
    rw [WriteCall.arrived, hext, List.length_append, length_received] at hlen
    have hmem : kmallocSucceeds (old.length + (env.received buf).length) env.concat = true := by
      have hmem := hcat.resolve_left (by simp [hp])
      rw [length_received]
      rwa [hsize, ← Int.natCast_add, int32_natCast _ hlen, sizeT_natCast _ (by omega)] at hmem
    have hjoin := handlePartialData_eq hload hr.load (by rw [length_received]; exact hlen) hmem
    rw [length_received] at hjoin
    have hdead : ¬ s.heap.Live s.heap.issued := fun hl => absurd hl.lt (lt_irrefl _)
    have hne : p ≠ s.heap.issued := (live_of_load hload).lt.ne
    rw [hext, hp, hsize]
    refine ⟨_, _, hjoin, ?_, fun hb => hdead (h.live_of_held hb), Or.inr hdead, ?_, ?_⟩
    · rw [load_free_of_ne (by simpa using hne), load_alloc_self]
    · intro b hb hlive
      rw [load_free_of_ne hb, load_alloc_of_lt hlive.lt]
    · rw [fault_free (live_alloc.mpr (Or.inl (live_of_load hload)))]
      exact h.noFault

/-- The pending command has been taken from the device. -/
theorem take (h : Holds s log) {heap : Heap}
    (hload : ∀ b ∈ s.dev.buffer.blocks, heap.load (some b) = s.heap.load (some b))
    (hfault : heap.fault = false) :
    Holds ⟨{ s.dev with partMemPtr := none, partBufSize := 0 }, heap⟩ ⟨log.commands, none⟩ where
  ring := h.ring
  entries := by
    rw [← h.entries]
    apply List.map_congr_left
    intro e he
    obtain ⟨b, _, _, hb, _⟩ := h.entry_load he
    rw [hb, hload b (List.mem_filterMap.mpr ⟨e, he, hb⟩)]
  pending := ⟨rfl, rfl⟩
  nodup := by
    rw [Driver.held, Option.toList_none, List.append_nil]
    exact h.nodup_blocks
  noFault := hfault

/-- An entry is added, and the block given up for it has yet to be freed. -/
theorem add {commands : List (List UInt8)} (h : Holds s ⟨commands, none⟩) {ptr : Nat}
    {command : List UInt8} (hnew : s.heap.load (some ptr) = some command)
    (hfresh : ptr ∉ s.dev.buffer.blocks) :
    Holds
      ⟨{ s.dev with
          buffer := (aesdCircularBufferAddEntry s.dev.buffer ⟨some ptr, command.length⟩).2 },
        s.heap⟩
      ⟨(commands ++ [command]).rtake 10, none⟩ := by
  obtain ⟨hp, hsize⟩ := h.pending
  have hcommit := h.commit hnew hfresh (fun _ _ => rfl) h.noFault
  have hback := @frame _ _ hcommit s.heap (fun b hb => ?_) h.noFault
  · rw [← hp, ← hsize] at hback
    exact hback
  · -- what the device holds afterwards is live, so it is not the block given up
    have hlive := hcommit.live_of_held hb
    symm
    apply load_free_of_ne
    intro hr
    rw [hr, live_free (h.live_of_blocks (removed_mem_blocks h.ring hr)).lt] at hlive
    exact hlive.2 rfl

theorem removed {commands : List (List UInt8)} (h : Holds s ⟨commands, none⟩) {ptr size : Nat}
    (hfresh : ptr ∉ s.dev.buffer.blocks) {b : Nat}
    (hb : (aesdCircularBufferAddEntry s.dev.buffer ⟨some ptr, size⟩).1 = some b) :
    b ∈ s.held ∧ b ∉ (aesdCircularBufferAddEntry s.dev.buffer ⟨some ptr, size⟩).2.blocks := by
  have hold := removed_mem_blocks h.ring hb
  refine ⟨List.mem_append_left _ hold, ?_⟩
  obtain ⟨kept, hblocks, hadded⟩ := blocks_addEntry h.ring ⟨some ptr, size⟩
  have hnd := h.nodup_blocks
  rw [hblocks, hb, Option.toList_some, List.singleton_append] at hnd
  rw [hadded, Option.toList_some]
  intro hmem
  rcases List.mem_append.mp hmem with hkept | hnew
  · exact (List.nodup_cons.mp hnd).1 hkept
  · rw [List.mem_singleton.mp hnew] at hold
    exact hfresh hold

end Holds

end AesdChar
