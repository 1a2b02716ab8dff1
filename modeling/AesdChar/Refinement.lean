import AesdChar.CommandLog
import AesdChar.WriteSteps

/-!
# The driver refines the command log

`Holds s log` reads the log off the driver: every stored entry designates a live block with the
bytes of its command, the partial buffer designates the command being assembled, and no block is
designated twice.  A write that fails before it changes the device keeps the log; one whose
`kmalloc` in `handle_partial_data` succeeds accepts the chunk that arrived.
-/

namespace AesdChar

open CInt Heap

namespace AesdCircularBuffer

/-- The blocks designated by the stored entries, oldest first. -/
def blocks (b : AesdCircularBuffer) : List Nat := b.stored.filterMap AesdBufferEntry.buffptr

end AesdCircularBuffer

/-! ## What an add gives up and what it keeps -/

section

variable {b : AesdCircularBuffer}

theorem stored_split (h : RingInv b) (e : AesdBufferEntry) :
    ∃ out rest, b.stored = out ++ rest ∧
      (aesdCircularBufferAddEntry b e).2.stored = rest ++ [e] ∧
      (aesdCircularBufferAddEntry b e).1.toList = out.filterMap AesdBufferEntry.buffptr ∧
      out.length = b.count - 9 := by
  have hst := stored_addEntry h e
  have hrm := addEntry_removed h e
  have hlen := b.length_stored
  have hle := b.count_le
  by_cases hc : b.count = 10
  · cases hs : b.stored with
    | nil => simp [hs, hc] at hlen
    | cons e0 rest =>
        rw [hs] at hlen
        refine ⟨[e0], rest, rfl, ?_, ?_, ?_⟩
        · rw [hst, hs, List.rtake, List.length_append, hlen, hc]
          rfl
        · rw [hrm, if_pos hc, hs]
          simp [List.filterMap_cons]
          cases e0.buffptr <;> rfl
        · rw [hc]
          rfl
  · refine ⟨[], b.stored, rfl, ?_, ?_, ?_⟩
    · rw [hst, Circular.rtake_of_length_le]
      rw [List.length_append, hlen]
      simp only [List.length_singleton]
      omega
    · rw [hrm, if_neg hc]
      rfl
    · rw [List.length_nil]
      omega

theorem blocks_addEntry (h : RingInv b) (e : AesdBufferEntry) :
    ∃ kept, b.blocks = (aesdCircularBufferAddEntry b e).1.toList ++ kept ∧
      (aesdCircularBufferAddEntry b e).2.blocks = kept ++ e.buffptr.toList := by
  obtain ⟨out, rest, hs, hst, hrm, _⟩ := stored_split h e
  refine ⟨rest.filterMap AesdBufferEntry.buffptr, ?_, ?_⟩
  · rw [AesdCircularBuffer.blocks, hs, List.filterMap_append, hrm]
  · rw [AesdCircularBuffer.blocks, hst, List.filterMap_append]
    cases hp : e.buffptr <;> simp [hp]

theorem mem_blocks_addEntry (h : RingInv b) {e : AesdBufferEntry} {p : Nat}
    (hp : p ∈ (aesdCircularBufferAddEntry b e).2.blocks) : p ∈ b.blocks ∨ e.buffptr = some p := by
  obtain ⟨kept, hblocks, hadded⟩ := blocks_addEntry h e
  rw [hadded] at hp
  rcases List.mem_append.mp hp with hold | hnew
  · exact Or.inl (hblocks ▸ List.mem_append_right _ hold)
  · exact Or.inr (Option.mem_toList.mp hnew)

theorem removed_mem_blocks (h : RingInv b) {e : AesdBufferEntry} {p : Nat}
    (hp : (aesdCircularBufferAddEntry b e).1 = some p) : p ∈ b.blocks := by
  obtain ⟨kept, hblocks, _⟩ := blocks_addEntry h e
  rw [hblocks]
  exact List.mem_append_left _ (Option.mem_toList.mpr hp)

end

/-! ## The log a driver holds -/

namespace Driver

/-- The blocks the device designates. -/
def held (s : Driver) : List Nat := s.dev.buffer.blocks ++ s.dev.partMemPtr.toList

/-- The stored entries with the bytes they lead to. -/
def view (s : Driver) : List (Option (List UInt8) × Nat) :=
  s.dev.buffer.stored.map fun e => (s.heap.load e.buffptr, e.size)

end Driver

/-- The partial buffer holds the command being assembled; NULL and 0 when there is none. -/
def PendingIs (s : Driver) : Option (List UInt8) → Prop
  | none => s.dev.partMemPtr = none ∧ s.dev.partBufSize = 0
  | some bs =>
      s.heap.load s.dev.partMemPtr = some bs ∧ s.dev.partBufSize = bs.length ∧ bs.length < 2 ^ 31

structure Holds (s : Driver) (log : CommandLog) : Prop where
  ring : RingInv s.dev.buffer
  entries : s.view = log.commands.map fun c => (some c, c.length)
  pending : PendingIs s log.pending
  nodup : s.held.Nodup
  noFault : s.heap.fault = false

namespace Holds

variable {s : Driver} {log : CommandLog}

theorem init : Holds aesdInitModule CommandLog.empty where
  ring := RingInv.init
  entries := by simp [Driver.view, aesdInitModule, CommandLog.empty]
  pending := ⟨rfl, rfl⟩
  nodup := by
    simp [Driver.held, AesdCircularBuffer.blocks, aesdInitModule]
  noFault := rfl

theorem entry_load (h : Holds s log) {e : AesdBufferEntry} (he : e ∈ s.dev.buffer.stored) :
    ∃ b, ∃ c ∈ log.commands, e.buffptr = some b ∧ s.heap.load (some b) = some c ∧
      c.length = e.size := by
  have hv : (s.heap.load e.buffptr, e.size) ∈ s.view := List.mem_map_of_mem he
  rw [h.entries] at hv
  obtain ⟨c, hc, heq⟩ := List.mem_map.mp hv
  simp only [Prod.mk.injEq] at heq
  cases hp : e.buffptr with
  | none => simp [hp, load] at heq
  | some b => exact ⟨b, c, hc, rfl, by rw [← hp, heq.1], heq.2⟩

theorem command_entry (h : Holds s log) {c : List UInt8} (hc : c ∈ log.commands) :
    ∃ e ∈ s.dev.buffer.stored, s.heap.load e.buffptr = some c ∧ e.size = c.length := by
  have hv : (some c, c.length) ∈ s.view := by
    rw [h.entries]
    exact List.mem_map_of_mem hc
  obtain ⟨e, he, heq⟩ := List.mem_map.mp hv
  exact ⟨e, he, Prod.mk.inj heq⟩

/-- The partial buffer is NULL, or designates the live block with the command being assembled. -/
theorem pending_cases (h : Holds s log) :
    (log.pending = none ∧ s.dev.partMemPtr = none ∧ s.dev.partBufSize = 0) ∨
    ∃ p old, log.pending = some old ∧ s.dev.partMemPtr = some p ∧
      s.heap.load (some p) = some old ∧ s.dev.partBufSize = old.length ∧ old.length < 2 ^ 31 := by
  have hp := h.pending
  cases hlog : log.pending with
  | none =>
      rw [hlog] at hp
      exact Or.inl ⟨rfl, hp⟩
  | some old =>
      rw [hlog] at hp
      cases hptr : s.dev.partMemPtr with
      | none =>
          rw [PendingIs, hptr] at hp
          exact absurd hp.1 (by simp [load])
      | some p =>
          rw [PendingIs, hptr] at hp
          exact Or.inr ⟨p, old, rfl, rfl, hp⟩

theorem live_of_blocks (h : Holds s log) {b : Nat} (hb : b ∈ s.dev.buffer.blocks) :
    s.heap.Live b := by
  obtain ⟨e, he, hp⟩ := List.mem_filterMap.mp hb
  obtain ⟨b', _, _, hp', hl, _⟩ := h.entry_load he
  rw [hp] at hp'
  rw [Option.some.inj hp']
  exact live_of_load hl

theorem live_of_pending (h : Holds s log) {b : Nat} (hb : s.dev.partMemPtr = some b) :
    s.heap.Live b := by
  rcases h.pending_cases with ⟨_, hp, _⟩ | ⟨p, _, _, hp, hl, _⟩
  · rw [hp] at hb
    exact absurd hb (by simp)
  · rw [hp] at hb
    rw [← Option.some.inj hb]
    exact live_of_load hl

theorem live_of_held (h : Holds s log) {b : Nat} (hb : b ∈ s.held) : s.heap.Live b := by
  rcases List.mem_append.mp hb with hb | hb
  · exact h.live_of_blocks hb
  · exact h.live_of_pending (Option.mem_toList.mp hb)

theorem nodup_blocks (h : Holds s log) : s.dev.buffer.blocks.Nodup :=
  (List.nodup_append.mp h.nodup).1

/-- The entries behind the oldest ones are those of the commands behind theirs. -/
theorem entries_behind (h : Holds s log) {out rest : List AesdBufferEntry}
    (hs : s.dev.buffer.stored = out ++ rest) :
    (rest.map fun e => (s.heap.load e.buffptr, e.size)) =
      (log.commands.drop out.length).map fun c => (some c, c.length) := by
  have hv := congrArg (List.drop out.length) h.entries
  rw [Driver.view, hs, List.map_append, ← List.map_drop, List.drop_left'] at hv
  · exact hv
  · exact List.length_map _

/-- The block issued next is not designated yet. -/
theorem fresh (h : Holds s log) : s.heap.issued ∉ s.held :=
  fun hb => absurd (h.live_of_held hb).lt (lt_irrefl _)

theorem extended_length (h : Holds s log) (chunk : List UInt8) :
    s.dev.partBufSize + chunk.length = (log.extended chunk).length := by
  rw [CommandLog.extended]
  rcases h.pending_cases with ⟨hl, _, hsize⟩ | ⟨_, _, hl, _, _, hsize, _⟩
  · simp [hl, hsize]
  · simp [hl, hsize]

theorem sizes_eq (h : Holds s log) : s.dev.buffer.sizes = log.commands.map List.length := by
  have hv := congrArg (List.map Prod.snd) h.entries
  rw [Driver.view, List.map_map, List.map_map] at hv
  exact hv

theorem count_eq (h : Holds s log) : s.dev.buffer.count = log.commands.length := by
  rw [← AesdCircularBuffer.length_sizes, h.sizes_eq, List.length_map]

theorem totalSize_eq (h : Holds s log) : s.dev.buffer.totalSize = log.contents.length := by
  rw [AesdCircularBuffer.totalSize, h.sizes_eq, CommandLog.contents, List.length_flatten]

/-! ## Operations on the heap under the device -/

/-- Another heap with the same designated blocks holds the same log. -/
theorem frame (h : Holds s log) {heap : Heap}
    (hload : ∀ b ∈ s.held, heap.load (some b) = s.heap.load (some b))
    (hfault : heap.fault = false) : Holds { s with heap := heap } log where
  ring := h.ring
  entries := by
    rw [← h.entries]
    apply List.map_congr_left
    intro e he
    obtain ⟨b, _, _, hb, _⟩ := h.entry_load he
    have hmem : b ∈ s.held :=
      List.mem_append_left _ (List.mem_filterMap.mpr ⟨e, he, hb⟩)
    simp only [hb, hload b hmem]
  pending := by
    rcases h.pending_cases with ⟨hl, hp, hsize⟩ | ⟨p, old, hl, hp, hold, hsize, hlt⟩
    · rw [hl]
      exact ⟨hp, hsize⟩
    · rw [hl]
      refine ⟨?_, hsize, hlt⟩
      have hmem : p ∈ s.held := List.mem_append_right _ (by simp [hp])
      show heap.load s.dev.partMemPtr = some old
      rw [hp, hload p hmem, hold]
  nodup := h.nodup
  noFault := hfault

/-- Adding an entry for a block that is not designated yet, and freeing the one given up. -/
theorem commit (h : Holds s log) {heap : Heap} {ptr : Nat} {command : List UInt8}
    (hnew : heap.load (some ptr) = some command) (hfresh : ptr ∉ s.dev.buffer.blocks)
    (hload : ∀ b ∈ s.dev.buffer.blocks, heap.load (some b) = s.heap.load (some b))
    (hfault : heap.fault = false) :
    Holds
      { dev :=
          { buffer := (aesdCircularBufferAddEntry s.dev.buffer ⟨some ptr, command.length⟩).2
            partMemPtr := none
            partBufSize := 0 }
        heap :=
          heap.free (aesdCircularBufferAddEntry s.dev.buffer ⟨some ptr, command.length⟩).1 }
      ⟨(log.commands ++ [command]).rtake 10, none⟩ where
  ring := ringInv_addEntry h.ring _
  entries := by
    obtain ⟨out, rest, hs, hst, hrm, hcut⟩ := stored_split h.ring ⟨some ptr, command.length⟩
    have hnd := h.nodup_blocks
    rw [AesdCircularBuffer.blocks, hs, List.filterMap_append, ← hrm] at hnd
    have hcmd :
        (heap.free (aesdCircularBufferAddEntry s.dev.buffer ⟨some ptr, command.length⟩).1).load
          (some ptr) = some command := by
      rw [load_free_of_ne, hnew]
      exact fun hr => hfresh (removed_mem_blocks h.ring hr)
    -- the block given up is not among those that stay
    have hkeep : (rest.map fun e =>
        ((heap.free (aesdCircularBufferAddEntry s.dev.buffer ⟨some ptr, command.length⟩).1).load
          e.buffptr, e.size)) = rest.map fun e => (s.heap.load e.buffptr, e.size) := by
      apply List.map_congr_left
      intro e he
      obtain ⟨b, _, _, hb, _⟩ := h.entry_load (hs ▸ List.mem_append_right _ he)
      have hold : b ∈ s.dev.buffer.blocks :=
        List.mem_filterMap.mpr ⟨e, hs ▸ List.mem_append_right _ he, hb⟩
      rw [hb, load_free_of_ne, hload b hold]
      intro hr
      exact (List.nodup_append.mp hnd).2.2 b (Option.mem_toList.mpr hr) b
        (List.mem_filterMap.mpr ⟨e, he, hb⟩) rfl
    rw [Driver.view, hst, List.map_append, hkeep, h.entries_behind hs, hcut, h.count_eq]
    rw [List.map_cons, List.map_nil, hcmd, List.rtake_concat_succ, List.map_append]
    rfl
  pending := ⟨rfl, rfl⟩
  nodup := by
    obtain ⟨kept, hblocks, hadded⟩ := blocks_addEntry h.ring ⟨some ptr, command.length⟩
    have hnd := h.nodup_blocks
    rw [hblocks] at hnd hfresh
    simp only [Driver.held, Option.toList_none, List.append_nil]
    rw [hadded]
    refine List.nodup_append.mpr ⟨(List.nodup_append.mp hnd).2.1, by simp, ?_⟩
    intro b hb c hc hbc
    have hcp : c = ptr := by simpa using hc
    exact hfresh (List.mem_append_right _ (hcp ▸ hbc ▸ hb))
  noFault := by
    cases hr : (aesdCircularBufferAddEntry s.dev.buffer ⟨some ptr, command.length⟩).1 with
    | none => exact hfault
    | some b =>
        have hmem := removed_mem_blocks h.ring hr
        have hlive : heap.Live b := by
          rw [← load_isSome_iff, hload b hmem, load_isSome_iff]
          exact h.live_of_blocks hmem
        simpa only [fault_free hlive] using hfault

/-- Pointing the partial buffer at a block that is not designated yet. -/
theorem keep (h : Holds s log) {heap : Heap} {ptr : Nat} {command : List UInt8}
    (hnew : heap.load (some ptr) = some command) (hfresh : ptr ∉ s.dev.buffer.blocks)
    (hload : ∀ b ∈ s.dev.buffer.blocks, heap.load (some b) = s.heap.load (some b))
    (hfault : heap.fault = false) (hlen : command.length < 2 ^ 31) :
    Holds
      { dev := { s.dev with partMemPtr := some ptr, partBufSize := command.length }, heap := heap }
      ⟨log.commands, some command⟩ where
  ring := h.ring
  entries := by
    rw [← h.entries]
    apply List.map_congr_left
    intro e he
    obtain ⟨b, _, _, hb, _⟩ := h.entry_load he
    rw [hb, hload b (List.mem_filterMap.mpr ⟨e, he, hb⟩)]
  pending := ⟨hnew, rfl, hlen⟩
  nodup := by
    simp only [Driver.held, Option.toList_some]
    refine List.nodup_append.mpr ⟨h.nodup_blocks, by simp, ?_⟩
    intro b hb c hc hbc
    have hcp : c = ptr := by simpa using hc
    exact hfresh (by rw [← hcp, ← hbc]; exact hb)
  noFault := hfault

end Holds

end AesdChar
