import AesdChar.WriteFailures

/-!
# Sizes and pointers

The representation invariant of the device over runs with failures.  Under it every copy of the
driver stays inside a live block.
-/

namespace AesdChar

open CInt Heap

structure RepInv (s : Driver) : Prop where
  partNull : s.dev.partMemPtr = none → s.dev.partBufSize = 0
  partLive : ∀ b, s.dev.partMemPtr = some b →
    ∃ bs, s.heap.load (some b) = some bs ∧ s.dev.partBufSize = bs.length
  entryLive : ∀ e ∈ s.dev.buffer.stored,
    ∃ bs, s.heap.load e.buffptr = some bs ∧ e.size = bs.length
  nodup : s.held.Nodup

/-- No copy so far has left its block, and no `aesd_read` to come will. -/
structure NoOverrun (s : Driver) : Prop where
  soFar : s.heap.fault = false
  read : ∀ env count fPos r, aesdRead s env count fPos = some r → r.driver.heap.fault = false

theorem Holds.repInv {s : Driver} {log : CommandLog} (h : Holds s log) : RepInv s where
  partNull := by
    intro hn
    rcases h.pending_cases with ⟨_, _, hsize⟩ | ⟨p, _, _, hp, _⟩
    · exact hsize
    · rw [hp] at hn
      exact absurd hn (by simp)
  partLive := by
    intro b hb
    rcases h.pending_cases with ⟨_, hp, _⟩ | ⟨p, old, _, hp, hold, hsize, _⟩
    · rw [hp] at hb
      exact absurd hb (by simp)
    · rw [hp] at hb
      rw [← Option.some.inj hb]
      exact ⟨old, hold, hsize⟩
  entryLive := by
    intro e he
    obtain ⟨b, bs, _, hb, hl, hlen⟩ := h.entry_load he
    exact ⟨bs, by rw [hb, hl], hlen.symm⟩
  nodup := h.nodup

theorem foldVisit_find_some (b : AesdCircularBuffer) (is : List Nat) (pos : Int) {i o : Nat}
    (h : foldVisit (findVisit b) (fun _ => none) is pos = some (some (i, o))) :
    i ∈ is ∧ o < (b.slot i).size := by
  induction is generalizing pos with
  | nil => simp [foldVisit] at h
  | cons j is ih =>
      rw [foldVisit, findVisit] at h
      by_cases hlt : (b.slot j).size > sizeT pos
      · rw [if_pos hlt] at h
        simp only [Option.some.injEq, Prod.mk.injEq] at h
        obtain ⟨rfl, rfl⟩ := h
        exact ⟨List.mem_cons_self, hlt⟩
      · rw [if_neg hlt] at h
        have := ih _ h
        exact ⟨List.mem_cons_of_mem _ this.1, this.2⟩

theorem find_some_stored {b : AesdCircularBuffer} (h : RingInv b) {pos i o : Nat}
    (hf : aesdCircularBufferFindEntryOffsetForFpos b pos = some (some (i, o))) :
    b.slot i ∈ b.stored ∧ o < (b.slot i).size := by
  rw [aesdCircularBufferFindEntryOffsetForFpos, walk_slots h] at hf
  · obtain ⟨hi, ho⟩ := foldVisit_find_some b _ _ hf
    rw [← AesdCircularBuffer.map_slot_slots]
    exact ⟨List.mem_map_of_mem hi, ho⟩
  · rfl

theorem Holds.noOverrun {s : Driver} {log : CommandLog} (h : Holds s log) : NoOverrun s where
  soFar := h.noFault
  read := by
  -- the entry found leads to a live block of its size, and the offset lies inside that size
    intro env count fPos r hr
    unfold aesdRead at hr
    by_cases hi : env.interrupted = true
    · rw [if_pos hi] at hr
      rw [← Option.some.inj hr]
      exact h.noFault
    · rw [if_neg hi] at hr
      cases hf : aesdCircularBufferFindEntryOffsetForFpos s.dev.buffer (sizeT fPos) with
      | none => simp [hf] at hr
      | some found =>
          cases found with
          | none =>
              simp only [hf, Option.some.injEq] at hr
              rw [← hr]
              exact h.noFault
          | some r' =>
              obtain ⟨i, o⟩ := r'
              obtain ⟨hmem, ho⟩ := find_some_stored h.ring hf
              obtain ⟨b, bs, _, hb, hl, hlen⟩ := h.entry_load hmem
              have hn : sizeT ((s.dev.buffer.slot i).size - o : Int) ≤
                  (s.dev.buffer.slot i).size - o := by
                rw [show ((s.dev.buffer.slot i).size - o : Int) =
                  (((s.dev.buffer.slot i).size - o : Nat) : Int) by omega]
                exact sizeT_le _
              have hin : s.heap.InBounds (s.dev.buffer.slot i).buffptr o
                  (sizeT ((s.dev.buffer.slot i).size - o)) :=
                ⟨bs, by rw [hb, hl], by omega⟩
              simp only [hf, hin, decide_true, Bool.not_true, Bool.or_false] at hr
              split at hr <;> (rw [← Option.some.inj hr]; exact h.noFault)

/-- `handle_partial_data`, where the write gets to it, does not return NULL. -/
def WriteCall.KeepsBuffer (s : Driver) (c : WriteCall) : Prop :=
  ¬ c.HasMemory ∨ c.env.interrupted = true ∨ c.Concatenates s

instance (s : Driver) (c : WriteCall) : Decidable (c.KeepsBuffer s) :=
  inferInstanceAs (Decidable (_ ∨ _))

theorem Holds.write_keepsBuffer {s : Driver} {log : CommandLog} (h : Holds s log) {c : WriteCall}
    (hc : c.KeepsBuffer s) : ∃ log', Holds (s.write c) log' := by
  by_cases hm : c.HasMemory
  · by_cases hi : c.env.interrupted = true
    · exact ⟨_, h.write_idle (Or.inr hi)⟩
    · have hcat := (hc.resolve_left (fun hn => hn hm)).resolve_left hi
      exact ⟨_, h.write_accept hm (Bool.eq_false_iff.mpr hi) hcat⟩
  · exact ⟨_, h.write_idle (Or.inl hm)⟩

theorem Holds.not_repInv_write {s : Driver} {log : CommandLog} (h : Holds s log) {c : WriteCall}
    (hc : ¬ c.KeepsBuffer s) : ¬ RepInv (s.write c) := by
  -- the helper's NULL ends up with a size, in the ring or in the device
  rw [WriteCall.KeepsBuffer, not_or, not_or, not_not, Bool.not_eq_true] at hc
  obtain ⟨hm, hi, hcat⟩ := hc
  intro hrep
  by_cases hn : NEWLINE ∈ c.arrived
  · obtain ⟨size, hbuf⟩ := write_complete_refused hm hi hn hcat
    have hmem : (⟨none, size⟩ : AesdBufferEntry) ∈ (s.write c).dev.buffer.stored := by
      rw [hbuf, stored_addEntry h.ring, List.rtake_concat_succ]
      exact List.mem_append_right _ (List.mem_singleton_self _)
    obtain ⟨bs, hl, _⟩ := hrep.entryLive _ hmem
    exact absurd hl (by simp [load])
  · obtain ⟨hnull, hsize⟩ := write_partial_refused hm hi hn hcat
    have hzero := hrep.partNull hnull
    rw [hsize] at hzero
    -- a request for no bytes is never refused
    rw [WriteCall.Concatenates, not_or, hzero] at hcat
    exact hcat.2 rfl

/-- The representation invariant holds, and copies stay in bounds, at every point of a run
exactly when no write of the run gets NULL from `handle_partial_data`. -/
theorem repInv_iff (calls : List WriteCall) :
    (∀ pre, pre <+: calls →
      RepInv (aesdInitModule.writes pre) ∧ NoOverrun (aesdInitModule.writes pre)) ↔
      Runs.Guarded Driver.write (fun s c => c.KeepsBuffer s) aesdInitModule calls := by
  refine Runs.forall_prefix_iff (fun s => ∃ log, Holds s log)
    (fun s => RepInv s ∧ NoOverrun s) ?_ ?_ ?_ ⟨_, Holds.init⟩ (Runs.guarded_true _ _)
  · rintro s ⟨log, h⟩
    exact ⟨h.repInv, h.noOverrun⟩
  · rintro s c ⟨log, h⟩ _ hc
    exact h.write_keepsBuffer hc
  · rintro s c ⟨log, h⟩ _ hc hbad
    exact h.not_repInv_write hc hbad.1

/-- `"a"`, then `"b"` with no memory to concatenate: NULL with a size of 2. -/
theorem null_buffer_with_size : ¬ RepInv (aesdInitModule.writes [.plain [97], .noConcat [98]]) := by
  intro h
  exact absurd (h.partNull (by decide)) (by decide)

end AesdChar
