import AesdChar.Refinement

/-!
# Writes refine the command log

The chunk of a write that fails early is dropped and the log stands; otherwise the log accepts
it, as long as `kmalloc` in `handle_partial_data` has memory to give.
-/

namespace AesdChar

open CInt Heap

/-- `kmalloc (count, ..)` succeeds. -/
def WriteCall.HasMemory (c : WriteCall) : Prop :=
  kmallocSucceeds c.buf.length c.env.kmalloc = true

instance (c : WriteCall) : Decidable c.HasMemory := inferInstanceAs (Decidable (_ = _))

/-- The user copy falls short. -/
def WriteCall.ShortCopy (c : WriteCall) : Prop := 0 < c.env.notCopied ∧ 0 < c.buf.length

instance (c : WriteCall) : Decidable c.ShortCopy := inferInstanceAs (Decidable (_ ∧ _))

/-- `handle_partial_data` does not return NULL: nothing is pending, or its `kmalloc` succeeds. -/
def WriteCall.Concatenates (s : Driver) (c : WriteCall) : Prop :=
  s.dev.partMemPtr = none ∨
    kmallocSucceeds (sizeT (int32 (s.dev.partBufSize + c.buf.length))) c.env.concat = true

instance (s : Driver) (c : WriteCall) : Decidable (c.Concatenates s) :=
  inferInstanceAs (Decidable (_ ∨ _))

/-- Nothing fails during the call. -/
def WriteCall.Succeeds (s : Driver) (c : WriteCall) : Prop :=
  c.HasMemory ∧ ¬ c.ShortCopy ∧ c.env.interrupted = false ∧ c.Concatenates s

instance (s : Driver) (c : WriteCall) : Decidable (c.Succeeds s) :=
  inferInstanceAs (Decidable (_ ∧ _))

/-- The chunk as it arrived in the kernel. -/
def WriteCall.arrived (c : WriteCall) : List UInt8 := c.env.received c.buf

@[simp] theorem length_arrived (c : WriteCall) : c.arrived.length = c.buf.length :=
  length_received _ _

theorem arrived_of_copied {c : WriteCall} (h : ¬ c.ShortCopy) : c.arrived = c.buf := by
  by_cases hn : c.env.notCopied = 0
  · exact received_of_copied _ _ hn
  · have hnil : c.buf = [] := by
      by_contra hne
      exact h ⟨Nat.pos_of_ne_zero hn, List.length_pos_of_ne_nil hne⟩
    apply List.eq_nil_of_length_eq_zero _ |>.trans hnil.symm
    rw [length_arrived, hnil, List.length_nil]

/-! ## The ends of a call -/

section

variable {s : Driver} {c : WriteCall}

theorem Driver.write_of_no_memory (h : ¬ c.HasMemory) : s.write c = s := by
  rw [Driver.write, aesdWrite_of_no_memory _ _ _ _ (Bool.eq_false_iff.mpr h)]

theorem Driver.write_eq (h : c.HasMemory) :
    s.write c =
      if NEWLINE ∈ c.arrived then
        if c.env.interrupted then
          { s with heap := (s.heap.alloc c.arrived).free (some s.heap.issued) }
        else (commitWrite (staged s c.env c.buf) c.env s.heap.issued c.buf.length).2
      else
        if c.env.interrupted then staged s c.env c.buf
        else keepPartial (staged s c.env c.buf) c.env s.heap.issued c.buf.length := by
  rw [Driver.write, aesdWrite_eq _ _ _ _ h, apply_ite WriteResult.driver,
    apply_ite WriteResult.driver, apply_ite WriteResult.driver]
  rfl

/-- A call that gets to the device returns its count, whatever happens there. -/
theorem aesdWrite_ret (hm : c.HasMemory) (hi : c.env.interrupted = false) :
    (aesdWrite s c.env c.buf c.fPos).ret = c.buf.length := by
  rw [aesdWrite_eq _ _ _ _ hm]
  simp only [hi, Bool.false_eq_true, if_false]
  split <;> rfl

end

theorem concat_small {part count : Nat} {fresh : Option (Nat → UInt8)} (hp : part < 2 ^ 31)
    (hc : count < 2 ^ 31)
    (h : kmallocSucceeds (sizeT (int32 ((part : Int) + count))) fresh = true) :
    part + count < 2 ^ 31 := by
  -- past 2^31 the `int` sum is negative, and as a `size_t` larger than any block
  by_contra hge
  have hsum : ((part : Int) + count) = ((part + count : Nat) : Int) := by omega
  have hneg : int32 ((part : Int) + count) < 0 := by
    rw [hsum]
    exact int32_of_overflow _ (by omega) (by omega)
  have hbig := sizeT_of_neg _ (int32_bounds _).1 hneg
  have hsmall := kmalloc_small h
  omega

/-! ## The helper -/

theorem handlePartialData_eq {heap : Heap} {p : Nat} {new : Option Nat} {old chunk : List UInt8}
    {env : WriteEnv} (hold : heap.load (some p) = some old) (hnew : heap.load new = some chunk)
    (hlen : old.length + chunk.length < 2 ^ 31)
    (hmem : kmallocSucceeds (old.length + chunk.length) env.concat = true) :
    handlePartialData heap (some p) old.length new (int32 (old.length + chunk.length : Int)) env =
      (some heap.issued, (heap.alloc (old ++ chunk)).free (some p)) := by
  have hsum : int32 (old.length + chunk.length : Int) =
      ((old.length + chunk.length : Nat) : Int) := by
    rw [← Int.natCast_add]
    exact int32_natCast _ hlen
  have hn : sizeT ((old.length + chunk.length : Nat) : Int) = old.length + chunk.length :=
    sizeT_natCast _ (by omega)
  have ho : sizeT (old.length : Int) = old.length := sizeT_natCast _ (by omega)
  have hd : sizeT (((old.length + chunk.length : Nat) : Int) - old.length) = chunk.length := by
    rw [show ((old.length + chunk.length : Nat) : Int) - old.length = (chunk.length : Int) by omega]
    exact sizeT_natCast _ (by omega)
  have hfresh : (freshBytes (old.length + chunk.length) env.concat).length =
      old.length + chunk.length := length_freshBytes _ _
  rw [handlePartialData, hsum]
  simp only [hn, ho, hd, kmalloc, hmem, if_true]
  rw [memcpy_alloc hold _ _ _ _ (by rw [hfresh]; omega) (by omega), List.drop_zero,
    List.take_length, overwrite_prefix _ _ (by rw [hfresh]; omega),
    memcpy_alloc hnew _ _ _ _ (by simp) (by omega), List.drop_zero, List.take_length,
    overwrite_suffix _ _ _ (by simp)]

/-! ## One write -/

namespace Holds

variable {s : Driver} {log : CommandLog}

theorem load_alloc (h : Holds s log) (chunk : List UInt8) {b : Nat} (hb : b ∈ s.held) :
    (s.heap.alloc chunk).load (some b) = s.heap.load (some b) :=
  load_alloc_of_lt (h.live_of_held hb).lt

theorem staged (h : Holds s log) (env : WriteEnv) (buf : List UInt8) :
    Holds (staged s env buf) log :=
  h.frame (fun _ hb => h.load_alloc _ hb) h.noFault

/-- A write that has no memory or is interrupted keeps the log. -/
theorem write_idle (h : Holds s log) {c : WriteCall}
    (hc : ¬ c.HasMemory ∨ c.env.interrupted = true) : Holds (s.write c) log := by
  by_cases hm : c.HasMemory
  · have hi : c.env.interrupted = true := hc.resolve_left (fun hn => hn hm)
    rw [Driver.write_eq hm, if_pos hi, if_pos hi]
    split
    · -- the chunk's block comes and goes
      apply h.frame
      · intro b hb
        exact load_free_alloc (h.live_of_held hb).lt
      · have hlive : (s.heap.alloc c.arrived).Live s.heap.issued := live_alloc.mpr (Or.inr rfl)
        rw [fault_free hlive, fault_alloc]
        exact h.noFault
    · exact h.staged c.env c.buf
  · rw [Driver.write_of_no_memory hm]
    exact h

/-- The block of the chunk is the next one, so the ring's blocks are as before. -/
theorem load_alloc_blocks (h : Holds s log) (chunk : List UInt8) :
    ∀ b ∈ s.dev.buffer.blocks, (s.heap.alloc chunk).load (some b) = s.heap.load (some b) :=
  fun _ hb => h.load_alloc chunk (List.mem_append_left _ hb)

/-- Swapping the pending block for one with the concatenation leaves the ring's blocks alone. -/
theorem swapped (h : Holds s log) {p : Nat} (hp : s.dev.partMemPtr = some p)
    (chunk command : List UInt8) :
    (((s.heap.alloc chunk).alloc command).free (some p)).load
        (some (s.heap.alloc chunk).issued) = some command ∧
      (s.heap.alloc chunk).issued ∉ s.dev.buffer.blocks ∧
      (∀ b ∈ s.dev.buffer.blocks,
        (((s.heap.alloc chunk).alloc command).free (some p)).load (some b) =
          s.heap.load (some b)) ∧
      (((s.heap.alloc chunk).alloc command).free (some p)).fault = false := by
  have hlive := h.live_of_pending hp
  have hlt := hlive.lt
  have hne : p ≠ s.heap.issued + 1 := by omega
  -- the pending block is none of the ring's
  have hpb : ∀ b ∈ s.dev.buffer.blocks, p ≠ b := fun b hb hpb =>
    (List.nodup_append.mp h.nodup).2.2 b hb p (by simp [hp]) hpb.symm
  refine ⟨?_, ?_, ?_, ?_⟩
  · rw [load_free_of_ne (by simpa using hne)]
    exact load_alloc_self _ _
  · intro hb
    have := (h.live_of_blocks hb).lt
    simp only [issued_alloc] at this
    omega
  · intro b hb
    have hlt := (h.live_of_blocks hb).lt
    rw [load_free_of_ne (by simpa using hpb b hb), load_alloc_of_lt (by
      rw [issued_alloc]
      omega), h.load_alloc_blocks chunk b hb]
  · rw [fault_free (live_alloc.mpr (Or.inl (live_alloc.mpr (Or.inl hlive))))]
    exact h.noFault

theorem count_extended (h : Holds s log) (c : WriteCall) :
    s.dev.partBufSize + c.buf.length = (log.extended c.arrived).length := by
  have hsum := h.extended_length c.arrived
  rwa [length_arrived] at hsum

/-- Where there is memory for the concatenation, its size is an `int`. -/
theorem extended_small (h : Holds s log) {c : WriteCall} (hm : c.HasMemory)
    (hcat : c.Concatenates s) : (log.extended c.arrived).length < 2 ^ 31 := by
  have hcount := kmalloc_small hm
  rcases h.pending_cases with ⟨hlog, _, _⟩ | ⟨p, old, hlog, hp, _, hsize, hold⟩
  · rw [CommandLog.extended, hlog, Option.getD_none, List.nil_append, length_arrived]
    exact hcount
  · have hmem := hcat.resolve_left (by simp [hp])
    rw [hsize] at hmem
    rw [CommandLog.extended, hlog, Option.getD_some, List.length_append, length_arrived]
    exact concat_small hold hcount hmem

/-- The blocks that a locked section puts together, whichever of the two it is. -/
theorem handled (h : Holds s log) {c : WriteCall} (hm : c.HasMemory) (hcat : c.Concatenates s) :
    ∃ ptr heap,
      handlePartialData (AesdChar.staged s c.env c.buf).heap s.dev.partMemPtr s.dev.partBufSize
          (some s.heap.issued) (int32 (s.dev.partBufSize + c.buf.length)) c.env =
        (some ptr, heap) ∧
      heap.load (some ptr) = some (log.extended c.arrived) ∧
      ptr ∉ s.dev.buffer.blocks ∧
      (∀ b ∈ s.dev.buffer.blocks, heap.load (some b) = s.heap.load (some b)) ∧
      heap.fault = false := by
  have hlen := h.extended_small hm hcat
  rcases h.pending_cases with ⟨hlog, hp, _⟩ | ⟨p, old, hlog, hp, hload, hsize, _⟩
  · -- nothing pending: the chunk's block is handed through
    have hext : log.extended c.arrived = c.arrived := by simp [CommandLog.extended, hlog]
    rw [hext, hp]
    exact ⟨s.heap.issued, s.heap.alloc c.arrived, rfl, load_alloc_self _ _,
      fun hb => h.fresh (List.mem_append_left _ hb), h.load_alloc_blocks _, h.noFault⟩
  · have hext : log.extended c.arrived = old ++ c.arrived := by
      simp [CommandLog.extended, hlog]
    rw [hext, List.length_append] at hlen
    have hmem : kmallocSucceeds (old.length + c.arrived.length) c.env.concat = true := by
      have hmem := hcat.resolve_left (by simp [hp])
      rw [length_arrived] at hlen ⊢
      rwa [hsize, ← Int.natCast_add, int32_natCast _ hlen, sizeT_natCast _ (by omega)] at hmem
    have hload' : (s.heap.alloc c.arrived).load (some p) = some old := by
      rw [h.load_alloc _ (List.mem_append_right _ (by simp [hp])), hload]
    have hheap := handlePartialData_eq hload' (load_alloc_self s.heap c.arrived) hlen hmem
    rw [length_arrived] at hheap
    obtain ⟨hnew, hfresh, hframe, hfault⟩ := h.swapped hp c.arrived (old ++ c.arrived)
    rw [hext, hp, hsize]
    exact ⟨_, _, hheap, hnew, hfresh, hframe, hfault⟩

/-- A write that reaches the device, with memory for the concatenation, is accepted. -/
theorem write_accept (h : Holds s log) {c : WriteCall} (hm : c.HasMemory)
    (hi : c.env.interrupted = false) (hcat : c.Concatenates s) :
    Holds (s.write c) (log.accept c.arrived) := by
  have hlen := h.extended_small hm hcat
  have hsum := h.count_extended c
  obtain ⟨ptr, heap, hheap, hnew, hfresh, hframe, hfault⟩ := h.handled hm hcat
  have htotal : int32 (s.dev.partBufSize + c.buf.length) =
      (log.extended c.arrived).length := by
    rw [hsum]
    exact int32_natCast _ hlen
  rw [Driver.write_eq hm]
  simp only [hi, Bool.false_eq_true, if_false]
  by_cases hn : NEWLINE ∈ c.arrived
  · have hpos : 0 < c.buf.length := by
      rw [← length_arrived]
      exact List.length_pos_of_mem hn
    rw [if_pos hn, CommandLog.accept_of_mem hn]
    have hcommit := h.commit hnew hfresh hframe hfault
    suffices hs : (commitWrite (AesdChar.staged s c.env c.buf) c.env s.heap.issued
        c.buf.length).2 = _ from hs ▸ hcommit
    by_cases hp : s.dev.partMemPtr = none
    · have hsize : s.dev.partBufSize = 0 := by
        rcases h.pending_cases with ⟨_, _, hsize⟩ | ⟨p, _, _, hp', _⟩
        · exact hsize
        · rw [hp'] at hp
          exact absurd hp (by simp)
      have hcount : (log.extended c.arrived).length = c.buf.length := by
        rw [hsize, zero_add] at hsum
        exact (Int.ofNat.inj hsum).symm
      simp only [hp, handlePartialData, Prod.mk.injEq] at hheap
      obtain ⟨hptr, hheap⟩ := hheap
      simp only [commitWrite, staged_dev, hp, if_true, hsize, hcount, ← hptr, ← hheap, ne_eq,
        not_true_eq_false, if_false]
    · have hne : int32 (s.dev.partBufSize + c.buf.length) ≠ 0 := by
        rw [htotal]
        have : c.buf.length ≤ (log.extended c.arrived).length := by
          rw [CommandLog.extended, List.length_append, length_arrived]
          omega
        omega
      have hsize : sizeT (int32 (s.dev.partBufSize + c.buf.length)) =
          (log.extended c.arrived).length := by
        rw [htotal]
        exact sizeT_natCast _ (by omega)
      simp only [commitWrite, staged_dev, hp, if_false, hheap, ne_eq, hne, not_false_eq_true,
        if_true, hsize]
  · rw [if_neg hn, CommandLog.accept_of_not_mem hn]
    have hkeep := h.keep hnew hfresh hframe hfault hlen
    suffices hs : keepPartial (AesdChar.staged s c.env c.buf) c.env s.heap.issued
        c.buf.length = _ from hs ▸ hkeep
    simp only [keepPartial, staged_dev]
    rw [hheap, htotal]

end Holds

end AesdChar
