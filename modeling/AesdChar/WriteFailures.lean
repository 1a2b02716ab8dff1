import AesdChar.WriteHistory
import AesdChar.Lookup

/-!
# Failing writes

A write that runs out of memory at first, or is interrupted, is undone.  A short user copy is
not noticed, and a NULL from `handle_partial_data` is stored as if it were the buffer.
-/

namespace AesdChar

open CInt Heap

/-- Something is refused to the call. -/
def WriteCall.Fails (s : Driver) (c : WriteCall) : Prop :=
  ¬ c.HasMemory ∨ c.ShortCopy ∨ c.env.interrupted = true ∨ ¬ c.Concatenates s

instance (s : Driver) (c : WriteCall) : Decidable (c.Fails s) :=
  inferInstanceAs (Decidable (_ ∨ _))

/-- The call reports no progress, and device, position and stored bytes are as before. -/
structure NoTrace (s : Driver) (c : WriteCall) : Prop where
  ret : (aesdWrite s c.env c.buf c.fPos).ret ≤ 0
  fPos : (aesdWrite s c.env c.buf c.fPos).fPos = c.fPos
  dev : (s.write c).dev = s.dev
  bytes : ∀ b, s.heap.Live b → (s.write c).heap.load (some b) = s.heap.load (some b)

theorem noTrace_of_no_memory {s : Driver} {c : WriteCall} (h : ¬ c.HasMemory) : NoTrace s c := by
  have heq := aesdWrite_of_no_memory s c.env c.buf c.fPos (Bool.eq_false_iff.mpr h)
  exact ⟨by rw [heq]; exact (by decide : -ENOMEM ≤ 0), by rw [heq], by rw [Driver.write, heq],
    fun b _ => by rw [Driver.write, heq]⟩

theorem noTrace_of_interrupted {s : Driver} {c : WriteCall} (hm : c.HasMemory)
    (hi : c.env.interrupted = true) : NoTrace s c := by
  have heq := aesdWrite_eq s c.env c.buf c.fPos hm
  simp only [hi, if_true] at heq
  by_cases hn : NEWLINE ∈ c.env.received c.buf
  · rw [if_pos hn] at heq
    refine ⟨by rw [heq], by rw [heq], by rw [Driver.write, heq], fun b hb => ?_⟩
    rw [Driver.write, heq]
    exact load_free_alloc hb.lt
  · rw [if_neg hn] at heq
    refine ⟨by rw [heq], by rw [heq], by rw [Driver.write, heq]; rfl, fun b hb => ?_⟩
    rw [Driver.write, heq]
    exact load_alloc_of_lt hb.lt

theorem write_partial_refused {s : Driver} {c : WriteCall} (hm : c.HasMemory)
    (hi : c.env.interrupted = false) (hn : NEWLINE ∉ c.arrived) (hcat : ¬ c.Concatenates s) :
    (s.write c).dev.partMemPtr = none ∧
      (s.write c).dev.partBufSize = int32 (s.dev.partBufSize + c.buf.length) := by
  rw [WriteCall.Concatenates, not_or, Bool.not_eq_true] at hcat
  obtain ⟨p, hp⟩ := Option.ne_none_iff_exists'.mp hcat.1
  rw [Driver.write_eq hm]
  simp only [hi, Bool.false_eq_true, if_false, hn, keepPartial, staged_dev]
  simp only [hp, handlePartialData, kmalloc, hcat.2, Bool.false_eq_true, if_false, and_self]

theorem write_complete_refused {s : Driver} {c : WriteCall} (hm : c.HasMemory)
    (hi : c.env.interrupted = false) (hn : NEWLINE ∈ c.arrived) (hcat : ¬ c.Concatenates s) :
    ∃ size, (s.write c).dev.buffer = (aesdCircularBufferAddEntry s.dev.buffer ⟨none, size⟩).2 := by
  rw [WriteCall.Concatenates, not_or, Bool.not_eq_true] at hcat
  obtain ⟨p, hp⟩ := Option.ne_none_iff_exists'.mp hcat.1
  rw [Driver.write_eq hm]
  simp only [hi, Bool.false_eq_true, if_false, if_true, hn, commitWrite, staged_dev]
  simp only [hp, reduceCtorEq, if_false, handlePartialData, kmalloc, hcat.2, Bool.false_eq_true]
  exact ⟨_, rfl⟩

/-- A refused write leaves no trace exactly when it stops at the first `kmalloc` or at the lock,
or when neither the user copy nor the helper was refused anything. -/
theorem noTrace_iff (s : Driver) (c : WriteCall) :
    (c.Fails s → NoTrace s c) ↔
      ¬ c.HasMemory ∨ c.env.interrupted = true ∨ (¬ c.ShortCopy ∧ c.Concatenates s) := by
  constructor
  · intro h
    by_contra hno
    rw [not_or, not_or, not_not, Bool.not_eq_true] at hno
    obtain ⟨hm, hi, hbad⟩ := hno
    have hret := aesdWrite_ret (s := s) hm hi
    by_cases hshort : c.ShortCopy
    · have hle := (h (Or.inr (Or.inl hshort))).ret
      have hpos := hshort.2
      omega
    · have hcat : ¬ c.Concatenates s := fun hc => hbad ⟨hshort, hc⟩
      have htrace := h (Or.inr (Or.inr (Or.inr hcat)))
      have hle := htrace.ret
      -- the count is 0, so the chunk has no '\n' and the pending buffer is lost
      have hnil : c.arrived = [] := by
        apply List.eq_nil_of_length_eq_zero
        rw [length_arrived]
        omega
      have hlost := (write_partial_refused hm hi (by rw [hnil]; simp) hcat).1
      rw [htrace.dev] at hlost
      exact hcat (Or.inl hlost)
  · intro h hf
    by_cases hm : c.HasMemory
    · by_cases hi : c.env.interrupted = true
      · exact noTrace_of_interrupted hm hi
      · obtain ⟨hshort, hcat⟩ := (h.resolve_left (fun hn => hn hm)).resolve_left hi
        rcases hf with hf | hf | hf | hf
        · exact absurd hm hf
        · exact absurd hf hshort
        · exact absurd hf hi
        · exact absurd hcat hf
    · exact noTrace_of_no_memory hm

/-- A kernel with no memory left for a concatenation. -/
def WriteCall.noConcat (buf : List UInt8) : WriteCall :=
  ⟨buf, 0, { WriteEnv.calm with concat := none }⟩

/-- With `"a"` pending, `"b\n"` is reported as written although nothing of it is stored. -/
theorem refused_concat_leaves_trace :
    Reachable (aesdInitModule.writes [.plain [97]]) ∧
      (WriteCall.noConcat [98, 10]).Fails (aesdInitModule.writes [.plain [97]]) ∧
      ¬ NoTrace (aesdInitModule.writes [.plain [97]]) (.noConcat [98, 10]) := by
  refine ⟨⟨_, rfl⟩, by decide, fun h => ?_⟩
  exact absurd h.ret (by decide)

end AesdChar
