import AesdChar.Lookup
import AesdChar.WriteHistory

/-!
# The size of the device

`cb_size` is kept by one addition per command, in four integer types.  It is the sum of the
stored sizes, which is also where `find` stops, so seeking from the end lands on stored bytes.
-/

namespace AesdChar

open CInt AesdCircularBuffer

section

variable {b : AesdCircularBuffer}

theorem cbSize_addEntry (b : AesdCircularBuffer) (e : AesdBufferEntry) :
    (aesdCircularBufferAddEntry b e).2.cbSize =
      uint32 (b.cbSize +
        sizeT (e.size - if b.full then int32 (b.slot b.outOffs).size else 0)) := rfl

theorem totalSize_addEntry (h : RingInv b) (e : AesdBufferEntry) :
    (aesdCircularBufferAddEntry b e).2.totalSize +
        (if b.full then (b.slot b.outOffs).size else 0) = b.totalSize + e.size := by
  simp only [totalSize, sizes, stored_addEntry h]
  by_cases hf : b.full = true
  · have hold : b.stored =
        b.slot b.outOffs :: Circular.window b.slot (b.outOffs + 1) 10 9 := by
      rw [stored, count_of_full hf]
      change Circular.window b.slot b.outOffs 10 (9 + 1) = _
      rw [Circular.window_cons, Nat.mod_eq_of_lt h.outLt]
    have hlen : (Circular.window b.slot (b.outOffs + 1) 10 9).length = 9 :=
      Circular.length_window _ _ _ _
    rw [if_pos hf, hold, List.rtake_concat_succ, List.rtake, List.length_cons, hlen,
      List.drop_succ_cons, List.drop_zero, List.map_append, List.sum_append]
    simp only [List.map_cons, List.sum_cons, List.map_nil, List.sum_nil]
    omega
  · have hlt := count_lt_of_not_full (Bool.eq_false_iff.mpr hf)
    have hle : (b.stored ++ [e]).length ≤ 10 := by
      rw [List.length_append, length_stored, List.length_singleton]
      omega
    rw [if_neg hf, Circular.rtake_of_length_le hle, List.map_append, List.sum_append,
      List.map_singleton, List.sum_singleton, Nat.add_zero]

theorem cbSize_addEntry_eq (h : RingInv b) (hsize : b.cbSize = b.totalSize % 2 ^ 32)
    (e : AesdBufferEntry) :
    (aesdCircularBufferAddEntry b e).2.cbSize =
      (aesdCircularBufferAddEntry b e).2.totalSize % 2 ^ 32 := by
  have htotal := totalSize_addEntry h e
  rw [cbSize_addEntry]
  by_cases hf : b.full = true
  · rw [if_pos hf] at htotal ⊢
    exact uint32_accumulate hsize htotal
  · rw [if_neg hf] at htotal ⊢
    -- nothing leaves: an old size of 0
    exact @uint32_accumulate _ _ _ _ 0 hsize htotal

end

theorem Reachable.cbSize {s : Driver} (h : Reachable s) :
    s.dev.buffer.cbSize = s.dev.buffer.totalSize % 2 ^ 32 := by
  obtain ⟨calls, rfl⟩ := h
  have hstep : ∀ (s : Driver) (c : WriteCall),
      RingInv s.dev.buffer ∧ s.dev.buffer.cbSize = s.dev.buffer.totalSize % 2 ^ 32 →
      RingInv (s.write c).dev.buffer ∧
        (s.write c).dev.buffer.cbSize = (s.write c).dev.buffer.totalSize % 2 ^ 32 := by
    intro s c hs
    rcases buffer_write s c with hb | ⟨e, _, _, hb⟩
    · rw [hb]
      exact hs
    · rw [hb]
      exact ⟨ringInv_addEntry hs.1 e, cbSize_addEntry_eq hs.1 hs.2 e⟩
  exact (Runs.invariant _ hstep (s := aesdInitModule) ⟨RingInv.init, by decide⟩ calls).2

/-! ## Seeking from the end -/

/-- `fixed_size_llseek` as documented: the resulting position must lie in `[0, size]`, and
`SEEK_END` counts from `size`. -/
structure FixedSizeLlseek (llseek : LlseekFn) : Prop where
  set : ∀ fPos offset size, 0 ≤ offset → offset ≤ size →
    llseek fPos offset SEEK_SET size = (offset, offset)
  fromEnd : ∀ fPos offset size, 0 ≤ size + offset → size + offset ≤ size →
    llseek fPos offset SEEK_END size = (size + offset, size + offset)
  refused : ∀ fPos offset size, ¬ (0 ≤ size + offset ∧ size + offset ≤ size) →
    (llseek fPos offset SEEK_END size).1 < 0 ∧ (llseek fPos offset SEEK_END size).2 = fPos

/-- The last `n` stored bytes begin at offset `o` of the `j`-th command. -/
def LastBytesAt (b : AesdCircularBuffer) (n j o : Nat) : Prop :=
  j < b.count ∧ o < b.sizes.getD j 0 ∧ (b.sizes.drop j).sum = n + o

theorem Reachable.cbSize_eq {s : Driver} (h : Reachable s)
    (ht : s.dev.buffer.totalSize < 2 ^ 32) : s.dev.buffer.cbSize = s.dev.buffer.totalSize := by
  rw [h.cbSize]
  exact Nat.mod_eq_of_lt ht

/-- `n` bytes before the end `find` meets the last `n` bytes. -/
theorem find_lastBytes {b : AesdCircularBuffer} (h : RingInv b) (ht : b.totalSize < 2 ^ 31)
    {n : Nat} (hpos : 0 < n) (hn : n ≤ b.totalSize) :
    ∃ j o, LastBytesAt b n j o ∧
      aesdCircularBufferFindEntryOffsetForFpos b (b.totalSize - n) =
        some (some (b.slotOf j, o)) := by
  obtain ⟨j, o, hj, ho, hsum⟩ := exists_entry_at (show b.totalSize - n < b.totalSize by omega)
  refine ⟨j, o, ⟨hj, ho, ?_⟩, ?_⟩
  · have hsplit := List.sum_take_add_sum_drop b.sizes j
    have htot : b.sizes.sum = b.totalSize := rfl
    omega
  · rw [find_some_iff h (by omega) hj]
    exact ⟨ho, hsum⟩

/-- `cb_size` is the sum of the stored sizes, and `SEEK_END` with `-k` goes exactly to the
positions of `find`: to none for `k = 0`, to the last `k` bytes otherwise. -/
theorem cbSize_readable {s : Driver} (h : Reachable s) :
    s.dev.buffer.cbSize = s.dev.buffer.totalSize % 2 ^ 32 ∧
    (s.dev.buffer.totalSize < 2 ^ 32 → s.dev.buffer.cbSize = s.dev.buffer.totalSize) ∧
    ∀ llseek, FixedSizeLlseek llseek → s.dev.buffer.totalSize < 2 ^ 31 → ∀ fPos k : Int,
      (0 ≤ (aesdLlseek llseek s false fPos (-k) SEEK_END).1 ↔
        0 ≤ k ∧ k ≤ s.dev.buffer.totalSize) ∧
      (0 ≤ k → k ≤ s.dev.buffer.totalSize →
        (aesdLlseek llseek s false fPos (-k) SEEK_END).2 = s.dev.buffer.totalSize - k ∧
        (k = 0 → aesdCircularBufferFindEntryOffsetForFpos s.dev.buffer
          (sizeT (s.dev.buffer.totalSize - k)) = some none) ∧
        (k ≠ 0 → ∃ j o, LastBytesAt s.dev.buffer k.toNat j o ∧
          aesdCircularBufferFindEntryOffsetForFpos s.dev.buffer
            (sizeT (s.dev.buffer.totalSize - k)) = some (some (s.dev.buffer.slotOf j, o)))) := by
  have hring := h.ring.inv
  refine ⟨h.cbSize, h.cbSize_eq, ?_⟩
  intro llseek hf ht fPos k
  have hexact : (s.dev.buffer.cbSize : Int) = s.dev.buffer.totalSize := by
    rw [h.cbSize_eq (by omega)]
  have hseek : aesdLlseek llseek s false fPos (-k) SEEK_END =
      llseek fPos (-k) SEEK_END s.dev.buffer.totalSize := by
    rw [← hexact]
    rfl
  rw [hseek]
  by_cases hk : 0 ≤ k ∧ k ≤ s.dev.buffer.totalSize
  · obtain ⟨n, rfl⟩ := Int.eq_ofNat_of_zero_le hk.1
    have hn : n ≤ s.dev.buffer.totalSize := by omega
    have hpos : sizeT (s.dev.buffer.totalSize - (n : Int)) = s.dev.buffer.totalSize - n := by
      rw [← Int.ofNat_sub hn]
      exact sizeT_natCast _ (by omega)
    rw [hf.fromEnd _ _ _ (by omega) (by omega), hpos]
    have hin : (0 : Int) ≤ s.dev.buffer.totalSize + -(n : Int) := by omega
    refine ⟨iff_of_true hin hk, fun _ _ => ⟨Int.sub_eq_add_neg.symm, ?_, ?_⟩⟩
    · intro h0
      rw [find_none_iff hring (by omega)]
      omega
    · intro hne
      exact find_lastBytes hring ht (by omega) hn
  · have hrefused := hf.refused fPos (-k) s.dev.buffer.totalSize (by omega)
    refine ⟨iff_of_false (by omega) hk, fun h0 hle => absurd ⟨h0, hle⟩ hk⟩

/-- `fixed_size_llseek` without the cases that `size` has no part in. -/
def boundedLlseek : LlseekFn := fun fPos offset whence size =>
  let target := if whence = SEEK_END then size + offset
    else if whence = SEEK_CUR then fPos + offset else offset
  if 0 ≤ target ∧ target ≤ size then (target, target) else (-EINVAL, fPos)

theorem boundedLlseek_documented : FixedSizeLlseek boundedLlseek where
  set := fun _ _ _ h0 hle => if_pos ⟨h0, hle⟩
  fromEnd := fun _ _ _ h0 hle => if_pos ⟨h0, hle⟩
  refused := by
    intro fPos offset size h
    have href : boundedLlseek fPos offset SEEK_END size = (-EINVAL, fPos) := if_neg h
    rw [href]
    exact ⟨by simp [EINVAL], rfl⟩

/-- The position a seek asks for. -/
def seekTarget (fPos offset whence size : Int) : Int :=
  if whence = SEEK_END then size + offset else if whence = SEEK_CUR then fPos + offset else offset

/-- `fixed_size_llseek` as documented, for every origin: it moves the position only into `[0, size]`
and refuses a target outside.  Asking where the position is gets an answer wherever it is. -/
structure LlseekInside (llseek : LlseekFn) : Prop where
  keeps : ∀ fPos offset whence size, (llseek fPos offset whence size).2 = fPos ∨
    (0 ≤ (llseek fPos offset whence size).2 ∧ (llseek fPos offset whence size).2 ≤ size)
  refused : ∀ fPos offset whence size,
    ¬ (0 ≤ seekTarget fPos offset whence size ∧ seekTarget fPos offset whence size ≤ size) →
    ¬ (whence = SEEK_CUR ∧ offset = 0) →
    (llseek fPos offset whence size).1 < 0 ∧ (llseek fPos offset whence size).2 = fPos

theorem boundedLlseek_eq (fPos offset whence size : Int) :
    boundedLlseek fPos offset whence size =
      if 0 ≤ seekTarget fPos offset whence size ∧ seekTarget fPos offset whence size ≤ size then
        (seekTarget fPos offset whence size, seekTarget fPos offset whence size)
      else (-EINVAL, fPos) := rfl

theorem boundedLlseek_inside : LlseekInside boundedLlseek where
  keeps := by
    intro fPos offset whence size
    rw [boundedLlseek_eq]
    split
    · rename_i hin
      exact Or.inr hin
    · exact Or.inl rfl
  refused := by
    intro fPos offset whence size hout _
    rw [boundedLlseek_eq, if_neg hout]
    exact ⟨by simp [EINVAL], rfl⟩

/-- The last two bytes of `"a\n"`, `"bc\n"`. -/
theorem cbSize_readable_two_commands :
    (aesdInitModule.writes [.plain [97, 10], .plain [98, 99, 10]]).dev.buffer.cbSize = 5 ∧
    (aesdLlseek boundedLlseek (aesdInitModule.writes [.plain [97, 10], .plain [98, 99, 10]]) false
      9 (-2) SEEK_END).2 = 3 :=
  have h := cbSize_readable (s := aesdInitModule.writes [.plain [97, 10], .plain [98, 99, 10]])
    ⟨_, rfl⟩
  ⟨h.2.1 (by decide),
    ((h.2.2 boundedLlseek boundedLlseek_documented (by decide) 9 2).2 (by decide) (by decide)).1⟩

end AesdChar
