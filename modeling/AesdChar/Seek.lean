import AesdChar.Lookup
import AesdChar.WriteHistory

/-!
# Command seek against lookup

`aesd_adjust_file_offset` and `find` undo each other inside the stored commands.  The seek also
answers 0 one byte behind a command's end, and on the empty ring.
-/

namespace AesdChar

open CInt AesdCircularBuffer

/-- The seek goes to the requested byte and `find` gives the request back; a request outside the
stored bytes is refused. -/
def SeekFinds (b : AesdCircularBuffer) (fPos : Int) (writeCmd writeCmdOffset : Nat) : Prop :=
  if writeCmd < b.count ∧ writeCmdOffset < b.sizes.getD writeCmd 0 then
    ∃ pos, aesdAdjustFileOffset b fPos writeCmd writeCmdOffset = some (0, pos) ∧
      aesdCircularBufferFindEntryOffsetForFpos b (sizeT pos) =
        some (some (b.slotOf writeCmd, writeCmdOffset))
  else aesdAdjustFileOffset b fPos writeCmd writeCmdOffset = some (-EINVAL, fPos)

/-- Seeking to what `find` reports for a position sets that position. -/
def FindSeeks (b : AesdCircularBuffer) (fPos : Int) : Prop :=
  ∀ p < b.totalSize, ∃ k o, k < b.count ∧
    aesdCircularBufferFindEntryOffsetForFpos b p = some (some (b.slotOf k, o)) ∧
    aesdAdjustFileOffset b fPos k o = some (0, (p : Int))

section

variable {b : AesdCircularBuffer}

theorem seekFinds_inside (h : RingInv b) (ht : b.totalSize < 2 ^ 31) (fPos : Int)
    {writeCmd writeCmdOffset : Nat} (hoff : writeCmdOffset < 2 ^ 32) (hcmd : writeCmd < b.count)
    (hin : writeCmdOffset < b.sizes.getD writeCmd 0) :
    SeekFinds b fPos writeCmd writeCmdOffset := by
  have hpos := pos_lt_totalSize hin
  have hcount : b.count ≠ 0 := by omega
  have hle : writeCmdOffset ≤ b.sizes.getD writeCmd 0 := by omega
  unfold SeekFinds
  rw [if_pos ⟨hcmd, hin⟩, adjust_eq h ht fPos hoff, if_neg hcount, if_pos ⟨hcmd, hle⟩]
  refine ⟨_, rfl, ?_⟩
  rw [sizeT_natCast _ (by omega), find_some_iff h (by omega) hcmd]
  exact ⟨hin, rfl⟩

theorem seekFinds_outside (h : RingInv b) (ht : b.totalSize < 2 ^ 31) (fPos : Int)
    {writeCmd writeCmdOffset : Nat} (hoff : writeCmdOffset < 2 ^ 32)
    (hout : ¬ (writeCmd < b.count ∧ writeCmdOffset < b.sizes.getD writeCmd 0)) :
    SeekFinds b fPos writeCmd writeCmdOffset ↔
      b.count ≠ 0 ∧ ¬ (writeCmd < b.count ∧ writeCmdOffset = b.sizes.getD writeCmd 0) := by
  -- only an offset equal to the size gets past the code's test, and only with no command is there
  -- no test
  have herr : (0 : Int) ≠ -EINVAL := by decide
  unfold SeekFinds
  rw [if_neg hout, adjust_eq h ht fPos hoff, Option.some.injEq]
  by_cases hc : b.count = 0
  · rw [if_pos hc]
    apply iff_of_false
    · exact fun he => herr (congrArg Prod.fst he)
    · exact fun he => he.1 hc
  · rw [if_neg hc]
    by_cases hend : writeCmd < b.count ∧ writeCmdOffset = b.sizes.getD writeCmd 0
    · rw [if_pos ⟨hend.1, hend.2.le⟩]
      apply iff_of_false
      · exact fun he => herr (congrArg Prod.fst he)
      · exact fun he => he.2 hend
    · have hrefused : ¬ (writeCmd < b.count ∧ writeCmdOffset ≤ b.sizes.getD writeCmd 0) := by
        intro hle
        rcases Nat.lt_or_eq_of_le hle.2 with hlt | heq
        · exact hout ⟨hle.1, hlt⟩
        · exact hend ⟨hle.1, heq⟩
      rw [if_neg hrefused]
      exact iff_of_true rfl ⟨hc, hend⟩

theorem findSeeks (h : RingInv b) (ht : b.totalSize < 2 ^ 31) (fPos : Int) : FindSeeks b fPos := by
  intro p hp
  obtain ⟨k, o, hk, ho, hsum⟩ := exists_entry_at hp
  refine ⟨k, o, hk, ?_, ?_⟩
  · rw [find_some_iff h (by omega) hk]
    exact ⟨ho, hsum⟩
  · have hcount : b.count ≠ 0 := by omega
    rw [adjust_eq h ht fPos (by omega), if_neg hcount, if_pos ⟨hk, ho.le⟩, ← hsum]

end

/-- The lookup is always undone by the seek; the seek is right exactly when the ring is not empty
and the offset is not the command's size. -/
theorem seekFinds_iff {s : Driver} (h : Reachable s) (ht : s.dev.buffer.totalSize < 2 ^ 31)
    (fPos : Int) (writeCmd : Nat) {writeCmdOffset : Nat} (hoff : writeCmdOffset < 2 ^ 32) :
    FindSeeks s.dev.buffer fPos ∧
    (SeekFinds s.dev.buffer fPos writeCmd writeCmdOffset ↔
      s.dev.buffer.count ≠ 0 ∧
        ¬ (writeCmd < s.dev.buffer.count ∧
          writeCmdOffset = s.dev.buffer.sizes.getD writeCmd 0)) := by
  have hring := h.ring.inv
  refine ⟨findSeeks hring ht fPos, ?_⟩
  by_cases hin : writeCmd < s.dev.buffer.count ∧
      writeCmdOffset < s.dev.buffer.sizes.getD writeCmd 0
  · apply iff_of_true
    · exact seekFinds_inside hring ht fPos hoff hin.1 hin.2
    · exact ⟨by omega, fun hend => absurd hin.2 hend.2.not_lt⟩
  · exact seekFinds_outside hring ht fPos hoff hin

/-- The second of `"a\n"`, `"bc\n"`, at its last byte. -/
theorem seekFinds_second_command :
    SeekFinds (aesdInitModule.writes [.plain [97, 10], .plain [98, 99, 10]]).dev.buffer 7 1 2 :=
  (seekFinds_iff ⟨_, rfl⟩ (by decide) 7 1 (by decide)).2.mpr (by decide)

/-- One byte behind `"a\n"` the seek answers 0, and `find` has nothing there. -/
theorem seek_behind_last_byte :
    aesdAdjustFileOffset (aesdInitModule.writes [.plain [97, 10]]).dev.buffer 7 0 2 =
        some (0, 2) ∧
      ¬ SeekFinds (aesdInitModule.writes [.plain [97, 10]]).dev.buffer 7 0 2 := by
  refine ⟨by decide, ?_⟩
  unfold SeekFinds
  rw [if_neg (by decide)]
  decide

end AesdChar
