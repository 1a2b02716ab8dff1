import AesdChar.RingFifo

/-!
# Position lookup and command seek

The two walks that turn a position into an entry and a command into a position, as functions of
the stored sizes.
-/

namespace AesdChar

open CInt AesdCircularBuffer

/-- The slot of the `k`-th oldest entry. -/
def AesdCircularBuffer.slotOf (b : AesdCircularBuffer) (k : Nat) : Nat := (b.outOffs + k) % 10

theorem slotOf_inj {b : AesdCircularBuffer} {j k : Nat} (hj : j < b.count) (hk : k < b.count)
    (h : b.slotOf j = b.slotOf k) : j = k := by
  have hle := b.count_le
  exact Circular.offset_inj (show j < 10 by omega) (by omega) h

theorem pos_lt_totalSize {b : AesdCircularBuffer} {k o : Nat} (ho : o < b.sizes.getD k 0) :
    (b.sizes.take k).sum + o < b.totalSize := by
  have hnext := Segments.sum_take_succ_getD b.sizes k
  have hle := Segments.sum_take_le b.sizes (k + 1)
  rw [totalSize]
  omega

theorem exists_entry_at {b : AesdCircularBuffer} {p : Nat} (hp : p < b.totalSize) :
    ∃ k o, k < b.count ∧ o < b.sizes.getD k 0 ∧ p = (b.sizes.take k).sum + o := by
  obtain ⟨k, o, hloc⟩ := Segments.exists_locate hp
  obtain ⟨hk, ho, hsum⟩ := (Segments.locate_some_iff _ _ _ _).mp hloc
  exact ⟨k, o, by rwa [length_sizes] at hk, ho, hsum⟩

theorem entry_at_unique {b : AesdCircularBuffer} {k o k' o' : Nat} (hk : k < b.count)
    (ho : o < b.sizes.getD k 0) (hk' : k' < b.count) (ho' : o' < b.sizes.getD k' 0)
    (h : (b.sizes.take k).sum + o = (b.sizes.take k').sum + o') : k = k' ∧ o = o' := by
  have hloc := (Segments.locate_some_iff b.sizes _ k o).mpr ⟨by rwa [length_sizes], ho, rfl⟩
  have hloc' := (Segments.locate_some_iff b.sizes _ k' o').mpr ⟨by rwa [length_sizes], ho', rfl⟩
  rw [h, hloc', Option.some.injEq, Prod.mk.injEq] at hloc
  exact ⟨hloc.1.symm, hloc.2.symm⟩

theorem foldVisit_find (b : AesdCircularBuffer) (is : List Nat) (p : Nat) (hp : p < 2 ^ 31) :
    foldVisit (findVisit b) (fun _ => none) is p =
      some ((Segments.locate (is.map fun i => (b.slot i).size) p).map
        fun r => (is.getD r.1 0, r.2)) := by
  -- induction on the slots left: a position below 2^31 stays a nonnegative `int` throughout, so no
  -- conversion of the loop changes it
  induction is generalizing p with
  | nil => rfl
  | cons i is ih =>
      have hsize : sizeT (p : Int) = p := sizeT_natCast p (by omega)
      rw [foldVisit, findVisit, hsize, List.map_cons, Segments.locate]
      by_cases hlt : p < (b.slot i).size
      · rw [if_pos hlt, if_pos hlt]
        rfl
      · have hsub : int32 ((p : Int) - (b.slot i).size) = ((p - (b.slot i).size : Nat) : Int) := by
          rw [show (p : Int) - (b.slot i).size = ((p - (b.slot i).size : Nat) : Int) by omega]
          exact int32_natCast _ (by omega)
        rw [if_neg hlt, if_neg hlt]
        simp only [hsub]
        rw [ih _ (by omega), Option.map_map]
        rfl

theorem find_eq_locate {b : AesdCircularBuffer} (h : RingInv b) (p : Nat) (hp : p < 2 ^ 31) :
    aesdCircularBufferFindEntryOffsetForFpos b p =
      some ((Segments.locate b.sizes p).map fun r => (b.slotOf r.1, r.2)) := by
  rw [aesdCircularBufferFindEntryOffsetForFpos, int32_natCast p hp, walk_slots h,
    foldVisit_find b _ p hp, map_size_slots]
  · -- the walk reports a slot by its place in the list of slots
    congr 1
    cases hl : Segments.locate b.sizes p with
    | none => rfl
    | some r =>
        have hr := ((Segments.locate_some_iff b.sizes p r.1 r.2).mp hl).1
        rw [length_sizes] at hr
        simp only [Option.map_some]
        rw [getD_slots b _ hr, slotOf]
  · rfl

theorem find_some_iff {b : AesdCircularBuffer} (h : RingInv b) {p k o : Nat} (hp : p < 2 ^ 31)
    (hk : k < b.count) :
    aesdCircularBufferFindEntryOffsetForFpos b p = some (some (b.slotOf k, o)) ↔
      o < b.sizes.getD k 0 ∧ p = (b.sizes.take k).sum + o := by
  rw [find_eq_locate h p hp, Option.some.injEq, Option.map_eq_some_iff]
  constructor
  · rintro ⟨⟨j, o'⟩, hl, he⟩
    obtain ⟨hj, ho, hsum⟩ := (Segments.locate_some_iff _ _ _ _).mp hl
    rw [length_sizes] at hj
    simp only [Prod.mk.injEq] at he
    have hjk : j = k := slotOf_inj hj hk he.1
    rw [← hjk, ← he.2]
    exact ⟨ho, hsum⟩
  · rintro ⟨ho, hsum⟩
    exact ⟨(k, o), (Segments.locate_some_iff _ _ _ _).mpr ⟨by rwa [length_sizes], ho, hsum⟩, rfl⟩

theorem find_none_iff {b : AesdCircularBuffer} (h : RingInv b) {p : Nat} (hp : p < 2 ^ 31) :
    aesdCircularBufferFindEntryOffsetForFpos b p = some none ↔ b.totalSize ≤ p := by
  rw [find_eq_locate h p hp, Option.some.injEq, Option.map_eq_none_iff, Segments.locate_none_iff,
    totalSize]

/-! ## Command seek -/

theorem foldVisit_adjust (b : AesdCircularBuffer) (fPos : Int) (writeCmd writeCmdOffset : Nat)
    (is : List Nat) (fpos : Int) (cmdNum : Nat) (hcmd : cmdNum + is.length < 2 ^ 31)
    (hle : cmdNum ≤ writeCmd) :
    foldVisit (adjustVisit b fPos writeCmd writeCmdOffset) (fun _ => (-EINVAL, fPos)) is
        (int64 fpos, cmdNum) =
      some (
        let sizes := is.map fun i => (b.slot i).size
        let k := writeCmd - cmdNum
        if k < is.length ∧ writeCmdOffset ≤ sizes.getD k 0 then
          (0, int64 (fpos + (sizes.take k).sum + writeCmdOffset))
        else (-EINVAL, fPos)) := by
  -- induction on the slots left: `fpos` has summed the sizes passed, `cmd_num` has counted them
  induction is generalizing fpos cmdNum with
  | nil => simp [foldVisit]
  | cons i is ih =>
      rw [List.length_cons] at hcmd
      have hnum : uint32 (cmdNum : Int) = cmdNum := by
        rw [uint32, toUnsigned_of_lt _ _ (by omega) (by omega)]
        exact Int.toNat_natCast cmdNum
      rw [foldVisit, adjustVisit]
      simp only [hnum, List.map_cons, List.length_cons]
      by_cases heq : cmdNum = writeCmd
      · rw [if_pos heq, heq, Nat.sub_self, List.getD_cons_zero, List.take_zero, List.sum_nil,
          int64_add]
        by_cases hs : writeCmdOffset ≤ (b.slot i).size
        · rw [if_pos hs, if_pos ⟨by omega, hs⟩, Int.natCast_zero, Int.add_zero]
        · rw [if_neg hs, if_neg (fun h => hs h.2)]
      · have hnext : (cmdNum : Int) + 1 = ((cmdNum + 1 : Nat) : Int) := by omega
        rw [if_neg heq]
        simp only [int64_add, hnext]
        rw [ih _ _ (by omega) (by omega)]
        obtain ⟨k, hk⟩ : ∃ k, writeCmd - cmdNum = k + 1 := ⟨writeCmd - cmdNum - 1, by omega⟩
        have hk' : writeCmd - (cmdNum + 1) = k := by omega
        rw [hk, hk']
        simp only [List.getD_cons_succ, List.take_succ_cons, List.sum_cons,
          Nat.add_lt_add_iff_right, Int.natCast_add, Int.add_assoc]

/-- `aesd_adjust_file_offset` on the stored sizes: an offset equal to the size is let through,
and so is every request on the empty ring. -/
theorem adjust_eq_int64 {b : AesdCircularBuffer} (h : RingInv b) (fPos : Int)
    (writeCmd writeCmdOffset : Nat) :
    aesdAdjustFileOffset b fPos writeCmd writeCmdOffset =
      some (
        if b.count = 0 then (0, 0)
        else if writeCmd < b.count ∧ writeCmdOffset ≤ b.sizes.getD writeCmd 0 then
          (0, int64 ((b.sizes.take writeCmd).sum + writeCmdOffset))
        else (-EINVAL, fPos)) := by
  by_cases hc : b.count = 0
  · rw [aesdAdjustFileOffset, if_pos (h.isEmpty_iff.mpr hc), if_pos hc]
  · have hne : ¬ b.isEmpty = true := fun he => hc (h.isEmpty_iff.mp he)
    have hle := b.count_le
    have hzero : int64 0 = 0 := by decide
    have hfold := foldVisit_adjust b fPos writeCmd writeCmdOffset b.slots 0 0
      (by rw [length_slots]; omega) (Nat.zero_le _)
    simp only [map_size_slots, length_slots, hzero, Nat.sub_zero, Int.zero_add] at hfold
    rw [aesdAdjustFileOffset, if_neg hne, if_neg hc, walk_eq h _ _ hc le_rfl]
    exact hfold

theorem adjust_eq {b : AesdCircularBuffer} (h : RingInv b) (ht : b.totalSize < 2 ^ 31)
    (fPos : Int) {writeCmd writeCmdOffset : Nat} (hoff : writeCmdOffset < 2 ^ 32) :
    aesdAdjustFileOffset b fPos writeCmd writeCmdOffset =
      some (
        if b.count = 0 then (0, 0)
        else if writeCmd < b.count ∧ writeCmdOffset ≤ b.sizes.getD writeCmd 0 then
          (0, (((b.sizes.take writeCmd).sum + writeCmdOffset : Nat) : Int))
        else (-EINVAL, fPos)) := by
  have hsum := Segments.sum_take_le b.sizes writeCmd
  have hpos : int64 ((b.sizes.take writeCmd).sum + writeCmdOffset) =
      (((b.sizes.take writeCmd).sum + writeCmdOffset : Nat) : Int) := by
    rw [← Int.natCast_add]
    apply int64_natCast
    rw [totalSize] at ht
    omega
  rw [adjust_eq_int64 h, hpos]

end AesdChar
