import AesdChar.Lookup
import AesdChar.FifoHistory

/-!
# Lookup over the range of `size_t`

The offset is a `size_t`, but the running position of the lookup is an `int`: only the offset's
residue modulo 2^32 counts.  From 2^32 on, an offset whose residue falls among the stored bytes is
taken for that residue.
-/

namespace AesdChar

open CInt AesdCircularBuffer

/-- `charOffset` lies in the `k`-th oldest entry. -/
def LiesIn (b : AesdCircularBuffer) (charOffset k : Nat) : Prop :=
  k < b.count ∧ (b.sizes.take k).sum ≤ charOffset ∧
    charOffset < (b.sizes.take k).sum + b.sizes.getD k 0

/-- `*entry_offset_byte_rtn` after the call, from its value before. -/
def entryOffsetByteRtn (b : AesdCircularBuffer) (charOffset old : Nat) : Option Nat :=
  (aesdCircularBufferFindEntryOffsetForFpos b charOffset).map fun found =>
    (found.map Prod.snd).getD old

/-- What the comment over the function promises, and that its loop ends within ten rounds. -/
structure FindsDocumented (b : AesdCircularBuffer) (charOffset : Nat) : Prop where
  found : charOffset < b.totalSize → ∃ k, LiesIn b charOffset k ∧
    (∀ j, LiesIn b charOffset j → j = k) ∧
    aesdCircularBufferFindEntryOffsetForFpos b charOffset =
      some (some (b.slotOf k, charOffset - (b.sizes.take k).sum)) ∧
    ∀ old, entryOffsetByteRtn b charOffset old = some (charOffset - (b.sizes.take k).sum)
  missing : b.totalSize ≤ charOffset →
    aesdCircularBufferFindEntryOffsetForFpos b charOffset = some none ∧
    ∀ old, entryOffsetByteRtn b charOffset old = some old
  rounds : b.isEmpty = false → (walk 10 b (findVisit b) (fun _ => none) (int32 charOffset)).isSome

theorem find_mod (b : AesdCircularBuffer) (p : Nat) :
    aesdCircularBufferFindEntryOffsetForFpos b p =
      aesdCircularBufferFindEntryOffsetForFpos b (p % 2 ^ 32) := by
  simp only [aesdCircularBufferFindEntryOffsetForFpos, int32_mod]

theorem foldVisit_find_past (b : AesdCircularBuffer) (is : List Nat) (q : Nat) (hq : q < 2 ^ 32)
    (hsum : (is.map fun i => (b.slot i).size).sum ≤ q) :
    foldVisit (findVisit b) (fun _ => none) is (int32 q) = some none := by
  -- induction on the slots left: `q` counts down modulo 2^32; while it is 2^31 or more the `int` is
  -- negative and compares as a huge `size_t`
  induction is generalizing q with
  | nil => rfl
  | cons i is ih =>
      rw [List.map_cons, List.sum_cons] at hsum
      have hmiss : ¬ (b.slot i).size > sizeT (int32 q) := by
        rw [sizeT_int32 q hq]
        split <;> omega
      have hnext : int32 (sizeT (int32 q) - (b.slot i).size) =
          int32 ((q - (b.slot i).size : Nat) : Int) := by
        rw [int32_sizeT_sub, int32_sub]
        congr 1
        omega
      rw [foldVisit, findVisit, if_neg hmiss]
      simp only [hnext]
      exact ih _ (by omega) (by omega)

theorem find_past {b : AesdCircularBuffer} (h : RingInv b) {q : Nat} (hq : q < 2 ^ 32)
    (hpast : b.totalSize ≤ q) : aesdCircularBufferFindEntryOffsetForFpos b q = some none := by
  rw [aesdCircularBufferFindEntryOffsetForFpos, walk_slots h]
  · apply foldVisit_find_past b _ q hq
    rwa [map_size_slots]
  · rfl

section

variable {b : AesdCircularBuffer}

theorem walk_returns_of_find (h : RingInv b) (hne : b.isEmpty = false) (p : Nat) :
    (walk 10 b (findVisit b) (fun _ => none) (int32 p)).isSome := by
  have hreturns := ((walksVisit_slots h).find p).2
  rwa [aesdCircularBufferFindEntryOffsetForFpos, if_neg (by simp [hne])] at hreturns

theorem liesIn_iff_locate {p k : Nat} :
    LiesIn b p k ↔ Segments.locate b.sizes p = some (k, p - (b.sizes.take k).sum) := by
  rw [Segments.locate_some_iff, length_sizes, LiesIn]
  omega

theorem findsDocumented_of_lt (h : RingInv b) {p : Nat} (hp : p < 2 ^ 32)
    (ht : b.totalSize < 2 ^ 31) : FindsDocumented b p where
  found := by
    intro hlt
    obtain ⟨k, o, hloc⟩ := Segments.exists_locate hlt
    have hsum := ((Segments.locate_some_iff b.sizes p k o).mp hloc).2.2
    have hoff : o = p - (b.sizes.take k).sum := by omega
    have hfind : aesdCircularBufferFindEntryOffsetForFpos b p =
        some (some (b.slotOf k, p - (b.sizes.take k).sum)) := by
      rw [find_eq_locate h p (by omega), hloc, ← hoff]
      rfl
    refine ⟨k, ?_, ?_, hfind, ?_⟩
    · rw [liesIn_iff_locate, hloc, ← hoff]
    · intro j hj
      rw [liesIn_iff_locate, hloc] at hj
      exact (congrArg Prod.fst (Option.some.inj hj)).symm
    · intro old
      rw [entryOffsetByteRtn, hfind]
      rfl
  missing := by
    intro hle
    have hfind := find_past h hp hle
    refine ⟨hfind, fun old => ?_⟩
    rw [entryOffsetByteRtn, hfind]
    rfl
  rounds := fun hne => walk_returns_of_find h hne p

end

/-- The lookup keeps its promise exactly for the offsets that fit 32 bits and for those whose
residue modulo 2^32 is at or past the end of the stored bytes. -/
theorem findsDocumented_iff (entries : List AesdBufferEntry)
    (ht : (aesdCircularBufferInit.addAll entries).totalSize < 2 ^ 31) (charOffset : Nat) :
    FindsDocumented (aesdCircularBufferInit.addAll entries) charOffset ↔
      charOffset < 2 ^ 32 ∨
        (aesdCircularBufferInit.addAll entries).totalSize ≤ charOffset % 2 ^ 32 := by
  have hring := ringInv_addAll RingInv.init entries
  have hres : charOffset % 2 ^ 32 < 2 ^ 32 := Nat.mod_lt _ (by decide)
  by_cases hp : charOffset < 2 ^ 32
  · exact iff_of_true (findsDocumented_of_lt hring hp ht) (Or.inl hp)
  · have hpast : (aesdCircularBufferInit.addAll entries).totalSize ≤ charOffset := by omega
    rw [or_iff_right hp]
    constructor
    · -- NULL for the offset is NULL for its residue
      intro h
      have hnull := (h.missing hpast).1
      rw [find_mod] at hnull
      by_contra hlt
      exact hlt ((find_none_iff hring (by omega)).mp hnull)
    · intro hle
      have hnull : aesdCircularBufferFindEntryOffsetForFpos
          (aesdCircularBufferInit.addAll entries) charOffset = some none := by
        rw [find_mod]
        exact find_past hring hres hle
      refine ⟨fun hlt => absurd hpast hlt.not_ge, fun _ => ⟨hnull, fun old => ?_⟩, fun hne => ?_⟩
      · rw [entryOffsetByteRtn, hnull]
        rfl
      · exact walk_returns_of_find hring hne charOffset

/-- Offset 2 of `"ab\n"`, `"c\n"`. -/
theorem findsDocumented_first_entry :
    FindsDocumented (aesdCircularBufferInit.addAll [⟨some 0, 3⟩, ⟨some 1, 2⟩]) 2 :=
  (findsDocumented_iff [⟨some 0, 3⟩, ⟨some 1, 2⟩] (by decide) 2).mpr (Or.inl (by decide))

/-- Offset 2^32 on a ring of two bytes gives the first of them. -/
theorem find_wraps_at_4GiB :
    (aesdCircularBufferInit.addAll [⟨some 0, 2⟩]).totalSize = 2 ∧
      ¬ FindsDocumented (aesdCircularBufferInit.addAll [⟨some 0, 2⟩]) (2 ^ 32) := by
  refine ⟨by decide, fun h => ?_⟩
  have hnull := (h.missing (by decide)).1
  rw [find_mod] at hnull
  exact absurd hnull (by decide)

end AesdChar
