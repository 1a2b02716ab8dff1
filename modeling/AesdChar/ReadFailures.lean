import AesdChar.BoundedRead
import AesdChar.DeviceSize
import AesdChar.Representation
import AesdChar.FifoHistory

/-!
# Failures of reading and seeking

What `aesd_read`, `aesd_llseek` and `aesd_ioctl` report when something is refused to them.  A
failed user copy is reported as the end of the data by the read, and as a positive error number by
the ioctl; a seek to a command's end, or into an empty ring, is not refused at all.
-/

namespace AesdChar

open CInt Heap AesdCircularBuffer

/-- The `int` position of the lookup meets one of the entries. -/
def Meets (b : AesdCircularBuffer) (fPos : Int) : Prop :=
  ∃ j < b.count, sizeT (int32 (fPos - (b.sizes.take j).sum)) < b.sizes.getD j 0

instance (b : AesdCircularBuffer) (fPos : Int) : Decidable (Meets b fPos) :=
  inferInstanceAs (Decidable (∃ j < _, _))

/-- A failing read returns an error and leaves everything alone, and 0 means the end. -/
structure ReportsRead (s : Driver) (env : ReadEnv) (count : Nat) (fPos : Int) : Prop where
  failure : env.interrupted = true ∨
      (aesdCircularBufferFindEntryOffsetForFpos s.dev.buffer (sizeT fPos) ≠ some none ∧
        0 < env.notCopied) →
    ∃ r, aesdRead s env count fPos = some r ∧ r.ret < 0 ∧ r.fPos = fPos ∧
      r.driver.dev = s.dev ∧ r.driver.heap.bytes = s.heap.bytes
  zero : count ≠ 0 → ∀ r, aesdRead s env count fPos = some r → r.ret = 0 →
    s.dev.buffer.totalSize ≤ fPos

def ReportsLlseek (llseek : LlseekFn) (s : Driver) (interrupted : Bool)
    (fPos offset whence : Int) : Prop :=
  (¬ (whence = SEEK_SET ∨ whence = SEEK_CUR ∨ whence = SEEK_END) ∨ interrupted = true ∨
    (¬ (0 ≤ seekTarget fPos offset whence s.dev.buffer.cbSize ∧
        seekTarget fPos offset whence s.dev.buffer.cbSize ≤ s.dev.buffer.cbSize) ∧
      ¬ (whence = SEEK_CUR ∧ offset = 0))) →
  (aesdLlseek llseek s interrupted fPos offset whence).1 < 0 ∧
    (aesdLlseek llseek s interrupted fPos offset whence).2 = fPos

/-- The request names a stored byte. -/
def AesdSeekto.Valid (b : AesdCircularBuffer) (seekto : AesdSeekto) : Prop :=
  seekto.writeCmd < b.count ∧ seekto.writeCmdOffset < b.sizes.getD seekto.writeCmd 0

def ReportsIoctl (s : Driver) (interrupted : Bool) (fPos : Int) (cmd : Nat)
    (arg : Option AesdSeekto) : Prop :=
  (cmd ≠ AESDCHAR_IOCSEEKTO ∨ arg = none ∨ interrupted = true ∨
    ∃ seekto, arg = some seekto ∧ ¬ seekto.Valid s.dev.buffer) →
  ∃ ret, aesdIoctl s interrupted fPos cmd arg = some (ret, fPos) ∧ ret < 0

theorem errors_negative : -ERESTARTSYS < 0 ∧ -EINVAL < 0 := by decide

/-! ## Reading -/

theorem foldVisit_find_none_iff (b : AesdCircularBuffer) (is : List Nat) (pos : Int) :
    foldVisit (findVisit b) (fun _ => none) is (int32 pos) = some none ↔
      ∀ j < is.length, ¬ sizeT (int32 (pos - ((is.map fun i => (b.slot i).size).take j).sum)) <
        (is.map fun i => (b.slot i).size).getD j 0 := by
  -- induction on the slots left: the position is reduced once for each slot, which is the same as
  -- reducing it once
  induction is generalizing pos with
  | nil => simp [foldVisit]
  | cons i is ih =>
      have hnext : int32 (sizeT (int32 pos) - (b.slot i).size) = int32 (pos - (b.slot i).size) := by
        rw [int32_sizeT_sub, int32_sub]
      rw [foldVisit, findVisit, List.length_cons, List.map_cons]
      by_cases hlt : (b.slot i).size > sizeT (int32 pos)
      · rw [if_pos hlt]
        apply iff_of_false
        · simp
        · intro h
          apply h 0 (Nat.succ_pos _)
          rw [List.take_zero, List.sum_nil, Int.natCast_zero, Int.sub_zero, List.getD_cons_zero]
          exact hlt
      · rw [if_neg hlt]
        simp only [hnext]
        rw [ih]
        constructor
        · intro h j hj
          cases j with
          | zero =>
              rw [List.take_zero, List.sum_nil, Int.natCast_zero, Int.sub_zero,
                List.getD_cons_zero]
              exact hlt
          | succ j =>
              rw [List.take_succ_cons, List.sum_cons, List.getD_cons_succ, Int.natCast_add,
                ← Int.sub_sub]
              exact h j (by omega)
        · intro h j hj
          have := h (j + 1) (by omega)
          rwa [List.take_succ_cons, List.sum_cons, List.getD_cons_succ, Int.natCast_add,
            ← Int.sub_sub] at this

section

variable {s : Driver}

theorem find_sizeT (b : AesdCircularBuffer) (h : RingInv b) (fPos : Int) :
    aesdCircularBufferFindEntryOffsetForFpos b (sizeT fPos) =
      foldVisit (findVisit b) (fun _ => none) b.slots (int32 fPos) := by
  rw [((walksVisit_slots h).find _).1, int32_of_modEq (sizeT_modEq fPos)]

theorem find_none_iff_not_meets {b : AesdCircularBuffer} (h : RingInv b) (fPos : Int) :
    aesdCircularBufferFindEntryOffsetForFpos b (sizeT fPos) = some none ↔ ¬ Meets b fPos := by
  rw [find_sizeT b h, foldVisit_find_none_iff, map_size_slots, length_slots, Meets]
  push Not
  rfl

/-- Inside the stored bytes the lookup meets an entry, unless an entry has 2^31 bytes or more. -/
theorem meets_of_lt {b : AesdCircularBuffer} {p : Nat} (hsize : ∀ n ∈ b.sizes, n ≤ 2 ^ 31)
    (hp : p < b.totalSize) : Meets b p := by
  obtain ⟨k, o, hk, ho, hsum⟩ := exists_entry_at hp
  have hmem : b.sizes.getD k 0 ∈ b.sizes := by
    rw [List.getD_eq_getElem _ _ (by rwa [length_sizes])]
    exact List.getElem_mem _
  have hle := hsize _ hmem
  have hoff : (p : Int) - (b.sizes.take k).sum = o := by omega
  refine ⟨k, hk, ?_⟩
  rw [hoff, int32_natCast o (by omega), sizeT_natCast o (by omega)]
  exact ho

theorem aesdRead_interrupted {env : ReadEnv} (hi : env.interrupted = true) (count : Nat)
    (fPos : Int) : aesdRead s env count fPos = some ⟨-ERESTARTSYS, [], fPos, s⟩ := by
  unfold aesdRead
  rw [if_pos hi]

theorem aesdRead_missed (h : RingInv s.dev.buffer) {env : ReadEnv} (hi : env.interrupted = false)
    (count : Nat) {fPos : Int} (hm : ¬ Meets s.dev.buffer fPos) :
    aesdRead s env count fPos = some ⟨0, [], fPos, s⟩ := by
  unfold aesdRead
  rw [hi, (find_none_iff_not_meets h fPos).mpr hm]
  rfl

/-- An entry was found: the result is 0 exactly when its copy failed. -/
theorem aesdRead_met (h : Reachable s) {env : ReadEnv} (hi : env.interrupted = false)
    (count : Nat) {fPos : Int} (hm : Meets s.dev.buffer fPos) :
    ∃ r, aesdRead s env count fPos = some r ∧ (r.ret = 0 ↔ env.notCopied ≠ 0) := by
  have hring := h.ring.inv
  obtain ⟨found, hfound⟩ := Option.isSome_iff_exists.mp
    ((walksVisit_slots hring).find (sizeT fPos)).2
  cases found with
  | none => exact absurd hm ((find_none_iff_not_meets hring fPos).mp hfound)
  | some entry =>
      obtain ⟨i, o⟩ := entry
      obtain ⟨hmem, ho⟩ := find_some_stored hring hfound
      have hsize := h.sizes _ hmem
      have hn : sizeT ((s.dev.buffer.slot i).size - o) = (s.dev.buffer.slot i).size - o := by
        rw [← Int.ofNat_sub ho.le]
        exact sizeT_natCast _ (by omega)
      have hne : int64 ((s.dev.buffer.slot i).size - o : Nat) ≠ 0 :=
        int64_ne_zero _ (by omega) (by omega)
      unfold aesdRead
      rw [hi, hfound]
      simp only [Bool.false_eq_true, if_false, hn]
      by_cases hc : env.notCopied = 0
      · rw [if_pos hc]
        refine ⟨_, rfl, ?_⟩
        dsimp only
        exact iff_of_false hne (not_not.mpr hc)
      · rw [if_neg hc]
        exact ⟨_, rfl, iff_of_true rfl hc⟩

theorem reportsRead_interrupted {env : ReadEnv} (hi : env.interrupted = true) (count : Nat)
    (fPos : Int) : ReportsRead s env count fPos := by
  have hread := aesdRead_interrupted (s := s) hi count fPos
  refine ⟨fun _ => ⟨_, hread, errors_negative.1, rfl, rfl, rfl⟩, fun _ r hr hzero => ?_⟩
  rw [hread, Option.some.injEq] at hr
  subst hr
  exact absurd hzero errors_negative.1.ne

theorem reportsRead_met_iff (h : Reachable s) {env : ReadEnv} (hi : env.interrupted = false)
    (count : Nat) {fPos : Int} (hm : Meets s.dev.buffer fPos) :
    ReportsRead s env count fPos ↔ env.notCopied = 0 := by
  obtain ⟨r, hr, hret⟩ := aesdRead_met h hi count hm
  have hsome : aesdCircularBufferFindEntryOffsetForFpos s.dev.buffer (sizeT fPos) ≠ some none :=
    fun he => (find_none_iff_not_meets h.ring.inv fPos).mp he hm
  constructor
  · intro hrep
    by_contra hc
    obtain ⟨r', hr', hneg, _⟩ := hrep.failure (Or.inr ⟨hsome, Nat.pos_of_ne_zero hc⟩)
    rw [hr, Option.some.injEq] at hr'
    subst hr'
    have := hret.mpr hc
    omega
  · intro hc
    refine ⟨fun hf => ?_, fun _ r' hr' hzero => ?_⟩
    · rcases hf with hf | hf
      · exact absurd hi (by simp [hf])
      · exact absurd hf.2 (by omega)
    · rw [hr, Option.some.injEq] at hr'
      subst hr'
      exact absurd hc (hret.mp hzero)

theorem reportsRead_missed_iff (h : Reachable s) {env : ReadEnv} (hi : env.interrupted = false)
    (count : Nat) {fPos : Int} (hm : ¬ Meets s.dev.buffer fPos) :
    ReportsRead s env count fPos ↔ count = 0 ∨ (s.dev.buffer.totalSize : Int) ≤ fPos := by
  have hread := aesdRead_missed h.ring.inv hi count hm
  constructor
  · intro hrep
    by_cases hcount : count = 0
    · exact Or.inl hcount
    · exact Or.inr (hrep.zero hcount _ hread rfl)
  · intro hend
    refine ⟨fun hf => ?_, fun hcount _ _ _ => hend.resolve_left hcount⟩
    rcases hf with hf | hf
    · exact absurd hi (by simp [hf])
    · exact absurd ((find_none_iff_not_meets h.ring.inv fPos).mpr hm) hf.1

theorem reportsRead_iff (h : Reachable s) (env : ReadEnv) (count : Nat) (fPos : Int) :
    ReportsRead s env count fPos ↔
      env.interrupted = true ∨ (Meets s.dev.buffer fPos ∧ env.notCopied = 0) ∨
        (¬ Meets s.dev.buffer fPos ∧ (count = 0 ∨ (s.dev.buffer.totalSize : Int) ≤ fPos)) := by
  cases hi : env.interrupted with
  | true => exact iff_of_true (reportsRead_interrupted hi count fPos) (Or.inl rfl)
  | false =>
      by_cases hm : Meets s.dev.buffer fPos
      · rw [reportsRead_met_iff h hi count hm]
        simp [hm]
      · rw [reportsRead_missed_iff h hi count hm]
        simp [hm]

/-! ## Seeking -/

theorem reportsLlseek {llseek : LlseekFn} (hl : LlseekInside llseek) (interrupted : Bool)
    (fPos offset whence : Int) : ReportsLlseek llseek s interrupted fPos offset whence := by
  intro hf
  unfold aesdLlseek
  by_cases hw : whence = SEEK_SET ∨ whence = SEEK_CUR ∨ whence = SEEK_END
  · rw [if_pos hw]
    by_cases hi : interrupted = true
    · rw [if_pos hi]
      exact ⟨errors_negative.1, rfl⟩
    · rw [if_neg hi]
      have hout := (hf.resolve_left (not_not.mpr hw)).resolve_left hi
      exact hl.refused _ _ _ _ hout.1 hout.2
  · rw [if_neg hw]
    exact ⟨errors_negative.2, rfl⟩

theorem seek_refused_iff (h : RingInv s.dev.buffer) (fPos : Int) (seekto : AesdSeekto) :
    (¬ seekto.Valid s.dev.buffer → ∃ ret, aesdAdjustFileOffset s.dev.buffer fPos seekto.writeCmd
        seekto.writeCmdOffset = some (ret, fPos) ∧ ret < 0) ↔
      s.dev.buffer.count ≠ 0 ∧ ¬ (seekto.writeCmd < s.dev.buffer.count ∧
        seekto.writeCmdOffset = s.dev.buffer.sizes.getD seekto.writeCmd 0) := by
  rw [adjust_eq_int64 h]
  by_cases hc : s.dev.buffer.count = 0
  · rw [if_pos hc]
    apply iff_of_false
    · intro hrep
      obtain ⟨ret, hret, hneg⟩ := hrep fun hv => by
        have := hv.1
        omega
      rw [Option.some.injEq, Prod.mk.injEq] at hret
      omega
    · exact fun hcond => hcond.1 hc
  · rw [if_neg hc]
    by_cases hle : seekto.writeCmd < s.dev.buffer.count ∧
        seekto.writeCmdOffset ≤ s.dev.buffer.sizes.getD seekto.writeCmd 0
    · rw [if_pos hle]
      -- let through: right for a stored byte, wrong for a command's end
      constructor
      · intro hrep
        refine ⟨hc, fun hend => ?_⟩
        obtain ⟨ret, hret, hneg⟩ := hrep fun hv => by
          have := hv.2
          omega
        rw [Option.some.injEq, Prod.mk.injEq] at hret
        omega
      · intro hcond hv
        exact absurd ⟨hle.1, lt_of_le_of_ne hle.2 fun he => hcond.2 ⟨hle.1, he⟩⟩ hv
    · rw [if_neg hle]
      apply iff_of_true
      · exact fun _ => ⟨_, rfl, errors_negative.2⟩
      · exact ⟨hc, fun hend => hle ⟨hend.1, hend.2.le⟩⟩

theorem reportsIoctl_iff (h : RingInv s.dev.buffer) (interrupted : Bool) (fPos : Int) (cmd : Nat)
    (arg : Option AesdSeekto) :
    ReportsIoctl s interrupted fPos cmd arg ↔
      cmd ≠ AESDCHAR_IOCSEEKTO ∨ ∃ seekto, arg = some seekto ∧ (interrupted = true ∨
        (s.dev.buffer.count ≠ 0 ∧ ¬ (seekto.writeCmd < s.dev.buffer.count ∧
          seekto.writeCmdOffset = s.dev.buffer.sizes.getD seekto.writeCmd 0))) := by
  unfold ReportsIoctl aesdIoctl
  by_cases hcmd : cmd = AESDCHAR_IOCSEEKTO
  · rw [if_pos hcmd, or_iff_right (not_not.mpr hcmd), or_iff_right (not_not.mpr hcmd)]
    cases arg with
    | none =>
        apply iff_of_false
        · intro hrep
          obtain ⟨ret, hret, hneg⟩ := hrep (Or.inl rfl)
          simp only [Option.some.injEq, Prod.mk.injEq] at hret
          rw [← hret.1] at hneg
          exact absurd hneg (by decide)
        · simp
    | some seekto =>
        simp only [Option.some.injEq, exists_eq_left', reduceCtorEq, false_or]
        by_cases hi : interrupted = true
        · rw [if_pos hi]
          exact iff_of_true (fun _ => ⟨_, rfl, errors_negative.1⟩) (Or.inl hi)
        · rw [if_neg hi, or_iff_right hi, or_iff_right hi]
          exact seek_refused_iff h fPos seekto
  · rw [if_neg hcmd]
    exact iff_of_true (fun _ => ⟨_, rfl, by decide⟩) (Or.inl hcmd)

end

/-- Of the three calls, seeking with `aesd_llseek` always reports its failures; a read does unless
its copy fails or the lookup misses a stored byte; an ioctl does unless its argument cannot be
copied, the ring is empty, or the request names a command's end. -/
theorem failuresReported_iff {s : Driver} (h : Reachable s) {llseek : LlseekFn}
    (hl : LlseekInside llseek) :
    (∀ env count fPos, ReportsRead s env count fPos ↔
      env.interrupted = true ∨ (Meets s.dev.buffer fPos ∧ env.notCopied = 0) ∨
        (¬ Meets s.dev.buffer fPos ∧ (count = 0 ∨ (s.dev.buffer.totalSize : Int) ≤ fPos))) ∧
    (∀ interrupted fPos offset whence, ReportsLlseek llseek s interrupted fPos offset whence) ∧
    (∀ interrupted fPos cmd arg, ReportsIoctl s interrupted fPos cmd arg ↔
      cmd ≠ AESDCHAR_IOCSEEKTO ∨ ∃ seekto, arg = some seekto ∧ (interrupted = true ∨
        (s.dev.buffer.count ≠ 0 ∧ ¬ (seekto.writeCmd < s.dev.buffer.count ∧
          seekto.writeCmdOffset = s.dev.buffer.sizes.getD seekto.writeCmd 0)))) :=
  ⟨reportsRead_iff h, reportsLlseek hl, reportsIoctl_iff h.ring.inv⟩

/-- A read of `"a\n"` from its start, and a seek behind its only command. -/
theorem failuresReported_one_command :
    ReportsRead (aesdInitModule.writes [.plain [97, 10]]) .calm 1 0 ∧
    ReportsLlseek boundedLlseek (aesdInitModule.writes [.plain [97, 10]]) false 0 3 SEEK_SET ∧
    ReportsIoctl (aesdInitModule.writes [.plain [97, 10]]) false 0 AESDCHAR_IOCSEEKTO
      (some ⟨1, 0⟩) :=
  have h := failuresReported_iff (s := aesdInitModule.writes [.plain [97, 10]]) ⟨_, rfl⟩
    boundedLlseek_inside
  ⟨(h.1 _ _ _).mpr (Or.inr (Or.inl
      ⟨meets_of_lt (p := 0) (by decide) (by decide), rfl⟩)),
    h.2.1 _ _ _ _,
    (h.2.2 _ _ _ _).mpr (Or.inr ⟨⟨1, 0⟩, rfl, Or.inr (by decide)⟩)⟩

/-- A read whose copy fails returns 0, and an ioctl whose copy fails returns 14. -/
theorem failed_copies_not_reported :
    Reachable (aesdInitModule.writes [.plain [97, 10]]) ∧
    ¬ ReportsRead (aesdInitModule.writes [.plain [97, 10]]) ⟨false, 1, fun _ => 0⟩ 1 0 ∧
    ¬ ReportsIoctl (aesdInitModule.writes [.plain [97, 10]]) false 0 AESDCHAR_IOCSEEKTO none := by
  refine ⟨⟨_, rfl⟩, fun h => ?_, fun h => ?_⟩
  · obtain ⟨r, hr, hneg, _⟩ := h.failure (Or.inr ⟨by decide, by decide⟩)
    have hret : (aesdRead (aesdInitModule.writes [.plain [97, 10]]) ⟨false, 1, fun _ => 0⟩ 1 0).map
        ReadResult.ret = some 0 := by decide
    rw [hr, Option.map_some, Option.some.injEq] at hret
    omega
  · obtain ⟨ret, hret, hneg⟩ := h (Or.inr (Or.inl rfl))
    have h14 : aesdIoctl (aesdInitModule.writes [.plain [97, 10]]) false 0 AESDCHAR_IOCSEEKTO none =
        some (14, 0) := by decide
    rw [h14, Option.some.injEq, Prod.mk.injEq] at hret
    omega

end AesdChar
