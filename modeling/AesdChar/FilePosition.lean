import AesdChar.BoundedRead
import AesdChar.DeviceSize

/-!
# The position of an open file

One file open on the device, used by any sequence of calls.  Reads and seeks keep its position
between the start and the end of the stored bytes.  A write moves it by the size of the command it
completes, also when the oldest command is evicted for it and the device does not grow by as much.
-/

namespace AesdChar

open CInt AesdCircularBuffer

structure OpenFile where
  driver : Driver
  fPos : Int

inductive FileOp where
  | write (buf : List UInt8) (env : WriteEnv)
  | read (count : Nat) (env : ReadEnv)
  | llseek (interrupted : Bool) (offset whence : Int)
  | ioctl (interrupted : Bool) (cmd : Nat) (arg : Option AesdSeekto)

namespace OpenFile

def start : OpenFile := ⟨aesdInitModule, 0⟩

def step (fixedSizeLlseek : LlseekFn) (f : OpenFile) : FileOp → OpenFile
  | .write buf env =>
      ⟨(aesdWrite f.driver env buf f.fPos).driver, (aesdWrite f.driver env buf f.fPos).fPos⟩
  | .read count env =>
      match aesdRead f.driver env count f.fPos with
      | some r => ⟨r.driver, r.fPos⟩
      | none => f
  | .llseek interrupted offset whence =>
      ⟨f.driver, (aesdLlseek fixedSizeLlseek f.driver interrupted f.fPos offset whence).2⟩
  | .ioctl interrupted cmd arg =>
      match aesdIoctl f.driver interrupted f.fPos cmd arg with
      | some r => ⟨f.driver, r.2⟩
      | none => f

def run (fixedSizeLlseek : LlseekFn) (f : OpenFile) (ops : List FileOp) : OpenFile :=
  ops.foldl (step fixedSizeLlseek) f

structure Inside (f : OpenFile) : Prop where
  nonneg : 0 ≤ f.fPos
  le_total : f.fPos ≤ f.driver.dev.buffer.totalSize

end OpenFile

namespace FileOp

/-- Nothing fails during the call, a read has room for any entry, and the stored bytes stay below
2^31. -/
def Works (f : OpenFile) : FileOp → Prop
  | .write buf env =>
      WriteCall.Succeeds f.driver ⟨buf, f.fPos, env⟩ ∧
        (f.driver.write ⟨buf, f.fPos, env⟩).dev.buffer.totalSize < 2 ^ 31
  | .read count env => env.Healthy ∧ ∀ e ∈ f.driver.dev.buffer.stored, e.size ≤ count
  | .llseek interrupted _ _ => interrupted = false
  | .ioctl interrupted _ _ => interrupted = false

/-- A write that evicts a command starts no further from the start than the bytes that stay. -/
def EvictsBehind (f : OpenFile) : FileOp → Prop
  | .write buf _ =>
      NEWLINE ∈ buf → f.driver.dev.buffer.count = 10 →
        f.fPos + f.driver.dev.buffer.sizes.headD 0 ≤ f.driver.dev.buffer.totalSize
  | _ => True

instance (f : OpenFile) (op : FileOp) : Decidable (op.Works f) :=
  match op with
  | .write _ _ => inferInstanceAs (Decidable (_ ∧ _))
  | .read _ _ => inferInstanceAs (Decidable (_ ∧ _))
  | .llseek _ _ _ => inferInstanceAs (Decidable (_ = _))
  | .ioctl _ _ _ => inferInstanceAs (Decidable (_ = _))

instance (f : OpenFile) (op : FileOp) : Decidable (op.EvictsBehind f) :=
  match op with
  | .write _ _ => inferInstanceAs (Decidable (_ → _ → _))
  | .read _ _ => inferInstanceAs (Decidable True)
  | .llseek _ _ _ => inferInstanceAs (Decidable True)
  | .ioctl _ _ _ => inferInstanceAs (Decidable True)

end FileOp

/-! ## What a write does to the position and to the end -/

theorem Reachable.write {s : Driver} (h : Reachable s) (c : WriteCall) : Reachable (s.write c) := by
  obtain ⟨calls, rfl⟩ := h
  exact ⟨calls ++ [c], (Driver.writes_concat _ _ _).symm⟩

namespace Holds

variable {s : Driver} {log : CommandLog}

/-- The size a commit moves the position by is that of the whole command. -/
theorem commitWrite_size (h : Holds s log) {c : WriteCall} (hc : c.Succeeds s) :
    (commitWrite (AesdChar.staged s c.env c.buf) c.env s.heap.issued c.buf.length).1 =
      (log.extended c.buf).length := by
  have hlen := h.extended_small hc.1 hc.2.2.2
  have hsum := h.count_extended c
  rw [arrived_of_copied hc.2.1] at hlen hsum
  have hgrown : c.buf.length ≤ (log.extended c.buf).length := by
    rw [CommandLog.extended, List.length_append]
    omega
  have htotal : int32 (s.dev.partBufSize + c.buf.length) = (log.extended c.buf).length := by
    rw [hsum]
    exact int32_natCast _ hlen
  rw [commitWrite]
  dsimp only
  rw [staged_dev]
  by_cases hp : s.dev.partMemPtr = none
  · rw [if_pos hp, if_neg (by decide)]
    rcases h.pending_cases with ⟨_, _, hsize⟩ | ⟨p, _, _, hp', _⟩
    · omega
    · rw [hp'] at hp
      exact absurd hp (by simp)
  · rw [if_neg hp, htotal]
    split
    · exact sizeT_natCast _ (by omega)
    · omega

theorem write_fPos (h : Holds s log) {c : WriteCall} (hc : c.Succeeds s) :
    (aesdWrite s c.env c.buf c.fPos).fPos =
      if NEWLINE ∈ c.buf then int64 (c.fPos + (log.extended c.buf).length) else c.fPos := by
  have harrived : c.env.received c.buf = c.buf := arrived_of_copied hc.2.1
  rw [aesdWrite_eq _ _ _ _ hc.1, harrived, hc.2.2.1]
  by_cases hn : NEWLINE ∈ c.buf
  · rw [if_pos hn, if_pos hn]
    simp only [Bool.false_eq_true, if_false]
    rw [h.commitWrite_size hc]
  · rw [if_neg hn, if_neg hn]
    rfl

/-- The end of the stored bytes moves by the size of the command less that of the one evicted. -/
theorem write_totalSize (h : Holds s log) {c : WriteCall} (hc : c.Succeeds s) :
    (s.write c).dev.buffer.totalSize +
        (if NEWLINE ∈ c.buf ∧ s.dev.buffer.count = 10 then s.dev.buffer.sizes.headD 0 else 0) =
      s.dev.buffer.totalSize + if NEWLINE ∈ c.buf then (log.extended c.buf).length else 0 := by
  have hcount := h.count_eq
  have hle := s.dev.buffer.count_le
  rw [(h.write_succeeds hc).totalSize_eq, h.totalSize_eq, h.sizes_eq]
  by_cases hn : NEWLINE ∈ c.buf
  · rw [CommandLog.accept_of_mem hn, if_pos hn]
    by_cases hfull : s.dev.buffer.count = 10
    · rw [if_pos ⟨hn, hfull⟩]
      exact CommandLog.commit_contents_of_full (hcount.symm.trans hfull) c.buf
    · rw [if_neg (fun hh => hfull hh.2), CommandLog.commit_contents (by omega), List.length_append,
        Nat.add_zero]
  · rw [CommandLog.accept_of_not_mem hn, if_neg hn, if_neg (fun hh => hn hh.1)]
    rfl

end Holds

/-! ## One call -/

/-- What every call that works keeps, as long as no write evicts under the position. -/
structure Positioned (f : OpenFile) : Prop where
  reachable : Reachable f.driver
  holds : ∃ log, Holds f.driver log
  small : f.driver.dev.buffer.totalSize < 2 ^ 31
  inside : f.Inside

namespace Positioned

variable {fixedSizeLlseek : LlseekFn} {f : OpenFile}

theorem start : Positioned OpenFile.start where
  reachable := ⟨[], rfl⟩
  holds := ⟨_, Holds.init⟩
  small := by decide
  inside := ⟨by decide, by decide⟩

/-- A new position inside the same device. -/
theorem moved (h : Positioned f) {fPos : Int} (hlo : 0 ≤ fPos)
    (hhi : fPos ≤ f.driver.dev.buffer.totalSize) : Positioned ⟨f.driver, fPos⟩ :=
  ⟨h.reachable, h.holds, h.small, hlo, hhi⟩

theorem read (h : Positioned f) {count : Nat} {env : ReadEnv} (he : env.Healthy) :
    Positioned (f.step fixedSizeLlseek (.read count env)) := by
  obtain ⟨log, hlog⟩ := h.holds
  obtain ⟨p, hp⟩ := Int.eq_ofNat_of_zero_le h.inside.nonneg
  have hle := h.inside.le_total
  have hsmall := h.small
  have htotal := hlog.totalSize_eq
  by_cases hlt : p < log.contents.length
  · obtain ⟨data, _, hpre, _, hread⟩ := hlog.aesdRead_inside he count (by omega) hlt
    have hlen := hpre.length_le
    rw [List.length_drop] at hlen
    rw [OpenFile.step, hp, hread]
    apply h.moved
    · exact Int.natCast_nonneg _
    · show ((p + data.length : Nat) : Int) ≤ _
      omega
  · rw [OpenFile.step, hp, hlog.aesdRead_end he count (by omega) (by omega)]
    apply h.moved
    · exact Int.natCast_nonneg _
    · show (p : Int) ≤ _
      omega

theorem llseek (hl : LlseekInside fixedSizeLlseek) (h : Positioned f) (interrupted : Bool)
    (offset whence : Int) :
    Positioned (f.step fixedSizeLlseek (.llseek interrupted offset whence)) := by
  have hstay : Positioned ⟨f.driver, f.fPos⟩ := h
  have hcb : f.driver.dev.buffer.cbSize = f.driver.dev.buffer.totalSize := by
    have hmod := h.reachable.cbSize
    have hsmall := h.small
    omega
  rw [OpenFile.step, aesdLlseek]
  split
  · split
    · exact hstay
    · rw [hcb]
      rcases hl.keeps f.fPos offset whence f.driver.dev.buffer.totalSize with hk | hk
      · rw [hk]
        exact hstay
      · exact h.moved hk.1 hk.2
  · exact hstay

theorem ioctl (h : Positioned f) (interrupted : Bool) (cmd : Nat) (arg : Option AesdSeekto) :
    Positioned (f.step fixedSizeLlseek (.ioctl interrupted cmd arg)) := by
  have hstay : Positioned ⟨f.driver, f.fPos⟩ := h
  rw [OpenFile.step]
  unfold aesdIoctl
  by_cases hcmd : cmd = AESDCHAR_IOCSEEKTO
  · rw [if_pos hcmd]
    cases arg with
    | none => exact hstay
    | some seekto =>
        dsimp only
        by_cases hi : interrupted = true
        · rw [if_pos hi]
          exact hstay
        · rw [if_neg hi, adjust_eq_int64 h.reachable.ring.inv]
          by_cases hc : f.driver.dev.buffer.count = 0
          · rw [if_pos hc]
            exact h.moved le_rfl (Int.natCast_nonneg _)
          · rw [if_neg hc]
            by_cases hin : seekto.writeCmd < f.driver.dev.buffer.count ∧
                seekto.writeCmdOffset ≤ f.driver.dev.buffer.sizes.getD seekto.writeCmd 0
            · -- at most the end of the command, so at most the end of the last one
              have hnext := Segments.sum_take_succ_getD f.driver.dev.buffer.sizes seekto.writeCmd
              have hle := Segments.sum_take_le f.driver.dev.buffer.sizes (seekto.writeCmd + 1)
              have htotal : f.driver.dev.buffer.sizes.sum < 2 ^ 31 := h.small
              rw [if_pos hin, ← Int.natCast_add, int64_natCast _ (by omega)]
              apply h.moved
              · exact Int.natCast_nonneg _
              · rw [totalSize]
                omega
            · rw [if_neg hin]
              exact hstay
  · rw [if_neg hcmd]
    exact hstay

/-- A write leaves the position inside exactly when it evicts nothing in front of it. -/
theorem write_inside_iff (h : Positioned f) {buf : List UInt8} {env : WriteEnv}
    (hw : (FileOp.write buf env).Works f) :
    (f.step fixedSizeLlseek (.write buf env)).Inside ↔ (FileOp.write buf env).EvictsBehind f := by
  obtain ⟨log, hlog⟩ := h.holds
  obtain ⟨p, hp⟩ := Int.eq_ofNat_of_zero_le h.inside.nonneg
  have hle := h.inside.le_total
  have hsmall := h.small
  have hfPos := hlog.write_fPos hw.1
  have htotal := hlog.write_totalSize hw.1
  dsimp only at hfPos htotal
  have hiff : (f.step fixedSizeLlseek (.write buf env)).Inside ↔
      0 ≤ (aesdWrite f.driver env buf f.fPos).fPos ∧
        (aesdWrite f.driver env buf f.fPos).fPos ≤
          (f.driver.write ⟨buf, f.fPos, env⟩).dev.buffer.totalSize :=
    ⟨fun hin => ⟨hin.1, hin.2⟩, fun hin => ⟨hin.1, hin.2⟩⟩
  rw [hiff, hfPos]
  by_cases hn : NEWLINE ∈ buf
  · have hpos : int64 (f.fPos + (log.extended buf).length) =
        ((p + (log.extended buf).length : Nat) : Int) := by
      have hlen := hlog.extended_small hw.1.1 hw.1.2.2.2
      rw [arrived_of_copied hw.1.2.1] at hlen
      dsimp only at hlen
      rw [hp, ← Int.natCast_add]
      apply int64_natCast
      omega
    rw [if_pos hn, hpos]
    rw [if_pos hn] at htotal
    by_cases hfull : f.driver.dev.buffer.count = 10
    · rw [if_pos ⟨hn, hfull⟩] at htotal
      constructor
      · intro hin _ _
        omega
      · intro hev
        have := hev hn hfull
        omega
    · rw [if_neg (fun hh => hfull hh.2)] at htotal
      apply iff_of_true
      · omega
      · exact fun _ hf => absurd hf hfull
  · rw [if_neg hn, if_neg (fun hh => hn hh.1)] at htotal
    rw [if_neg hn]
    apply iff_of_true
    · omega
    · exact fun hmem => absurd hmem hn

theorem step (hl : LlseekInside fixedSizeLlseek) (h : Positioned f) {op : FileOp}
    (hw : op.Works f) (hev : op.EvictsBehind f) : Positioned (f.step fixedSizeLlseek op) := by
  cases op with
  | write buf env =>
      obtain ⟨log, hlog⟩ := h.holds
      exact ⟨h.reachable.write ⟨buf, f.fPos, env⟩, ⟨_, hlog.write_succeeds hw.1⟩, hw.2,
        (h.write_inside_iff hw).mpr hev⟩
  | read count env => exact h.read hw.1
  | llseek interrupted offset whence => exact llseek hl h interrupted offset whence
  | ioctl interrupted cmd arg => exact h.ioctl interrupted cmd arg

theorem not_inside_step (h : Positioned f) {op : FileOp} (hw : op.Works f)
    (hev : ¬ op.EvictsBehind f) : ¬ (f.step fixedSizeLlseek op).Inside := by
  cases op with
  | write buf env => exact fun hin => hev ((h.write_inside_iff hw).mp hin)
  | read count env => exact absurd trivial hev
  | llseek interrupted offset whence => exact absurd trivial hev
  | ioctl interrupted cmd arg => exact absurd trivial hev

end Positioned

/-- The position stays inside the device through a run exactly when every write that evicts a
command finds the position that far in front of the end. -/
theorem filePosition_iff {fixedSizeLlseek : LlseekFn} (hl : LlseekInside fixedSizeLlseek)
    (ops : List FileOp)
    (hrun : Runs.Guarded (OpenFile.step fixedSizeLlseek) (fun f op => op.Works f) OpenFile.start
      ops) :
    (∀ pre, pre <+: ops → (OpenFile.start.run fixedSizeLlseek pre).Inside) ↔
      Runs.Guarded (OpenFile.step fixedSizeLlseek) (fun f op => op.EvictsBehind f) OpenFile.start
        ops :=
  Runs.forall_prefix_iff Positioned OpenFile.Inside (fun _ h => h.inside)
    (fun _ _ h hw hev => h.step hl hw hev) (fun _ _ h hw hev => h.not_inside_step hw hev)
    Positioned.start hrun

/-- `"a\n"`, rewound and read. -/
theorem filePosition_rewound :
    (OpenFile.start.run boundedLlseek
      [.write [97, 10] .calm, .llseek false 0 SEEK_SET, .read 1024 .calm]).Inside :=
  (filePosition_iff boundedLlseek_inside
    [.write [97, 10] .calm, .llseek false 0 SEEK_SET, .read 1024 .calm] (by decide)).mpr (by decide)
    _ (List.prefix_refl _)

/-- Eleven times `"a\n"` through one file: the position is 22, and 20 bytes are stored. -/
theorem position_behind_the_end :
    Runs.Guarded (OpenFile.step boundedLlseek) (fun f op => op.Works f) OpenFile.start
        (List.replicate 11 (.write [97, 10] .calm)) ∧
      ¬ (OpenFile.start.run boundedLlseek (List.replicate 11 (.write [97, 10] .calm))).Inside := by
  refine ⟨by decide +kernel, fun h => ?_⟩
  have hle := h.le_total
  exact absurd hle (by decide +kernel)

end AesdChar
