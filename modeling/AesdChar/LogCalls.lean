import AesdChar.DeviceSize
import AesdChar.FilePosition
import AesdChar.ReadFailures

/-!
# The calls on the command log

What each call of an open file does to a log of commands: the device as its users see it, with no
pointers, blocks or slots.  Positions and sizes keep the widths they have in the driver.  `Holds`
carries every call of the driver to its call on the log.
-/

namespace AesdChar

open CInt Heap AesdCircularBuffer

namespace CommandLog

def sizes (log : CommandLog) : List Nat := log.commands.map List.length

/-- The command that a position falls in and the offset in it; the position is narrowed to `int` for
each command passed. -/
def lookup : List Nat → Int → Option (Nat × Nat)
  | [], _ => none
  | size :: sizes, charPos =>
      if sizeT charPos < size then some (0, sizeT charPos)
      else (lookup sizes (int32 (sizeT charPos - size))).map fun r => (r.1 + 1, r.2)

/-- What a call answers, with the position it leaves. -/
structure Answer where
  ret : Int
  data : List UInt8
  fPos : Int

def write (log : CommandLog) (buf : List UInt8) (env : WriteEnv) (fPos : Int) :
    CommandLog × Answer :=
  let chunk := env.received buf
  if kmallocSucceeds buf.length env.kmalloc = false then (log, ⟨-ENOMEM, [], fPos⟩)
  else if env.interrupted then (log, ⟨0, [], fPos⟩)
  else
    (log.accept chunk,
      ⟨buf.length, [],
        if NEWLINE ∈ chunk then int64 (fPos + (log.extended chunk).length) else fPos⟩)

def read (log : CommandLog) (env : ReadEnv) (fPos : Int) : Answer :=
  if env.interrupted then ⟨-ERESTARTSYS, [], fPos⟩
  else
    match lookup log.sizes (int32 fPos) with
    | none => ⟨0, [], fPos⟩
    | some (k, o) =>
        let data := (log.commands.getD k []).drop o
        if env.notCopied = 0 then ⟨data.length, data, int64 (fPos + data.length)⟩
        else ⟨0, data.take (data.length - env.notCopied), fPos⟩

theorem read_of_lookup {log : CommandLog} {env : ReadEnv} {fPos : Int} {k o : Nat}
    (hi : env.interrupted = false) (hl : lookup log.sizes (int32 fPos) = some (k, o)) :
    log.read env fPos =
      if env.notCopied = 0 then
        ⟨((log.commands.getD k []).drop o).length, (log.commands.getD k []).drop o,
          int64 (fPos + ((log.commands.getD k []).drop o).length)⟩
      else
        ⟨0, ((log.commands.getD k []).drop o).take
          (((log.commands.getD k []).drop o).length - env.notCopied), fPos⟩ := by
  rw [read, if_neg (by rw [hi]; decide), hl]

def llseek (fixedSizeLlseek : LlseekFn) (log : CommandLog) (interrupted : Bool)
    (fPos offset whence : Int) : Answer :=
  if whence = SEEK_SET ∨ whence = SEEK_CUR ∨ whence = SEEK_END then
    if interrupted then ⟨-ERESTARTSYS, [], fPos⟩
    else
      let r := fixedSizeLlseek fPos offset whence ((log.contents.length % 2 ^ 32 : Nat) : Int)
      ⟨r.1, [], r.2⟩
  else ⟨-EINVAL, [], fPos⟩

def adjust (log : CommandLog) (fPos : Int) (seekto : AesdSeekto) : Answer :=
  if log.commands.length = 0 then ⟨0, [], 0⟩
  else if seekto.writeCmd < log.commands.length ∧
      seekto.writeCmdOffset ≤ log.sizes.getD seekto.writeCmd 0 then
    ⟨0, [], int64 ((log.sizes.take seekto.writeCmd).sum + seekto.writeCmdOffset)⟩
  else ⟨-EINVAL, [], fPos⟩

def ioctl (log : CommandLog) (interrupted : Bool) (fPos : Int) (cmd : Nat)
    (arg : Option AesdSeekto) : Answer :=
  if cmd = AESDCHAR_IOCSEEKTO then
    match arg with
    | none => ⟨EFAULT, [], fPos⟩
    | some seekto => if interrupted then ⟨-ERESTARTSYS, [], fPos⟩ else log.adjust fPos seekto
  else ⟨-1, [], fPos⟩

/-- One call, whichever it is. -/
def perform (fixedSizeLlseek : LlseekFn) (log : CommandLog) (fPos : Int) :
    FileOp → CommandLog × Answer
  | .write buf env => log.write buf env fPos
  | .read _ env => (log, log.read env fPos)
  | .llseek interrupted offset whence =>
      (log, log.llseek fixedSizeLlseek interrupted fPos offset whence)
  | .ioctl interrupted cmd arg => (log, log.ioctl interrupted fPos cmd arg)

end CommandLog

/-! ## The walks of the ring, on sizes -/

theorem foldVisit_lookup (b : AesdCircularBuffer) (is : List Nat) (charPos : Int) :
    foldVisit (findVisit b) (fun _ => none) is charPos =
      some ((CommandLog.lookup (is.map fun i => (b.slot i).size) charPos).map
        fun r => (is.getD r.1 0, r.2)) := by
  induction is generalizing charPos with
  | nil => rfl
  | cons i is ih =>
      rw [foldVisit, findVisit, List.map_cons, CommandLog.lookup]
      by_cases hlt : sizeT charPos < (b.slot i).size
      · rw [if_pos hlt, if_pos hlt]
        rfl
      · rw [if_neg hlt, if_neg hlt]
        simp only
        rw [ih, Option.map_map]
        rfl

theorem lookup_bounds {sizes : List Nat} {charPos : Int} {k o : Nat}
    (h : CommandLog.lookup sizes charPos = some (k, o)) :
    k < sizes.length ∧ o < sizes.getD k 0 := by
  induction sizes generalizing charPos k o with
  | nil => exact absurd h (by simp [CommandLog.lookup])
  | cons size sizes ih =>
      rw [CommandLog.lookup] at h
      split at h
      · rename_i hlt
        rw [Option.some.injEq, Prod.mk.injEq] at h
        rw [← h.1, ← h.2]
        exact ⟨Nat.succ_pos _, hlt⟩
      · obtain ⟨⟨k', o'⟩, hk, he⟩ := Option.map_eq_some_iff.mp h
        simp only [Prod.mk.injEq] at he
        rw [← he.1, ← he.2, List.length_cons, List.getD_cons_succ]
        exact ⟨Nat.succ_lt_succ (ih hk).1, (ih hk).2⟩

/-- The lookup for any position at all. -/
theorem find_eq_lookup {b : AesdCircularBuffer} (h : RingInv b) (fPos : Int) :
    aesdCircularBufferFindEntryOffsetForFpos b (sizeT fPos) =
      some ((CommandLog.lookup b.sizes (int32 fPos)).map fun r => (b.slotOf r.1, r.2)) := by
  rw [find_sizeT b h, foldVisit_lookup, map_size_slots]
  congr 1
  cases hl : CommandLog.lookup b.sizes (int32 fPos) with
  | none => rfl
  | some r =>
      have hk := (lookup_bounds (k := r.1) (o := r.2) hl).1
      rw [length_sizes] at hk
      rw [Option.map_some, Option.map_some, getD_slots b _ hk, slotOf]

/-! ## The driver's calls, one at a time -/

namespace CommandLog

/-- No command reaches 2^31 bytes. -/
def Short (log : CommandLog) : Prop := ∀ c ∈ log.commands, c.length < 2 ^ 31

theorem Short.getD {log : CommandLog} (h : log.Short) (k : Nat) :
    (log.commands.getD k []).length < 2 ^ 31 := by
  by_cases hk : k < log.commands.length
  · rw [List.getD_eq_getElem _ _ hk]
    exact h _ (List.getElem_mem hk)
  · rw [List.getD_eq_default _ _ (Nat.le_of_not_lt hk), List.length_nil]
    decide

theorem Short.accept {log : CommandLog} (h : log.Short) {chunk : List UInt8}
    (hlen : (log.extended chunk).length < 2 ^ 31) : (log.accept chunk).Short := by
  by_cases hn : NEWLINE ∈ chunk
  · rw [accept_of_mem hn]
    intro c hc
    rcases List.mem_append.mp ((Circular.rtake_suffix _ _).subset hc) with hold | hnew
    · exact h c hold
    · rwa [List.mem_singleton.mp hnew]
  · rw [accept_of_not_mem hn]
    exact h

end CommandLog

namespace Holds

variable {s : Driver} {log : CommandLog}

theorem find_eq (h : Holds s log) (fPos : Int) :
    aesdCircularBufferFindEntryOffsetForFpos s.dev.buffer (sizeT fPos) =
      some ((CommandLog.lookup log.sizes (int32 fPos)).map fun r =>
        (s.dev.buffer.slotOf r.1, r.2)) := by
  rw [find_eq_lookup h.ring, h.sizes_eq]
  rfl

/-- The bytes a read copies out: the rest of the command found. -/
theorem copy_eq (h : Holds s log) (hs : log.Short) {charPos : Int} {k o : Nat}
    (hl : CommandLog.lookup log.sizes charPos = some (k, o)) (stale : Nat → UInt8) :
    let entry := s.dev.buffer.slot (s.dev.buffer.slotOf k)
    let data := (log.commands.getD k []).drop o
    sizeT (entry.size - o) = data.length ∧
      s.heap.read entry.buffptr o data.length stale = data ∧
      s.heap.InBounds entry.buffptr o data.length := by
  obtain ⟨hk, ho⟩ := lookup_bounds hl
  rw [CommandLog.sizes, List.length_map] at hk
  have hsmall := hs.getD k
  obtain ⟨hload, hsize⟩ := h.slot_load hk
  have hget : log.commands.getD k [] = log.commands[k] := List.getD_eq_getElem _ _ hk
  have hlen : ((log.commands.getD k []).drop o).length = log.commands[k].length - o := by
    rw [hget, List.length_drop]
  rw [CommandLog.sizes, List.getD_eq_getElem _ _ (by rwa [List.length_map]),
    List.getElem_map] at ho
  rw [hget] at hsmall
  refine ⟨?_, ?_, ?_⟩
  · rw [hsize, hlen, ← Int.ofNat_sub ho.le]
    exact sizeT_natCast _ (by omega)
  · rw [read_of_load hload _ _ _ (by rw [hlen]; omega), hget, List.take_length]
  · exact ⟨_, hload, by rw [hlen]; omega⟩

theorem adjust_eq (h : Holds s log) (fPos : Int) (seekto : AesdSeekto) :
    aesdAdjustFileOffset s.dev.buffer fPos seekto.writeCmd seekto.writeCmdOffset =
      some ((log.adjust fPos seekto).ret, (log.adjust fPos seekto).fPos) := by
  have hsizes : s.dev.buffer.sizes = log.sizes := h.sizes_eq
  rw [adjust_eq_int64 h.ring, hsizes, h.count_eq, CommandLog.adjust]
  by_cases hnil : log.commands.length = 0
  · rw [if_pos hnil, if_pos hnil]
  · rw [if_neg hnil, if_neg hnil]
    by_cases hin : seekto.writeCmd < log.commands.length ∧
        seekto.writeCmdOffset ≤ log.sizes.getD seekto.writeCmd 0
    · rw [if_pos hin, if_pos hin]
    · rw [if_neg hin, if_neg hin]

end Holds

end AesdChar
