import AesdChar.CallsReturn
import AesdChar.SharedReplies
import AesdChar.Lib.Endless
import AesdChar.LookupRange

/-!
# Every reply ends

While one connection is sent its reply the others may go on writing, and there is more to send.  But
the device never holds more than ten packets, and each read that delivers something moves the
position on: the loop gets to the end of the data, whatever the others do, as long as its thread
gets turns it can use and its reads are not interrupted.
-/

namespace AesdChar

open CInt

/-! ## The position moves on -/

/-- The bytes between the position and the most that the device can hold. -/
def ahead (fPos : Int) : Nat := 10 * MAX_BUF_SIZE - uint32 fPos

theorem uint32_lt (i : Int) : uint32 i < 2 ^ 32 := by
  unfold uint32 toUnsigned
  omega

theorem modEq_uint32 (i : Int) : i ≡ uint32 i [ZMOD 4294967296] := by
  have hnat : ((uint32 i : Nat) : Int) = i % 4294967296 := by
    unfold uint32 toUnsigned
    omega
  rw [hnat]
  exact (Int.mod_modEq i 4294967296).symm

theorem ahead_le (fPos : Int) : ahead fPos ≤ 10 * MAX_BUF_SIZE := Nat.sub_le _ _

namespace Holds

variable {s : Driver} {log : CommandLog}

/-- What is found at a position lies in front of the end of the data, also where the position does
not fit an `int`. -/
theorem near_of_lookup (h : Holds s log) {fPos : Int} {r : Nat × Nat}
    (hl : CommandLog.lookup log.sizes (int32 fPos) = some r) :
    uint32 fPos < log.contents.length := by
  by_contra hpast
  -- `find_entry` sees the position modulo 2 ^ 32, and finds nothing behind the end
  rw [Nat.not_lt, ← h.totalSize_eq] at hpast
  have hmod : sizeT fPos % 2 ^ 32 = uint32 fPos := by
    have hsize := uint32_of_modEq (sizeT_modEq fPos).symm
    exact hsize.symm
  have hfind := h.find_eq fPos
  rw [find_mod, hmod, find_past h.ring (uint32_lt fPos) hpast, hl] at hfind
  exact absurd (Option.some.inj hfind) (by simp)

/-- A read that finds something moves on. -/
theorem ahead_lt (h : Holds s log) (hsmall : log.Small) (hten : log.commands.length ≤ 10)
    {fPos : Int} {k o : Nat} (hl : CommandLog.lookup log.sizes (int32 fPos) = some (k, o)) :
    ahead (int64 (fPos + ((log.commands.getD k []).drop o).length)) < ahead fPos := by
  have hnear := h.near_of_lookup hl
  have hmax := CommandLog.contents_length_le hsmall hten
  have hp := modEq_uint32 fPos
  generalize hq : uint32 fPos = p at hnear hp
  unfold MAX_BUF_SIZE at hmax
  have hint : int32 fPos = p := by
    rw [int32_of_modEq hp]
    exact int32_natCast p (by omega)
  rw [hint, CommandLog.lookup_eq_locate _ (by omega)] at hl
  obtain ⟨hk, ho, hsum⟩ := (Segments.locate_some_iff _ _ _ _).mp hl
  have hsize : (log.commands.getD k []).length = log.sizes.getD k 0 := by
    rw [CommandLog.sizes, List.length_map] at hk
    rw [CommandLog.sizes, List.getD_eq_getElem _ _ hk,
      List.getD_eq_getElem _ _ (by rwa [List.length_map]), List.getElem_map]
  -- up to the end of the command that was found
  have hend : p + ((log.commands.getD k []).drop o).length ≤ log.contents.length := by
    have hnext := Segments.sum_take_succ_getD log.sizes k
    have hle := Segments.sum_take_le log.sizes (k + 1)
    rw [CommandLog.contents, List.length_flatten, List.length_drop, hsize]
    change _ ≤ log.sizes.sum
    omega
  have hpos : 0 < ((log.commands.getD k []).drop o).length := by
    rw [List.length_drop, hsize]
    omega
  have hnew : uint32 (int64 (fPos + ((log.commands.getD k []).drop o).length)) =
      p + ((log.commands.getD k []).drop o).length := by
    rw [uint32_of_modEq (n := p + ((log.commands.getD k []).drop o).length), Nat.mod_eq_of_lt]
    · omega
    · -- an `f_pos` that overflows keeps its residue
      have hwide : int64 (fPos + ((log.commands.getD k []).drop o).length) ≡
          fPos + ((log.commands.getD k []).drop o).length [ZMOD 4294967296] :=
        (Int.ModEq.of_dvd (by decide) (toSigned_emod 18446744073709551616 _))
      rw [Int.natCast_add]
      exact hwide.trans (hp.add_right _)
  rw [ahead, ahead, hnew, hq]
  unfold MAX_BUF_SIZE
  omega

end Holds

/-! ## What a call has left -/

/-- The statements that a thread at a call on the device has yet to run, with the one that begins
the call. -/
def CallPc.left : CallPc → Nat
  | .idle => 9
  | pc => pc.remaining

/-- A statement of `aesd_read`, or none. -/
def CallPc.ofRead : CallPc → Bool
  | .idle => true
  | .lockRead _ => true
  | .findEntry _ => true
  | .copyToUser _ _ _ => true
  | .unlockRead _ _ _ => true
  | .printEntry _ _ _ => true
  | .printString _ _ _ => true
  | .unlock _ _ => true
  | .returning _ _ => true
  | _ => false

/-- It is settled that the call will not return 0. -/
def CallPc.brings : CallPc → Bool
  | .lockRead env => env.interrupted
  | .unlockRead _ ret _ => decide (ret ≠ 0)
  | .printEntry _ ret _ => decide (ret ≠ 0)
  | .printString _ ret _ => decide (ret ≠ 0)
  | .unlock ret _ => decide (ret ≠ 0)
  | .returning ret _ => decide (ret ≠ 0)
  | _ => false

/-- The turns that the loop needs from a statement of its read on, at most: another round for each
byte that can still come. -/
def readLeft (pc : CallPc) (fPos : Int) : Nat :=
  20 * ahead fPos + (if pc.brings then 10 else 0) + pc.left + 1

/-- More than the loop ever needs. -/
def FULL_LOOP : Nat := 20 * (10 * MAX_BUF_SIZE) + 20

/-- The turns that a thread needs to be through with what it was handed, at most. -/
def replyLeft (t : ChatThread) (pc : CallPc) (fPos : Int) : Nat :=
  match t.pc with
  | .arg1 _ => 2 * FULL_LOOP + 2
  | .arg2 _ _ => 2 * FULL_LOOP + 1
  | .arg3 _ _ _ => 2 * FULL_LOOP
  | .write _ => 2 * FULL_LOOP + pc.left
  | .lseek _ => FULL_LOOP + pc.left
  | .ioctl _ _ => FULL_LOOP + pc.left
  | .read _ _ => readLeft pc fPos
  | .send _ _ ret _ => 20 * ahead fPos + (if int32 ret = 0 then 1 else 11)
  | _ => 0

/-- The thread has been handed a packet or a command and is not through with it. -/
def ChatPc.replying : ChatPc → Bool
  | .arg1 _ => true
  | .arg2 _ _ => true
  | .arg3 _ _ _ => true
  | .write _ => true
  | .lseek _ => true
  | .ioctl _ _ => true
  | .read _ _ => true
  | .send _ _ _ _ => true
  | _ => false

theorem left_pos (pc : CallPc) : 0 < pc.left := by
  cases pc <;> simp [CallPc.left, CallPc.remaining]

theorem left_entry (op : FileOp) : op.entry.left < CallPc.left .idle := by
  cases op with
  | write buf env => simp [FileOp.entry, CallPc.left, CallPc.remaining]
  | read count env => simp [FileOp.entry, CallPc.left, CallPc.remaining]
  | llseek interrupted offset whence =>
      rw [FileOp.entry]
      split <;> simp [CallPc.left, CallPc.remaining]
  | ioctl interrupted cmd arg =>
      rw [FileOp.entry.eq_def]
      dsimp only
      split
      · split <;> simp [CallPc.left, CallPc.remaining]
      · simp [CallPc.left, CallPc.remaining]

theorem readLeft_idle_lt (fPos : Int) : readLeft .idle fPos < FULL_LOOP := by
  have hle := ahead_le fPos
  simp only [readLeft, CallPc.brings, CallPc.left, FULL_LOOP, Bool.false_eq_true, if_false]
  omega

section

variable {t : ChatThread}

/-! ### A call begins, and returns -/

theorem asked_read {op : FileOp} (hasks : t.asks op = true) {n : Nat} {serving : Serving}
    (hpc : t.pc = .read n serving) : ∃ count env, op = .read count env := by
  cases op with
  | read count env => exact ⟨count, env, rfl⟩
  | _ => simp [ChatThread.asks, hpc] at hasks

theorem ofRead_entry {op : FileOp} (hasks : t.asks op = true) {n : Nat} {serving : Serving}
    (hpc : t.pc = .read n serving) : op.entry.ofRead = true := by
  obtain ⟨count, env, rfl⟩ := asked_read hasks hpc
  rfl

theorem replyLeft_called {op : FileOp} (hasks : t.asks op = true)
    (hcalm : ∀ count env, op = .read count env → env.interrupted = false) (fPos : Int) :
    replyLeft t op.entry fPos < replyLeft t .idle fPos := by
  have hentry := left_entry op
  cases hpc : t.pc with
  | read n serving =>
      obtain ⟨count, env, rfl⟩ := asked_read hasks hpc
      have hno := hcalm count env rfl
      simp only [replyLeft, hpc, readLeft, FileOp.entry, CallPc.brings, hno, Bool.false_eq_true,
        if_false]
      exact Nat.add_lt_add_right (Nat.add_lt_add_left hentry _) 1
  | write n =>
      simp only [replyLeft, hpc, Nat.add_lt_add_iff_left, hentry]
  | lseek n =>
      simp only [replyLeft, hpc, Nat.add_lt_add_iff_left, hentry]
  | ioctl n seekto =>
      simp only [replyLeft, hpc, Nat.add_lt_add_iff_left, hentry]
  | _ => simp [ChatThread.asks, hpc] at hasks

theorem replyLeft_answer (hdevice : t.pc.onDevice = true) (ret : Int) (data : List UInt8)
    (fPos : Int) :
    replyLeft (t.answer ret data) .idle fPos < replyLeft t (.returning ret data) fPos := by
  have hread := readLeft_idle_lt fPos
  have hleft := left_pos (.returning ret data)
  have hidle : CallPc.left .idle < FULL_LOOP := by decide
  cases hpc : t.pc with
  | write n =>
      simp only [ChatThread.answer, hpc, replyLeft]
      omega
  | lseek n =>
      simp only [ChatThread.answer, hpc, replyLeft]
      omega
  | ioctl n seekto =>
      simp only [ChatThread.answer, hpc]
      split
      · simp only [replyLeft, hpc]
        omega
      · simp only [replyLeft, hpc]
        omega
  | read n serving =>
      simp only [ChatThread.answer, hpc, replyLeft, readLeft, CallPc.brings, CallPc.left,
        CallPc.remaining]
      by_cases hzero : ret = 0
      · -- nothing more to read: the round that is left ends the loop
        rw [hzero, if_pos (show int32 (sysRet 0) = 0 by decide)]
        simp
      · simp only [hzero, ne_eq, not_false_eq_true, decide_true, if_true]
        split <;> omega
  | _ => simp [ChatPc.onDevice, hpc] at hdevice

/-- The round is sent. -/
theorem replyLeft_send {n : Nat} {serving : Serving} {ret : Int} {data : List UInt8}
    (hpc : t.pc = .send n serving ret data) (env : ChatStep) (fPos : Int) :
    replyLeft (t.own env) .idle fPos < replyLeft t .idle fPos := by
  simp only [ChatThread.own, hpc]
  by_cases hzero : int32 ret = 0
  · rw [replyRound_zero hzero]
    simp [replyLeft, hpc, hzero]
  · by_cases hall : sendRet env.room (int32 ret) = int32 ret
    · rw [replyRound_next rfl hzero data hall]
      simp only [replyLeft, hpc, readLeft, CallPc.brings, CallPc.left, if_neg hzero,
        Bool.false_eq_true, if_false]
      omega
    · rw [replyRound_short rfl hzero data hall]
      by_cases hfailed : serving.failed = 0
      · simp [replyLeft, hpc, hzero, hfailed]
      · simp [replyLeft, hpc, hzero, hfailed]

/-- `strtok` is called, and behind its third call it is settled whether there is a request. -/
theorem replyLeft_token (hpc : t.pc.tokenizes = true) (env : ChatStep) (pos : Nat) (fPos : Int) :
    replyLeft (t.token env pos) .idle fPos < replyLeft t .idle fPos := by
  have hidle : CallPc.left .idle < FULL_LOOP := by decide
  unfold ChatThread.token
  generalize t.strtok env pos = r
  cases hc : t.pc with
  | arg1 n =>
      simp only [ChatThread.took, ChatThread.cut, hc, replyLeft]
      omega
  | arg2 n arg1 =>
      simp only [ChatThread.took, ChatThread.cut, hc, replyLeft]
      omega
  | arg3 n arg1 arg2 =>
      simp only [ChatThread.took, ChatThread.cut, hc]
      split
      · simp only [replyLeft, hc]
        omega
      · simp only [replyLeft, hc]
        omega
  | _ => simp [hc, ChatPc.tokenizes] at hpc

/-- What the threads are marked with is not looked at. -/
theorem replyLeft_mark (t : ChatThread) (taken : Nat) (pc : CallPc) (fPos : Int) :
    replyLeft (t.mark taken) pc fPos = replyLeft t pc fPos := by
  rcases t.mark_eq taken with heq | heq | heq <;> rw [heq] <;> rfl

theorem pc_mark (t : ChatThread) (taken : Nat) : (t.mark taken).pc = t.pc := by
  rcases t.mark_eq taken with heq | heq | heq <;> rw [heq]

end

/-! ### In the middle of a call -/

section

variable {ι : Type} [DecidableEq ι] {fixedSizeLlseek : LlseekFn} {k : Kernel ι} {a : AtomicLog ι}
  {t : KernelTurn ι}

/-- The turn finds its thread at the lock, and the lock with another. -/
def Kernel.Blocks (k : Kernel ι) (i : ι) : Prop := (k.pc i).atLock = true ∧ k.holder ≠ none

instance (k : Kernel ι) (i : ι) : Decidable (k.Blocks i) := inferInstanceAs (Decidable (_ ∧ _))

theorem acquire_busy (hbusy : k.holder ≠ none) (i : ι) (interrupted : Bool)
    (failed acquired : CallPc) :
    k.acquire i interrupted failed acquired = if interrupted then k.goto i failed else k := by
  rw [Kernel.acquire, if_neg hbusy]

omit [DecidableEq ι] in
theorem InStep.sound (h : InStep fixedSizeLlseek k a) : k.Sound := ⟨h.mutex, h.holds.ring⟩

/-- Only the return ends a call. -/
theorem busy_step (hpc : k.pc t.thread ≠ .idle)
    (hret : ∀ ret data, k.pc t.thread ≠ .returning ret data) :
    (k.step fixedSizeLlseek t).pc t.thread ≠ .idle := by
  have hacquires : ∀ (interrupted : Bool) (failed acquired : CallPc), failed ≠ .idle →
      acquired ≠ .idle →
      (k.acquire t.thread interrupted failed acquired).pc t.thread ≠ .idle := by
    intro interrupted failed acquired hfailed hacquired
    unfold Kernel.acquire
    split
    · simpa using hfailed
    · split
      · simpa using hacquired
      · exact hpc
  cases hc : k.pc t.thread with
  | idle => exact absurd hc hpc
  | returning ret data => exact absurd hc (hret ret data)
  | lockComplete buf env buffptr =>
      simp only [Kernel.step, hc]
      exact hacquires _ _ _ (by simp) (by simp)
  | lockPartial buf env buffptr =>
      simp only [Kernel.step, hc]
      exact hacquires _ _ _ (by simp) (by simp)
  | lockRead env =>
      simp only [Kernel.step, hc]
      exact hacquires _ _ _ (by simp) (by simp)
  | lockLlseek interrupted offset whence =>
      simp only [Kernel.step, hc]
      exact hacquires _ _ _ (by simp) (by simp)
  | lockIoctl interrupted seekto =>
      simp only [Kernel.step, hc]
      exact hacquires _ _ _ (by simp) (by simp)
  | kmalloc buf env =>
      simp only [Kernel.step, hc]
      split <;> simp
  | copyFromUser buf env buffptr =>
      simp only [Kernel.step, hc]
      split <;> simp
  | takePartial buf env buffptr =>
      simp only [Kernel.step, hc]
      split <;> simp
  | findEntry env =>
      simp only [Kernel.step, hc]
      split
      · exact hpc
      · simp
      · simp
  | copyToUser env rdEntry relativePos =>
      simp only [Kernel.step, hc]
      split <;> simp
  | adjustOffset seekto =>
      simp only [Kernel.step, hc]
      split
      · exact hpc
      · simp
  | _ => simp [Kernel.step, hc]

/-- A call gets nearer to its return, or waits. -/
theorem InStep.left_or_blocks (h : InStep fixedSizeLlseek k a) (hpc : k.pc t.thread ≠ .idle)
    (hret : ∀ ret data, k.pc t.thread ≠ .returning ret data) :
    ((k.step fixedSizeLlseek t).pc t.thread).left < (k.pc t.thread).left ∨
      (k.step fixedSizeLlseek t = k ∧ k.Blocks t.thread) := by
  have hleft : ∀ {pc : CallPc}, pc ≠ .idle → pc.left = pc.remaining := by
    intro pc hne
    cases pc <;> first | rfl | exact absurd rfl hne
  rw [hleft hpc, hleft (busy_step hpc hret)]
  by_cases hlock : (k.pc t.thread).atLock = true → k.holder = none
  · exact Or.inl (h.sound.nearer hpc hlock)
  · obtain ⟨hat, hbusy⟩ := Classical.not_imp.mp hlock
    have hblocks : ∀ {interrupted : Bool} {failed acquired : CallPc} {n : Nat},
        failed.remaining < n →
        ((k.acquire t.thread interrupted failed acquired).pc t.thread).remaining < n ∨
          (k.acquire t.thread interrupted failed acquired = k ∧ k.Blocks t.thread) := by
      intro interrupted failed acquired n hfailed
      rw [acquire_busy hbusy]
      cases interrupted with
      | true =>
          apply Or.inl
          simpa using hfailed
      | false => exact Or.inr ⟨rfl, hat, hbusy⟩
    cases hc : k.pc t.thread with
    | lockComplete buf env buffptr =>
        simp only [Kernel.step, hc]
        exact hblocks (by simp [CallPc.remaining])
    | lockPartial buf env buffptr =>
        simp only [Kernel.step, hc]
        exact hblocks (by simp [CallPc.remaining])
    | lockRead env =>
        simp only [Kernel.step, hc]
        exact hblocks (by simp [CallPc.remaining])
    | lockLlseek interrupted offset whence =>
        simp only [Kernel.step, hc]
        exact hblocks (by simp [CallPc.remaining])
    | lockIoctl interrupted seekto =>
        simp only [Kernel.step, hc]
        exact hblocks (by simp [CallPc.remaining])
    | _ => simp [hc, CallPc.atLock] at hat

/-- So does a read, with what it has yet to bring. -/
theorem InStep.readLeft_or_blocks (h : InStep fixedSizeLlseek k a) (hsmall : a.log.Small)
    (hten : a.log.commands.length ≤ 10) (hread : (k.pc t.thread).ofRead = true)
    (hpc : k.pc t.thread ≠ .idle) (hret : ∀ ret data, k.pc t.thread ≠ .returning ret data) :
    ((k.step fixedSizeLlseek t).pc t.thread).ofRead = true ∧
      (readLeft ((k.step fixedSizeLlseek t).pc t.thread)
          ((k.step fixedSizeLlseek t).fPos t.thread) <
            readLeft (k.pc t.thread) (k.fPos t.thread) ∨
        (k.step fixedSizeLlseek t = k ∧ k.Blocks t.thread)) := by
  cases hc : k.pc t.thread with
  | idle => exact absurd hc hpc
  | returning ret data => exact absurd hc (hret ret data)
  | lockRead env =>
      simp only [Kernel.step, hc]
      cases hint : env.interrupted with
      | true =>
          simp [Kernel.acquire, CallPc.ofRead, readLeft, CallPc.brings, CallPc.left,
            CallPc.remaining, hint, ERESTARTSYS]
      | false =>
          by_cases hfree : k.holder = none
          · rw [Kernel.acquire_free k t.thread hfree]
            simp [CallPc.ofRead, readLeft, CallPc.brings, CallPc.left, CallPc.remaining, hint]
          · rw [acquire_busy hfree, if_neg Bool.false_ne_true, hc]
            refine ⟨rfl, Or.inr ⟨rfl, ?_, hfree⟩⟩
            rw [hc]
            rfl
  | findEntry env =>
      have hholds : Holds k.driver a.log := h.holds_at hc rfl
      simp only [Kernel.step, hc, hholds.find_eq]
      cases CommandLog.lookup a.log.sizes (int32 (k.fPos t.thread)) with
      | none =>
          simp [CallPc.ofRead, readLeft, CallPc.brings, CallPc.left, CallPc.remaining]
      | some r =>
          simp [CallPc.ofRead, readLeft, CallPc.brings, CallPc.left, CallPc.remaining]
  | copyToUser env rdEntry relativePos =>
      obtain ⟨_, _, hfound⟩ := h.matches_at hc
      have hholds : Holds k.driver a.log := h.holds_at hc rfl
      rw [hholds.find_eq, Option.some.injEq] at hfound
      obtain ⟨⟨j, o⟩, hl, heq⟩ := Option.map_eq_some_iff.mp hfound
      obtain ⟨rfl, rfl⟩ := Prod.mk.inj heq
      obtain ⟨hn, _, _⟩ := hholds.copy_eq h.short hl env.stale
      have hlen : ((a.log.commands.getD j []).drop o).length < 2 ^ 63 := by
        have hshort := h.short.getD j
        rw [List.length_drop]
        omega
      -- what was found moves the position on
      have hahead := hholds.ahead_lt hsmall hten hl
      simp only [Kernel.step, hc, hn, int64_natCast _ hlen]
      by_cases hcopied : env.notCopied = 0
      · -- the 20 turns that the byte was counted for pay for the next round
        rw [if_pos hcopied]
        refine ⟨by simp [CallPc.ofRead], Or.inl ?_⟩
        simp only [readLeft, Kernel.goto_pc, Kernel.goto_fPos, Kernel.setFPos_fPos,
          Kernel.setHeap_fPos, Function.update_self, CallPc.brings, CallPc.left, CallPc.remaining,
          Bool.false_eq_true, if_false]
        split <;> omega
      · rw [if_neg hcopied]
        simp [CallPc.ofRead, readLeft, CallPc.brings, CallPc.left, CallPc.remaining]
  | unlockRead rdEntry ret data =>
      simp [Kernel.step, hc, CallPc.ofRead, readLeft, CallPc.brings, CallPc.left, CallPc.remaining]
  | printEntry rdEntry ret data =>
      simp [Kernel.step, hc, CallPc.ofRead, readLeft, CallPc.brings, CallPc.left, CallPc.remaining]
  | printString buffptr ret data =>
      simp [Kernel.step, hc, CallPc.ofRead, readLeft, CallPc.brings, CallPc.left, CallPc.remaining]
  | unlock ret data =>
      simp [Kernel.step, hc, CallPc.ofRead, readLeft, CallPc.brings, CallPc.left, CallPc.remaining]
  | _ => simp [hc, CallPc.ofRead] at hread

omit [DecidableEq ι] in
/-- Between its calls on the log a thread is in none of the driver's. -/
theorem InStep.idle_of (h : InStep fixedSizeLlseek k a) {i : ι} (hu : (a.threads i).pc = .idle) :
    k.pc i = .idle := by
  have hmatch := h.threads i
  generalize a.threads i = u at hmatch hu
  cases hpc : k.pc i with
  | idle => rfl
  | copyToUser env rdEntry relativePos =>
      rw [hpc] at hmatch
      obtain ⟨_, ⟨_, rfl⟩, _⟩ := hmatch
      exact absurd hu (by simp)
  | findEntry env =>
      rw [hpc] at hmatch
      obtain ⟨_, _, rfl⟩ := hmatch
      exact absurd hu (by simp)
  | lockRead env =>
      rw [hpc] at hmatch
      obtain ⟨_, rfl⟩ := hmatch
      exact absurd hu (by simp)
  | _ =>
      rw [hpc] at hmatch
      simp [Matches] at hmatch
      simp [hmatch] at hu

end

/-! ## The threads take their turns -/

section

variable {ι : Type} [DecidableEq ι] {fixedSizeLlseek : LlseekFn}

/-- A turn that lets thread `i` go on with its reply: one of its own when it is not at the device,
one with the call it is about to make, or the next statement of the call, unless it has to wait. -/
def SharedDevice.Lets (s : SharedDevice ι) (i : ι) : (ι × ChatStep) ⊕ KernelTurn ι → Prop
  | .inl (j, _) => j = i ∧ (s.1.thread i).pc.onDevice = false
  | .inr t => t.thread = i ∧ (s.1.thread i).pc.onDevice = true ∧
      (s.2.pc i = .idle → (s.1.thread i).asks t.op = true) ∧ ¬ s.2.Blocks i

/-- A read of thread `i` that the turn begins is not interrupted. -/
def CalmFor (i : ι) : (ι × ChatStep) ⊕ KernelTurn ι → Prop
  | .inr ⟨j, .read _ env⟩ => j = i → env.interrupted = false
  | _ => True

instance (pc : CallPc) : Decidable (pc = .idle) := decidable_of_iff _ remaining_eq_zero

instance (s : SharedDevice ι) (i : ι) : (turn : _) → Decidable (s.Lets i turn)
  | .inl (_, _) => inferInstanceAs (Decidable (_ ∧ _))
  | .inr _ => inferInstanceAs (Decidable (_ ∧ _))

instance (i : ι) : (turn : (ι × ChatStep) ⊕ KernelTurn ι) → Decidable (CalmFor i turn)
  | .inr ⟨j, .read _ env⟩ => inferInstanceAs (Decidable (j = i → env.interrupted = false))
  | .inr ⟨_, .write _ _⟩ | .inr ⟨_, .llseek _ _ _⟩ | .inr ⟨_, .ioctl _ _ _⟩ | .inl _ =>
      inferInstanceAs (Decidable True)

/-- What thread `i` has left to do. -/
def SharedDevice.left (s : SharedDevice ι) (i : ι) : Nat :=
  replyLeft (s.1.thread i) (s.2.pc i) (s.2.fPos i)

/-- The history explains the threads, and a thread at a read runs the statements of one. -/
structure Served (fixedSizeLlseek : LlseekFn) (i : ι) (s : SharedDevice ι) : Prop where
  recorded : ∃ a, InStep fixedSizeLlseek s.2 a ∧ Recorded s.1 a
  reads : ∀ n serving, (s.1.thread i).pc = .read n serving → (s.2.pc i).ofRead = true

/-- The turn brings thread `i` nearer to the end of its reply, or it was none for it. -/
structure Nearer (i : ι) (s s' : SharedDevice ι) (turn : (ι × ChatStep) ⊕ KernelTurn ι) : Prop where
  reads : ∀ n serving, (s'.1.thread i).pc = .read n serving → (s'.2.pc i).ofRead = true
  left : CalmFor i turn → (s.1.thread i).pc.replying = true →
    s'.left i < s.left i ∨ (s'.left i = s.left i ∧ ¬ s.Lets i turn)

variable {i : ι} {s : SharedDevice ι}

/-- A turn that leaves the thread where it is. -/
theorem Served.stays (h : Served fixedSizeLlseek i s) {s' : SharedDevice ι}
    {turn : (ι × ChatStep) ⊕ KernelTurn ι} (hthread : s'.1.thread i = s.1.thread i)
    (hpc : s'.2.pc i = s.2.pc i) (hfPos : s'.2.fPos i = s.2.fPos i)
    (hlets : (s.1.thread i).pc.replying = true → ¬ s.Lets i turn) : Nearer i s s' turn := by
  refine ⟨?_, fun _ hr => Or.inr ⟨?_, hlets hr⟩⟩
  · rw [hthread, hpc]
    exact h.reads
  · rw [SharedDevice.left, SharedDevice.left, hthread, hpc, hfPos]

theorem Served.idle_of_own (h : Served fixedSizeLlseek i s)
    (hpc : (s.1.thread i).pc.onDevice = false) : s.2.pc i = .idle := by
  obtain ⟨a, hstep, hrec⟩ := h.recorded
  exact hstep.idle_of (hrec.idle_of_own hpc)

/-- A step of a thread that is not a call on the device. -/
theorem Served.own (h : Served fixedSizeLlseek i s) {j : ι} {env : ChatStep}
    (hharmless : s.1.Harmless j env) :
    Nearer i s (s.1.own j env, s.2) (.inl (j, env)) := by
  obtain ⟨t', strtok, heq, -, hcases⟩ := hharmless.own_moves
  rw [heq]
  by_cases hj : j = i
  · subst hj
    cases hpc : (s.1.thread j).pc.onDevice with
    | true =>
        -- in a call it waits for the driver, and the turn is not one that lets it go on
        have hsame : t' = s.1.thread j := by
          rcases hcases with ⟨-, rfl⟩ | ⟨htok, -⟩
          · exact ChatThread.own_of_onDevice hpc env
          · rw [ChatPc.onDevice_of_tokenizes htok] at hpc
            exact absurd hpc (by decide)
        refine h.stays ?_ rfl rfl fun _ hlets => ?_
        · rw [hsame, Function.update_eq_self]
        · exact absurd (hpc.symm.trans hlets.2) (by decide)
    | false =>
        have hidle := h.idle_of_own hpc
        refine ⟨?_, fun _ hr => Or.inl ?_⟩
        · intro _ _ _
          show (s.2.pc j).ofRead = true
          rw [hidle]
          rfl
        · show replyLeft (Function.update s.1.thread j t' j) (s.2.pc j) (s.2.fPos j) <
            replyLeft (s.1.thread j) (s.2.pc j) (s.2.fPos j)
          rw [Function.update_self, hidle]
          rcases hcases with ⟨htok, rfl⟩ | ⟨htok, pos, rfl⟩
          · -- of the steps of its own only a send belongs to a reply
            cases hc : (s.1.thread j).pc with
            | send n serving ret data => exact replyLeft_send hc env _
            | receive => simp [hc, ChatPc.replying] at hr
            | scan n => simp [hc, ChatPc.replying] at hr
            | cleanup ret => simp [hc, ChatPc.replying] at hr
            | arg1 n => simp [hc, ChatPc.tokenizes] at htok
            | arg2 n arg1 => simp [hc, ChatPc.tokenizes] at htok
            | arg3 n arg1 arg2 => simp [hc, ChatPc.tokenizes] at htok
            | _ => simp [hc, ChatPc.onDevice] at hpc
          · exact replyLeft_token htok env pos _
  · exact h.stays (Function.update_of_ne (Ne.symm hj) _ _) rfl rfl fun _ hlets => hj hlets.1

omit [DecidableEq ι] in
/-- A statement of the driver is the beginning of a call, its return, its effect, or nothing to be
heard of. -/
theorem events_cases (k : Kernel ι) (t : KernelTurn ι) :
    (k.pc t.thread = .idle ∧ k.events t = [.seen (.called t.thread t.op)]) ∨
    (∃ ret data, k.pc t.thread = .returning ret data ∧
      k.events t = [.seen (.returned t.thread ret data (k.fPos t.thread))]) ∨
    (k.pc t.thread ≠ .idle ∧
      (k.events t = [] ∨ ∃ command, k.events t = [.effect t.thread command])) := by
  cases hpc : k.pc t.thread with
  | idle => exact Or.inl ⟨rfl, by simp only [Kernel.events, hpc]⟩
  | returning ret data =>
      exact Or.inr (Or.inl ⟨ret, data, rfl, by simp only [Kernel.events, hpc]⟩)
  | findEntry env =>
      refine Or.inr (Or.inr ⟨by simp, ?_⟩)
      simp only [Kernel.events, hpc]
      split
      · exact Or.inr ⟨none, rfl⟩
      · exact Or.inl rfl
  | _ => simp [Kernel.events, hpc]

theorem heard_effect {i : ι} {command : Option (List UInt8)} {c c' : Chats ι}
    (h : ([.effect i command] : List (DeviceEvent ι)).foldlM Chats.hear c = some c') :
    c'.thread = Function.update c.thread i ((c.thread i).mark c.stored.length) := by
  rw [← Option.some.inj h]

theorem heard_returned {i : ι} {ret fPos : Int} {data : List UInt8} {c c' : Chats ι}
    (h : ([.seen (.returned i ret data fPos)] : List (DeviceEvent ι)).foldlM Chats.hear c =
      some c') : c'.thread = Function.update c.thread i ((c.thread i).answer ret data) := by
  rw [← Option.some.inj h]

theorem heard_called {i : ι} {op : FileOp} {c c' : Chats ι}
    (h : ([.seen (.called i op)] : List (DeviceEvent ι)).foldlM Chats.hear c = some c') :
    (c.thread i).asks op = true ∧ c' = c := by
  simp only [List.foldlM_cons, List.foldlM_nil, Chats.hear] at h
  by_cases hasks : (c.thread i).asks op = true
  · rw [if_pos hasks] at h
    exact ⟨hasks, (Option.some.inj h).symm⟩
  · rw [if_neg hasks] at h
    exact absurd h (by simp)

/-- Only the thread that the turn is for hears of it. -/
theorem heard_other {k : Kernel ι} {t : KernelTurn ι} {c c' : Chats ι}
    (hheard : (k.events t).foldlM Chats.hear c = some c') (hi : i ≠ t.thread) :
    c'.thread i = c.thread i := by
  rcases events_cases k t with ⟨-, he⟩ | ⟨ret, data, -, he⟩ | ⟨-, he | ⟨command, he⟩⟩
  · rw [he] at hheard
    rw [(heard_called hheard).2]
  · rw [he] at hheard
    rw [heard_returned hheard, Function.update_of_ne hi]
  · rw [he] at hheard
    rw [← Option.some.inj hheard]
  · rw [he] at hheard
    rw [heard_effect hheard, Function.update_of_ne hi]

/-- In the middle of a call there is nothing to be heard but its effect. -/
theorem heard_mark {k : Kernel ι} {t : KernelTurn ι} {c c' : Chats ι}
    (hheard : (k.events t).foldlM Chats.hear c = some c') (hpc : k.pc t.thread ≠ .idle)
    (hret : ∀ ret data, k.pc t.thread ≠ .returning ret data) :
    c'.thread t.thread = c.thread t.thread ∨
      ∃ taken, c'.thread t.thread = (c.thread t.thread).mark taken := by
  rcases events_cases k t with ⟨hidle, -⟩ | ⟨ret, data, hreturning, -⟩ | ⟨-, he | ⟨command, he⟩⟩
  · exact absurd hidle hpc
  · exact absurd hreturning (hret ret data)
  · rw [he] at hheard
    rw [← Option.some.inj hheard]
    exact Or.inl rfl
  · rw [he] at hheard
    rw [heard_effect hheard, Function.update_self]
    exact Or.inr ⟨_, rfl⟩

/-- The call begins. -/
theorem Served.begins {t : KernelTurn ι} (ht : t.thread = i) {c : Chats ι}
    (hheard : (s.2.events t).foldlM Chats.hear s.1 = some c) (hidle : s.2.pc i = .idle) :
    Nearer i s (c, s.2.step fixedSizeLlseek t) (.inr t) := by
  subst ht
  have hevents : s.2.events t = [.seen (.called t.thread t.op)] := by
    simp only [Kernel.events, hidle]
  rw [hevents] at hheard
  obtain ⟨hasks, rfl⟩ := heard_called hheard
  have hpc' : (s.2.step fixedSizeLlseek t).pc t.thread = t.op.entry := by
    simp only [Kernel.step, hidle, Kernel.goto_pc, Function.update_self]
  have hfPos' : (s.2.step fixedSizeLlseek t).fPos = s.2.fPos := by
    simp only [Kernel.step, hidle, Kernel.goto_fPos]
  refine ⟨?_, fun hcalm _ => Or.inl ?_⟩
  · intro n serving hn
    rw [hpc']
    exact ofRead_entry hasks hn
  · rw [SharedDevice.left, SharedDevice.left, hpc', hfPos', hidle]
    apply replyLeft_called hasks
    intro count env hop
    obtain ⟨j, op⟩ := t
    obtain rfl : op = .read count env := hop
    exact hcalm rfl

/-- The call returns. -/
theorem Served.returns (h : Served fixedSizeLlseek i s) {t : KernelTurn ι} (ht : t.thread = i)
    {c : Chats ι} (hheard : (s.2.events t).foldlM Chats.hear s.1 = some c) {ret : Int}
    {data : List UInt8} (hpc : s.2.pc i = .returning ret data) :
    Nearer i s (c, s.2.step fixedSizeLlseek t) (.inr t) := by
  subst ht
  obtain ⟨a, hstep, hrec⟩ := h.recorded
  have hdevice : (s.1.thread t.thread).pc.onDevice = true := by
    have hu : a.threads t.thread = ⟨.done ret data, s.2.fPos t.thread⟩ := hstep.matches_at hpc
    have hcall := (hrec.threads t.thread).inCall
    rwa [hu] at hcall
  have hevents : s.2.events t = [.seen (.returned t.thread ret data (s.2.fPos t.thread))] := by
    simp only [Kernel.events, hpc]
  rw [hevents] at hheard
  have hself : c.thread t.thread = (s.1.thread t.thread).answer ret data := by
    rw [heard_returned hheard, Function.update_self]
  have hpc' : (s.2.step fixedSizeLlseek t).pc t.thread = .idle := by
    simp only [Kernel.step, hpc, Kernel.goto_pc, Function.update_self]
  have hfPos' : (s.2.step fixedSizeLlseek t).fPos = s.2.fPos := by
    simp only [Kernel.step, hpc, Kernel.goto_fPos]
  refine ⟨?_, fun _ _ => Or.inl ?_⟩
  · intro _ _ _
    rw [hpc']
    rfl
  · simp only [SharedDevice.left, hself, hpc', hfPos', hpc]
    exact replyLeft_answer hdevice ret data _

/-- The call goes on, or waits. -/
theorem Served.runs (h : Served fixedSizeLlseek i s) {t : KernelTurn ι} (ht : t.thread = i)
    {c : Chats ι} (hheard : (s.2.events t).foldlM Chats.hear s.1 = some c)
    (hpc : s.2.pc i ≠ .idle) (hret : ∀ ret data, s.2.pc i ≠ .returning ret data) :
    Nearer i s (c, s.2.step fixedSizeLlseek t) (.inr t) := by
  subst ht
  obtain ⟨a, hstep, hrec⟩ := h.recorded
  have hlog : a.log = heldAfter s.1.stored := hrec.log
  -- what the thread is marked with changes nothing here
  have hmark : (c.thread t.thread).pc = (s.1.thread t.thread).pc ∧ ∀ pc fPos,
      replyLeft (c.thread t.thread) pc fPos = replyLeft (s.1.thread t.thread) pc fPos := by
    rcases heard_mark hheard hpc hret with hsame | ⟨taken, hmarked⟩
    · rw [hsame]
      exact ⟨rfl, fun _ _ => rfl⟩
    · rw [hmarked]
      exact ⟨pc_mark _ taken, replyLeft_mark _ taken⟩
  have hblocked : s.2.step fixedSizeLlseek t = s.2 ∧ s.2.Blocks t.thread →
      Nearer t.thread s (c, s.2.step fixedSizeLlseek t) (.inr t) := by
    rintro ⟨hsame, hblocks⟩
    rw [hsame]
    refine ⟨fun n serving hn => ?_, fun _ _ => Or.inr ⟨?_, fun hlets => hlets.2.2.2 hblocks⟩⟩
    · rw [hmark.1] at hn
      exact h.reads n serving hn
    · exact hmark.2 _ _
  have hcall := hstep.left_or_blocks hpc hret
  cases hc : (s.1.thread t.thread).pc with
  | read n serving =>
      obtain ⟨hread, hleft⟩ := hstep.readLeft_or_blocks
        (by rw [hlog]; exact heldAfter_small hrec.packets)
        (by rw [hlog]; exact heldAfter_ten s.1.stored) (h.reads n serving hc) hpc hret
      refine hleft.elim (fun hlt => ⟨fun _ _ _ => hread, fun _ _ => Or.inl ?_⟩) hblocked
      simpa only [SharedDevice.left, replyLeft, hmark.1, hc] using hlt
  | write n =>
      refine hcall.elim (fun hlt => ⟨fun _ _ hn => ?_, fun _ _ => Or.inl ?_⟩) hblocked
      · simp [hmark.1, hc] at hn
      · simpa only [SharedDevice.left, replyLeft, hmark.1, hc, Nat.add_lt_add_iff_left] using hlt
  | lseek n =>
      refine hcall.elim (fun hlt => ⟨fun _ _ hn => ?_, fun _ _ => Or.inl ?_⟩) hblocked
      · simp [hmark.1, hc] at hn
      · simpa only [SharedDevice.left, replyLeft, hmark.1, hc, Nat.add_lt_add_iff_left] using hlt
  | ioctl n seekto =>
      refine hcall.elim (fun hlt => ⟨fun _ _ hn => ?_, fun _ _ => Or.inl ?_⟩) hblocked
      · simp [hmark.1, hc] at hn
      · simpa only [SharedDevice.left, replyLeft, hmark.1, hc, Nat.add_lt_add_iff_left] using hlt
  | _ => exact absurd (h.idle_of_own (by rw [hc]; rfl)) hpc

/-- A statement of the driver. -/
theorem Served.driver (h : Served fixedSizeLlseek i s) (t : KernelTurn ι) {c : Chats ι}
    (hheard : (s.2.events t).foldlM Chats.hear s.1 = some c) :
    Nearer i s (c, s.2.step fixedSizeLlseek t) (.inr t) := by
  by_cases ht : t.thread = i
  · -- the call begins, returns, or is in between
    by_cases hidle : s.2.pc i = .idle
    · exact Served.begins ht hheard hidle
    · by_cases hret : ∃ ret data, s.2.pc i = .returning ret data
      · obtain ⟨ret, data, hpc⟩ := hret
        exact h.returns ht hheard hpc
      · exact h.runs ht hheard hidle fun ret data hpc => hret ⟨ret, data, hpc⟩
  · obtain ⟨hpc, hfPos⟩ := Kernel.step_others fixedSizeLlseek s.2 t (Ne.symm ht)
    exact h.stays (heard_other hheard (Ne.symm ht)) hpc hfPos fun _ hlets => ht hlets.1

theorem Served.start (fixedSizeLlseek : LlseekFn) (i : ι) (pkt : ι → List UInt8) :
    Served fixedSizeLlseek i (SharedDevice.start pkt) where
  recorded := ⟨_, .start fixedSizeLlseek fun _ => 0, .start pkt fun _ => 0⟩
  reads := fun _ _ hn =>
    absurd hn (by simp [SharedDevice.start, Chats.start, ChatThread.start])

theorem Served.nearer (h : Served fixedSizeLlseek i s) {turn : (ι × ChatStep) ⊕ KernelTurn ι}
    (hharmless : s.Harmless turn) : Nearer i s (s.step fixedSizeLlseek turn) turn := by
  obtain ⟨c, k⟩ := s
  cases turn with
  | inl own => exact h.own hharmless
  | inr t =>
      cases hheard : (k.events t).foldlM Chats.hear c with
      | some c' =>
          rw [SharedDevice.step, Machine.joint_heard hheard]
          exact h.driver t hheard
      | none =>
          -- it was not for a call that its thread is about to make
          rw [SharedDevice.step, Machine.joint_refused hheard]
          refine h.stays rfl rfl rfl fun _ hlets => ?_
          obtain ⟨rfl, _, hasks, _⟩ := hlets
          rcases events_cases k t with ⟨hidle, he⟩ | ⟨ret, data, -, he⟩ | ⟨-, he | ⟨command, he⟩⟩
          · rw [he] at hheard
            simp [Chats.hear, hasks hidle] at hheard
          · rw [he] at hheard
            simp [Chats.hear] at hheard
          · rw [he] at hheard
            simp at hheard
          · rw [he] at hheard
            simp [Chats.hear] at hheard

theorem Served.step (h : Served fixedSizeLlseek i s) {turn : (ι × ChatStep) ⊕ KernelTurn ι}
    (hharmless : s.Harmless turn) : Served fixedSizeLlseek i (s.step fixedSizeLlseek turn) where
  recorded := by
    obtain ⟨a, hstep, hrec⟩ := h.recorded
    have hone : Runs.Guarded (SharedDevice.step fixedSizeLlseek) SharedDevice.Harmless s [turn] :=
      ⟨hharmless, trivial⟩
    exact (events_simulate fixedSizeLlseek).users (Recorded.kept fixedSizeLlseek)
      (fun _ _ _ t hrec hstep => hrec.concatenates hstep t) hstep hrec hone
  reads := (h.nearer hharmless).reads

/-- The server before turn `n`. -/
def SharedDevice.before (fixedSizeLlseek : LlseekFn) (pkt : ι → List UInt8)
    (turns : Nat → (ι × ChatStep) ⊕ KernelTurn ι) (n : Nat) : SharedDevice ι :=
  Endless.state (SharedDevice.step fixedSizeLlseek) (.start pkt) turns n

end

/-- In an endless run of any number of connections, with any failures in it: a thread that has been
handed a packet or a command gets through with it, if no read of its own is interrupted any more and
turns that let it go on keep coming until it is through.  The others may write as they like. -/
theorem replies_end {ι : Type} [DecidableEq ι] (fixedSizeLlseek : LlseekFn) (pkt : ι → List UInt8)
    (turns : Nat → (ι × ChatStep) ⊕ KernelTurn ι) (i : ι) {n : Nat}
    (hharmless : ∀ m, (SharedDevice.before fixedSizeLlseek pkt turns m).Harmless (turns m))
    (hcalm : ∀ m ≥ n, CalmFor i (turns m))
    (hfair : ∀ m ≥ n,
      ((SharedDevice.before fixedSizeLlseek pkt turns m).1.thread i).pc.replying = true →
        ∃ m' ≥ m, (SharedDevice.before fixedSizeLlseek pkt turns m').Lets i (turns m')) :
    ∃ m ≥ n,
      ((SharedDevice.before fixedSizeLlseek pkt turns m).1.thread i).pc.replying = false := by
  have hserved : ∀ m, Served fixedSizeLlseek i (SharedDevice.before fixedSizeLlseek pkt turns m) :=
    fun m => Endless.stays_among SharedDevice.Harmless (fun _ _ hok h => h.step hok) (k := 0)
      (fun m _ => hharmless m) (.start fixedSizeLlseek i pkt) (Nat.zero_le m)
  apply Endless.reaches_among (fun s turn => s.Harmless turn ∧ CalmFor i turn)
    (Served fixedSizeLlseek i) (fun s => (s.1.thread i).pc.replying = false) (fun s => s.left i)
    (fun s turn => s.Lets i turn)
  · exact fun s turn hok h => h.step hok.1
  -- the others' turns leave `left` as it is, whatever they write
  · intro s turn hok h hgoal
    rcases (h.nearer hok.1).left hok.2 (Bool.not_eq_false _ ▸ hgoal) with hlt | ⟨hsame, _⟩
    · exact hlt.le
    · exact hsame.le
  · intro s turn hok h hgoal hlets
    rcases (h.nearer hok.1).left hok.2 (Bool.not_eq_false _ ▸ hgoal) with hlt | ⟨_, hnot⟩
    · exact hlt
    · exact absurd hlets hnot
  · exact fun m hm => ⟨hharmless m, hcalm m hm⟩
  · exact fun m hm hgoal => hfair m hm (Bool.not_eq_false _ ▸ hgoal)
  · exact hserved n

/-! ## One client -/

/-- The reply to `"a\n"`, from the `write` of it on, and then turns that nobody has asked for. -/
def oneReply (m : Nat) : (Nat × ChatStep) ⊕ KernelTurn Nat :=
  (writeSteps 0 [97, 10] ++ driverSteps 0 6 (.llseek false 0 SEEK_SET) ++ readSteps 0 8 ++
    threadSteps 0 1 [] ++ readSteps 0 5 ++ threadSteps 0 1 []).getD m
      (.inr ⟨0, .llseek false 0 SEEK_SET⟩)

theorem replies_end_one_client :
    ∃ m ≥ 3, ((SharedDevice.before boundedLlseek (fun _ => []) oneReply m).1.thread 0).pc.replying =
      false := by
  have hlast : ∀ m ≥ 33, oneReply m = .inr ⟨0, .llseek false 0 SEEK_SET⟩ := by
    intro m hm
    exact List.getD_eq_default _ _ (by simpa [writeSteps, driverSteps, readSteps, threadSteps])
  have hrests : ∀ m ≥ 33, SharedDevice.before boundedLlseek (fun _ => []) oneReply m =
      SharedDevice.before boundedLlseek (fun _ => []) oneReply 33 := by
    intro m hm
    induction m, hm using Nat.le_induction with
    | base => rfl
    | succ m hm ih =>
        show SharedDevice.step boundedLlseek (SharedDevice.before boundedLlseek _ oneReply m)
          (oneReply m) = _
        rw [ih, hlast m hm]
        exact Machine.joint_refused (Option.isNone_iff_eq_none.mp (by decide +kernel))
  apply replies_end
  · intro m
    by_cases hm : m < 33
    · revert m
      decide +kernel
    · rw [hlast m (by omega)]
      trivial
  · intro m _
    by_cases hm : m < 33
    · revert m
      decide +kernel
    · rw [hlast m (by omega)]
      trivial
  · intro m hge hreplying
    by_cases hm : m < 33
    · refine ⟨m, le_rfl, ?_⟩
      clear hreplying
      revert m
      decide +kernel
    · rw [hrests m (by omega)] at hreplying
      exact absurd hreplying (by decide +kernel)

end AesdChar
