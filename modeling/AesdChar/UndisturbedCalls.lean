import AesdChar.InterleavedCalls

/-!
# Calls that nothing comes between

The statements of one call, run one after the other with `buf_lock` free, are the call as it is
computed in one go.
-/

namespace AesdChar

open CInt Heap

/-- What a call does in one go; `none` when it does not come back. -/
def FileOp.outcome (fixedSizeLlseek : LlseekFn) (s : Driver) (fPos : Int) :
    FileOp → Option (Driver × CommandLog.Answer)
  | .write buf env =>
      let r := aesdWrite s env buf fPos
      some (r.driver, ⟨r.ret, [], r.fPos⟩)
  | .read count env => (aesdRead s env count fPos).map fun r => (r.driver, ⟨r.ret, r.data, r.fPos⟩)
  | .llseek interrupted offset whence =>
      let r := aesdLlseek fixedSizeLlseek s interrupted fPos offset whence
      some (s, ⟨r.1, [], r.2⟩)
  | .ioctl interrupted cmd arg =>
      (aesdIoctl s interrupted fPos cmd arg).map fun r => (s, ⟨r.1, [], r.2⟩)

namespace Kernel

variable {ι : Type} [DecidableEq ι]

/-! ## What a turn leaves alone -/

/-- A turn changes the program counter and the position of its own thread only. -/
theorem step_others (fixedSizeLlseek : LlseekFn) (k : Kernel ι) (t : KernelTurn ι) {j : ι}
    (hj : j ≠ t.thread) :
    (k.step fixedSizeLlseek t).pc j = k.pc j ∧ (k.step fixedSizeLlseek t).fPos j = k.fPos j := by
  have hacquire : ∀ interrupted failed acquired,
      (k.acquire t.thread interrupted failed acquired).pc j = k.pc j ∧
        (k.acquire t.thread interrupted failed acquired).fPos j = k.fPos j := by
    intro interrupted failed acquired
    rw [acquire]
    split
    · exact ⟨Function.update_of_ne hj _ _, rfl⟩
    · split
      · exact ⟨Function.update_of_ne hj _ _, rfl⟩
      · exact ⟨rfl, rfl⟩
  cases hpc : k.pc t.thread with
  | kmalloc buf env =>
      simp only [step, hpc]
      split <;> simp [hj]
  | takePartial buf env buffptr =>
      simp only [step, hpc]
      split <;> simp [hj]
  | findEntry env =>
      simp only [step, hpc]
      split <;> simp [hj]
  | copyToUser env rdEntry relativePos =>
      simp only [step, hpc]
      split <;> simp [hj]
  | adjustOffset seekto =>
      simp only [step, hpc]
      split <;> simp [hj]
  | lockComplete buf env buffptr => simpa only [step, hpc] using hacquire _ _ _
  | lockPartial buf env buffptr => simpa only [step, hpc] using hacquire _ _ _
  | lockRead env => simpa only [step, hpc] using hacquire _ _ _
  | lockLlseek interrupted offset whence => simpa only [step, hpc] using hacquire _ _ _
  | lockIoctl interrupted seekto => simpa only [step, hpc] using hacquire _ _ _
  | _ => simp [step, hpc, hj]

/-! ## Turns of one thread -/

/-- Turns of one thread lead from `k` to what is wanted, with these events. -/
def Ends (fixedSizeLlseek : LlseekFn) (t : KernelTurn ι) (k : Kernel ι) (goal : Kernel ι → Prop)
    (events : List (CallEvent ι)) : Prop :=
  ∃ n, goal ((machine fixedSizeLlseek).run k (List.replicate n t)) ∧
    (machine fixedSizeLlseek).trace k (List.replicate n t) = events

variable {fixedSizeLlseek : LlseekFn} {t : KernelTurn ι} {k : Kernel ι} {goal : Kernel ι → Prop}
  {events : List (CallEvent ι)}

theorem Ends.here (h : goal k) : Ends fixedSizeLlseek t k goal [] := ⟨0, h, rfl⟩

theorem Ends.turn (h : Ends fixedSizeLlseek t (k.step fixedSizeLlseek t) goal events) :
    Ends fixedSizeLlseek t k goal (k.out t ++ events) := by
  obtain ⟨n, hgoal, htrace⟩ := h
  refine ⟨n + 1, hgoal, ?_⟩
  rw [List.replicate_succ, Machine.trace]
  exact congrArg (k.out t ++ ·) htrace

/-- A turn in the middle of a call. -/
theorem Ends.silently {k' : Kernel ι} (hstep : k.step fixedSizeLlseek t = k') (hout : k.out t = [])
    (h : Ends fixedSizeLlseek t k' goal events) : Ends fixedSizeLlseek t k goal events := by
  rw [← hstep] at h
  have hturn := h.turn
  rwa [hout] at hturn

/-- The thread is back from a call that left the driver and its position so. -/
structure Back (i : ι) (s : Driver) (fPos : Int) (k : Kernel ι) : Prop where
  driver : k.driver = s
  holder : k.holder = none
  pc : k.pc i = .idle
  fPos : k.fPos i = fPos

theorem ends_returning {ret fPos : Int} {data : List UInt8} {s : Driver}
    (hpc : k.pc t.thread = .returning ret data) (hfree : k.holder = none) (hs : k.driver = s)
    (hf : k.fPos t.thread = fPos) :
    Ends fixedSizeLlseek t k (Back t.thread s fPos) [.returned t.thread ret data fPos] := by
  have hout : k.out t = [.returned t.thread ret data fPos] := by
    rw [out, hpc, hf]
  rw [← hout, ← List.append_nil (k.out t)]
  apply Ends.turn
  apply Ends.here
  simp only [step, hpc]
  exact ⟨hs, hfree, Function.update_self _ _ _, hf⟩

theorem ends_unlock {ret fPos : Int} {data : List UInt8} {s : Driver}
    (hpc : k.pc t.thread = .unlock ret data) (hs : k.driver = s) (hf : k.fPos t.thread = fPos) :
    Ends fixedSizeLlseek t k (Back t.thread s fPos) [.returned t.thread ret data fPos] := by
  apply Ends.silently rfl
  · rw [out, hpc]
  · simp only [step, hpc]
    exact ends_returning (Function.update_self _ _ _) rfl hs hf

/-! ## `aesd_write` -/

theorem ends_kfreeRemoved {count size : Nat} {rmBuffptr : Option Nat}
    (hpc : k.pc t.thread = .kfreeRemoved count rmBuffptr size) (hfree : k.holder = none) :
    Ends fixedSizeLlseek t k
      (Back t.thread { k.driver with heap := k.driver.heap.free rmBuffptr }
        (int64 (k.fPos t.thread + size)))
      [.returned t.thread count [] (int64 (k.fPos t.thread + size))] := by
  apply Ends.silently rfl
  · rw [out, hpc]
  · simp only [step, hpc]
    exact ends_returning (Function.update_self _ _ _) hfree rfl (Function.update_self _ _ _)

theorem ends_addEntry {buf : List UInt8} {env : WriteEnv} {buffptr : Option Nat} {total : Int}
    (hpc : k.pc t.thread = .addEntry buf env buffptr total) :
    let size := if total ≠ 0 then sizeT total else buf.length
    let added := aesdCircularBufferAddEntry k.driver.dev.buffer ⟨buffptr, size⟩
    Ends fixedSizeLlseek t k
      (Back t.thread
        ⟨{ k.driver.dev with buffer := added.2 }, k.driver.heap.free added.1⟩
        (int64 (k.fPos t.thread + size)))
      [.returned t.thread buf.length [] (int64 (k.fPos t.thread + size))] := by
  apply Ends.silently rfl
  · rw [out, hpc]
  · simp only [step, hpc]
    apply Ends.silently rfl
    · simp [out]
    · simp only [step, goto_pc, Function.update_self]
      exact @ends_kfreeRemoved _ _ _ t (release _ |>.goto t.thread _) _ _ _
        (Function.update_self _ _ _) rfl

theorem ends_takePartial {buf : List UInt8} {env : WriteEnv} {buffptr : Nat}
    (hpc : k.pc t.thread = .takePartial buf env buffptr) :
    let committed := commitWrite k.driver env buffptr buf.length
    Ends fixedSizeLlseek t k
      (Back t.thread committed.2 (int64 (k.fPos t.thread + committed.1)))
      [.returned t.thread buf.length [] (int64 (k.fPos t.thread + committed.1))] := by
  apply Ends.silently rfl
  · rw [out, hpc]
  · simp only [step, hpc, commitWrite]
    by_cases hp : k.driver.dev.partMemPtr = none
    · simp only [if_pos hp]
      have hend := @ends_addEntry _ _ fixedSizeLlseek t
        (k.goto t.thread (.addEntry buf env (some buffptr) 0)) _ _ _ _ (Function.update_self _ _ _)
      simp only [goto_driver, goto_fPos, hp] at hend
      exact hend
    · simp only [if_neg hp]
      exact @ends_addEntry _ _ fixedSizeLlseek t (goto _ t.thread (.addEntry _ _ _ _)) _ _ _ _
        (Function.update_self _ _ _)

theorem ends_lockComplete {buf : List UInt8} {env : WriteEnv} {buffptr : Nat}
    (hpc : k.pc t.thread = .lockComplete buf env buffptr) (hfree : k.holder = none) :
    let committed := commitWrite k.driver env buffptr buf.length
    let r : WriteResult :=
      if env.interrupted then
        ⟨0, k.fPos t.thread, { k.driver with heap := k.driver.heap.free (some buffptr) }⟩
      else ⟨buf.length, int64 (k.fPos t.thread + committed.1), committed.2⟩
    Ends fixedSizeLlseek t k (Back t.thread r.driver r.fPos)
      [.returned t.thread r.ret [] r.fPos] := by
  apply Ends.silently rfl
  · rw [out, hpc]
  · simp only [step, hpc, acquire_free k t.thread hfree]
    cases hi : env.interrupted with
    | true =>
        simp only [if_true]
        apply Ends.silently rfl
        · simp [out]
        · simp only [step, goto_pc, Function.update_self]
          exact ends_returning (Function.update_self _ _ _) hfree rfl rfl
    | false =>
        simp only [Bool.false_eq_true, if_false]
        exact @ends_takePartial _ _ _ t (goto _ t.thread (.takePartial buf env buffptr)) _ _ _
          (Function.update_self _ _ _)

theorem ends_lockPartial {buf : List UInt8} {env : WriteEnv} {buffptr : Nat}
    (hpc : k.pc t.thread = .lockPartial buf env buffptr) (hfree : k.holder = none) :
    let r : WriteResult :=
      if env.interrupted then ⟨0, k.fPos t.thread, k.driver⟩
      else ⟨buf.length, k.fPos t.thread, AesdChar.keepPartial k.driver env buffptr buf.length⟩
    Ends fixedSizeLlseek t k (Back t.thread r.driver r.fPos)
      [.returned t.thread r.ret [] r.fPos] := by
  apply Ends.silently rfl
  · rw [out, hpc]
  · simp only [step, hpc, acquire_free k t.thread hfree]
    cases hi : env.interrupted with
    | true =>
        simp only [if_true]
        exact ends_returning (Function.update_self _ _ _) hfree rfl rfl
    | false =>
        simp only [Bool.false_eq_true, if_false]
        apply Ends.silently rfl
        · simp [out]
        · simp only [step, goto_pc, Function.update_self]
          exact ends_unlock (Function.update_self _ _ _) rfl rfl

theorem ends_copyFromUser {buf : List UInt8} {env : WriteEnv} {buffptr : Nat}
    (hpc : k.pc t.thread = .copyFromUser buf env buffptr) (hfree : k.holder = none) :
    let heap := k.driver.heap.store buffptr 0 (buf.take (buf.length - env.notCopied))
    let s : Driver := { k.driver with heap := heap }
    let committed := commitWrite s env buffptr buf.length
    let r : WriteResult :=
      if isDataPartial (heap.bytes buffptr) buf.length = false then
        if env.interrupted then
          ⟨0, k.fPos t.thread, { s with heap := heap.free (some buffptr) }⟩
        else ⟨buf.length, int64 (k.fPos t.thread + committed.1), committed.2⟩
      else
        if env.interrupted then ⟨0, k.fPos t.thread, s⟩
        else ⟨buf.length, k.fPos t.thread, AesdChar.keepPartial s env buffptr buf.length⟩
    Ends fixedSizeLlseek t k (Back t.thread r.driver r.fPos)
      [.returned t.thread r.ret [] r.fPos] := by
  apply Ends.silently rfl
  · rw [out, hpc]
  · by_cases hn : isDataPartial ((k.driver.heap.store buffptr 0
        (buf.take (buf.length - env.notCopied))).bytes buffptr) buf.length = false
    · simp only [step, hpc, if_pos hn]
      exact @ends_lockComplete _ _ _ t (goto _ t.thread (.lockComplete buf env buffptr)) _ _ _
        (Function.update_self _ _ _) hfree
    · simp only [step, hpc, if_neg hn]
      exact @ends_lockPartial _ _ _ t (goto _ t.thread (.lockPartial buf env buffptr)) _ _ _
        (Function.update_self _ _ _) hfree

theorem ends_calls (hpc : k.pc t.thread = .idle)
    (h : Ends fixedSizeLlseek t (k.goto t.thread t.op.entry) goal events) :
    Ends fixedSizeLlseek t k goal (.called t.thread t.op :: events) := by
  have hout : k.out t = [.called t.thread t.op] := by
    rw [out, hpc]
  have hstep : k.step fixedSizeLlseek t = k.goto t.thread t.op.entry := by
    simp only [step, hpc]
  rw [← List.singleton_append, ← hout]
  apply Ends.turn
  rwa [hstep]

theorem ends_write {buf : List UInt8} {env : WriteEnv} (hop : t.op = .write buf env)
    (hpc : k.pc t.thread = .idle) (hfree : k.holder = none) :
    let r := aesdWrite k.driver env buf (k.fPos t.thread)
    Ends fixedSizeLlseek t k (Back t.thread r.driver r.fPos)
      [.called t.thread t.op, .returned t.thread r.ret [] r.fPos] := by
  apply ends_calls hpc
  rw [hop]
  apply Ends.silently rfl
  · simp [out, FileOp.entry]
  · simp only [step, goto_pc, Function.update_self, FileOp.entry, AesdChar.kmalloc]
    by_cases hm : kmallocSucceeds buf.length env.kmalloc = true
    · simp only [aesdWrite, AesdChar.kmalloc, if_pos hm]
      exact @ends_copyFromUser _ _ _ t (goto _ t.thread (.copyFromUser buf env _)) _ _ _
        (Function.update_self _ _ _) hfree
    · rw [if_neg hm, aesdWrite_of_no_memory _ _ _ _ (Bool.eq_false_iff.mpr hm)]
      exact ends_returning (Function.update_self _ _ _) hfree rfl rfl

/-! ## The other calls -/

theorem ends_unlockRead {rdEntry : Nat} {ret fPos : Int} {data : List UInt8} {s : Driver}
    (hpc : k.pc t.thread = .unlockRead rdEntry ret data) (hs : k.driver = s)
    (hf : k.fPos t.thread = fPos) :
    Ends fixedSizeLlseek t k (Back t.thread s fPos) [.returned t.thread ret data fPos] := by
  apply Ends.silently rfl
  · rw [out, hpc]
  · simp only [step, hpc]
    apply Ends.silently rfl
    · simp [out]
    · simp only [step, goto_pc, Function.update_self]
      apply Ends.silently rfl
      · simp [out]
      · simp only [step, goto_pc, Function.update_self]
        exact ends_returning (Function.update_self _ _ _) rfl hs hf

theorem ends_copyToUser {env : ReadEnv} {rdEntry relativePos : Nat}
    (hpc : k.pc t.thread = .copyToUser env rdEntry relativePos) :
    let entry := k.driver.dev.buffer.slot rdEntry
    let n := sizeT (entry.size - relativePos)
    let bytes := k.driver.heap.read entry.buffptr relativePos n env.stale
    let inBounds := decide (k.driver.heap.InBounds entry.buffptr relativePos n)
    let s : Driver :=
      { k.driver with
        heap := { k.driver.heap with fault := k.driver.heap.fault || !inBounds } }
    let r : ReadResult :=
      if env.notCopied = 0 then ⟨int64 n, bytes, int64 (k.fPos t.thread + int64 n), s⟩
      else ⟨0, bytes.take (n - env.notCopied), k.fPos t.thread, s⟩
    Ends fixedSizeLlseek t k (Back t.thread r.driver r.fPos)
      [.returned t.thread r.ret r.data r.fPos] := by
  apply Ends.silently rfl
  · rw [out, hpc]
  · simp only [step, hpc]
    by_cases hc : env.notCopied = 0
    · simp only [if_pos hc]
      exact ends_unlockRead (Function.update_self _ _ _) rfl (Function.update_self _ _ _)
    · simp only [if_neg hc]
      exact ends_unlockRead (Function.update_self _ _ _) rfl rfl

theorem ends_read {count : Nat} {env : ReadEnv} {r : ReadResult} (hop : t.op = .read count env)
    (hpc : k.pc t.thread = .idle) (hfree : k.holder = none)
    (hr : aesdRead k.driver env count (k.fPos t.thread) = some r) :
    Ends fixedSizeLlseek t k (Back t.thread r.driver r.fPos)
      [.called t.thread t.op, .returned t.thread r.ret r.data r.fPos] := by
  apply ends_calls hpc
  rw [hop]
  rw [aesdRead] at hr
  apply Ends.silently rfl
  · simp [out, FileOp.entry]
  · simp only [step, goto_pc, Function.update_self, FileOp.entry]
    rw [acquire_free (goto k _ _) _ hfree]
    cases hi : env.interrupted with
    | true =>
        rw [if_pos hi, Option.some.injEq] at hr
        rw [if_pos rfl, ← hr]
        exact ends_returning (Function.update_self _ _ _) hfree rfl rfl
    | false =>
        rw [if_neg (by rw [hi]; decide)] at hr
        rw [if_neg Bool.false_ne_true]
        apply Ends.silently rfl
        · simp [out]
        · simp only [step, goto_pc, Function.update_self, goto_driver, goto_fPos]
          cases hfind : aesdCircularBufferFindEntryOffsetForFpos k.driver.dev.buffer
              (sizeT (k.fPos t.thread)) with
          | none =>
              rw [hfind] at hr
              exact absurd hr (Option.some_ne_none r).symm
          | some found =>
              rw [hfind] at hr
              cases found with
              | none =>
                  rw [← Option.some.inj hr]
                  exact ends_unlock (Function.update_self _ _ _) rfl rfl
              | some entry =>
                  have hr' := Option.some.inj ((apply_ite some _ _ _).trans hr)
                  rw [← hr']
                  exact @ends_copyToUser _ _ _ t (goto _ t.thread (.copyToUser env _ _)) _ _ _
                    (Function.update_self _ _ _)

theorem ends_llseek {interrupted : Bool} {offset whence : Int}
    (hop : t.op = .llseek interrupted offset whence) (hpc : k.pc t.thread = .idle)
    (hfree : k.holder = none) :
    let r := aesdLlseek fixedSizeLlseek k.driver interrupted (k.fPos t.thread) offset whence
    Ends fixedSizeLlseek t k (Back t.thread k.driver r.2)
      [.called t.thread t.op, .returned t.thread r.1 [] r.2] := by
  apply ends_calls hpc
  rw [hop, FileOp.entry, aesdLlseek]
  by_cases hw : whence = SEEK_SET ∨ whence = SEEK_CUR ∨ whence = SEEK_END
  · rw [if_pos hw, if_pos hw]
    apply Ends.silently rfl
    · simp [out]
    · simp only [step, goto_pc, Function.update_self]
      rw [acquire_free (goto k _ _) _ hfree]
      cases interrupted with
      | true =>
          exact ends_returning (Function.update_self _ _ _) hfree rfl rfl
      | false =>
          rw [if_neg Bool.false_ne_true, if_neg Bool.false_ne_true]
          apply Ends.silently rfl
          · simp [out]
          · simp only [step, goto_pc, Function.update_self]
            apply Ends.silently rfl
            · simp [out]
            · simp only [step, goto_pc, Function.update_self]
              apply Ends.silently rfl
              · simp [out]
              · simp only [step, goto_pc, Function.update_self]
                exact ends_returning (Function.update_self _ _ _) rfl rfl
                  (Function.update_self _ _ _)
  · rw [if_neg hw, if_neg hw]
    exact ends_returning (Function.update_self _ _ _) hfree rfl rfl

theorem ends_ioctl {interrupted : Bool} {cmd : Nat} {arg : Option AesdSeekto} {r : Int × Int}
    (hop : t.op = .ioctl interrupted cmd arg) (hpc : k.pc t.thread = .idle)
    (hfree : k.holder = none)
    (hr : aesdIoctl k.driver interrupted (k.fPos t.thread) cmd arg = some r) :
    Ends fixedSizeLlseek t k (Back t.thread k.driver r.2)
      [.called t.thread t.op, .returned t.thread r.1 [] r.2] := by
  apply ends_calls hpc
  rw [hop, FileOp.entry.eq_def]
  rw [aesdIoctl.eq_def] at hr
  by_cases hc : cmd = AESDCHAR_IOCSEEKTO
  · simp only [if_pos hc] at hr ⊢
    cases arg with
    | none =>
        rw [← Option.some.inj hr]
        exact ends_returning (Function.update_self _ _ _) hfree rfl rfl
    | some seekto =>
        apply Ends.silently rfl
        · simp [out]
        · simp only [step, goto_pc, Function.update_self]
          rw [acquire_free (goto k _ _) _ hfree]
          cases interrupted with
          | true =>
              rw [← Option.some.inj hr]
              exact ends_returning (Function.update_self _ _ _) hfree rfl rfl
          | false =>
              simp only [Bool.false_eq_true, if_false] at hr ⊢
              apply Ends.silently rfl
              · simp [out]
              · simp only [step, goto_pc, Function.update_self, goto_driver, goto_fPos, hr]
                exact ends_unlock (Function.update_self _ _ _) rfl (Function.update_self _ _ _)
  · simp only [if_neg hc] at hr ⊢
    rw [← Option.some.inj hr]
    exact ends_returning (Function.update_self _ _ _) hfree rfl rfl

/-! ## Any call -/

theorem run_others (n : Nat) {j : ι} (hj : j ≠ t.thread) :
    ((machine fixedSizeLlseek).run k (List.replicate n t)).pc j = k.pc j ∧
      ((machine fixedSizeLlseek).run k (List.replicate n t)).fPos j = k.fPos j := by
  induction n generalizing k with
  | zero => exact ⟨rfl, rfl⟩
  | succ n ih =>
      obtain ⟨hpc, hfPos⟩ := @ih (k.step fixedSizeLlseek t)
      obtain ⟨hpc', hfPos'⟩ := step_others fixedSizeLlseek k t hj
      exact ⟨hpc.trans hpc', hfPos.trans hfPos'⟩

theorem ends_call {s : Driver} {r : CommandLog.Answer} (hpc : k.pc t.thread = .idle)
    (hfree : k.holder = none)
    (hr : t.op.outcome fixedSizeLlseek k.driver (k.fPos t.thread) = some (s, r)) :
    Ends fixedSizeLlseek t k (Back t.thread s r.fPos)
      [.called t.thread t.op, .returned t.thread r.ret r.data r.fPos] := by
  cases hop : t.op with
  | write buf env =>
      rw [hop, FileOp.outcome] at hr
      obtain ⟨rfl, rfl⟩ := Prod.mk.inj (Option.some.inj hr)
      rw [← hop]
      exact ends_write hop hpc hfree
  | read count env =>
      rw [hop, FileOp.outcome] at hr
      obtain ⟨r', hr', heq⟩ := Option.map_eq_some_iff.mp hr
      obtain ⟨rfl, rfl⟩ := Prod.mk.inj heq
      rw [← hop]
      exact ends_read hop hpc hfree hr'
  | llseek interrupted offset whence =>
      rw [hop, FileOp.outcome] at hr
      obtain ⟨rfl, rfl⟩ := Prod.mk.inj (Option.some.inj hr)
      rw [← hop]
      exact ends_llseek hop hpc hfree
  | ioctl interrupted cmd arg =>
      rw [hop, FileOp.outcome] at hr
      obtain ⟨r', hr', heq⟩ := Option.map_eq_some_iff.mp hr
      obtain ⟨rfl, rfl⟩ := Prod.mk.inj heq
      rw [← hop]
      exact ends_ioctl hop hpc hfree hr'

end Kernel

section

variable {ι : Type} [DecidableEq ι]

/-- Taken alone, the statements of a call do what the call does in one go, and leave every other
thread where it is. -/
theorem undisturbed_call (fixedSizeLlseek : LlseekFn) {k : Kernel ι} {i : ι} {op : FileOp}
    {s : Driver} {r : CommandLog.Answer} (hpc : k.pc i = .idle) (hfree : k.holder = none)
    (hr : op.outcome fixedSizeLlseek k.driver (k.fPos i) = some (s, r)) :
    ∃ n,
      let turns : List (KernelTurn ι) := List.replicate n ⟨i, op⟩
      let k' := (Kernel.machine fixedSizeLlseek).run k turns
      k'.driver = s ∧ k'.holder = none ∧ k'.pc = k.pc ∧
        k'.fPos = Function.update k.fPos i r.fPos ∧
        (Kernel.machine fixedSizeLlseek).trace k turns =
          [.called i op, .returned i r.ret r.data r.fPos] := by
  obtain ⟨n, hback, htrace⟩ := @Kernel.ends_call _ _ fixedSizeLlseek ⟨i, op⟩ k s r hpc hfree hr
  refine ⟨n, hback.driver, hback.holder, ?_, ?_, htrace⟩
  · funext j
    by_cases hj : j = i
    · rw [hj, hpc]
      exact hback.pc
    · exact (Kernel.run_others n hj).1
  · funext j
    by_cases hj : j = i
    · rw [hj, Function.update_self]
      exact hback.fPos
    · rw [Function.update_of_ne hj]
      exact (Kernel.run_others n hj).2

end

theorem undisturbed_write :
    ∃ n,
      (Kernel.machine fun fPos _ _ _ => (fPos, fPos)).trace (Kernel.start fun _ : Bool => 0)
          (List.replicate n ⟨true, .write [97, 10] .calm⟩) =
        [.called true (.write [97, 10] .calm), .returned true 2 [] 2] := by
  obtain ⟨n, _, _, _, _, htrace⟩ :=
    @undisturbed_call Bool _ (fun fPos _ _ _ => (fPos, fPos)) (Kernel.start fun _ => 0) true
      (.write [97, 10] .calm) _ _ rfl rfl rfl
  exact ⟨n, htrace⟩

end AesdChar
