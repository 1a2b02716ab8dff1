import AesdChar.LockedSections

/-!
# Interleaved calls are atomic

Each statement of a call is answered by the atomic calls on the log: the statement in which a call
has its effect by that effect, the others by nothing.  So a run of statements of any number of
threads gives every thread the answers of some order of whole calls, and never touches memory that
is not there.
-/

namespace AesdChar

open CInt Heap AesdCircularBuffer Ownership

/-- What a thread at a program counter is like. -/
theorem InStep.matches_at {ι : Type} {fixedSizeLlseek : LlseekFn} {k : Kernel ι} {a : AtomicLog ι}
    (h : InStep fixedSizeLlseek k a) {i : ι} {pc : CallPc} (hpc : k.pc i = pc) :
    Matches fixedSizeLlseek k.driver a.log (k.fPos i) pc (a.threads i) := by
  rw [← hpc]
  exact h.threads i

theorem InStep.holds_at {ι : Type} {fixedSizeLlseek : LlseekFn} {k : Kernel ι} {a : AtomicLog ι}
    (h : InStep fixedSizeLlseek k a) {i : ι} {pc : CallPc} (hpc : k.pc i = pc)
    (hin : pc.inSection = true) : Holds k.driver (pc.sees a.log) := by
  have hholds := h.holds
  rw [← hpc] at hin
  rwa [seen_of_holder ((h.mutex i).mpr hin), hpc] at hholds

section

variable {ι : Type} [DecidableEq ι] {fixedSizeLlseek : LlseekFn} {k k' : Kernel ι}
  {a : AtomicLog ι} {t : KernelTurn ι} {events : List (DeviceEvent ι)}

/-- The turn that led to `k'` with these events is answered by the atomic calls. -/
def Answered (fixedSizeLlseek : LlseekFn) (a : AtomicLog ι) (k' : Kernel ι)
    (events : List (DeviceEvent ι)) : Prop :=
  ∃ js, InStep fixedSizeLlseek k' ((AtomicLog.eventMachine fixedSizeLlseek).run a js) ∧
    (AtomicLog.eventMachine fixedSizeLlseek).trace a js = events

theorem answered_silently {i : ι}
    (h : InStep fixedSizeLlseek k' ⟨a.log, Function.update a.threads i (a.threads i)⟩) :
    Answered fixedSizeLlseek a k' [] := by
  rw [Function.update_eq_self] at h
  exact ⟨[], h, rfl⟩

theorem answered_called {fPos : Int} (hu : a.threads t.thread = ⟨.idle, fPos⟩)
    (h : InStep fixedSizeLlseek k'
      ⟨a.log, Function.update a.threads t.thread ⟨.called t.op, fPos⟩⟩) :
    Answered fixedSizeLlseek a k' [.seen (.called t.thread t.op)] := by
  refine ⟨[t], ?_, ?_⟩
  · show InStep fixedSizeLlseek k' (AtomicLog.step fixedSizeLlseek a t)
    rw [AtomicLog.step, hu]
    exact h
  · show AtomicLog.events a t ++ [] = _
    rw [AtomicLog.events, hu]
    rfl

section

variable {op : FileOp} {log : CommandLog} {r : CommandLog.Answer} {fPos : Int}
  (hu : a.threads t.thread = ⟨.called op, fPos⟩)
  (hr : a.log.perform fixedSizeLlseek fPos op = (log, r))

include hu hr

theorem answered_done
    (h : InStep fixedSizeLlseek k'
      ⟨log, Function.update a.threads t.thread ⟨.done r.ret r.data, r.fPos⟩⟩) :
    Answered fixedSizeLlseek a k' (if op.locks then [.effect t.thread op.command] else []) := by
  refine ⟨[t], ?_, ?_⟩
  · show InStep fixedSizeLlseek k' (AtomicLog.step fixedSizeLlseek a t)
    rw [AtomicLog.step, hu]
    simp only [hr]
    exact h
  · show AtomicLog.events a t ++ [] = _
    rw [AtomicLog.events, hu, List.append_nil]

theorem answered_performed (hlocks : op.locks = true)
    (h : InStep fixedSizeLlseek k'
      ⟨log, Function.update a.threads t.thread ⟨.done r.ret r.data, r.fPos⟩⟩) :
    Answered fixedSizeLlseek a k' [.effect t.thread op.command] := by
  have hdone := answered_done hu hr h
  rwa [if_pos hlocks] at hdone

theorem answered_refused (hlocks : op.locks = false)
    (h : InStep fixedSizeLlseek k'
      ⟨log, Function.update a.threads t.thread ⟨.done r.ret r.data, r.fPos⟩⟩) :
    Answered fixedSizeLlseek a k' [] := by
  have hdone := answered_done hu hr h
  rwa [hlocks, if_neg Bool.false_ne_true] at hdone

end

theorem answered_returned {ret : Int} {data : List UInt8} {fPos : Int}
    (hu : a.threads t.thread = ⟨.done ret data, fPos⟩)
    (h : InStep fixedSizeLlseek k' ⟨a.log, Function.update a.threads t.thread ⟨.idle, fPos⟩⟩) :
    Answered fixedSizeLlseek a k' [.seen (.returned t.thread ret data fPos)] := by
  refine ⟨[t], ?_, ?_⟩
  · show InStep fixedSizeLlseek k' (AtomicLog.step fixedSizeLlseek a t)
    rw [AtomicLog.step, hu]
    exact h
  · show AtomicLog.events a t ++ [] = _
    rw [AtomicLog.events, hu]
    rfl

/-- A call that is answered at once: begun, and performed on the log. -/
theorem answered_failed {r : CommandLog.Answer} {fPos : Int}
    (hu : a.threads t.thread = ⟨.idle, fPos⟩)
    (hr : a.log.perform fixedSizeLlseek fPos t.op = (a.log, r)) (hlocks : t.op.locks = false)
    (h : InStep fixedSizeLlseek k'
      ⟨a.log, Function.update a.threads t.thread ⟨.done r.ret r.data, r.fPos⟩⟩) :
    Answered fixedSizeLlseek a k' [.seen (.called t.thread t.op)] := by
  have hfirst : AtomicLog.step fixedSizeLlseek a t =
      ⟨a.log, Function.update a.threads t.thread ⟨.called t.op, fPos⟩⟩ := by
    rw [AtomicLog.step, hu]
  refine ⟨[t, t], ?_, ?_⟩
  · show InStep fixedSizeLlseek k'
      (AtomicLog.step fixedSizeLlseek (AtomicLog.step fixedSizeLlseek a t) t)
    rw [hfirst, AtomicLog.step]
    simp only [Function.update_self, Function.update_idem, hr]
    exact h
  · show AtomicLog.events a t ++ (AtomicLog.events (AtomicLog.step fixedSizeLlseek a t) t ++ []) = _
    rw [hfirst, AtomicLog.events, hu, AtomicLog.events]
    simp [hlocks]

/-! ## One statement -/

namespace InStep

/-- A turn that moves its thread on without a change of its position. -/
theorem goes (h : InStep fixedSizeLlseek k a) {i : ι} {pc : CallPc} {u : AtomicThread}
    (hsec : pc.inSection = (k.pc i).inSection) (hsees : pc.sees a.log = (k.pc i).sees a.log)
    (hblock : pc.block = none ∨ pc.block = (k.pc i).block)
    (hmatch : Matches fixedSizeLlseek k.driver a.log (k.fPos i) pc u) :
    InStep fixedSizeLlseek (k.goto i pc) ⟨a.log, Function.update a.threads i u⟩ := by
  have hmoves := h.moves (k.fPos i) hsec hsees hblock hmatch
  rwa [setFPos_self] at hmoves

/-- A turn outside of the locked sections that changes the heap and not the position. -/
theorem goesHeap (h : InStep fixedSizeLlseek k a) {i : ι} {pc : CallPc} {u : AtomicThread}
    {heap : Heap} (hsec : pc.inSection = (k.pc i).inSection) (hout : (k.pc i).inSection = false)
    (hfault : heap.fault = false)
    (hkeep : ∀ b, (k.pc i).block ≠ some b → k.driver.heap.Live b →
      heap.load (some b) = k.driver.heap.load (some b))
    (hblock : ∀ b, pc.block = some b →
      heap.Live b ∧ ((k.pc i).block = some b ∨ ¬ k.driver.heap.Live b))
    (hmatch : Matches fixedSizeLlseek { k.driver with heap := heap } a.log (k.fPos i) pc u) :
    InStep fixedSizeLlseek ((k.setHeap heap).goto i pc)
      ⟨a.log, Function.update a.threads i u⟩ := by
  have hmoves := h.movesHeap hsec hout hfault hkeep hblock hmatch
  rwa [setHeap_setFPos_self] at hmoves

/-- A call frees the block that only it knows of, if it has one. -/
theorem frees (h : InStep fixedSizeLlseek k a) {i : ι} {pc : CallPc} {u : AtomicThread} {fPos : Int}
    (hsec : pc.inSection = (k.pc i).inSection) (hout : (k.pc i).inSection = false)
    (hblock : pc.block = none)
    (hmatch : Matches fixedSizeLlseek
      { k.driver with heap := k.driver.heap.free (k.pc i).block } a.log fPos pc u) :
    InStep fixedSizeLlseek
      (((k.setHeap (k.driver.heap.free (k.pc i).block)).setFPos i fPos).goto i pc)
      ⟨a.log, Function.update a.threads i u⟩ := by
  apply h.movesHeap hsec hout
  · cases hb : (k.pc i).block with
    | none => exact h.holds.noFault
    | some b =>
        rw [fault_free (h.inFlight i b hb).1]
        exact h.holds.noFault
  · exact fun b hb _ => load_free_of_ne hb
  · intro b hb
    rw [hblock] at hb
    exact absurd hb (Option.some_ne_none b).symm
  · exact hmatch

/-- `mutex_lock_interruptible`: interrupted, acquired, or still waiting. -/
theorem acquiring (h : InStep fixedSizeLlseek k a) {i : ι} {interrupted : Bool}
    {failed acquired : CallPc}
    (hfailed : interrupted = true → Answered fixedSizeLlseek a (k.goto i failed) [])
    (hacquired : interrupted = false → k.holder = none →
      Answered fixedSizeLlseek a ({ k with holder := some i }.goto i acquired) []) :
    Answered fixedSizeLlseek a (k.acquire i interrupted failed acquired) [] := by
  cases hi : interrupted with
  | true => exact hfailed hi
  | false =>
      by_cases hfree : k.holder = none
      · rw [Kernel.acquire, if_neg Bool.false_ne_true, if_pos hfree]
        exact hacquired hi hfree
      · rw [Kernel.acquire, if_neg Bool.false_ne_true, if_neg hfree]
        exact ⟨[], h, rfl⟩

/-! ### A call begins -/

theorem step_idle (h : InStep fixedSizeLlseek k a) (hpc : k.pc t.thread = .idle) :
    Answered fixedSizeLlseek a (k.step fixedSizeLlseek t) (k.events t) := by
  have hu : a.threads t.thread = ⟨.idle, k.fPos t.thread⟩ := h.matches_at hpc
  have hgo : ∀ {pc : CallPc} {u : AtomicThread}, pc.inSection = false → pc.sees a.log = a.log →
      pc.block = none → Matches fixedSizeLlseek k.driver a.log (k.fPos t.thread) pc u →
      InStep fixedSizeLlseek (k.goto t.thread pc)
        ⟨a.log, Function.update a.threads t.thread u⟩ := by
    intro pc u hsec hsees hblock hmatch
    apply h.goes
    · rw [hsec, hpc]
      rfl
    · rw [hsees, hpc]
      rfl
    · exact Or.inl hblock
    · exact hmatch
  simp only [Kernel.step, Kernel.events, hpc]
  cases hop : t.op with
  | write buf env =>
      rw [← hop]
      apply answered_called hu
      rw [hop]
      exact hgo rfl rfl rfl rfl
  | read count env =>
      rw [← hop]
      apply answered_called hu
      rw [hop]
      exact hgo rfl rfl rfl ⟨count, rfl⟩
  | llseek interrupted offset whence =>
      rw [← hop]
      by_cases hw : whence = SEEK_SET ∨ whence = SEEK_CUR ∨ whence = SEEK_END
      · apply answered_called hu
        rw [hop, FileOp.entry, if_pos hw]
        exact hgo rfl rfl rfl ⟨rfl, hw⟩
      · apply answered_failed hu
        · rw [hop, CommandLog.perform, CommandLog.llseek, if_neg hw]
        · rw [hop, FileOp.locks, decide_eq_false hw, Bool.and_false]
        · rw [hop, FileOp.entry, if_neg hw]
          exact hgo rfl rfl rfl rfl
  | ioctl interrupted cmd arg =>
      rw [← hop]
      by_cases hc : cmd = AESDCHAR_IOCSEEKTO
      · cases arg with
        | none =>
            apply answered_failed hu
            · simp only [hop, CommandLog.perform, CommandLog.ioctl, if_pos hc]
              rfl
            · rw [hop, FileOp.locks, Option.isSome_none, Bool.and_false]
            · simp only [hop, FileOp.entry, if_pos hc]
              exact hgo rfl rfl rfl rfl
        | some seekto =>
            apply answered_called hu
            simp only [hop, FileOp.entry, if_pos hc]
            exact hgo rfl rfl rfl (by rw [hc]; rfl)
      · apply answered_failed hu
        · simp only [hop, CommandLog.perform, CommandLog.ioctl, if_neg hc]
          rfl
        · rw [hop, FileOp.locks, decide_eq_false hc, Bool.and_false, Bool.false_and]
        · rw [hop, FileOp.entry.eq_def]
          simp only [if_neg hc]
          exact hgo rfl rfl rfl rfl

/-! ### `aesd_write` outside of its locked sections -/

theorem step_kmalloc (h : InStep fixedSizeLlseek k a) {buf : List UInt8} {env : WriteEnv}
    (hpc : k.pc t.thread = .kmalloc buf env) :
    Answered fixedSizeLlseek a (k.step fixedSizeLlseek t) (k.events t) := by
  have hu : a.threads t.thread = ⟨.called (.write buf env), k.fPos t.thread⟩ := h.matches_at hpc
  simp only [Kernel.step, Kernel.events, hpc, AesdChar.kmalloc]
  by_cases hm : kmallocSucceeds buf.length env.kmalloc = true
  · have hdead : ¬ k.driver.heap.Live k.driver.heap.issued :=
      fun hl => absurd hl.lt (lt_irrefl _)
    rw [if_pos hm]
    apply answered_silently
    apply h.goesHeap
    · rw [hpc]
      rfl
    · rw [hpc]
      rfl
    · exact h.holds.noFault
    · exact fun b _ hlive => load_alloc_of_lt hlive.lt
    · intro b hb
      rw [← Option.some.inj hb]
      exact ⟨live_alloc.mpr (Or.inr rfl), Or.inr hdead⟩
    · exact ⟨hu, hm, load_alloc_self _ _⟩
  · rw [if_neg hm]
    apply answered_refused hu
    · rw [CommandLog.perform, CommandLog.write, if_pos (Bool.eq_false_iff.mpr hm)]
    · rw [FileOp.locks, Bool.eq_false_iff.mpr hm, Bool.false_and]
    · apply h.goes
      · rw [hpc]
        rfl
      · rw [hpc]
        rfl
      · exact Or.inl rfl
      · rfl

theorem step_copyFromUser (h : InStep fixedSizeLlseek k a) {buf : List UInt8} {env : WriteEnv}
    {buffptr : Nat} (hpc : k.pc t.thread = .copyFromUser buf env buffptr) :
    Answered fixedSizeLlseek a (k.step fixedSizeLlseek t) (k.events t) := by
  obtain ⟨hu, hm, hload⟩ := h.matches_at hpc
  have hstored := @load_store_self _ _ 0 _ (buf.take (buf.length - env.notCopied)) hload
  have hbytes : (k.driver.heap.store buffptr 0 (buf.take (buf.length - env.notCopied))).bytes
      buffptr = env.received buf := rawBytes_of_load hstored
  have hscan : isDataPartial (env.received buf) buf.length =
      !decide (NEWLINE ∈ env.received buf) := by
    rw [← isDataPartial_eq, length_received]
  -- the two paths part here, with the chunk in its block
  have hgo : ∀ {pc : CallPc}, pc.inSection = false → pc.block = some buffptr →
      Matches fixedSizeLlseek
        { k.driver with
          heap := k.driver.heap.store buffptr 0 (buf.take (buf.length - env.notCopied)) }
        a.log (k.fPos t.thread) pc (a.threads t.thread) →
      Answered fixedSizeLlseek a
        ((k.setHeap
          (k.driver.heap.store buffptr 0 (buf.take (buf.length - env.notCopied)))).goto
            t.thread pc) [] := by
    intro pc hsec hblock hmatch
    apply answered_silently
    apply h.goesHeap
    · rw [hsec, hpc]
      rfl
    · rw [hpc]
      rfl
    · rw [fault_store hload]
      · exact h.holds.noFault
      · rw [Nat.zero_add, List.length_take, length_freshBytes]
        omega
    · intro b hb _
      apply load_store_of_ne
      rintro rfl
      rw [hpc] at hb
      exact hb rfl
    · intro b hb
      rw [hblock] at hb
      rw [← Option.some.inj hb]
      refine ⟨live_store.mpr (live_of_load hload), Or.inl ?_⟩
      rw [hpc]
      rfl
    · exact hmatch
  simp only [Kernel.step, Kernel.events, hpc, hbytes, hscan]
  by_cases hn : NEWLINE ∈ env.received buf
  · rw [decide_eq_true hn, Bool.not_true, if_pos rfl]
    exact hgo rfl rfl ⟨hu, ⟨hm, hstored⟩, hn⟩
  · rw [decide_eq_false hn, Bool.not_false, if_neg (Bool.false_ne_true ∘ Eq.symm)]
    exact hgo rfl rfl ⟨hu, ⟨hm, hstored⟩, hn⟩

theorem step_lockComplete (h : InStep fixedSizeLlseek k a) {buf : List UInt8} {env : WriteEnv}
    {buffptr : Nat} (hpc : k.pc t.thread = .lockComplete buf env buffptr) :
    Answered fixedSizeLlseek a (k.step fixedSizeLlseek t) (k.events t) := by
  obtain ⟨hu, hr, hn⟩ := h.matches_at hpc
  simp only [Kernel.step, Kernel.events, hpc]
  apply h.acquiring
  · intro hi
    apply answered_refused hu
    · rw [CommandLog.perform, CommandLog.write, if_neg (by rw [hr.memory]; decide), if_pos hi]
    · rw [FileOp.locks, hi, Bool.not_true, Bool.and_false]
    · apply h.goes
      · rw [hpc]
        rfl
      · rw [hpc]
        rfl
      · rw [hpc]
        exact Or.inr rfl
      · rfl
  · intro hi hfree
    apply answered_silently
    apply h.acquires hfree
    · rfl
    · rfl
    · rw [hpc]
      exact Or.inr rfl
    · exact ⟨hu, hr, hn, hi⟩

theorem step_kfreeChunk (h : InStep fixedSizeLlseek k a) {buffptr : Nat}
    (hpc : k.pc t.thread = .kfreeChunk buffptr) :
    Answered fixedSizeLlseek a (k.step fixedSizeLlseek t) (k.events t) := by
  have hu : a.threads t.thread = ⟨.done 0 [], k.fPos t.thread⟩ := h.matches_at hpc
  have hfrees := @frees _ _ _ _ _ h t.thread (.returning 0 []) (a.threads t.thread)
    (k.fPos t.thread) (by rw [hpc]; rfl) (by rw [hpc]; rfl) rfl hu
  simp only [hpc, CallPc.block] at hfrees
  simp only [Kernel.step, Kernel.events, hpc]
  rw [setHeap_setFPos_self] at hfrees
  exact answered_silently hfrees

theorem step_lockPartial (h : InStep fixedSizeLlseek k a) {buf : List UInt8} {env : WriteEnv}
    {buffptr : Nat} (hpc : k.pc t.thread = .lockPartial buf env buffptr) :
    Answered fixedSizeLlseek a (k.step fixedSizeLlseek t) (k.events t) := by
  obtain ⟨hu, hr, hn⟩ := h.matches_at hpc
  simp only [Kernel.step, Kernel.events, hpc]
  apply h.acquiring
  · intro hi
    apply answered_refused hu
    · rw [CommandLog.perform, CommandLog.write, if_neg (by rw [hr.memory]; decide), if_pos hi]
    · rw [FileOp.locks, hi, Bool.not_true, Bool.and_false]
    · apply h.goes
      · rw [hpc]
        rfl
      · rw [hpc]
        rfl
      · -- the chunk's block is known to nobody from here on
        exact Or.inl rfl
      · rfl
  · intro hi hfree
    apply answered_silently
    apply h.acquires hfree
    · rfl
    · rfl
    · rw [hpc]
      exact Or.inr rfl
    · exact ⟨hu, hr, hn, hi⟩

/-! ### The locked sections of `aesd_write` -/

theorem step_takePartial (h : InStep fixedSizeLlseek k a) {buf : List UInt8} {env : WriteEnv}
    {buffptr : Nat} (hpc : k.pc t.thread = .takePartial buf env buffptr)
    (hcat : t.Concatenates k) :
    Answered fixedSizeLlseek a (k.step fixedSizeLlseek t) (k.events t) := by
  obtain ⟨hu, hr, hn, hi⟩ := h.matches_at hpc
  have hin : (k.pc t.thread).inSection = true := by
    rw [hpc]
    rfl
  have hholds : Holds k.driver a.log := h.holds_at hpc rfl
  have hown : (k.pc t.thread).block = some buffptr := by
    rw [hpc]
    rfl
  rw [KernelTurn.Concatenates, hpc, CallPc.Concatenates] at hcat
  have hlen : (a.log.extended (env.received buf)).length < 2 ^ 31 :=
    hholds.extended_small (c := ⟨buf, 0, env⟩) hr.memory hcat
  have hsum := hholds.extended_length (env.received buf)
  rw [length_received] at hsum
  simp only [Kernel.step, Kernel.events, hpc]
  by_cases hp : k.driver.dev.partMemPtr = none
  · -- nothing pending: the block of the chunk is that of the command
    obtain ⟨hlog, hsize⟩ : a.log.pending = none ∧ k.driver.dev.partBufSize = 0 := by
      rcases hholds.pending_cases with ⟨hlog, _, hsize⟩ | ⟨p, _, _, hp', _⟩
      · exact ⟨hlog, hsize⟩
      · rw [hp'] at hp
        exact absurd hp (Option.some_ne_none p)
    have hext : a.log.extended (env.received buf) = env.received buf := by
      rw [CommandLog.extended, hlog, Option.getD_none, List.nil_append]
    rw [if_pos hp]
    apply answered_silently
    apply @changes _ _ _ _ _ _ (.addEntry buf env (some buffptr) 0) _ h hin k.driver a.log
    · rfl
    · rw [CallPc.sees, ← hlog]
      exact hholds
    · exact h.cbSize
    · exact h.short
    · exact fun b _ hb _ => ⟨rfl, hb⟩
    · intro b hb
      rw [← Option.some.inj hb]
      exact ⟨(h.inFlight _ _ hown).1, (h.inFlight _ _ hown).2, Or.inl hown⟩
    · refine ⟨hu, hr.memory, hn, hi, ?_, ?_, hlen⟩
      · rw [hext]
        exact hr.load
      · rw [if_neg (by simp), hext, length_received]
  · obtain ⟨ptr, heap, hjoin, hnew, hout, hfrom, hkeep, hfault⟩ :=
      hholds.joined hr (h.inFlight _ _ hown).2 hcat
    have htotal : int32 (k.driver.dev.partBufSize + buf.length) =
        (a.log.extended (env.received buf)).length := by
      rw [hsum]
      exact int32_natCast _ hlen
    have hpos : 0 < (a.log.extended (env.received buf)).length := by
      rw [CommandLog.extended, List.length_append]
      exact Nat.add_pos_right _ (List.length_pos_of_mem hn)
    have hblocks : ∀ {b}, b ∉ k.driver.held → b ∉ k.driver.dev.buffer.blocks :=
      fun hb hmem => hb (List.mem_append_left _ hmem)
    rw [if_neg hp]
    simp only [hjoin]
    apply answered_silently
    apply h.changes hin
    · rfl
    · apply hholds.take
      · intro b hb
        apply hkeep
        · intro hpend
          exact (List.nodup_append.mp hholds.nodup).2.2 b hb b (by simp [hpend]) rfl
        · exact hholds.live_of_blocks hb
      · exact hfault
    · exact h.cbSize
    · exact h.short
    · intro b _ hb hlive
      refine ⟨hkeep b (fun hpend => hb ?_) hlive, ?_⟩
      · exact List.mem_append_right _ (by simp [hpend])
      · rw [Driver.held, Option.toList_none, List.append_nil]
        exact hblocks hb
    · intro b hb
      rw [← Option.some.inj hb]
      refine ⟨live_of_load hnew, ?_, ?_⟩
      · rw [Driver.held, Option.toList_none, List.append_nil]
        exact hblocks hout
      · rcases hfrom with rfl | hdead
        · exact Or.inl hown
        · exact Or.inr (Or.inl hdead)
    · refine ⟨hu, hr.memory, hn, hi, hnew, ?_, hlen⟩
      rw [htotal, if_pos (by omega)]
      exact sizeT_natCast _ (by omega)

theorem step_addEntry (h : InStep fixedSizeLlseek k a) {buf : List UInt8} {env : WriteEnv}
    {buffptr : Option Nat} {total : Int} (hpc : k.pc t.thread = .addEntry buf env buffptr total) :
    Answered fixedSizeLlseek a (k.step fixedSizeLlseek t) (k.events t) := by
  obtain ⟨hu, hm, hn, hi, hload, hsize, hlen⟩ := h.matches_at hpc
  have hin : (k.pc t.thread).inSection = true := by
    rw [hpc]
    rfl
  have hholds : Holds k.driver ⟨a.log.commands, none⟩ := h.holds_at hpc rfl
  cases hptr : buffptr with
  | none =>
      rw [hptr] at hload
      exact absurd hload (Option.some_ne_none _).symm
  | some ptr =>
      rw [hptr] at hload hpc
      have hown : (k.pc t.thread).block = some ptr := by
        rw [hpc]
        rfl
      have hfresh : ptr ∉ k.driver.dev.buffer.blocks :=
        fun hmem => (h.inFlight _ _ hown).2 (List.mem_append_left _ hmem)
      have hheld : ∀ buffer, Driver.held ⟨{ k.driver.dev with buffer := buffer }, k.driver.heap⟩ =
          buffer.blocks := by
        intro buffer
        show buffer.blocks ++ k.driver.dev.partMemPtr.toList = _
        rw [hholds.pending.1, Option.toList_none, List.append_nil]
      simp only [Kernel.step, Kernel.events, hpc, hsize]
      rw [← show FileOp.command (.write buf env) = some (env.received buf) from if_pos hn]
      apply answered_performed hu
      · rw [CommandLog.perform, CommandLog.write, if_neg (by rw [hm]; decide),
          if_neg (by rw [hi]; decide), if_pos hn]
      · rw [FileOp.locks, hm, hi, Bool.not_false, Bool.and_true]
      · apply h.changes hin
        · rfl
        · rw [CommandLog.accept_of_mem hn]
          exact hholds.add hload hfresh
        · exact cbSize_addEntry_eq hholds.ring h.cbSize _
        · exact h.short.accept hlen
        · intro b hne hb _
          refine ⟨rfl, ?_⟩
          rw [hheld]
          intro hmem
          rcases mem_blocks_addEntry hholds.ring hmem with hold | hnew
          · exact hb (List.mem_append_left _ hold)
          · exact hne (hown.trans hnew)
        · intro b hb
          obtain ⟨hold, hgone⟩ := hholds.removed hfresh hb
          rw [hheld]
          exact ⟨hholds.live_of_held hold, hgone, Or.inr (Or.inr hold)⟩
        · rfl

theorem step_unlockComplete (h : InStep fixedSizeLlseek k a) {count size : Nat}
    {rmBuffptr : Option Nat} (hpc : k.pc t.thread = .unlockComplete count rmBuffptr size) :
    Answered fixedSizeLlseek a (k.step fixedSizeLlseek t) (k.events t) := by
  have hu := h.matches_at hpc
  simp only [Kernel.step, Kernel.events, hpc]
  apply answered_silently
  apply h.releases
  · rw [hpc]
    rfl
  · rw [hpc]
    rfl
  · rfl
  · rw [hpc]
    rfl
  · exact hu

theorem step_kfreeRemoved (h : InStep fixedSizeLlseek k a) {count size : Nat}
    {rmBuffptr : Option Nat} (hpc : k.pc t.thread = .kfreeRemoved count rmBuffptr size) :
    Answered fixedSizeLlseek a (k.step fixedSizeLlseek t) (k.events t) := by
  have hu : a.threads t.thread = ⟨.done count [], int64 (k.fPos t.thread + size)⟩ :=
    h.matches_at hpc
  have hfrees := @frees _ _ _ _ _ h t.thread (.returning count []) (a.threads t.thread)
    (int64 (k.fPos t.thread + size)) (by rw [hpc]; rfl) (by rw [hpc]; rfl) rfl hu
  simp only [hpc, CallPc.block] at hfrees
  simp only [Kernel.step, Kernel.events, hpc]
  exact answered_silently hfrees

theorem step_keepPartial (h : InStep fixedSizeLlseek k a) {buf : List UInt8} {env : WriteEnv}
    {buffptr : Nat} (hpc : k.pc t.thread = .keepPartial buf env buffptr)
    (hcat : t.Concatenates k) :
    Answered fixedSizeLlseek a (k.step fixedSizeLlseek t) (k.events t) := by
  obtain ⟨hu, hr, hn, hi⟩ := h.matches_at hpc
  have hin : (k.pc t.thread).inSection = true := by
    rw [hpc]
    rfl
  have hholds : Holds k.driver a.log := h.holds_at hpc rfl
  have hown : (k.pc t.thread).block = some buffptr := by
    rw [hpc]
    rfl
  rw [KernelTurn.Concatenates, hpc, CallPc.Concatenates] at hcat
  have hlen : (a.log.extended (env.received buf)).length < 2 ^ 31 :=
    hholds.extended_small (c := ⟨buf, 0, env⟩) hr.memory hcat
  have hsum := hholds.extended_length (env.received buf)
  rw [length_received] at hsum
  obtain ⟨ptr, heap, hjoin, hnew, hout, hfrom, hkeep, hfault⟩ :=
    hholds.joined hr (h.inFlight _ _ hown).2 hcat
  have hfresh : ptr ∉ k.driver.dev.buffer.blocks :=
    fun hmem => hout (List.mem_append_left _ hmem)
  simp only [Kernel.step, Kernel.events, hpc, AesdChar.keepPartial, hjoin]
  rw [hsum, int32_natCast _ hlen]
  rw [← show FileOp.command (.write buf env) = none from if_neg hn]
  apply answered_performed hu
  · rw [CommandLog.perform, CommandLog.write, if_neg (by rw [hr.memory]; decide),
      if_neg (by rw [hi]; decide), if_neg hn]
  · rw [FileOp.locks, hr.memory, hi, Bool.not_false, Bool.and_true]
  · apply h.changes hin
    · rfl
    · rw [CommandLog.accept_of_not_mem hn]
      apply hholds.keep hnew hfresh _ hfault hlen
      intro b hb
      apply hkeep
      · intro hpend
        exact (List.nodup_append.mp hholds.nodup).2.2 b hb b (by simp [hpend]) rfl
      · exact hholds.live_of_blocks hb
    · exact h.cbSize
    · exact h.short.accept hlen
    · intro b hne hb hlive
      refine ⟨hkeep b (fun hpend => hb ?_) hlive, ?_⟩
      · exact List.mem_append_right _ (by simp [hpend])
      · intro hmem
        rcases List.mem_append.mp hmem with hold | hptr
        · exact hb (List.mem_append_left _ hold)
        · have hbp : b = ptr := by simpa using hptr
          rcases hfrom with hsame | hdead
          · exact hne (by rw [hbp, hsame, hown])
          · exact hdead (hbp ▸ hlive)
    · exact fun b hb => absurd hb (Option.some_ne_none b).symm
    · rfl

/-! ### `aesd_read` -/

theorem step_lockRead (h : InStep fixedSizeLlseek k a) {env : ReadEnv}
    (hpc : k.pc t.thread = .lockRead env) :
    Answered fixedSizeLlseek a (k.step fixedSizeLlseek t) (k.events t) := by
  obtain ⟨count, hu⟩ := h.matches_at hpc
  simp only [Kernel.step, Kernel.events, hpc]
  apply h.acquiring
  · intro hi
    apply answered_refused hu
    · rw [CommandLog.perform, CommandLog.read, if_pos hi]
    · rw [FileOp.locks, hi, Bool.not_true]
    · apply h.goes
      · rw [hpc]
        rfl
      · rw [hpc]
        rfl
      · exact Or.inl rfl
      · rfl
  · intro hi hfree
    apply answered_silently
    apply h.acquires hfree
    · rfl
    · rfl
    · exact Or.inl rfl
    · exact ⟨hi, count, hu⟩

theorem step_findEntry (h : InStep fixedSizeLlseek k a) {env : ReadEnv}
    (hpc : k.pc t.thread = .findEntry env) :
    Answered fixedSizeLlseek a (k.step fixedSizeLlseek t) (k.events t) := by
  obtain ⟨hi, count, hu⟩ := h.matches_at hpc
  have hholds : Holds k.driver a.log := h.holds_at hpc rfl
  have hfind := hholds.find_eq (k.fPos t.thread)
  simp only [Kernel.step, Kernel.events, hpc, hfind]
  cases hl : CommandLog.lookup a.log.sizes (int32 (k.fPos t.thread)) with
  | none =>
      apply answered_performed hu
      · rw [CommandLog.perform, CommandLog.read, if_neg (by rw [hi]; decide), hl]
      · rw [FileOp.locks, hi, Bool.not_false]
      · apply h.goes
        · rw [hpc]
          rfl
        · rw [hpc]
          rfl
        · exact Or.inl rfl
        · rfl
  | some r =>
      rw [hl] at hfind
      apply answered_silently
      apply h.goes
      · rw [hpc]
        rfl
      · rw [hpc]
        rfl
      · exact Or.inl rfl
      · exact ⟨hi, ⟨count, hu⟩, hfind⟩

theorem step_copyToUser (h : InStep fixedSizeLlseek k a) {env : ReadEnv}
    {rdEntry relativePos : Nat} (hpc : k.pc t.thread = .copyToUser env rdEntry relativePos) :
    Answered fixedSizeLlseek a (k.step fixedSizeLlseek t) (k.events t) := by
  obtain ⟨hi, ⟨count, hu⟩, hfound⟩ := h.matches_at hpc
  have hholds : Holds k.driver a.log := h.holds_at hpc rfl
  rw [hholds.find_eq, Option.some.injEq] at hfound
  obtain ⟨⟨j, o⟩, hl, heq⟩ := Option.map_eq_some_iff.mp hfound
  obtain ⟨rfl, rfl⟩ := Prod.mk.inj heq
  obtain ⟨hn, hbytes, hin⟩ := hholds.copy_eq h.short hl env.stale
  have hlen : ((a.log.commands.getD j []).drop o).length < 2 ^ 63 := by
    have := h.short.getD j
    rw [List.length_drop]
    omega
  have hsame : k.setHeap { k.driver.heap with fault := k.driver.heap.fault || !true } = k := by
    rw [Bool.not_true, Bool.or_false]
    rfl
  simp only [Kernel.step, Kernel.events, hpc, hn, hbytes, decide_eq_true hin, hsame,
    int64_natCast _ hlen]
  have hread := CommandLog.read_of_lookup hi hl
  by_cases hc : env.notCopied = 0
  · rw [if_pos hc] at hread ⊢
    apply answered_performed hu
    · rw [CommandLog.perform, hread]
    · rw [FileOp.locks, hi, Bool.not_false]
    · apply h.moves
      · rw [hpc]
        rfl
      · rw [hpc]
        rfl
      · exact Or.inl rfl
      · rfl
  · rw [if_neg hc] at hread ⊢
    apply answered_performed hu
    · rw [CommandLog.perform, hread]
    · rw [FileOp.locks, hi, Bool.not_false]
    · apply h.goes
      · rw [hpc]
        rfl
      · rw [hpc]
        rfl
      · exact Or.inl rfl
      · rfl

theorem step_unlockRead (h : InStep fixedSizeLlseek k a) {rdEntry : Nat} {ret : Int}
    {data : List UInt8} (hpc : k.pc t.thread = .unlockRead rdEntry ret data) :
    Answered fixedSizeLlseek a (k.step fixedSizeLlseek t) (k.events t) := by
  have hu := h.matches_at hpc
  simp only [Kernel.step, Kernel.events, hpc]
  apply answered_silently
  apply h.releases
  · rw [hpc]
    rfl
  · rw [hpc]
    rfl
  · rfl
  · rw [hpc]
    rfl
  · exact hu

theorem step_printEntry (h : InStep fixedSizeLlseek k a) {rdEntry : Nat} {ret : Int}
    {data : List UInt8} (hpc : k.pc t.thread = .printEntry rdEntry ret data) :
    Answered fixedSizeLlseek a (k.step fixedSizeLlseek t) (k.events t) := by
  have hu := h.matches_at hpc
  simp only [Kernel.step, Kernel.events, hpc]
  apply answered_silently
  apply h.goes
  · rw [hpc]
    rfl
  · rw [hpc]
    rfl
  · exact Or.inl rfl
  · exact hu

theorem step_printString (h : InStep fixedSizeLlseek k a) {buffptr : Option Nat} {ret : Int}
    {data : List UInt8} (hpc : k.pc t.thread = .printString buffptr ret data) :
    Answered fixedSizeLlseek a (k.step fixedSizeLlseek t) (k.events t) := by
  have hu := h.matches_at hpc
  simp only [Kernel.step, Kernel.events, hpc]
  apply answered_silently
  have hgoes := @goes _ _ _ _ _ h t.thread (.returning ret data) _ (by rw [hpc]; rfl)
    (by rw [hpc]; rfl) (Or.inl rfl) hu
  exact hgoes.prints buffptr

/-! ### `aesd_llseek` and `aesd_ioctl` -/

theorem step_lockLlseek (h : InStep fixedSizeLlseek k a) {interrupted : Bool} {offset whence : Int}
    (hpc : k.pc t.thread = .lockLlseek interrupted offset whence) :
    Answered fixedSizeLlseek a (k.step fixedSizeLlseek t) (k.events t) := by
  obtain ⟨hu, hw⟩ := h.matches_at hpc
  simp only [Kernel.step, Kernel.events, hpc]
  apply h.acquiring
  · intro hi
    apply answered_refused hu
    · rw [CommandLog.perform, CommandLog.llseek, if_pos hw, if_pos hi]
    · rw [FileOp.locks, hi, Bool.not_true, Bool.false_and]
    · apply h.goes
      · rw [hpc]
        rfl
      · rw [hpc]
        rfl
      · exact Or.inl rfl
      · rfl
  · intro hi hfree
    apply answered_silently
    apply h.acquires hfree
    · rfl
    · rfl
    · exact Or.inl rfl
    · rw [hi] at hu
      exact ⟨hu, hw⟩

theorem step_readSize (h : InStep fixedSizeLlseek k a) {offset whence : Int}
    (hpc : k.pc t.thread = .readSize offset whence) :
    Answered fixedSizeLlseek a (k.step fixedSizeLlseek t) (k.events t) := by
  obtain ⟨hu, hw⟩ := h.matches_at hpc
  have hholds : Holds k.driver a.log := h.holds_at hpc rfl
  have hsize := h.cbSize
  rw [hholds.totalSize_eq] at hsize
  simp only [Kernel.step, Kernel.events, hpc, hsize]
  apply answered_performed hu
  · rw [CommandLog.perform, CommandLog.llseek, if_pos hw, if_neg Bool.false_ne_true]
  · rw [FileOp.locks, decide_eq_true hw, Bool.not_false, Bool.and_true]
  · apply h.goes
    · rw [hpc]
      rfl
    · rw [hpc]
      rfl
    · exact Or.inl rfl
    · rfl

theorem step_unlockLlseek (h : InStep fixedSizeLlseek k a) {offset whence : Int} {cbSize : Nat}
    (hpc : k.pc t.thread = .unlockLlseek offset whence cbSize) :
    Answered fixedSizeLlseek a (k.step fixedSizeLlseek t) (k.events t) := by
  have hu := h.matches_at hpc
  simp only [Kernel.step, Kernel.events, hpc]
  apply answered_silently
  apply h.releases
  · rw [hpc]
    rfl
  · rw [hpc]
    rfl
  · rfl
  · rw [hpc]
    rfl
  · exact hu

theorem step_fixedSizeLlseek (h : InStep fixedSizeLlseek k a) {offset whence : Int} {cbSize : Nat}
    (hpc : k.pc t.thread = .fixedSizeLlseek offset whence cbSize) :
    Answered fixedSizeLlseek a (k.step fixedSizeLlseek t) (k.events t) := by
  have hu := h.matches_at hpc
  simp only [Kernel.step, Kernel.events, hpc]
  apply answered_silently
  apply h.moves
  · rw [hpc]
    rfl
  · rw [hpc]
    rfl
  · exact Or.inl rfl
  · exact hu

theorem step_lockIoctl (h : InStep fixedSizeLlseek k a) {interrupted : Bool} {seekto : AesdSeekto}
    (hpc : k.pc t.thread = .lockIoctl interrupted seekto) :
    Answered fixedSizeLlseek a (k.step fixedSizeLlseek t) (k.events t) := by
  have hu : a.threads t.thread =
      ⟨.called (.ioctl interrupted AESDCHAR_IOCSEEKTO (some seekto)), k.fPos t.thread⟩ :=
    h.matches_at hpc
  simp only [Kernel.step, Kernel.events, hpc]
  apply h.acquiring
  · intro hi
    apply answered_refused hu
    · simp only [CommandLog.perform, CommandLog.ioctl, if_true, hi]
      rfl
    · rw [FileOp.locks, hi, Bool.not_true, Bool.false_and, Bool.false_and]
    · apply h.goes
      · rw [hpc]
        rfl
      · rw [hpc]
        rfl
      · exact Or.inl rfl
      · rfl
  · intro hi hfree
    apply answered_silently
    apply h.acquires hfree
    · rfl
    · rfl
    · exact Or.inl rfl
    · rw [hi] at hu
      exact hu

theorem step_adjustOffset (h : InStep fixedSizeLlseek k a) {seekto : AesdSeekto}
    (hpc : k.pc t.thread = .adjustOffset seekto) :
    Answered fixedSizeLlseek a (k.step fixedSizeLlseek t) (k.events t) := by
  have hu : a.threads t.thread =
      ⟨.called (.ioctl false AESDCHAR_IOCSEEKTO (some seekto)), k.fPos t.thread⟩ :=
    h.matches_at hpc
  have hholds : Holds k.driver a.log := h.holds_at hpc rfl
  have hdata : (a.log.adjust (k.fPos t.thread) seekto).data = [] := by
    rw [CommandLog.adjust]
    split
    · rfl
    · split <;> rfl
  simp only [Kernel.step, Kernel.events, hpc, hholds.adjust_eq]
  apply answered_performed hu
  · simp only [CommandLog.perform, CommandLog.ioctl, if_true, Bool.false_eq_true, if_false]
    rfl
  · rfl
  · rw [hdata]
    apply h.moves
    · rw [hpc]
      rfl
    · rw [hpc]
      rfl
    · exact Or.inl rfl
    · rfl

/-! ### A call ends -/

theorem step_unlock (h : InStep fixedSizeLlseek k a) {ret : Int} {data : List UInt8}
    (hpc : k.pc t.thread = .unlock ret data) :
    Answered fixedSizeLlseek a (k.step fixedSizeLlseek t) (k.events t) := by
  have hu := h.matches_at hpc
  simp only [Kernel.step, Kernel.events, hpc]
  apply answered_silently
  apply h.releases
  · rw [hpc]
    rfl
  · rw [hpc]
    rfl
  · rfl
  · rw [hpc]
    rfl
  · exact hu

theorem step_returning (h : InStep fixedSizeLlseek k a) {ret : Int} {data : List UInt8}
    (hpc : k.pc t.thread = .returning ret data) :
    Answered fixedSizeLlseek a (k.step fixedSizeLlseek t) (k.events t) := by
  simp only [Kernel.step, Kernel.events, hpc]
  apply answered_returned (h.matches_at hpc)
  apply h.goes
  · rw [hpc]
    rfl
  · rw [hpc]
    rfl
  · exact Or.inl rfl
  · rfl

/-! ## Every statement, and every run of statements -/

theorem step (h : InStep fixedSizeLlseek k a) (hcat : t.Concatenates k) :
    Answered fixedSizeLlseek a (k.step fixedSizeLlseek t) (k.events t) := by
  cases hpc : k.pc t.thread with
  | idle => exact h.step_idle hpc
  | kmalloc buf env => exact h.step_kmalloc hpc
  | copyFromUser buf env buffptr => exact h.step_copyFromUser hpc
  | lockComplete buf env buffptr => exact h.step_lockComplete hpc
  | kfreeChunk buffptr => exact h.step_kfreeChunk hpc
  | takePartial buf env buffptr => exact h.step_takePartial hpc hcat
  | addEntry buf env buffptr total => exact h.step_addEntry hpc
  | unlockComplete count rmBuffptr size => exact h.step_unlockComplete hpc
  | kfreeRemoved count rmBuffptr size => exact h.step_kfreeRemoved hpc
  | lockPartial buf env buffptr => exact h.step_lockPartial hpc
  | keepPartial buf env buffptr => exact h.step_keepPartial hpc hcat
  | lockRead env => exact h.step_lockRead hpc
  | findEntry env => exact h.step_findEntry hpc
  | copyToUser env rdEntry relativePos => exact h.step_copyToUser hpc
  | unlockRead rdEntry ret data => exact h.step_unlockRead hpc
  | printEntry rdEntry ret data => exact h.step_printEntry hpc
  | printString buffptr ret data => exact h.step_printString hpc
  | lockLlseek interrupted offset whence => exact h.step_lockLlseek hpc
  | readSize offset whence => exact h.step_readSize hpc
  | unlockLlseek offset whence cbSize => exact h.step_unlockLlseek hpc
  | fixedSizeLlseek offset whence cbSize => exact h.step_fixedSizeLlseek hpc
  | lockIoctl interrupted seekto => exact h.step_lockIoctl hpc
  | adjustOffset seekto => exact h.step_adjustOffset hpc
  | unlock ret data => exact h.step_unlock hpc
  | returning ret data => exact h.step_returning hpc

end InStep

/-! ## Runs -/

theorem events_simulate (fixedSizeLlseek : LlseekFn) :
    (Kernel.eventMachine fixedSizeLlseek).Simulates (AtomicLog.eventMachine fixedSizeLlseek)
      (fun (k : Kernel ι) t => t.Concatenates k) (InStep fixedSizeLlseek) :=
  fun _ _ _ h hcat => h.step hcat

theorem kernel_simulates (fixedSizeLlseek : LlseekFn) :
    (Kernel.machine fixedSizeLlseek).Simulates (AtomicLog.machine fixedSizeLlseek)
      (fun (k : Kernel ι) t => t.Concatenates k) (InStep fixedSizeLlseek) := by
  rw [Kernel.machine_eq_hide, AtomicLog.machine_eq_hide]
  exact (events_simulate fixedSizeLlseek).hide DeviceEvent.seen?

/-- The calls of any number of threads, each statement of them interleaved with those of the others
in any order, are answered as whole calls would be that take effect one after the other, each of
them between its begin and its return.  While nobody is in a locked section the device holds the
log that those calls lead to. -/
theorem interleaved_calls_atomic (fixedSizeLlseek : LlseekFn) (fPos : ι → Int)
    {turns : List (KernelTurn ι)}
    (hcat : Runs.Guarded (Kernel.step fixedSizeLlseek) (fun k t => t.Concatenates k)
      (Kernel.start fPos) turns) :
    let k := (Kernel.machine fixedSizeLlseek).run (Kernel.start fPos) turns
    ∃ calls,
      let a := (AtomicLog.machine fixedSizeLlseek).run (AtomicLog.start fPos) calls
      (AtomicLog.machine fixedSizeLlseek).trace (AtomicLog.start fPos) calls =
          (Kernel.machine fixedSizeLlseek).trace (Kernel.start fPos) turns ∧
        (k.holder = none → Holds k.driver a.log) ∧
        ∀ i, k.pc i = .idle → a.threads i = ⟨.idle, k.fPos i⟩ := by
  obtain ⟨calls, h, htrace⟩ :=
    (kernel_simulates fixedSizeLlseek).run (InStep.start fixedSizeLlseek fPos) hcat
  refine ⟨calls, htrace, ?_, ?_⟩
  · intro hfree
    have hholds := h.holds
    rwa [seen_of_free hfree] at hholds
  · exact fun i hpc => h.matches_at hpc

/-- In every such run no access leaves its block or goes to a freed one, no block is freed twice, no
two threads are in their locked sections, and the block that a call works on is live, not
designated by the device and not worked on by another call. -/
theorem interleaved_calls_safe (fixedSizeLlseek : LlseekFn) (fPos : ι → Int)
    {turns : List (KernelTurn ι)}
    (hcat : Runs.Guarded (Kernel.step fixedSizeLlseek) (fun k t => t.Concatenates k)
      (Kernel.start fPos) turns) :
    let k := (Kernel.machine fixedSizeLlseek).run (Kernel.start fPos) turns
    k.driver.heap.fault = false ∧
      (∀ i j, (k.pc i).inSection = true → (k.pc j).inSection = true → i = j) ∧
      ∀ i b, (k.pc i).block = some b →
        k.driver.heap.Live b ∧ b ∉ k.driver.held ∧ ∀ j, (k.pc j).block = some b → j = i := by
  obtain ⟨calls, h, _⟩ :=
    (kernel_simulates fixedSizeLlseek).run (InStep.start fixedSizeLlseek fPos) hcat
  refine ⟨h.holds.noFault, ?_, ?_⟩
  · exact fun i j hi hj => h.mutex.excludes.alone hj hi
  · intro i b hb
    exact ⟨(h.inFlight i b hb).1, (h.inFlight i b hb).2, fun j hj => h.apart j i b hj hb⟩

end

/-- One thread writes `"a\n"` over and over, the other `"b"`, a statement each in turn. -/
def alternatingTurns (n : Nat) : List (KernelTurn Bool) :=
  (List.range n).map fun i =>
    if i % 2 = 0 then ⟨false, .write [97, 10] .calm⟩ else ⟨true, .write [98] .calm⟩

theorem concatenates_alternating :
    Runs.Guarded (Kernel.step fun fPos _ _ _ => (fPos, fPos)) (fun k t => t.Concatenates k)
      (Kernel.start fun _ => 0) (alternatingTurns 40) := by
  decide +kernel

theorem alternating_calls_atomic :
    ∃ calls,
      (AtomicLog.machine fun fPos _ _ _ => (fPos, fPos)).trace (AtomicLog.start fun _ => 0) calls =
        (Kernel.machine fun fPos _ _ _ => (fPos, fPos)).trace (Kernel.start fun _ => 0)
          (alternatingTurns 40) := by
  obtain ⟨calls, htrace, _⟩ := interleaved_calls_atomic _ _ concatenates_alternating
  exact ⟨calls, htrace⟩

theorem alternating_calls_safe :
    ((Kernel.machine fun fPos _ _ _ => (fPos, fPos)).run (Kernel.start fun _ => 0)
      (alternatingTurns 40)).driver.heap.fault = false :=
  (interleaved_calls_safe _ _ concatenates_alternating).1

end AesdChar
