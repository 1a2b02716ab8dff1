import AesdChar.ChatThreads
import AesdChar.InterleavedLedger
import AesdChar.Lib.Users
import AesdChar.ProcessPacket

/-!
# One device, shared by all connections

The threads of any number of connections over the statements of the driver.  Every packet that a
thread was told it had written is in the history of the device, once, whole, and in the order in
which its connection sent it; the device keeps the last ten of the history.  Because a packet ends
a line, the threads never have `handle_partial_data` run for one another.
-/

namespace AesdChar

open CInt

variable {ι : Type} [DecidableEq ι]

def chatUsers : Users (Chats ι) (ι × ChatStep) (DeviceEvent ι) :=
  ⟨fun c step => c.own step.1 step.2, Chats.hear⟩

/-- The threads, and the driver with each of them somewhere in its code. -/
abbrev SharedDevice (ι : Type) := Chats ι × Kernel ι

namespace SharedDevice

/-- All connections have just been accepted; `pkt` is what is in their `write_back_pkt`. -/
def start (pkt : ι → List UInt8) : SharedDevice ι := (.start pkt, .start fun _ => 0)

/-- A step of a thread, or a statement of the driver. -/
def step (fixedSizeLlseek : LlseekFn) :
    SharedDevice ι → (ι × ChatStep) ⊕ KernelTurn ι → SharedDevice ι :=
  (Kernel.eventMachine fixedSizeLlseek).joint chatUsers

/-- Any order of them. -/
def run (fixedSizeLlseek : LlseekFn) (s : SharedDevice ι)
    (steps : List ((ι × ChatStep) ⊕ KernelTurn ι)) : SharedDevice ι :=
  steps.foldl (step fixedSizeLlseek) s

/-- The three calls of `strtok` for a command have none of another thread's between them, and no
packet is longer than `write_back_pkt`. -/
abbrev Harmless (s : SharedDevice ι) (turn : (ι × ChatStep) ⊕ KernelTurn ι) : Prop :=
  Users.OwnSteps (fun (c : Chats ι) (k : ι × ChatStep) => c.Harmless k.1 k.2) s turn

/-- Every turn of the run is. -/
abbrev HarmlessRun (fixedSizeLlseek : LlseekFn) (pkt : ι → List UInt8)
    (steps : List ((ι × ChatStep) ⊕ KernelTurn ι)) : Prop :=
  Runs.Guarded (step fixedSizeLlseek) Harmless (start pkt) steps

end SharedDevice

/-! ## The history -/

/-- The packets of one connection, in the order of the history. -/
def packetsOf (i : ι) (history : List (ι × List UInt8)) : List (List UInt8) :=
  (history.filter fun p => p.1 = i).map Prod.snd

theorem packetsOf_append (i : ι) (history more : List (ι × List UInt8)) :
    packetsOf i (history ++ more) = packetsOf i history ++ packetsOf i more := by
  rw [packetsOf, List.filter_append, List.map_append]
  rfl

theorem packetsOf_own (i : ι) (packet : List UInt8) : packetsOf i [(i, packet)] = [packet] := by
  simp [packetsOf]

theorem packetsOf_other {i j : ι} (h : i ≠ j) (packet : List UInt8) :
    packetsOf i [(j, packet)] = [] := by
  simp [packetsOf, h.symm]

/-- What a write has put into the history that the thread does not know of yet. -/
def underWay (t : ChatThread) (u : AtomicThread) : List (List UInt8) :=
  match t.pc, u.pc with
  | .write _, .done ret _ => if int32 (sysRet ret) = t.conn.len then [t.packet] else []
  | _, _ => []

/-- The call that the thread is in is one that it asked for. -/
def InCall (t : ChatThread) (u : AtomicThread) : Prop :=
  match u.pc with
  | .idle => True
  | .called op => t.asks op = true
  | .done _ _ => t.pc.onDevice = true

theorem underWay_of_not_write {t : ChatThread} (h : ∀ n, t.pc ≠ .write n) (u : AtomicThread) :
    underWay t u = [] := by
  unfold underWay
  split
  · rename_i n _ _ hn _
    exact absurd hn (h n)
  · rfl

theorem underWay_of_not_done {u : AtomicThread} (h : ∀ ret data, u.pc ≠ .done ret data)
    (t : ChatThread) : underWay t u = [] := by
  unfold underWay
  split
  · rename_i ret data _ hdone
    exact absurd hdone (h ret data)
  · rfl

/-- Told of it, the thread counts it as written. -/
theorem written_answer (t : ChatThread) (ret : Int) (data : List UInt8) (fPos : Int) :
    (t.answer ret data).written = t.written ++ underWay t ⟨.done ret data, fPos⟩ := by
  cases hpc : t.pc with
  | write n =>
      simp only [ChatThread.answer, hpc, underWay, ChatThread.written, List.filter_append,
        List.map_append]
      congr 1
      by_cases hall : int32 (sysRet ret) = t.conn.len
      · simp [hall]
      · simp [hall]
  | ioctl n seekto =>
      rw [underWay_of_not_write (by simp [hpc]), List.append_nil]
      simp only [ChatThread.answer, hpc]
      split <;> rfl
  | _ =>
      rw [underWay_of_not_write (by simp [hpc]), List.append_nil]
      simp only [ChatThread.answer, hpc, ChatThread.written]

/-- What a thread was told is in the history, with what it is about to be told. -/
structure InHistory (history : List (ι × List UInt8)) (i : ι) (t : ChatThread) (u : AtomicThread) :
    Prop where
  sound : t.Sound
  fits : ∀ packet ∈ t.pending, packet.length ≤ MAX_BUF_SIZE
  inCall : InCall t u
  mine : packetsOf i history = t.written ++ underWay t u

theorem InHistory.mark {history : List (ι × List UInt8)} {i : ι} {t : ChatThread}
    {u : AtomicThread} (h : InHistory history i t u) (taken : Nat) :
    InHistory history i (t.mark taken) u := by
  have hsound := h.sound.mark taken
  rcases t.mark_eq taken with heq | heq | heq
  · rwa [heq]
  · rw [heq] at hsound ⊢
    exact ⟨hsound, h.fits, h.inCall, h.mine⟩
  · rw [heq] at hsound ⊢
    exact ⟨hsound, h.fits, h.inCall, h.mine⟩

/-- The device and all threads agree with what was taken. -/
structure Recorded (c : Chats ι) (a : AtomicLog ι) : Prop where
  log : a.log = .ofPackets (c.stored.map Prod.snd)
  packets : ∀ p ∈ c.stored, IsPacket p.2
  threads : ∀ i, InHistory c.stored i (c.thread i) (a.threads i)

/-- A property of each thread, where one thread has moved. -/
theorem forall_moved {α β : ι → Type} {P : ∀ i, α i → β i → Prop} {x : ∀ i, α i} {y : ∀ i, β i}
    (i : ι) {t : α i} {u : β i} (hself : P i t u) (hothers : ∀ j, j ≠ i → P j (x j) (y j)) (j : ι) :
    P j (Function.update x i t j) (Function.update y i u j) := by
  by_cases hj : j = i
  · subst hj
    rw [Function.update_self, Function.update_self]
    exact hself
  · rw [Function.update_of_ne hj, Function.update_of_ne hj]
    exact hothers j hj

namespace Recorded

variable {c : Chats ι} {a : AtomicLog ι}

theorem start (pkt : ι → List UInt8) (fPos : ι → Int) :
    Recorded (Chats.start pkt) (AtomicLog.start fPos) where
  log := rfl
  packets := fun _ hp => absurd hp List.not_mem_nil
  threads := fun i =>
    ⟨.start (pkt i), fun _ h => absurd h List.not_mem_nil, trivial, rfl⟩

/-- One thread moves, and nothing is taken. -/
theorem update (h : Recorded c a) (i : ι) {t : ChatThread} {u : AtomicThread}
    (strtok : Option (ι × Nat)) (hmove : InHistory c.stored i t u) :
    Recorded ⟨Function.update c.thread i t, strtok, c.stored⟩
      ⟨a.log, Function.update a.threads i u⟩ :=
  ⟨h.log, h.packets, forall_moved i hmove fun j _ => h.threads j⟩

/-- A packet of one thread is taken. -/
theorem append (h : Recorded c a) (i : ι) {packet : List UInt8} (hpacket : IsPacket packet)
    {t : ChatThread} {u : AtomicThread} (hmove : InHistory (c.stored ++ [(i, packet)]) i t u) :
    Recorded ⟨Function.update c.thread i t, c.strtok, c.stored ++ [(i, packet)]⟩
      ⟨a.log.accept packet, Function.update a.threads i u⟩ where
  log := by
    rw [List.map_append, List.map_singleton, CommandLog.ofPackets_concat hpacket, ← h.log]
  packets := by
    intro p hp
    rcases List.mem_append.mp hp with hold | hnew
    · exact h.packets p hold
    · rw [List.mem_singleton.mp hnew]
      exact hpacket
  threads := by
    refine forall_moved (P := InHistory (c.stored ++ [(i, packet)])) i hmove fun j hj => ?_
    have hold := h.threads j
    refine ⟨hold.sound, hold.fits, hold.inCall, ?_⟩
    rw [packetsOf_append, packetsOf_other hj, List.append_nil]
    exact hold.mine

/-- A thread that takes a step of its own is not in a call. -/
theorem idle_of_own (h : Recorded c a) {i : ι} (hpc : (c.thread i).pc.onDevice = false) :
    (a.threads i).pc = .idle := by
  have hcall := (h.threads i).inCall
  unfold InCall at hcall
  split at hcall
  · assumption
  · rw [ChatThread.onDevice_of_asks hcall] at hpc
    exact absurd hpc (by decide)
  · rw [hcall] at hpc
    exact absurd hpc (by decide)

/-- A step of its own changes nothing of what a thread has written. -/
theorem moved (h : Recorded c a) {i : ι} (hpc : (c.thread i).pc.onDevice = false)
    {t : ChatThread} (hsound : t.Sound) (hwrites : t.writes = (c.thread i).writes)
    (hfits : ∀ packet ∈ t.pending, packet.length ≤ MAX_BUF_SIZE) (strtok : Option (ι × Nat)) :
    Recorded ⟨Function.update c.thread i t, strtok, c.stored⟩ a := by
  have hidle := h.idle_of_own hpc
  have hnone : ∀ t, underWay t (a.threads i) = [] := underWay_of_not_done (by simp [hidle])
  have hmine := (h.threads i).mine
  rw [hnone] at hmine
  have hmove : InHistory c.stored i t (a.threads i) := by
    refine ⟨hsound, hfits, ?_, ?_⟩
    · unfold InCall
      rw [hidle]
      trivial
    · rw [hmine, hnone, ChatThread.written, ChatThread.written, hwrites]
  have hall := h.update i strtok hmove
  rwa [Function.update_eq_self] at hall

theorem own (h : Recorded c a) {i : ι} {env : ChatStep} (hharmless : c.Harmless i env) :
    Recorded (c.own i env) a := by
  obtain ⟨t, strtok, heq, hfits, hcases⟩ := hharmless.own_moves
  rw [heq]
  rcases hcases with ⟨-, rfl⟩ | ⟨htok, pos, rfl⟩
  · cases hpc : (c.thread i).pc.onDevice with
    | true =>
        -- a thread in a call takes no step of its own
        rw [ChatThread.own_of_onDevice hpc, Function.update_eq_self]
        exact ⟨h.log, h.packets, h.threads⟩
    | false =>
        exact h.moved hpc ((h.threads i).sound.own env) ((c.thread i).own_writes env) hfits strtok
  · have hpc : (c.thread i).pc.onDevice = false := ChatPc.onDevice_of_tokenizes htok
    exact h.moved hpc ((h.threads i).sound.token htok env pos)
      ((c.thread i).token_writes env pos) hfits strtok

theorem called (h : Recorded c a) {i : ι} {fPos : Int} {op : FileOp}
    (hu : a.threads i = ⟨.idle, fPos⟩) (hasks : (c.thread i).asks op = true) :
    Recorded c ⟨a.log, Function.update a.threads i ⟨.called op, fPos⟩⟩ := by
  have hold := h.threads i
  have hmine := hold.mine
  rw [hu, underWay_of_not_done (by simp)] at hmine
  have hall := h.update i c.strtok (t := c.thread i) (u := ⟨.called op, fPos⟩)
    ⟨hold.sound, hold.fits, hasks, by rw [hmine, underWay_of_not_done (by simp)]⟩
  rwa [Function.update_eq_self] at hall

theorem returned (h : Recorded c a) {i : ι} {fPos ret : Int} {data : List UInt8}
    (hu : a.threads i = ⟨.done ret data, fPos⟩) :
    Recorded ⟨Function.update c.thread i ((c.thread i).answer ret data), c.strtok, c.stored⟩
      ⟨a.log, Function.update a.threads i ⟨.idle, fPos⟩⟩ := by
  have hold := h.threads i
  have hcall := hold.inCall
  rw [hu] at hcall
  apply h.update i
  refine ⟨hold.sound.answer ret data, ?_, trivial, ?_⟩
  · rw [ChatThread.pending_answer hcall]
    exact fun _ hmem => absurd hmem List.not_mem_nil
  · have hidle : underWay ((c.thread i).answer ret data) ⟨.idle, fPos⟩ = [] :=
      underWay_of_not_done (by simp) _
    rw [hidle, List.append_nil, hold.mine, hu, written_answer]

/-- A write that did not put its packet into the log tells so. -/
theorem underWay_of_failed {t : ChatThread} (hsound : t.Sound) {n : Nat} (hpc : t.pc = .write n)
    {ret fPos : Int} (hret : ret ≤ 0) : underWay t ⟨.done ret [], fPos⟩ = [] := by
  have hline := hsound.line n hpc
  have hlen : 0 < t.conn.len := by
    rw [← hline.2]
    apply List.length_pos_of_ne_nil
    intro hnil
    rw [hnil] at hline
    exact absurd hline.1 (by simp)
  have hsys : sysRet ret = -1 ∨ sysRet ret = 0 := by
    unfold sysRet
    split <;> omega
  have hne : ¬ int32 (sysRet ret) = t.conn.len := by
    rcases hsys with hs | hs
    · rw [hs, show int32 (-1) = -1 from rfl]
      omega
    · rw [hs, show int32 0 = 0 from rfl]
      omega
  simp only [underWay, hpc, if_neg hne]

/-- A call is through with the device, and nothing was taken. -/
theorem done (h : Recorded c a) {i : ι} {op : FileOp} {fPos : Int}
    (hu : a.threads i = ⟨.called op, fPos⟩) {ret : Int} {data : List UInt8} {fPos' : Int}
    (hnone : underWay (c.thread i) ⟨.done ret data, fPos'⟩ = []) :
    InHistory c.stored i (c.thread i) ⟨.done ret data, fPos'⟩ := by
  have hold := h.threads i
  have hcall := hold.inCall
  have hmine := hold.mine
  rw [hu] at hcall
  rw [hu, underWay_of_not_done (by simp)] at hmine
  exact ⟨hold.sound, hold.fits, ChatThread.onDevice_of_asks hcall, by rw [hmine, hnone]⟩

/-- One that gets to no locked section. -/
theorem refused (h : Recorded c a) (fixedSizeLlseek : LlseekFn) {i : ι} {op : FileOp} {fPos : Int}
    (hu : a.threads i = ⟨.called op, fPos⟩) (hlocks : op.locks = false) :
    let r := a.log.perform fixedSizeLlseek fPos op
    Recorded c ⟨r.1, Function.update a.threads i ⟨.done r.2.ret r.2.data, r.2.fPos⟩⟩ := by
  have hcall := (h.threads i).inCall
  rw [hu] at hcall
  have hstay : ∀ {ret : Int} {data : List UInt8} {fPos' : Int},
      underWay (c.thread i) ⟨.done ret data, fPos'⟩ = [] →
      Recorded c ⟨a.log, Function.update a.threads i ⟨.done ret data, fPos'⟩⟩ := by
    intro ret data fPos' hnone
    have hall := h.update i c.strtok (h.done hu hnone)
    rwa [Function.update_eq_self] at hall
  cases op with
  | write buf env =>
      obtain ⟨n, hpc, -⟩ := ChatThread.asks_write hcall
      simp only [CommandLog.perform, CommandLog.write]
      by_cases hmem : kmallocSucceeds buf.length env.kmalloc = false
      · simp only [if_pos hmem]
        exact hstay (underWay_of_failed (h.threads i).sound hpc (by decide))
      · have hint : env.interrupted = true := by simpa [FileOp.locks, hmem] using hlocks
        simp only [if_neg hmem, if_pos hint]
        exact hstay (underWay_of_failed (h.threads i).sound hpc le_rfl)
  | read count env =>
      obtain ⟨n, serving, hpc, -⟩ := ChatThread.asks_read hcall
      exact hstay (underWay_of_not_write (by simp [hpc]) _)
  | llseek interrupted offset whence =>
      obtain ⟨n, hpc, -⟩ := ChatThread.asks_llseek hcall
      exact hstay (underWay_of_not_write (by simp [hpc]) _)
  | ioctl interrupted cmd arg =>
      obtain ⟨n, seekto, hpc, -⟩ := ChatThread.asks_ioctl hcall
      exact hstay (underWay_of_not_write (by simp [hpc]) _)

/-- What a write has the device take is the packet of its thread. -/
theorem command_write (h : Recorded c a) {i : ι} {buf : List UInt8} {env : WriteEnv} {fPos : Int}
    (hu : a.threads i = ⟨.called (.write buf env), fPos⟩) :
    ∃ n, (c.thread i).pc = .write n ∧ buf = (c.thread i).packet ∧ IsPacket buf ∧
      env.received buf = buf ∧ FileOp.command (.write buf env) = some buf := by
  have hcall := (h.threads i).inCall
  rw [hu] at hcall
  obtain ⟨n, hpc, rfl, hcopied⟩ := ChatThread.asks_write hcall
  have hreceived := received_of_copied env (c.thread i).packet hcopied
  have hline := (h.threads i).sound.line n hpc
  refine ⟨n, hpc, rfl, ⟨hline.1, (h.threads i).fits _ ?_⟩, hreceived, ?_⟩
  · rw [ChatThread.pending, hpc]
    exact List.mem_singleton_self _
  · rw [FileOp.command, hreceived]
    exact if_pos (List.mem_of_getLast? hline.1)

/-- One that does. -/
theorem effect (h : Recorded c a) (fixedSizeLlseek : LlseekFn) {i : ι} {op : FileOp} {fPos : Int}
    (hu : a.threads i = ⟨.called op, fPos⟩) (hlocks : op.locks = true) :
    let r := a.log.perform fixedSizeLlseek fPos op
    Recorded ⟨Function.update c.thread i ((c.thread i).mark c.stored.length), c.strtok,
        c.stored ++ op.command.toList.map fun packet => (i, packet)⟩
      ⟨r.1, Function.update a.threads i ⟨.done r.2.ret r.2.data, r.2.fPos⟩⟩ := by
  have hold := h.threads i
  have hcall := hold.inCall
  rw [hu] at hcall
  have hlooks : ∀ {ret : Int} {data : List UInt8} {fPos' : Int},
      underWay (c.thread i) ⟨.done ret data, fPos'⟩ = [] →
      Recorded ⟨Function.update c.thread i ((c.thread i).mark c.stored.length), c.strtok,
        c.stored ++ []⟩ ⟨a.log, Function.update a.threads i ⟨.done ret data, fPos'⟩⟩ := by
    intro ret data fPos' hnone
    rw [List.append_nil]
    exact h.update i c.strtok ((h.done hu hnone).mark _)
  cases op with
  | write buf env =>
      obtain ⟨n, hpc, rfl, hpacket, hreceived, hcommand⟩ := h.command_write hu
      rw [FileOp.locks, Bool.and_eq_true, Bool.not_eq_true'] at hlocks
      have hmine := hold.mine
      rw [hu, underWay_of_not_done (by simp), List.append_nil] at hmine
      have hsize := hpacket.2
      -- what the write returns is the length that the thread compares it with
      have hret : int32 (sysRet ((c.thread i).packet.length : Int)) = (c.thread i).conn.len := by
        unfold MAX_BUF_SIZE at hsize
        rw [sysRet, if_neg (by omega), int32_natCast _ (by omega), (hold.sound.line n hpc).2]
      simp only [hcommand, CommandLog.perform, CommandLog.write, hlocks.1, hlocks.2, hreceived,
        Bool.true_eq_false, Bool.false_eq_true, if_false]
      apply h.append i hpacket
      apply InHistory.mark
      refine ⟨hold.sound, hold.fits, ?_, ?_⟩
      · show (c.thread i).pc.onDevice = true
        rw [hpc]
        rfl
      · rw [packetsOf_append, packetsOf_own, hmine]
        simp only [underWay, hpc, if_pos hret]
  | read count env =>
      obtain ⟨n, serving, hpc, -⟩ := ChatThread.asks_read hcall
      exact hlooks (underWay_of_not_write (by simp [hpc]) _)
  | llseek interrupted offset whence =>
      obtain ⟨n, hpc, -⟩ := ChatThread.asks_llseek hcall
      exact hlooks (underWay_of_not_write (by simp [hpc]) _)
  | ioctl interrupted cmd arg =>
      obtain ⟨n, seekto, hpc, -⟩ := ChatThread.asks_ioctl hcall
      exact hlooks (underWay_of_not_write (by simp [hpc]) _)

end Recorded

/-- The steps of an atomic call, as the threads take part in them. -/
theorem heard_cases {fixedSizeLlseek : LlseekFn} {c c' : Chats ι} {a : AtomicLog ι}
    {t : KernelTurn ι} (hheard : (a.events t).foldlM Chats.hear c = some c') :
    (∃ fPos, a.threads t.thread = ⟨.idle, fPos⟩ ∧ (c.thread t.thread).asks t.op = true ∧ c' = c ∧
      a.step fixedSizeLlseek t =
        ⟨a.log, Function.update a.threads t.thread ⟨.called t.op, fPos⟩⟩) ∨
    (∃ op fPos, a.threads t.thread = ⟨.called op, fPos⟩ ∧
      ((op.locks = false ∧ c' = c) ∨
        (op.locks = true ∧ c' =
          ⟨Function.update c.thread t.thread ((c.thread t.thread).mark c.stored.length), c.strtok,
            c.stored ++ op.command.toList.map fun packet => (t.thread, packet)⟩)) ∧
      a.step fixedSizeLlseek t =
        let r := a.log.perform fixedSizeLlseek fPos op
        ⟨r.1, Function.update a.threads t.thread ⟨.done r.2.ret r.2.data, r.2.fPos⟩⟩) ∨
    (∃ ret data fPos, a.threads t.thread = ⟨.done ret data, fPos⟩ ∧
      c' = ⟨Function.update c.thread t.thread ((c.thread t.thread).answer ret data), c.strtok,
        c.stored⟩ ∧
      a.step fixedSizeLlseek t = ⟨a.log, Function.update a.threads t.thread ⟨.idle, fPos⟩⟩) := by
  generalize hu : a.threads t.thread = u
  obtain ⟨pc, fPos⟩ := u
  cases pc with
  | idle =>
      apply Or.inl
      simp only [AtomicLog.events, hu, List.foldlM_cons, List.foldlM_nil, Chats.hear] at hheard
      by_cases hasks : (c.thread t.thread).asks t.op = true
      · rw [if_pos hasks] at hheard
        refine ⟨fPos, rfl, hasks, (Option.some.inj hheard).symm, ?_⟩
        simp only [AtomicLog.step, hu]
      · rw [if_neg hasks] at hheard
        exact absurd hheard (by simp)
  | called op =>
      apply Or.inr
      apply Or.inl
      refine ⟨op, fPos, rfl, ?_, by simp only [AtomicLog.step, hu]⟩
      simp only [AtomicLog.events, hu] at hheard
      cases hlocks : op.locks with
      | false =>
          rw [hlocks, if_neg Bool.false_ne_true, List.foldlM_nil] at hheard
          exact Or.inl ⟨rfl, (Option.some.inj hheard).symm⟩
      | true =>
          rw [hlocks, if_pos rfl] at hheard
          exact Or.inr ⟨rfl, (Option.some.inj hheard).symm⟩
  | done ret data =>
      apply Or.inr
      apply Or.inr
      simp only [AtomicLog.events, hu] at hheard
      refine ⟨ret, data, fPos, rfl, (Option.some.inj hheard).symm, ?_⟩
      simp only [AtomicLog.step, hu]

theorem Recorded.kept (fixedSizeLlseek : LlseekFn) :
    (AtomicLog.eventMachine (ι := ι) fixedSizeLlseek).Kept chatUsers
      (fun c k => c.Harmless k.1 k.2) Recorded where
  own := fun _ _ _ h hharmless => h.own hharmless
  step := by
    intro c a t c' h hheard
    show Recorded c' (a.step fixedSizeLlseek t)
    rcases heard_cases hheard with ⟨fPos, hu, hasks, rfl, hstep⟩ | ⟨op, fPos, hu, hcases, hstep⟩ |
      ⟨ret, data, fPos, hu, rfl, hstep⟩
    · rw [hstep]
      exact h.called hu hasks
    · rw [hstep]
      rcases hcases with ⟨hlocks, rfl⟩ | ⟨hlocks, rfl⟩
      · exact h.refused fixedSizeLlseek hu hlocks
      · exact h.effect fixedSizeLlseek hu hlocks
    · rw [hstep]
      exact h.returned hu

/-! ## Over the statements of the driver -/

/-- What a thread has the driver write ends a line. -/
theorem Recorded.newline_mem {c : Chats ι} {a : AtomicLog ι} (h : Recorded c a) {i : ι}
    {buf : List UInt8} {env : WriteEnv} {fPos : Int}
    (hu : a.threads i = ⟨.called (.write buf env), fPos⟩) : NEWLINE ∈ env.received buf := by
  obtain ⟨n, -, -, hpacket, hreceived, -⟩ := h.command_write hu
  rw [hreceived]
  exact List.mem_of_getLast? hpacket.1

/-- With no command pending nothing is concatenated, and no block forgotten. -/
theorem Recorded.forgetsNone {fixedSizeLlseek : LlseekFn} {c : Chats ι} {a : AtomicLog ι}
    (h : Recorded c a) {k : Kernel ι} (hstep : InStep fixedSizeLlseek k a) (t : KernelTurn ι) :
    t.ForgetsNone k := by
  unfold KernelTurn.ForgetsNone
  cases hpc : k.pc t.thread with
  | takePartial buf env buffptr =>
      -- the log is one of packets, and these leave nothing pending
      have hholds := hstep.holds_at hpc rfl
      have hpending := hholds.pending
      simp only [CallPc.sees, h.log, CommandLog.ofPackets] at hpending
      exact hpending.1
  | lockPartial buf env buffptr =>
      -- the branch of a chunk without a '\n', which no thread writes
      obtain ⟨hu, -, hnot⟩ := hstep.matches_at hpc
      exact absurd (h.newline_mem hu) hnot
  | keepPartial buf env buffptr =>
      obtain ⟨hu, -, hnot, -⟩ := hstep.matches_at hpc
      exact absurd (h.newline_mem hu) hnot
  | _ => trivial

theorem Recorded.concatenates {fixedSizeLlseek : LlseekFn} {c : Chats ι} {a : AtomicLog ι}
    (h : Recorded c a) {k : Kernel ι} (hstep : InStep fixedSizeLlseek k a) (t : KernelTurn ι) :
    t.Concatenates k :=
  (h.forgetsNone hstep t).concatenates

/-- The packets that were taken, in their order, explain the device and what every thread was
told. -/
structure Explained (s : SharedDevice ι) : Prop where
  -- the last ten are there whenever nobody is changing them
  device : s.2.holder = none → Holds s.2.driver (.ofPackets (s.1.stored.map Prod.snd))
  safe : s.2.driver.heap.fault = false
  -- each packet handed over is written, once and in order
  handed : ∀ i, (s.1.thread i).conn.handed.filterMap Handed.packet? =
    (s.1.thread i).writes.map Prod.fst ++ (s.1.thread i).pending
  -- those that were written are what the device took from the connection
  written : ∀ i, packetsOf i s.1.stored = (s.1.thread i).written ∨
    packetsOf i s.1.stored = (s.1.thread i).written ++ (s.1.thread i).pending
  settled : ∀ i, s.2.pc i = .idle → packetsOf i s.1.stored = (s.1.thread i).written

theorem underWay_cases (t : ChatThread) (u : AtomicThread) :
    underWay t u = [] ∨ underWay t u = t.pending := by
  unfold underWay ChatThread.pending
  split
  · rename_i hpc _
    rw [hpc]
    split
    · exact Or.inr rfl
    · exact Or.inl rfl
  · exact Or.inl rfl

theorem Recorded.explained {fixedSizeLlseek : LlseekFn} {s : SharedDevice ι} {a : AtomicLog ι}
    (h : Recorded s.1 a) (hstep : InStep fixedSizeLlseek s.2 a) : Explained s where
  device := by
    intro hfree
    have hholds := hstep.holds
    rwa [seen_of_free hfree, h.log] at hholds
  safe := hstep.holds.noFault
  handed := fun i => (h.threads i).sound.handed
  written := by
    intro i
    rw [(h.threads i).mine]
    rcases underWay_cases (s.1.thread i) (a.threads i) with hnone | hpending
    · exact Or.inl (by rw [hnone, List.append_nil])
    · exact Or.inr (by rw [hpending])
  settled := by
    intro i hidle
    have hu : a.threads i = ⟨.idle, s.2.fPos i⟩ := hstep.matches_at hidle
    rw [(h.threads i).mine, hu, underWay_of_not_done (by simp), List.append_nil]

/-- Any number of connections, each in the middle of any of its calls, with any of the device's
allocations and locks failing and any of the sends and reads on the connections: the order in which
the device took packets explains it and every thread.  No packet that a thread was told it had
written is lost, comes twice, or shares a command with another; none that it was told had failed is
there. -/
theorem packets_stored_once (fixedSizeLlseek : LlseekFn) (pkt : ι → List UInt8)
    {steps : List ((ι × ChatStep) ⊕ KernelTurn ι)}
    (hrun : SharedDevice.HarmlessRun fixedSizeLlseek pkt steps) :
    Explained ((SharedDevice.start pkt).run fixedSizeLlseek steps) := by
  obtain ⟨a, hstep, h⟩ := (events_simulate fixedSizeLlseek).users (Recorded.kept fixedSizeLlseek)
    (fun _ _ _ t h hstep => h.concatenates hstep t) (InStep.start fixedSizeLlseek fun _ => 0)
    (Recorded.start pkt fun _ => 0) hrun
  exact h.explained hstep

/-! ## Three clients -/

/-- `n` steps of thread `i` by itself, on a connection that has `line` to read. -/
def threadSteps (i n : Nat) (line : List UInt8) : List ((Nat × ChatStep) ⊕ KernelTurn Nat) :=
  List.replicate n (.inl (i, ⟨some (some line), ⟨fun _ => 0, [], fun _ => 0⟩, some MAX_BUF_SIZE⟩))

/-- `n` statements of thread `i` in the driver. -/
def driverSteps (i n : Nat) (op : FileOp) : List ((Nat × ChatStep) ⊕ KernelTurn Nat) :=
  List.replicate n (.inr ⟨i, op⟩)

def readSteps (i n : Nat) : List ((Nat × ChatStep) ⊕ KernelTurn Nat) :=
  driverSteps i n (.read MAX_BUF_SIZE ⟨false, 0, fun _ => 0⟩)

/-- A line of two bytes is received, scanned and written. -/
def writeSteps (i : Nat) (line : List UInt8) : List ((Nat × ChatStep) ⊕ KernelTurn Nat) :=
  threadSteps i 3 line ++ driverSteps i 9 (.write line .calm)

/-- `"b\n"` is written while the reply to `"a\n"` is on its way. -/
def twoClients : List ((Nat × ChatStep) ⊕ KernelTurn Nat) :=
  writeSteps 0 [97, 10] ++ driverSteps 0 6 (.llseek false 0 SEEK_SET) ++ readSteps 0 8 ++
    threadSteps 0 1 [] ++ writeSteps 1 [98, 10] ++ readSteps 0 8 ++ threadSteps 0 1 [] ++
    readSteps 0 5 ++ threadSteps 0 1 []

/-- `"AESDCHAR_IOCSEEKTO:1,0\n"` comes then, and is replied to with `"b\n"`. -/
def threeClients : List ((Nat × ChatStep) ⊕ KernelTurn Nat) :=
  twoClients ++ threadSteps 2 27 (ioctlCmd ++ [49, 44, 48, 10]) ++
    driverSteps 2 5 (.ioctl false AESDCHAR_IOCSEEKTO (some ⟨1, 0⟩)) ++ readSteps 2 8 ++
    threadSteps 2 1 [] ++ readSteps 2 5 ++ threadSteps 2 1 []

theorem harmless_threeClients :
    SharedDevice.HarmlessRun boundedLlseek (fun _ => []) threeClients := by
  decide +kernel

theorem packets_stored_once_three_clients :
    let s := (SharedDevice.start fun _ => []).run boundedLlseek threeClients
    s.1.stored = [(0, [97, 10]), (1, [98, 10])] ∧ Explained s :=
  ⟨by decide +kernel, packets_stored_once boundedLlseek (fun _ => []) harmless_threeClients⟩

/-! ## Two seek commands at once -/

/-- What the second call of `strtok` for the first client finds in the line of the other one,
behind the three that were made for that one, is `"a\n"`, and it takes the '\n'. -/
def cutNewline : List ((Nat × ChatStep) ⊕ KernelTurn Nat) :=
  threadSteps 0 25 (ioctlCmd ++ [49, 44, 48, 10]) ++
    threadSteps 1 27 (ioctlCmd ++ [48, 44, 48, 10, 97, 10]) ++
    driverSteps 1 5 (.ioctl false AESDCHAR_IOCSEEKTO (some ⟨0, 0⟩)) ++ readSteps 1 5 ++
    threadSteps 1 3 [] ++ threadSteps 0 1 [] ++
    driverSteps 1 7 (.write (ioctlCmd.take 18 ++ [0, 48, 0, 48, 0, 97, 0]) .calm)

/-- So without the condition on `strtok` a packet that was written can be left pending. -/
theorem shared_strtok_leaves_pending :
    let s := (SharedDevice.start fun _ => []).run boundedLlseek cutNewline
    (s.1.thread 1).written = [ioctlCmd.take 18 ++ [0, 48, 0, 48, 0, 97, 0]] ∧
      s.1.stored = [] ∧ s.2.driver.dev.partMemPtr.isSome = true ∧ ¬ Explained s := by
  intro s
  have hwritten : (s.1.thread 1).written =
      [ioctlCmd.take 18 ++ [0, 48, 0, 48, 0, 97, 0]] := by decide +kernel
  have hstored : s.1.stored = [] := by decide +kernel
  refine ⟨hwritten, hstored, by decide +kernel, fun h => ?_⟩
  have hcases := h.written 1
  rw [hstored, hwritten] at hcases
  rcases hcases with hnone | hnone
  · exact absurd hnone (by decide)
  · exact absurd (congrArg List.length hnone) (by simp [packetsOf])

end AesdChar
