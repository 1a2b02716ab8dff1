import AesdChar.ProcessPacket

/-!
# Threads on one device

Any number of threads, each in `process_packet` on a descriptor of its own, take turns at making
one device call.  No lock spans a call of `process_packet` in this build.  A reply stays a
snapshot of the device as long as no command is evicted under a thread that has sent part of it.
-/

namespace AesdChar

open CInt

inductive Pc where
  | write
  | lseek
  | read
deriving DecidableEq

structure Thread where
  pc : Pc
  client : Client

structure System (ι : Type) where
  driver : Driver
  threads : ι → Thread

/-- One thread makes its next call; the packet matters when that call is the write. -/
structure Turn (ι : Type) where
  thread : ι
  packet : List UInt8
  write : WriteEnv
  seekInterrupted : Bool
  read : ReadEnv
  conn : Int → Int

section

variable {ι : Type} [DecidableEq ι]

def System.move (s : System ι) (driver : Driver) (i : ι) (pc : Pc) (client : Client) : System ι :=
  ⟨driver, Function.update s.threads i ⟨pc, client⟩⟩

@[simp] theorem move_self (s : System ι) (driver : Driver) (i : ι) (pc : Pc) (client : Client) :
    (s.move driver i pc client).threads i = ⟨pc, client⟩ := Function.update_self i _ _

theorem move_of_ne (s : System ι) (driver : Driver) {i j : ι} (pc : Pc) (client : Client)
    (h : j ≠ i) : (s.move driver i pc client).threads j = s.threads j :=
  Function.update_of_ne h _ _

def System.step (fixedSizeLlseek : LlseekFn) (s : System ι) (t : Turn ι) : System ι :=
  let client := (s.threads t.thread).client
  match (s.threads t.thread).pc with
  | .write =>
      let written := packetWrite t.write s.driver { client with sent := [] } t.packet
      s.move written.1 t.thread .lseek written.2
  | .lseek =>
      s.move s.driver t.thread .read
        (packetSeek fixedSizeLlseek t.seekInterrupted s.driver client)
  | .read =>
      match packetRead t.read t.conn s.driver client with
      | .next (driver, client) => s.move driver t.thread .read client
      | .done (_, driver, client) => s.move driver t.thread .write client
      | .hang => s

/-- Every thread is about to serve its first packet. -/
def System.start (driver : Driver) (clients : ι → Client) : System ι :=
  ⟨driver, fun i => ⟨.write, clients i⟩⟩

def System.run (fixedSizeLlseek : LlseekFn) (s : System ι) (turns : List (Turn ι)) : System ι :=
  turns.foldl (System.step fixedSizeLlseek) s

/-- What a thread has sent in all when its turn ends a call of `process_packet`. -/
def System.reply (s : System ι) (t : Turn ι) : Option (List UInt8) :=
  if (s.threads t.thread).pc = .read then
    match packetRead t.read t.conn s.driver (s.threads t.thread).client with
    | .done (_, _, client) => some client.sent
    | _ => none
  else none

/-- What the device has held since the latest write of thread `i`, that write included. -/
def System.instants (fixedSizeLlseek : LlseekFn) (i : ι) :
    System ι → List (List UInt8) → List (Turn ι) → List (List UInt8)
  | _, seen, [] => seen
  | s, seen, t :: turns =>
      let next := s.step fixedSizeLlseek t
      let kept := if t.thread = i ∧ (s.threads i).pc = .write then [] else seen
      instants fixedSizeLlseek i next (kept ++ [next.driver.contents]) turns

/-- Every reply of the run is what the device held at one instant of the call. -/
def ConsistentReplies (fixedSizeLlseek : LlseekFn) (s : System ι) (turns : List (Turn ι)) : Prop :=
  ∀ pre t post reply, turns = pre ++ t :: post → (s.run fixedSizeLlseek pre).reply t = some reply →
    reply ∈ System.instants fixedSizeLlseek t.thread s [] pre

/-- The turn's call does not fail, and no entry outgrows a thread's buffer. -/
def Turn.Works (s : System ι) (t : Turn ι) : Prop :=
  (∀ e ∈ s.driver.dev.buffer.stored, e.size ≤ MAX_BUF_SIZE) ∧
  ((s.threads t.thread).pc = .write → t.packet.getLast? = some NEWLINE ∧
    WriteCall.Succeeds s.driver ⟨t.packet, (s.threads t.thread).client.fPos, t.write⟩) ∧
  ((s.threads t.thread).pc = .lseek → t.seekInterrupted = false) ∧
  ((s.threads t.thread).pc = .read → t.read.Healthy)

/-- A write that evicts finds every reader at the start of the device or at its end, and leaves
the latter there. -/
def Turn.Harmless (s : System ι) (t : Turn ι) : Prop :=
  (s.threads t.thread).pc = .write → s.driver.dev.buffer.count = 10 → ∀ i,
    (s.threads i).pc = .read → (s.threads i).client.fPos = 0 ∨
      ((s.driver.dev.buffer.totalSize : Int) ≤ (s.threads i).client.fPos ∧
        s.driver.dev.buffer.totalSize + (s.driver.dev.partBufSize + t.packet.length) ≤
          (s.threads i).client.fPos + s.driver.dev.buffer.sizes.headD 0)

end

/-! ## A thread in its read loop -/

/-- Its position counts what it has sent.  That is the front of the device, or, when it will read
no more, something the device held before. -/
structure Follows (s : Driver) (seen : List (List UInt8)) (client : Client) : Prop where
  pos : client.fPos = client.sent.length
  short : client.sent.length ≤ 10 * MAX_BUF_SIZE
  snapshot : client.sent <+: s.contents ∨
    (s.contents.length ≤ client.sent.length ∧ s.dev.buffer.count = 10 ∧ client.sent ∈ seen)

theorem Holds.small {s : Driver} {log : CommandLog} (h : Holds s log)
    (hsize : ∀ e ∈ s.dev.buffer.stored, e.size ≤ MAX_BUF_SIZE) : log.Small := by
  intro c hc
  obtain ⟨e, he, _, hlen⟩ := h.command_entry hc
  rw [← hlen]
  exact hsize e he

namespace Follows

variable {s : Driver} {seen : List (List UInt8)} {client : Client}

theorem mono (h : Follows s seen client) (x : List UInt8) : Follows s (seen ++ [x]) client where
  pos := h.pos
  short := h.short
  snapshot := h.snapshot.imp_right fun hs => ⟨hs.1, hs.2.1, List.mem_append_left _ hs.2.2⟩

theorem sent_mem (h : Follows s seen client) (hnow : s.contents ∈ seen)
    (hend : s.contents.length ≤ client.sent.length) : client.sent ∈ seen := by
  rcases h.snapshot with hpre | hold
  · rw [hpre.eq_of_length_le hend]
    exact hnow
  · exact hold.2.2

theorem write {log : CommandLog} (h : Follows s seen client) (hlog : Holds s log)
    (hnow : s.contents ∈ seen) {c : WriteCall} (hs : c.Succeeds s) (hn : NEWLINE ∈ c.buf)
    (hharmless : s.dev.buffer.count = 10 → client.fPos = 0 ∨
      ((s.dev.buffer.totalSize : Int) ≤ client.fPos ∧
        s.dev.buffer.totalSize + (s.dev.partBufSize + c.buf.length) ≤
          client.fPos + s.dev.buffer.sizes.headD 0)) (x : List UInt8) :
    Follows (s.write c) (seen ++ [x]) client := by
  have hlog' := hlog.write_succeeds hs
  rw [CommandLog.accept_of_mem hn] at hlog'
  have hcount := hlog.count_eq
  refine ⟨h.pos, h.short, ?_⟩
  rw [hlog'.contents_eq]
  by_cases hfull : s.dev.buffer.count = 10
  · rcases hharmless hfull with hzero | ⟨hend, hfit⟩
    · -- nothing sent yet
      apply Or.inl
      have hnil : client.sent = [] := by
        apply List.eq_nil_of_length_eq_zero
        have := h.pos
        omega
      rw [hnil]
      exact List.nil_prefix
    · apply Or.inr
      have hlen := @CommandLog.commit_contents_of_full log (by omega) c.buf
      have hext := hlog.extended_length c.buf
      rw [h.pos, hlog.totalSize_eq] at hend hfit
      rw [hlog.sizes_eq] at hfit
      refine ⟨by omega, ?_, ?_⟩
      · rw [hlog'.count_eq, CommandLog.commit, Circular.length_rtake, List.length_append,
          List.length_singleton]
        omega
      · apply List.mem_append_left
        apply h.sent_mem hnow
        rw [hlog.contents_eq]
        omega
  · have hle := s.dev.buffer.count_le
    have hpre : client.sent <+: s.contents := h.snapshot.resolve_right fun hold => hfull hold.2.1
    apply Or.inl
    rw [CommandLog.commit_contents (by omega), ← hlog.contents_eq]
    exact hpre.trans (List.prefix_append _ _)

theorem read {log : CommandLog} (h : Follows s seen client) (hlog : Holds s log)
    (hsmall : log.Small) (hnow : s.contents ∈ seen) {env : ReadEnv} (he : env.Healthy)
    {conn : Int → Int} (hconn : ∀ n, 0 < n → conn n = n) :
    (∃ client', packetRead env conn s client = .next (s, client') ∧
      Follows s (seen ++ [s.contents]) client') ∨
    (packetRead env conn s client = .done (0, s, client) ∧ client.sent ∈ seen) := by
  have hle := hlog.contents_length_le hsmall
  have hshort := h.short
  by_cases hlt : client.sent.length < log.contents.length
  · obtain ⟨data, pkt, -, hpre, hread⟩ := hlog.packetRead_inside hsmall he hconn h.pos hlt
    rw [← hlog.contents_eq] at hlt hpre hle
    have hfront : client.sent <+: s.contents := h.snapshot.resolve_right fun hold => by omega
    have hsent : client.sent ++ data <+: s.contents := by
      obtain ⟨rest, hrest⟩ := hfront
      rw [← hrest, List.drop_left] at hpre
      rw [← hrest]
      exact (List.prefix_append_right_inj _).mpr hpre
    apply Or.inl
    refine ⟨_, hread, ⟨?_, ?_, Or.inl hsent⟩⟩
    · show ((client.sent.length + data.length : Nat) : Int) = (client.sent ++ data).length
      rw [List.length_append]
    · exact le_trans hsent.length_le hle
  · apply Or.inr
    constructor
    · apply hlog.packetRead_end he conn h.pos
      · unfold MAX_BUF_SIZE at hshort
        omega
      · omega
    · apply h.sent_mem hnow
      rw [hlog.contents_eq]
      omega

end Follows

/-! ## All threads -/

section

variable {ι : Type}

structure Tracking (s : System ι) (seen : ι → List (List UInt8)) : Prop where
  holds : ∃ log, Holds s.driver log
  now : ∀ i, (s.threads i).pc ≠ .write → s.driver.contents ∈ seen i
  fresh : ∀ i, (s.threads i).pc = .lseek → (s.threads i).client.sent = []
  reading : ∀ i, (s.threads i).pc = .read → Follows s.driver (seen i) (s.threads i).client

variable [DecidableEq ι]

/-- What is known of each thread's instants after a turn. -/
def watched (fixedSizeLlseek : LlseekFn) (s : System ι) (t : Turn ι)
    (seen : ι → List (List UInt8)) (i : ι) : List (List UInt8) :=
  (if t.thread = i ∧ (s.threads i).pc = .write then [] else seen i) ++
    [(s.step fixedSizeLlseek t).driver.contents]

namespace Tracking

variable {fixedSizeLlseek : LlseekFn} {s : System ι} {seen : ι → List (List UInt8)} {t : Turn ι}

theorem watched_of_ne {i : ι} (hi : i ≠ t.thread) :
    watched fixedSizeLlseek s t seen i =
      seen i ++ [(s.step fixedSizeLlseek t).driver.contents] := by
  rw [watched, if_neg fun hh => hi hh.1.symm]

theorem watched_of_pc {i : ι} (hi : (s.threads i).pc ≠ .write) :
    watched fixedSizeLlseek s t seen i =
      seen i ++ [(s.step fixedSizeLlseek t).driver.contents] := by
  rw [watched, if_neg fun hh => hi hh.2]

/-- A turn that leaves the device alone, seen from the other threads and from the thread's own
new state. -/
theorem of_same_driver (h : Tracking s seen) (pc : Pc) (client : Client)
    (hpc : (s.threads t.thread).pc ≠ .write)
    (hstep : s.step fixedSizeLlseek t = s.move s.driver t.thread pc client)
    (hfresh : pc = .lseek → client.sent = [])
    (hfollows : pc = .read → Follows s.driver (seen t.thread ++ [s.driver.contents]) client) :
    Tracking (s.step fixedSizeLlseek t) (watched fixedSizeLlseek s t seen) where
  holds := by
    rw [hstep]
    exact h.holds
  now := by
    intro i _
    exact List.mem_append_right _ (List.mem_singleton_self _)
  fresh := by
    intro i hi
    rw [hstep] at hi ⊢
    by_cases heq : i = t.thread
    · rw [heq, move_self] at hi ⊢
      exact hfresh hi
    · rw [move_of_ne _ _ _ _ heq] at hi ⊢
      exact h.fresh i hi
  reading := by
    intro i hi
    by_cases heq : i = t.thread
    · rw [heq] at hi ⊢
      rw [watched_of_pc hpc]
      rw [hstep, move_self] at hi
      rw [hstep, move_self]
      exact hfollows hi
    · rw [watched_of_ne heq]
      rw [hstep, move_of_ne _ _ _ _ heq] at hi
      rw [hstep, move_of_ne _ _ _ _ heq]
      exact (h.reading i hi).mono _

theorem step_write (h : Tracking s seen) (hpc : (s.threads t.thread).pc = .write)
    (hw : t.Works s) (hh : t.Harmless s) :
    Tracking (s.step fixedSizeLlseek t) (watched fixedSizeLlseek s t seen) := by
  obtain ⟨log, hlog⟩ := h.holds
  obtain ⟨hlast, hs⟩ := hw.2.1 hpc
  have hn : NEWLINE ∈ t.packet := List.mem_of_getLast? hlast
  have hstep : s.step fixedSizeLlseek t =
      s.move (s.driver.write ⟨t.packet, (s.threads t.thread).client.fPos, t.write⟩) t.thread .lseek
        (packetWrite t.write s.driver { (s.threads t.thread).client with sent := [] }
          t.packet).2 := by
    unfold System.step
    rw [hpc]
    rfl
  refine ⟨?_, ?_, ?_, ?_⟩
  · rw [hstep]
    exact ⟨_, hlog.write_succeeds hs⟩
  · intro i _
    exact List.mem_append_right _ (List.mem_singleton_self _)
  · intro i hi
    rw [hstep] at hi ⊢
    by_cases heq : i = t.thread
    · rw [heq, move_self]
      rfl
    · rw [move_of_ne _ _ _ _ heq] at hi ⊢
      exact h.fresh i hi
  · intro i hi
    by_cases heq : i = t.thread
    · rw [heq, hstep, move_self] at hi
      exact absurd hi (show ¬ Pc.lseek = Pc.read by decide)
    · rw [watched_of_ne heq]
      rw [hstep, move_of_ne _ _ _ _ heq] at hi
      rw [hstep, move_of_ne _ _ _ _ heq]
      apply (h.reading i hi).write hlog (h.now i (by rw [hi]; decide)) hs hn
      exact fun hfull => hh hpc hfull i hi

theorem step_lseek (h : Tracking s seen) (hl : FixedSizeLlseek fixedSizeLlseek)
    (hpc : (s.threads t.thread).pc = .lseek) (hw : t.Works s) :
    Tracking (s.step fixedSizeLlseek t) (watched fixedSizeLlseek s t seen) := by
  have hfresh := h.fresh _ hpc
  apply h.of_same_driver .read
    (packetSeek fixedSizeLlseek t.seekInterrupted s.driver (s.threads t.thread).client)
  · rw [hpc]
    decide
  · unfold System.step
    rw [hpc]
  · intro hread
    exact absurd hread (by decide)
  · intro _
    have hsent : (packetSeek fixedSizeLlseek t.seekInterrupted s.driver
        (s.threads t.thread).client).sent = [] := hfresh
    refine ⟨?_, ?_, Or.inl ?_⟩
    · rw [hsent, packetSeek_fPos hl (hw.2.2.1 hpc)]
      rfl
    · rw [hsent]
      exact Nat.zero_le _
    · rw [hsent]
      exact List.nil_prefix

theorem step_read (h : Tracking s seen) (hpc : (s.threads t.thread).pc = .read)
    (hw : t.Works s) (hconn : ∀ n, 0 < n → t.conn n = n) :
    Tracking (s.step fixedSizeLlseek t) (watched fixedSizeLlseek s t seen) := by
  obtain ⟨log, hlog⟩ := h.holds
  have hne : (s.threads t.thread).pc ≠ .write := by
    rw [hpc]
    decide
  rcases (h.reading _ hpc).read hlog (hlog.small hw.1) (h.now _ hne) (hw.2.2.2 hpc) hconn with
    ⟨client, hread, hfollows⟩ | ⟨hdone, _⟩
  · apply h.of_same_driver .read client hne
    · unfold System.step
      rw [hpc]
      simp only [hread]
    · exact fun hl => absurd hl (by decide)
    · exact fun _ => hfollows
  · apply h.of_same_driver .write (s.threads t.thread).client hne
    · unfold System.step
      rw [hpc]
      simp only [hdone]
    · exact fun hl => absurd hl (by decide)
    · exact fun hl => absurd hl (by decide)

theorem step (h : Tracking s seen) (hl : FixedSizeLlseek fixedSizeLlseek) (hw : t.Works s)
    (hh : t.Harmless s) (hconn : ∀ n, 0 < n → t.conn n = n) :
    Tracking (s.step fixedSizeLlseek t) (watched fixedSizeLlseek s t seen) := by
  cases hpc : (s.threads t.thread).pc with
  | write => exact h.step_write hpc hw hh
  | lseek => exact h.step_lseek hl hpc hw
  | read => exact h.step_read hpc hw hconn

omit [DecidableEq ι] in
theorem reply_mem (h : Tracking s seen) (hw : t.Works s) (hconn : ∀ n, 0 < n → t.conn n = n)
    {reply : List UInt8} (hr : s.reply t = some reply) : reply ∈ seen t.thread := by
  obtain ⟨log, hlog⟩ := h.holds
  unfold System.reply at hr
  by_cases hpc : (s.threads t.thread).pc = .read
  · have hne : (s.threads t.thread).pc ≠ .write := by
      rw [hpc]
      decide
    rw [if_pos hpc] at hr
    rcases (h.reading _ hpc).read hlog (hlog.small hw.1) (h.now _ hne) (hw.2.2.2 hpc) hconn with
      ⟨client, hread, _⟩ | ⟨hdone, hmem⟩
    · simp [hread] at hr
    · simp only [hdone, Option.some.injEq] at hr
      rwa [← hr]
  · simp [hpc] at hr

theorem consistent (h : Tracking s seen) (hl : FixedSizeLlseek fixedSizeLlseek)
    {turns : List (Turn ι)}
    (hw : Runs.Guarded (System.step fixedSizeLlseek) (fun s t => t.Works s) s turns)
    (hh : Runs.Guarded (System.step fixedSizeLlseek) (fun s t => t.Harmless s) s turns)
    (hconn : ∀ t ∈ turns, ∀ n, 0 < n → t.conn n = n)
    {pre post : List (Turn ι)} {t : Turn ι} {reply : List UInt8} (hsplit : turns = pre ++ t :: post)
    (hr : (s.run fixedSizeLlseek pre).reply t = some reply) :
    reply ∈ System.instants fixedSizeLlseek t.thread s (seen t.thread) pre := by
  -- induction on the turns before `t`: the instants already collected are carried along
  induction pre generalizing s seen turns with
  | nil =>
      rw [hsplit] at hw hconn
      exact h.reply_mem hw.1 (hconn t List.mem_cons_self) hr
  | cons t₀ pre ih =>
      rw [hsplit] at hw hh hconn
      have hstep := h.step hl hw.1 hh.1 (hconn t₀ List.mem_cons_self)
      exact ih hstep hw.2 hh.2 (fun t' ht' => hconn t' (List.mem_cons_of_mem _ ht')) rfl hr

end Tracking

/-- Over any interleaving of working calls in which no command is evicted under a reader: every
reply is what the device held at one instant between the thread's own write and its last read. -/
theorem replies_consistent {fixedSizeLlseek : LlseekFn} (hl : FixedSizeLlseek fixedSizeLlseek)
    (calls : List WriteCall)
    (hcalls : Runs.Guarded Driver.write (fun s c => c.Succeeds s) aesdInitModule calls)
    (clients : ι → Client) (turns : List (Turn ι))
    (hw : Runs.Guarded (System.step fixedSizeLlseek) (fun s t => t.Works s)
      (System.start (aesdInitModule.writes calls) clients) turns)
    (hconn : ∀ t ∈ turns, ∀ n, 0 < n → t.conn n = n)
    (hh : Runs.Guarded (System.step fixedSizeLlseek) (fun s t => t.Harmless s)
      (System.start (aesdInitModule.writes calls) clients) turns) :
    ConsistentReplies fixedSizeLlseek (System.start (aesdInitModule.writes calls) clients)
      turns := by
  have hholds : ∃ log, Holds (aesdInitModule.writes calls) log :=
    hcalls.invariant (fun s => ∃ log, Holds s log)
      (fun _ _ ⟨_, h⟩ hc => ⟨_, h.write_succeeds hc⟩) ⟨_, Holds.init⟩
  have hwrite : ∀ i, ((System.start (aesdInitModule.writes calls) clients).threads i).pc = .write :=
    fun _ => rfl
  have hstart : Tracking (System.start (aesdInitModule.writes calls) clients) fun _ => [] := by
    refine ⟨hholds, fun i hi => absurd (hwrite i) hi, fun i hi => ?_, fun i hi => ?_⟩
    · rw [hwrite i] at hi
      exact absurd hi (by decide)
    · rw [hwrite i] at hi
      exact absurd hi (by decide)
  intro pre t post reply hsplit hr
  exact hstart.consistent hl hw hh hconn hsplit hr

end

/-! ## Two threads -/

instance {ι : Type} (s : System ι) (t : Turn ι) : Decidable (t.Works s) :=
  inferInstanceAs (Decidable (_ ∧ _))

instance {ι : Type} [Fintype ι] (s : System ι) (t : Turn ι) : Decidable (t.Harmless s) :=
  inferInstanceAs (Decidable (_ → _ → _))

/-- Turns of a machine that refuses nothing. -/
def plainTurns (turns : List (Bool × List UInt8)) : List (Turn Bool) :=
  turns.map fun p => ⟨p.1, p.2, .calm, false, ⟨false, 0, fun _ => 0⟩, fun n => n⟩

theorem conn_of_plainTurns (turns : List (Bool × List UInt8)) :
    ∀ t ∈ plainTurns turns, ∀ n, 0 < n → t.conn n = n := by
  intro t ht n _
  obtain ⟨p, _, rfl⟩ := List.mem_map.mp ht
  rfl

def newClient (_ : Bool) : Client := ⟨0, [], []⟩

/-- `"b\n"` comes in under a reader that has sent `"a\n"`. -/
theorem replies_consistent_append :
    [97, 10, 98, 10] ∈ System.instants boundedLlseek false
      (System.start aesdInitModule newClient) []
      (plainTurns [(false, [97, 10]), (false, []), (false, []), (true, [98, 10]), (false, [])]) :=
  replies_consistent boundedLlseek_documented [] trivial newClient
    (plainTurns
      [(false, [97, 10]), (false, []), (false, []), (true, [98, 10]), (false, []), (false, [])])
    (by decide +kernel) (conn_of_plainTurns _) (by decide +kernel)
    (plainTurns [(false, [97, 10]), (false, []), (false, []), (true, [98, 10]), (false, [])])
    ⟨false, [], .calm, false, ⟨false, 0, fun _ => 0⟩, fun n => n⟩ [] _ rfl (by decide +kernel)

/-- Ten commands, `"a\n"` to `"j\n"`. -/
def tenCommands : List WriteCall :=
  [97, 98, 99, 100, 101, 102, 103, 104, 105, 106].map fun c => .plain [c, 10]

/-- A second thread evicts a command after the first has sent one; the first reads on up to the
end. -/
def evictingTurns : List (Bool × List UInt8) :=
  [(false, [107, 10]), (false, []), (false, []), (true, [108, 10])] ++
    List.replicate 9 (false, [])

/-- The reply goes from `"b\n"` to `"d\n"`: the device never held that. -/
theorem evicted_under_reader :
    Runs.Guarded (System.step boundedLlseek) (fun s t => t.Works s)
      (System.start (aesdInitModule.writes tenCommands) newClient)
      (plainTurns (evictingTurns ++ [(false, [])])) ∧
    ¬ ConsistentReplies boundedLlseek
      (System.start (aesdInitModule.writes tenCommands) newClient)
      (plainTurns (evictingTurns ++ [(false, [])])) := by
  refine ⟨by decide +kernel, fun h => ?_⟩
  have hmem := h (plainTurns evictingTurns)
    ⟨false, [], .calm, false, ⟨false, 0, fun _ => 0⟩, fun n => n⟩ []
    [98, 10, 100, 10, 101, 10, 102, 10, 103, 10, 104, 10, 105, 10, 106, 10, 107, 10, 108, 10]
    rfl (by decide +kernel)
  exact absurd hmem (by decide +kernel)

end AesdChar
