import AesdChar.FramingCondition
import AesdChar.SharedDevice

/-!
# From the lines of the clients to the history

A thread that is taken from call to call does with the bytes it receives what the receive loop does
in one go.  So where the reads of a connection frame its stream, the packets that it has in the
history are lines of that stream, whatever the other connections do meanwhile.
-/

namespace AesdChar

/-! ## The calls of `strtok` -/

/-- The line after `k` calls, from byte `pos` of it on.  What the calls before have changed behind
the buffer is not needed again. -/
def cuts (env : ConnEnv) : Nat → List UInt8 → Nat → List UInt8
  | 0, buff, _ => buff
  | k + 1, buff, pos =>
      let r := CString.strtok tokDelim (buff ++ env.beyond) pos
      cuts env k (r.mem.take buff.length) r.next

theorem take_strtoks (env : ConnEnv) (k : Nat) {buff mem : List UInt8} {pos : Nat}
    (h : CString.Alike buff.length pos mem (buff ++ env.beyond)) :
    (CString.strtoks tokDelim k mem pos).take buff.length = cuts env k buff pos := by
  induction k generalizing buff mem pos with
  | zero =>
      rw [CString.strtoks, cuts, h.1]
      exact List.take_left
  | succ k ih =>
      obtain ⟨hnext, hfront, hrest⟩ := @CString.strtok_alike tokDelim _ _ _ _ h
      have hrestored := @CString.strtok_restored tokDelim buff.length (buff ++ env.beyond)
        (by rw [List.length_append]; omega) pos
      rw [List.drop_left] at hrestored
      have hlen : ((CString.strtok tokDelim (buff ++ env.beyond) pos).mem.take buff.length).length =
          buff.length := by
        rw [List.length_take, CString.length_strtok, List.length_append]
        omega
      rw [CString.strtoks, cuts, hnext, ← ih, hlen]
      rw [hlen]
      exact ⟨hfront.trans hrestored.1, (hnext ▸ hrest).trans hrestored.2⟩

theorem wipe_eq_cuts (env : ConnEnv) (buff : List UInt8) : wipe env buff = cuts env 3 buff 0 := by
  rw [← @take_strtoks env 3 buff (buff ++ env.beyond) 0 ⟨rfl, rfl⟩]
  simp only [wipe, seekArgs, CString.strtoks]

/-! ## The thread and the receive loop -/

/-- The rest of a round of the receive loop, behind its scan. -/
def afterScan (env : ConnEnv) (scanned : Bool × Conn) (reads : List (Option (List UInt8))) :
    Option Conn :=
  if scanned.1 then some scanned.2
  else
    let size := scanned.2.len + MAX_BUF_SIZE
    if overflowsInt size then none
    else receive env { scanned.2 with buff := realloc env scanned.2.buff size } reads

/-- The bytes of the round that the scan has not looked at. -/
def ChatPc.unscanned : ChatPc → Nat
  | .receive => 0
  | .scan n => n
  | .arg1 n => n
  | .arg2 n _ => n
  | .arg3 n _ _ => n
  | .write n => n
  | .lseek n => n
  | .ioctl n _ => n
  | .read n _ => n
  | .send n _ _ _ => n
  | .cleanup _ => 0

/-- The scan goes on after that many bytes, with the buffer as it is. -/
def ChatPc.serves : ChatPc → Option Nat
  | .scan n => some n
  | .write n => some n
  | .lseek n => some n
  | .ioctl n _ => some n
  | .read n _ => some n
  | .send n _ _ _ => some n
  | _ => none

/-- The connection when `strtok`, which goes on at `pos`, is through with the line. -/
def ChatThread.uncut (env : ConnEnv) (t : ChatThread) (pos : Nat) : Conn :=
  match t.pc with
  | .arg1 _ => { t.conn with buff := cuts env 3 t.conn.buff 0 }
  | .arg2 _ _ => { t.conn with buff := cuts env 2 t.conn.buff pos }
  | .arg3 _ _ _ => { t.conn with buff := cuts env 1 t.conn.buff pos }
  | _ => t.conn

/-- What is left of the receive loop from where the thread is. -/
def ChatThread.rest (env : ConnEnv) (t : ChatThread) (pos : Nat)
    (reads : List (Option (List UInt8))) : Option Conn :=
  match t.pc with
  | .receive => receive env t.conn reads
  | .cleanup _ => some t.conn
  | pc => afterScan env (scan env pc.unscanned (t.uncut env pos)) reads

theorem ChatThread.rest_of_serves {t : ChatThread} {n : Nat} (h : t.pc.serves = some n)
    (env : ConnEnv) (pos : Nat) (reads : List (Option (List UInt8))) :
    t.rest env pos reads = afterScan env (scan env n t.conn) reads := by
  unfold ChatThread.rest ChatThread.uncut
  cases hc : t.pc <;> simp_all [ChatPc.serves, ChatPc.unscanned]

/-- The thread is on its way through the receive loop, with all packets served; `strtok` goes on at
`pos`, if the thread has begun to call it. -/
structure InRound (env : ConnEnv) (t : ChatThread) (pos : Nat) : Prop where
  running : (∀ ret, t.pc ≠ .cleanup ret) → ∀ reads,
    processClientConnection env (t.reads ++ reads) = t.rest env pos reads
  ended : t.pc = .cleanup 0 → processClientConnection env t.reads = some t.conn

namespace InRound

variable {env : ConnEnv} {t : ChatThread} {pos : Nat}

theorem start (env : ConnEnv) (pkt : List UInt8) : InRound env (.start pkt) pos where
  running := fun _ _ => rfl
  ended := fun h => absurd h (by simp [ChatThread.start])

/-- A step in the middle of a round. -/
theorem of_rest {t' : ChatThread} {pos' : Nat} (h : InRound env t pos)
    (hpc : ∀ ret, t.pc ≠ .cleanup ret) (hpc' : ∀ ret, t'.pc ≠ .cleanup ret)
    (hreads : t'.reads = t.reads)
    (hrest : ∀ reads, t'.rest env pos' reads = t.rest env pos reads) : InRound env t' pos' where
  running := by
    intro _ reads
    rw [hreads, hrest]
    exact h.running hpc reads
  ended := fun he => absurd he (hpc' 0)

/-- What is served changes nothing of the round. -/
theorem of_serves {t' : ChatThread} {n : Nat} (h : InRound env t pos)
    (hpc : t.pc.serves = some n) (hpc' : t'.pc.serves = some n) (hreads : t'.reads = t.reads)
    (hconn : t'.conn = t.conn) : InRound env t' pos := by
  have hne : ∀ {pc : ChatPc}, pc.serves = some n → ∀ ret, pc ≠ .cleanup ret := by
    rintro pc hn ret rfl
    exact absurd hn (by simp [ChatPc.serves])
  refine h.of_rest (hne hpc) (hne hpc') hreads fun reads => ?_
  rw [ChatThread.rest_of_serves hpc, ChatThread.rest_of_serves hpc', hconn]

/-- Where `strtok` goes on matters to no other thread. -/
theorem of_not_goesOn (h : InRound env t pos) (hpc : t.pc.goesOn = false) (pos' : Nat) :
    InRound env t pos' := by
  have hrest : ∀ reads, t.rest env pos' reads = t.rest env pos reads := by
    intro reads
    unfold ChatThread.rest ChatThread.uncut
    cases hc : t.pc <;> simp_all [ChatPc.goesOn]
  refine ⟨fun hne reads => ?_, h.ended⟩
  rw [hrest]
  exact h.running hne reads

theorem own (h : InRound env t pos) (hserved : ∀ k, env.served k = 0) {step : ChatStep}
    (hmemory : step.memory = env) : InRound env (t.own step) pos := by
  cases hpc : t.pc with
  | receive =>
      have hrun := h.running (by simp [hpc])
      simp only [ChatThread.rest, hpc] at hrun
      simp only [ChatThread.own, hpc]
      split
      · -- the end of the stream: no reads follow those there were
        constructor
        · exact fun hne => absurd rfl (hne 0)
        · intro _
          have hnil := hrun []
          rwa [List.append_nil] at hnil
      · constructor
        · intro _ reads
          rw [List.append_assoc]
          exact hrun _
        · exact fun he => absurd he (by simp)
  | scan n =>
      have hne : ∀ ret, t.pc ≠ .cleanup ret := by simp [hpc]
      cases n with
      | zero =>
          simp only [ChatThread.own, hpc]
          split
          · exact h
          · rename_i hfits
            refine h.of_rest hne (by simp) rfl fun reads => ?_
            simp only [ChatThread.rest, hpc, ChatPc.unscanned, ChatThread.uncut, scan, afterScan,
              hmemory]
            rw [if_neg (by decide), if_neg hfits]
      | succ n =>
          -- each of the three things a byte can lead to is one step of `scan`
          have hscan : ∀ c', scan env (n + 1) t.conn = scan env n c' → ∀ (t' : ChatThread),
              t'.uncut env pos = c' → t'.reads = t.reads → t'.pc.unscanned = n →
              (∀ ret, t'.pc ≠ .cleanup ret) → t'.pc ≠ .receive → InRound env t' pos := by
            intro c' hstep t' hconn hreads hleft hne' hrec
            refine h.of_rest hne hne' hreads fun reads => ?_
            have ht' : t'.rest env pos reads =
                afterScan env (scan env t'.pc.unscanned (t'.uncut env pos)) reads := by
              unfold ChatThread.rest
              split
              · rename_i he
                exact absurd he hrec
              · rename_i ret he
                exact absurd he (hne' ret)
              · rfl
            rw [ht', hleft, hconn, ← hstep]
            simp only [ChatThread.rest, ChatThread.uncut, hpc, ChatPc.unscanned]
          simp only [ChatThread.own, hpc]
          split
          · rename_i hnl
            split
            · rename_i hseek
              have hstep : scan env (n + 1) t.conn = scan env n
                  ⟨wipe env t.conn.buff, t.conn.len + 1, t.conn.handed ++
                    [.seek (t.conn.buff.take (t.conn.len + 1))
                      (CString.string (t.conn.buff ++ env.beyond))]⟩ := by
                rw [scan]
                simp only [if_pos hnl, if_pos hseek]
              refine hscan _ hstep _ ?_ rfl rfl (by simp) (by simp)
              simp only [ChatThread.uncut, wipe_eq_cuts, hmemory]
            · rename_i hseek
              have hstep : scan env (n + 1) t.conn = scan env n
                  ⟨t.conn.buff, t.conn.len + 1,
                    t.conn.handed ++ [.packet (t.conn.buff.take (t.conn.len + 1))]⟩ := by
                rw [scan]
                simp only [if_pos hnl, if_neg hseek, hserved, ne_eq, not_true_eq_false, if_false]
              exact hscan _ hstep _ rfl rfl rfl (by simp) (by simp)
          · rename_i hnl
            have hstep : scan env (n + 1) t.conn =
                scan env n { t.conn with len := t.conn.len + 1 } := by
              rw [scan]
              simp only [if_neg hnl]
            exact hscan _ hstep _ rfl rfl rfl (by simp) (by simp)
  | send n serving ret data =>
      have hserves : t.pc.serves = some n := by rw [hpc]; rfl
      simp only [ChatThread.own, hpc]
      split
      · exact h.of_serves hserves rfl rfl rfl
      · rename_i res reply _
        by_cases hres : res = 0
        · simp only [hres, ne_eq, not_true_eq_false, if_false]
          exact h.of_serves hserves rfl rfl rfl
        · -- a packet that was not served ends the connection: `running` has nothing to say
          simp only [ne_eq, hres, not_false_eq_true, if_true]
          constructor
          · exact fun hne' => absurd rfl (hne' res)
          · exact fun he => absurd (ChatPc.cleanup.inj he) hres
      · exact h
  | _ => simpa only [ChatThread.own, hpc] using h

/-- A call of `strtok` on the thread's own line. -/
theorem token (h : InRound env t pos) (hpc : t.pc.tokenizes = true)
    (hpos : ∀ n, t.pc = .arg1 n → pos = 0) {step : ChatStep} (hmemory : step.memory = env) :
    InRound env (t.token step pos) (t.strtok step pos).next := by
  have hne : ∀ ret, t.pc ≠ .cleanup ret := by
    intro ret hret
    rw [hret] at hpc
    exact Bool.false_ne_true hpc
  unfold ChatThread.token
  cases hc : t.pc with
  | arg1 n =>
      simp only [ChatThread.took, ChatThread.cut, hc]
      refine h.of_rest hne (by simp) rfl fun reads => ?_
      simp only [ChatThread.rest, ChatThread.uncut, hc, ChatPc.unscanned, ChatThread.strtok, cuts,
        hmemory, hpos n hc]
  | arg2 n arg1 =>
      simp only [ChatThread.took, ChatThread.cut, hc]
      refine h.of_rest hne (by simp) rfl fun reads => ?_
      simp only [ChatThread.rest, ChatThread.uncut, hc, ChatPc.unscanned, ChatThread.strtok, cuts,
        hmemory]
  | arg3 n arg1 arg2 =>
      simp only [ChatThread.took, ChatThread.cut, hc]
      split
      · refine h.of_rest hne (by simp) rfl fun reads => ?_
        simp only [ChatThread.rest, ChatThread.uncut, hc, ChatPc.unscanned, ChatThread.strtok, cuts,
          hmemory]
      · refine h.of_rest hne (by simp) rfl fun reads => ?_
        simp only [ChatThread.rest, ChatThread.uncut, hc, ChatPc.unscanned, ChatThread.strtok, cuts,
          hmemory]
  | _ => simp [hc, ChatPc.tokenizes] at hpc

theorem mark (h : InRound env t pos) (taken : Nat) : InRound env (t.mark taken) pos := by
  rcases t.mark_eq taken with heq | heq | heq
  · rwa [heq]
  · rw [heq]
    exact ⟨h.running, h.ended⟩
  · rw [heq]
    exact ⟨h.running, h.ended⟩

theorem answer (h : InRound env t pos) (ret : Int) (data : List UInt8) :
    InRound env (t.answer ret data) pos := by
  cases hpc : t.pc with
  | write n =>
      have hserves : t.pc.serves = some n := by rw [hpc]; rfl
      simp only [ChatThread.answer, hpc]
      exact h.of_serves hserves rfl rfl rfl
  | lseek n =>
      have hserves : t.pc.serves = some n := by rw [hpc]; rfl
      simp only [ChatThread.answer, hpc]
      exact h.of_serves hserves rfl rfl rfl
  | ioctl n seekto =>
      have hserves : t.pc.serves = some n := by rw [hpc]; rfl
      simp only [ChatThread.answer, hpc]
      split
      · exact h.of_serves hserves rfl rfl rfl
      · exact h.of_serves hserves rfl rfl rfl
  | read n serving =>
      have hserves : t.pc.serves = some n := by rw [hpc]; rfl
      simp only [ChatThread.answer, hpc]
      exact h.of_serves hserves rfl rfl rfl
  | _ => simpa only [ChatThread.answer, hpc] using h

end InRound

/-! ## All threads -/

variable {ι : Type} [DecidableEq ι]

/-- Every thread is in its round, and the pointer of `strtok`, where it is in the line of a thread,
where that thread has left it. -/
def Rounds (memory : ι → ConnEnv) (c : Chats ι) : Prop :=
  ∀ i, ∃ pos, (∀ p, c.strtok = some (i, p) → p = pos) ∧ InRound (memory i) (c.thread i) pos

namespace Rounds

variable {memory : ι → ConnEnv} {c : Chats ι}

theorem update (h : Rounds memory c) (i : ι) {t : ChatThread}
    (hmove : ∀ pos, InRound (memory i) (c.thread i) pos → InRound (memory i) t pos)
    (stored : List (ι × List UInt8)) :
    Rounds memory ⟨Function.update c.thread i t, c.strtok, stored⟩ := by
  intro j
  obtain ⟨pos, hpos, hin⟩ := h j
  refine ⟨pos, hpos, ?_⟩
  dsimp only
  by_cases hj : j = i
  · subst hj
    rw [Function.update_self]
    exact hmove pos hin
  · rwa [Function.update_of_ne hj]

theorem own (h : Rounds memory c) (hserved : ∀ i k, (memory i).served k = 0) {i : ι}
    {step : ChatStep} (hharmless : c.Harmless i step) (hmemory : step.memory = memory i) :
    Rounds memory (c.own i step) := by
  cases hpc : (c.thread i).pc.tokenizes with
  | false =>
      rw [Chats.own_other hpc]
      have hmoved := h.update i (fun _ hin => hin.own (hserved i) hmemory) c.stored
      intro j
      -- the pointer stays, or is lost with the line it was in
      obtain ⟨pos, hpos, hin⟩ := hmoved j
      refine ⟨pos, fun p hp => hpos p ?_, hin⟩
      dsimp only at hp
      split at hp
      · exact (Option.filter_eq_some_iff.mp hp).1
      · exact hp
  | true =>
      obtain ⟨pos, hzero, hown, heq⟩ := hharmless.own_token hpc
      obtain ⟨old, hold, hin⟩ := h i
      have hself : InRound (memory i) (c.thread i) pos := by
        cases hgoes : (c.thread i).pc.goesOn with
        | false => exact hin.of_not_goesOn hgoes pos
        | true =>
            rw [hold pos (hown hgoes)]
            exact hin
      rw [heq]
      intro j
      by_cases hj : j = i
      · subst hj
        refine ⟨((c.thread j).strtok step pos).next, fun p hp => ?_, ?_⟩
        · exact (Prod.mk.inj (Option.some.inj hp)).2.symm
        · dsimp only
          rw [Function.update_self]
          exact hself.token hpc hzero hmemory
      · -- the pointer is not in the line of `j` any more
        obtain ⟨pos', -, hin'⟩ := h j
        refine ⟨pos', fun p hp => ?_, ?_⟩
        · exact absurd (Prod.mk.inj (Option.some.inj hp)).1.symm hj
        · dsimp only
          rwa [Function.update_of_ne hj]

theorem hear (h : Rounds memory c) (e : DeviceEvent ι) {c' : Chats ι}
    (hheard : c.hear e = some c') : Rounds memory c' := by
  cases e with
  | seen e =>
      cases e with
      | called i op =>
          simp only [Chats.hear] at hheard
          split at hheard
          · rwa [← Option.some.inj hheard]
          · exact absurd hheard (by simp)
      | returned i ret data fPos =>
          rw [← Option.some.inj hheard]
          exact h.update i (fun _ hin => hin.answer ret data) c.stored
  | effect i command =>
      rw [← Option.some.inj hheard]
      exact h.update i (fun _ hin => hin.mark c.stored.length) _

end Rounds

/-! ## Lines of the stream -/

/-- The lines of a stream that are not seek commands. -/
def packetLines (stream : List UInt8) : List (List UInt8) :=
  (lines stream).filter fun line => !ioctlCmd.isPrefixOf line

theorem packets_of_dispatched (ls : List (List UInt8)) :
    (ls.map dispatched).filterMap Handed.packet? =
      ls.filter fun line => !ioctlCmd.isPrefixOf line := by
  induction ls with
  | nil => rfl
  | cons line ls ih =>
      rw [List.map_cons, List.filterMap_cons, List.filter_cons, ih, dispatched]
      cases ioctlCmd.isPrefixOf line <;> rfl

/-- What the device took from a connection is of these packets, in order and none of them twice;
all of them if its writes went well. -/
structure HasPackets (stored : List (ι × List UInt8)) (i : ι) (t : ChatThread)
    (packets : List (List UInt8)) : Prop where
  some : (packetsOf i stored).Sublist packets
  all : (∀ w ∈ t.writes, w.2 = true) → packetsOf i stored = packets

/-- Between two calls a thread has in the history what it handed over. -/
theorem Explained.hasPackets {s : SharedDevice ι} (h : Explained s) {i : ι}
    (hpending : (s.1.thread i).pending = []) :
    HasPackets s.1.stored i (s.1.thread i)
      ((s.1.thread i).conn.handed.filterMap Handed.packet?) := by
  have hmine : packetsOf i s.1.stored = (s.1.thread i).written := by
    have hcases := h.written i
    rwa [hpending, List.append_nil, or_self] at hcases
  rw [h.handed, hpending, List.append_nil]
  constructor
  · rw [hmine]
    exact List.filter_sublist.map Prod.fst
  · intro hall
    rw [hmine, ChatThread.written, List.filter_eq_self.mpr hall]

/-- Any number of clients at once, over any failures of the device.  A thread that is back at its
next read, or at the end of the stream, has come as far as the receive loop on those reads alone,
and the device took from it what that loop hands over; where the reads frame the stream, these are
its lines. -/
theorem lines_stored_once (fixedSizeLlseek : LlseekFn) (pkt : ι → List UInt8)
    {memory : ι → ConnEnv} (hserved : ∀ i k, (memory i).served k = 0)
    {steps : List ((ι × ChatStep) ⊕ KernelTurn ι)}
    (hrun : SharedDevice.HarmlessRun fixedSizeLlseek pkt steps)
    (hmemory : ∀ step, .inl step ∈ steps → step.2.memory = memory step.1) :
    let s := (SharedDevice.start pkt).run fixedSizeLlseek steps
    Explained s ∧
      ∀ i, (s.1.thread i).pc = .receive ∨ (s.1.thread i).pc = .cleanup 0 →
        let t := s.1.thread i
        processClientConnection (memory i) t.reads = some t.conn ∧
          HasPackets s.1.stored i t (t.conn.handed.filterMap Handed.packet?) ∧
          ∀ segs, t.reads = segs.map some → Framed (memory i) segs →
            HasPackets s.1.stored i t (packetLines segs.flatten) := by
  intro s
  obtain ⟨a, hstep, hrec⟩ := (events_simulate fixedSizeLlseek).users
    (Recorded.kept fixedSizeLlseek) (fun _ _ _ t h hstep => h.concatenates hstep t)
    (InStep.start fixedSizeLlseek fun _ => 0) (Recorded.start pkt fun _ => 0) hrun
  have h : Explained s := hrec.explained hstep
  have hrounds : Rounds memory s.1 :=
    Machine.joint_invariant (Kernel.eventMachine fixedSizeLlseek) (Rounds memory)
      (fun _ _ hr hok => hr.own hserved hok.1 hok.2) (fun _ e _ hr hheard => hr.hear e hheard)
      (fun i => ⟨0, fun _ hp => absurd hp (by simp [Chats.start]),
        InRound.start (memory i) (pkt i)⟩)
      (Users.ownSteps_and hrun hmemory)
  refine ⟨h, fun i hpc => ?_⟩
  intro t
  obtain ⟨pos, -, hin⟩ := hrounds i
  have hrun : processClientConnection (memory i) t.reads = some t.conn := by
    rcases hpc with hpc | hpc
    · have hrest := hin.running (by simp [hpc]) []
      rw [List.append_nil] at hrest
      simp only [ChatThread.rest, hpc] at hrest
      exact hrest
    · exact hin.ended hpc
  have hpending : t.pending = [] := by
    apply ChatThread.pending_eq_nil
    rcases hpc with hpc | hpc
    · simp [t, hpc]
    · simp [t, hpc]
  have hhas : HasPackets s.1.stored i t (t.conn.handed.filterMap Handed.packet?) :=
    h.hasPackets hpending
  refine ⟨hrun, hhas, ?_⟩
  rintro segs hreads ⟨c, hframed, hhanded⟩
  rw [hreads, hframed] at hrun
  rwa [← Option.some.inj hrun, hhanded, packets_of_dispatched] at hhas

/-! ## Two clients -/

/-- A step that neither calls `strtok` nor hands anything over. -/
theorem Chats.own_quiet {c : Chats ι} {i : ι} {env : ChatStep} {t : ChatThread}
    (hpc : (c.thread i).pc.tokenizes = false) (hown : (c.thread i).own env = t)
    (hpending : t.pending = []) : c.Harmless i env ∧ (c.own i env).thread i = t := by
  have hmoved : (c.own i env).thread i = t := by
    rw [Chats.own_other hpc, hown]
    exact Function.update_self _ _ _
  refine ⟨⟨fun hgoes => ?_, ?_⟩, hmoved⟩
  · cases hc : (c.thread i).pc <;> simp_all [ChatPc.tokenizes, ChatPc.goesOn]
  · rw [hmoved, hpending]
    exact fun _ h => absurd h List.not_mem_nil

/-- Where no '\n' is left in the round, and an `int` holds the new size, a thread comes by itself to
its next read. -/
theorem reads_again (fixedSizeLlseek : LlseekFn) (i : ι) (env : ChatStep) {n : Nat}
    {s : SharedDevice ι} {t : ChatThread} (ht : s.1.thread i = t) (hpc : t.pc = .scan n)
    (hquiet : NEWLINE ∉ t.conn.buff.drop t.conn.len)
    (hfits : t.conn.len + n + MAX_BUF_SIZE < 2 ^ 31) :
    let steps := List.replicate (n + 1) (.inl (i, env))
    Runs.Guarded (SharedDevice.step fixedSizeLlseek) SharedDevice.Harmless s steps ∧
      ((s.run fixedSizeLlseek steps).1.thread i).pc = .receive ∧
      ((s.run fixedSizeLlseek steps).1.thread i).reads = t.reads := by
  have htokenizes : (s.1.thread i).pc.tokenizes = false := by
    rw [ht, hpc]
    rfl
  induction n generalizing s t with
  | zero =>
      have hroom : overflowsInt (t.conn.len + MAX_BUF_SIZE) = false := decide_eq_false (by omega)
      have hown : (s.1.thread i).own env = { t with
          pc := .receive
          conn := { t.conn with
            buff := realloc env.memory t.conn.buff (t.conn.len + MAX_BUF_SIZE) } } := by
        simp only [ht, ChatThread.own, hpc, hroom, Bool.false_eq_true, if_false]
      obtain ⟨hok, hthread⟩ := Chats.own_quiet htokenizes hown rfl
      have hpc' : ((s.1.own i env).thread i).pc = .receive := by rw [hthread]
      have hreads : ((s.1.own i env).thread i).reads = t.reads := by rw [hthread]
      exact ⟨⟨hok, trivial⟩, hpc', hreads⟩
  | succ n ih =>
      have hget : t.conn.buff[t.conn.len]? ≠ some NEWLINE := by
        intro hget
        rw [← List.head?_drop] at hget
        exact hquiet (List.mem_of_mem_head? hget)
      have hown : (s.1.thread i).own env =
          { t with pc := .scan n, conn := { t.conn with len := t.conn.len + 1 } } := by
        simp only [ht, ChatThread.own, hpc, if_neg hget]
      obtain ⟨hok, hthread⟩ := Chats.own_quiet htokenizes hown rfl
      have hrest : NEWLINE ∉ t.conn.buff.drop (t.conn.len + 1) := by
        rw [← List.drop_drop]
        exact fun hmem => hquiet (List.mem_of_mem_drop hmem)
      have hroom : t.conn.len + 1 + n + MAX_BUF_SIZE < 2 ^ 31 := by omega
      obtain ⟨hguarded, hdone⟩ := @ih (s.1.own i env, s.2) _ hthread rfl hrest hroom (by
        rw [hthread]
        rfl)
      exact ⟨⟨hok, hguarded⟩, hdone⟩

/-- The first client has been replied to, and waits for what comes next. -/
def backAtRead : List ((Nat × ChatStep) ⊕ KernelTurn Nat) := twoClients ++ threadSteps 0 1023 []

theorem memory_of_threadSteps {i n : Nat} {line : List UInt8} {step : Nat × ChatStep}
    (h : .inl step ∈ threadSteps i n line) : step.2.memory = ⟨fun _ => 0, [], fun _ => 0⟩ := by
  rw [Sum.inl.inj (List.eq_of_mem_replicate h)]

theorem not_mem_driverSteps {i n : Nat} {op : FileOp} {step : Nat × ChatStep} :
    .inl step ∉ driverSteps i n op :=
  fun h => absurd (List.eq_of_mem_replicate h) Sum.inl_ne_inr

theorem backAtRead_run :
    SharedDevice.HarmlessRun boundedLlseek (fun _ => []) backAtRead ∧
      let t := ((SharedDevice.start fun _ => []).run boundedLlseek backAtRead).1.thread 0
      t.pc = .receive ∧ t.reads = [some [97, 10]] := by
  have hfirst : SharedDevice.HarmlessRun boundedLlseek (fun _ => []) twoClients := by
    decide +kernel
  obtain ⟨s, hs⟩ : ∃ s, (SharedDevice.start fun _ => []).run boundedLlseek twoClients = s :=
    ⟨_, rfl⟩
  have hbegin : (s.1.thread 0).pc = .scan 1022 ∧
      NEWLINE ∉ (s.1.thread 0).conn.buff.drop (s.1.thread 0).conn.len ∧
      (s.1.thread 0).conn.len + 1022 + MAX_BUF_SIZE < 2 ^ 31 ∧
      (s.1.thread 0).reads = [some [97, 10]] := by
    rw [← hs]
    decide +kernel
  obtain ⟨hpc, hquiet, hfits, hreads⟩ := hbegin
  have hsteps : threadSteps 0 1023 [] = List.replicate (1022 + 1) (.inl (0,
      ⟨some (some []), ⟨fun _ => 0, [], fun _ => 0⟩, some MAX_BUF_SIZE⟩)) := rfl
  have hback := reads_again boundedLlseek 0
    ⟨some (some []), ⟨fun _ => 0, [], fun _ => 0⟩, some MAX_BUF_SIZE⟩ rfl hpc hquiet hfits
  simp only [← hsteps, SharedDevice.run] at hback
  rw [SharedDevice.HarmlessRun, backAtRead, Runs.guarded_append, SharedDevice.run,
    List.foldl_append]
  rw [SharedDevice.run] at hs
  rw [hs]
  exact ⟨⟨hfirst, hback.1⟩, hback.2.1, hback.2.2.trans hreads⟩

theorem lines_stored_once_two_clients :
    let s := (SharedDevice.start fun _ => []).run boundedLlseek backAtRead
    Explained s ∧ (s.1.thread 0).reads = [some [97, 10]] ∧
      HasPackets s.1.stored 0 (s.1.thread 0) [[97, 10]] := by
  have hmemory : ∀ step, .inl step ∈ backAtRead →
      step.2.memory = ⟨fun _ => 0, [], fun _ => 0⟩ := by
    intro step hstep
    simp only [backAtRead, twoClients, writeSteps, readSteps, List.mem_append, or_assoc,
      not_mem_driverSteps, or_false] at hstep
    rcases hstep with h | h | h | h | h | h <;> exact memory_of_threadSteps h
  have hline : SingleLine ⟨fun _ => 0, [], fun _ => 0⟩ [] [97, 10] [] :=
    SingleLine.of_clean (fun _ => (by decide : (0 : UInt8) ≠ NEWLINE)) (by simp) (by decide)
      (by decide)
  have hends : SeekEnds ⟨fun _ => 0, [], fun _ => 0⟩ [] [97, 10] :=
    fun hseek => absurd hseek (by decide +kernel)
  have hframed : Framed ⟨fun _ => 0, [], fun _ => 0⟩ ([] ++ [97, 10] :: []) :=
    hline.framed (fun _ => rfl) (by decide +kernel) (by decide +kernel) hends
  have hpackets : packetLines [[97, 10]].flatten = [[97, 10]] := by decide
  obtain ⟨h, hlines⟩ := @lines_stored_once Nat _ boundedLlseek (fun _ => [])
    (fun _ => ⟨fun _ => 0, [], fun _ => 0⟩) (fun _ _ => rfl) backAtRead backAtRead_run.1 hmemory
  obtain ⟨-, hpc, hreads⟩ := backAtRead_run
  obtain ⟨-, -, hhas⟩ := hlines 0 (Or.inl hpc)
  have hall := hhas [[97, 10]] hreads hframed
  rw [hpackets] at hall
  exact ⟨h, hreads, hall⟩

end AesdChar
