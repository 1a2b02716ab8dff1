import AesdChar.Interleaving
import AesdChar.SeekCommand

/-!
# The threads of the connections, call by call

`process_client_connection` with `process_packet` and `seek_and_read` inside it, from one system
call to the next, and from one call of `strtok` to the next.  Between any two of them other threads
get their turns, at the device and at the pointer that `strtok` keeps for all of them.  What the
calls on the device answer is not part of this file.
-/

namespace AesdChar

open CInt Decimal

/-- Whose reply loop it is. -/
inductive Serving where
  | packet
  | seek (seekto : AesdSeekto)
deriving DecidableEq

/-- What a loop that cannot send ends with: one returns -1, the other breaks. -/
def Serving.failed : Serving → Int
  | .packet => -1
  | .seek _ => 0

/-- The next call; `n` bytes of the round are still to be scanned. -/
inductive ChatPc where
  -- `read (connfd, ..)`
  | receive
  | scan (n : Nat)
  -- `arg1 = strtok (buf, ..)`, and the two calls that are given NULL
  | arg1 (n : Nat)
  | arg2 (n : Nat) (arg1 : Option (List UInt8))
  | arg3 (n : Nat) (arg1 arg2 : Option (List UInt8))
  -- `write (fd, buff, len)`, and the `lseek` behind it
  | write (n : Nat)
  | lseek (n : Nat)
  | ioctl (n : Nat) (seekto : AesdSeekto)
  -- `read (fd, ..)`, and with what it answered `write (connfd, ..)`
  | read (n : Nat) (serving : Serving)
  | send (n : Nat) (serving : Serving) (ret : Int) (data : List UInt8)
  -- with what `process_packet` returned, 0 when the stream has ended
  | cleanup (ret : Int)
deriving DecidableEq

/-- A reply that came to the end of its loop, with the packets of the connection that had been
written by then. -/
structure FullReply where
  serving : Serving
  written : List (List UInt8)
  -- the `lseek` in front of the loop succeeded
  rewound : Bool
  -- how many packets the device had taken when the call in front of the loop looked at it, and
  -- when the last read did
  began : Nat
  ended : Nat
  sent : List UInt8

structure ChatThread where
  pc : ChatPc
  -- what the reads of the connection have returned
  reads : List (Option (List UInt8))
  conn : Conn
  reply : Reply
  -- the packets passed to `write`, and whether it was logged that all of them went out
  writes : List (List UInt8 × Bool)
  rewound : Bool
  began : Nat
  ended : Nat
  replies : List FullReply

/-- What the calls on the connection do, and what memory the thread finds. -/
structure ChatStep where
  -- `none` at the end of the stream, `some none` for a result of -1
  read : Option (Option (List UInt8))
  memory : ConnEnv
  -- how much the connection takes, if `write` does not fail
  room : Option Nat

/-- `write (connfd, .., n)`; a length of -1 is refused. -/
def sendRet (room : Option Nat) (n : Int) : Int :=
  match room with
  | none => -1
  | some k => if n < 0 then -1 else min k n

namespace ChatThread

/-- `write_back_pkt` holds what `malloc` left there. -/
def start (pkt : List UInt8) : ChatThread :=
  ⟨.receive, [], ⟨List.replicate MAX_BUF_SIZE 0, 0, []⟩, ⟨pkt, [], []⟩, [], false, 0, 0, []⟩

/-- The packet being served. -/
def packet (t : ChatThread) : List UInt8 := t.conn.buff.take t.conn.len

/-- The packets that the log says were written. -/
def written (t : ChatThread) : List (List UInt8) := (t.writes.filter Prod.snd).map Prod.fst

/-- A step that is neither a call on the device nor one of `strtok`. -/
def own (t : ChatThread) (env : ChatStep) : ChatThread :=
  match t.pc with
  | .receive =>
      match env.read with
      | none => { t with pc := .cleanup 0 }
      | some read =>
          { t with pc := .scan MAX_BUF_SIZE, reads := t.reads ++ [read], conn := t.conn.read read }
  | .scan 0 =>
      let size := t.conn.len + MAX_BUF_SIZE
      -- an `int` that overflows is not followed
      if overflowsInt size then t
      else
        { t with
          pc := .receive, conn := { t.conn with buff := realloc env.memory t.conn.buff size } }
  | .scan (n + 1) =>
      let len := t.conn.len + 1
      if t.conn.buff[t.conn.len]? = some NEWLINE then
        if startsSeek t.conn.buff then
          let string := CString.string (t.conn.buff ++ env.memory.beyond)
          { t with
            pc := .arg1 n
            conn := ⟨t.conn.buff, len, t.conn.handed ++ [.seek (t.conn.buff.take len) string]⟩ }
        else
          { t with
            pc := .write n
            conn := ⟨t.conn.buff, len, t.conn.handed ++ [.packet (t.conn.buff.take len)]⟩
            reply := ⟨t.reply.writeBackPkt, [], []⟩ }
      else { t with pc := .scan n, conn := { t.conn with len := len } }
  | .send n serving ret data =>
      match replyRound 0 serving.failed ret data (sendRet env.room) t.reply with
      | .next reply => { t with pc := .read n serving, reply := reply }
      | .done (res, reply) =>
          { t with
            pc := if res ≠ 0 then .cleanup res else .scan n
            reply := reply
            replies :=
              if int32 ret = 0 then
                t.replies ++ [⟨serving, t.written, t.rewound, t.began, t.ended, reply.sent⟩]
              else t.replies }
      | .hang => t
  | _ => t

/-- A call of `strtok` on the line of the thread. -/
def strtok (t : ChatThread) (env : ChatStep) (pos : Nat) : CString.Token :=
  CString.strtok tokDelim (t.conn.buff ++ env.memory.beyond) pos

/-- `strtok` has cut into the line. -/
def cut (t : ChatThread) (mem : List UInt8) : ChatThread :=
  { t with conn := { t.conn with buff := mem.take t.conn.buff.length } }

/-- `strtok` has come back; with the third argument it is settled whether there is a command. -/
def took (t : ChatThread) (token : Option (List UInt8)) : ChatThread :=
  match t.pc with
  | .arg1 n => { t with pc := .arg2 n token }
  | .arg2 n arg1 => { t with pc := .arg3 n arg1 token }
  | .arg3 n arg1 arg2 =>
      match arg1, arg2, token with
      | some _, some arg2, some arg3 =>
          { t with
            pc := .ioctl n ⟨uint32 (atoi arg2), uint32 (atoi arg3)⟩
            reply := ⟨t.reply.writeBackPkt, [], []⟩ }
      | _, _, _ => { t with pc := .scan n }
  | _ => t

/-- The calls on the device that the thread can be about to make.  Its own memory can be copied
from and to. -/
def asks (t : ChatThread) (op : FileOp) : Bool :=
  match t.pc, op with
  | .write _, .write buf env =>
      decide (buf = t.packet ∧ env.notCopied = 0)
  | .lseek _, .llseek _ offset whence => decide (offset = 0 ∧ whence = SEEK_SET)
  | .ioctl _ seekto, .ioctl _ cmd arg => decide (cmd = AESDCHAR_IOCSEEKTO ∧ arg = some seekto)
  | .read _ _, .read count env => decide (count = MAX_BUF_SIZE ∧ env.notCopied = 0)
  | _, _ => false

/-- The call has had its effect on the device, which has taken `taken` packets by then. -/
def mark (t : ChatThread) (taken : Nat) : ChatThread :=
  match t.pc with
  | .lseek _ | .ioctl _ _ => { t with began := taken }
  | .read _ _ => { t with ended := taken }
  | _ => t

/-- The call came back. -/
def answer (t : ChatThread) (ret : Int) (data : List UInt8) : ChatThread :=
  let ret := sysRet ret
  match t.pc with
  -- only the log tells a short write from a whole one
  | .write n =>
      { t with
        pc := .lseek n, writes := t.writes ++ [(t.packet, decide (int32 ret = t.conn.len))] }
  | .lseek n => { t with pc := .read n .packet, rewound := decide (ret = 0) }
  | .ioctl n seekto =>
      if int32 ret ≠ 0 then { t with pc := .scan n }
      else { t with pc := .read n (.seek seekto), rewound := true }
  | .read n serving => { t with pc := .send n serving ret data }
  | _ => t

end ChatThread

def Handed.packet? : Handed → Option (List UInt8)
  | .packet bytes => some bytes
  | .seek _ _ => none

/-- The thread is at a call on the device, or in one. -/
def ChatPc.onDevice : ChatPc → Bool
  | .write _ | .lseek _ | .ioctl _ _ | .read _ _ => true
  | _ => false

/-- The packet that was handed over and whose `write` has not come back. -/
def ChatThread.pending (t : ChatThread) : List (List UInt8) :=
  match t.pc with
  | .write _ => [t.packet]
  | _ => []

/-! ## All threads -/

/-- A call of `strtok` is next. -/
def ChatPc.tokenizes : ChatPc → Bool
  | .arg1 _ | .arg2 _ _ | .arg3 _ _ _ => true
  | _ => false

/-- And it is given NULL. -/
def ChatPc.goesOn : ChatPc → Bool
  | .arg2 _ _ | .arg3 _ _ _ => true
  | _ => false

/-- The buffer is freed next, or moved. -/
def ChatPc.givesBack : ChatPc → Bool
  | .scan 0 | .cleanup _ => true
  | _ => false

structure Chats (ι : Type) where
  thread : ι → ChatThread
  -- where `strtok (NULL, ..)` goes on: in whose line, and at which byte of it
  strtok : Option (ι × Nat)
  -- the packets that completed a command, in the order in which the device took them
  stored : List (ι × List UInt8)

namespace Chats

variable {ι : Type} [DecidableEq ι]

def start (pkt : ι → List UInt8) : Chats ι := ⟨fun i => .start (pkt i), none, []⟩

/-- Thread `i` calls `strtok`, which goes on at byte `pos` of the line of thread `j`. -/
def callStrtok (c : Chats ι) (i : ι) (env : ChatStep) (j : ι) (pos : Nat) : Chats ι :=
  let r := (c.thread j).strtok env pos
  let thread := Function.update c.thread j ((c.thread j).cut r.mem)
  { c with
    thread := Function.update thread i ((thread i).took r.token)
    strtok := some (j, r.next) }

/-- A step of thread `i` that is not a call on the device. -/
def own (c : Chats ι) (i : ι) (env : ChatStep) : Chats ι :=
  match (c.thread i).pc with
  | .arg1 _ => c.callStrtok i env i 0
  | .arg2 _ _ | .arg3 _ _ _ =>
      match c.strtok with
      -- the line that the pointer is in was given back: not followed
      | none => c
      | some (j, pos) => c.callStrtok i env j pos
  | pc =>
      { c with
        thread := Function.update c.thread i ((c.thread i).own env)
        strtok := if pc.givesBack then c.strtok.filter fun p => p.1 ≠ i else c.strtok }

/-- What the results below ask of such a step. -/
structure Harmless (c : Chats ι) (i : ι) (env : ChatStep) : Prop where
  -- no other thread has called `strtok` since this one did
  ownLine : (c.thread i).pc.goesOn = true → c.strtok.map Prod.fst = some i
  -- a packet that is handed over fits `write_back_pkt`, which a reply would overrun
  fits : ∀ packet ∈ ((c.own i env).thread i).pending, packet.length ≤ MAX_BUF_SIZE

instance (c : Chats ι) (i : ι) (env : ChatStep) : Decidable (c.Harmless i env) :=
  decidable_of_iff
    (((c.thread i).pc.goesOn = true → c.strtok.map Prod.fst = some i) ∧
      ∀ packet ∈ ((c.own i env).thread i).pending, packet.length ≤ MAX_BUF_SIZE)
    ⟨fun h => ⟨h.1, h.2⟩, fun h => ⟨h.ownLine, h.fits⟩⟩

/-- Every thread has the device open on a descriptor of its own and makes its calls on it; `none`
when it is about to make another one. -/
def hear (c : Chats ι) : DeviceEvent ι → Option (Chats ι)
  | .seen (.called i op) => if (c.thread i).asks op then some c else none
  | .seen (.returned i ret data _) =>
      some { c with thread := Function.update c.thread i ((c.thread i).answer ret data) }
  | .effect i command =>
      some { c with
        thread := Function.update c.thread i ((c.thread i).mark c.stored.length)
        stored := c.stored ++ command.toList.map fun packet => (i, packet) }

end Chats

/-! ## A step of one thread -/

theorem ChatPc.onDevice_of_tokenizes {pc : ChatPc} (h : pc.tokenizes = true) :
    pc.onDevice = false := by
  cases pc <;> simp_all [ChatPc.tokenizes, ChatPc.onDevice]

/-- `strtok` goes on in the thread's own line. -/
def ChatThread.token (t : ChatThread) (env : ChatStep) (pos : Nat) : ChatThread :=
  (t.cut (t.strtok env pos).mem).took (t.strtok env pos).token

namespace Chats

variable {ι : Type} [DecidableEq ι] {c : Chats ι} {i : ι} {env : ChatStep}

theorem callStrtok_self (c : Chats ι) (i : ι) (env : ChatStep) (pos : Nat) :
    c.callStrtok i env i pos =
      { c with
        thread := Function.update c.thread i ((c.thread i).token env pos)
        strtok := some (i, ((c.thread i).strtok env pos).next) } := by
  simp only [callStrtok, Function.update_self, Function.update_idem, ChatThread.token]

theorem own_other (hpc : (c.thread i).pc.tokenizes = false) :
    c.own i env =
      { c with
        thread := Function.update c.thread i ((c.thread i).own env)
        strtok := if (c.thread i).pc.givesBack then c.strtok.filter fun p => p.1 ≠ i
          else c.strtok } := by
  unfold own
  cases h : (c.thread i).pc with
  | arg1 n => simp [h, ChatPc.tokenizes] at hpc
  | arg2 n arg1 => simp [h, ChatPc.tokenizes] at hpc
  | arg3 n arg1 arg2 => simp [h, ChatPc.tokenizes] at hpc
  | _ => rfl

/-- The pointer is where the thread's own last call has left it. -/
theorem Harmless.own_token (h : c.Harmless i env) (hpc : (c.thread i).pc.tokenizes = true) :
    ∃ pos, (∀ n, (c.thread i).pc = .arg1 n → pos = 0) ∧
      ((c.thread i).pc.goesOn = true → c.strtok = some (i, pos)) ∧
      c.own i env =
        { c with
          thread := Function.update c.thread i ((c.thread i).token env pos)
          strtok := some (i, ((c.thread i).strtok env pos).next) } := by
  have hown := h.ownLine
  have hnull : (c.thread i).pc.goesOn = true → ∃ pos, c.strtok = some (i, pos) := by
    intro hgoes
    obtain ⟨⟨j, pos⟩, hp, rfl⟩ := Option.map_eq_some_iff.mp (hown hgoes)
    exact ⟨pos, hp⟩
  cases hc : (c.thread i).pc with
  | arg1 n =>
      -- the call that is given the line, wherever the pointer was
      refine ⟨0, fun _ _ => rfl, fun hgoes => absurd hgoes (by simp [ChatPc.goesOn]), ?_⟩
      rw [← callStrtok_self, own, hc]
  | arg2 n arg1 =>
      obtain ⟨pos, hp⟩ := hnull (by rw [hc]; rfl)
      refine ⟨pos, by simp, fun _ => hp, ?_⟩
      rw [← callStrtok_self, own, hc, hp]
  | arg3 n arg1 arg2 =>
      obtain ⟨pos, hp⟩ := hnull (by rw [hc]; rfl)
      refine ⟨pos, by simp, fun _ => hp, ?_⟩
      rw [← callStrtok_self, own, hc, hp]
  | _ => simp [hc, ChatPc.tokenizes] at hpc

/-- Only the thread itself moves. -/
theorem Harmless.own_moves (h : c.Harmless i env) :
    ∃ t' strtok, c.own i env = ⟨Function.update c.thread i t', strtok, c.stored⟩ ∧
      (∀ packet ∈ t'.pending, packet.length ≤ MAX_BUF_SIZE) ∧
      (((c.thread i).pc.tokenizes = false ∧ t' = (c.thread i).own env) ∨
        ((c.thread i).pc.tokenizes = true ∧ ∃ pos, t' = (c.thread i).token env pos)) := by
  have hfits := h.fits
  cases hpc : (c.thread i).pc.tokenizes with
  | false =>
      rw [own_other hpc] at hfits ⊢
      simp only [Function.update_self] at hfits
      exact ⟨_, _, rfl, hfits, Or.inl ⟨rfl, rfl⟩⟩
  | true =>
      obtain ⟨pos, -, -, heq⟩ := h.own_token hpc
      rw [heq] at hfits ⊢
      simp only [Function.update_self] at hfits
      exact ⟨_, _, rfl, hfits, Or.inr ⟨rfl, pos, rfl⟩⟩

end Chats

/-! ## What a thread hands over -/

namespace ChatThread

variable {t : ChatThread}

theorem onDevice_of_asks {op : FileOp} (h : t.asks op = true) : t.pc.onDevice = true := by
  unfold asks at h
  split at h <;> simp_all [ChatPc.onDevice]

theorem asks_write {buf : List UInt8} {env : WriteEnv} (h : t.asks (.write buf env) = true) :
    ∃ n, t.pc = .write n ∧ buf = t.packet ∧ env.notCopied = 0 := by
  cases hpc : t.pc with
  | write n =>
      simp only [asks, hpc, decide_eq_true_eq] at h
      exact ⟨n, rfl, h⟩
  | _ => simp [asks, hpc] at h

theorem asks_llseek {interrupted : Bool} {offset whence : Int}
    (h : t.asks (.llseek interrupted offset whence) = true) :
    ∃ n, t.pc = .lseek n ∧ offset = 0 ∧ whence = SEEK_SET := by
  cases hpc : t.pc with
  | lseek n =>
      simp only [asks, hpc, decide_eq_true_eq] at h
      exact ⟨n, rfl, h⟩
  | _ => simp [asks, hpc] at h

theorem asks_ioctl {interrupted : Bool} {cmd : Nat} {arg : Option AesdSeekto}
    (h : t.asks (.ioctl interrupted cmd arg) = true) :
    ∃ n seekto, t.pc = .ioctl n seekto ∧ cmd = AESDCHAR_IOCSEEKTO ∧ arg = some seekto := by
  cases hpc : t.pc with
  | ioctl n seekto =>
      simp only [asks, hpc, decide_eq_true_eq] at h
      exact ⟨n, seekto, rfl, h⟩
  | _ => simp [asks, hpc] at h

theorem asks_read {count : Nat} {env : ReadEnv} (h : t.asks (.read count env) = true) :
    ∃ n serving, t.pc = .read n serving ∧ count = MAX_BUF_SIZE ∧ env.notCopied = 0 := by
  cases hpc : t.pc with
  | read n serving =>
      simp only [asks, hpc, decide_eq_true_eq] at h
      exact ⟨n, serving, rfl, h⟩
  | _ => simp [asks, hpc] at h

theorem own_of_onDevice (h : t.pc.onDevice = true) (env : ChatStep) : t.own env = t := by
  cases hpc : t.pc <;> simp_all [own, ChatPc.onDevice]

theorem own_writes (t : ChatThread) (env : ChatStep) : (t.own env).writes = t.writes := by
  unfold own
  split
  · split <;> rfl
  · dsimp only
    split <;> rfl
  · dsimp only
    split
    · split <;> rfl
    · rfl
  · split <;> rfl
  · rfl

theorem token_writes (t : ChatThread) (env : ChatStep) (pos : Nat) :
    (t.token env pos).writes = t.writes := by
  unfold token took
  split
  · rfl
  · rfl
  · split <;> rfl
  · rfl

theorem mark_eq (t : ChatThread) (taken : Nat) :
    t.mark taken = t ∨ t.mark taken = { t with began := taken } ∨
      t.mark taken = { t with ended := taken } := by
  unfold mark
  split
  · exact Or.inr (Or.inl rfl)
  · exact Or.inr (Or.inl rfl)
  · exact Or.inr (Or.inr rfl)
  · exact Or.inl rfl

theorem pending_answer (h : t.pc.onDevice = true) (ret : Int) (data : List UInt8) :
    (t.answer ret data).pending = [] := by
  cases hpc : t.pc with
  | write n => simp only [answer, hpc, pending]
  | lseek n => simp only [answer, hpc, pending]
  | ioctl n seekto =>
      simp only [answer, hpc]
      split <;> rfl
  | read n serving => simp only [answer, hpc, pending]
  | _ => simp [hpc, ChatPc.onDevice] at h

theorem pending_eq_nil (h : ∀ n, t.pc ≠ .write n) : t.pending = [] := by
  unfold pending
  split
  · rename_i n hn
    exact absurd hn (h n)
  · rfl

/-- What is handed over as a packet is a line's end and is written, once. -/
structure Sound (t : ChatThread) : Prop where
  line : ∀ n, t.pc = .write n →
    t.packet.getLast? = some NEWLINE ∧ t.packet.length = t.conn.len
  handed : t.conn.handed.filterMap Handed.packet? = t.writes.map Prod.fst ++ t.pending

namespace Sound

theorem start (pkt : List UInt8) : (ChatThread.start pkt).Sound where
  line := fun _ h => absurd h (by simp [ChatThread.start])
  handed := rfl

/-- A step that hands over no packet. -/
theorem of_same {t' : ChatThread} (h : t.Sound) (hpc : ∀ n, t.pc ≠ .write n)
    (hpc' : ∀ n, t'.pc ≠ .write n) (hwrites : t'.writes = t.writes)
    (hhanded : t'.conn.handed.filterMap Handed.packet? =
      t.conn.handed.filterMap Handed.packet?) : t'.Sound where
  line := fun n hn => absurd hn (hpc' n)
  handed := by rw [hhanded, hwrites, h.handed, pending_eq_nil hpc, pending_eq_nil hpc']

theorem own (h : t.Sound) (env : ChatStep) : (t.own env).Sound := by
  cases hpc : t.pc with
  | receive =>
      have hne : ∀ n, t.pc ≠ .write n := by simp [hpc]
      simp only [ChatThread.own, hpc]
      split
      · exact h.of_same hne (by simp) rfl rfl
      · refine h.of_same hne (by simp) rfl ?_
        rename_i read _
        cases read <;> rfl
  | scan n =>
      have hne : ∀ n, t.pc ≠ .write n := by simp [hpc]
      cases n with
      | zero =>
          simp only [ChatThread.own, hpc]
          split
          · exact h
          · exact h.of_same hne (by simp) rfl rfl
      | succ n =>
          simp only [ChatThread.own, hpc]
          split
          · rename_i hnl
            split
            · -- a seek command is handed over, which is no packet
              exact h.of_same hne (by simp) rfl (by simp [Handed.packet?])
            · -- the one step that hands a packet over
              have hlast : t.conn.buff.take (t.conn.len + 1) =
                  t.conn.buff.take t.conn.len ++ [NEWLINE] := by
                rw [List.take_add_one, hnl]
                rfl
              have hlt := (List.getElem?_eq_some_iff.mp hnl).1
              constructor
              · intro m _
                show (t.conn.buff.take (t.conn.len + 1)).getLast? = some NEWLINE ∧
                  (t.conn.buff.take (t.conn.len + 1)).length = t.conn.len + 1
                constructor
                · rw [hlast, List.getLast?_concat]
                · rw [List.length_take]
                  omega
              · have hhanded := h.handed
                simp only [pending, hpc, List.append_nil] at hhanded
                simp [Handed.packet?, pending, packet, hhanded]
          · exact h.of_same hne (by simp) rfl rfl
  | send n serving ret data =>
      have hne : ∀ n, t.pc ≠ .write n := by simp [hpc]
      simp only [ChatThread.own, hpc]
      split
      · exact h.of_same hne (by simp) rfl rfl
      · refine h.of_same hne ?_ rfl rfl
        intro m
        show (if _ then ChatPc.cleanup _ else ChatPc.scan n) ≠ ChatPc.write m
        split <;> simp
      · exact h
  | _ => simpa only [ChatThread.own, hpc] using h

theorem token (h : t.Sound) (hpc : t.pc.tokenizes = true) (env : ChatStep) (pos : Nat) :
    (t.token env pos).Sound := by
  have hne : ∀ n, t.pc ≠ .write n := by
    intro n hn
    rw [hn] at hpc
    exact Bool.false_ne_true hpc
  unfold ChatThread.token
  generalize t.strtok env pos = r
  cases hc : t.pc with
  | arg1 n =>
      simp only [took, cut, hc]
      exact h.of_same hne (by simp) rfl rfl
  | arg2 n arg1 =>
      simp only [took, cut, hc]
      exact h.of_same hne (by simp) rfl rfl
  | arg3 n arg1 arg2 =>
      simp only [took, cut, hc]
      split
      · exact h.of_same hne (by simp) rfl rfl
      · exact h.of_same hne (by simp) rfl rfl
  | _ => simp [hc, ChatPc.tokenizes] at hpc

theorem mark (h : t.Sound) (taken : Nat) : (t.mark taken).Sound := by
  rcases t.mark_eq taken with heq | heq | heq
  · rwa [heq]
  · rw [heq]
    exact ⟨h.line, h.handed⟩
  · rw [heq]
    exact ⟨h.line, h.handed⟩

theorem answer (h : t.Sound) (ret : Int) (data : List UInt8) : (t.answer ret data).Sound := by
  cases hpc : t.pc with
  | write n =>
      -- what was pending is now among the writes, told whole or not
      have hhanded := h.handed
      simp only [pending, hpc] at hhanded
      simp only [ChatThread.answer, hpc]
      constructor
      · exact fun m hm => nomatch hm
      · simp [pending, hhanded]
  | lseek n =>
      have hne : ∀ n, t.pc ≠ .write n := by simp [hpc]
      simp only [ChatThread.answer, hpc]
      exact h.of_same hne (by simp) rfl rfl
  | ioctl n seekto =>
      have hne : ∀ n, t.pc ≠ .write n := by simp [hpc]
      simp only [ChatThread.answer, hpc]
      split
      · exact h.of_same hne (by simp) rfl rfl
      · exact h.of_same hne (by simp) rfl rfl
  | read n serving =>
      have hne : ∀ n, t.pc ≠ .write n := by simp [hpc]
      simp only [ChatThread.answer, hpc]
      exact h.of_same hne (by simp) rfl rfl
  | _ => simpa only [ChatThread.answer, hpc] using h

end Sound

end ChatThread

end AesdChar
