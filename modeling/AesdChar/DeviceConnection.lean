import AesdChar.FramingCondition
import AesdChar.Lookup
import AesdChar.SeekCommand

/-!
# A connection on the device

The thread of a connection from its first read to `cleanup`, together with what the calls it hands
lines to do on the device.  Clients that come one after another, each with one line, get what the
commands so far and their line ask for.
-/

namespace AesdChar

open CInt Decimal

/-- `seek_and_read` on a descriptor of the device; `none` when its loop has not left after `fuel`
rounds.  The interruption is that of the `ioctl`. -/
def deviceSeekAndRead (fuel : Nat) (env : PacketEnv) (s : Driver) (client : Client)
    (mem : List UInt8) : Option (Driver × Client) :=
  match seekArgs mem with
  | (some _, some arg2, some arg3, _) =>
      let seekto : AesdSeekto := ⟨uint32 (atoi arg2), uint32 (atoi arg3)⟩
      match aesdIoctl s env.seekInterrupted client.fPos AESDCHAR_IOCSEEKTO (some seekto) with
      | none => none
      | some (ret, fPos) =>
          if sysRet ret ≠ 0 then some (s, { client with fPos := fPos })
          else
            (Loop.run (packetLoop env) fuel (0, s, { client with fPos := fPos })).map Prod.snd
  | _ => some (s, client)

structure ChatEnv where
  junk : Nat → UInt8
  beyond : List UInt8
  -- what the `k`-th line handed over meets
  call : Nat → PacketEnv

/-- The memory, with every packet served. -/
def ChatEnv.memory (env : ChatEnv) : ConnEnv := ⟨env.junk, env.beyond, fun _ => 0⟩

structure Chat where
  conn : Conn
  driver : Driver
  client : Client

section

variable (fixedSizeLlseek : LlseekFn) (fuel : Nat) (env : ChatEnv)

/-- The rest of the scan; `none` when a call does not come back. -/
def chatScan : Nat → Chat → Option (Bool × Chat)
  | 0, c => some (false, c)
  | n + 1, ⟨c, driver, client⟩ =>
      let len := c.len + 1
      let call := env.call c.handed.length
      if c.buff[c.len]? = some NEWLINE then
        if startsSeek c.buff then
          match deviceSeekAndRead fuel call driver client (c.buff ++ env.beyond) with
          | none => none
          | some (driver, client) =>
              let string := CString.string (c.buff ++ env.beyond)
              chatScan n ⟨⟨wipe env.memory c.buff, len,
                c.handed ++ [.seek (c.buff.take len) string]⟩, driver, client⟩
        else
          let handed := c.handed ++ [.packet (c.buff.take len)]
          match processPacket fixedSizeLlseek fuel call driver client (c.buff.take len) with
          | none => none
          | some (ret, driver, client) =>
              if ret ≠ 0 then some (true, ⟨⟨c.buff, len, handed⟩, driver, client⟩)
              else chatScan n ⟨⟨c.buff, len, handed⟩, driver, client⟩
      else chatScan n ⟨⟨c.buff, len, c.handed⟩, driver, client⟩

def chatReceive : Chat → List (Option (List UInt8)) → Option Chat
  | c, [] => some c
  | c, read :: reads =>
      match chatScan fixedSizeLlseek fuel env MAX_BUF_SIZE { c with conn := c.conn.read read } with
      | none => none
      | some (true, c) => some c
      | some (false, c) =>
          let size := c.conn.len + MAX_BUF_SIZE
          if overflowsInt size then none
          else
            chatReceive
              { c with conn := { c.conn with buff := realloc env.memory c.conn.buff size } } reads

/-- `process_client_connection` on a descriptor that `create_client_thread` has just opened, with
`pkt` in `write_back_pkt`. -/
def chat (reads : List (Option (List UInt8))) (s : Driver) (pkt : List UInt8) : Option Chat :=
  chatReceive fixedSizeLlseek fuel env
    ⟨⟨List.replicate MAX_BUF_SIZE 0, 0, []⟩, s, ⟨0, pkt, []⟩⟩ reads

/-- The lines handed over from the `k`-th on, served one after another.  What a seek command does
depends on the line alone, not on what follows it in memory. -/
inductive Performed : Nat → Driver × Client → List Handed → Driver × Client → Prop
  | nil (k : Nat) (st : Driver × Client) : Performed k st [] st
  | packet {k : Nat} {s : Driver} {client : Client} {bytes : List UInt8} {hs : List Handed}
      {st st' : Driver × Client}
      (hcall : processPacket fixedSizeLlseek fuel (env.call k) s client bytes = some (0, st))
      (hrest : Performed (k + 1) st hs st') : Performed k (s, client) (.packet bytes :: hs) st'
  | seek {k : Nat} {s : Driver} {client : Client} {bytes string : List UInt8} {hs : List Handed}
      {st st' : Driver × Client}
      (hcall : ∀ rest, deviceSeekAndRead fuel (env.call k) s client (bytes ++ rest) = some st)
      (hrest : Performed (k + 1) st hs st') : Performed k (s, client) (.seek bytes string :: hs) st'

end

/-! ## The thread does what it hands over -/

section

variable {fixedSizeLlseek : LlseekFn} {fuel : Nat} {env : ChatEnv}

/-- A scan only adds to what was handed over. -/
theorem scan_handed (env : ConnEnv) (n : Nat) (c : Conn) :
    ∃ hs, (scan env n c).2.handed = c.handed ++ hs := by
  induction n generalizing c with
  | zero => exact ⟨[], (List.append_nil _).symm⟩
  | succ n ih =>
      have hmore : ∀ (c' : Conn) (h : Handed), c'.handed = c.handed ++ [h] →
          ∃ hs, (scan env n c').2.handed = c.handed ++ hs := by
        intro c' h hc'
        obtain ⟨hs, he⟩ := ih c'
        exact ⟨h :: hs, by rw [he, hc', List.append_assoc, List.singleton_append]⟩
      rw [scan]
      dsimp only
      split
      · split
        · exact hmore _ _ rfl
        · split
          · exact ⟨[_], rfl⟩
          · exact hmore _ _ rfl
      · exact ih _

theorem chatScan_performed {n : Nat} {c : Conn} {s : Driver} {client : Client} {hs : List Handed}
    {st : Driver × Client} (hhanded : (scan env.memory n c).2.handed = c.handed ++ hs)
    (hperformed : Performed fixedSizeLlseek fuel env c.handed.length (s, client) hs st) :
    chatScan fixedSizeLlseek fuel env n ⟨c, s, client⟩ =
      some (false, ⟨(scan env.memory n c).2, st.1, st.2⟩) := by
  induction n generalizing c s client hs with
  | zero =>
      have hnil : hs = [] := by
        rw [scan] at hhanded
        exact (List.self_eq_append_right.mp hhanded)
      rw [hnil] at hperformed
      cases hperformed
      rfl
  | succ n ih =>
      rw [scan] at hhanded ⊢
      rw [chatScan]
      -- of what is handed over the first is handed over now
      have hnext : ∀ (c' : Conn) (h : Handed), c'.handed = c.handed ++ [h] →
          (scan env.memory n c').2.handed = c.handed ++ hs → ∃ rest, hs = h :: rest ∧
            (scan env.memory n c').2.handed = c'.handed ++ rest := by
        intro c' h hc' he
        obtain ⟨rest, hrest⟩ := scan_handed env.memory n c'
        refine ⟨rest, ?_, hrest⟩
        rw [hrest, hc', List.append_assoc] at he
        exact (List.append_cancel_left he).symm
      by_cases hnl : c.buff[c.len]? = some NEWLINE
      · simp only [if_pos hnl] at hhanded ⊢
        by_cases hseek : startsSeek c.buff = true
        · simp only [if_pos hseek] at hhanded ⊢
          obtain ⟨rest, rfl, hrest⟩ := hnext _ _ rfl hhanded
          cases hperformed with
          | seek hcall hperformed =>
              have hmem : c.buff.take (c.len + 1) ++ (c.buff.drop (c.len + 1) ++ env.beyond) =
                  c.buff ++ env.beyond := by
                rw [← List.append_assoc, List.take_append_drop]
              have hseeks := hcall (c.buff.drop (c.len + 1) ++ env.beyond)
              rw [hmem] at hseeks
              rw [hseeks]
              apply ih hrest
              rw [List.length_append]
              exact hperformed
        · have hserved : ¬ env.memory.served c.handed.length ≠ 0 := not_not.mpr rfl
          simp only [if_neg hseek, if_neg hserved] at hhanded ⊢
          obtain ⟨rest, rfl, hrest⟩ := hnext _ _ rfl hhanded
          cases hperformed with
          | packet hcall hperformed =>
              rw [hcall]
              dsimp only
              rw [if_neg (not_not.mpr rfl)]
              apply ih hrest
              rw [List.length_append]
              exact hperformed
      · simp only [if_neg hnl] at hhanded ⊢
        exact ih hhanded hperformed

theorem Performed.split {k : Nat} {st st' : Driver × Client} {hs hs' : List Handed}
    (h : Performed fixedSizeLlseek fuel env k st (hs ++ hs') st') :
    ∃ mid, Performed fixedSizeLlseek fuel env k st hs mid ∧
      Performed fixedSizeLlseek fuel env (k + hs.length) mid hs' st' := by
  induction hs generalizing k st with
  | nil => exact ⟨st, .nil k st, h⟩
  | cons handed hs ih =>
      rw [List.length_cons, Nat.add_comm hs.length, ← Nat.add_assoc]
      cases h with
      | packet hcall hrest =>
          obtain ⟨mid, hfront, hback⟩ := ih hrest
          exact ⟨mid, .packet hcall hfront, hback⟩
      | seek hcall hrest =>
          obtain ⟨mid, hfront, hback⟩ := ih hrest
          exact ⟨mid, .seek hcall hfront, hback⟩

/-- A round of the receive loop whose packets are all served. -/
theorem receive_round {c c' : Conn} {read : Option (List UInt8)}
    {reads : List (Option (List UInt8))}
    (hrun : receive env.memory c (read :: reads) = some c') :
    overflowsInt ((scan env.memory MAX_BUF_SIZE (c.read read)).2.len + MAX_BUF_SIZE) = false ∧
      receive env.memory
        { (scan env.memory MAX_BUF_SIZE (c.read read)).2 with
          buff := realloc env.memory (scan env.memory MAX_BUF_SIZE (c.read read)).2.buff
            ((scan env.memory MAX_BUF_SIZE (c.read read)).2.len + MAX_BUF_SIZE) } reads =
        some c' := by
  have hserved := @scan_served env.memory (fun _ => rfl) MAX_BUF_SIZE (c.read read)
  rw [receive] at hrun
  simp only [hserved.1, Bool.false_eq_true, if_false] at hrun
  cases hover :
      overflowsInt ((scan env.memory MAX_BUF_SIZE (c.read read)).2.len + MAX_BUF_SIZE) with
  | true =>
      rw [if_pos hover] at hrun
      exact absurd hrun (Option.some_ne_none c').symm
  | false =>
      rw [if_neg (by rw [hover]; exact Bool.false_ne_true)] at hrun
      exact ⟨rfl, hrun⟩

theorem handed_read (c : Conn) (read : Option (List UInt8)) : (c.read read).handed = c.handed := by
  cases read <;> rfl

theorem receive_handed {c c' : Conn} {reads : List (Option (List UInt8))}
    (hrun : receive env.memory c reads = some c') : ∃ hs, c'.handed = c.handed ++ hs := by
  induction reads generalizing c with
  | nil => exact ⟨[], by rw [← Option.some.inj hrun, List.append_nil]⟩
  | cons read reads ih =>
      obtain ⟨rest, hrest⟩ := ih (receive_round hrun).2
      obtain ⟨hs, hscan⟩ := scan_handed env.memory MAX_BUF_SIZE (c.read read)
      rw [handed_read] at hscan
      dsimp only at hrest
      exact ⟨hs ++ rest, by rw [hrest, hscan, List.append_assoc]⟩

theorem chatReceive_performed {c c' : Conn} {reads : List (Option (List UInt8))}
    (hrun : receive env.memory c reads = some c') {hs : List Handed}
    (hhanded : c'.handed = c.handed ++ hs) {s : Driver} {client : Client} {st : Driver × Client}
    (hperformed : Performed fixedSizeLlseek fuel env c.handed.length (s, client) hs st) :
    chatReceive fixedSizeLlseek fuel env ⟨c, s, client⟩ reads = some ⟨c', st.1, st.2⟩ := by
  induction reads generalizing c s client hs with
  | nil =>
      have hsame := Option.some.inj hrun
      have hnil : hs = [] := by
        rw [← hsame] at hhanded
        exact List.self_eq_append_right.mp hhanded
      rw [hnil] at hperformed
      cases hperformed
      rw [chatReceive, hsame]
  | cons read reads ih =>
      obtain ⟨hfits, hnext⟩ := receive_round hrun
      obtain ⟨front, hfront⟩ := scan_handed env.memory MAX_BUF_SIZE (c.read read)
      obtain ⟨back, hback⟩ := receive_handed hnext
      rw [handed_read] at hfront
      dsimp only at hback
      have hsplit : hs = front ++ back := by
        rw [hback, hfront, List.append_assoc] at hhanded
        exact (List.append_cancel_left hhanded).symm
      rw [hsplit] at hperformed
      obtain ⟨mid, hperformed, hrest⟩ := hperformed.split
      rw [← handed_read c read] at hperformed
      have hscan := chatScan_performed (hfront.trans (by rw [handed_read])) hperformed
      rw [chatReceive]
      simp only [hscan, hfits, Bool.false_eq_true, if_false]
      apply ih hnext hback
      rw [hfront, List.length_append]
      exact hrest

/-- A connection whose lines are all served is the connection over its memory alone, and does to the
device what its lines do one after another. -/
theorem chat_performed {reads : List (Option (List UInt8))} {c : Conn}
    (hrun : processClientConnection env.memory reads = some c) {s : Driver} {pkt : List UInt8}
    {st : Driver × Client}
    (hperformed : Performed fixedSizeLlseek fuel env 0 (s, ⟨0, pkt, []⟩) c.handed st) :
    chat fixedSizeLlseek fuel env reads s pkt = some ⟨c, st.1, st.2⟩ :=
  chatReceive_performed hrun (List.nil_append _).symm hperformed

end

end AesdChar
