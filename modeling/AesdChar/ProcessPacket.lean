import AesdChar.DeviceReads
import AesdChar.DeviceSize
import AesdChar.Lib.Pieces

/-!
# Serving a packet

`process_packet` of the server, in the build that talks to the driver: write the packet, rewind,
and send back what the device holds, one read at a time.  Over healthy calls the reply is the
device's contents after the write.
-/

namespace AesdChar

open CInt

def MAX_BUF_SIZE : Nat := 1024

/-- What the C library makes of a driver's result. -/
def sysRet (ret : Int) : Int := if ret < 0 then -1 else ret

/-- What a thread keeps while it serves a packet: its descriptor's position, its buffer, and what
it has written to the connection. -/
structure Client where
  fPos : Int
  writeBackPkt : List UInt8
  sent : List UInt8

structure PacketEnv where
  write : WriteEnv
  seekInterrupted : Bool
  -- the `k`-th read of the loop
  read : Nat → ReadEnv
  -- what the `k`-th `write (connfd, .., n)` returns
  conn : Nat → Int → Int

/-- A short write is only logged. -/
def packetWrite (env : WriteEnv) (s : Driver) (client : Client) (buff : List UInt8) :
    Driver × Client :=
  let written := aesdWrite s env buff client.fPos
  (written.driver, { client with fPos := written.fPos })

def packetSeek (fixedSizeLlseek : LlseekFn) (interrupted : Bool) (s : Driver) (client : Client) :
    Client :=
  { client with fPos := (aesdLlseek fixedSizeLlseek s interrupted client.fPos 0 SEEK_SET).2 }

/-- One round of the loop: a read of the device and a write to the connection. -/
def packetRead (env : ReadEnv) (conn : Int → Int) (s : Driver) (client : Client) :
    Loop.Step (Driver × Client) (Int × Driver × Client) :=
  match aesdRead s env MAX_BUF_SIZE client.fPos with
  | none => .hang
  | some r =>
      let readBytes := int32 (sysRet r.ret)
      let pkt := r.data ++ client.writeBackPkt.drop r.data.length
      if readBytes = 0 then .done (0, r.driver, ⟨r.fPos, pkt, client.sent⟩)
      else
        let sent := client.sent ++ pkt.take (conn readBytes).toNat
        -- a failed read asks for -1 bytes to be sent
        if conn readBytes ≠ readBytes then .done (-1, r.driver, ⟨r.fPos, pkt, sent⟩)
        else .next (r.driver, ⟨r.fPos, pkt, sent⟩)

def packetLoop (env : PacketEnv) :
    Nat × Driver × Client → Loop.Step (Nat × Driver × Client) (Int × Driver × Client)
  | (k, s, client) =>
      match packetRead (env.read k) (env.conn k) s client with
      | .next next => .next (k + 1, next)
      | .done r => .done r
      | .hang => .hang

/-- The result, the driver and the client after the call; `none` when the loop has not left after
`fuel` rounds. -/
def processPacket (fixedSizeLlseek : LlseekFn) (fuel : Nat) (env : PacketEnv) (s : Driver)
    (client : Client) (buff : List UInt8) : Option (Int × Driver × Client) :=
  let written := packetWrite env.write s client buff
  let sought := packetSeek fixedSizeLlseek env.seekInterrupted written.1 written.2
  Loop.run (packetLoop env) fuel (0, written.1, sought)

/-! ## Healthy calls -/

/-- Every system call of the packet does what it was asked to. -/
structure PacketEnv.Healthy (env : PacketEnv) : Prop where
  write : env.write.Healthy
  seek : env.seekInterrupted = false
  read : ∀ k, (env.read k).Healthy
  conn : ∀ k n, 0 < n → env.conn k n = n

/-- What the clients send. -/
structure IsPacket (buff : List UInt8) : Prop where
  terminated : buff.getLast? = some NEWLINE
  size : buff.length ≤ MAX_BUF_SIZE

theorem IsPacket.newline_mem {buff : List UInt8} (h : IsPacket buff) : NEWLINE ∈ buff :=
  List.mem_of_getLast? h.terminated

/-- No stored command outgrows the buffer it is read into. -/
def CommandLog.Small (log : CommandLog) : Prop := ∀ c ∈ log.commands, c.length ≤ MAX_BUF_SIZE

theorem packetSeek_fPos {fixedSizeLlseek : LlseekFn} (hl : FixedSizeLlseek fixedSizeLlseek)
    {interrupted : Bool} (hi : interrupted = false) (s : Driver) (client : Client) :
    (packetSeek fixedSizeLlseek interrupted s client).fPos = 0 := by
  unfold packetSeek aesdLlseek
  rw [if_pos (Or.inl rfl), hi, if_neg (by decide), hl.set _ 0 _ le_rfl (Int.natCast_nonneg _)]

namespace Holds

variable {s : Driver} {log : CommandLog}

theorem contents_length_le (h : Holds s log) (hsmall : log.Small) :
    log.contents.length ≤ 10 * MAX_BUF_SIZE := by
  -- ten commands, none longer than a buffer
  have hcount : log.commands.length ≤ 10 := by
    rw [← h.count_eq]
    exact s.dev.buffer.count_le
  have hsum := Pieces.length_flatten_le hsmall
  rw [CommandLog.contents]
  unfold MAX_BUF_SIZE at hsum ⊢
  omega

theorem packetRead_end (h : Holds s log) {env : ReadEnv} (he : env.Healthy)
    (conn : Int → Int) {client : Client} {p : Nat} (hp : client.fPos = p) (hlt : p < 2 ^ 31)
    (hend : log.contents.length ≤ p) :
    packetRead env conn s client = .done (0, s, client) := by
  have hread := h.aesdRead_end he MAX_BUF_SIZE hlt hend
  rw [← hp] at hread
  unfold packetRead
  rw [hread]
  rfl

theorem packetRead_inside (h : Holds s log) (hsmall : log.Small) {env : ReadEnv}
    (he : env.Healthy) {conn : Int → Int} (hconn : ∀ n, 0 < n → conn n = n) {client : Client}
    {p : Nat} (hp : client.fPos = p) (hlt : p < log.contents.length) :
    ∃ data pkt, data ≠ [] ∧ data <+: log.contents.drop p ∧
      packetRead env conn s client =
        .next (s, ⟨((p + data.length : Nat) : Int), pkt, client.sent ++ data⟩) := by
  have hle := h.contents_length_le hsmall
  obtain ⟨data, hne, hpre, ⟨c, hc, hlen⟩, hread⟩ :=
    h.aesdRead_inside he MAX_BUF_SIZE (by unfold MAX_BUF_SIZE at hle; omega) hlt
  have hsize : data.length ≤ 1024 := le_trans hlen (hsmall c hc)
  have hpos : 0 < data.length := List.length_pos_of_ne_nil hne
  have hret : int32 (sysRet (data.length : Int)) = data.length := by
    rw [sysRet, if_neg (by omega)]
    exact int32_natCast _ (by omega)
  have hnz : ¬ (data.length : Int) = 0 := by omega
  refine ⟨data, data ++ client.writeBackPkt.drop data.length, hne, hpre, ?_⟩
  unfold packetRead
  rw [hp, hread]
  simp only [hret, hnz, if_false, hconn _ (show (0 : Int) < data.length by omega), ne_eq,
    not_true_eq_false, Int.toNat_natCast, List.take_left]

/-- The loop in progress: what was sent is what lies before the position. -/
def Echoing (s : Driver) (log : CommandLog) (before : List UInt8) (st : Nat × Driver × Client) :
    Prop :=
  st.2.1 = s ∧ ∃ p ≤ log.contents.length, st.2.2.fPos = (p : Int) ∧
    st.2.2.sent = before ++ log.contents.take p

/-- One round sends a nonempty piece of what is left, or leaves when nothing is left. -/
theorem packetLoop_step (h : Holds s log) (hsmall : log.Small) {env : PacketEnv}
    (he : env.Healthy) {before : List UInt8} {k : Nat} {client : Client}
    (hst : Echoing s log before (k, s, client)) :
    (∃ client', packetLoop env (k, s, client) = .next (k + 1, s, client') ∧
      Echoing s log before (k + 1, s, client') ∧
      log.contents.length - client'.fPos.toNat < log.contents.length - client.fPos.toNat) ∨
    (packetLoop env (k, s, client) = .done (0, s, client) ∧
      client.sent = before ++ log.contents) := by
  obtain ⟨-, p, hple, hpos, hsent⟩ := hst
  change client.fPos = (p : Int) at hpos
  change client.sent = before ++ log.contents.take p at hsent
  by_cases hlt : p < log.contents.length
  · obtain ⟨data, pkt, hne, hpre, hread⟩ :=
      h.packetRead_inside hsmall (he.read k) (he.conn k) hpos hlt
    have hdata : 0 < data.length := List.length_pos_of_ne_nil hne
    have hfit : data.length ≤ log.contents.length - p := by
      rw [← List.length_drop]
      exact hpre.length_le
    apply Or.inl
    refine ⟨⟨((p + data.length : Nat) : Int), pkt, client.sent ++ data⟩, ?_, ?_, ?_⟩
    · rw [packetLoop, hread]
    · refine ⟨rfl, p + data.length, by omega, rfl, ?_⟩
      show client.sent ++ data = before ++ log.contents.take (p + data.length)
      rw [hsent, List.append_assoc, List.take_add, ← List.prefix_iff_eq_take.mp hpre]
    · show log.contents.length - ((p + data.length : Nat) : Int).toNat < _
      rw [hpos, Int.toNat_natCast, Int.toNat_natCast]
      omega
  · have hend : p = log.contents.length := by omega
    have hle := h.contents_length_le hsmall
    apply Or.inr
    constructor
    · rw [packetLoop, h.packetRead_end (he.read k) (env.conn k) hpos
        (by unfold MAX_BUF_SIZE at hle; omega) hend.ge]
    · rw [hsent, hend, List.take_length]

theorem packetLoop_sends (h : Holds s log) (hsmall : log.Small) {env : PacketEnv}
    (he : env.Healthy) {fuel : Nat} (hfuel : 10 * MAX_BUF_SIZE < fuel) {client : Client}
    (hp : client.fPos = 0) :
    ∃ client', Loop.run (packetLoop env) fuel (0, s, client) = some (0, s, client') ∧
      client'.sent = client.sent ++ log.contents := by
  have hle := h.contents_length_le hsmall
  have hstart : Echoing s log client.sent (0, s, client) :=
    ⟨rfl, 0, Nat.zero_le _, hp, by rw [List.take_zero, List.append_nil]⟩
  have hround : ∀ st : Nat × Driver × Client, Echoing s log client.sent st →
      (∃ st', packetLoop env st = .next st' ∧ Echoing s log client.sent st' ∧
        log.contents.length - st'.2.2.fPos.toNat < log.contents.length - st.2.2.fPos.toNat) ∨
      (∃ r, packetLoop env st = .done r ∧
        ∃ client' : Client, r = (0, s, client') ∧
          client'.sent = client.sent ++ log.contents) := by
    intro (k, s', cl) hst
    have hs : s' = s := hst.1
    rw [hs] at hst ⊢
    rcases h.packetLoop_step hsmall he hst with ⟨cl', hb, hst', hlt⟩ | ⟨hb, hsent⟩
    · exact Or.inl ⟨_, hb, hst', hlt⟩
    · exact Or.inr ⟨_, hb, cl, rfl, hsent⟩
  have htotal := Loop.run_total (packetLoop env) (Echoing s log client.sent)
    (fun st => log.contents.length - st.2.2.fPos.toNat) _ hround hstart
    (show log.contents.length - client.fPos.toNat < fuel by omega)
  obtain ⟨r, hrun, client', hr, hsent⟩ := htotal
  exact ⟨client', by rw [hrun, hr], hsent⟩

/-- A healthy call with a packet accepts the packet and sends the contents back. -/
theorem processPacket_echo (h : Holds s log) {fixedSizeLlseek : LlseekFn}
    (hl : FixedSizeLlseek fixedSizeLlseek) {env : PacketEnv} (he : env.Healthy) {buff : List UInt8}
    (hlen : (log.extended buff).length < 2 ^ 31) (hsmall : (log.accept buff).Small) {fuel : Nat}
    (hfuel : 10 * MAX_BUF_SIZE < fuel) (client : Client) :
    ∃ s' client', processPacket fixedSizeLlseek fuel env s client buff = some (0, s', client') ∧
      Holds s' (log.accept buff) ∧
      client'.sent = client.sent ++ (log.accept buff).contents := by
  have hwrite := h.write_succeeds
    (h.succeeds (c := ⟨buff, client.fPos, env.write⟩) he.write hlen)
  have hseek := packetSeek_fPos hl he.seek (packetWrite env.write s client buff).1
    (packetWrite env.write s client buff).2
  obtain ⟨client', hrun, hsent⟩ := hwrite.packetLoop_sends hsmall he hfuel hseek
  exact ⟨_, client', hrun, hwrite, hsent⟩

end Holds

/-! ## Sequences of calls -/

structure PacketCall where
  packet : List UInt8
  env : PacketEnv
  -- left in the descriptor and the buffer by earlier calls
  fPos : Int
  writeBackPkt : List UInt8

namespace PacketCall

def run (fixedSizeLlseek : LlseekFn) (fuel : Nat) (s : Driver) (call : PacketCall) :
    Option (Int × Driver × Client) :=
  processPacket fixedSizeLlseek fuel call.env s ⟨call.fPos, call.writeBackPkt, []⟩ call.packet

/-- The driver after the calls, made one after another. -/
def runs (fixedSizeLlseek : LlseekFn) (fuel : Nat) (s : Driver) (calls : List PacketCall) :
    Option Driver :=
  calls.foldlM (fun s call => (run fixedSizeLlseek fuel s call).map fun r => r.2.1) s

/-- A packet whose system calls all work. -/
structure Served (call : PacketCall) : Prop where
  packet : IsPacket call.packet
  env : call.env.Healthy

end PacketCall

/-- What `n` packets leave of the log: the last ten. -/
def CommandLog.ofPackets (packets : List (List UInt8)) : CommandLog := ⟨packets.rtake 10, none⟩

theorem CommandLog.ofPackets_concat {packets : List (List UInt8)} {packet : List UInt8}
    (h : IsPacket packet) :
    CommandLog.ofPackets (packets ++ [packet]) = (CommandLog.ofPackets packets).accept packet := by
  rw [accept_of_mem h.newline_mem, ofPackets, Circular.rtake_concat]
  rfl

theorem CommandLog.ofPackets_small {packets : List (List UInt8)}
    (h : ∀ packet ∈ packets, IsPacket packet) : (CommandLog.ofPackets packets).Small :=
  fun packet hp => (h packet ((Circular.rtake_suffix _ _).subset hp)).size

theorem PacketCall.run_echo {fixedSizeLlseek : LlseekFn} (hl : FixedSizeLlseek fixedSizeLlseek)
    {fuel : Nat} (hfuel : 10 * MAX_BUF_SIZE < fuel) {s : Driver} {packets : List (List UInt8)}
    (h : Holds s (.ofPackets packets)) (hp : ∀ packet ∈ packets, IsPacket packet)
    {call : PacketCall} (hc : call.Served) :
    ∃ s' client, call.run fixedSizeLlseek fuel s = some (0, s', client) ∧
      Holds s' (.ofPackets (packets ++ [call.packet])) ∧
      client.sent = ((packets ++ [call.packet]).rtake 10).flatten := by
  have hconcat := @CommandLog.ofPackets_concat packets _ hc.packet
  have hsmall : ((CommandLog.ofPackets packets).accept call.packet).Small := by
    rw [← hconcat]
    apply CommandLog.ofPackets_small
    intro packet hmem
    rcases List.mem_append.mp hmem with hmem | hmem
    · exact hp packet hmem
    · rw [List.mem_singleton.mp hmem]
      exact hc.packet
  have hlen : ((CommandLog.ofPackets packets).extended call.packet).length < 2 ^ 31 := by
    have := hc.packet.size
    show ([] ++ call.packet).length < 2 ^ 31
    rw [List.nil_append]
    unfold MAX_BUF_SIZE at this
    omega
  obtain ⟨s', client, hrun, hholds, hsent⟩ :=
    h.processPacket_echo hl hc.env hlen hsmall hfuel ⟨call.fPos, call.writeBackPkt, []⟩
  rw [← hconcat] at hholds hsent
  exact ⟨s', client, hrun, hholds, hsent⟩

theorem PacketCall.runs_holds {fixedSizeLlseek : LlseekFn} (hl : FixedSizeLlseek fixedSizeLlseek)
    {fuel : Nat} (hfuel : 10 * MAX_BUF_SIZE < fuel) (calls : List PacketCall)
    (hc : ∀ call ∈ calls, call.Served) :
    ∃ s, PacketCall.runs fixedSizeLlseek fuel aesdInitModule calls = some s ∧
      Holds s (.ofPackets (calls.map PacketCall.packet)) := by
  -- induction on the calls, the last one first
  induction calls using List.reverseRecOn with
  | nil => exact ⟨_, rfl, Holds.init⟩
  | append_singleton calls call ih =>
      obtain ⟨s, hrun, h⟩ := ih fun c hmem => hc c (List.mem_append_left _ hmem)
      have hpackets : ∀ packet ∈ calls.map PacketCall.packet, IsPacket packet := by
        intro packet hmem
        obtain ⟨c, hcmem, rfl⟩ := List.mem_map.mp hmem
        exact (hc c (List.mem_append_left _ hcmem)).packet
      obtain ⟨s', client, hcall, h', -⟩ :=
        PacketCall.run_echo hl hfuel h hpackets (hc call (by simp))
      refine ⟨s', ?_, by rwa [List.map_append]⟩
      unfold PacketCall.runs at hrun ⊢
      rw [List.foldlM_append, hrun]
      show (call.run fixedSizeLlseek fuel s).map _ >>= pure = _
      rw [hcall]
      rfl

/-- Of any sequence of packets served one after another from the zeroed device, each call
comes back and replies with the last ten packets up to its own. -/
theorem processPacket_echoes_history {fixedSizeLlseek : LlseekFn}
    (hl : FixedSizeLlseek fixedSizeLlseek) {fuel : Nat} (hfuel : 10 * MAX_BUF_SIZE < fuel)
    (calls : List PacketCall) (call : PacketCall) (hc : ∀ c ∈ calls ++ [call], c.Served) :
    ∃ s s' client, PacketCall.runs fixedSizeLlseek fuel aesdInitModule calls = some s ∧
      call.run fixedSizeLlseek fuel s = some (0, s', client) ∧
      client.sent = (((calls ++ [call]).map PacketCall.packet).rtake 10).flatten := by
  have hcalls : ∀ c ∈ calls, c.Served := fun c hmem => hc c (List.mem_append_left _ hmem)
  obtain ⟨s, hruns, h⟩ := PacketCall.runs_holds hl hfuel calls hcalls
  have hpackets : ∀ packet ∈ calls.map PacketCall.packet, IsPacket packet := by
    intro packet hmem
    obtain ⟨c, hcmem, rfl⟩ := List.mem_map.mp hmem
    exact (hcalls c hcmem).packet
  obtain ⟨s', client, hrun, -, hsent⟩ :=
    PacketCall.run_echo hl hfuel h hpackets (hc call (by simp))
  refine ⟨s, s', client, hruns, hrun, ?_⟩
  rw [hsent, List.map_append, List.map_singleton]

def PacketEnv.calm : PacketEnv where
  write := .calm
  seekInterrupted := false
  read := fun _ => ⟨false, 0, fun _ => 0⟩
  conn := fun _ n => n

theorem PacketEnv.calm_healthy : PacketEnv.calm.Healthy :=
  ⟨WriteEnv.calm_healthy, rfl, fun _ => ⟨rfl, rfl⟩, fun _ _ _ => rfl⟩

def PacketCall.plain (packet : List UInt8) (fPos : Int) : PacketCall := ⟨packet, .calm, fPos, []⟩

/-- `"a\n"`, then `"b\n"` on a descriptor left at position 7. -/
theorem processPacket_echoes_history_two_packets :
    ∃ s s' client,
      PacketCall.runs boundedLlseek 10241 aesdInitModule [.plain [97, 10] 0] = some s ∧
      (PacketCall.plain [98, 10] 7).run boundedLlseek 10241 s = some (0, s', client) ∧
      client.sent = [97, 10, 98, 10] :=
  processPacket_echoes_history boundedLlseek_documented (by decide) [.plain [97, 10] 0]
    (.plain [98, 10] 7) (by
      simp only [List.cons_append, List.nil_append, List.forall_mem_cons]
      exact ⟨⟨⟨rfl, by decide⟩, PacketEnv.calm_healthy⟩,
        ⟨⟨rfl, by decide⟩, PacketEnv.calm_healthy⟩, by simp⟩)

end AesdChar
