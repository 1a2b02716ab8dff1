import AesdChar.DeviceConnection

/-!
# Clients served one after another

From the bytes that arrive on a connection to the bytes that go back on it.  Each client sends one
line, in any number of reads that frame it: a packet, which is answered with the last ten packets,
or a seek command, which is answered with what follows the byte it names.
-/

namespace AesdChar

open CInt Decimal

/-! ## What a seek command is sent -/

/-- From byte `writeCmdOffset` of the command `writeCmd` to the end.  The size of the command passes
for an offset in it, and is where the next command begins. -/
def CommandLog.tail (log : CommandLog) (seekto : AesdSeekto) : List UInt8 :=
  if seekto.writeCmd < log.commands.length ∧
      seekto.writeCmdOffset ≤ (log.commands.getD seekto.writeCmd []).length then
    log.contents.drop ((log.commands.take seekto.writeCmd).flatten.length + seekto.writeCmdOffset)
  else []

/-- The request that `seek_and_read` makes is made of the device. -/
theorem deviceSeekAndRead_request {fuel : Nat} {env : PacketEnv} {s : Driver} {client : Client}
    {mem : List UInt8} {seekEnv : SeekEnv} {pkt : List UInt8} {seekto : AesdSeekto}
    (h : (seekAndRead fuel seekEnv mem pkt).1 = [seekto]) {ret fPos : Int}
    (hioctl : aesdIoctl s env.seekInterrupted client.fPos AESDCHAR_IOCSEEKTO (some seekto) =
      some (ret, fPos)) :
    deviceSeekAndRead fuel env s client mem =
      if sysRet ret ≠ 0 then some (s, { client with fPos := fPos })
      else (Loop.run (packetLoop env) fuel (0, s, { client with fPos := fPos })).map Prod.snd := by
  unfold seekAndRead at h
  unfold deviceSeekAndRead
  generalize seekArgs mem = args at h ⊢
  match args with
  | (some _, some arg2, some arg3, _) =>
      have hsame : (⟨uint32 (atoi arg2), uint32 (atoi arg3)⟩ : AesdSeekto) = seekto := by
        dsimp only at h
        split at h
        · exact List.singleton_inj.mp h
        · exact List.singleton_inj.mp h
      dsimp only
      rw [hsame, hioctl]
  | (none, _, _, _) => exact absurd h.symm (List.cons_ne_nil _ _)
  | (some _, none, _, _) => exact absurd h.symm (List.cons_ne_nil _ _)
  | (some _, some _, none, _) => exact absurd h.symm (List.cons_ne_nil _ _)

namespace Holds

variable {s : Driver} {log : CommandLog}

/-- The loop in progress: what was sent, with what lies behind the position, is `total`. -/
def Sending (s : Driver) (log : CommandLog) (total : List UInt8) (st : Nat × Driver × Client) :
    Prop :=
  st.2.1 = s ∧ ∃ q ≤ log.contents.length, st.2.2.fPos = (q : Int) ∧
    st.2.2.sent ++ log.contents.drop q = total

/-- The loop from any position on. -/
theorem packetLoop_sends_rest (h : Holds s log) (hsmall : log.Small) {env : PacketEnv}
    (he : env.Healthy) {fuel : Nat} (hfuel : 10 * MAX_BUF_SIZE < fuel) {client : Client} {p : Nat}
    (hp : client.fPos = p) (hple : p ≤ log.contents.length) :
    ∃ client', Loop.run (packetLoop env) fuel (0, s, client) = some (0, s, client') ∧
      client'.sent = client.sent ++ log.contents.drop p := by
  have hle := h.contents_length_le hsmall
  have hround : ∀ st : Nat × Driver × Client,
      Sending s log (client.sent ++ log.contents.drop p) st →
      (∃ st', packetLoop env st = .next st' ∧
        Sending s log (client.sent ++ log.contents.drop p) st' ∧
        log.contents.length - st'.2.2.fPos.toNat < log.contents.length - st.2.2.fPos.toNat) ∨
      (∃ r, packetLoop env st = .done r ∧ ∃ client', r = (0, s, client') ∧
        client'.sent = client.sent ++ log.contents.drop p) := by
    rintro ⟨k, s', cl⟩ ⟨hs, q, hq, hpos, hsent⟩
    dsimp only at hs hpos hsent
    rw [hs]
    by_cases hlt : q < log.contents.length
    · obtain ⟨data, pkt, hne, hpre, hread⟩ :=
        h.packetRead_inside hsmall (he.read k) (he.conn k) hpos hlt
      have hdata : 0 < data.length := List.length_pos_of_ne_nil hne
      have hfit : data.length ≤ log.contents.length - q := by
        rw [← List.length_drop]
        exact hpre.length_le
      apply Or.inl
      refine ⟨_, by rw [packetLoop, hread], ⟨rfl, q + data.length, by omega, rfl, ?_⟩, ?_⟩
      · obtain ⟨rest, hrest⟩ := hpre
        rw [← hsent, ← List.drop_drop, ← hrest, List.drop_left]
        exact List.append_assoc _ _ _
      · show log.contents.length - ((q + data.length : Nat) : Int).toNat < _
        rw [hpos, Int.toNat_natCast, Int.toNat_natCast]
        omega
    · have hend : q = log.contents.length := by omega
      apply Or.inr
      refine ⟨_, ?_, cl, rfl, ?_⟩
      · rw [packetLoop, h.packetRead_end (he.read k) (env.conn k) hpos
          (by unfold MAX_BUF_SIZE at hle; omega) hend.ge]
      · rwa [hend, List.drop_length, List.append_nil] at hsent
  have hstart : Sending s log (client.sent ++ log.contents.drop p) (0, s, client) :=
    ⟨rfl, p, hple, hp, rfl⟩
  have htotal := Loop.run_total (packetLoop env) (Sending s log _)
    (fun st => log.contents.length - st.2.2.fPos.toNat) _ hround hstart
    (show log.contents.length - client.fPos.toNat < fuel by omega)
  obtain ⟨r, hrun, client', hr, hsent⟩ := htotal
  exact ⟨client', by rw [hrun, hr], hsent⟩

/-- Where the `ioctl` leaves the descriptor. -/
theorem aesdIoctl_eq (h : Holds s log) (hsmall : log.Small) {seekto : AesdSeekto}
    (hoff : seekto.writeCmdOffset < 2 ^ 32) (fPos : Int) :
    aesdIoctl s false fPos AESDCHAR_IOCSEEKTO (some seekto) =
      some (
        if log.commands = [] then (0, 0)
        else if seekto.writeCmd < log.commands.length ∧
            seekto.writeCmdOffset ≤ (log.commands.getD seekto.writeCmd []).length then
          (0, (((log.commands.take seekto.writeCmd).flatten.length + seekto.writeCmdOffset : Nat)
            : Int))
        else (-EINVAL, fPos)) := by
  have hle := h.contents_length_le hsmall
  have ht : s.dev.buffer.totalSize < 2 ^ 31 := by
    rw [h.totalSize_eq]
    unfold MAX_BUF_SIZE at hle
    omega
  have hget : (log.commands.map List.length).getD seekto.writeCmd 0 =
      (log.commands.getD seekto.writeCmd []).length :=
    List.getD_map log.commands [] List.length
  have hempty : log.commands.length = 0 ↔ log.commands = [] := List.length_eq_zero_iff
  unfold aesdIoctl
  rw [if_pos rfl]
  dsimp only
  rw [if_neg Bool.false_ne_true, adjust_eq h.ring ht fPos hoff, h.count_eq, h.sizes_eq, hget,
    ← List.map_take, ← List.length_flatten]
  simp only [hempty]

/-- A seek command over healthy calls is sent the tail it asks for, and the device stays. -/
theorem deviceSeekAndRead_sends (h : Holds s log) (hsmall : log.Small) {env : PacketEnv}
    (he : env.Healthy) {fuel : Nat} (hfuel : 10 * MAX_BUF_SIZE < fuel) {line : List UInt8}
    {seekto : AesdSeekto} (hline : IsSeekCommand line seekto) (client : Client) :
    ∃ client', (∀ rest, deviceSeekAndRead fuel env s client (line ++ rest) = some (s, client')) ∧
      client'.sent = client.sent ++ log.tail seekto := by
  have hoff : seekto.writeCmdOffset < 2 ^ 32 := by
    obtain ⟨_, _, _, _, _, _, hoff⟩ := hline
    exact hoff
  have hioctl := h.aesdIoctl_eq hsmall hoff client.fPos
  rw [← he.seek] at hioctl
  have hrequest : ∀ rest, (seekAndRead fuel ⟨fun _ => 0, fun _ => none, fun _ n => n⟩
      (line ++ rest) []).1 = [seekto] := fun rest => seekAndRead_accepts fuel _ [] hline rest
  have hle := h.contents_length_le hsmall
  unfold CommandLog.tail
  by_cases hempty : log.commands = []
  · -- the empty ring is rewound
    rw [if_pos hempty] at hioctl
    obtain ⟨client', hrun, hsent⟩ := @packetLoop_sends_rest _ _ h hsmall _ he _ hfuel
      { client with fPos := 0 } 0 rfl (Nat.zero_le _)
    refine ⟨client', ?_, ?_⟩
    · intro rest
      rw [deviceSeekAndRead_request (hrequest rest) hioctl, if_neg (by decide), hrun]
      rfl
    · have hnone : ¬ (seekto.writeCmd < log.commands.length ∧
          seekto.writeCmdOffset ≤ (log.commands.getD seekto.writeCmd []).length) := by
        rw [hempty]
        exact fun hin => absurd hin.1 (Nat.not_lt_zero _)
      rw [hsent, if_neg hnone, CommandLog.contents, hempty]
      rfl
  · rw [if_neg hempty] at hioctl
    by_cases hin : seekto.writeCmd < log.commands.length ∧
        seekto.writeCmdOffset ≤ (log.commands.getD seekto.writeCmd []).length
    · rw [if_pos hin] at hioctl
      have hpos : (log.commands.take seekto.writeCmd).flatten.length + seekto.writeCmdOffset ≤
          log.contents.length := by
        have hsplit : (log.commands.take seekto.writeCmd).flatten.length +
            (log.commands.drop seekto.writeCmd).flatten.length = log.contents.length := by
          rw [← List.length_append, ← List.flatten_append, List.take_append_drop]
          rfl
        rw [List.drop_eq_getElem_cons hin.1, List.flatten_cons, List.length_append] at hsplit
        have hget := hin.2
        rw [List.getD_eq_getElem _ _ hin.1] at hget
        omega
      obtain ⟨client', hrun, hsent⟩ := @packetLoop_sends_rest _ _ h hsmall _ he _ hfuel
        { client with fPos := (((log.commands.take seekto.writeCmd).flatten.length +
          seekto.writeCmdOffset : Nat) : Int) } _ rfl hpos
      refine ⟨client', ?_, ?_⟩
      · intro rest
        rw [deviceSeekAndRead_request (hrequest rest) hioctl, if_neg (by decide), hrun]
        rfl
      · rw [hsent, if_pos hin]
    · rw [if_neg hin] at hioctl
      refine ⟨{ client with fPos := client.fPos }, ?_, ?_⟩
      · intro rest
        rw [deviceSeekAndRead_request (hrequest rest) hioctl, if_pos (by decide)]
      · rw [if_neg hin, List.append_nil]

end Holds

/-! ## Clients -/

/-- The one line of a client. -/
inductive Request where
  | packet (line : List UInt8)
  | seek (line : List UInt8) (seekto : AesdSeekto)

namespace Request

def line : Request → List UInt8
  | .packet line => line
  | .seek line _ => line

def Proper : Request → Prop
  | .packet line => IsPacket line ∧ ¬ ioctlCmd <+: line
  | .seek line seekto => IsSeekCommand line seekto

/-- The packets there have been once the request has been served. -/
def leaves (packets : List (List UInt8)) : Request → List (List UInt8)
  | .packet line => packets ++ [line]
  | .seek _ _ => packets

/-- What the request is sent when `packets` have been there before. -/
def reply (packets : List (List UInt8)) : Request → List UInt8
  | .packet line => (CommandLog.ofPackets (packets ++ [line])).contents
  | .seek _ seekto => (CommandLog.ofPackets packets).tail seekto

def replies : List (List UInt8) → List Request → List (List UInt8)
  | _, [] => []
  | packets, request :: requests =>
      request.reply packets :: replies (request.leaves packets) requests

end Request

/-- A connection, with the reads its line comes in and what was in `write_back_pkt`. -/
structure Visit where
  pre : List (List UInt8)
  seg : List UInt8
  post : List (List UInt8)
  env : ChatEnv
  pkt : List UInt8
  request : Request

namespace Visit

def segs (v : Visit) : List (List UInt8) := v.pre ++ v.seg :: v.post

/-- The reads frame the client's line, and every system call does what it is asked to. -/
structure Proper (v : Visit) : Prop where
  single : SingleLine v.env.memory v.pre v.seg v.post
  sizes : ∀ seg ∈ v.segs, seg.length ≤ MAX_BUF_SIZE
  few : MAX_BUF_SIZE * (v.segs.length + 1) < 2 ^ 31
  line : lines v.segs.flatten = [v.request.line]
  request : v.request.Proper
  calls : ∀ k, (v.env.call k).Healthy

variable (fixedSizeLlseek : LlseekFn) (fuel : Nat)

/-- The device after the connection, and what the client was sent. -/
def serve (v : Visit) (s : Driver) : Option (Driver × List UInt8) :=
  (chat fixedSizeLlseek fuel v.env (v.segs.map some) s v.pkt).map fun c =>
    (c.driver, c.client.sent)

def serveAll : List Visit → Driver → Option (Driver × List (List UInt8))
  | [], s => some (s, [])
  | v :: visits, s =>
      match v.serve fixedSizeLlseek fuel s with
      | none => none
      | some (s, reply) =>
          (serveAll visits s).map fun (s, replies) => (s, reply :: replies)

end Visit

theorem prefix_seekCommand {line : List UInt8} {seekto : AesdSeekto}
    (h : IsSeekCommand line seekto) : ioctlCmd <+: line := by
  obtain ⟨x, y, rfl, _⟩ := h
  exact List.prefix_append _ _

theorem Visit.served {fixedSizeLlseek : LlseekFn} (hl : FixedSizeLlseek fixedSizeLlseek)
    {fuel : Nat} (hfuel : 10 * MAX_BUF_SIZE < fuel) {s : Driver} {packets : List (List UInt8)}
    (h : Holds s (.ofPackets packets)) (hp : ∀ packet ∈ packets, IsPacket packet) {v : Visit}
    (hv : v.Proper) :
    ∃ s', v.serve fixedSizeLlseek fuel s = some (s', v.request.reply packets) ∧
      Holds s' (.ofPackets (v.request.leaves packets)) ∧
      ∀ packet ∈ v.request.leaves packets, IsPacket packet := by
  obtain ⟨c, x, y, hrun, hx, hbuff, hlines, hhanded⟩ :=
    hv.single.handed (fun _ => rfl) hv.sizes hv.few
  have hline := hv.line
  rw [segs, hlines, List.singleton_inj] at hline
  have hstarts : startsSeek (laidOut v.env.memory 0 (v.pre ++ [v.seg])) = true ↔
      ioctlCmd <+: v.request.line := by
    rw [← hline, hbuff]
    exact startsSeek_line y
  -- the connection hands over one line, and what that does is what the connection does
  have hserve : ∀ {s' client'}, Performed fixedSizeLlseek fuel v.env 0 (s, ⟨0, v.pkt, []⟩)
      [handedAt v.env.memory (laidOut v.env.memory 0 (v.pre ++ [v.seg])) v.request.line]
        (s', client') →
      v.serve fixedSizeLlseek fuel s = some (s', client'.sent) := by
    intro s' client' hperformed
    rw [← hline, ← hhanded] at hperformed
    rw [serve, segs, chat_performed hrun hperformed]
    rfl
  have hproper := hv.request
  cases hr : v.request with
  | packet line =>
      rw [hr] at hproper hserve hstarts
      obtain ⟨hpacket, hplain⟩ := hproper
      have hserved : PacketCall.Served ⟨line, v.env.call 0, 0, v.pkt⟩ := ⟨hpacket, hv.calls 0⟩
      obtain ⟨s', client', hcall, hholds, hsent⟩ := PacketCall.run_echo hl hfuel h hp hserved
      refine ⟨s', ?_, hholds, ?_⟩
      · rw [hserve (by
          rw [handedAt, if_neg fun h => hplain (hstarts.mp h)]
          exact .packet hcall (.nil 1 _)), hsent]
        rfl
      · intro packet hmem
        rcases List.mem_append.mp hmem with hold | hnew
        · exact hp packet hold
        · rw [List.mem_singleton.mp hnew]
          exact hpacket
  | seek line seekto =>
      rw [hr] at hproper hserve hstarts
      obtain ⟨client', hcall, hsent⟩ := h.deviceSeekAndRead_sends (CommandLog.ofPackets_small hp)
        (hv.calls 0) hfuel hproper ⟨0, v.pkt, []⟩
      refine ⟨s, ?_, h, hp⟩
      rw [hserve (by
        rw [handedAt, if_pos (hstarts.mpr (prefix_seekCommand hproper))]
        exact .seek hcall (.nil 1 _)), hsent]
      rfl

theorem Visit.serveAll_served {fixedSizeLlseek : LlseekFn} (hl : FixedSizeLlseek fixedSizeLlseek)
    {fuel : Nat} (hfuel : 10 * MAX_BUF_SIZE < fuel) (visits : List Visit)
    (hv : ∀ v ∈ visits, v.Proper) {s : Driver} {packets : List (List UInt8)}
    (h : Holds s (.ofPackets packets)) (hp : ∀ packet ∈ packets, IsPacket packet) :
    ∃ s', Visit.serveAll fixedSizeLlseek fuel visits s =
        some (s', Request.replies packets (visits.map Visit.request)) ∧
      Holds s' (.ofPackets ((visits.map Visit.request).foldl Request.leaves packets)) := by
  induction visits generalizing s packets with
  | nil => exact ⟨s, rfl, h⟩
  | cons v visits ih =>
      obtain ⟨s', hserve, hholds, hpackets⟩ := Visit.served hl hfuel h hp (hv v List.mem_cons_self)
      obtain ⟨s'', hrest, hend⟩ :=
        ih (fun v hmem => hv v (List.mem_cons_of_mem _ hmem)) hholds hpackets
      refine ⟨s'', ?_, hend⟩
      rw [Visit.serveAll, hserve]
      dsimp only
      rw [hrest]
      rfl

/-- Any number of clients, one after another on a new device, each with a packet or a seek command:
every connection comes to its end, each client is sent what its request asks for of the packets
before it, and the device is left with the last ten packets. -/
theorem clients_served {fixedSizeLlseek : LlseekFn} (hl : FixedSizeLlseek fixedSizeLlseek)
    {fuel : Nat} (hfuel : 10 * MAX_BUF_SIZE < fuel) (visits : List Visit)
    (hv : ∀ v ∈ visits, v.Proper) :
    ∃ s, Visit.serveAll fixedSizeLlseek fuel visits aesdInitModule =
        some (s, Request.replies [] (visits.map Visit.request)) ∧
      Holds s (.ofPackets ((visits.map Visit.request).foldl Request.leaves [])) :=
  Visit.serveAll_served hl hfuel visits hv Holds.init fun _ hmem => absurd hmem List.not_mem_nil

/-- The whole line comes with one read. -/
def Visit.plain (request : Request) : Visit :=
  ⟨[], request.line, [], ⟨fun _ => 0, [], fun _ => .calm⟩, [], request⟩

theorem Visit.plain_proper {request : Request} (hr : request.Proper)
    (hlen : request.line.length ≤ MAX_BUF_SIZE) {body : List UInt8} (hbody : NEWLINE ∉ body)
    (hline : request.line = body ++ [NEWLINE]) : (Visit.plain request).Proper where
  single := by
    apply SingleLine.of_clean
    · exact fun _ => (by decide : (0 : UInt8) ≠ NEWLINE)
    · exact fun _ hs => absurd hs List.not_mem_nil
    · show NEWLINE ∈ request.line
      rw [hline]
      exact List.mem_append_right _ (List.mem_singleton_self _)
    · show (request.line ++ []).count NEWLINE = 1
      rw [List.append_nil, hline, List.count_append, List.count_eq_zero.mpr hbody]
      rfl
  sizes := by
    intro seg hseg
    rw [List.mem_singleton.mp hseg]
    exact hlen
  few := by
    show MAX_BUF_SIZE * (1 + 1) < 2 ^ 31
    decide
  line := by
    show lines (request.line ++ []) = [request.line]
    rw [hline, List.append_assoc, List.singleton_append, lines_cons hbody,
      lines_of_not_mem List.not_mem_nil]
  request := hr
  calls := fun _ => PacketEnv.calm_healthy

/-- `"a\n"`, `"bc\n"`, and a seek to the second byte of the second command. -/
theorem clients_served_three :
    ∃ s, Visit.serveAll boundedLlseek 10241
        [.plain (.packet [97, 10]), .plain (.packet [98, 99, 10]),
          .plain (.seek (AesdSeekto.render ⟨1, 1⟩) ⟨1, 1⟩)] aesdInitModule =
        some (s, [[97, 10], [97, 10, 98, 99, 10], [99, 10]]) ∧
      Holds s (.ofPackets [[97, 10], [98, 99, 10]]) :=
  clients_served boundedLlseek_documented (by decide)
    [.plain (.packet [97, 10]), .plain (.packet [98, 99, 10]),
      .plain (.seek (AesdSeekto.render ⟨1, 1⟩) ⟨1, 1⟩)] (by
    simp only [List.forall_mem_cons]
    refine ⟨?_, ?_, ?_, by simp⟩
    · exact @Visit.plain_proper (.packet [97, 10]) ⟨⟨rfl, by decide⟩, by decide⟩ (by decide) [97]
        (by decide) rfl
    · exact @Visit.plain_proper (.packet [98, 99, 10]) ⟨⟨rfl, by decide⟩, by decide⟩ (by decide)
        [98, 99] (by decide) rfl
    · exact @Visit.plain_proper (.seek (AesdSeekto.render ⟨1, 1⟩) ⟨1, 1⟩)
        ⟨_, _, rfl, numeral_render 1, numeral_render 1, by decide, by decide⟩ (by decide)
        (ioctlCmd ++ [49, 44, 49]) (by decide) rfl)

end AesdChar
