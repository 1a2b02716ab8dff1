import AesdChar.ProcessPacket

/-!
# Reply loops

`process_packet` and `seek_and_read` send a descriptor's contents to the connection by one and the
same loop.  They differ in what they do about a failed `write`: one returns -1, the other breaks
out of the loop.  Here the loop runs over any results of `read` and of `write`.
-/

namespace AesdChar

open CInt

/-- The result of a `read` that delivers `bytes`, or that fails. -/
def readRet : Option (List UInt8) → Int
  | some bytes => bytes.length
  | none => -1

/-- The buffer, the lengths passed to `write`, and what the connection took of them. -/
structure Reply where
  writeBackPkt : List UInt8
  asked : List Int
  sent : List UInt8

section

variable {ρ : Type} (ended failed : ρ)

/-- One round, with the result of its read. -/
def replyRound (ret : Int) (data : List UInt8) (conn : Int → Int) (reply : Reply) :
    Loop.Step Reply (ρ × Reply) :=
  let readBytes := int32 ret
  let pkt := data ++ reply.writeBackPkt.drop data.length
  if readBytes = 0 then .done (ended, { reply with writeBackPkt := pkt })
  else
    -- a failed read asks for -1 bytes to be sent
    let wrote : Reply :=
      ⟨pkt, reply.asked ++ [readBytes], reply.sent ++ pkt.take (conn readBytes).toNat⟩
    if conn readBytes ≠ readBytes then .done (failed, wrote) else .next wrote

variable {ended failed}

theorem replyRound_zero {ret : Int} (hret : int32 ret = 0) (data : List UInt8) (conn : Int → Int)
    (reply : Reply) :
    replyRound ended failed ret data conn reply =
      .done (ended, { reply with
        writeBackPkt := data ++ reply.writeBackPkt.drop data.length }) := by
  dsimp only [replyRound]
  rw [if_pos hret]

theorem replyRound_short {ret n : Int} (hret : int32 ret = n) (hn : n ≠ 0) (data : List UInt8)
    {conn : Int → Int} (hshort : conn n ≠ n) (reply : Reply) :
    replyRound ended failed ret data conn reply =
      .done (failed, ⟨data ++ reply.writeBackPkt.drop data.length, reply.asked ++ [n],
        reply.sent ++
          (data ++ reply.writeBackPkt.drop data.length).take (conn n).toNat⟩) := by
  dsimp only [replyRound]
  rw [hret, if_neg hn, if_pos hshort]

theorem replyRound_next {ret n : Int} (hret : int32 ret = n) (hn : n ≠ 0) (data : List UInt8)
    {conn : Int → Int} (hwrite : conn n = n) (reply : Reply) :
    replyRound ended failed ret data conn reply =
      .next ⟨data ++ reply.writeBackPkt.drop data.length, reply.asked ++ [n],
        reply.sent ++ (data ++ reply.writeBackPkt.drop data.length).take n.toNat⟩ := by
  dsimp only [replyRound]
  rw [hret, if_neg hn, if_neg (not_not.mpr hwrite), hwrite]

variable (ended failed)

/-- The `k`-th round takes the `k`-th results. -/
def replyLoop (reads : Nat → Option (List UInt8)) (conn : Nat → Int → Int) :
    Nat × Reply → Loop.Step (Nat × Reply) (ρ × Reply)
  | (k, reply) =>
      (replyRound ended failed (readRet (reads k)) ((reads k).getD []) (conn k) reply).map
        (fun reply => (k + 1, reply)) id

end

def processPacketReply : (Nat → Option (List UInt8)) → (Nat → Int → Int) → Nat × Reply →
    Loop.Step (Nat × Reply) (Int × Reply) :=
  replyLoop 0 (-1)

/-- The end of the loop and the `break` out of it look the same to the caller. -/
def seekAndReadReply : (Nat → Option (List UInt8)) → (Nat → Int → Int) → Nat × Reply →
    Loop.Step (Nat × Reply) (Unit × Reply) :=
  replyLoop () ()

/-- The loop over the driver makes these rounds with the results that the driver gives. -/
theorem packetRead_eq (env : ReadEnv) (conn : Int → Int) (s : Driver) (client : Client)
    (asked : List Int) :
    packetRead env conn s client =
      match aesdRead s env MAX_BUF_SIZE client.fPos with
      | none => .hang
      | some r =>
          (replyRound (0 : Int) (-1) (sysRet r.ret) r.data conn
            ⟨client.writeBackPkt, asked, client.sent⟩).map
            (fun reply => (r.driver, ⟨r.fPos, reply.writeBackPkt, reply.sent⟩))
            fun res => (res.1, r.driver, ⟨r.fPos, res.2.writeBackPkt, res.2.sent⟩) := by
  unfold packetRead
  cases aesdRead s env MAX_BUF_SIZE client.fPos with
  | none => rfl
  | some r =>
      dsimp only
      by_cases hzero : int32 (sysRet r.ret) = 0
      · rw [if_pos hzero, replyRound_zero hzero]
        rfl
      · rw [if_neg hzero]
        by_cases hwrite : conn (int32 (sysRet r.ret)) = int32 (sysRet r.ret)
        · rw [if_neg (not_not.mpr hwrite), hwrite, replyRound_next rfl hzero _ hwrite]
          rfl
        · rw [if_pos hwrite, replyRound_short rfl hzero _ hwrite]
          rfl

/-! ## Rounds that go on -/

/-- A read that delivers something, all of which the connection takes. -/
def GoesOn (conn : Int → Int) (read : Option (List UInt8)) : Prop :=
  0 < readRet read ∧ conn (readRet read) = readRet read

/-- The lengths of the first `m` reads. -/
def lengths (reads : Nat → Option (List UInt8)) (m : Nat) : List Int :=
  (List.range m).map fun j => readRet (reads j)

/-- What the first `m` reads deliver. -/
def delivered (reads : Nat → Option (List UInt8)) (m : Nat) : List UInt8 :=
  ((List.range m).map fun j => (reads j).getD []).flatten

theorem lengths_succ (reads : Nat → Option (List UInt8)) (m : Nat) :
    lengths reads (m + 1) = lengths reads m ++ [readRet (reads m)] := by
  simp [lengths, List.range_succ]

theorem delivered_succ (reads : Nat → Option (List UInt8)) (m : Nat) :
    delivered reads (m + 1) = delivered reads m ++ (reads m).getD [] := by
  simp [delivered, List.range_succ]

/-- What `read (fd, .., MAX_BUF_SIZE)` can return. -/
def FitsBuffer (read : Option (List UInt8)) : Prop := ∀ bytes ∈ read, bytes.length ≤ MAX_BUF_SIZE

theorem int32_readRet {read : Option (List UInt8)} (h : FitsBuffer read) :
    int32 (readRet read) = readRet read := by
  cases read with
  | none => rfl
  | some bytes =>
      have hle : bytes.length ≤ 1024 := h bytes rfl
      exact int32_natCast _ (by omega)

theorem bytes_of_goesOn {conn : Int → Int} {read : Option (List UInt8)} (h : GoesOn conn read) :
    ∃ bytes, read = some bytes ∧ bytes ≠ [] := by
  cases read with
  | none => exact absurd h.1 (by decide)
  | some bytes =>
      refine ⟨bytes, rfl, ?_⟩
      rintro rfl
      exact absurd h.1 (by decide)

section

variable {ρ : Type} {ended failed : ρ} {reads : Nat → Option (List UInt8)}
  {conn : Nat → Int → Int}

theorem replyLoop_goesOn (hfits : ∀ k, FitsBuffer (reads k)) {k : Nat}
    (h : GoesOn (conn k) (reads k)) (reply : Reply) :
    ∃ pkt, replyLoop ended failed reads conn (k, reply) =
      .next (k + 1, ⟨pkt, reply.asked ++ [readRet (reads k)],
        reply.sent ++ (reads k).getD []⟩) := by
  obtain ⟨bytes, hbytes, hne⟩ := bytes_of_goesOn h
  refine ⟨bytes ++ reply.writeBackPkt.drop bytes.length, ?_⟩
  have hlen : readRet (reads k) = bytes.length := by rw [hbytes]; rfl
  have hround := @replyRound_next _ ended failed _ _ (int32_readRet (hfits k)) h.1.ne' bytes _ h.2
    reply
  rw [replyLoop, hbytes, Option.getD_some, ← hbytes, hround, hlen, Int.toNat_natCast,
    List.take_left]
  rfl

theorem replyLoop_after (hfits : ∀ k, FitsBuffer (reads k)) {m : Nat}
    (h : ∀ j < m, GoesOn (conn j) (reads j)) (pkt : List UInt8) :
    ∃ pkt', Loop.after (replyLoop ended failed reads conn) m (0, ⟨pkt, [], []⟩) =
      some (m, ⟨pkt', lengths reads m, delivered reads m⟩) := by
  induction m with
  | zero => exact ⟨pkt, rfl⟩
  | succ m ih =>
      obtain ⟨pkt', hafter⟩ := ih fun j hj => h j (Nat.lt_succ_of_lt hj)
      obtain ⟨pkt'', hround⟩ := replyLoop_goesOn hfits (h m (Nat.lt_succ_self m))
        ⟨pkt', lengths reads m, delivered reads m⟩
      refine ⟨pkt'', ?_⟩
      rw [lengths_succ, delivered_succ]
      exact Loop.after_succ_iff.mpr ⟨_, hafter, hround⟩

end

end AesdChar
