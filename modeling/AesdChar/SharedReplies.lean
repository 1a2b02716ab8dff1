import AesdChar.SharedDevice

/-!
# What the connections are sent

The replies of threads that share the device.  A reply that comes to its end is what the device held
at one instant of its loop, from where the loop began, unless a command was evicted meanwhile.  So
the replies of all connections are cut from the one history, each behind the packet it answers.
-/

namespace AesdChar

open CInt

/-! ## The calls of the loop on the log -/

namespace CommandLog

theorem lookup_eq_locate (sizes : List Nat) {p : Nat} (hp : p < 2 ^ 31) :
    lookup sizes (p : Int) = Segments.locate sizes p := by
  induction sizes generalizing p with
  | nil => rfl
  | cons size sizes ih =>
      rw [lookup, Segments.locate, sizeT_natCast p (by omega)]
      by_cases hlt : p < size
      · rw [if_pos hlt, if_pos hlt]
      · have hsub : int32 ((p : Int) - size) = ((p - size : Nat) : Int) := by
          rw [show (p : Int) - size = ((p - size : Nat) : Int) by omega]
          exact int32_natCast _ (by omega)
        rw [if_neg hlt, if_neg hlt, hsub, ih (by omega)]

theorem contents_length_le {log : CommandLog} (hsmall : log.Small)
    (hten : log.commands.length ≤ 10) : log.contents.length ≤ 10 * MAX_BUF_SIZE := by
  have hsum := Pieces.length_flatten_le hsmall
  rw [contents]
  unfold MAX_BUF_SIZE at hsum ⊢
  omega

/-- What a read copies out is what follows its position. -/
def Copies (log : CommandLog) (fPos : Int) (r : Answer) : Prop :=
  ∀ p : Nat, fPos = p → p < 2 ^ 31 →
    r.fPos = ((p + r.data.length : Nat) : Int) ∧ r.data <+: log.contents.drop p

/-- A read whose copy goes through: interrupted, in a command, or behind the last one. -/
theorem read_cases {log : CommandLog} (hsmall : log.Small) {env : ReadEnv}
    (hcopied : env.notCopied = 0) (fPos : Int) :
    log.read env fPos = ⟨-ERESTARTSYS, [], fPos⟩ ∨
    ((log.read env fPos).ret = (log.read env fPos).data.length ∧ (log.read env fPos).data ≠ [] ∧
      (log.read env fPos).data.length ≤ MAX_BUF_SIZE ∧ log.Copies fPos (log.read env fPos)) ∨
    (log.read env fPos = ⟨0, [], fPos⟩ ∧
      ∀ p : Nat, fPos = p → p < 2 ^ 31 → log.contents.length ≤ p) := by
  cases hint : env.interrupted with
  | true =>
      apply Or.inl
      rw [read, if_pos hint]
  | false =>
      apply Or.inr
      have hnot : ¬ env.interrupted = true := by rw [hint]; decide
      cases hl : lookup log.sizes (int32 fPos) with
      | none =>
          apply Or.inr
          constructor
          · rw [read, if_neg hnot, hl]
          · intro p hp hlt
            rw [hp, int32_natCast p hlt, lookup_eq_locate _ hlt, Segments.locate_none_iff] at hl
            rwa [contents, List.length_flatten]
      | some r =>
          obtain ⟨k, o⟩ := r
          apply Or.inl
          rw [read_of_lookup hint hl, if_pos hcopied]
          obtain ⟨hk, ho⟩ := lookup_bounds hl
          rw [sizes, List.length_map] at hk
          rw [sizes, List.getD_eq_getElem _ _ (by rwa [List.length_map]), List.getElem_map] at ho
          have hget : log.commands.getD k [] = log.commands[k] := List.getD_eq_getElem _ _ hk
          have hle := hsmall _ (List.getElem_mem hk)
          rw [hget]
          refine ⟨rfl, ?_, ?_, ?_⟩
          · apply List.ne_nil_of_length_pos
            rw [List.length_drop]
            omega
          · show (log.commands[k].drop o).length ≤ _
            rw [List.length_drop]
            omega
          · intro p hp hlt
            rw [hp, int32_natCast p hlt, lookup_eq_locate _ hlt] at hl
            constructor
            · show int64 (fPos + (log.commands[k].drop o).length) = _
              unfold MAX_BUF_SIZE at hle
              rw [hp, ← Int.natCast_add, int64_natCast]
              rw [List.length_drop]
              omega
            · show log.commands[k].drop o <+: _
              rw [contents, Segments.drop_flatten log.commands hl, hget]
              exact List.prefix_append _ _

/-- Where a seek command leaves the position, if it is accepted. -/
def seekPos (log : CommandLog) (seekto : AesdSeekto) : Option Nat :=
  if log.commands.length = 0 then some 0
  else if seekto.writeCmd < log.commands.length ∧
      seekto.writeCmdOffset ≤ log.sizes.getD seekto.writeCmd 0 then
    some ((log.sizes.take seekto.writeCmd).sum + seekto.writeCmdOffset)
  else none

theorem seekPos_le {log : CommandLog} {seekto : AesdSeekto} {p : Nat}
    (h : log.seekPos seekto = some p) : p ≤ log.contents.length := by
  unfold seekPos at h
  split at h
  · rw [← Option.some.inj h]
    exact Nat.zero_le _
  · split at h
    · rename_i hin
      have hnext := Segments.sum_take_succ_getD log.sizes seekto.writeCmd
      have hle := Segments.sum_take_le log.sizes (seekto.writeCmd + 1)
      rw [← Option.some.inj h, contents, List.length_flatten]
      change _ ≤ log.sizes.sum
      omega
    · exact absurd h (by simp)

theorem adjust_cases {log : CommandLog} (hsmall : log.Small) (hten : log.commands.length ≤ 10)
    (fPos : Int) (seekto : AesdSeekto) :
    (∃ p : Nat, log.seekPos seekto = some p ∧ log.adjust fPos seekto = ⟨0, [], p⟩) ∨
      (log.seekPos seekto = none ∧ log.adjust fPos seekto = ⟨-EINVAL, [], fPos⟩) := by
  cases hpos : log.seekPos seekto with
  | none =>
      refine Or.inr ⟨rfl, ?_⟩
      unfold seekPos at hpos
      unfold adjust
      split at hpos
      · exact absurd hpos (by simp)
      · rename_i hne
        split at hpos
        · exact absurd hpos (by simp)
        · rename_i hout
          rw [if_neg hne, if_neg hout]
  | some p =>
      have hle := seekPos_le hpos
      have hmax := contents_length_le hsmall hten
      refine Or.inl ⟨p, rfl, ?_⟩
      unfold seekPos at hpos
      unfold adjust
      split at hpos
      · rename_i hnil
        rw [if_pos hnil, ← Option.some.inj hpos]
        rfl
      · rename_i hne
        split at hpos
        · rename_i hin
          rw [if_neg hne, if_pos hin, ← Int.natCast_add, Option.some.inj hpos, int64_natCast]
          unfold MAX_BUF_SIZE at hmax
          omega
        · exact absurd hpos (by simp)

end CommandLog

/-! ## Replies and the history -/

variable {ι : Type} [DecidableEq ι]

def heldAfter (history : List (ι × List UInt8)) : CommandLog := .ofPackets (history.map Prod.snd)

/-- No command was evicted since the history had `m` packets. -/
def Undisturbed (m : Nat) (history : List (ι × List UInt8)) : Prop :=
  history.length ≤ 10 ∨ history.length = m

/-- Where the loop begins to read. -/
def Serving.Starts (log : CommandLog) : Serving → Nat → Prop
  | .packet, p => p = 0
  | .seek seekto, p => log.seekPos seekto = some p

/-- From when the loop was begun to when it came to its end nothing of its own connection came, and
what was sent is what the device held at the end, if nothing was evicted in between. -/
def FullReply.Explained (history : List (ι × List UInt8)) (i : ι) (r : FullReply) : Prop :=
  r.rewound = true →
    r.began ≤ r.ended ∧ r.ended ≤ history.length ∧
      packetsOf i (history.take r.began) = r.written ∧
      packetsOf i (history.take r.ended) = r.written ∧
      ∃ p, r.serving.Starts (heldAfter (history.take r.began)) p ∧
        (Undisturbed r.began (history.take r.ended) →
          r.sent = (heldAfter (history.take r.ended)).contents.drop p)

/-- The bytes sent lie in front of the position. -/
def SentFrom (log : CommandLog) (p : Nat) (sent : List UInt8) (fPos : Int) : Prop :=
  fPos = ((p + sent.length : Nat) : Int) ∧ sent <+: log.contents.drop p

/-- The loop reads from `p` on, since the history had `m` packets. -/
structure Begun (history : List (ι × List UInt8)) (i : ι) (written : List (List UInt8))
    (serving : Serving) (m p : Nat) : Prop where
  le : m ≤ history.length
  own : packetsOf i (history.take m) = written
  starts : serving.Starts (heldAfter (history.take m)) p
  near : p ≤ 10 * MAX_BUF_SIZE

/-- What a read of the loop answered: it failed, or there are bytes to be sent, or the loop is at
its end, with `n` packets in the history. -/
def Fetched (history : List (ι × List UInt8)) (i : ι) (written : List (List UInt8))
    (sent : List UInt8) (m n p : Nat) (fPos ret : Int) (data : List UInt8) : Prop :=
  (ret = -1 ∧ data = [] ∧
    (Undisturbed m history → SentFrom (heldAfter history) p sent fPos)) ∨
  (ret = data.length ∧ data ≠ [] ∧ data.length ≤ MAX_BUF_SIZE ∧
    (Undisturbed m history → SentFrom (heldAfter history) p (sent ++ data) fPos)) ∨
  (ret = 0 ∧ m ≤ n ∧ n ≤ history.length ∧ packetsOf i (history.take n) = written ∧
    (Undisturbed m (history.take n) → sent = (heldAfter (history.take n)).contents.drop p))

/-- A thread between the packet or command it was handed and the end of the reply. -/
def Midway (history : List (ι × List UInt8)) (i : ι) (t : ChatThread) (u : AtomicThread) : Prop :=
  match t.pc, u.pc with
  | .write _, _ => t.reply.sent = []
  | .lseek _, .done ret _ =>
      t.reply.sent = [] ∧
        (sysRet ret = 0 → Begun history i t.written .packet t.began 0 ∧ u.fPos = 0)
  | .lseek _, _ => t.reply.sent = []
  | .ioctl _ seekto, .done ret _ =>
      t.reply.sent = [] ∧
        (int32 (sysRet ret) = 0 →
          ∃ p, Begun history i t.written (.seek seekto) t.began p ∧ u.fPos = (p : Int))
  | .ioctl _ _, _ => t.reply.sent = []
  | .read _ serving, .done ret data =>
      t.rewound = true → ∃ p, Begun history i t.written serving t.began p ∧
        Fetched history i t.written t.reply.sent t.began t.ended p u.fPos (sysRet ret) data
  | .read _ serving, _ =>
      t.rewound = true → ∃ p, Begun history i t.written serving t.began p ∧
        (Undisturbed t.began history → SentFrom (heldAfter history) p t.reply.sent u.fPos)
  | .send _ serving ret data, _ =>
      t.rewound = true → ∃ p, Begun history i t.written serving t.began p ∧
        Fetched history i t.written t.reply.sent t.began t.ended p u.fPos ret data
  | _, _ => True

structure Replying (history : List (ι × List UInt8)) (i : ι) (t : ChatThread) (u : AtomicThread) :
    Prop where
  replies : ∀ r ∈ t.replies, r.Explained history i
  midway : Midway history i t u

/-! ### The history grows -/

section

variable {history : List (ι × List UInt8)} {i j : ι} {packet : List UInt8} {t : ChatThread}
  {serving : Serving} {m p : Nat}

omit [DecidableEq ι] in
theorem heldAfter_concat (h : history.length < 10) (x : ι × List UInt8) :
    (heldAfter (history ++ [x])).contents = (heldAfter history).contents ++ x.2 := by
  have hle : (history.map Prod.snd ++ [x.2]).length ≤ 10 := by
    rw [List.length_append, List.length_map, List.length_singleton]
    omega
  have hle' : (history.map Prod.snd).length ≤ 10 := by
    rw [List.length_map]
    omega
  simp only [heldAfter, CommandLog.ofPackets, CommandLog.contents, List.map_append,
    List.map_singleton, Circular.rtake_of_length_le hle, Circular.rtake_of_length_le hle',
    List.flatten_concat]

omit [DecidableEq ι] in
/-- An undisturbed loop was so before the last packet, and that packet lies behind the rest. -/
theorem Undisturbed.before {x : ι × List UInt8} (hm : m ≤ history.length)
    (h : Undisturbed m (history ++ [x])) :
    Undisturbed m history ∧
      (heldAfter (history ++ [x])).contents = (heldAfter history).contents ++ x.2 := by
  unfold Undisturbed at h
  rw [List.length_append, List.length_singleton] at h
  have hlt : history.length < 10 := by omega
  exact ⟨Or.inl hlt.le, heldAfter_concat hlt x⟩

omit [DecidableEq ι] in
theorem SentFrom.concat {x : ι × List UInt8} {sent : List UInt8} {fPos : Int}
    (hm : m ≤ history.length)
    (h : Undisturbed m history → SentFrom (heldAfter history) p sent fPos)
    (hun : Undisturbed m (history ++ [x])) :
    SentFrom (heldAfter (history ++ [x])) p sent fPos := by
  obtain ⟨hbefore, hcontents⟩ := hun.before hm
  obtain ⟨hpos, hpre⟩ := h hbefore
  refine ⟨hpos, ?_⟩
  rw [hcontents, List.drop_append]
  exact hpre.trans (List.prefix_append _ _)

theorem FullReply.Explained.concat {r : FullReply} (h : r.Explained history i)
    (x : ι × List UInt8) : r.Explained (history ++ [x]) i := by
  intro hr
  obtain ⟨hle, hn, hown⟩ := h hr
  refine ⟨hle, ?_, ?_⟩
  · rw [List.length_append]
    omega
  · rw [List.take_append_of_le_length hn, List.take_append_of_le_length (hle.trans hn)]
    exact hown

theorem Begun.concat {written : List (List UInt8)} (h : Begun history i written serving m p)
    (x : ι × List UInt8) : Begun (history ++ [x]) i written serving m p where
  le := by
    rw [List.length_append]
    exact h.le.trans (Nat.le_add_right _ _)
  own := by
    rw [List.take_append_of_le_length h.le]
    exact h.own
  starts := by
    rw [List.take_append_of_le_length h.le]
    exact h.starts
  near := h.near

theorem Fetched.concat {written : List (List UInt8)} {sent data : List UInt8} {n : Nat}
    {fPos ret : Int} (hm : m ≤ history.length)
    (h : Fetched history i written sent m n p fPos ret data) (x : ι × List UInt8) :
    Fetched (history ++ [x]) i written sent m n p fPos ret data := by
  rcases h with ⟨hret, hdata, hsent⟩ | ⟨hret, hne, hle, hsent⟩ | ⟨hret, hmn, hn, hown⟩
  · exact Or.inl ⟨hret, hdata, SentFrom.concat hm hsent⟩
  · exact Or.inr (Or.inl ⟨hret, hne, hle, SentFrom.concat hm hsent⟩)
  · refine Or.inr (Or.inr ⟨hret, hmn, ?_, ?_⟩)
    · rw [List.length_append]
      omega
    · rw [List.take_append_of_le_length hn]
      exact hown

theorem Midway.concat {u : AtomicThread} (h : Midway history i t u) (x : ι × List UInt8) :
    Midway (history ++ [x]) i t u := by
  unfold Midway at h ⊢
  split at h
  · exact h
  · exact ⟨h.1, fun hret => ⟨(h.2 hret).1.concat x, (h.2 hret).2⟩⟩
  · exact h
  · refine ⟨h.1, fun hret => ?_⟩
    obtain ⟨p, hbegun, hpos⟩ := h.2 hret
    exact ⟨p, hbegun.concat x, hpos⟩
  · exact h
  · intro hr
    obtain ⟨p, hbegun, hfetched⟩ := h hr
    exact ⟨p, hbegun.concat x, hfetched.concat hbegun.le x⟩
  · intro hr
    obtain ⟨p, hbegun, hsent⟩ := h hr
    exact ⟨p, hbegun.concat x, SentFrom.concat hbegun.le hsent⟩
  · intro hr
    obtain ⟨p, hbegun, hfetched⟩ := h hr
    exact ⟨p, hbegun.concat x, hfetched.concat hbegun.le x⟩
  · trivial

theorem Replying.concat {u : AtomicThread} (h : Replying history i t u) (x : ι × List UInt8) :
    Replying (history ++ [x]) i t u :=
  ⟨fun r hr => (h.replies r hr).concat x, h.midway.concat x⟩

/-! ### The loop sends what it read -/

theorem sendRet_neg (room : Option Nat) : sendRet room (-1) = -1 := by
  unfold sendRet
  split <;> rfl

theorem Replying.send {u : AtomicThread} (h : Replying history i t u) (hidle : u.pc = .idle)
    {n : Nat} {ret : Int} {data : List UInt8} (hpc : t.pc = .send n serving ret data)
    (env : ChatStep) : Replying history i (t.own env) u := by
  have hmid := h.midway
  simp only [Midway, hpc] at hmid
  simp only [ChatThread.own, hpc]
  by_cases hr : t.rewound = true
  · obtain ⟨p, hbegun, hfetched⟩ := hmid hr
    rcases hfetched with ⟨rfl, rfl, hsent⟩ | ⟨rfl, hne, hle, hsent⟩ | ⟨rfl, hle, hn, hown, hsent⟩
    · -- nothing is sent for a failed read, and the loop goes on
      rw [@replyRound_next _ 0 serving.failed (-1) (-1) rfl (by decide) [] _ (sendRet_neg _)]
      dsimp only
      refine ⟨h.replies, ?_⟩
      simp only [Midway, hidle]
      intro _
      refine ⟨p, hbegun, fun hun => ?_⟩
      rw [show (-1 : Int).toNat = 0 from rfl, List.take_zero, List.append_nil]
      exact hsent hun
    · -- what was read goes out and is sent, or the loop is left for good
      have hlen : int32 (data.length : Int) = data.length := by
        unfold MAX_BUF_SIZE at hle
        exact int32_natCast _ (by omega)
      have hpos : (data.length : Int) ≠ 0 := by
        have := List.length_pos_of_ne_nil hne
        omega
      by_cases hall : sendRet env.room data.length = data.length
      · rw [@replyRound_next _ 0 serving.failed _ _ hlen hpos data _ hall]
        dsimp only
        refine ⟨h.replies, ?_⟩
        simp only [Midway, hidle]
        intro _
        refine ⟨p, hbegun, fun hun => ?_⟩
        rw [Int.toNat_natCast, List.take_left]
        exact hsent hun
      · rw [@replyRound_short _ 0 serving.failed _ _ hlen hpos data _ hall]
        simp only [hlen, if_neg hpos]
        refine ⟨h.replies, ?_⟩
        unfold Serving.failed
        cases serving <;> trivial
    · -- the end of the loop, where the reply is put down
      rw [@replyRound_zero _ 0 serving.failed 0 rfl]
      simp only [show int32 0 = 0 from rfl, if_true, ne_eq, not_true_eq_false, if_false]
      constructor
      · intro r hmem
        rcases List.mem_append.mp hmem with hold | hnew
        · exact h.replies r hold
        · rw [List.mem_singleton.mp hnew]
          intro _
          exact ⟨hle, hn, hbegun.own, hown, p, hbegun.starts, hsent⟩
      · trivial
  · -- the position was not rewound: the reply is not followed
    have hvacuous : ∀ reply : FullReply, reply.rewound = t.rewound → reply.Explained history i :=
      fun reply heq hr' => absurd (heq ▸ hr') hr
    split
    · refine ⟨h.replies, ?_⟩
      simp only [Midway, hidle]
      exact fun hr' => absurd hr' hr
    · constructor
      · intro r hmem
        dsimp only at hmem
        split at hmem
        · rcases List.mem_append.mp hmem with hold | hnew
          · exact h.replies r hold
          · rw [List.mem_singleton.mp hnew]
            exact hvacuous _ rfl
        · exact h.replies r hmem
      · rename_i res reply _
        by_cases hres : res = 0
        · simp [Midway, hres]
        · simp [Midway, hres]
    · exact h

/-- A step that is not a call on the device. -/
theorem Replying.own {u : AtomicThread} (h : Replying history i t u)
    (hidle : t.pc.onDevice = false → u.pc = .idle) (env : ChatStep) :
    Replying history i (t.own env) u := by
  cases hpc : t.pc with
  | receive =>
      simp only [ChatThread.own, hpc]
      split
      · exact ⟨h.replies, trivial⟩
      · exact ⟨h.replies, trivial⟩
  | scan n =>
      cases n with
      | zero =>
          simp only [ChatThread.own, hpc]
          split
          · exact h
          · exact ⟨h.replies, trivial⟩
      | succ n =>
          simp only [ChatThread.own, hpc]
          split
          · split
            · exact ⟨h.replies, trivial⟩
            · exact ⟨h.replies, rfl⟩
          · exact ⟨h.replies, trivial⟩
  | send n serving ret data => exact h.send (hidle (by rw [hpc]; rfl)) hpc env
  | _ => simpa only [ChatThread.own, hpc] using h

/-- A call of `strtok`. -/
theorem Replying.token {u : AtomicThread} (h : Replying history i t u)
    (hpc : t.pc.tokenizes = true) (hidle : u.pc = .idle) (env : ChatStep) (pos : Nat) :
    Replying history i (t.token env pos) u := by
  unfold ChatThread.token
  generalize t.strtok env pos = r
  cases hc : t.pc with
  | arg1 n =>
      simp only [ChatThread.took, ChatThread.cut, hc]
      exact ⟨h.replies, trivial⟩
  | arg2 n arg1 =>
      simp only [ChatThread.took, ChatThread.cut, hc]
      exact ⟨h.replies, trivial⟩
  | arg3 n arg1 arg2 =>
      simp only [ChatThread.took, ChatThread.cut, hc]
      split
      · refine ⟨h.replies, ?_⟩
        simp only [Midway, hidle]
      · exact ⟨h.replies, trivial⟩
  | _ => simp [hc, ChatPc.tokenizes] at hpc

/-! ### The calls -/

theorem Replying.called {fPos : Int} (h : Replying history i t ⟨.idle, fPos⟩) (op : FileOp) :
    Replying history i t ⟨.called op, fPos⟩ := by
  refine ⟨h.replies, ?_⟩
  have hmid := h.midway
  unfold Midway at hmid ⊢
  cases hpc : t.pc <;> simp only [hpc] at hmid ⊢ <;> exact hmid

omit [DecidableEq ι] in
theorem heldAfter_small (h : ∀ p ∈ history, IsPacket p.2) : (heldAfter history).Small := by
  apply CommandLog.ofPackets_small
  intro packet hmem
  obtain ⟨p, hp, rfl⟩ := List.mem_map.mp hmem
  exact h p hp

omit [DecidableEq ι] in
theorem heldAfter_ten (history : List (ι × List UInt8)) :
    (heldAfter history).commands.length ≤ 10 := by
  show (List.rtake _ 10).length ≤ 10
  rw [Circular.length_rtake]
  exact Nat.min_le_left _ _

/-- What the thread asks for has no effect. -/
theorem Replying.refused {fixedSizeLlseek : LlseekFn} {fPos : Int} {op : FileOp}
    (h : Replying history i t ⟨.called op, fPos⟩) (hasks : t.asks op = true)
    (hlocks : op.locks = false) (log : CommandLog) :
    let r := (log.perform fixedSizeLlseek fPos op).2
    Replying history i t ⟨.done r.ret r.data, r.fPos⟩ := by
  refine ⟨h.replies, ?_⟩
  have hmid := h.midway
  cases op with
  | write buf env =>
      obtain ⟨n, hpc, -⟩ := ChatThread.asks_write hasks
      simp only [Midway, hpc] at hmid ⊢
      exact hmid
  | read count env =>
      obtain ⟨n, serving, hpc, -⟩ := ChatThread.asks_read hasks
      have hint : env.interrupted = true := by simpa [FileOp.locks] using hlocks
      simp only [Midway, hpc, CommandLog.perform, CommandLog.read, if_pos hint] at hmid ⊢
      intro hr
      obtain ⟨p, hbegun, hsent⟩ := hmid hr
      exact ⟨p, hbegun, Or.inl ⟨(show sysRet (-ERESTARTSYS) = -1 by decide), rfl, hsent⟩⟩
  | llseek interrupted offset whence =>
      obtain ⟨n, hpc, rfl, rfl⟩ := ChatThread.asks_llseek hasks
      have hint : interrupted = true := by simpa [FileOp.locks] using hlocks
      simp only [Midway, hpc, CommandLog.perform, CommandLog.llseek, if_pos hint] at hmid ⊢
      exact ⟨hmid, fun hret => absurd hret (show ¬ sysRet (-ERESTARTSYS) = 0 by decide)⟩
  | ioctl interrupted cmd arg =>
      obtain ⟨n, seekto, hpc, rfl, rfl⟩ := ChatThread.asks_ioctl hasks
      have hint : interrupted = true := by simpa [FileOp.locks] using hlocks
      simp only [Midway, hpc, CommandLog.perform, CommandLog.ioctl, if_pos hint] at hmid ⊢
      exact ⟨hmid, fun hret => absurd hret (show ¬ int32 (sysRet (-ERESTARTSYS)) = 0 by decide)⟩

section

variable {fPos : Int} (hpackets : ∀ p ∈ history, IsPacket p.2)
  (hown : packetsOf i history = t.written)

include hown in
theorem Replying.effect_llseek {fixedSizeLlseek : LlseekFn} (hl : FixedSizeLlseek fixedSizeLlseek)
    {interrupted : Bool} {offset whence : Int}
    (h : Replying history i t ⟨.called (.llseek interrupted offset whence), fPos⟩)
    (hasks : t.asks (.llseek interrupted offset whence) = true)
    (hlocks : FileOp.locks (.llseek interrupted offset whence) = true) (log : CommandLog) :
    let r := log.llseek fixedSizeLlseek interrupted fPos offset whence
    Replying history i (t.mark history.length) ⟨.done r.ret r.data, r.fPos⟩ := by
  obtain ⟨n, hpc, rfl, rfl⟩ := ChatThread.asks_llseek hasks
  have hint : interrupted = false := by
    rw [FileOp.locks, Bool.and_eq_true, Bool.not_eq_true'] at hlocks
    exact hlocks.1
  have hmid := h.midway
  simp only [Midway, hpc] at hmid
  simp only [ChatThread.mark, hpc]
  refine ⟨h.replies, ?_⟩
  simp only [Midway]
  refine ⟨hmid, fun _ => ⟨⟨le_rfl, ?_, rfl, Nat.zero_le _⟩, ?_⟩⟩
  · rw [List.take_length]
    exact hown
  · rw [CommandLog.llseek, if_pos (Or.inl rfl), hint, if_neg Bool.false_ne_true]
    exact congrArg Prod.snd (hl.set _ 0 _ le_rfl (Int.natCast_nonneg _))

include hpackets hown

theorem Replying.effect_ioctl {interrupted : Bool} {cmd : Nat} {arg : Option AesdSeekto}
    (h : Replying history i t ⟨.called (.ioctl interrupted cmd arg), fPos⟩)
    (hasks : t.asks (.ioctl interrupted cmd arg) = true)
    (hlocks : FileOp.locks (.ioctl interrupted cmd arg) = true) :
    let r := (heldAfter history).ioctl interrupted fPos cmd arg
    Replying history i (t.mark history.length) ⟨.done r.ret r.data, r.fPos⟩ := by
  obtain ⟨n, seekto, hpc, rfl, rfl⟩ := ChatThread.asks_ioctl hasks
  have hint : interrupted = false := by
    rw [FileOp.locks, Bool.and_eq_true, Bool.and_eq_true, Bool.not_eq_true'] at hlocks
    exact hlocks.1.1
  have hmid := h.midway
  simp only [Midway, hpc] at hmid
  simp only [ChatThread.mark, hpc]
  refine ⟨h.replies, ?_⟩
  simp only [Midway, CommandLog.ioctl, if_true, hint, Bool.false_eq_true, if_false]
  refine ⟨hmid, ?_⟩
  have hsmall := heldAfter_small hpackets
  rcases CommandLog.adjust_cases hsmall (heldAfter_ten history) fPos seekto with
    ⟨p, hpos, hadjust⟩ | ⟨_, hadjust⟩
  · rw [hadjust]
    intro _
    have hle := CommandLog.seekPos_le hpos
    have hmax := CommandLog.contents_length_le hsmall (heldAfter_ten history)
    refine ⟨p, ⟨le_rfl, ?_, ?_, hle.trans hmax⟩, rfl⟩
    · rw [List.take_length]
      exact hown
    · rw [List.take_length]
      exact hpos
  · -- a refused seek begins no loop
    rw [hadjust]
    intro hret
    exact absurd hret (show ¬ int32 (sysRet (-EINVAL)) = 0 by decide)

theorem Replying.effect_read {count : Nat} {env : ReadEnv}
    (h : Replying history i t ⟨.called (.read count env), fPos⟩)
    (hasks : t.asks (.read count env) = true) :
    let r := (heldAfter history).read env fPos
    Replying history i (t.mark history.length) ⟨.done r.ret r.data, r.fPos⟩ := by
  obtain ⟨n, serving, hpc, -, hcopied⟩ := ChatThread.asks_read hasks
  have hmid := h.midway
  simp only [Midway, hpc] at hmid
  simp only [ChatThread.mark, hpc]
  refine ⟨h.replies, ?_⟩
  simp only [Midway]
  intro hr
  obtain ⟨p, hbegun, hsent⟩ := hmid hr
  have hsmall := heldAfter_small hpackets
  have hmax := CommandLog.contents_length_le hsmall (heldAfter_ten history)
  have hnear := hbegun.near
  -- the position of an undisturbed loop is one that an `int` holds
  have hfar : SentFrom (heldAfter history) p t.reply.sent fPos →
      p + t.reply.sent.length < 2 ^ 31 := by
    intro hs
    have hle := hs.2.length_le
    rw [List.length_drop] at hle
    unfold MAX_BUF_SIZE at hmax hnear
    omega
  refine ⟨p, hbegun, ?_⟩
  rcases CommandLog.read_cases hsmall hcopied fPos with
    hread | ⟨hret, hne, hle, hcopies⟩ | ⟨hread, hend⟩
  · rw [hread]
    exact Or.inl ⟨(show sysRet (-ERESTARTSYS) = -1 by decide), rfl, hsent⟩
  · -- in a command: its rest comes behind what was sent
    apply Or.inr
    apply Or.inl
    rw [hret]
    refine ⟨?_, hne, hle, fun hun => ?_⟩
    · rw [sysRet, if_neg (by omega)]
    · obtain ⟨hpos, hpre⟩ := hsent hun
      obtain ⟨hfPos, hdata⟩ := hcopies _ hpos (hfar ⟨hpos, hpre⟩)
      refine ⟨?_, ?_⟩
      · rw [hfPos, List.length_append, Nat.add_assoc]
      · obtain ⟨rest, hrest⟩ := hpre
        rw [← List.drop_drop, ← hrest, List.drop_left] at hdata
        rw [← hrest]
        exact (List.prefix_append_right_inj _).mpr hdata
  · -- behind the last command: all of it was sent by now
    rw [hread]
    apply Or.inr
    apply Or.inr
    refine ⟨rfl, hbegun.le, le_rfl, ?_, ?_⟩
    · rw [List.take_length]
      exact hown
    rw [List.take_length]
    intro hun
    obtain ⟨hpos, hpre⟩ := hsent hun
    have hlast := hend _ hpos (hfar ⟨hpos, hpre⟩)
    apply hpre.eq_of_length_le
    rw [List.length_drop]
    omega

end

theorem Replying.returned {fPos ret : Int} {data : List UInt8}
    (h : Replying history i t ⟨.done ret data, fPos⟩) :
    Replying history i (t.answer ret data) ⟨.idle, fPos⟩ := by
  have hmid := h.midway
  cases hpc : t.pc with
  | write n =>
      simp only [Midway, hpc] at hmid
      simp only [ChatThread.answer, hpc]
      exact ⟨h.replies, hmid⟩
  | lseek n =>
      simp only [Midway, hpc] at hmid
      simp only [ChatThread.answer, hpc]
      refine ⟨h.replies, ?_⟩
      simp only [Midway]
      intro hr
      obtain ⟨hbegun, hzero⟩ := hmid.2 (of_decide_eq_true hr)
      refine ⟨0, hbegun, fun _ => ?_⟩
      rw [hmid.1]
      exact ⟨hzero, List.nil_prefix⟩
  | ioctl n seekto =>
      simp only [Midway, hpc] at hmid
      simp only [ChatThread.answer, hpc]
      split
      · exact ⟨h.replies, trivial⟩
      · rename_i hret
        obtain ⟨p, hbegun, hpos⟩ := hmid.2 (not_not.mp hret)
        refine ⟨h.replies, ?_⟩
        simp only [Midway]
        intro _
        refine ⟨p, hbegun, fun _ => ?_⟩
        rw [hmid.1]
        exact ⟨hpos, List.nil_prefix⟩
  | read n serving =>
      simp only [Midway, hpc] at hmid
      simp only [ChatThread.answer, hpc]
      exact ⟨h.replies, hmid⟩
  | send n serving ret data =>
      simp only [Midway, hpc] at hmid
      simp only [ChatThread.answer, hpc]
      refine ⟨h.replies, ?_⟩
      simpa only [Midway, hpc] using hmid
  | _ =>
      simp only [ChatThread.answer, hpc]
      refine ⟨h.replies, ?_⟩
      simp only [Midway, hpc]

end

/-! ## All threads -/

/-- What was taken explains what the threads wrote, and what they were sent. -/
structure Replied (c : Chats ι) (a : AtomicLog ι) : Prop where
  recorded : Recorded c a
  replying : ∀ i, Replying c.stored i (c.thread i) (a.threads i)

namespace Replied

variable {c : Chats ι} {a : AtomicLog ι}

theorem start (pkt : ι → List UInt8) (fPos : ι → Int) :
    Replied (Chats.start pkt) (AtomicLog.start fPos) where
  recorded := .start pkt fPos
  replying := fun _ => ⟨fun _ hr => absurd hr List.not_mem_nil, trivial⟩

theorem own_packets (h : Replied c a) {i : ι} (hpc : ∀ n, (c.thread i).pc ≠ .write n) :
    packetsOf i c.stored = (c.thread i).written := by
  rw [(h.recorded.threads i).mine, underWay_of_not_write hpc, List.append_nil]

theorem own (h : Replied c a) {i : ι} {env : ChatStep} (hharmless : c.Harmless i env) :
    Replied (c.own i env) a where
  recorded := h.recorded.own hharmless
  replying := by
    obtain ⟨t, strtok, heq, -, hcases⟩ := hharmless.own_moves
    have hself : Replying c.stored i t (a.threads i) := by
      rcases hcases with ⟨-, rfl⟩ | ⟨htok, pos, rfl⟩
      · exact (h.replying i).own h.recorded.idle_of_own env
      · have hidle := h.recorded.idle_of_own (ChatPc.onDevice_of_tokenizes htok)
        exact (h.replying i).token htok hidle env pos
    have hall := forall_moved (P := Replying c.stored) i hself fun j _ => h.replying j
    rw [Function.update_eq_self] at hall
    rw [heq]
    exact hall

theorem called (h : Replied c a) {i : ι} {fPos : Int} {op : FileOp}
    (hu : a.threads i = ⟨.idle, fPos⟩) (hasks : (c.thread i).asks op = true) :
    Replied c ⟨a.log, Function.update a.threads i ⟨.called op, fPos⟩⟩ where
  recorded := h.recorded.called hu hasks
  replying := by
    have hold := h.replying i
    rw [hu] at hold
    have hall := forall_moved (P := Replying c.stored) i (hold.called op) fun j _ => h.replying j
    rwa [Function.update_eq_self] at hall

theorem returned (h : Replied c a) {i : ι} {fPos ret : Int} {data : List UInt8}
    (hu : a.threads i = ⟨.done ret data, fPos⟩) :
    Replied ⟨Function.update c.thread i ((c.thread i).answer ret data), c.strtok, c.stored⟩
      ⟨a.log, Function.update a.threads i ⟨.idle, fPos⟩⟩ where
  recorded := h.recorded.returned hu
  replying := by
    have hold := h.replying i
    rw [hu] at hold
    exact forall_moved (P := Replying c.stored) i hold.returned fun j _ => h.replying j

theorem refused (h : Replied c a) (fixedSizeLlseek : LlseekFn) {i : ι} {op : FileOp} {fPos : Int}
    (hu : a.threads i = ⟨.called op, fPos⟩) (hlocks : op.locks = false) :
    let r := a.log.perform fixedSizeLlseek fPos op
    Replied c ⟨r.1, Function.update a.threads i ⟨.done r.2.ret r.2.data, r.2.fPos⟩⟩ where
  recorded := h.recorded.refused fixedSizeLlseek hu hlocks
  replying := by
    have hold := h.replying i
    have hasks := (h.recorded.threads i).inCall
    rw [hu] at hold hasks
    have hself := @Replying.refused _ _ _ _ _ fixedSizeLlseek _ _ hold hasks hlocks a.log
    have hall := forall_moved (P := Replying c.stored) i hself fun j _ => h.replying j
    rwa [Function.update_eq_self] at hall

/-- The call of the thread itself, as it has its effect. -/
theorem effect_self (h : Replied c a) {fixedSizeLlseek : LlseekFn}
    (hl : FixedSizeLlseek fixedSizeLlseek) {i : ι} {op : FileOp} {fPos : Int}
    (hu : a.threads i = ⟨.called op, fPos⟩) (hlocks : op.locks = true) :
    let r := (a.log.perform fixedSizeLlseek fPos op).2
    Replying (c.stored ++ op.command.toList.map fun packet => (i, packet)) i
      ((c.thread i).mark c.stored.length) ⟨.done r.ret r.data, r.fPos⟩ := by
  have hold := h.replying i
  have hasks := (h.recorded.threads i).inCall
  have hlog : a.log = heldAfter c.stored := h.recorded.log
  have hpackets := h.recorded.packets
  rw [hu] at hold hasks
  cases op with
  | write buf env =>
      -- nothing of the reply has been sent yet
      obtain ⟨n, hpc, -, -, -, hcommand⟩ := h.recorded.command_write hu
      have hmid := hold.midway
      simp only [Midway, hpc] at hmid
      rw [hcommand]
      refine ⟨fun r hr => ?_, ?_⟩
      · simp only [ChatThread.mark, hpc] at hr
        exact (hold.replies r hr).concat _
      · simp only [Midway, ChatThread.mark, hpc]
        exact hmid
  | read count env =>
      obtain ⟨n, serving, hpc, -⟩ := ChatThread.asks_read hasks
      have hread := hold.effect_read hpackets (h.own_packets (by simp [hpc])) hasks
      rw [← hlog] at hread
      simp only [FileOp.command, Option.toList_none, List.map_nil, List.append_nil]
      exact hread
  | llseek interrupted offset whence =>
      obtain ⟨n, hpc, -⟩ := ChatThread.asks_llseek hasks
      have hseek := hold.effect_llseek (h.own_packets (by simp [hpc])) hl hasks hlocks a.log
      simp only [FileOp.command, Option.toList_none, List.map_nil, List.append_nil]
      exact hseek
  | ioctl interrupted cmd arg =>
      obtain ⟨n, seekto, hpc, -⟩ := ChatThread.asks_ioctl hasks
      have hioctl := hold.effect_ioctl hpackets (h.own_packets (by simp [hpc])) hasks hlocks
      rw [← hlog] at hioctl
      simp only [FileOp.command, Option.toList_none, List.map_nil, List.append_nil]
      exact hioctl

theorem effect (h : Replied c a) {fixedSizeLlseek : LlseekFn}
    (hl : FixedSizeLlseek fixedSizeLlseek) {i : ι} {op : FileOp} {fPos : Int}
    (hu : a.threads i = ⟨.called op, fPos⟩) (hlocks : op.locks = true) :
    let r := a.log.perform fixedSizeLlseek fPos op
    Replied ⟨Function.update c.thread i ((c.thread i).mark c.stored.length), c.strtok,
        c.stored ++ op.command.toList.map fun packet => (i, packet)⟩
      ⟨r.1, Function.update a.threads i ⟨.done r.2.ret r.2.data, r.2.fPos⟩⟩ where
  recorded := h.recorded.effect fixedSizeLlseek hu hlocks
  replying := by
    refine forall_moved (P := Replying (c.stored ++ op.command.toList.map fun packet =>
      (i, packet))) i (h.effect_self hl hu hlocks) fun j _ => ?_
    cases op.command with
    | none =>
        rw [Option.toList_none, List.map_nil, List.append_nil]
        exact h.replying j
    -- for the other threads the history has only grown
    | some packet => exact (h.replying j).concat _

theorem kept {fixedSizeLlseek : LlseekFn} (hl : FixedSizeLlseek fixedSizeLlseek) :
    (AtomicLog.eventMachine (ι := ι) fixedSizeLlseek).Kept chatUsers
      (fun c k => c.Harmless k.1 k.2) Replied where
  own := fun _ _ _ h hharmless => h.own hharmless
  step := by
    intro c a t c' h hheard
    show Replied c' (a.step fixedSizeLlseek t)
    rcases heard_cases hheard with ⟨fPos, hu, hasks, rfl, hstep⟩ | ⟨op, fPos, hu, hcases, hstep⟩ |
      ⟨ret, data, fPos, hu, rfl, hstep⟩
    · rw [hstep]
      exact h.called hu hasks
    · rw [hstep]
      rcases hcases with ⟨hlocks, rfl⟩ | ⟨hlocks, rfl⟩
      · exact h.refused fixedSizeLlseek hu hlocks
      · exact h.effect hl hu hlocks
    · rw [hstep]
      exact h.returned hu

end Replied

/-- In every such run, with any failures in it, the order in which the device took packets also
explains every reply that came to its end. -/
theorem replies_cut_from_history {fixedSizeLlseek : LlseekFn}
    (hl : FixedSizeLlseek fixedSizeLlseek) (pkt : ι → List UInt8)
    {steps : List ((ι × ChatStep) ⊕ KernelTurn ι)}
    (hrun : SharedDevice.HarmlessRun fixedSizeLlseek pkt steps) :
    let s := (SharedDevice.start pkt).run fixedSizeLlseek steps
    Explained s ∧ ∀ i, ∀ r ∈ (s.1.thread i).replies, r.Explained s.1.stored i := by
  obtain ⟨a, hstep, h⟩ := (events_simulate fixedSizeLlseek).users (Replied.kept hl)
    (fun _ _ _ t h hstep => h.recorded.concatenates hstep t)
    (InStep.start fixedSizeLlseek fun _ => 0) (Replied.start pkt fun _ => 0) hrun
  exact ⟨h.recorded.explained hstep, fun i => (h.replying i).replies⟩

theorem replies_cut_from_history_three_clients :
    let s := (SharedDevice.start fun _ => []).run boundedLlseek threeClients
    (s.1.thread 0).replies.map FullReply.sent = [[97, 10, 98, 10]] ∧
      (s.1.thread 2).replies.map FullReply.sent = [[98, 10]] ∧
      Explained s ∧ ∀ i, ∀ r ∈ (s.1.thread i).replies, r.Explained s.1.stored i :=
  ⟨by decide +kernel, by decide +kernel,
    replies_cut_from_history boundedLlseek_documented (fun _ => []) harmless_threeClients⟩

end AesdChar
