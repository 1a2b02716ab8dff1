import AesdChar.ReceiveBuffer
import AesdChar.ReplyLoop

/-!
# Loops that read until 0

The two reply loops and the receive loop, each over an endless supply of results.  All three test
`read` against 0 only: a reply loop goes on after a failed read, for `write` answers its length of
-1 with a -1; the receive loop scans a whole part of the buffer after every result but 0.
-/

namespace AesdChar

/-- What is documented of `write`. -/
structure WriteResults (conn : Nat → Int → Int) : Prop where
  atMost : ∀ k n, 0 ≤ n → conn k n ≤ n
  -- (size_t)-1 bytes
  negative : ∀ k, conn k (-1) = -1

/-! ## Replies -/

section

variable {ρ : Type}

/-- The loop ends at the first read that it does not send on in full, and has by then passed every
piece delivered to `write`, once and in order. -/
def RepliesDelivered
    (loop : (Nat → Option (List UInt8)) → (Nat → Int → Int) → Nat × Reply →
      Loop.Step (Nat × Reply) (ρ × Reply))
    (reads : Nat → Option (List UInt8)) (conn : Nat → Int → Int) : Prop :=
  ∀ pkt m, (∀ j < m, GoesOn (conn j) (reads j)) → ¬ GoesOn (conn m) (reads m) →
    Loop.run (loop reads conn) m (0, ⟨pkt, [], []⟩) = none ∧
    ∃ ret pkt', Loop.run (loop reads conn) (m + 1) (0, ⟨pkt, [], []⟩) =
      some (ret, ⟨pkt', (lengths reads (m + 1)).filter fun n => decide (0 < n),
        delivered reads m ++ ((reads m).getD []).take (conn m (readRet (reads m))).toNat⟩)

/-- No read that the loop comes to fails. -/
def NoFailedRead (reads : Nat → Option (List UInt8)) (conn : Nat → Int → Int) : Prop :=
  ∀ m, (∀ j < m, GoesOn (conn j) (reads j)) → reads m ≠ none

variable {ended failed : ρ} {reads : Nat → Option (List UInt8)} {conn : Nat → Int → Int}

theorem replyLoop_failed (hconn : WriteResults conn) {m : Nat} (hread : reads m = none)
    (reply : Reply) :
    replyLoop ended failed reads conn (m, reply) =
      .next (m + 1, ⟨reply.writeBackPkt, reply.asked ++ [-1], reply.sent⟩) := by
  have hround := @replyRound_next _ ended failed (-1) (-1) rfl (by decide) [] _ (hconn.negative m)
    reply
  rw [replyLoop, hread, Option.getD_none]
  show (replyRound ended failed (-1) [] (conn m) reply).map _ _ = _
  rw [hround]
  show Loop.Step.next (m + 1, Reply.mk reply.writeBackPkt _ (reply.sent ++ List.take 0 _)) = _
  rw [List.take_zero, List.append_nil]

theorem replyLoop_done (hfits : ∀ k, FitsBuffer (reads k)) (hconn : WriteResults conn) {m : Nat}
    (hread : reads m ≠ none) (hstop : ¬ GoesOn (conn m) (reads m)) (reply : Reply) :
    ∃ ret pkt, replyLoop ended failed reads conn (m, reply) =
      .done (ret, ⟨pkt, reply.asked ++ [readRet (reads m)].filter fun n => decide (0 < n),
        reply.sent ++ ((reads m).getD []).take (conn m (readRet (reads m))).toNat⟩) := by
  obtain ⟨bytes, hbytes⟩ := Option.ne_none_iff_exists'.mp hread
  have hlen : readRet (reads m) = bytes.length := by rw [hbytes]; rfl
  by_cases hzero : readRet (reads m) = 0
  · -- the end of what there is to read
    refine ⟨ended, reply.writeBackPkt, ?_⟩
    have hnil : bytes = [] := List.length_eq_zero_iff.mp (by omega)
    have hround := @replyRound_zero _ ended failed 0 rfl [] (conn m) reply
    rw [replyLoop, hzero, hbytes, hnil, Option.getD_some, hround, List.take_nil, List.append_nil]
    show Loop.Step.done (ended, Reply.mk reply.writeBackPkt reply.asked reply.sent) =
      Loop.Step.done (ended, Reply.mk reply.writeBackPkt (reply.asked ++ []) reply.sent)
    rw [List.append_nil]
  · -- a short write
    have hpos : 0 < readRet (reads m) := by omega
    have hshort : conn m (readRet (reads m)) ≠ readRet (reads m) := fun he => hstop ⟨hpos, he⟩
    have hround := @replyRound_short _ ended failed _ _ (int32_readRet (hfits m)) hzero bytes _
      hshort reply
    have hatMost := hconn.atMost m (readRet (reads m)) hpos.le
    have hkept : [readRet (reads m)].filter (fun n => decide (0 < n)) = [readRet (reads m)] :=
      List.filter_cons_of_pos (decide_eq_true hpos)
    refine ⟨failed, bytes ++ reply.writeBackPkt.drop bytes.length, ?_⟩
    rw [hkept, replyLoop, hbytes, Option.getD_some, ← hbytes, hround,
      List.take_append_of_le_length (by omega)]
    rfl

theorem repliesDelivered_iff (hfits : ∀ k, FitsBuffer (reads k)) (hconn : WriteResults conn) :
    RepliesDelivered (replyLoop ended failed) reads conn ↔ NoFailedRead reads conn := by
  constructor
  · intro h m hbefore hread
    obtain ⟨pkt, hafter⟩ := @replyLoop_after _ ended failed _ _ hfits m hbefore []
    obtain ⟨-, ret, pkt', hrun⟩ := h [] m hbefore (by
      rw [hread]
      exact fun hgo => absurd hgo.1 (by decide))
    rw [Loop.run_after hafter, Loop.run_next (replyLoop_failed hconn hread _)] at hrun
    exact absurd hrun (Option.some_ne_none _).symm
  · intro h pkt m hbefore hstop
    obtain ⟨pkt', hafter⟩ := @replyLoop_after _ ended failed _ _ hfits m hbefore pkt
    obtain ⟨ret, pkt'', hdone⟩ := @replyLoop_done _ ended failed _ _ hfits hconn m
      (h m hbefore) hstop ⟨pkt', lengths reads m, delivered reads m⟩
    have hlengths : (lengths reads m).filter (fun n => decide (0 < n)) = lengths reads m := by
      rw [List.filter_eq_self]
      intro n hn
      obtain ⟨j, hj, rfl⟩ := List.mem_map.mp hn
      exact decide_eq_true (hbefore j (List.mem_range.mp hj)).1
    refine ⟨Loop.run_of_after hafter, ret, pkt'', ?_⟩
    rw [Loop.run_after hafter, Loop.run_done hdone, lengths_succ, List.filter_append, hlengths]

/-- A descriptor that fails for good holds the loop for good. -/
theorem replyLoop_never_ends (hfits : ∀ k, FitsBuffer (reads k)) (hconn : WriteResults conn)
    {m : Nat} (hbefore : ∀ j < m, GoesOn (conn j) (reads j)) (hread : ∀ k, m ≤ k → reads k = none)
    (pkt : List UInt8) (fuel : Nat) :
    Loop.run (replyLoop ended failed reads conn) (m + fuel) (0, ⟨pkt, [], []⟩) = none := by
  have hforever : ∀ (k : Nat) (reply : Reply), m ≤ k →
      Loop.run (replyLoop ended failed reads conn) fuel (k, reply) = none := by
    induction fuel with
    | zero => exact fun _ _ _ => rfl
    | succ fuel ih =>
        intro k reply hk
        rw [Loop.run_next (replyLoop_failed hconn (hread k hk) reply)]
        exact ih (k + 1) _ (Nat.le_succ_of_le hk)
  obtain ⟨pkt', hafter⟩ := @replyLoop_after _ ended failed _ _ hfits m hbefore pkt
  rw [Loop.run_after hafter]
  exact hforever m _ le_rfl

end

/-! ## Receiving -/

section

variable (env : ConnEnv)

/-- One round of the receive loop, with the result of its read. -/
def receiveRound (read : Option (List UInt8)) (c : Conn) : Loop.Step Conn Conn :=
  if readRet read = 0 then .done c
  else
    -- a failed read is scanned like any other
    let scanned := scan env MAX_BUF_SIZE (c.read read)
    if scanned.1 then .done scanned.2
    else
      let size := scanned.2.len + MAX_BUF_SIZE
      if overflowsInt size then .hang
      else .next { scanned.2 with buff := realloc env scanned.2.buff size }

def receiveLoop (reads : Nat → Option (List UInt8)) :
    Nat × Conn → Loop.Step (Nat × Conn) Conn
  | (k, c) => (receiveRound env (reads k) c).map (fun c => (k + 1, c)) id

def receiveStart : Conn := ⟨List.replicate MAX_BUF_SIZE 0, 0, []⟩

/-- Over a list of results none of which is 0, the loop is the one that `receive` runs. -/
theorem run_receiveLoop {reads : Nat → Option (List UInt8)} {results : List (Option (List UInt8))}
    (hresults : ∀ read ∈ results, readRet read ≠ 0) {k : Nat}
    (hreads : ∀ i, reads (k + i) = results[i]?.getD (some [])) (c : Conn) :
    Loop.run (receiveLoop env reads) (results.length + 1) (k, c) = receive env c results := by
  induction results generalizing k c with
  | nil =>
      have hread : reads k = some [] := hreads 0
      apply Loop.run_done
      rw [receiveLoop, hread]
      rfl
  | cons read results ih =>
      have hread : reads k = read := hreads 0
      have hnonzero := hresults read List.mem_cons_self
      rw [receive, List.length_cons, Loop.run, receiveLoop, hread, receiveRound, if_neg hnonzero]
      dsimp only
      by_cases hfail : (scan env MAX_BUF_SIZE (c.read read)).1 = true
      · rw [if_pos hfail, if_pos hfail]
        rfl
      · rw [if_neg hfail, if_neg hfail]
        by_cases hover : overflowsInt
            ((scan env MAX_BUF_SIZE (c.read read)).2.len + MAX_BUF_SIZE) = true
        · rw [if_pos hover, if_pos hover]
          rfl
        · rw [if_neg hover, if_neg hover]
          apply ih fun r hr => hresults r (List.mem_cons_of_mem _ hr)
          intro i
          rw [Nat.add_assoc, Nat.add_comm 1 i, hreads]
          rfl

/-- What the round leaves, unless its arithmetic overflows. -/
def roundEnd : Loop.Step Conn Conn → Option Conn
  | .next c => some c
  | .done c => some c
  | .hang => none

/-- The loop ends at a result that is not positive, at the latest, and no round takes a byte for
received that its read did not deliver. -/
structure ReceivesDelivered (reads : Nat → Option (List UInt8)) : Prop where
  stops : ∀ m, readRet (reads m) ≤ 0 →
    ∃ c, Loop.run (receiveLoop env reads) (m + 1) (0, receiveStart) = some c
  counts : ∀ k c, Loop.after (receiveLoop env reads) k (0, receiveStart) = some (k, c) →
    ∃ c', roundEnd (receiveRound env (reads k) c) = some c' ∧
      c'.len ≤ c.len + ((reads k).getD []).length

/-- A result that the round at `c` can take: the end, a whole part of the buffer with room for the
next one, or bytes with a packet among them that fails. -/
def FillsPart (c : Conn) : Option (List UInt8) → Prop
  | none => False
  | some bytes =>
      bytes = [] ∨
      (bytes.length = MAX_BUF_SIZE ∧ c.len + MAX_BUF_SIZE + MAX_BUF_SIZE < 2 ^ 31) ∨
      (scan env bytes.length (c.read (some bytes))).1 = true

/-- Every read that the loop comes to has such a result. -/
def FillsParts (reads : Nat → Option (List UInt8)) : Prop :=
  ∀ k c, Loop.after (receiveLoop env reads) k (0, receiveStart) = some (k, c) →
    FillsPart env c (reads k)

variable {env}

theorem len_read (c : Conn) (read : Option (List UInt8)) : (c.read read).len = c.len := by
  cases read <;> rfl

/-- A scan gets through all of its bytes, or leaves behind one of them. -/
def StopsIn (n : Nat) (c : Conn) (scanned : Bool × Conn) : Prop :=
  ∃ i ≤ n, scanned.2.len = c.len + i ∧ (0 < n → 0 < i) ∧ (scanned.1 = false → i = n)

theorem scan_stops (n : Nat) (c : Conn) : StopsIn n c (scan env n c) := by
  have hgo : ∀ (n : Nat) (c c' : Conn) (scanned : Bool × Conn), c'.len = c.len + 1 →
      StopsIn n c' scanned → StopsIn (n + 1) c scanned := by
    intro n c c' scanned hlen ⟨i, hi, hstop, _, hall⟩
    exact ⟨i + 1, by omega, by omega, by omega, fun h => by rw [hall h]⟩
  fun_induction scan env n c with
  | case1 c => exact ⟨0, le_rfl, rfl, id, fun _ => rfl⟩
  | case2 n c len hnl hseek string ih => exact hgo _ _ _ _ rfl ih
  | case3 n c len hnl hseek handed hserved =>
      exact ⟨1, by omega, rfl, fun _ => Nat.one_pos, Bool.noConfusion⟩
  | case4 n c len hnl hseek handed hserved ih => exact hgo _ _ _ _ rfl ih
  | case5 n c len hnl ih => exact hgo _ _ _ _ rfl ih

/-- A scan of the whole part that counts no byte behind the delivered ones has left among them, or
the part is full. -/
theorem scan_delivered {d : Nat} (hd : d ≤ MAX_BUF_SIZE) {c : Conn}
    (h : (scan env MAX_BUF_SIZE c).2.len ≤ c.len + d) :
    d = MAX_BUF_SIZE ∨ (scan env d c).1 = true := by
  by_cases hfail : (scan env d c).1 = true
  · exact Or.inr hfail
  · apply Or.inl
    have hgoes : (scan env d c).1 = false := Bool.eq_false_iff.mpr hfail
    have hsplit := @scan_add env d (MAX_BUF_SIZE - d) c
    obtain ⟨i, _, hlen, _, hall⟩ := @scan_stops env d c
    obtain ⟨j, _, hlen', hpos, _⟩ := @scan_stops env (MAX_BUF_SIZE - d) (scan env d c).2
    have hi := hall hgoes
    rw [Nat.add_sub_cancel' hd, if_neg hfail] at hsplit
    rw [hsplit] at h
    omega

/-- The part that failed among the delivered bytes is all that is scanned of it. -/
theorem scan_of_failed {d : Nat} (hd : d ≤ MAX_BUF_SIZE) {c : Conn}
    (h : (scan env d c).1 = true) : scan env MAX_BUF_SIZE c = scan env d c := by
  rw [← Nat.add_sub_cancel' hd, scan_add, if_pos h]

theorem roundEnd_scanned {read : Option (List UInt8)} (h : readRet read ≠ 0) (c : Conn)
    (bound : Nat) :
    (∃ c', roundEnd (receiveRound env read c) = some c' ∧ c'.len ≤ bound) ↔
      (scan env MAX_BUF_SIZE (c.read read)).2.len ≤ bound ∧
      ((scan env MAX_BUF_SIZE (c.read read)).1 = true ∨
        (scan env MAX_BUF_SIZE (c.read read)).2.len + MAX_BUF_SIZE < 2 ^ 31) := by
  unfold receiveRound
  rw [if_neg h]
  generalize scan env MAX_BUF_SIZE (c.read read) = scanned
  by_cases hfail : scanned.1 = true
  · rw [if_pos hfail]
    simp [roundEnd, hfail]
  · rw [if_neg hfail]
    by_cases hfits : scanned.2.len + MAX_BUF_SIZE < 2 ^ 31
    · have hover : overflowsInt (scanned.2.len + MAX_BUF_SIZE) = false :=
        decide_eq_false (by omega)
      simp only [hover, Bool.false_eq_true, if_false, roundEnd, Option.some.injEq,
        exists_eq_left', hfits, or_true, and_true]
    · have hover : overflowsInt (scanned.2.len + MAX_BUF_SIZE) = true :=
        decide_eq_true (by omega)
      simp only [hover, if_true, roundEnd, reduceCtorEq, false_and, exists_false, hfail, hfits,
        or_self, and_false]

theorem not_fillsPart_failed (c : Conn) :
    ¬ ∃ c', roundEnd (receiveRound env none c) = some c' ∧ c'.len ≤ c.len + 0 := by
  -- something is scanned, nothing was delivered
  obtain ⟨i, _, hlen, hpos, _⟩ := @scan_stops env MAX_BUF_SIZE (c.read none)
  have hmove := hpos (by decide)
  rw [len_read] at hlen
  rw [roundEnd_scanned (by decide)]
  intro h
  have := h.1
  omega

theorem fillsPart_delivered {bytes : List UInt8} (hle : bytes.length ≤ MAX_BUF_SIZE)
    (hne : bytes ≠ []) (c : Conn) :
    (∃ c', roundEnd (receiveRound env (some bytes) c) = some c' ∧
      c'.len ≤ c.len + bytes.length) ↔ FillsPart env c (some bytes) := by
  obtain ⟨i, hi, hlen, _, hall⟩ := @scan_stops env MAX_BUF_SIZE (c.read (some bytes))
  rw [len_read] at hlen
  have hnonzero : readRet (some bytes) ≠ 0 := by
    have := List.length_pos_of_ne_nil hne
    show (bytes.length : Int) ≠ 0
    omega
  rw [roundEnd_scanned hnonzero]
  constructor
  · rintro ⟨hcount, hleft⟩
    apply Or.inr
    rcases @scan_delivered env _ hle _ hcount with hfull | hfail
    · by_cases hfail : (scan env MAX_BUF_SIZE (c.read (some bytes))).1 = true
      · apply Or.inr
        rwa [hfull]
      · have hroom := hleft.resolve_left hfail
        rw [hlen, hall (Bool.eq_false_iff.mpr hfail)] at hroom
        exact Or.inl ⟨hfull, hroom⟩
    · exact Or.inr hfail
  · rintro (h | ⟨hfull, hroom⟩ | hfail)
    · exact absurd h hne
    · refine ⟨by omega, ?_⟩
      by_cases hfail : (scan env MAX_BUF_SIZE (c.read (some bytes))).1 = true
      · exact Or.inl hfail
      · apply Or.inr
        rw [hlen, hall (Bool.eq_false_iff.mpr hfail)]
        exact hroom
    · obtain ⟨j, hj, hlen', _⟩ := @scan_stops env bytes.length (c.read (some bytes))
      rw [scan_of_failed hle hfail]
      rw [len_read] at hlen'
      exact ⟨by omega, Or.inl hfail⟩

theorem fillsPart_iff {read : Option (List UInt8)} (hfits : FitsBuffer read) (c : Conn) :
    (∃ c', roundEnd (receiveRound env read c) = some c' ∧
      c'.len ≤ c.len + (read.getD []).length) ↔ FillsPart env c read := by
  cases read with
  | none => exact iff_of_false (not_fillsPart_failed c) id
  | some bytes =>
      by_cases hnil : bytes = []
      · apply iff_of_true
        · exact ⟨c, by rw [hnil]; rfl, Nat.le_add_right _ _⟩
        · exact Or.inl hnil
      · exact fillsPart_delivered (hfits bytes rfl) hnil c

theorem receiveLoop_after {reads : Nat → Option (List UInt8)} {k j : Nat} {c c' : Conn}
    (h : Loop.after (receiveLoop env reads) k (0, c) = some (j, c')) : j = k := by
  induction k generalizing j c' with
  | zero =>
      have heq := Option.some.inj h
      exact (congrArg Prod.fst heq).symm
  | succ k ih =>
      obtain ⟨⟨i, c1⟩, hafter, hround⟩ := Loop.after_succ_iff.mp h
      obtain ⟨c2, _, heq⟩ := Loop.Step.map_eq_next_iff.mp hround
      rw [← ih hafter]
      exact (congrArg Prod.fst heq).symm

theorem receivesDelivered_iff (env : ConnEnv) {reads : Nat → Option (List UInt8)}
    (hfits : ∀ k, FitsBuffer (reads k)) :
    ReceivesDelivered env reads ↔ FillsParts env reads := by
  constructor
  · intro h k c hafter
    exact (fillsPart_iff (hfits k) c).mp (h.counts k c hafter)
  · intro h
    have hcounts : ∀ k c, Loop.after (receiveLoop env reads) k (0, receiveStart) = some (k, c) →
        ∃ c', roundEnd (receiveRound env (reads k) c) = some c' ∧
          c'.len ≤ c.len + ((reads k).getD []).length :=
      fun k c hafter => (fillsPart_iff (hfits k) c).mpr (h k c hafter)
    have hgoes : ∀ k st, Loop.after (receiveLoop env reads) k (0, receiveStart) = some st →
        receiveLoop env reads st ≠ .hang := by
      intro k (j, c) hafter hhang
      obtain rfl := receiveLoop_after hafter
      obtain ⟨c', hend, _⟩ := hcounts j c hafter
      rw [Loop.Step.map_eq_hang_iff.mp hhang] at hend
      exact absurd hend (Option.some_ne_none _).symm
    refine ⟨?_, hcounts⟩
    intro m hm
    rcases Loop.run_or_after fun k st (_ : k < m) => hgoes k st with ⟨c, hrun⟩ | ⟨⟨j, c⟩, hafter⟩
    · exact ⟨c, Loop.run_mono hrun 1⟩
    · rw [receiveLoop_after hafter] at hafter
      have hfill := h m c hafter
      cases hread : reads m with
      | none => rw [hread] at hfill; exact hfill.elim
      | some bytes =>
          rw [hread] at hm
          have hnil : bytes = [] := by
            have : (bytes.length : Int) ≤ 0 := hm
            exact List.length_eq_zero_iff.mp (by omega)
          refine ⟨c, ?_⟩
          rw [Loop.run_after hafter]
          apply Loop.run_done
          rw [receiveLoop, hread, hnil]
          rfl

/-- A connection that fails for good holds its thread for good, while no packet fails: only its
buffer grows. -/
theorem receiveLoop_never_ends (hserved : ∀ k, env.served k = 0)
    {reads : Nat → Option (List UInt8)} {k : Nat} (hread : ∀ j, k ≤ j → reads j = none) (c : Conn)
    (fuel : Nat) : Loop.run (receiveLoop env reads) fuel (k, c) = none := by
  induction fuel generalizing k c with
  | zero => rfl
  | succ fuel ih =>
      have hscan := (scan_served hserved MAX_BUF_SIZE (c.read none)).1
      rw [Loop.run, receiveLoop, hread k le_rfl, receiveRound, if_neg (by decide)]
      dsimp only
      rw [hscan, if_neg Bool.false_ne_true]
      split
      · rename_i st hround
        obtain ⟨c', _, rfl⟩ := Loop.Step.map_eq_next_iff.mp hround
        exact ih (fun j hj => hread j (Nat.le_of_succ_le hj)) c'
      · rename_i r hround
        split at hround <;> cases hround
      · rfl

end

/-- A reply loop ends as it should exactly when no read that it comes to fails, and the receive
loop exactly when every read that it comes to is the end, fills its part, or brings a packet
that fails. -/
theorem loopsEnd_iff {reads : Nat → Option (List UInt8)} (hfits : ∀ k, FitsBuffer (reads k))
    {conn : Nat → Int → Int} (hconn : WriteResults conn) (env : ConnEnv) :
    (RepliesDelivered processPacketReply reads conn ↔ NoFailedRead reads conn) ∧
    (RepliesDelivered seekAndReadReply reads conn ↔ NoFailedRead reads conn) ∧
    (ReceivesDelivered env reads ↔ FillsParts env reads) := by
  refine ⟨?_, ?_, ?_⟩
  · exact repliesDelivered_iff hfits hconn
  · exact repliesDelivered_iff hfits hconn
  · exact receivesDelivered_iff env hfits

/-- `write` takes all it is given, and refuses (size_t)-1 bytes. -/
theorem writeResults_all : WriteResults fun _ n => n := ⟨fun _ _ _ => le_rfl, fun _ => rfl⟩

def ConnEnv.calm : ConnEnv := ⟨fun _ => 0, [], fun _ => 0⟩

/-- `"a\n"` is read and sent, then the end is read. -/
theorem loopsEnd_one_piece :
    RepliesDelivered processPacketReply (fun k => if k = 0 then some [97, 10] else some [])
      fun _ n => n := by
  have hreads : ∀ k : Nat, FitsBuffer (if k = 0 then some [97, 10] else some []) := by
    intro k bytes hbytes
    split at hbytes
    · rw [← Option.some.inj hbytes]
      decide
    · rw [← Option.some.inj hbytes]
      decide
  apply (loopsEnd_iff hreads writeResults_all .calm).1.mpr
  intro m _
  show (if m = 0 then some [97, 10] else some []) ≠ none
  split <;> exact Option.some_ne_none _

/-- Every read fails, and the connection takes what it is given. -/
theorem loops_ignore_failed_reads :
    ¬ RepliesDelivered processPacketReply (fun _ => none) (fun _ n => n) ∧
    ¬ RepliesDelivered seekAndReadReply (fun _ => none) (fun _ n => n) ∧
    ¬ ReceivesDelivered .calm fun _ => none := by
  have hfits : ∀ k : Nat, FitsBuffer ((fun _ => none : Nat → Option (List UInt8)) k) :=
    fun _ _ h => absurd h (Option.not_mem_none _)
  have hfails : ¬ NoFailedRead (fun _ => none) fun _ n => n :=
    fun h => h 0 (fun j hj => absurd hj (Nat.not_lt_zero j)) rfl
  refine ⟨?_, ?_, ?_⟩
  · exact fun h => hfails ((repliesDelivered_iff hfits writeResults_all).mp h)
  · exact fun h => hfails ((repliesDelivered_iff hfits writeResults_all).mp h)
  · exact fun h => (receivesDelivered_iff .calm hfits).mp h 0 receiveStart rfl

end AesdChar
