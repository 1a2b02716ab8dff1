import AesdChar.Framing
import AesdChar.Lib.Pieces

/-!
# When a connection is framed

A connection hands over the lines of its stream exactly when there is at most one, it was read
without a gap, no stale byte is taken for a terminator, and a seek command ends as a string.  The
packet of the last '\n' is at least as long as all lines together, so it can be a line only when it
is the only one.
-/

namespace AesdChar

/-! ## The first packet of a buffer -/

theorem packetsIn_first {x : List UInt8} (hx : NEWLINE ∉ x) (y : List UInt8) :
    packetsIn (x ++ NEWLINE :: y) 0 (x ++ NEWLINE :: y).length =
      .packet (x ++ [NEWLINE]) :: packetsIn (x ++ NEWLINE :: y) (x.length + 1)
        ((x ++ NEWLINE :: y).length - (x.length + 1)) := by
  have hlen : (x ++ NEWLINE :: y).length = x.length + (y.length + 1) := by
    rw [List.length_append, List.length_cons]
  have hquiet : packetsIn (x ++ NEWLINE :: y) 0 x.length = [] := by
    rw [packetsIn_append _ (Nat.zero_add _).le]
    exact (packetsIn_eq_nil_iff x 0).mpr hx
  have hget : (x ++ NEWLINE :: y)[0 + x.length]? = some NEWLINE := by
    rw [Nat.zero_add, List.getElem?_append_right le_rfl, Nat.sub_self]
    rfl
  have hcut : (x ++ NEWLINE :: y).take (0 + x.length + 1) = x ++ [NEWLINE] := by
    rw [Nat.zero_add, List.take_append, List.take_of_length_le (Nat.le_succ _),
      Nat.add_sub_cancel_left]
    rfl
  rw [hlen, packetsIn_add, hquiet, List.nil_append, packetsIn_succ, if_pos hget, hcut,
    List.singleton_append, Nat.zero_add, show x.length + (y.length + 1) - (x.length + 1) =
      y.length by omega]

theorem of_mem_packetsIn {buff : List UInt8} {start n : Nat} {h : Handed}
    (hmem : h ∈ packetsIn buff start n) :
    ∃ p, start ≤ p ∧ buff[p]? = some NEWLINE ∧ h = .packet (buff.take (p + 1)) := by
  obtain ⟨p, hp, he⟩ := List.mem_map.mp hmem
  obtain ⟨hrange, hnl⟩ := List.mem_filter.mp hp
  exact ⟨p, (List.mem_range'_1.mp hrange).1, of_decide_eq_true hnl, he.symm⟩

theorem length_take_newline {buff : List UInt8} {p : Nat} (h : buff[p]? = some NEWLINE) :
    (buff.take (p + 1)).length = p + 1 := by
  have := (List.getElem?_eq_some_iff.mp h).1
  rw [List.length_take]
  omega

/-! ## The rest of the buffer behind the first line -/

section

variable {env : ConnEnv} {pre post : List (List UInt8)} {seg : List UInt8}

theorem laidOut_split (pre : List (List UInt8)) (seg : List UInt8) (post : List (List UInt8))
    (hsegs : ∀ s ∈ pre ++ seg :: post, s.length ≤ MAX_BUF_SIZE) :
    laidOut env 0 (pre ++ seg :: post) =
      laidOut env 0 (pre ++ [seg]) ++ laidOut env (laidOut env 0 (pre ++ [seg])).length post := by
  have hfront : ∀ s ∈ pre ++ [seg], s.length ≤ MAX_BUF_SIZE := by
    intro s hs
    apply hsegs s
    rcases List.mem_append.mp hs with hs | hs
    · exact List.mem_append_left _ hs
    · rw [List.mem_singleton.mp hs]
      simp
  rw [List.append_cons, laidOut_append, length_laidOut env 0 hfront, Nat.zero_add]

theorem laidOut_concat (pre : List (List UInt8)) (seg : List UInt8) :
    laidOut env 0 (pre ++ [seg]) =
      laidOut env 0 pre ++ filledPart env (MAX_BUF_SIZE * pre.length) seg := by
  rw [laidOut_append, Nat.zero_add, laidOut, laidOut, List.append_nil]

theorem filledPart_at (pos : Nat) (u v : List UInt8) :
    filledPart env pos (u ++ NEWLINE :: v) =
      u ++ NEWLINE :: (v ++ (freshPart env pos).drop (u ++ NEWLINE :: v).length) := by
  rw [filledPart, List.append_assoc, List.cons_append]

/-- With no gap before the read that holds the first '\n', the buffer holds the stream. -/
theorem laidOut_line (hfull : ∀ s ∈ pre, s.length = MAX_BUF_SIZE) (u v : List UInt8) :
    laidOut env 0 (pre ++ [u ++ NEWLINE :: v]) = (pre.flatten ++ u) ++ NEWLINE ::
      (v ++ (freshPart env (MAX_BUF_SIZE * pre.length)).drop (u ++ NEWLINE :: v).length) := by
  rw [laidOut_concat, laidOut_of_full 0 hfull, filledPart_at, List.append_assoc]

/-- What is scanned once the first '\n', which came with `seg`, has been dealt with. -/
def scannedOn (env : ConnEnv) (pre : List (List UInt8)) (seg : List UInt8)
    (post : List (List UInt8)) : List UInt8 :=
  let buff := laidOut env 0 (pre ++ [seg])
  (if startsSeek buff then wipe env buff else buff) ++ laidOut env buff.length post

theorem length_scannedOn (hsegs : ∀ s ∈ pre ++ seg :: post, s.length ≤ MAX_BUF_SIZE) :
    (scannedOn env pre seg post).length = (laidOut env 0 (pre ++ seg :: post)).length := by
  rw [laidOut_split pre seg post hsegs, scannedOn, List.length_append, List.length_append]
  split
  · rw [length_wipe]
  · rfl

theorem behind_eq {x y : List UInt8} (hx : NEWLINE ∉ x)
    (hbuff : laidOut env 0 (pre ++ [seg]) = x ++ NEWLINE :: y) :
    behind env pre seg post = (scannedOn env pre seg post).drop (x.length + 1) := by
  have hidx : (laidOut env 0 (pre ++ [seg])).idxOf NEWLINE = x.length := by
    rw [hbuff, List.idxOf_append_of_notMem hx, List.idxOf_cons_self, Nat.add_zero]
  have hlen : x.length + 1 ≤ (laidOut env 0 (pre ++ [seg])).length := by
    rw [hbuff, List.length_append, List.length_cons]
    omega
  rw [behind, hidx, scannedOn, List.drop_append_of_le_length]
  split
  · rw [length_wipe]
    exact hlen
  · exact hlen

theorem newline_of_scannedOn {i : Nat} (hi : i < (laidOut env 0 (pre ++ [seg])).length)
    (h : (scannedOn env pre seg post)[i]? = some NEWLINE) :
    (laidOut env 0 (pre ++ [seg]))[i]? = some NEWLINE := by
  rw [scannedOn] at h
  split at h
  · rw [List.getElem?_append_left (by rw [length_wipe]; exact hi)] at h
    exact newline_of_wipe env h
  · rwa [List.getElem?_append_left hi] at h

/-- Whichever way the first '\n' goes, the packets behind it come from one buffer. -/
theorem processClientConnection_first (hserved : ∀ k, env.served k = 0)
    (hsegs : ∀ s ∈ pre ++ seg :: post, s.length ≤ MAX_BUF_SIZE)
    (hsize : MAX_BUF_SIZE * ((pre ++ seg :: post).length + 1) < 2 ^ 31)
    (hpre : NEWLINE ∉ laidOut env 0 pre) {front back : List UInt8} (hfront : NEWLINE ∉ front)
    (hpart : filledPart env (MAX_BUF_SIZE * pre.length) seg = front ++ NEWLINE :: back) :
    ∃ c, processClientConnection env ((pre ++ seg :: post).map some) = some c ∧
      c.handed = handedAt env (laidOut env 0 (pre ++ [seg]))
          (laidOut env 0 pre ++ front ++ [NEWLINE]) ::
        packetsIn (scannedOn env pre seg post) ((laidOut env 0 pre ++ front).length + 1)
          ((scannedOn env pre seg post).length - ((laidOut env 0 pre ++ front).length + 1)) := by
  have hlen := length_laidOut env 0 fun s hs => hsegs s (List.mem_append_left _ hs)
  have hx : NEWLINE ∉ laidOut env 0 pre ++ front := by
    rw [List.mem_append, not_or]
    exact ⟨hpre, hfront⟩
  have hbuff : laidOut env 0 (pre ++ [seg]) =
      (laidOut env 0 pre ++ front) ++ NEWLINE :: back := by
    rw [laidOut_concat, hpart, List.append_assoc]
  have hall := @laidOut_split env pre seg post hsegs
  have hpost := length_laidOut env (laidOut env 0 (pre ++ [seg])).length fun s hs =>
    hsegs s (List.mem_append_right _ (List.mem_cons_of_mem _ hs))
  have hseg : (filledPart env (MAX_BUF_SIZE * pre.length) seg).length = MAX_BUF_SIZE :=
    length_filledPart env _ (hsegs seg (by simp))
  by_cases hseek : startsSeek (laidOut env 0 (pre ++ [seg])) = true
  · obtain ⟨c, hrun, hhanded⟩ := processClientConnection_seek hserved hsegs hsize hpre
      (by rw [hlen]; exact hpart) hfront hseek
    refine ⟨c, hrun, ?_⟩
    have hrest : back.length + MAX_BUF_SIZE * post.length =
        (scannedOn env pre seg post).length - ((laidOut env 0 pre ++ front).length + 1) := by
      rw [length_scannedOn hsegs, hall, List.length_append, hpost, hbuff, List.length_append,
        List.length_cons]
      omega
    rw [hhanded, handedAt, if_pos hseek, ← hrest, scannedOn, if_pos hseek, List.length_append]
  · obtain ⟨c, hrun, hhanded⟩ := processClientConnection_packets hserved hsegs hsize (by
      rw [hall, startsSeek_append]
      · exact Bool.eq_false_iff.mpr hseek
      · rw [laidOut_concat, List.length_append, hseg]
        exact le_trans (by decide : 19 ≤ MAX_BUF_SIZE) (Nat.le_add_left _ _))
    refine ⟨c, hrun, ?_⟩
    rw [hhanded, handedAt, if_neg hseek, scannedOn, if_neg hseek, hall, hbuff, List.append_assoc,
      List.cons_append]
    exact packetsIn_first hx _

/-! ## A line that is read well is handed over -/

theorem framed_of_quiet {segs : List (List UInt8)}
    (hsegs : ∀ s ∈ segs, s.length ≤ MAX_BUF_SIZE)
    (hsize : MAX_BUF_SIZE * (segs.length + 1) < 2 ^ 31) (hquiet : NEWLINE ∉ laidOut env 0 segs) :
    Framed env segs := by
  obtain ⟨c, hrun, hhanded⟩ := processClientConnection_quiet hsegs hsize hquiet
  refine ⟨c, hrun, ?_⟩
  rw [hhanded, lines_of_not_mem fun h => hquiet (mem_laidOut 0 h)]
  rfl

theorem cut_at (hline : NEWLINE ∈ seg) (honce : (pre ++ seg :: post).flatten.count NEWLINE = 1) :
    ∃ u v, seg = u ++ NEWLINE :: v ∧ NEWLINE ∉ pre.flatten ++ u ∧ NEWLINE ∉ v ++ post.flatten := by
  obtain ⟨u, v, hseg, -⟩ := List.eq_append_cons_of_mem hline
  rw [hseg, List.flatten_append, List.flatten_cons, List.count_append, List.count_append,
    List.count_append, List.count_cons_self] at honce
  refine ⟨u, v, hseg, ?_, ?_⟩
  · rw [← List.count_eq_zero, List.count_append]
    omega
  · rw [← List.count_eq_zero, List.count_append]
    omega

theorem lines_at {u v : List UInt8} (hu : NEWLINE ∉ pre.flatten ++ u) :
    lines (pre ++ (u ++ NEWLINE :: v) :: post).flatten =
      (pre.flatten ++ u ++ [NEWLINE]) :: lines (v ++ post.flatten) := by
  rw [List.flatten_append, List.flatten_cons, List.append_assoc u, List.cons_append,
    ← List.append_assoc, lines_cons hu]

/-- The one line is handed over. -/
theorem SingleLine.handed (hserved : ∀ k, env.served k = 0)
    (hsegs : ∀ s ∈ pre ++ seg :: post, s.length ≤ MAX_BUF_SIZE)
    (hsize : MAX_BUF_SIZE * ((pre ++ seg :: post).length + 1) < 2 ^ 31)
    (h : SingleLine env pre seg post) :
    ∃ c x y, processClientConnection env ((pre ++ seg :: post).map some) = some c ∧
      NEWLINE ∉ x ∧ laidOut env 0 (pre ++ [seg]) = x ++ NEWLINE :: y ∧
      lines (pre ++ seg :: post).flatten = [x ++ [NEWLINE]] ∧
      c.handed = [handedAt env (laidOut env 0 (pre ++ [seg])) (x ++ [NEWLINE])] := by
  obtain ⟨u, v, rfl, hu, hv⟩ := cut_at h.line h.once
  have hlaid : laidOut env 0 pre = pre.flatten := laidOut_of_full 0 h.full
  have hu' := hu
  rw [List.mem_append, not_or] at hu'
  have hpart := @filledPart_at env (MAX_BUF_SIZE * pre.length) u v
  obtain ⟨c, hrun, hhanded⟩ := processClientConnection_first hserved hsegs hsize
    (hlaid ▸ hu'.1) hu'.2 hpart
  have hbuff := @laidOut_line env pre h.full u v
  have hquiet := h.quiet
  rw [behind_eq hu hbuff] at hquiet
  refine ⟨c, pre.flatten ++ u, _, hrun, hu, hbuff, ?_, ?_⟩
  · rw [lines_at hu, lines_of_not_mem hv]
  · rw [hhanded, hlaid, (packetsIn_eq_nil_iff _ _).mpr hquiet]

theorem SingleLine.framed (hserved : ∀ k, env.served k = 0)
    (hsegs : ∀ s ∈ pre ++ seg :: post, s.length ≤ MAX_BUF_SIZE)
    (hsize : MAX_BUF_SIZE * ((pre ++ seg :: post).length + 1) < 2 ^ 31)
    (h : SingleLine env pre seg post) (hends : SeekEnds env pre seg) :
    Framed env (pre ++ seg :: post) := by
  obtain ⟨c, x, y, hrun, hx, hbuff, hlines, hhanded⟩ := h.handed hserved hsegs hsize
  refine ⟨c, hrun, ?_⟩
  rw [hhanded, hlines, (handedAt_iff hx hbuff).mpr hends]
  rfl

/-! ## Memory without a terminator -/

theorem not_newline_of_freshPart (hjunk : ∀ p, env.junk p ≠ NEWLINE) (pos : Nat) :
    NEWLINE ∉ freshPart env pos := by
  intro hmem
  obtain ⟨i, -, hi⟩ := List.mem_map.mp hmem
  unfold blank at hi
  split at hi
  · exact absurd hi (by decide)
  · exact hjunk _ hi

theorem newline_of_laidOut (hjunk : ∀ p, env.junk p ≠ NEWLINE) {segs : List (List UInt8)}
    {pos : Nat} (h : NEWLINE ∈ laidOut env pos segs) : NEWLINE ∈ segs.flatten := by
  induction segs generalizing pos with
  | nil => exact absurd h List.not_mem_nil
  | cons seg segs ih =>
      rw [laidOut, filledPart, List.mem_append, List.mem_append] at h
      rw [List.flatten_cons, List.mem_append]
      rcases h with (hseg | hfresh) | hrest
      · exact Or.inl hseg
      · exact absurd (List.mem_of_mem_drop hfresh) (not_newline_of_freshPart hjunk pos)
      · exact Or.inr (ih hrest)

/-- Where no stale byte is a '\n', the reads alone decide. -/
theorem SingleLine.of_clean (hjunk : ∀ p, env.junk p ≠ NEWLINE)
    (hfull : ∀ s ∈ pre, s.length = MAX_BUF_SIZE) (hline : NEWLINE ∈ seg)
    (honce : (pre ++ seg :: post).flatten.count NEWLINE = 1) : SingleLine env pre seg post := by
  obtain ⟨u, v, rfl, hu, hv⟩ := cut_at hline honce
  refine ⟨hfull, hline, honce, ?_⟩
  have hbuff := @laidOut_line env pre hfull u v
  rw [behind_eq hu hbuff]
  intro hmem
  obtain ⟨i, hi⟩ := List.mem_iff_getElem?.mp hmem
  rw [List.getElem?_drop] at hi
  rw [List.mem_append, not_or] at hv
  by_cases hin : (pre.flatten ++ u).length + 1 + i <
      (laidOut env 0 (pre ++ [u ++ NEWLINE :: v])).length
  · have hold := newline_of_scannedOn hin hi
    rw [hbuff, Pieces.getElem?_behind] at hold
    rcases List.mem_append.mp (List.mem_of_getElem? hold) with hnew | hfresh
    · exact hv.1 hnew
    · exact not_newline_of_freshPart hjunk _ (List.mem_of_mem_drop hfresh)
  · rw [scannedOn, List.getElem?_append_right] at hi
    · exact hv.2 (newline_of_laidOut hjunk (List.mem_of_getElem? hi))
    · split
      · rw [length_wipe]
        exact Nat.not_lt.mp hin
      · exact Nat.not_lt.mp hin

/-! ## No other connection is framed -/

/-- The cuts of `strtok` leave later reads alone. -/
theorem scannedOn_later {u v : List UInt8} {mid tail : List (List UInt8)}
    (hsegs : ∀ s ∈ pre ++ seg :: (mid ++ (u ++ NEWLINE :: v) :: tail), s.length ≤ MAX_BUF_SIZE) :
    (scannedOn env pre seg (mid ++ (u ++ NEWLINE :: v) :: tail))[
      MAX_BUF_SIZE * (pre ++ seg :: mid).length + u.length]? = some NEWLINE := by
  have hseg : seg.length ≤ MAX_BUF_SIZE := hsegs seg (by simp)
  have hpre := length_laidOut env 0 fun s hs => hsegs s (List.mem_append_left _ hs)
  have hmid : ∀ pos, (laidOut env pos mid).length = MAX_BUF_SIZE * mid.length := fun pos =>
    length_laidOut env pos fun s hs => hsegs s (by simp [hs])
  have hfirst : (laidOut env 0 (pre ++ [seg])).length = MAX_BUF_SIZE * (pre.length + 1) := by
    rw [laidOut_concat, List.length_append, hpre, length_filledPart env _ hseg, Nat.mul_succ]
  have hcut : ∀ b : Bool, (if b then wipe env (laidOut env 0 (pre ++ [seg]))
      else laidOut env 0 (pre ++ [seg])).length = MAX_BUF_SIZE * (pre.length + 1) := by
    intro b
    cases b
    · exact hfirst
    · exact (length_wipe env _).trans hfirst
  have hpos : MAX_BUF_SIZE * (pre ++ seg :: mid).length + u.length =
      MAX_BUF_SIZE * (pre.length + 1) + (MAX_BUF_SIZE * mid.length + u.length) := by
    rw [List.length_append, List.length_cons, Nat.mul_add, Nat.mul_succ, Nat.mul_succ]
    omega
  rw [scannedOn, hpos, List.getElem?_append_right (by rw [hcut]; exact Nat.le_add_right _ _),
    hcut, Nat.add_sub_cancel_left, laidOut_append, List.getElem?_append_right (by
      rw [hmid]; exact Nat.le_add_right _ _), hmid, Nat.add_sub_cancel_left, laidOut,
    filledPart_at, List.append_assoc, List.getElem?_append_right le_rfl, Nat.sub_self]
  rfl

/-- The packet of a '\n' that came with a later read is too long for a line: it would be the
only one, and there was one before. -/
theorem no_newline_later (hsegs : ∀ s ∈ pre ++ seg :: post, s.length ≤ MAX_BUF_SIZE)
    {start : Nat} {line : List UInt8} {rest : List (List UInt8)}
    (hstart : start ≤ MAX_BUF_SIZE * (pre.length + 1))
    (hlines : lines (pre ++ seg :: post).flatten = line :: rest)
    (hhanded : rest.map dispatched = packetsIn (scannedOn env pre seg post) start
      ((scannedOn env pre seg post).length - start)) :
    NEWLINE ∉ post.flatten := by
  intro hmem
  obtain ⟨mid, u, v, tail, rfl, hv, htail⟩ := Pieces.exists_last hmem
  have hnl := @scannedOn_later env pre seg u v mid tail hsegs
  have hend := (List.getElem?_eq_some_iff.mp hnl).1
  have hlo : start ≤ MAX_BUF_SIZE * (pre ++ seg :: mid).length + u.length := by
    rw [List.length_append, List.length_cons, Nat.mul_add, Nat.mul_succ]
    rw [Nat.mul_succ] at hstart
    omega
  have hpacket := mem_packetsIn (n := (scannedOn env pre seg
    (mid ++ (u ++ NEWLINE :: v) :: tail)).length - start) hlo (by omega) hnl
  rw [← hhanded] at hpacket
  obtain ⟨l, hl, he⟩ := List.mem_map.mp hpacket
  have hlen : l.length = MAX_BUF_SIZE * (pre ++ seg :: mid).length + u.length + 1 := by
    rw [dispatched_eq_packet he, length_take_newline hnl]
  have hstream : (pre ++ seg :: (mid ++ (u ++ NEWLINE :: v) :: tail)).flatten =
      ((pre ++ seg :: mid).flatten ++ u) ++ NEWLINE :: (v ++ tail.flatten) := by
    simp
  have hall := Groups.flatten_closed_of_last isNewline ((pre ++ seg :: mid).flatten ++ u) NEWLINE
    (v ++ tail.flatten) (by decide) (isNewline_of_not_mem (by
      rw [List.mem_append, not_or]
      exact ⟨hv, htail⟩))
  rw [← hstream] at hall
  have hshort := @Pieces.length_flatten_le _ (pre ++ seg :: mid) MAX_BUF_SIZE fun s hs =>
    hsegs s (by
      rcases List.mem_append.mp hs with hs | hs
      · exact List.mem_append_left _ hs
      · exact List.mem_append_right _ (by simp at hs ⊢; tauto))
  have hmemAll : l ∈ lines (pre ++ seg :: (mid ++ (u ++ NEWLINE :: v) :: tail)).flatten := by
    rw [hlines]
    exact List.mem_cons_of_mem _ hl
  have honly := Pieces.eq_singleton_of_length_flatten (Groups.closed_ne_nil isNewline _) hmemAll
    (by
      rw [hall, hlen, List.length_append, List.length_append, List.length_singleton]
      omega)
  rw [(List.cons.inj (hlines.symm.trans honly)).2] at hl
  exact absurd hl List.not_mem_nil

/-- Nor can a second '\n' of one read end a line: its packet starts with the first line. -/
theorem no_second_newline {buff v w : List UInt8} {start n : Nat} (hstart : 0 < start)
    (hhanded : (lines (v ++ w)).map dispatched = packetsIn buff start n)
    (hbuff : ∀ i, i < v.length → buff[start + i]? = some NEWLINE → v[i]? = some NEWLINE) :
    NEWLINE ∉ v := by
  intro hmem
  obtain ⟨line, tail, rfl, hline⟩ := List.eq_append_cons_of_mem hmem
  rw [List.append_assoc, List.cons_append, lines_cons hline, List.map_cons] at hhanded
  obtain ⟨p, hp, hnl, he⟩ := of_mem_packetsIn (hhanded ▸ List.mem_cons_self)
  have hlen : line.length = p := by
    have := congrArg List.length (dispatched_eq_packet he)
    rw [length_take_newline hnl, List.length_append, List.length_singleton] at this
    omega
  obtain ⟨i, rfl⟩ := Nat.exists_eq_add_of_le hp
  have hi : i < line.length := by omega
  have hin := hbuff i (by rw [List.length_append]; omega) hnl
  rw [List.getElem?_append_left hi] at hin
  exact hline (List.mem_of_getElem? hin)

/-- With no gap before it, a '\n' found behind the first one is one of the same read, up to the
read's end. -/
theorem newline_behind_line (hfull : ∀ s ∈ pre, s.length = MAX_BUF_SIZE) {u v : List UInt8}
    {i : Nat} (hi : i < v.length)
    (h : (scannedOn env pre (u ++ NEWLINE :: v) post)[(pre.flatten ++ u).length + 1 + i]? =
      some NEWLINE) : v[i]? = some NEWLINE := by
  have hbehind := Pieces.getElem?_behind (pre.flatten ++ u) NEWLINE
    (v ++ (freshPart env (MAX_BUF_SIZE * pre.length)).drop (u ++ NEWLINE :: v).length) i
  rw [← laidOut_line hfull u v, List.getElem?_append_left hi] at hbehind
  have hin := hbehind.trans (List.getElem?_eq_getElem hi)
  rw [← hbehind]
  exact newline_of_scannedOn (List.getElem?_eq_some_iff.mp hin).1 h

/-- The first '\n' of the stream is in the read that holds the first '\n' of the buffer. -/
theorem newline_first_read (hpre : NEWLINE ∉ laidOut env 0 pre) (hpost : NEWLINE ∉ post.flatten)
    (hne : lines (pre ++ seg :: post).flatten ≠ []) : NEWLINE ∈ seg := by
  have hpreFree : NEWLINE ∉ pre.flatten := fun hmem => hpre (mem_laidOut 0 hmem)
  have hmem := mem_of_lines_ne_nil hne
  rw [List.flatten_append, List.flatten_cons, List.mem_append, List.mem_append] at hmem
  exact (hmem.resolve_left hpreFree).resolve_right hpost

theorem Framed.singleLine (hserved : ∀ k, env.served k = 0)
    (hsegs : ∀ s ∈ pre ++ seg :: post, s.length ≤ MAX_BUF_SIZE)
    (hsize : MAX_BUF_SIZE * ((pre ++ seg :: post).length + 1) < 2 ^ 31)
    (hpre : NEWLINE ∉ laidOut env 0 pre)
    (hnl : NEWLINE ∈ filledPart env (MAX_BUF_SIZE * pre.length) seg)
    (h : Framed env (pre ++ seg :: post)) : SingleLine env pre seg post := by
  have hpres : ∀ s ∈ pre, s.length ≤ MAX_BUF_SIZE := fun s hs =>
    hsegs s (List.mem_append_left _ hs)
  have hlen := length_laidOut env 0 hpres
  have hseg : (filledPart env (MAX_BUF_SIZE * pre.length) seg).length = MAX_BUF_SIZE :=
    length_filledPart env _ (hsegs seg (by simp))
  obtain ⟨front, back, hpart, hfront⟩ := List.eq_append_cons_of_mem hnl
  obtain ⟨c, hrun, hhanded⟩ := processClientConnection_first hserved hsegs hsize hpre hfront hpart
  obtain ⟨c', hrun', hframed⟩ := h
  rw [Option.some.inj (hrun.symm.trans hrun')] at hhanded
  rw [hhanded] at hframed
  have hne : lines (pre ++ seg :: post).flatten ≠ [] := by
    intro hnil
    rw [hnil] at hframed
    exact absurd hframed (by simp)
  obtain ⟨line, rest, hlines⟩ := List.exists_cons_of_ne_nil hne
  rw [hlines, List.map_cons] at hframed
  have hline := handedAt_inj (List.cons.inj hframed).1
  have hrest := (List.cons.inj hframed).2
  have hpost : NEWLINE ∉ post.flatten := by
    apply no_newline_later hsegs _ hlines hrest.symm
    rw [hpart, List.length_append, List.length_cons] at hseg
    rw [List.length_append, hlen, Nat.mul_succ]
    omega
  have hpreFree : NEWLINE ∉ pre.flatten := fun hmem => hpre (mem_laidOut 0 hmem)
  obtain ⟨u, v, rfl, hu⟩ :=
    List.eq_append_cons_of_mem (newline_first_read hpre hpost hne)
  rw [filledPart_at] at hpart
  obtain ⟨rfl, rfl⟩ := Pieces.first_unique hu hfront hpart
  have hbefore : NEWLINE ∉ pre.flatten ++ u := by
    rw [List.mem_append, not_or]
    exact ⟨hpreFree, hu⟩
  rw [lines_at hbefore] at hlines
  obtain ⟨hfirst, hothers⟩ := List.cons.inj hlines
  rw [← hfirst] at hline
  -- the first packet is as long as the first line only where no part before it has a gap
  have hfull : ∀ s ∈ pre, s.length = MAX_BUF_SIZE := by
    apply Pieces.full_of_length_flatten hpres
    have := congrArg List.length hline
    simp only [List.length_append, hlen] at this
    omega
  rw [laidOut_of_full 0 hfull] at hrest
  have hbuff := @laidOut_line env pre hfull u v
  have hv : NEWLINE ∉ v := by
    apply no_second_newline (by omega : 0 < (pre.flatten ++ u).length + 1) (w := post.flatten) (by
      rw [hothers]
      exact hrest.symm)
    exact fun i hi => newline_behind_line hfull hi
  refine ⟨hfull, by simp, ?_, ?_⟩
  · rw [List.flatten_append, List.flatten_cons, List.count_append, List.count_append,
      List.count_append, List.count_cons_self, List.count_eq_zero.mpr hpreFree,
      List.count_eq_zero.mpr hu, List.count_eq_zero.mpr hv, List.count_eq_zero.mpr hpost]
  · rw [behind_eq hbefore hbuff, ← packetsIn_eq_nil_iff, hrest, ← hothers, lines_of_not_mem]
    · rfl
    · rw [List.mem_append, not_or]
      exact ⟨hv, hpost⟩

/-- Nothing is to be seen behind a framed seek command. -/
theorem Framed.seekEnds (hserved : ∀ k, env.served k = 0)
    (hsegs : ∀ s ∈ pre ++ seg :: post, s.length ≤ MAX_BUF_SIZE)
    (hsize : MAX_BUF_SIZE * ((pre ++ seg :: post).length + 1) < 2 ^ 31)
    (h : Framed env (pre ++ seg :: post)) (hline : SingleLine env pre seg post) :
    SeekEnds env pre seg := by
  obtain ⟨c, x, y, hrun, hx, hbuff, hlines, hhanded⟩ := hline.handed hserved hsegs hsize
  obtain ⟨c', hrun', hframed⟩ := h
  rw [Option.some.inj (hrun.symm.trans hrun'), hframed, hlines] at hhanded
  exact (handedAt_iff hx hbuff).mp (List.cons.inj hhanded).1.symm

end

section

variable {env : ConnEnv} {segs : List (List UInt8)}

theorem fits_iff : MAX_BUF_SIZE * (segs.length + 1) < 2 ^ 31 ↔ segs.length + 1 < 2 ^ 21 := by
  have hsize : (2 : Nat) ^ 31 = MAX_BUF_SIZE * 2 ^ 21 := by decide +kernel
  rw [hsize]
  exact Nat.mul_lt_mul_left (by decide)

/-- A connection whose packets are all served hands over the lines of its stream exactly when it
has at most one, free of gaps and of stale terminators, and ends as a string if it seeks. -/
theorem framed_iff (hserved : ∀ k, env.served k = 0)
    (hsegs : ∀ seg ∈ segs, 1 ≤ seg.length ∧ seg.length ≤ MAX_BUF_SIZE) :
    Framed env segs ↔ FramedWhen env segs := by
  have hmax : ∀ seg ∈ segs, seg.length ≤ MAX_BUF_SIZE := fun seg hseg => (hsegs seg hseg).2
  constructor
  · intro h
    have hfits : segs.length + 1 < 2 ^ 21 := by
      by_contra hlong
      have hne : segs ≠ [] := by
        rintro rfl
        exact hlong (by decide +kernel)
      obtain ⟨c, hrun, -⟩ := h
      rw [processClientConnection_eq, receive_overflow hserved hne (by
        rw [← fits_iff, Nat.not_lt] at hlong
        exact le_trans hlong (Nat.le_add_left _ _))] at hrun
      exact absurd hrun (by simp)
    refine ⟨hfits, ?_⟩
    by_cases hnl : NEWLINE ∈ laidOut env 0 segs
    · obtain ⟨pre, seg, post, rfl, hpre, hmem⟩ := exists_first hnl
      rw [Nat.zero_add] at hmem
      have hline := h.singleLine hserved hmax (fits_iff.mpr hfits) hpre hmem
      exact Or.inr
        ⟨pre, seg, post, rfl, hline, h.seekEnds hserved hmax (fits_iff.mpr hfits) hline⟩
    · exact Or.inl hnl
  · rintro ⟨hfits, hquiet | ⟨pre, seg, post, rfl, hline, hends⟩⟩
    · exact framed_of_quiet hmax (fits_iff.mpr hfits) hquiet
    · exact hline.framed hserved hmax (fits_iff.mpr hfits) hends

/-- `"ab\n"`, the read falls short, and `"c"` comes with another. -/
theorem framed_one_line :
    Framed ⟨fun _ => 0, [], fun _ => 0⟩ [[97, 98, 10], [99]] :=
  have hline : SingleLine ⟨fun _ => 0, [], fun _ => 0⟩ [] [97, 98, 10] [[99]] :=
    SingleLine.of_clean (fun _ => (by decide : (0 : UInt8) ≠ NEWLINE)) (by simp) (by decide)
      (by decide)
  (framed_iff (fun _ => rfl) (by decide +kernel)).mpr
    ⟨by decide +kernel, Or.inr ⟨[], [97, 98, 10], [[99]], rfl, hline,
      fun h => absurd h (by decide +kernel)⟩⟩

theorem not_framed_two_lines (hserved : ∀ k, env.served k = 0) :
    ¬ Framed env [[97, 10, 98, 10]] := by
  rintro ⟨c, hrun, hhanded⟩
  have hlaid : ∃ rest, laidOut env 0 [[97, 10, 98, 10]] = [97, 10, 98, 10] ++ rest := by
    rw [laidOut, laidOut, List.append_nil, filledPart]
    exact ⟨_, rfl⟩
  obtain ⟨rest, hlaid⟩ := hlaid
  have hseek : startsSeek (laidOut env 0 [[97, 10, 98, 10]]) = false := by
    rw [Bool.eq_false_iff, Ne, startsSeek_iff, hlaid, ioctlCmd, List.cons_append,
      List.cons_prefix_cons]
    exact fun h => absurd h.1 (by decide)
  obtain ⟨c', hrun', hpackets⟩ := processClientConnection_packets hserved
    (by decide +kernel) (by decide +kernel) hseek
  rw [Option.some.inj (hrun.symm.trans hrun'), hpackets, hlaid] at hhanded
  have hmem := mem_packetsIn (n := ([97, 10, 98, 10] ++ rest).length) (Nat.zero_le 3) (by
    rw [List.length_append, Nat.zero_add]
    exact Nat.le_add_right 4 _) (rfl : ([97, 10, 98, 10] ++ rest)[3]? = some NEWLINE)
  rw [hhanded] at hmem
  obtain ⟨l, hl, he⟩ := List.mem_map.mp hmem
  rw [dispatched_eq_packet he] at hl
  exact absurd hl (by decide : [97, 10, 98, 10] ∉ lines [97, 10, 98, 10])

/-- `"a\n"` and `"b\n"` in one read: the second packet is `"a\nb\n"`. -/
theorem second_packet_starts_with_first :
    ¬ Framed ⟨fun _ => 0, [], fun _ => 0⟩ [[97, 10, 98, 10]] :=
  not_framed_two_lines fun _ => rfl

end

end AesdChar
