import AesdChar.ClientConnection

/-!
# What a connection hands over

The receive loop in closed form.  `laidOut` is the buffer as the reads and the memory under them
make it; each '\n' of it hands over everything up to there, except that the first one of a buffer
that starts with the seek command hands over to `seek_and_read`, which cuts into the rest.
-/

namespace AesdChar

section

variable (env : ConnEnv)

/-- A byte of the buffer before anything is read to it: the first part is zeroed. -/
def blank (p : Nat) : UInt8 := if p < MAX_BUF_SIZE then 0 else env.junk p

def freshPart (pos : Nat) : List UInt8 :=
  (List.range MAX_BUF_SIZE).map fun i => blank env (pos + i)

/-- The part at `pos` with a read in it. -/
def filledPart (pos : Nat) (seg : List UInt8) : List UInt8 :=
  seg ++ (freshPart env pos).drop seg.length

/-- The buffer from `pos` on, a part for each read. -/
def laidOut : Nat → List (List UInt8) → List UInt8
  | _, [] => []
  | pos, seg :: segs => filledPart env pos seg ++ laidOut (pos + MAX_BUF_SIZE) segs

@[simp] theorem length_freshPart (pos : Nat) : (freshPart env pos).length = MAX_BUF_SIZE := by
  simp [freshPart]

theorem length_filledPart (pos : Nat) {seg : List UInt8} (h : seg.length ≤ MAX_BUF_SIZE) :
    (filledPart env pos seg).length = MAX_BUF_SIZE := by
  rw [filledPart, List.length_append, List.length_drop, length_freshPart]
  omega

theorem laidOut_append (pos : Nat) (segs segs' : List (List UInt8)) :
    laidOut env pos (segs ++ segs') =
      laidOut env pos segs ++ laidOut env (pos + MAX_BUF_SIZE * segs.length) segs' := by
  induction segs generalizing pos with
  | nil => rfl
  | cons seg segs ih =>
      rw [List.cons_append, laidOut, laidOut, ih, List.append_assoc, List.length_cons,
        Nat.mul_succ, Nat.add_comm (MAX_BUF_SIZE * _), Nat.add_assoc]

theorem length_laidOut (pos : Nat) {segs : List (List UInt8)}
    (h : ∀ seg ∈ segs, seg.length ≤ MAX_BUF_SIZE) :
    (laidOut env pos segs).length = MAX_BUF_SIZE * segs.length := by
  induction segs generalizing pos with
  | nil => rfl
  | cons seg segs ih =>
      rw [laidOut, List.length_append, length_filledPart env pos (h seg List.mem_cons_self),
        ih _ fun s hs => h s (List.mem_cons_of_mem _ hs), List.length_cons, Nat.mul_succ,
        Nat.add_comm]

theorem freshPart_zero : freshPart env 0 = List.replicate MAX_BUF_SIZE 0 := by
  have hlen := length_freshPart env 0
  rw [List.eq_replicate_iff]
  constructor
  · exact hlen
  · intro c hc
    rw [freshPart, List.mem_map] at hc
    obtain ⟨i, hi, he⟩ := hc
    rw [← he, Nat.zero_add, blank, if_pos (List.mem_range.mp hi)]

theorem realloc_eq {buff : List UInt8} (h : MAX_BUF_SIZE ≤ buff.length) :
    realloc env buff (buff.length + MAX_BUF_SIZE) = buff ++ freshPart env buff.length := by
  -- the part added is never the zeroed one
  have hadded : ((List.range MAX_BUF_SIZE).map fun i => env.junk (buff.length + i)) =
      freshPart env buff.length := by
    unfold freshPart blank
    generalize MAX_BUF_SIZE = size at h ⊢
    apply List.map_congr_left
    intro i _
    rw [if_neg (by omega)]
  rw [realloc, List.take_of_length_le (Nat.le_add_right _ _), Nat.add_sub_cancel_left, hadded]

end

/-! ## Packets in a buffer -/

/-- The calls of `process_packet` for the '\n's among `n` bytes from `start`. -/
def packetsIn (buff : List UInt8) (start n : Nat) : List Handed :=
  ((List.range' start n).filter fun p => buff[p]? = some NEWLINE).map fun p =>
    .packet (buff.take (p + 1))

theorem packetsIn_succ (buff : List UInt8) (start n : Nat) :
    packetsIn buff start (n + 1) =
      (if buff[start]? = some NEWLINE then [.packet (buff.take (start + 1))] else []) ++
        packetsIn buff (start + 1) n := by
  rw [packetsIn, List.range'_succ, List.filter_cons]
  by_cases h : buff[start]? = some NEWLINE
  · rw [if_pos h, if_pos (decide_eq_true h)]
    rfl
  · rw [if_neg h, if_neg (by simp [h])]
    rfl

theorem packetsIn_add (buff : List UInt8) (start n m : Nat) :
    packetsIn buff start (n + m) = packetsIn buff start n ++ packetsIn buff (start + n) m := by
  unfold packetsIn
  rw [← List.map_append, ← List.filter_append, ← List.range'_append_1]

theorem packetsIn_append {buff : List UInt8} (rest : List UInt8) {start n : Nat}
    (h : start + n ≤ buff.length) :
    packetsIn (buff ++ rest) start n = packetsIn buff start n := by
  have hlt : ∀ p ∈ List.range' start n, p < buff.length := by
    intro p hp
    have := List.mem_range'_1.mp hp
    omega
  unfold packetsIn
  rw [List.filter_congr (q := fun p => decide (buff[p]? = some NEWLINE))]
  · apply List.map_congr_left
    intro p hp
    have := hlt p (List.mem_filter.mp hp).1
    rw [List.take_append_of_le_length (by omega)]
  · intro p hp
    rw [List.getElem?_append_left (hlt p hp)]

theorem mem_packetsIn {buff : List UInt8} {start n p : Nat} (hlo : start ≤ p)
    (hhi : p < start + n) (h : buff[p]? = some NEWLINE) :
    .packet (buff.take (p + 1)) ∈ packetsIn buff start n := by
  have hp : p ∈ List.range' start n := List.mem_range'_1.mpr ⟨hlo, hhi⟩
  exact List.mem_map.mpr ⟨p, List.mem_filter.mpr ⟨hp, decide_eq_true h⟩, rfl⟩

theorem packetsIn_eq_nil_iff (buff : List UInt8) (start : Nat) :
    packetsIn buff start (buff.length - start) = [] ↔ NEWLINE ∉ buff.drop start := by
  constructor
  · intro hnil hmem
    obtain ⟨i, hi⟩ := List.mem_iff_getElem?.mp hmem
    rw [List.getElem?_drop] at hi
    have hlt := (List.getElem?_eq_some_iff.mp hi).1
    have := mem_packetsIn (n := buff.length - start) (Nat.le_add_right start i) (by omega) hi
    rw [hnil] at this
    exact absurd this List.not_mem_nil
  · intro hfree
    unfold packetsIn
    rw [List.map_eq_nil_iff, List.filter_eq_nil_iff]
    intro p hp hnl
    apply hfree
    have hge := (List.mem_range'_1.mp hp).1
    rw [List.mem_iff_getElem?]
    refine ⟨p - start, ?_⟩
    rw [List.getElem?_drop, Nat.add_sub_cancel' hge]
    exact of_decide_eq_true hnl

/-! ## One scan -/

section

variable {env : ConnEnv}

theorem scan_quiet {n : Nat} {c : Conn}
    (h : ∀ p, c.len ≤ p → p < c.len + n → c.buff[p]? ≠ some NEWLINE) :
    scan env n c = (false, { c with len := c.len + n }) := by
  induction n generalizing c with
  | zero => rfl
  | succ n ih =>
      rw [scan, if_neg (h c.len le_rfl (by omega)), ih]
      · show (false, Conn.mk _ _ _) = (false, Conn.mk _ _ _)
        rw [Nat.add_assoc, Nat.add_comm 1 n]
      · intro p hlo hhi
        exact h p (by dsimp only at hlo; omega) (by dsimp only at hhi; omega)

theorem scan_packets (hserved : ∀ k, env.served k = 0) {n : Nat} {c : Conn}
    (hseek : startsSeek c.buff = false) :
    scan env n c =
      (false, ⟨c.buff, c.len + n, c.handed ++ packetsIn c.buff c.len n⟩) := by
  induction n generalizing c with
  | zero => simp [scan, packetsIn]
  | succ n ih =>
      have hlen : c.len + 1 + n = c.len + (n + 1) := by omega
      rw [scan, packetsIn_succ]
      by_cases hnl : c.buff[c.len]? = some NEWLINE
      · rw [if_pos hnl, if_pos hnl, if_neg (by simp [hseek])]
        simp only [hserved, ne_eq, not_true_eq_false, if_false]
        rw [@ih ⟨c.buff, c.len + 1, _⟩ hseek, hlen, List.append_assoc]
      · rw [if_neg hnl, if_neg hnl, @ih ⟨c.buff, c.len + 1, _⟩ hseek, hlen, List.nil_append]

theorem scan_add (n m : Nat) (c : Conn) :
    scan env (n + m) c =
      if (scan env n c).1 then scan env n c else scan env m (scan env n c).2 := by
  induction n generalizing c with
  | zero => rw [Nat.zero_add]; rfl
  | succ n ih =>
      rw [show n + 1 + m = (n + m) + 1 by omega, scan, scan]
      by_cases hnl : c.buff[c.len]? = some NEWLINE
      · rw [if_pos hnl, if_pos hnl]
        by_cases hseek : startsSeek c.buff = true
        · rw [if_pos hseek, if_pos hseek, ih]
        · rw [if_neg hseek, if_neg hseek]
          by_cases hs : env.served c.handed.length = 0
          · simp only [hs, ne_eq, not_true_eq_false, if_false]
            rw [ih]
          · simp only [ne_eq, hs, not_false_eq_true, if_true]
      · rw [if_neg hnl, if_neg hnl, ih]

/-- The first '\n' behind a seek command: from there on the buffer is a different one, and every
'\n' left in it is a packet. -/
theorem scan_seek (hserved : ∀ k, env.served k = 0) {k m : Nat} {c : Conn}
    (hseek : startsSeek c.buff = true)
    (hquiet : ∀ p, c.len ≤ p → p < c.len + k → c.buff[p]? ≠ some NEWLINE)
    (hnl : c.buff[c.len + k]? = some NEWLINE) :
    scan env (k + (m + 1)) c =
      (false, ⟨wipe env c.buff, c.len + (k + (m + 1)),
        c.handed ++ .seek (c.buff.take (c.len + k + 1)) (CString.string (c.buff ++ env.beyond)) ::
          packetsIn (wipe env c.buff) (c.len + k + 1) m⟩) := by
  rw [scan_add, scan_quiet hquiet]
  simp only [Bool.false_eq_true, if_false]
  rw [scan, if_pos hnl, if_pos hseek,
    @scan_packets env hserved m ⟨wipe env c.buff, _, _⟩ (not_startsSeek_wipe env hseek)]
  show (false, Conn.mk _ _ _) = (false, Conn.mk _ _ _)
  rw [List.append_assoc, List.singleton_append, show c.len + k + 1 + m = c.len + (k + (m + 1)) by
    omega]

theorem scan_served (hserved : ∀ k, env.served k = 0) (n : Nat) (c : Conn) :
    (scan env n c).1 = false ∧ (scan env n c).2.len = c.len + n := by
  induction n generalizing c with
  | zero => exact ⟨rfl, rfl⟩
  | succ n ih =>
      have hlen : c.len + 1 + n = c.len + (n + 1) := by omega
      rw [scan, ← hlen]
      by_cases hnl : c.buff[c.len]? = some NEWLINE
      · rw [if_pos hnl]
        by_cases hseek : startsSeek c.buff = true
        · rw [if_pos hseek]
          exact ih _
        · rw [if_neg hseek]
          simp only [hserved, ne_eq, not_true_eq_false, if_false]
          exact ih _
      · rw [if_neg hnl]
        exact ih _

/-! ## Rounds -/

/-- Before a read, with `prev` scanned. -/
def connAt (env : ConnEnv) (prev : List UInt8) (handed : List Handed) : Conn :=
  ⟨prev ++ freshPart env prev.length, prev.length, handed⟩

theorem receive_cons {c c' : Conn} {read : Option (List UInt8)} {reads : List (Option (List UInt8))}
    (hscan : scan env MAX_BUF_SIZE (c.read read) = (false, c')) :
    receive env c (read :: reads) =
      if overflowsInt (c'.len + MAX_BUF_SIZE) then none
      else receive env { c' with buff := realloc env c'.buff (c'.len + MAX_BUF_SIZE) } reads := by
  rw [receive, hscan]
  exact if_neg Bool.false_ne_true

theorem receive_step {prev seg buff : List UInt8} {handed handed' : List Handed}
    {reads : List (Option (List UInt8))} (hseg : seg.length ≤ MAX_BUF_SIZE)
    (hscan : scan env MAX_BUF_SIZE ⟨prev ++ filledPart env prev.length seg, prev.length, handed⟩ =
      (false, ⟨buff, prev.length + MAX_BUF_SIZE, handed'⟩))
    (hlen : buff.length = prev.length + MAX_BUF_SIZE)
    (hsize : buff.length + MAX_BUF_SIZE < 2 ^ 31) :
    receive env (connAt env prev handed) (some seg :: reads) =
      receive env (connAt env buff handed') reads := by
  have hread : (connAt env prev handed).read (some seg) =
      ⟨prev ++ filledPart env prev.length seg, prev.length, handed⟩ := by
    rw [Conn.read, connAt]
    dsimp only
    rw [Heap.overwrite_append _ _ _ (by rw [length_freshPart]; exact hseg)]
    rfl
  have hfits : overflowsInt (buff.length + MAX_BUF_SIZE) = false := decide_eq_false (by omega)
  have hgrow := @realloc_eq env buff (by omega)
  rw [receive_cons (by rw [hread, hscan])]
  dsimp only
  rw [← hlen, hfits, if_neg Bool.false_ne_true, hgrow]
  rfl

theorem length_concat_filledPart (env : ConnEnv) (prev : List UInt8) {seg : List UInt8}
    (hseg : seg.length ≤ MAX_BUF_SIZE) :
    (prev ++ filledPart env prev.length seg).length = prev.length + MAX_BUF_SIZE := by
  rw [List.length_append, length_filledPart env _ hseg]

theorem receive_quiet {segs : List (List UInt8)} (hsegs : ∀ seg ∈ segs, seg.length ≤ MAX_BUF_SIZE)
    {prev : List UInt8} {handed : List Handed} {reads : List (Option (List UInt8))}
    (hsize : prev.length + MAX_BUF_SIZE * (segs.length + 1) < 2 ^ 31)
    (hquiet : NEWLINE ∉ laidOut env prev.length segs) :
    receive env (connAt env prev handed) (segs.map some ++ reads) =
      receive env (connAt env (prev ++ laidOut env prev.length segs) handed) reads := by
  -- induction on the reads: each round scans a part without '\n' and adds the next one
  induction segs generalizing prev with
  | nil => rw [laidOut, List.append_nil]; rfl
  | cons seg segs ih =>
      have hseg := hsegs seg List.mem_cons_self
      have hlen := length_concat_filledPart env prev hseg
      rw [laidOut, List.mem_append, not_or, ← hlen] at hquiet
      rw [List.length_cons, Nat.mul_succ, Nat.mul_succ] at hsize
      rw [laidOut, ← List.append_assoc, ← hlen, List.map_cons, List.cons_append]
      rw [@receive_step _ _ _ (prev ++ filledPart env prev.length seg) _ handed _ hseg _ hlen
        (by rw [hlen]; omega)]
      · exact ih (fun s hs => hsegs s (List.mem_cons_of_mem _ hs))
          (by rw [hlen, Nat.mul_succ]; omega) hquiet.2
      · rw [scan_quiet]
        intro p hlo hhi hnl
        dsimp only at hlo hnl
        rw [List.getElem?_append_right hlo] at hnl
        exact hquiet.1 (List.mem_of_getElem? hnl)

theorem receive_packets (hserved : ∀ k, env.served k = 0) {segs : List (List UInt8)}
    (hsegs : ∀ seg ∈ segs, seg.length ≤ MAX_BUF_SIZE) {prev : List UInt8} {handed : List Handed}
    (hsize : prev.length + MAX_BUF_SIZE * (segs.length + 1) < 2 ^ 31)
    (hseek : startsSeek (prev ++ laidOut env prev.length segs) = false) :
    ∃ c, receive env (connAt env prev handed) (segs.map some) = some c ∧
      c.handed = handed ++ packetsIn (prev ++ laidOut env prev.length segs) prev.length
        (MAX_BUF_SIZE * segs.length) := by
  -- induction on the reads: the command in front of the buffer is settled by its first part
  induction segs generalizing prev handed with
  | nil =>
      refine ⟨_, rfl, ?_⟩
      rw [List.length_nil, Nat.mul_zero]
      exact (List.append_nil handed).symm
  | cons seg segs ih =>
      have hseg := hsegs seg List.mem_cons_self
      have hlen := length_concat_filledPart env prev hseg
      have hlong : 19 ≤ (prev ++ filledPart env prev.length seg).length := by
        rw [hlen]
        exact le_trans (by decide : 19 ≤ MAX_BUF_SIZE) (Nat.le_add_left _ _)
      rw [List.length_cons, Nat.mul_succ, Nat.mul_succ] at hsize
      rw [laidOut, ← List.append_assoc, ← hlen] at hseek
      rw [laidOut, ← List.append_assoc, ← hlen, List.length_cons, Nat.mul_succ,
        Nat.add_comm (MAX_BUF_SIZE * _), packetsIn_add, ← hlen]
      have hnow := hseek
      rw [startsSeek_append hlong] at hnow
      obtain ⟨c, hrun, hhanded⟩ := @ih (fun s hs => hsegs s (List.mem_cons_of_mem _ hs))
        (prev ++ filledPart env prev.length seg) (handed ++ packetsIn
          (prev ++ filledPart env prev.length seg) prev.length MAX_BUF_SIZE)
        (by rw [hlen, Nat.mul_succ]; omega) hseek
      refine ⟨c, ?_, ?_⟩
      · rw [List.map_cons, receive_step hseg (scan_packets hserved hnow) hlen
          (by rw [hlen]; omega)]
        exact hrun
      · rw [hhanded, List.append_assoc, packetsIn_append _ hlen.ge]

/-- The round whose part holds the first '\n' cuts into the buffer there. -/
theorem scan_first_seek (hserved : ∀ k, env.served k = 0) {seg prev front back : List UInt8}
    (hseg : seg.length ≤ MAX_BUF_SIZE)
    (hpart : filledPart env prev.length seg = front ++ NEWLINE :: back) (hfront : NEWLINE ∉ front)
    (hseek : startsSeek (prev ++ filledPart env prev.length seg) = true) :
    scan env MAX_BUF_SIZE ⟨prev ++ filledPart env prev.length seg, prev.length, []⟩ =
      (false, ⟨wipe env (prev ++ filledPart env prev.length seg), prev.length + MAX_BUF_SIZE,
        .seek (prev ++ front ++ [NEWLINE])
            (CString.string (prev ++ filledPart env prev.length seg ++ env.beyond)) ::
          packetsIn (wipe env (prev ++ filledPart env prev.length seg))
            (prev.length + front.length + 1) back.length⟩) := by
  have hsplit : MAX_BUF_SIZE = front.length + (back.length + 1) := by
    rw [← length_filledPart env prev.length hseg, hpart, List.length_append, List.length_cons]
  have hcut : (prev ++ filledPart env prev.length seg).take (prev.length + front.length + 1) =
      prev ++ front ++ [NEWLINE] := by
    rw [hpart, ← List.append_assoc, ← List.length_append, ← List.singleton_append,
      ← List.append_assoc (prev ++ front), ← List.length_singleton (a := NEWLINE),
      ← List.length_append, List.take_left]
  rw [hsplit, ← hcut]
  apply scan_seek hserved hseek
  · intro p hlo hhi hnl
    dsimp only at hlo hhi hnl
    rw [hpart, List.getElem?_append_right hlo, List.getElem?_append_left (by omega)] at hnl
    exact hfront (List.mem_of_getElem? hnl)
  · show (prev ++ filledPart env prev.length seg)[prev.length + front.length]? = _
    rw [hpart, List.getElem?_append_right (Nat.le_add_right _ _), Nat.add_sub_cancel_left,
      List.getElem?_append_right le_rfl, Nat.sub_self]
    rfl

theorem receive_seek (hserved : ∀ k, env.served k = 0) {seg : List UInt8}
    {segs : List (List UInt8)} (hseg : seg.length ≤ MAX_BUF_SIZE)
    (hsegs : ∀ seg ∈ segs, seg.length ≤ MAX_BUF_SIZE) {prev front back : List UInt8}
    (hsize : prev.length + MAX_BUF_SIZE * (segs.length + 2) < 2 ^ 31)
    (hpart : filledPart env prev.length seg = front ++ NEWLINE :: back) (hfront : NEWLINE ∉ front)
    (hseek : startsSeek (prev ++ filledPart env prev.length seg) = true) :
    ∃ c, receive env (connAt env prev []) (some seg :: segs.map some) = some c ∧
      c.handed = .seek (prev ++ front ++ [NEWLINE])
          (CString.string (prev ++ filledPart env prev.length seg ++ env.beyond)) ::
        packetsIn (wipe env (prev ++ filledPart env prev.length seg) ++
            laidOut env (prev.length + MAX_BUF_SIZE) segs)
          (prev.length + front.length + 1) (back.length + MAX_BUF_SIZE * segs.length) := by
  -- the rounds after the one that cuts start from the cut buffer
  rw [Nat.mul_succ, Nat.mul_succ] at hsize
  have hlen := length_concat_filledPart env prev hseg
  have hwlen := length_wipe env (prev ++ filledPart env prev.length seg)
  have hsplit : MAX_BUF_SIZE = front.length + (back.length + 1) := by
    rw [← length_filledPart env prev.length hseg, hpart, List.length_append, List.length_cons]
  have hscan := scan_first_seek hserved hseg hpart hfront hseek
  have hrest : startsSeek (wipe env (prev ++ filledPart env prev.length seg) ++
      laidOut env (wipe env (prev ++ filledPart env prev.length seg)).length segs) = false := by
    rw [startsSeek_append, not_startsSeek_wipe env hseek]
    rw [hwlen, hlen]
    exact le_trans (by decide : 19 ≤ MAX_BUF_SIZE) (Nat.le_add_left _ _)
  obtain ⟨c, hrun, hhanded⟩ := @receive_packets env hserved segs hsegs
    (wipe env (prev ++ filledPart env prev.length seg)) (.seek (prev ++ front ++ [NEWLINE])
      (CString.string (prev ++ filledPart env prev.length seg ++ env.beyond)) ::
      packetsIn (wipe env (prev ++ filledPart env prev.length seg))
        (prev.length + front.length + 1) back.length)
    (by rw [hwlen, hlen, Nat.mul_succ]; omega) hrest
  have hend : prev.length + front.length + 1 + back.length = prev.length + MAX_BUF_SIZE := by omega
  refine ⟨c, ?_, ?_⟩
  · rw [receive_step hseg hscan (by rw [hwlen, hlen]) (by rw [hwlen, hlen]; omega)]
    exact hrun
  · have hfit : prev.length + front.length + 1 + back.length ≤
        (wipe env (prev ++ filledPart env prev.length seg)).length := by
      rw [hwlen, hlen, hend]
    rw [hhanded, packetsIn_add, packetsIn_append _ hfit, hend, hwlen, hlen, List.cons_append]

/-- With every packet served, a stream too long for an `int` gets to the overflow. -/
theorem receive_overflow (hserved : ∀ k, env.served k = 0) {segs : List (List UInt8)}
    (hne : segs ≠ []) {c : Conn} (hsize : 2 ^ 31 ≤ c.len + MAX_BUF_SIZE * (segs.length + 1)) :
    receive env c (segs.map some) = none := by
  induction segs generalizing c with
  | nil => exact absurd rfl hne
  | cons seg segs ih =>
      obtain ⟨hleft, hlen⟩ := scan_served hserved MAX_BUF_SIZE (c.read (some seg))
      rw [List.length_cons, Nat.mul_succ] at hsize
      have hscan : scan env MAX_BUF_SIZE (c.read (some seg)) =
          (false, (scan env MAX_BUF_SIZE (c.read (some seg))).2) := Prod.ext hleft rfl
      rw [List.map_cons, receive_cons hscan]
      by_cases hover : overflowsInt ((scan env MAX_BUF_SIZE (c.read (some seg))).2.len +
          MAX_BUF_SIZE) = true
      · rw [if_pos hover]
      · rw [if_neg hover]
        have hfits : ¬ 2 ^ 31 ≤ (scan env MAX_BUF_SIZE (c.read (some seg))).2.len +
            MAX_BUF_SIZE := fun hle => hover (decide_eq_true hle)
        rw [hlen] at hfits
        change ¬ 2 ^ 31 ≤ c.len + MAX_BUF_SIZE + MAX_BUF_SIZE at hfits
        apply ih
        · intro hnil
          rw [hnil, List.length_nil] at hsize
          exact hfits (by omega)
        · show 2 ^ 31 ≤ (scan env MAX_BUF_SIZE (c.read (some seg))).2.len + _
          rw [hlen]
          show 2 ^ 31 ≤ c.len + MAX_BUF_SIZE + _
          omega

/-! ## Whole connections -/

theorem processClientConnection_eq (reads : List (Option (List UInt8))) :
    processClientConnection env reads = receive env (connAt env [] []) reads := by
  rw [processClientConnection, connAt, List.nil_append, List.length_nil, freshPart_zero]

variable {segs : List (List UInt8)}

theorem processClientConnection_quiet (hsegs : ∀ seg ∈ segs, seg.length ≤ MAX_BUF_SIZE)
    (hsize : MAX_BUF_SIZE * (segs.length + 1) < 2 ^ 31) (hquiet : NEWLINE ∉ laidOut env 0 segs) :
    ∃ c, processClientConnection env (segs.map some) = some c ∧ c.handed = [] := by
  have hrun := @receive_quiet env segs hsegs [] [] []
    (by rw [List.length_nil, Nat.zero_add]; exact hsize) hquiet
  rw [List.append_nil, ← processClientConnection_eq] at hrun
  exact ⟨_, hrun, rfl⟩

theorem processClientConnection_packets (hserved : ∀ k, env.served k = 0)
    (hsegs : ∀ seg ∈ segs, seg.length ≤ MAX_BUF_SIZE)
    (hsize : MAX_BUF_SIZE * (segs.length + 1) < 2 ^ 31)
    (hseek : startsSeek (laidOut env 0 segs) = false) :
    ∃ c, processClientConnection env (segs.map some) = some c ∧
      c.handed = packetsIn (laidOut env 0 segs) 0 (laidOut env 0 segs).length := by
  obtain ⟨c, hrun, hhanded⟩ := @receive_packets env hserved segs hsegs [] []
    (by rw [List.length_nil, Nat.zero_add]; exact hsize) hseek
  rw [← processClientConnection_eq] at hrun
  rw [length_laidOut env 0 hsegs]
  exact ⟨c, hrun, hhanded⟩

theorem processClientConnection_seek (hserved : ∀ k, env.served k = 0)
    {pre post : List (List UInt8)} {seg front back : List UInt8}
    (hsegs : ∀ s ∈ pre ++ seg :: post, s.length ≤ MAX_BUF_SIZE)
    (hsize : MAX_BUF_SIZE * ((pre ++ seg :: post).length + 1) < 2 ^ 31)
    (hpre : NEWLINE ∉ laidOut env 0 pre)
    (hpart : filledPart env (laidOut env 0 pre).length seg = front ++ NEWLINE :: back)
    (hfront : NEWLINE ∉ front) (hseek : startsSeek (laidOut env 0 (pre ++ [seg])) = true) :
    ∃ c, processClientConnection env ((pre ++ seg :: post).map some) = some c ∧
      c.handed = .seek (laidOut env 0 pre ++ front ++ [NEWLINE])
          (CString.string (laidOut env 0 (pre ++ [seg]) ++ env.beyond)) ::
        packetsIn
          (wipe env (laidOut env 0 (pre ++ [seg])) ++
            laidOut env (laidOut env 0 (pre ++ [seg])).length post)
          ((laidOut env 0 pre).length + front.length + 1)
          (back.length + MAX_BUF_SIZE * post.length) := by
  have hseg : seg.length ≤ MAX_BUF_SIZE := hsegs seg (by simp)
  have hpost : ∀ s ∈ post, s.length ≤ MAX_BUF_SIZE := fun s hs => hsegs s (by simp [hs])
  have hpres : ∀ s ∈ pre, s.length ≤ MAX_BUF_SIZE := fun s hs => hsegs s (by simp [hs])
  have hlen := length_laidOut env 0 hpres
  have hbuff : laidOut env 0 (pre ++ [seg]) =
      laidOut env 0 pre ++ filledPart env (laidOut env 0 pre).length seg := by
    rw [laidOut_append, hlen, Nat.zero_add, laidOut, laidOut, List.append_nil]
  rw [List.length_append, List.length_cons, Nat.mul_succ, Nat.mul_add, Nat.mul_succ] at hsize
  rw [hbuff] at hseek ⊢
  have hquiet := @receive_quiet env pre hpres [] [] (some seg :: post.map some)
    (by rw [List.length_nil, Nat.zero_add, Nat.mul_succ]; omega) hpre
  obtain ⟨c, hrun, hhanded⟩ := @receive_seek env hserved seg post hseg hpost _ _ _
    (by rw [hlen, Nat.mul_add]; omega) hpart hfront hseek
  refine ⟨c, ?_, ?_⟩
  · rw [processClientConnection_eq, List.map_append, List.map_cons, hquiet]
    exact hrun
  · rw [hhanded, length_concat_filledPart env _ hseg]

end

end AesdChar
