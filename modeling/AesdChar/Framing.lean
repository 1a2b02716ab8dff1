import AesdChar.ReceiveBuffer
import AesdChar.Lib.Groups

/-!
# Framing

What the server hands over against the lines of the stream.  The buffer is never rewound, so a
second line comes with the first in front; the scan takes stale bytes for received ones, so a read
that falls short puts a gap into a line; and a seek command is handed over without its length, so
it goes on up to the next NUL.
-/

namespace AesdChar

def isNewline (c : UInt8) : Bool := decide (c = NEWLINE)

/-- The '\n'-terminated lines of a stream. -/
def lines (stream : List UInt8) : List (List UInt8) := Groups.closed isNewline stream

/-- What a line should hand over: with a seek command nothing is to be seen but the line. -/
def dispatched (line : List UInt8) : Handed :=
  if ioctlCmd.isPrefixOf line then .seek line (CString.string line) else .packet line

/-- The connection hands over the lines of the stream, each once and in order. -/
def Framed (env : ConnEnv) (segs : List (List UInt8)) : Prop :=
  ∃ c, processClientConnection env (segs.map some) = some c ∧
    c.handed = (lines segs.flatten).map dispatched

/-- What the scan still has to go through when the first '\n', which came with `seg`, has been
dealt with. -/
def behind (env : ConnEnv) (pre : List (List UInt8)) (seg : List UInt8)
    (post : List (List UInt8)) : List UInt8 :=
  let buff := laidOut env 0 (pre ++ [seg])
  (if startsSeek buff then wipe env buff else buff).drop (buff.idxOf NEWLINE + 1) ++
    laidOut env buff.length post

/-- The stream has one line, no read before its end is short, and nothing that is left behind it
in the buffer looks like another. -/
structure SingleLine (env : ConnEnv) (pre : List (List UInt8)) (seg : List UInt8)
    (post : List (List UInt8)) : Prop where
  full : ∀ s ∈ pre, s.length = MAX_BUF_SIZE
  line : NEWLINE ∈ seg
  once : (pre ++ seg :: post).flatten.count NEWLINE = 1
  quiet : NEWLINE ∉ behind env pre seg post

/-- If the line that ends with `seg` is a seek command, there is a NUL in it, or the next byte in
memory is one. -/
def SeekEnds (env : ConnEnv) (pre : List (List UInt8)) (seg : List UInt8) : Prop :=
  let buff := laidOut env 0 (pre ++ [seg])
  let len := buff.idxOf NEWLINE + 1
  startsSeek buff = true →
    0 ∈ buff.take len ∨ (buff.drop len ++ env.beyond).headD 0 = 0

/-- Few enough reads for an `int`, and no '\n' in the buffer, or a single line, which ends as a
string if it is a seek command. -/
def FramedWhen (env : ConnEnv) (segs : List (List UInt8)) : Prop :=
  segs.length + 1 < 2 ^ 21 ∧
    (NEWLINE ∉ laidOut env 0 segs ∨
      ∃ pre seg post, segs = pre ++ seg :: post ∧ SingleLine env pre seg post ∧
        SeekEnds env pre seg)

/-! ## Lines -/

theorem isNewline_of_not_mem {l : List UInt8} (h : NEWLINE ∉ l) : ∀ c ∈ l, isNewline c = false :=
  fun _ hc => decide_eq_false fun he => h (he ▸ hc)

theorem lines_of_not_mem {stream : List UInt8} (h : NEWLINE ∉ stream) : lines stream = [] :=
  Groups.closed_of_free isNewline stream (isNewline_of_not_mem h)

theorem lines_cons {line : List UInt8} (h : NEWLINE ∉ line) (rest : List UInt8) :
    lines (line ++ NEWLINE :: rest) = (line ++ [NEWLINE]) :: lines rest :=
  Groups.closed_cons_group isNewline line NEWLINE rest (isNewline_of_not_mem h) (by decide)

theorem mem_of_lines_ne_nil {stream : List UInt8} (h : lines stream ≠ []) : NEWLINE ∈ stream := by
  by_contra hno
  exact h (lines_of_not_mem hno)

theorem dispatched_eq_packet {l bytes : List UInt8} (h : dispatched l = .packet bytes) :
    l = bytes := by
  unfold dispatched at h
  split at h
  · exact absurd h (by simp)
  · exact Handed.packet.inj h

/-- What the first '\n' of a buffer hands over. -/
def handedAt (env : ConnEnv) (buff line : List UInt8) : Handed :=
  if startsSeek buff then .seek line (CString.string (buff ++ env.beyond)) else .packet line

theorem handedAt_inj {env : ConnEnv} {buff line line' : List UInt8}
    (h : handedAt env buff line = dispatched line') : line = line' := by
  unfold handedAt dispatched at h
  split at h
  · split at h
    · exact (Handed.seek.inj h).1
    · exact absurd h (by simp)
  · split at h
    · exact absurd h (by simp)
    · exact Handed.packet.inj h

/-- The command has no '\n', so it cannot reach past the line. -/
theorem startsSeek_line {line : List UInt8} (rest : List UInt8) :
    startsSeek (line ++ NEWLINE :: rest) = true ↔ ioctlCmd <+: line ++ [NEWLINE] := by
  have hline : line ++ [NEWLINE] <+: line ++ NEWLINE :: rest :=
    (List.prefix_append_right_inj line).mpr ⟨rest, rfl⟩
  rw [startsSeek_iff]
  constructor
  · intro h
    rcases List.prefix_or_prefix_of_prefix h hline with hshort | hlong
    · exact hshort
    · have hmem : NEWLINE ∈ ioctlCmd := hlong.subset (by simp)
      exact absurd hmem (by decide)
  · exact fun h => h.trans hline

theorem dispatched_eq {line rest : List UInt8} :
    dispatched (line ++ [NEWLINE]) =
      if startsSeek (line ++ NEWLINE :: rest) then
        .seek (line ++ [NEWLINE]) (CString.string (line ++ [NEWLINE]))
      else .packet (line ++ [NEWLINE]) := by
  have hiff : ioctlCmd.isPrefixOf (line ++ [NEWLINE]) = startsSeek (line ++ NEWLINE :: rest) := by
    rw [Bool.eq_iff_iff, List.isPrefixOf_iff_prefix, startsSeek_line]
  rw [dispatched, hiff]

/-- The first '\n' hands over its line, and with a seek command nothing else to be seen, exactly
when the command ends as a string. -/
theorem handedAt_iff {env : ConnEnv} {pre : List (List UInt8)} {seg x y : List UInt8}
    (hx : NEWLINE ∉ x) (hbuff : laidOut env 0 (pre ++ [seg]) = x ++ NEWLINE :: y) :
    handedAt env (laidOut env 0 (pre ++ [seg])) (x ++ [NEWLINE]) = dispatched (x ++ [NEWLINE]) ↔
      SeekEnds env pre seg := by
  have hidx : (x ++ NEWLINE :: y).idxOf NEWLINE + 1 = (x ++ [NEWLINE]).length := by
    rw [List.idxOf_append_of_notMem hx, List.idxOf_cons_self, List.length_append]
    rfl
  have hsplit : x ++ NEWLINE :: y = x ++ [NEWLINE] ++ y := by simp
  have hstring := CString.string_append_iff (x ++ [NEWLINE]) (y ++ env.beyond)
  rw [← List.append_assoc, ← hsplit] at hstring
  simp only [handedAt, SeekEnds, @dispatched_eq x y, hbuff, hidx]
  rw [hsplit, List.take_left, List.drop_left, ← hsplit]
  cases startsSeek (x ++ NEWLINE :: y) with
  | false => simp
  | true => simpa using hstring

/-! ## Where the bytes of the stream lie -/

section

variable {env : ConnEnv}

theorem mem_laidOut {segs : List (List UInt8)} {c : UInt8} (pos : Nat) (h : c ∈ segs.flatten) :
    c ∈ laidOut env pos segs := by
  induction segs generalizing pos with
  | nil => exact absurd h List.not_mem_nil
  | cons seg segs ih =>
      rw [laidOut, List.mem_append]
      rcases List.mem_append.mp h with hseg | hrest
      · exact Or.inl (List.mem_append_left _ hseg)
      · exact Or.inr (ih _ hrest)

theorem laidOut_of_full {segs : List (List UInt8)} (pos : Nat)
    (h : ∀ s ∈ segs, s.length = MAX_BUF_SIZE) : laidOut env pos segs = segs.flatten := by
  induction segs generalizing pos with
  | nil => rfl
  | cons seg segs ih =>
      have hlen : (freshPart env pos).length ≤ seg.length := by
        rw [length_freshPart, h seg List.mem_cons_self]
      rw [laidOut, filledPart, List.drop_of_length_le hlen, List.append_nil,
        ih _ fun s hs => h s (List.mem_cons_of_mem _ hs), List.flatten_cons]

theorem exists_first {segs : List (List UInt8)} {pos : Nat} (h : NEWLINE ∈ laidOut env pos segs) :
    ∃ pre seg post, segs = pre ++ seg :: post ∧ NEWLINE ∉ laidOut env pos pre ∧
      NEWLINE ∈ filledPart env (pos + MAX_BUF_SIZE * pre.length) seg := by
  induction segs generalizing pos with
  | nil => exact absurd h List.not_mem_nil
  | cons seg segs ih =>
      by_cases hseg : NEWLINE ∈ filledPart env pos seg
      · exact ⟨[], seg, segs, rfl, List.not_mem_nil, hseg⟩
      · rw [laidOut, List.mem_append] at h
        obtain ⟨pre, seg', post, hsplit, hpre, hmem⟩ := ih (h.resolve_left hseg)
        refine ⟨seg :: pre, seg', post, by rw [hsplit, List.cons_append], ?_, ?_⟩
        · rw [laidOut, List.mem_append, not_or]
          exact ⟨hseg, hpre⟩
        · rwa [List.length_cons, Nat.mul_succ, Nat.add_comm (MAX_BUF_SIZE * _), ← Nat.add_assoc]

end

end AesdChar
