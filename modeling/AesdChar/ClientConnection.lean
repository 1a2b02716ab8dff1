import AesdChar.ProcessPacket
import AesdChar.Lib.CString

/-!
# Receiving from a client

`process_client_connection`: one buffer that grows by `MAX_BUF_SIZE` bytes a round, one read into
its last part, and a scan of all of that part.  Every '\n' met hands the buffer, from its start,
to `process_packet` or to `seek_and_read`.  What the two do with the device is not part of this
file; what `seek_and_read` does to the buffer is.
-/

namespace AesdChar

/-- `"AESDCHAR_IOCSEEKTO:"` -/
def ioctlCmd : List UInt8 :=
  [65, 69, 83, 68, 67, 72, 65, 82, 95, 73, 79, 67, 83, 69, 69, 75, 84, 79, 58]

/-- The bytes of `":,\n"`. -/
def tokDelim (c : UInt8) : Bool := c == 58 || c == 44 || c == NEWLINE

/-- The three tokens of `seek_and_read`, and the buffer with what follows it in memory once they
are cut out. -/
def seekArgs (mem : List UInt8) :
    Option (List UInt8) × Option (List UInt8) × Option (List UInt8) × List UInt8 :=
  let arg1 := CString.strtok tokDelim mem 0
  let arg2 := CString.strtok tokDelim arg1.mem arg1.next
  let arg3 := CString.strtok tokDelim arg2.mem arg2.next
  (arg1.token, arg2.token, arg3.token, arg3.mem)

/-- What the connection's thread does not decide.  `malloc` and `realloc` succeed. -/
structure ConnEnv where
  -- what the `p`-th byte of the buffer is when `realloc` adds it
  junk : Nat → UInt8
  -- what follows the buffer in memory
  beyond : List UInt8
  -- what `process_packet` returns for the packet after `n` others
  served : Nat → Int

/-- A call for the first `len` bytes of the buffer.  `process_packet` is given their number;
`seek_and_read` is not, and what it can see is the string that starts the buffer. -/
inductive Handed where
  | packet (bytes : List UInt8)
  | seek (bytes string : List UInt8)
deriving DecidableEq

structure Conn where
  buff : List UInt8
  len : Nat
  handed : List Handed

def startsSeek (buff : List UInt8) : Bool := CString.strncmpEq 19 buff ioctlCmd

/-- The buffer after `seek_and_read`. -/
def wipe (env : ConnEnv) (buff : List UInt8) : List UInt8 :=
  (seekArgs (buff ++ env.beyond)).2.2.2.take buff.length

/-- The rest of the scan, `n` bytes of it; true when it leaves for `cleanup`. -/
def scan (env : ConnEnv) : Nat → Conn → Bool × Conn
  | 0, c => (false, c)
  | n + 1, c =>
      let len := c.len + 1
      if c.buff[c.len]? = some NEWLINE then
        if startsSeek c.buff then
          -- `strtok` cuts into the buffer that the scan goes on with
          let string := CString.string (c.buff ++ env.beyond)
          scan env n ⟨wipe env c.buff, len, c.handed ++ [.seek (c.buff.take len) string]⟩
        else
          -- from the start of the buffer, lines handed over before included
          let handed := c.handed ++ [.packet (c.buff.take len)]
          if env.served c.handed.length ≠ 0 then (true, ⟨c.buff, len, handed⟩)
          else scan env n ⟨c.buff, len, handed⟩
      else scan env n ⟨c.buff, len, c.handed⟩

def realloc (env : ConnEnv) (buff : List UInt8) (size : Nat) : List UInt8 :=
  buff.take size ++
    (List.range (size - buff.length)).map fun i => env.junk (buff.length + i)

/-- `read (connfd, &buff[len], MAX_BUF_SIZE)`: its bytes, or `none` for a result of -1. -/
def Conn.read (c : Conn) : Option (List UInt8) → Conn
  | none => c
  | some bytes => { c with buff := Heap.overwrite c.buff c.len bytes }

def overflowsInt (n : Nat) : Bool := decide (2 ^ 31 ≤ n)

/-- One round for each read; the list ends with the end of the stream.  `none` when
`len + MAX_BUF_SIZE` overflows an `int`. -/
def receive (env : ConnEnv) : Conn → List (Option (List UInt8)) → Option Conn
  | c, [] => some c
  | c, read :: reads =>
      -- all of the part is scanned, however many bytes came
      let scanned := scan env MAX_BUF_SIZE (c.read read)
      if scanned.1 then some scanned.2
      else
        let size := scanned.2.len + MAX_BUF_SIZE
        if overflowsInt size then none
        else receive env { scanned.2 with buff := realloc env scanned.2.buff size } reads

def processClientConnection (env : ConnEnv) (reads : List (Option (List UInt8))) : Option Conn :=
  receive env ⟨List.replicate MAX_BUF_SIZE 0, 0, []⟩ reads

/-! ## The command that seeks -/

theorem startsSeek_iff (buff : List UInt8) : startsSeek buff = true ↔ ioctlCmd <+: buff :=
  CString.strncmpEq_iff_prefix buff ioctlCmd (by decide)

theorem startsSeek_append {buff rest : List UInt8} (h : 19 ≤ buff.length) :
    startsSeek (buff ++ rest) = startsSeek buff := by
  have hlen : ioctlCmd.length = 19 := rfl
  rw [Bool.eq_iff_iff, startsSeek_iff, startsSeek_iff]
  constructor
  · intro hpre
    exact List.prefix_of_prefix_length_le hpre (List.prefix_append _ _) (by omega)
  · intro hpre
    exact hpre.trans (List.prefix_append _ _)

theorem length_seekArgs (mem : List UInt8) : (seekArgs mem).2.2.2.length = mem.length := by
  simp only [seekArgs, CString.length_strtok]

theorem seekArgs_mem (mem : List UInt8) {i : Nat} (hi : i < mem.length) :
    (seekArgs mem).2.2.2[i]? = mem[i]? ∨ (seekArgs mem).2.2.2[i]? = some 0 := by
  -- each `strtok` leaves a byte alone or makes it NUL
  have h1 := CString.strtok_mem tokDelim mem 0 hi
  generalize hm1 : CString.strtok tokDelim mem 0 = t1 at h1
  have hl1 : t1.mem.length = mem.length := by rw [← hm1, CString.length_strtok]
  have h2 := CString.strtok_mem tokDelim t1.mem t1.next (hl1 ▸ hi)
  generalize hm2 : CString.strtok tokDelim t1.mem t1.next = t2 at h2
  have hl2 : t2.mem.length = mem.length := by rw [← hm2, CString.length_strtok, hl1]
  have h3 := CString.strtok_mem tokDelim t2.mem t2.next (hl2 ▸ hi)
  show (seekArgs mem).2.2.2[i]? = _ ∨ _
  simp only [seekArgs, hm1, hm2]
  rcases h3 with h3 | h3
  · rw [h3]
    rcases h2 with h2 | h2
    · rw [h2]
      exact h1
    · exact Or.inr h2
  · exact Or.inr h3

section

variable (env : ConnEnv)

@[simp] theorem length_wipe (buff : List UInt8) : (wipe env buff).length = buff.length := by
  rw [wipe, List.length_take, length_seekArgs, List.length_append]
  omega

theorem wipe_getElem? (buff : List UInt8) {i : Nat} (hi : i < buff.length) :
    (wipe env buff)[i]? = buff[i]? ∨ (wipe env buff)[i]? = some 0 := by
  have hmem := seekArgs_mem (buff ++ env.beyond) (i := i) (by rw [List.length_append]; omega)
  rw [List.getElem?_append_left hi] at hmem
  rw [wipe, List.getElem?_take_of_lt hi]
  exact hmem

theorem newline_of_wipe {buff : List UInt8} {i : Nat} (h : (wipe env buff)[i]? = some NEWLINE) :
    buff[i]? = some NEWLINE := by
  have hi : i < buff.length := by
    rw [← length_wipe env]
    exact (List.getElem?_eq_some_iff.mp h).1
  rcases wipe_getElem? env buff hi with he | he
  · rw [← he, h]
  · rw [h] at he
    exact absurd he (by decide)

theorem word_of_ioctlCmd : ∀ c ∈ ioctlCmd.take 18, c ≠ 0 ∧ tokDelim c = false := by
  have hall : (ioctlCmd.take 18).all (fun c => c != 0 && !tokDelim c) = true := by decide
  intro c hc
  simpa using List.all_eq_true.mp hall c hc

theorem not_startsSeek_wipe {buff : List UInt8} (h : startsSeek buff = true) :
    startsSeek (wipe env buff) = false := by
  -- the first token ends at the ':' of the command, which becomes NUL and stays so
  obtain ⟨rest, hrest⟩ := (startsSeek_iff buff).mp h
  have hlen : 18 < buff.length := by
    rw [← hrest, List.length_append]
    exact Nat.lt_of_lt_of_le (by decide : 18 < ioctlCmd.length) (Nat.le_add_right _ _)
  have hfirst : CString.strtok tokDelim (buff ++ env.beyond) 0 =
      ⟨some (ioctlCmd.take 18), ioctlCmd.take 18 ++ 0 :: (rest ++ env.beyond), 19⟩ := by
    rw [← hrest, List.append_assoc,
      show ioctlCmd ++ (rest ++ env.beyond) =
        ioctlCmd.take 18 ++ 58 :: (rest ++ env.beyond) from rfl]
    exact CString.strtok_first tokDelim _ _ _ (by decide) word_of_ioctlCmd (by decide)
  have hnul : (wipe env buff)[18]? = some 0 := by
    have hget : (ioctlCmd.take 18 ++ 0 :: (rest ++ env.beyond))[18]? = some 0 := rfl
    have hl : 18 < (ioctlCmd.take 18 ++ 0 :: (rest ++ env.beyond)).length := by
      rw [List.length_append, List.length_cons]
      exact Nat.lt_of_lt_of_le (by decide : 18 < (ioctlCmd.take 18).length + 1) (by omega)
    rw [wipe, List.getElem?_take_of_lt hlen]
    simp only [seekArgs, hfirst]
    have h2 := CString.strtok_mem tokDelim _ 19 hl
    generalize hm2 : CString.strtok tokDelim _ 19 = t2 at h2 ⊢
    rw [hget, or_self] at h2
    have h3 := CString.strtok_mem tokDelim t2.mem t2.next (List.getElem?_eq_some_iff.mp h2).1
    rwa [h2, or_self] at h3
  rw [Bool.eq_false_iff, Ne, startsSeek_iff]
  intro hpre
  have hcolon : (wipe env buff)[18]? = some 58 := by
    obtain ⟨tail, htail⟩ := hpre
    rw [← htail]
    rfl
  rw [hnul] at hcolon
  exact absurd hcolon (by decide)

end

end AesdChar
