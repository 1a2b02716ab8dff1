import AesdChar.Driver
import AesdChar.Lib.Circular
import AesdChar.Lib.Groups

/-!
# What the device is for

The device keeps a log of commands.  A chunk without a '\n' is appended to the command being
assembled; a chunk that holds one completes it.  Only the last ten commands are kept.  This is a
statement of purpose over byte strings, with no pointers, sizes or indices; `Holds` in
`AesdChar.Refinement` ties the driver to it.
-/

namespace AesdChar

structure CommandLog where
  -- the commands kept, oldest first
  commands : List (List UInt8)
  -- the command being assembled, if a chunk of it has arrived
  pending : Option (List UInt8)
deriving DecidableEq

def endsCommand (chunk : List UInt8) : Bool := decide (NEWLINE ∈ chunk)

namespace CommandLog

def empty : CommandLog := ⟨[], none⟩

/-- The command as it stands with one more chunk. -/
def extended (log : CommandLog) (chunk : List UInt8) : List UInt8 := log.pending.getD [] ++ chunk

def commit (log : CommandLog) (chunk : List UInt8) : CommandLog :=
  ⟨(log.commands ++ [log.extended chunk]).rtake 10, none⟩

def keep (log : CommandLog) (chunk : List UInt8) : CommandLog :=
  ⟨log.commands, some (log.extended chunk)⟩

def accept (log : CommandLog) (chunk : List UInt8) : CommandLog :=
  if NEWLINE ∈ chunk then log.commit chunk else log.keep chunk

def contents (log : CommandLog) : List UInt8 := log.commands.flatten

theorem accept_of_mem {log : CommandLog} {chunk : List UInt8} (h : NEWLINE ∈ chunk) :
    log.accept chunk = log.commit chunk := if_pos h

theorem accept_of_not_mem {log : CommandLog} {chunk : List UInt8} (h : NEWLINE ∉ chunk) :
    log.accept chunk = log.keep chunk := if_neg h

/-! ## The contents when a command is completed -/

theorem commit_contents {log : CommandLog} (h : log.commands.length < 10) (chunk : List UInt8) :
    (log.commit chunk).contents = log.contents ++ log.extended chunk := by
  have hle : (log.commands ++ [log.extended chunk]).length ≤ 10 := by
    rw [List.length_append, List.length_singleton]
    omega
  rw [commit, contents, Circular.rtake_of_length_le hle, List.flatten_concat, contents]

theorem commit_contents_of_full {log : CommandLog} (h : log.commands.length = 10)
    (chunk : List UInt8) :
    (log.commit chunk).contents.length + (log.commands.map List.length).headD 0 =
      log.contents.length + (log.extended chunk).length := by
  -- the oldest command goes, the other nine stay
  cases hc : log.commands with
  | nil => simp [hc] at h
  | cons oldest rest =>
      have hrest : rest.length = 9 := by
        rw [hc, List.length_cons] at h
        omega
      rw [commit, hc, contents, contents, hc, List.rtake_concat_succ, List.rtake,
        List.length_cons, hrest, show 9 + 1 - 9 = 1 from rfl, List.drop_succ_cons, List.drop_zero,
        List.flatten_concat, List.flatten_cons, List.length_append, List.length_append,
        List.map_cons, List.headD_cons]
      omega

/-! ## Runs of chunks -/

/-- The log after a sequence of chunks, read off their grouping. -/
def ofChunks (chunks : List (List UInt8)) : CommandLog where
  commands := ((Groups.closed endsCommand chunks).map List.flatten).rtake 10
  pending :=
    if Groups.pending endsCommand chunks = [] then none
    else some (Groups.pending endsCommand chunks).flatten

theorem ofChunks_extended (chunks : List (List UInt8)) (chunk : List UInt8) :
    (ofChunks chunks).extended chunk =
      (Groups.pending endsCommand chunks ++ [chunk]).flatten := by
  rw [extended, List.flatten_concat, ofChunks]
  split
  · rename_i h
    rw [h]
    rfl
  · rfl

/-- Accepting one chunk is extending the sequence of chunks. -/
theorem ofChunks_concat (chunks : List (List UInt8)) (chunk : List UInt8) :
    ofChunks (chunks ++ [chunk]) = (ofChunks chunks).accept chunk := by
  have hext := ofChunks_extended chunks chunk
  by_cases hn : NEWLINE ∈ chunk
  · have he : endsCommand chunk = true := decide_eq_true hn
    rw [accept_of_mem hn, commit, hext]
    simp only [ofChunks, Groups.closed_concat, Groups.pending_concat, he, if_true, List.map_append,
      List.map_cons, List.map_nil]
    rw [Circular.rtake_concat]
  · have he : endsCommand chunk = false := decide_eq_false hn
    rw [accept_of_not_mem hn, keep, hext]
    simp only [ofChunks, Groups.closed_concat, Groups.pending_concat, he, Bool.false_eq_true,
      if_false]
    rw [if_neg (by simp)]

end CommandLog

end AesdChar
