import AesdChar.WriteRefinement

/-!
# Histories of writes

Whole runs of successful writes from the zeroed device: what the ring and the partial buffer
hold afterwards, and when every stored command ends with its terminator.
-/

namespace AesdChar

open CInt Heap

/-- Neither memory, nor a user copy, nor the lock is refused during the call. -/
structure WriteEnv.Healthy (env : WriteEnv) : Prop where
  kmalloc : env.kmalloc.isSome
  copied : env.notCopied = 0
  lock : env.interrupted = false
  concat : env.concat.isSome

def WriteEnv.calm : WriteEnv where
  kmalloc := some fun _ => 0
  notCopied := 0
  interrupted := false
  concat := some fun _ => 0
  stale := fun _ => 0

theorem WriteEnv.calm_healthy : WriteEnv.calm.Healthy := ⟨rfl, rfl, rfl, rfl⟩

def WriteCall.plain (buf : List UInt8) : WriteCall := ⟨buf, 0, .calm⟩

/-- No command that is completed or still pending reaches 2^31 bytes. -/
structure Bounded (chunks : List (List UInt8)) : Prop where
  closed : ∀ g ∈ Groups.closed endsCommand chunks, g.flatten.length < 2 ^ 31
  pending : (Groups.pending endsCommand chunks).flatten.length < 2 ^ 31

theorem Bounded.of_concat {chunks : List (List UInt8)} {chunk : List UInt8}
    (h : Bounded (chunks ++ [chunk])) :
    Bounded chunks ∧ ((CommandLog.ofChunks chunks).extended chunk).length < 2 ^ 31 := by
  have hc := h.closed
  have hp := h.pending
  rw [Groups.closed_concat] at hc
  rw [Groups.pending_concat] at hp
  rw [CommandLog.ofChunks_extended]
  have hle : (Groups.pending endsCommand chunks).flatten.length ≤
      (Groups.pending endsCommand chunks ++ [chunk]).flatten.length := by
    rw [List.flatten_concat, List.length_append]
    omega
  by_cases he : endsCommand chunk = true
  · rw [if_pos he] at hc
    have hlast := hc _ (List.mem_append_right _ (List.mem_singleton_self _))
    exact ⟨⟨fun g hg => hc g (List.mem_append_left _ hg), by omega⟩, hlast⟩
  · rw [if_neg he] at hc hp
    exact ⟨⟨hc, by omega⟩, hp⟩

theorem kmallocSucceeds_of_some {size : Nat} {fresh : Option (Nat → UInt8)} (hf : fresh.isSome)
    (hs : size < 2 ^ 31) : kmallocSucceeds size fresh = true := by
  have hlt : decide (size < KMALLOC_LIMIT) = true := decide_eq_true hs
  rw [kmallocSucceeds, hf, hlt, Bool.and_true, Bool.or_true]

/-- With a healthy kernel a write fails only on a command of 2^31 bytes. -/
theorem Holds.succeeds {s : Driver} {log : CommandLog} (h : Holds s log) {c : WriteCall}
    (hc : c.env.Healthy) (hlen : (log.extended c.buf).length < 2 ^ 31) : c.Succeeds s := by
  have hext := h.extended_length c.buf
  have hbuf : c.buf.length < 2 ^ 31 := by
    rw [CommandLog.extended, List.length_append] at hlen
    omega
  refine ⟨kmallocSucceeds_of_some hc.kmalloc hbuf, ?_, hc.lock, Or.inr ?_⟩
  · intro hs
    have := hs.1
    rw [hc.copied] at this
    omega
  · rw [hext, int32_natCast _ hlen, sizeT_natCast _ (by omega)]
    exact kmallocSucceeds_of_some hc.concat hlen

theorem Holds.write_succeeds {s : Driver} {log : CommandLog} (h : Holds s log) {c : WriteCall}
    (hc : c.Succeeds s) : Holds (s.write c) (log.accept c.buf) := by
  have := h.write_accept hc.1 hc.2.2.1 hc.2.2.2
  rwa [arrived_of_copied hc.2.1] at this

theorem Driver.writes_concat (s : Driver) (calls : List WriteCall) (c : WriteCall) :
    s.writes (calls ++ [c]) = (s.writes calls).write c := by
  rw [Driver.writes, List.foldl_append]
  rfl

theorem holds_writes (calls : List WriteCall) (hc : ∀ c ∈ calls, c.env.Healthy)
    (hb : Bounded (calls.map WriteCall.buf)) :
    Runs.Guarded Driver.write (fun s c => c.Succeeds s) aesdInitModule calls ∧
      Holds (aesdInitModule.writes calls) (CommandLog.ofChunks (calls.map WriteCall.buf)) := by
  -- induction on the run, its last call first
  induction calls using List.reverseRecOn with
  | nil => exact ⟨trivial, Holds.init⟩
  | append_singleton calls c ih =>
      rw [List.map_append, List.map_cons, List.map_nil] at hb
      obtain ⟨hb', hlen⟩ := hb.of_concat
      obtain ⟨hrun, hholds⟩ := ih (fun c' hc' => hc c' (List.mem_append_left _ hc')) hb'
      have hs := hholds.succeeds (hc c (by simp)) hlen
      refine ⟨Runs.guarded_append.mpr ⟨hrun, hs, trivial⟩, ?_⟩
      rw [Driver.writes_concat, List.map_append, List.map_cons, List.map_nil,
        CommandLog.ofChunks_concat]
      exact hholds.write_succeeds hs

/-- The ring and the partial buffer after a run of writes, and the calls' results: the last ten
completed groups of chunks, the unfinished group, and each call's own count. -/
theorem writes_refine_history (calls : List WriteCall) (hc : ∀ c ∈ calls, c.env.Healthy)
    (hb : Bounded (calls.map WriteCall.buf)) :
    (∃ entries, (aesdInitModule.writes calls).dev.buffer.walked = some entries ∧
      entries.map (fun e => ((aesdInitModule.writes calls).heap.load e.buffptr, e.size)) =
        (((Groups.closed endsCommand (calls.map WriteCall.buf)).map List.flatten).rtake 10).map
          fun command => (some command, command.length)) ∧
    (let unfinished := Groups.pending endsCommand (calls.map WriteCall.buf)
      let dev := (aesdInitModule.writes calls).dev
      if unfinished = [] then dev.partMemPtr = none ∧ dev.partBufSize = 0
      else (aesdInitModule.writes calls).heap.load dev.partMemPtr = some unfinished.flatten ∧
        dev.partBufSize = unfinished.flatten.length) ∧
    ∀ pre c post, calls = pre ++ c :: post →
      (aesdWrite (aesdInitModule.writes pre) c.env c.buf c.fPos).ret = c.buf.length := by
  obtain ⟨hrun, hholds⟩ := holds_writes calls hc hb
  refine ⟨⟨_, walked_eq_stored hholds.ring, hholds.entries⟩, ?_, ?_⟩
  · have hp := hholds.pending
    simp only [CommandLog.ofChunks] at hp ⊢
    split
    · rename_i hnil
      rwa [if_pos hnil] at hp
    · rename_i hne
      rw [if_neg hne] at hp
      exact ⟨hp.1, hp.2.1⟩
  · rintro pre c post rfl
    have hs := (Runs.guarded_append.mp hrun).2.1
    exact aesdWrite_ret hs.1 hs.2.2.1

theorem writes_refine_history_two_chunks :
    ∃ entries, (aesdInitModule.writes [.plain [97], .plain [98, 10]]).dev.buffer.walked =
        some entries ∧
      entries.map (fun e =>
          ((aesdInitModule.writes [.plain [97], .plain [98, 10]]).heap.load e.buffptr, e.size)) =
        [(some [97, 98, 10], 3)] :=
  (writes_refine_history [.plain [97], .plain [98, 10]]
    (by simp [WriteCall.plain, WriteEnv.calm_healthy]) ⟨by decide, by decide⟩).1

end AesdChar
