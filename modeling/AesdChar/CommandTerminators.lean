import AesdChar.WriteHistory

/-!
# Commands and their terminators

`is_data_partial` looks for a '\n' anywhere in the chunk, so a chunk commits everything it holds,
the bytes behind its last '\n' included.
-/

namespace AesdChar

open CInt Heap

/-- Every stored command ends with '\n', and none is left in the partial buffer. -/
structure NewlineTerminated (s : Driver) : Prop where
  entries : ∀ e ∈ s.dev.buffer.stored,
    ∃ bs, s.heap.load e.buffptr = some bs ∧ bs.getLast? = some NEWLINE
  pending : ∀ bs, s.heap.load s.dev.partMemPtr = some bs → NEWLINE ∉ bs

/-- A chunk with a '\n' in it ends with one. -/
def EndsAtNewline (chunk : List UInt8) : Prop :=
  NEWLINE ∈ chunk → chunk.getLast? = some NEWLINE

instance (chunk : List UInt8) : Decidable (EndsAtNewline chunk) :=
  inferInstanceAs (Decidable (_ → _))

/-- The same law on the log. -/
structure CommandLog.Terminated (log : CommandLog) : Prop where
  commands : ∀ c ∈ log.commands, c.getLast? = some NEWLINE
  pending : ∀ bs, log.pending = some bs → NEWLINE ∉ bs

theorem CommandLog.extended_getLast (log : CommandLog) {chunk : List UInt8} (h : NEWLINE ∈ chunk) :
    (log.extended chunk).getLast? = chunk.getLast? := by
  have hne : chunk ≠ [] := List.ne_nil_of_mem h
  rw [CommandLog.extended, List.getLast?_append_of_ne_nil _ hne]

theorem CommandLog.Terminated.accept {log : CommandLog} (h : log.Terminated) {chunk : List UInt8}
    (hc : EndsAtNewline chunk) : (log.accept chunk).Terminated := by
  by_cases hn : NEWLINE ∈ chunk
  · rw [CommandLog.accept_of_mem hn]
    refine ⟨?_, by simp [CommandLog.commit]⟩
    intro c hmem
    rcases List.mem_append.mp ((Circular.rtake_suffix _ _).subset hmem) with hold | hnew
    · exact h.commands c hold
    · rw [List.mem_singleton.mp hnew, CommandLog.extended_getLast log hn]
      exact hc hn
  · rw [CommandLog.accept_of_not_mem hn]
    refine ⟨h.commands, ?_⟩
    intro bs hbs
    have hext : bs = log.extended chunk := (Option.some.inj hbs).symm
    rw [hext, CommandLog.extended, List.mem_append, not_or]
    refine ⟨?_, hn⟩
    cases hp : log.pending with
    | none => simp
    | some old => exact h.pending old hp

theorem Holds.newlineTerminated {s : Driver} {log : CommandLog} (h : Holds s log)
    (ht : log.Terminated) : NewlineTerminated s where
  entries := by
    intro e he
    obtain ⟨b, c, hc, hb, hl, _⟩ := h.entry_load he
    exact ⟨c, by rw [hb, hl], ht.commands c hc⟩
  pending := by
    intro bs hbs
    rcases h.pending_cases with ⟨_, hp, _⟩ | ⟨p, old, hlog, hp, hold, _⟩
    · rw [hp] at hbs
      exact absurd hbs (by simp [load])
    · rw [hp, hold] at hbs
      rw [← Option.some.inj hbs]
      exact ht.pending old hlog

theorem Holds.not_newlineTerminated_write {s : Driver} {log : CommandLog} (h : Holds s log)
    {c : WriteCall} (hs : c.Succeeds s) (hc : ¬ EndsAtNewline c.buf) :
    ¬ NewlineTerminated (s.write c) := by
  -- the chunk is committed whole, with what follows its last '\n'
  have hn : NEWLINE ∈ c.buf := by
    by_contra hno
    exact hc fun hyes => absurd hyes hno
  have hafter := h.write_succeeds hs
  rw [CommandLog.accept_of_mem hn] at hafter
  have hmem : log.extended c.buf ∈ (log.commit c.buf).commands := by
    simp [CommandLog.commit, List.rtake_concat_succ]
  obtain ⟨e, he, hl, _⟩ := hafter.command_entry hmem
  intro ht
  obtain ⟨bs, hbs, hlast⟩ := ht.entries e he
  rw [hl] at hbs
  rw [← Option.some.inj hbs, CommandLog.extended_getLast log hn] at hlast
  exact hc fun _ => hlast

/-- Over runs of writes in which nothing fails: every stored command is terminated and the
partial buffer is free of terminators at every point exactly when every chunk that holds a '\n'
ends with one. -/
theorem newlineTerminated_iff (calls : List WriteCall)
    (hrun : Runs.Guarded Driver.write (fun s c => c.Succeeds s) aesdInitModule calls) :
    (∀ pre, pre <+: calls → NewlineTerminated (aesdInitModule.writes pre)) ↔
      ∀ c ∈ calls, EndsAtNewline c.buf := by
  rw [← @Runs.guarded_const _ _ Driver.write (fun c => EndsAtNewline c.buf) aesdInitModule calls]
  refine Runs.forall_prefix_iff (fun s => ∃ log, Holds s log ∧ log.Terminated) NewlineTerminated
    ?_ ?_ ?_ ⟨_, Holds.init, ⟨by simp [CommandLog.empty], by simp [CommandLog.empty]⟩⟩ hrun
  · rintro s ⟨log, h, ht⟩
    exact h.newlineTerminated ht
  · rintro s c ⟨log, h, ht⟩ hs hc
    exact ⟨_, h.write_succeeds hs, ht.accept hc⟩
  · rintro s c ⟨log, h, ht⟩ hs hc
    exact h.not_newlineTerminated_write hs hc

theorem newlineTerminated_split_command :
    NewlineTerminated (aesdInitModule.writes [.plain [97], .plain [98, 10]]) :=
  (newlineTerminated_iff [.plain [97], .plain [98, 10]] (by decide)).mpr (by decide) _
    (List.prefix_refl _)

/-- `"a\nb"` is committed whole. -/
theorem tail_committed_with_command :
    Runs.Guarded Driver.write (fun s c => c.Succeeds s) aesdInitModule [.plain [97, 10, 98]] ∧
      ¬ NewlineTerminated (aesdInitModule.writes [.plain [97, 10, 98]]) := by
  refine ⟨by decide, fun h => ?_⟩
  obtain ⟨bs, hbs, hlast⟩ := h.entries ⟨some 0, 3⟩ (by decide)
  have hload : (aesdInitModule.writes [.plain [97, 10, 98]]).heap.load (some 0) =
      some [97, 10, 98] := by decide
  rw [hload] at hbs
  rw [← Option.some.inj hbs] at hlast
  exact absurd hlast (by decide)

end AesdChar
