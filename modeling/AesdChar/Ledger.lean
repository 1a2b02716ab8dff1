import AesdChar.Representation

/-!
# The allocation ledger

Which blocks are live between two calls, and after the module is removed.  A chunk's block is
handed over to the ring or to the partial buffer only when nothing was pending; otherwise the
helper copies out of it and nobody frees it.
-/

namespace AesdChar

open CInt Heap

/-- The live blocks are those the device designates. -/
def Balanced (s : Driver) : Prop := ∀ b, s.heap.Live b ↔ b ∈ s.held

/-- Removing the module leaves every block ever issued freed once. -/
def CleansUp (s : Driver) : Prop :=
  ∃ heap, aesdCleanupModule s = some heap ∧ ∀ b < heap.issued, heap.retired.count b = 1

/-- The chunk's block, when it gets one, is handed over or freed. -/
def WriteCall.NoLeak (s : Driver) (c : WriteCall) : Prop :=
  ¬ c.HasMemory ∨
  (NEWLINE ∈ c.arrived ∧ (c.env.interrupted = true ∨ s.dev.partMemPtr = none)) ∨
  (NEWLINE ∉ c.arrived ∧ c.env.interrupted = false ∧ s.dev.partMemPtr = none)

instance (s : Driver) (c : WriteCall) : Decidable (c.NoLeak s) :=
  inferInstanceAs (Decidable (_ ∨ _))

structure LedgerInv (s : Driver) : Prop where
  holds : ∃ log, Holds s log
  balanced : Balanced s
  freedOnce : s.heap.retired.Nodup

theorem LedgerInv.init : LedgerInv aesdInitModule where
  holds := ⟨_, Holds.init⟩
  balanced := by
    intro b
    simp [aesdInitModule, Driver.held, AesdCircularBuffer.blocks, Live, Heap.empty]
  freedOnce := List.nodup_nil

/-! ## A call that hands its block over, or frees it -/

namespace LedgerInv

variable {s : Driver} {c : WriteCall}

theorem commit_handed_over (h : LedgerInv s) (hp : s.dev.partMemPtr = none) (size : Nat)
    (chunk : List UInt8) :
    (∀ b, ((s.heap.alloc chunk).free
        (aesdCircularBufferAddEntry s.dev.buffer ⟨some s.heap.issued, size⟩).1).Live b ↔
      b ∈ (aesdCircularBufferAddEntry s.dev.buffer ⟨some s.heap.issued, size⟩).2.blocks) ∧
    ((s.heap.alloc chunk).free
      (aesdCircularBufferAddEntry s.dev.buffer ⟨some s.heap.issued, size⟩).1).retired.Nodup := by
  -- nothing was pending, so the ring's blocks are all the blocks held
  obtain ⟨log, hlog⟩ := h.holds
  obtain ⟨kept, hblocks, hadded⟩ := blocks_addEntry hlog.ring ⟨some s.heap.issued, size⟩
  have hheld : s.held = s.dev.buffer.blocks := by
    rw [Driver.held, hp, Option.toList_none, List.append_nil]
  have hlive : ∀ b, (s.heap.alloc chunk).Live b ↔
      b ∈ s.dev.buffer.blocks ∨ b = s.heap.issued := by
    intro b
    rw [live_alloc, h.balanced b, hheld]
  have hfresh : s.heap.issued ∉ s.dev.buffer.blocks := hheld ▸ hlog.fresh
  have hnd := hlog.nodup_blocks
  rw [hadded, Option.toList_some]
  cases hr : (aesdCircularBufferAddEntry s.dev.buffer ⟨some s.heap.issued, size⟩).1 with
  | none =>
      rw [hr, Option.toList_none, List.nil_append] at hblocks
      refine ⟨fun b => ?_, h.freedOnce⟩
      show (s.heap.alloc chunk).Live b ↔ _
      rw [hlive, hblocks, List.mem_append, List.mem_singleton]
  | some r =>
      rw [hr, Option.toList_some, List.singleton_append] at hblocks
      rw [hblocks] at hnd hfresh
      have hgone : (s.heap.alloc chunk).Live r := by
        rw [hlive, hblocks]
        exact Or.inl List.mem_cons_self
      refine ⟨fun b => ?_, retired_free_nodup hgone h.freedOnce⟩
      have hkept : r ∉ kept := (List.nodup_cons.mp hnd).1
      have hri : r ≠ s.heap.issued := fun he => hfresh (he ▸ List.mem_cons_self)
      rw [live_free hgone.lt, hlive, hblocks, List.mem_append, List.mem_singleton, List.mem_cons]
      by_cases hb : b = r
      · rw [hb]
        exact iff_of_false (fun hh => hh.2 rfl) (fun hh => hh.elim hkept hri)
      · simp only [hb, false_or, ne_eq, not_false_eq_true, and_true]

theorem keep_handed_over (h : LedgerInv s) (hp : s.dev.partMemPtr = none) (chunk : List UInt8)
    (b : Nat) :
    (s.heap.alloc chunk).Live b ↔ b ∈ s.dev.buffer.blocks ++ [s.heap.issued] := by
  rw [live_alloc, h.balanced b, Driver.held, hp, Option.toList_none, List.append_nil,
    List.mem_append, List.mem_singleton]

theorem issued_freed (h : LedgerInv s) (chunk : List UInt8) :
    (∀ b, ((s.heap.alloc chunk).free (some s.heap.issued)).Live b ↔ b ∈ s.held) ∧
      ((s.heap.alloc chunk).free (some s.heap.issued)).retired.Nodup := by
  have hissued : (s.heap.alloc chunk).Live s.heap.issued := live_alloc.mpr (Or.inr rfl)
  constructor
  · intro b
    rw [live_free hissued.lt, live_alloc, ← h.balanced b]
    constructor
    · exact fun hb => hb.1.resolve_right hb.2
    · exact fun hb => ⟨Or.inl hb, hb.lt.ne⟩
  · exact retired_free_nodup hissued h.freedOnce

theorem write (h : LedgerInv s) (hc : c.NoLeak s) : LedgerInv (s.write c) := by
  have hlog' : ∃ log, Holds (s.write c) log := by
    obtain ⟨log, hlog⟩ := h.holds
    apply hlog.write_keepsBuffer
    rcases hc with hm | ⟨_, hi | hp⟩ | ⟨_, _, hp⟩
    · exact Or.inl hm
    · exact Or.inr (Or.inl hi)
    · exact Or.inr (Or.inr (Or.inl hp))
    · exact Or.inr (Or.inr (Or.inl hp))
  suffices hledger : Balanced (s.write c) ∧ (s.write c).heap.retired.Nodup by
    exact ⟨hlog', hledger.1, hledger.2⟩
  by_cases hm : c.HasMemory
  · rw [Driver.write_eq hm]
    rcases hc with hc | ⟨hn, hc⟩ | ⟨hn, hi, hp⟩
    · exact absurd hm hc
    · rw [if_pos hn]
      by_cases hi : c.env.interrupted = true
      · rw [if_pos hi]
        exact h.issued_freed c.arrived
      · have hp : s.dev.partMemPtr = none := hc.resolve_left hi
        have hcommit := h.commit_handed_over hp c.buf.length c.arrived
        simp only [hi, Bool.false_eq_true, if_false, commitWrite, staged_dev, hp, if_true, ne_eq,
          not_true_eq_false]
        constructor
        · intro b
          rw [Driver.held, Option.toList_none, List.append_nil]
          exact hcommit.1 b
        · exact hcommit.2
    · -- the new block becomes the partial buffer
      simp only [hn, hi, Bool.false_eq_true, if_false, keepPartial, staged_dev, hp,
        handlePartialData]
      exact ⟨h.keep_handed_over hp c.arrived, h.freedOnce⟩
  · rw [Driver.write_of_no_memory hm]
    exact ⟨h.balanced, h.freedOnce⟩

end LedgerInv

/-! ## A call that loses its block -/

/-- The helper never returns the chunk's block, and frees none but the pending one. -/
theorem handlePartialData_leaves {heap : Heap} {p new : Nat} {size total : Int} {env : WriteEnv}
    (hnew : heap.Live new) (hne : new ≠ p) :
    (handlePartialData heap (some p) size (some new) total env).1 ≠ some new ∧
      (handlePartialData heap (some p) size (some new) total env).2.Live new := by
  unfold handlePartialData kmalloc
  by_cases hk : kmallocSucceeds (sizeT total) env.concat = true
  · have hlt := hnew.lt
    simp only [hk, if_true]
    constructor
    · simp only [ne_eq, Option.some.injEq]
      omega
    · rw [live_free_of_ne (by simpa using hne.symm), live_memcpy, live_memcpy, live_alloc]
      exact Or.inl hnew
  · simp only [hk, Bool.false_eq_true, if_false]
    exact ⟨by simp, hnew⟩

theorem LedgerInv.not_balanced_write {s : Driver} (h : LedgerInv s) {c : WriteCall}
    (hc : ¬ c.NoLeak s) : ¬ Balanced (s.write c) := by
  -- the block the chunk was copied to stays live and is designated by nothing
  suffices hlost : (s.write c).heap.Live s.heap.issued ∧ s.heap.issued ∉ (s.write c).held by
    exact fun hbal => hlost.2 ((hbal _).mp hlost.1)
  rw [WriteCall.NoLeak, not_or, not_or, not_not] at hc
  obtain ⟨hm, hcomplete, hpartial⟩ := hc
  obtain ⟨log, hlog⟩ := h.holds
  have hfresh := hlog.fresh
  have hring : s.heap.issued ∉ s.dev.buffer.blocks :=
    fun hb => hfresh (List.mem_append_left _ hb)
  have hissued : (s.heap.alloc c.arrived).Live s.heap.issued := live_alloc.mpr (Or.inr rfl)
  rw [Driver.write_eq hm]
  by_cases hi : c.env.interrupted = true
  · have hn : NEWLINE ∉ c.arrived := fun hn => hcomplete ⟨hn, Or.inl hi⟩
    rw [if_neg hn, if_pos hi]
    exact ⟨hissued, hfresh⟩
  · obtain ⟨p, hp⟩ : ∃ p, s.dev.partMemPtr = some p := by
      apply Option.ne_none_iff_exists'.mp
      intro hnone
      by_cases hn : NEWLINE ∈ c.arrived
      · exact hcomplete ⟨hn, Or.inr hnone⟩
      · exact hpartial ⟨hn, Bool.eq_false_iff.mpr hi, hnone⟩
    have hne : s.heap.issued ≠ p := (hlog.live_of_pending hp).lt.ne'
    have hleft := @handlePartialData_leaves _ _ _ s.dev.partBufSize
      (int32 (s.dev.partBufSize + c.buf.length)) c.env hissued hne
    by_cases hn : NEWLINE ∈ c.arrived
    · rw [if_pos hn, if_neg hi]
      simp only [commitWrite, staged_dev, hp, reduceCtorEq, if_false]
      constructor
      · show Heap.Live (Heap.free _ _) _
        rw [live_free_of_ne]
        · exact hleft.2
        · exact fun hr => hring (removed_mem_blocks hlog.ring hr)
      · intro hheld
        rw [Driver.held, Option.toList_none, List.append_nil] at hheld
        rcases mem_blocks_addEntry hlog.ring hheld with hb | hb
        · exact hring hb
        · exact hleft.1 hb
    · rw [if_neg hn, if_neg hi]
      simp only [keepPartial, staged_dev, hp]
      constructor
      · exact hleft.2
      · intro hheld
        rcases List.mem_append.mp hheld with hb | hb
        · exact hring hb
        · exact hleft.1 (Option.mem_toList.mp hb)

/-! ## Removing the module -/

theorem foldl_free_buffptr (heap : Heap) (es : List AesdBufferEntry) :
    es.foldl (fun h e => h.free e.buffptr) heap =
      (es.filterMap AesdBufferEntry.buffptr).foldl (fun h b => h.free (some b)) heap := by
  induction es generalizing heap with
  | nil => rfl
  | cons e es ih =>
      rw [List.foldl_cons, ih]
      cases hp : e.buffptr with
      | none => rw [List.filterMap_cons_none hp]; rfl
      | some b => rw [List.filterMap_cons_some hp]; rfl

theorem aesdCleanupModule_eq {s : Driver} (h : RingInv s.dev.buffer) :
    aesdCleanupModule s =
      some (s.dev.buffer.blocks.foldl (fun heap b => heap.free (some b)) s.heap) := by
  rw [aesdCleanupModule, cleanupCirculatBuffers]
  rw [walk_slots h,
    foldVisit_next (fun i heap => Heap.free heap (s.dev.buffer.slot i).buffptr), id,
    AesdCircularBuffer.blocks, ← foldl_free_buffptr, ← AesdCircularBuffer.map_slot_slots,
    List.foldl_map]
  rfl

/-- Only the partial buffer can be forgotten when the module goes. -/
theorem LedgerInv.cleansUp_iff {s : Driver} (h : LedgerInv s) :
    CleansUp s ↔ s.dev.partMemPtr = none := by
  obtain ⟨log, hlog⟩ := h.holds
  have hblocks : ∀ b ∈ s.dev.buffer.blocks, b < s.heap.issued :=
    fun b hb => (hlog.live_of_blocks hb).lt
  have hretired := retired_foldl_free s.heap s.dev.buffer.blocks hblocks
  have hissued := issued_foldl_free s.heap s.dev.buffer.blocks
  have hclean : CleansUp s ↔
      ∀ b < s.heap.issued, (s.heap.retired ++ s.dev.buffer.blocks).count b = 1 := by
    simp only [CleansUp, aesdCleanupModule_eq hlog.ring, Option.some.injEq, exists_eq_left',
      hretired, hissued]
  rw [hclean]
  constructor
  · intro hall
    by_contra hp
    obtain ⟨p, hp⟩ := Option.ne_none_iff_exists'.mp hp
    have hlive := hlog.live_of_pending hp
    -- live, so not retired, and none of the ring's
    have hring : p ∉ s.dev.buffer.blocks := by
      intro hb
      exact (List.nodup_append.mp hlog.nodup).2.2 p hb p (by simp [hp]) rfl
    have hcount := hall p hlive.lt
    rw [List.count_append, List.count_eq_zero_of_not_mem hlive.2,
      List.count_eq_zero_of_not_mem hring] at hcount
    exact absurd hcount (by decide)
  · intro hp b hb
    have hheld : s.held = s.dev.buffer.blocks := by
      rw [Driver.held, hp, Option.toList_none, List.append_nil]
    have hbal := h.balanced b
    rw [hheld] at hbal
    have hnd : s.dev.buffer.blocks.Nodup := hheld ▸ hlog.nodup
    rw [List.count_append]
    by_cases hr : b ∈ s.heap.retired
    · have hring : b ∉ s.dev.buffer.blocks := fun hb' => (hbal.mpr hb').2 hr
      rw [List.count_eq_one_of_mem h.freedOnce hr, List.count_eq_zero_of_not_mem hring]
    · have hring : b ∈ s.dev.buffer.blocks := hbal.mp ⟨hb, hr⟩
      rw [List.count_eq_zero_of_not_mem hr, List.count_eq_one_of_mem hnd hring]

/-- The ledger balances throughout a run and removing the module settles it, exactly when no
chunk with a block of its own meets a pending buffer or loses the lock without a '\n', and
nothing is pending at the end. -/
theorem ledger_iff (calls : List WriteCall) :
    ((∀ pre, pre <+: calls → Balanced (aesdInitModule.writes pre)) ∧
        CleansUp (aesdInitModule.writes calls)) ↔
      Runs.Guarded Driver.write (fun s c => c.NoLeak s) aesdInitModule calls ∧
        (aesdInitModule.writes calls).dev.partMemPtr = none := by
  have hruns : (∀ pre, pre <+: calls → Balanced (aesdInitModule.writes pre)) ↔
      Runs.Guarded Driver.write (fun s c => c.NoLeak s) aesdInitModule calls :=
    Runs.forall_prefix_iff LedgerInv Balanced (fun _ h => h.balanced)
      (fun _ _ h _ hc => h.write hc) (fun _ _ h _ hc => h.not_balanced_write hc) LedgerInv.init
      (Runs.guarded_true _ _)
  rw [hruns]
  constructor
  · intro h
    have hinv := h.1.invariant LedgerInv (fun _ _ hs hc => hs.write hc) LedgerInv.init
    exact ⟨h.1, hinv.cleansUp_iff.mp h.2⟩
  · intro h
    have hinv := h.1.invariant LedgerInv (fun _ _ hs hc => hs.write hc) LedgerInv.init
    exact ⟨h.1, hinv.cleansUp_iff.mpr h.2⟩

/-- `"a"`, then `"b\n"`: the block the second chunk was copied to is never freed. -/
theorem second_chunk_leaks :
    ¬ Balanced (aesdInitModule.writes [.plain [97], .plain [98, 10]]) := by
  intro h
  have hlive : (aesdInitModule.writes [.plain [97], .plain [98, 10]]).heap.Live 1 := by decide
  exact absurd ((h 1).mp hlive) (by decide)

end AesdChar
