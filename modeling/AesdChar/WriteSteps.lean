import AesdChar.Driver
import AesdChar.RingFifo
import AesdChar.Lib.Runs

/-!
# What one write does

`aesdWrite_eq` lays a write out as the cases it can end in, over the heap that already holds the
received chunk.  `buffer_write` is what every write, failing or not, does to the ring.
-/

namespace AesdChar

open CInt

/-- The chunk as it lies in the fresh block after the user copy. -/
def WriteEnv.received (env : WriteEnv) (buf : List UInt8) : List UInt8 :=
  Heap.overwrite (freshBytes buf.length env.kmalloc) 0 (buf.take (buf.length - env.notCopied))

@[simp] theorem length_freshBytes (size : Nat) (fresh : Option (Nat → UInt8)) :
    (freshBytes size fresh).length = size := by
  simp [freshBytes]

@[simp] theorem length_received (env : WriteEnv) (buf : List UInt8) :
    (env.received buf).length = buf.length := by
  simp [WriteEnv.received]

theorem received_of_copied (env : WriteEnv) (buf : List UInt8) (h : env.notCopied = 0) :
    env.received buf = buf := by
  have hlen : buf.length ≤ (freshBytes buf.length env.kmalloc).length := by simp
  have hdrop : (freshBytes buf.length env.kmalloc).drop buf.length = [] := by simp
  rw [WriteEnv.received, h, Nat.sub_zero, List.take_length, Heap.overwrite_prefix _ _ hlen, hdrop,
    List.append_nil]

/-- The driver once the chunk is in its block, before the lock is taken. -/
def staged (s : Driver) (env : WriteEnv) (buf : List UInt8) : Driver :=
  { s with heap := s.heap.alloc (env.received buf) }

@[simp] theorem staged_dev (s : Driver) (env : WriteEnv) (buf : List UInt8) :
    (staged s env buf).dev = s.dev := rfl

@[simp] theorem staged_heap (s : Driver) (env : WriteEnv) (buf : List UInt8) :
    (staged s env buf).heap = s.heap.alloc (env.received buf) := rfl

theorem copy_to_fresh (s : Driver) (env : WriteEnv) (buf : List UInt8) :
    (s.heap.alloc (freshBytes buf.length env.kmalloc)).store s.heap.issued 0
        (buf.take (buf.length - env.notCopied)) = (staged s env buf).heap := by
  apply Heap.store_alloc
  rw [Nat.zero_add, List.length_take, length_freshBytes]
  omega

theorem foldl_partial (l : List UInt8) (n : Nat) :
    (List.range n).foldl (fun part i => if l[i]? = some NEWLINE then false else part) true =
      !decide (NEWLINE ∈ l.take n) := by
  induction n with
  | zero => simp
  | succ n ih =>
      rw [List.range_succ, List.foldl_append, ih, List.foldl_cons, List.foldl_nil,
        List.take_add_one]
      cases hn : l[n]? with
      | none => simp
      | some x =>
          by_cases hx : x = NEWLINE
          · simp [hx]
          · simp [hx, Ne.symm hx]

theorem isDataPartial_eq (l : List UInt8) : isDataPartial l l.length = !decide (NEWLINE ∈ l) := by
  rw [isDataPartial, foldl_partial, List.take_length]

theorem aesdWrite_of_no_memory (s : Driver) (env : WriteEnv) (buf : List UInt8) (fPos : Int)
    (h : kmallocSucceeds buf.length env.kmalloc = false) :
    aesdWrite s env buf fPos = ⟨-ENOMEM, fPos, s⟩ := by
  simp only [aesdWrite, kmalloc, h, Bool.false_eq_true, if_false]

/-- The ends of a write whose chunk has a block. -/
theorem aesdWrite_eq (s : Driver) (env : WriteEnv) (buf : List UInt8) (fPos : Int)
    (h : kmallocSucceeds buf.length env.kmalloc = true) :
    aesdWrite s env buf fPos =
      if NEWLINE ∈ env.received buf then
        if env.interrupted then
          ⟨0, fPos, { s with heap := (staged s env buf).heap.free (some s.heap.issued) }⟩
        else
          ⟨buf.length,
            int64 (fPos + (commitWrite (staged s env buf) env s.heap.issued buf.length).1),
            (commitWrite (staged s env buf) env s.heap.issued buf.length).2⟩
      else
        if env.interrupted then ⟨0, fPos, staged s env buf⟩
        else ⟨buf.length, fPos, keepPartial (staged s env buf) env s.heap.issued buf.length⟩ := by
  have hbytes : (staged s env buf).heap.bytes s.heap.issued = env.received buf := by
    simp [Heap.alloc]
  have hscan : isDataPartial (env.received buf) buf.length =
      !decide (NEWLINE ∈ env.received buf) := by
    rw [← isDataPartial_eq, length_received]
  simp only [aesdWrite, kmalloc, h, if_true, copy_to_fresh, hbytes, hscan]
  by_cases hn : NEWLINE ∈ env.received buf
  · simp only [hn, decide_true, Bool.not_true, if_true]
    rfl
  · simp only [hn, decide_false, Bool.not_false, Bool.true_eq_false, if_false]
    rfl

/-! ## The ring under any write -/

theorem commitWrite_buffer (s : Driver) (env : WriteEnv) (buffptr count : Nat)
    (hcount : 0 < count) (hsmall : count < 2 ^ 31) :
    ∃ e : AesdBufferEntry, 0 < e.size ∧ e.size < 2 ^ 64 ∧
      (commitWrite s env buffptr count).2.dev.buffer =
        (aesdCircularBufferAddEntry s.dev.buffer e).2 := by
  refine ⟨_, ?_, ?_, rfl⟩
  · dsimp only
    by_cases hp : s.dev.partMemPtr = none
    · rw [if_pos hp, if_neg (by decide)]
      exact hcount
    · rw [if_neg hp]
      split
      · rename_i ht
        have hb := int32_bounds (s.dev.partBufSize + count)
        exact sizeT_pos _ hb.1 hb.2 ht
      · exact hcount
  · have hbig : ∀ total : Int, (if total ≠ 0 then sizeT total else count) < 2 ^ 64 := by
      intro total
      split
      · exact sizeT_lt _
      · omega
    exact hbig _

theorem kmalloc_small {size : Nat} {fresh : Option (Nat → UInt8)}
    (h : kmallocSucceeds size fresh = true) : size < 2 ^ 31 := by
  rw [kmallocSucceeds, Bool.or_eq_true, beq_iff_eq, Bool.and_eq_true] at h
  rcases h with h | h
  · omega
  · have hlt : size < KMALLOC_LIMIT := of_decide_eq_true h.2
    exact hlt

/-- A write leaves the ring alone or adds one entry, which is never empty. -/
theorem buffer_write (s : Driver) (c : WriteCall) :
    (s.write c).dev.buffer = s.dev.buffer ∨
    ∃ e : AesdBufferEntry, 0 < e.size ∧ e.size < 2 ^ 64 ∧
      (s.write c).dev.buffer = (aesdCircularBufferAddEntry s.dev.buffer e).2 := by
  unfold Driver.write
  by_cases hk : kmallocSucceeds c.buf.length c.env.kmalloc = true
  · rw [aesdWrite_eq _ _ _ _ hk]
    by_cases hn : NEWLINE ∈ c.env.received c.buf
    · have hpos : 0 < c.buf.length := by
        rw [← length_received c.env]
        exact List.length_pos_of_mem hn
      rw [if_pos hn]
      by_cases hi : c.env.interrupted = true
      · rw [if_pos hi]
        exact Or.inl rfl
      · rw [if_neg hi]
        exact Or.inr (commitWrite_buffer (staged s c.env c.buf) c.env _ _ hpos (kmalloc_small hk))
    · rw [if_neg hn]
      split <;> exact Or.inl rfl
  · rw [aesdWrite_of_no_memory _ _ _ _ (Bool.eq_false_iff.mpr hk)]
    exact Or.inl rfl

/-- What any sequence of writes keeps of the ring. -/
structure RingReachable (b : AesdCircularBuffer) : Prop where
  inv : RingInv b
  size_pos : ∀ e ∈ b.stored, 0 < e.size

theorem RingReachable.addEntry {b : AesdCircularBuffer} (h : RingReachable b)
    {e : AesdBufferEntry} (he : 0 < e.size) : RingReachable (aesdCircularBufferAddEntry b e).2 where
  inv := ringInv_addEntry h.inv e
  size_pos := by
    intro e' he'
    rw [stored_addEntry h.inv] at he'
    rcases List.mem_append.mp ((Circular.rtake_suffix _ _).subset he') with hold | hnew
    · exact h.size_pos e' hold
    · rwa [List.mem_singleton.mp hnew]

theorem RingReachable.write {s : Driver} (h : RingReachable s.dev.buffer) (c : WriteCall) :
    RingReachable (s.write c).dev.buffer := by
  rcases buffer_write s c with hb | ⟨e, he, _, hb⟩
  · rwa [hb]
  · rw [hb]
    exact h.addEntry he

theorem RingReachable.init : RingReachable aesdCircularBufferInit where
  inv := RingInv.init
  size_pos := by simp

theorem sizes_write {s : Driver} (h : RingInv s.dev.buffer)
    (hs : ∀ e ∈ s.dev.buffer.stored, e.size < 2 ^ 64) (c : WriteCall) :
    ∀ e ∈ (s.write c).dev.buffer.stored, e.size < 2 ^ 64 := by
  rcases buffer_write s c with hb | ⟨e, _, he, hb⟩
  · rwa [hb]
  · intro e' he'
    rw [hb, stored_addEntry h] at he'
    rcases List.mem_append.mp ((Circular.rtake_suffix _ _).subset he') with hold | hnew
    · exact hs e' hold
    · rwa [List.mem_singleton.mp hnew]

theorem Reachable.sizes {s : Driver} (h : Reachable s) :
    ∀ e ∈ s.dev.buffer.stored, e.size < 2 ^ 64 := by
  obtain ⟨calls, rfl⟩ := h
  have hstep : ∀ (s : Driver) (c : WriteCall),
      RingReachable s.dev.buffer ∧ (∀ e ∈ s.dev.buffer.stored, e.size < 2 ^ 64) →
      RingReachable (s.write c).dev.buffer ∧
        ∀ e ∈ (s.write c).dev.buffer.stored, e.size < 2 ^ 64 :=
    fun _ c hs => ⟨hs.1.write c, sizes_write hs.1.inv hs.2 c⟩
  exact (Runs.invariant _ hstep (s := aesdInitModule) ⟨RingReachable.init, by simp [aesdInitModule]⟩
    calls).2

theorem Reachable.ring {s : Driver} (h : Reachable s) : RingReachable s.dev.buffer := by
  obtain ⟨calls, rfl⟩ := h
  exact Runs.invariant (fun s : Driver => RingReachable s.dev.buffer)
    (fun _ c hs => hs.write c) RingReachable.init calls

end AesdChar
