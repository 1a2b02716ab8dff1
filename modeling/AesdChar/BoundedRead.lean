import AesdChar.DeviceReads

/-!
# What a read places in the user's buffer

A read hands out all that is left of one entry.  It never looks at `count`, and it takes an entry
at its word: where a failed concatenation left an entry without its bytes, the bytes handed out are
not the entry's.
-/

namespace AesdChar

open CInt Heap AesdCircularBuffer

/-- The bytes an entry stands for; `none` where its pointer does not lead to one. -/
def Driver.entryBytes (s : Driver) (e : AesdBufferEntry) : List (Option UInt8) :=
  (List.range e.size).map fun i => (s.heap.load e.buffptr).bind fun bs => bs[i]?

/-- The concatenation of the stored entries, oldest first. -/
def Driver.storedBytes (s : Driver) : List (Option UInt8) :=
  (s.dev.buffer.stored.map s.entryBytes).flatten

/-- At most `count` bytes, which are those at the position; the position moves behind them, and
nothing at all comes only from the end. -/
structure ExactRead (s : Driver) (count p : Nat) (r : ReadResult) : Prop where
  bound : r.data.length ≤ count
  ret : r.ret = r.data.length
  bytes : r.data.map some = (s.storedBytes.drop p).take r.data.length
  fPos : r.fPos = p + r.data.length
  dev : r.driver.dev = s.dev
  heap : r.driver.heap.bytes = s.heap.bytes
  atEnd : 0 < count → (r.ret = 0 ↔ s.dev.buffer.totalSize ≤ p)

/-- What is left of the entry that holds `p` is at most `count` bytes and lies in its block. -/
def RestFits (s : Driver) (count p : Nat) : Prop :=
  ∀ k o, k < s.dev.buffer.count → o < s.dev.buffer.sizes.getD k 0 →
    p = (s.dev.buffer.sizes.take k).sum + o →
    s.dev.buffer.sizes.getD k 0 - o ≤ count ∧
      s.heap.InBounds (s.dev.buffer.slot (s.dev.buffer.slotOf k)).buffptr o
        (s.dev.buffer.sizes.getD k 0 - o)

section

variable {s : Driver}

@[simp] theorem length_entryBytes (e : AesdBufferEntry) : (s.entryBytes e).length = e.size := by
  simp [Driver.entryBytes]

theorem storedBytes_at {p k o : Nat} (hk : k < s.dev.buffer.count)
    (ho : o < s.dev.buffer.sizes.getD k 0) (hp : p = (s.dev.buffer.sizes.take k).sum + o) :
    (s.storedBytes.drop p).take (s.dev.buffer.sizes.getD k 0 - o) =
      (s.entryBytes (s.dev.buffer.slot (s.dev.buffer.slotOf k))).drop o := by
  have hk' : k < s.dev.buffer.stored.length := by rwa [length_stored]
  have hlens : (s.dev.buffer.stored.map s.entryBytes).map List.length = s.dev.buffer.sizes := by
    rw [List.map_map, sizes]
    apply List.map_congr_left
    intro e _
    exact length_entryBytes e
  have hloc : Segments.locate ((s.dev.buffer.stored.map s.entryBytes).map List.length) p =
      some (k, o) := by
    rw [hlens]
    exact (Segments.locate_some_iff _ _ _ _).mpr ⟨by rwa [length_sizes], ho, hp⟩
  have hget : (s.dev.buffer.stored.map s.entryBytes).getD k [] =
      s.entryBytes (s.dev.buffer.slot (s.dev.buffer.slotOf k)) := by
    rw [List.getD_eq_getElem _ _ (by rwa [List.length_map]), List.getElem_map, slot_slotOf hk']
  rw [Driver.storedBytes, Segments.drop_flatten _ hloc, hget]
  apply List.take_left'
  rw [List.length_drop, length_entryBytes, size_slotOf hk]

theorem read_in_block {e : AesdBufferEntry} {o : Nat}
    (hin : s.heap.InBounds e.buffptr o (e.size - o)) (stale : Nat → UInt8) :
    (s.heap.read e.buffptr o (e.size - o) stale).map some = (s.entryBytes e).drop o := by
  obtain ⟨bs, hload, hlen⟩ := hin
  rw [read_of_load hload _ _ _ hlen]
  apply List.ext_getElem
  · simp only [List.length_map, List.length_take, List.length_drop, length_entryBytes]
    omega
  · intro i hi _
    have hi' : i < e.size - o := by simp at hi; omega
    have hbs : o + i < bs.length := by omega
    simp [Driver.entryBytes, hload, hbs]

theorem read_off_block {e : AesdBufferEntry} {o : Nat} (ho : o < e.size)
    (hin : ¬ s.heap.InBounds e.buffptr o (e.size - o)) (stale : Nat → UInt8) :
    (s.heap.read e.buffptr o (e.size - o) stale).map some ≠ (s.entryBytes e).drop o := by
  -- the entry's last byte is not there
  have hnone : (s.entryBytes e)[e.size - 1]? = some none := by
    have hlast : (List.range e.size)[e.size - 1]? = some (e.size - 1) :=
      List.getElem?_range (by omega)
    rw [Driver.entryBytes, List.getElem?_map, hlast, Option.map_some]
    cases hload : s.heap.load e.buffptr with
    | none => rfl
    | some bs =>
        have hshort : bs.length ≤ e.size - 1 := by
          by_contra hlong
          exact hin ⟨bs, hload, by omega⟩
        rw [Option.bind_some, List.getElem?_eq_none hshort]
  intro heq
  have hmem : none ∈ (s.entryBytes e).drop o := by
    apply List.mem_of_getElem? (i := e.size - 1 - o)
    rw [List.getElem?_drop, show o + (e.size - 1 - o) = e.size - 1 by omega, hnone]
  rw [← heq, List.mem_map] at hmem
  obtain ⟨c, _, hc⟩ := hmem
  exact absurd hc (by simp)

theorem Holds.storedBytes_eq {log : CommandLog} (h : Holds s log) :
    s.storedBytes = log.contents.map some := by
  have hentry : ∀ e ∈ s.dev.buffer.stored,
      s.entryBytes e = ((s.heap.load e.buffptr).getD []).map some := by
    intro e he
    obtain ⟨b, c, _, hb, hload, hlen⟩ := h.entry_load he
    have hin : s.heap.InBounds e.buffptr 0 (e.size - 0) := ⟨c, by rw [hb, hload], by omega⟩
    rw [← List.drop_zero (l := s.entryBytes e), ← read_in_block hin fun _ => 0, hb, hload,
      read_of_load hload _ _ _ (by omega), List.drop_zero, Nat.sub_zero, ← hlen, List.take_length]
    rfl
  rw [← h.contents_eq, Driver.contents, List.map_flatten, List.map_map, Driver.storedBytes]
  congr 1
  apply List.map_congr_left
  exact hentry

end

/-- Only one entry holds the position. -/
theorem restFits_at {s : Driver} {count p k o : Nat} (hk : k < s.dev.buffer.count)
    (ho : o < s.dev.buffer.sizes.getD k 0) (hp : p = (s.dev.buffer.sizes.take k).sum + o) :
    RestFits s count p ↔
      s.dev.buffer.sizes.getD k 0 - o ≤ count ∧
        s.heap.InBounds (s.dev.buffer.slot (s.dev.buffer.slotOf k)).buffptr o
          (s.dev.buffer.sizes.getD k 0 - o) := by
  constructor
  · exact fun hfits => hfits k o hk ho hp
  · intro hfit k' o' hk' ho' hp'
    obtain ⟨rfl, rfl⟩ := entry_at_unique hk ho hk' ho' (hp.symm.trans hp')
    exact hfit

/-- A read is exact precisely when what is left of the entry at its position fits the request and
lies in the entry's block. -/
theorem exactRead_iff {s : Driver} (h : Reachable s) (ht : s.dev.buffer.totalSize < 2 ^ 31)
    {env : ReadEnv} (he : env.Healthy) (count : Nat) {p : Nat} (hp : p < 2 ^ 31) :
    (∃ r, aesdRead s env count p = some r ∧ ExactRead s count p r) ↔ RestFits s count p := by
  have hring := h.ring.inv
  by_cases hend : s.dev.buffer.totalSize ≤ p
  · apply iff_of_true
    · refine ⟨_, aesdRead_past hring he count hp hend, ?_⟩
      exact ⟨Nat.zero_le _, rfl, rfl, by simp, rfl, rfl, fun _ => iff_of_true rfl hend⟩
    · intro k o _ ho hpos
      have hlt := pos_lt_totalSize ho
      omega
  · obtain ⟨k, o, hk, ho, hpos⟩ := exists_entry_at (Nat.lt_of_not_le hend)
    have hsize := size_slotOf hk
    have hbytes := storedBytes_at hk ho hpos
    have ho' : o < (s.dev.buffer.slot (s.dev.buffer.slotOf k)).size := by rwa [hsize]
    have hlen : (s.heap.read (s.dev.buffer.slot (s.dev.buffer.slotOf k)).buffptr o
        ((s.dev.buffer.slot (s.dev.buffer.slotOf k)).size - o) env.stale).length =
        (s.dev.buffer.slot (s.dev.buffer.slotOf k)).size - o := by
      simp [Heap.read]
    have hread := aesdRead_at hring ht he count hk ho hpos
    rw [restFits_at hk ho hpos, ← hsize]
    rw [← hsize] at hbytes
    constructor
    · rintro ⟨r, hr, hexact⟩
      rw [hread, Option.some.injEq] at hr
      subst hr
      constructor
      · have hbound := hexact.bound
        rwa [hlen] at hbound
      · by_contra hin
        apply read_off_block ho' hin env.stale
        have heq := hexact.bytes
        rwa [hlen, hbytes] at heq
    · rintro ⟨hfit, hin⟩
      refine ⟨_, hread, ?_⟩
      exact
        { bound := by rwa [hlen]
          ret := by rw [hlen]
          bytes := by rw [hlen, hbytes, read_in_block hin]
          fPos := by rw [hlen, Int.natCast_add]
          dev := rfl
          heap := rfl
          atEnd := fun _ => iff_of_false (by dsimp only; omega) hend }

def ReadEnv.calm : ReadEnv := ⟨false, 0, fun _ => 0⟩

theorem ReadEnv.calm_healthy : ReadEnv.calm.Healthy := ⟨rfl, rfl⟩

/-- The second byte of `"a\n"`, with room for one. -/
theorem exactRead_last_byte :
    ∃ r, aesdRead (aesdInitModule.writes [.plain [97, 10]]) .calm 1 (1 : Nat) = some r ∧
      ExactRead (aesdInitModule.writes [.plain [97, 10]]) 1 1 r := by
  apply (exactRead_iff ⟨_, rfl⟩ (by decide) ReadEnv.calm_healthy 1 (by decide)).mpr
  intro k o hk ho hp
  have hcount : (aesdInitModule.writes [.plain [97, 10]]).dev.buffer.count = 1 := by decide
  obtain rfl : k = 0 := by omega
  obtain rfl : o = 1 := by simpa using hp.symm
  exact ⟨by decide, by decide⟩

/-- A request for one byte of `"a\n"` gets both. -/
theorem read_past_count :
    Reachable (aesdInitModule.writes [.plain [97, 10]]) ∧ ReadEnv.calm.Healthy ∧
    (aesdInitModule.writes [.plain [97, 10]]).dev.buffer.totalSize = 2 ∧
    ¬ ∃ r, aesdRead (aesdInitModule.writes [.plain [97, 10]]) .calm 1 (0 : Nat) = some r ∧
      ExactRead (aesdInitModule.writes [.plain [97, 10]]) 1 0 r := by
  refine ⟨⟨_, rfl⟩, ReadEnv.calm_healthy, by decide, ?_⟩
  rintro ⟨r, hr, h⟩
  have hlen : (aesdRead (aesdInitModule.writes [.plain [97, 10]]) .calm 1 (0 : Nat)).map
      (fun r => r.data.length) = some 2 := by decide
  rw [hr, Option.map_some, Option.some.injEq] at hlen
  have hbound := h.bound
  omega

end AesdChar
