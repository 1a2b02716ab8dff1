import AesdChar.Lookup
import AesdChar.WriteHistory

/-!
# Reading the device

A read hands out what is left of the command its position lies in.  On the log, it takes a
nonempty piece from the front of what follows the position; at the end of the contents it takes
nothing.
-/

namespace AesdChar

open CInt Heap AesdCircularBuffer

structure ReadEnv.Healthy (env : ReadEnv) : Prop where
  lock : env.interrupted = false
  copied : env.notCopied = 0

instance (env : ReadEnv) : Decidable env.Healthy :=
  decidable_of_iff (env.interrupted = false ∧ env.notCopied = 0)
    ⟨fun h => ⟨h.1, h.2⟩, fun h => ⟨h.lock, h.copied⟩⟩

/-- The bytes of all stored entries, oldest first. -/
def Driver.contents (s : Driver) : List UInt8 :=
  (s.dev.buffer.stored.map fun e => (s.heap.load e.buffptr).getD []).flatten

theorem Holds.contents_eq {s : Driver} {log : CommandLog} (h : Holds s log) :
    s.contents = log.contents := by
  have hv := congrArg (List.map fun v => v.1.getD []) h.entries
  rw [Driver.view, List.map_map, List.map_map] at hv
  rw [CommandLog.contents, ← List.map_id log.commands]
  exact congrArg List.flatten hv

theorem slot_slotOf {b : AesdCircularBuffer} {k : Nat} (hk : k < b.stored.length) :
    b.slot (b.slotOf k) = b.stored[k] :=
  (Circular.getElem_window b.slot _ _ _ _ hk).symm

theorem size_slotOf {b : AesdCircularBuffer} {k : Nat} (hk : k < b.count) :
    (b.slot (b.slotOf k)).size = b.sizes.getD k 0 := by
  have hk' : k < b.stored.length := by rwa [length_stored]
  rw [slot_slotOf hk', sizes, List.getD_eq_getElem _ _ (by rwa [List.length_map]),
    List.getElem_map]

/-! ## A read of the ring -/

section

variable {s : Driver} {env : ReadEnv}

/-- A position that lies `o` bytes into the `k`-th entry: all that is left of that entry. -/
theorem aesdRead_at (h : RingInv s.dev.buffer) (ht : s.dev.buffer.totalSize < 2 ^ 31)
    (he : env.Healthy) (count : Nat) {p k o : Nat} (hk : k < s.dev.buffer.count)
    (ho : o < s.dev.buffer.sizes.getD k 0)
    (hp : p = (s.dev.buffer.sizes.take k).sum + o) :
    aesdRead s env count p =
      let entry := s.dev.buffer.slot (s.dev.buffer.slotOf k)
      let n := entry.size - o
      some ⟨n, s.heap.read entry.buffptr o n env.stale, ((p + n : Nat) : Int),
        { s with heap :=
            { s.heap with
              fault := s.heap.fault || !decide (s.heap.InBounds entry.buffptr o n) } }⟩ := by
  have hsize := size_slotOf hk
  have hend : p + ((s.dev.buffer.slot (s.dev.buffer.slotOf k)).size - o) < 2 ^ 31 := by
    have hnext := Segments.sum_take_succ_getD s.dev.buffer.sizes k
    have hle := Segments.sum_take_le s.dev.buffer.sizes (k + 1)
    rw [totalSize] at ht
    omega
  have hfar : p + ((s.dev.buffer.slot (s.dev.buffer.slotOf k)).size - o) < 2 ^ 63 :=
    lt_of_lt_of_le hend (Nat.pow_le_pow_right (by decide) (by decide))
  have hpos : sizeT (p : Int) = p := sizeT_natCast p (by omega)
  have hfind : aesdCircularBufferFindEntryOffsetForFpos s.dev.buffer p =
      some (some (s.dev.buffer.slotOf k, o)) := by
    rw [find_some_iff h (by omega) hk]
    exact ⟨ho, hp⟩
  have hn : sizeT (((s.dev.buffer.slot (s.dev.buffer.slotOf k)).size : Int) - o) =
      (s.dev.buffer.slot (s.dev.buffer.slotOf k)).size - o := by
    rw [← Int.ofNat_sub (by omega)]
    exact sizeT_natCast _ (by omega)
  have hret : int64 (((s.dev.buffer.slot (s.dev.buffer.slotOf k)).size - o : Nat) : Int) =
      ((s.dev.buffer.slot (s.dev.buffer.slotOf k)).size - o : Nat) :=
    int64_natCast _ (lt_of_le_of_lt (Nat.le_add_left _ _) hfar)
  have hfpos : int64 ((p : Int) + ((s.dev.buffer.slot (s.dev.buffer.slotOf k)).size - o : Nat)) =
      ((p + ((s.dev.buffer.slot (s.dev.buffer.slotOf k)).size - o) : Nat) : Int) := by
    rw [← Int.natCast_add]
    exact int64_natCast _ hfar
  unfold aesdRead
  rw [he.lock, hpos, hfind]
  simp only [Bool.false_eq_true, if_false, hn, he.copied, if_true, hret, hfpos]

theorem aesdRead_past (h : RingInv s.dev.buffer) (he : env.Healthy) (count : Nat) {p : Nat}
    (hp : p < 2 ^ 31) (hend : s.dev.buffer.totalSize ≤ p) :
    aesdRead s env count p = some ⟨0, [], p, s⟩ := by
  have hpos : sizeT (p : Int) = p := sizeT_natCast p (by omega)
  unfold aesdRead
  rw [he.lock, hpos, (find_none_iff h hp).mpr hend]
  rfl

end

namespace Holds

variable {s : Driver} {log : CommandLog}

theorem slot_load (h : Holds s log) {k : Nat} (hk : k < log.commands.length) :
    s.heap.load (s.dev.buffer.slot (s.dev.buffer.slotOf k)).buffptr = some log.commands[k] ∧
      (s.dev.buffer.slot (s.dev.buffer.slotOf k)).size = log.commands[k].length := by
  have hk' : k < s.dev.buffer.stored.length := by
    rw [length_stored, h.count_eq]
    exact hk
  have hview : (s.heap.load s.dev.buffer.stored[k].buffptr, s.dev.buffer.stored[k].size) =
      (some log.commands[k], log.commands[k].length) := by
    have hget := congrArg (fun l => l[k]?) h.entries
    simp only [Driver.view, List.getElem?_map, List.getElem?_eq_getElem hk',
      List.getElem?_eq_getElem hk, Option.map_some, Option.some.injEq] at hget
    exact hget
  rw [slot_slotOf hk']
  exact Prod.mk.inj hview

theorem aesdRead_end (h : Holds s log) {env : ReadEnv} (he : env.Healthy) (count : Nat) {p : Nat}
    (hp : p < 2 ^ 31) (hend : log.contents.length ≤ p) :
    aesdRead s env count p = some ⟨0, [], p, s⟩ := by
  rw [← h.totalSize_eq] at hend
  exact aesdRead_past h.ring he count hp hend

/-- Inside the contents a read takes the rest of one command. -/
theorem aesdRead_inside (h : Holds s log) {env : ReadEnv} (he : env.Healthy) (count : Nat)
    {p : Nat} (hsmall : log.contents.length < 2 ^ 31) (hp : p < log.contents.length) :
    ∃ data, data ≠ [] ∧ data <+: log.contents.drop p ∧
      (∃ c ∈ log.commands, data.length ≤ c.length) ∧
      aesdRead s env count p = some ⟨data.length, data, ((p + data.length : Nat) : Int), s⟩ := by
  have hlt : p < (log.commands.map List.length).sum := by
    rwa [← List.length_flatten]
  obtain ⟨k, o, hloc⟩ := Segments.exists_locate hlt
  obtain ⟨hk, ho, hsum⟩ := (Segments.locate_some_iff _ _ _ _).mp hloc
  rw [← h.sizes_eq] at ho hsum
  have hdrop := Segments.drop_flatten log.commands hloc
  rw [List.length_map] at hk
  have hgetD : log.commands.getD k [] = log.commands[k] := List.getD_eq_getElem _ _ hk
  obtain ⟨hload, hsize⟩ := h.slot_load hk
  have hk' : k < s.dev.buffer.count := by rwa [h.count_eq]
  have ho' : o < log.commands[k].length := by rwa [← hsize, size_slotOf hk']
  have hlen : (log.commands[k].drop o).length = log.commands[k].length - o := List.length_drop
  refine ⟨log.commands[k].drop o, ?_, ?_, ?_, ?_⟩
  · apply List.ne_nil_of_length_pos
    omega
  · rw [CommandLog.contents, hdrop, hgetD]
    exact List.prefix_append _ _
  · exact ⟨log.commands[k], List.getElem_mem hk, by omega⟩
  · have hcopy : s.heap.read (s.dev.buffer.slot (s.dev.buffer.slotOf k)).buffptr o
        (log.commands[k].length - o) env.stale = log.commands[k].drop o := by
      rw [read_of_load hload _ _ _ (by omega), ← hlen, List.take_length]
    have hin : s.heap.InBounds (s.dev.buffer.slot (s.dev.buffer.slotOf k)).buffptr o
        (log.commands[k].length - o) :=
      ⟨_, hload, by omega⟩
    rw [aesdRead_at h.ring (by rw [h.totalSize_eq]; exact hsmall) he count hk' ho hsum, hlen]
    simp only [hsize, hcopy, hin, decide_true, Bool.not_true, Bool.or_false]

end Holds

end AesdChar
