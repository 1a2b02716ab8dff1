import Mathlib.Logic.Function.Basic
import Mathlib.Tactic

/-!
# A heap of byte blocks

Blocks are issued under consecutive ids and retired when they are freed; an id is never issued
twice.  A pointer is `none` (NULL) or the start of a block.  An access that leaves its block, or
a free of something that is not live, raises `fault` and execution goes on, with arbitrary bytes
in place of those read out of bounds.
-/

structure Heap where
  -- the ids issued so far are those below this one
  issued : Nat
  -- every block handed to `free`, in order
  retired : List Nat
  bytes : Nat → List UInt8
  fault : Bool
  retired_lt : ∀ b ∈ retired, b < issued

namespace Heap

def empty : Heap where
  issued := 0
  retired := []
  bytes := fun _ => []
  fault := false
  retired_lt := by simp

def Live (h : Heap) (b : Nat) : Prop := b < h.issued ∧ b ∉ h.retired

instance (h : Heap) (b : Nat) : Decidable (h.Live b) :=
  inferInstanceAs (Decidable (_ ∧ _))

def alloc (h : Heap) (contents : List UInt8) : Heap where
  issued := h.issued + 1
  retired := h.retired
  bytes := Function.update h.bytes h.issued contents
  fault := h.fault
  retired_lt := fun b hb => Nat.lt_succ_of_lt (h.retired_lt b hb)

def free (h : Heap) : Option Nat → Heap
  | none => h
  | some b =>
      if hb : b < h.issued then
        { h with
          retired := h.retired ++ [b]
          fault := h.fault || !decide (h.Live b)
          retired_lt := by
            intro c hc
            rcases List.mem_append.mp hc with hc | hc
            · exact h.retired_lt c hc
            · rwa [List.mem_singleton.mp hc] }
      else { h with fault := true }

/-- The contents of the live block a pointer designates. -/
def load (h : Heap) : Option Nat → Option (List UInt8)
  | none => none
  | some b => if h.Live b then some (h.bytes b) else none

def InBounds (h : Heap) (p : Option Nat) (off n : Nat) : Prop :=
  ∃ bs, h.load p = some bs ∧ off + n ≤ bs.length

instance (h : Heap) (p : Option Nat) (off n : Nat) : Decidable (h.InBounds p off n) :=
  match hp : h.load p with
  | none => isFalse (by simp [InBounds, hp])
  | some bs => decidable_of_iff (off + n ≤ bs.length) (by simp [InBounds, hp])

def rawBytes (h : Heap) : Option Nat → List UInt8
  | none => []
  | some b => h.bytes b

/-- `n` bytes from offset `off`; `stale` stands for what lies outside the block. -/
def read (h : Heap) (p : Option Nat) (off n : Nat) (stale : Nat → UInt8) : List UInt8 :=
  (List.range n).map fun i => ((h.rawBytes p)[off + i]?).getD (stale i)

/-- `block` with `data` written at `off`, cut to the block. -/
def overwrite (block : List UInt8) (off : Nat) (data : List UInt8) : List UInt8 :=
  block.take off ++ data.take (block.length - off) ++ block.drop (off + data.length)

def store (h : Heap) (b off : Nat) (data : List UInt8) : Heap :=
  { h with
    bytes := Function.update h.bytes b (overwrite (h.bytes b) off data)
    fault := h.fault || !decide (h.InBounds (some b) off data.length) }

def memcpy (h : Heap) (dst dstOff : Nat) (src : Option Nat) (srcOff n : Nat)
    (stale : Nat → UInt8) : Heap :=
  let stored := h.store dst dstOff (h.read src srcOff n stale)
  { stored with fault := stored.fault || !decide (h.InBounds src srcOff n) }

@[ext] theorem ext {h h' : Heap} (hi : h.issued = h'.issued) (hr : h.retired = h'.retired)
    (hb : h.bytes = h'.bytes) (hf : h.fault = h'.fault) : h = h' := by
  cases h
  cases h'
  simp only [mk.injEq]
  exact ⟨hi, hr, hb, hf⟩

/-! ## Reading and writing inside a block -/

theorem map_range_getElem (l : List UInt8) (off n : Nat) (stale : Nat → UInt8)
    (h : off + n ≤ l.length) :
    (List.range n).map (fun i => (l[off + i]?).getD (stale i)) = (l.drop off).take n := by
  apply List.ext_getElem
  · simp only [List.length_map, List.length_range, List.length_take, List.length_drop]
    omega
  · intro i hi _
    have hin : i < n := by simpa using hi
    simp only [List.getElem_map, List.getElem_range, List.getElem_take, List.getElem_drop]
    rw [List.getElem?_eq_getElem (by omega), Option.getD_some]

theorem rawBytes_of_load {h : Heap} {p : Option Nat} {bs : List UInt8} (hl : h.load p = some bs) :
    h.rawBytes p = bs := by
  cases p with
  | none => simp [load] at hl
  | some b =>
      simp only [load, Option.ite_none_right_eq_some, Option.some.injEq] at hl
      exact hl.2

theorem read_of_load {h : Heap} {p : Option Nat} {bs : List UInt8} (hl : h.load p = some bs)
    (off n : Nat) (stale : Nat → UInt8) (hn : off + n ≤ bs.length) :
    h.read p off n stale = (bs.drop off).take n := by
  rw [read, rawBytes_of_load hl, map_range_getElem _ _ _ _ hn]

theorem overwrite_append (pre rest data : List UInt8) (h : data.length ≤ rest.length) :
    overwrite (pre ++ rest) pre.length data = pre ++ (data ++ rest.drop data.length) := by
  rw [overwrite, List.take_left, List.length_append, Nat.add_sub_cancel_left,
    List.take_of_length_le h, List.append_assoc, List.drop_append,
    List.drop_of_length_le (by omega), List.nil_append, Nat.add_sub_cancel_left]

theorem overwrite_prefix (block data : List UInt8) (h : data.length ≤ block.length) :
    overwrite block 0 data = data ++ block.drop data.length :=
  overwrite_append [] block data h

theorem overwrite_suffix (pre rest data : List UInt8) (h : rest.length = data.length) :
    overwrite (pre ++ rest) pre.length data = pre ++ data := by
  rw [overwrite_append pre rest data h.ge, ← h, List.drop_length, List.append_nil]

@[simp] theorem length_overwrite (block data : List UInt8) (off : Nat) :
    (overwrite block off data).length = block.length := by
  simp only [overwrite, List.length_append, List.length_take, List.length_drop]
  omega

/-! ## What survives an operation -/

theorem Live.lt {h : Heap} {b : Nat} (hb : h.Live b) : b < h.issued := hb.1

theorem load_of_live {h : Heap} {b : Nat} (hb : h.Live b) : h.load (some b) = some (h.bytes b) :=
  if_pos hb

theorem live_of_load {h : Heap} {b : Nat} {bs : List UInt8} (hl : h.load (some b) = some bs) :
    h.Live b := by
  by_contra hn
  simp [load, hn] at hl

theorem load_isSome_iff {h : Heap} {b : Nat} : (h.load (some b)).isSome ↔ h.Live b := by
  simp [load]

@[simp] theorem issued_alloc (h : Heap) (c : List UInt8) : (h.alloc c).issued = h.issued + 1 := rfl

@[simp] theorem retired_alloc (h : Heap) (c : List UInt8) : (h.alloc c).retired = h.retired := rfl

@[simp] theorem fault_alloc (h : Heap) (c : List UInt8) : (h.alloc c).fault = h.fault := rfl

theorem live_alloc {h : Heap} {c : List UInt8} {b : Nat} :
    (h.alloc c).Live b ↔ h.Live b ∨ b = h.issued := by
  simp only [Live, issued_alloc, retired_alloc]
  constructor
  · rintro ⟨hlt, hr⟩
    by_cases hb : b = h.issued
    · exact Or.inr hb
    · exact Or.inl ⟨by omega, hr⟩
  · rintro (⟨hlt, hr⟩ | rfl)
    · exact ⟨by omega, hr⟩
    · exact ⟨by omega, fun hr => absurd (h.retired_lt _ hr) (lt_irrefl _)⟩

@[simp] theorem load_alloc_self (h : Heap) (c : List UInt8) :
    (h.alloc c).load (some h.issued) = some c := by
  rw [load_of_live (live_alloc.mpr (Or.inr rfl))]
  simp [alloc]

theorem load_alloc_of_lt {h : Heap} {c : List UInt8} {b : Nat} (hb : b < h.issued) :
    (h.alloc c).load (some b) = h.load (some b) := by
  have hne : b ≠ h.issued := by omega
  have hlive : (h.alloc c).Live b ↔ h.Live b := by rw [live_alloc, or_iff_left hne]
  have hbytes : (h.alloc c).bytes b = h.bytes b := Function.update_of_ne hne _ _
  simp only [load, hlive, hbytes]

theorem load_alloc_of_load {h : Heap} {c bs : List UInt8} {p : Option Nat}
    (hl : h.load p = some bs) : (h.alloc c).load p = some bs := by
  cases p with
  | none => simp [load] at hl
  | some b => rw [load_alloc_of_lt (live_of_load hl).lt, hl]

@[simp] theorem issued_free (h : Heap) (p : Option Nat) : (h.free p).issued = h.issued := by
  cases p with
  | none => rfl
  | some b =>
      rw [free]
      split <;> rfl

theorem retired_free {h : Heap} {b : Nat} (hb : b < h.issued) :
    (h.free (some b)).retired = h.retired ++ [b] := by
  rw [free, dif_pos hb]

@[simp] theorem bytes_free (h : Heap) (p : Option Nat) : (h.free p).bytes = h.bytes := by
  cases p with
  | none => rfl
  | some b =>
      rw [free]
      split <;> rfl

theorem fault_free {h : Heap} {b : Nat} (hb : h.Live b) :
    (h.free (some b)).fault = h.fault := by
  rw [free, dif_pos hb.lt]
  simp [hb]

theorem live_free {h : Heap} {b c : Nat} (hb : b < h.issued) :
    (h.free (some b)).Live c ↔ h.Live c ∧ c ≠ b := by
  simp only [Live, issued_free, retired_free hb, List.mem_append, List.mem_singleton, not_or,
    and_assoc]

theorem load_free_of_ne {h : Heap} {p : Option Nat} {b : Nat} (hne : p ≠ some b) :
    (h.free p).load (some b) = h.load (some b) := by
  cases p with
  | none => rfl
  | some c =>
      have hcb : b ≠ c := fun hcb => hne (congrArg some hcb.symm)
      by_cases hc : c < h.issued
      · simp only [load, live_free hc, ne_eq, hcb, not_false_eq_true, and_true, bytes_free]
      · rw [free, dif_neg hc]
        rfl

@[simp] theorem live_memcpy {h : Heap} {dst dstOff srcOff n : Nat} {src : Option Nat}
    {stale : Nat → UInt8} {b : Nat} : (h.memcpy dst dstOff src srcOff n stale).Live b ↔ h.Live b :=
  Iff.rfl

theorem live_free_of_ne {h : Heap} {p : Option Nat} {b : Nat} (hne : p ≠ some b) :
    (h.free p).Live b ↔ h.Live b := by
  rw [← load_isSome_iff, ← load_isSome_iff, load_free_of_ne hne]

theorem retired_free_nodup {h : Heap} {b : Nat} (hb : h.Live b) (hr : h.retired.Nodup) :
    (h.free (some b)).retired.Nodup := by
  rw [retired_free hb.lt]
  exact List.nodup_append.mpr ⟨hr, List.nodup_singleton b, fun c hc d hd hcd => by
    rw [List.mem_singleton.mp hd] at hcd
    exact hb.2 (hcd ▸ hc)⟩

theorem retired_foldl_free (h : Heap) (bs : List Nat) (hbs : ∀ b ∈ bs, b < h.issued) :
    (bs.foldl (fun h b => h.free (some b)) h).retired = h.retired ++ bs := by
  induction bs generalizing h with
  | nil => rw [List.foldl_nil, List.append_nil]
  | cons b bs ih =>
      rw [List.foldl_cons, ih _ (fun c hc => by
        rw [issued_free]
        exact hbs c (List.mem_cons_of_mem _ hc)), retired_free (hbs b List.mem_cons_self),
        List.append_assoc, List.singleton_append]

theorem issued_foldl_free (h : Heap) (bs : List Nat) :
    (bs.foldl (fun h b => h.free (some b)) h).issued = h.issued := by
  induction bs generalizing h with
  | nil => rfl
  | cons b bs ih => rw [List.foldl_cons, ih, issued_free]

theorem load_free_alloc {h : Heap} {c : List UInt8} {b : Nat} (hb : b < h.issued) :
    ((h.alloc c).free (some h.issued)).load (some b) = h.load (some b) := by
  rw [load_free_of_ne (by simp only [ne_eq, Option.some.injEq]; omega), load_alloc_of_lt hb]

theorem store_alloc (h : Heap) (c data : List UInt8) (off : Nat)
    (hn : off + data.length ≤ c.length) :
    (h.alloc c).store h.issued off data = h.alloc (overwrite c off data) := by
  have hin : (h.alloc c).InBounds (some h.issued) off data.length :=
    ⟨c, load_alloc_self h c, hn⟩
  apply Heap.ext
  · rfl
  · rfl
  · simp [store, alloc]
  · change (h.fault || !decide ((h.alloc c).InBounds (some h.issued) off data.length)) = h.fault
    rw [decide_eq_true hin, Bool.not_true, Bool.or_false]

theorem memcpy_alloc {h : Heap} {c bs : List UInt8} {src : Option Nat}
    (hsrc : h.load src = some bs) (dstOff srcOff n : Nat) (stale : Nat → UInt8)
    (hdst : dstOff + n ≤ c.length) (hn : srcOff + n ≤ bs.length) :
    (h.alloc c).memcpy h.issued dstOff src srcOff n stale =
      h.alloc (overwrite c dstOff ((bs.drop srcOff).take n)) := by
  have hload : (h.alloc c).load src = some bs := load_alloc_of_load hsrc
  have hin : (h.alloc c).InBounds src srcOff n := ⟨bs, hload, hn⟩
  have hlen : ((bs.drop srcOff).take n).length = n := by
    rw [List.length_take, List.length_drop]
    omega
  rw [memcpy, read_of_load hload _ _ _ hn, store_alloc _ _ _ _ (by rw [hlen]; exact hdst)]
  apply Heap.ext <;> simp [decide_eq_true hin]

/-! ## Stores -/

@[simp] theorem live_store {h : Heap} {b off c : Nat} {data : List UInt8} :
    (h.store b off data).Live c ↔ h.Live c := Iff.rfl

theorem load_store_of_ne {h : Heap} {b off c : Nat} {data : List UInt8} (hne : c ≠ b) :
    (h.store b off data).load (some c) = h.load (some c) := by
  have hbytes : (h.store b off data).bytes c = h.bytes c := Function.update_of_ne hne _ _
  simp only [load, live_store, hbytes]

theorem load_store_self {h : Heap} {b off : Nat} {bs data : List UInt8}
    (hl : h.load (some b) = some bs) :
    (h.store b off data).load (some b) = some (overwrite bs off data) := by
  have hbytes : (h.store b off data).bytes b = overwrite (h.bytes b) off data :=
    Function.update_self _ _ _
  rw [load_of_live (live_store.mpr (live_of_load hl)), hbytes]
  rw [load_of_live (live_of_load hl), Option.some.injEq] at hl
  rw [hl]

theorem fault_store {h : Heap} {b off : Nat} {bs data : List UInt8}
    (hl : h.load (some b) = some bs) (hn : off + data.length ≤ bs.length) :
    (h.store b off data).fault = h.fault := by
  have hin : h.InBounds (some b) off data.length := ⟨bs, hl, hn⟩
  show (h.fault || !decide (h.InBounds (some b) off data.length)) = h.fault
  rw [decide_eq_true hin, Bool.not_true, Bool.or_false]

/-! ## Freed once -/

/-- A block that is freed twice raises the fault. -/
def FreedOnce (h : Heap) : Prop := h.fault = false → h.retired.Nodup

namespace FreedOnce

variable {h h' : Heap}

theorem same (hf : h.FreedOnce) (hretired : h'.retired = h.retired)
    (hfault : h'.fault = false → h.fault = false) : h'.FreedOnce := by
  intro hno
  rw [hretired]
  exact hf (hfault hno)

theorem alloc (hf : h.FreedOnce) (contents : List UInt8) : (h.alloc contents).FreedOnce :=
  hf.same rfl id

theorem store (hf : h.FreedOnce) (b off : Nat) (data : List UInt8) :
    (h.store b off data).FreedOnce :=
  hf.same rfl fun hno => (Bool.or_eq_false_iff.mp hno).1

theorem memcpy (hf : h.FreedOnce) (dst dstOff : Nat) (src : Option Nat) (srcOff n : Nat)
    (stale : Nat → UInt8) : (h.memcpy dst dstOff src srcOff n stale).FreedOnce :=
  (hf.store dst dstOff (h.read src srcOff n stale)).same rfl
    fun hno => (Bool.or_eq_false_iff.mp hno).1

theorem free (hf : h.FreedOnce) (p : Option Nat) : (h.free p).FreedOnce := by
  cases p with
  | none => exact hf
  | some b =>
      intro hno
      by_cases hb : h.Live b
      · rw [fault_free hb] at hno
        exact retired_free_nodup hb (hf hno)
      · by_cases hlt : b < h.issued
        · rw [Heap.free, dif_pos hlt] at hno
          simp [hb] at hno
        · rw [Heap.free, dif_neg hlt] at hno
          simp at hno

end FreedOnce

/-! ## Frees in another order -/

theorem retired_free_some (h : Heap) (b : Nat) :
    (h.free (some b)).retired = h.retired ++ if b < h.issued then [b] else [] := by
  by_cases hb : b < h.issued
  · rw [retired_free hb, if_pos hb]
  · rw [free, dif_neg hb, if_neg hb, List.append_nil]

theorem fault_free_some (h : Heap) (b : Nat) :
    (h.free (some b)).fault = (h.fault || !decide (h.Live b)) := by
  by_cases hb : b < h.issued
  · rw [free, dif_pos hb]
  · have hdead : ¬ h.Live b := fun hl => hb hl.lt
    rw [free, dif_neg hb, decide_eq_false hdead, Bool.not_false, Bool.or_true]

theorem live_free_some (h : Heap) (b c : Nat) : (h.free (some b)).Live c ↔ h.Live c ∧ c ≠ b := by
  by_cases hb : b < h.issued
  · exact live_free hb
  · rw [Live, issued_free, retired_free_some, if_neg hb, List.append_nil]
    constructor
    · exact fun hc => ⟨hc, fun he => hb (he ▸ hc.1)⟩
    · exact fun hc => hc.1

/-- The same heap but for the order in which blocks were freed. -/
structure Reordered (h h' : Heap) : Prop where
  issued : h.issued = h'.issued
  retired : h.retired.Perm h'.retired
  bytes : h.bytes = h'.bytes
  fault : h.fault = h'.fault

namespace Reordered

variable {h h' h'' : Heap}

theorem refl (h : Heap) : h.Reordered h := ⟨rfl, .refl _, rfl, rfl⟩

theorem trans (hr : h.Reordered h') (hr' : h'.Reordered h'') : h.Reordered h'' :=
  ⟨hr.issued.trans hr'.issued, hr.retired.trans hr'.retired, hr.bytes.trans hr'.bytes,
    hr.fault.trans hr'.fault⟩

theorem live (hr : h.Reordered h') (b : Nat) : h.Live b ↔ h'.Live b := by
  rw [Live, Live, hr.issued, hr.retired.mem_iff]

theorem free (hr : h.Reordered h') (b : Nat) :
    (h.free (some b)).Reordered (h'.free (some b)) where
  issued := by rw [issued_free, issued_free, hr.issued]
  retired := by
    rw [retired_free_some, retired_free_some, hr.issued]
    exact hr.retired.append_right _
  bytes := by rw [bytes_free, bytes_free, hr.bytes]
  fault := by rw [fault_free_some, fault_free_some, hr.fault, decide_eq_decide.mpr (hr.live b)]

theorem foldl_free (hr : h.Reordered h') (bs : List Nat) :
    (bs.foldl (fun h b => h.free (some b)) h).Reordered
      (bs.foldl (fun h b => h.free (some b)) h') := by
  induction bs generalizing h h' with
  | nil => exact hr
  | cons b bs ih => exact ih (hr.free b)

/-- Two frees, either way round; of one block twice, both see the fault. -/
theorem swap (h : Heap) (b c : Nat) :
    ((h.free (some b)).free (some c)).Reordered ((h.free (some c)).free (some b)) where
  issued := by simp only [issued_free]
  retired := by
    simp only [retired_free_some, issued_free, List.append_assoc]
    exact List.perm_append_comm.append_left h.retired
  bytes := by simp only [bytes_free]
  fault := by
    simp only [fault_free_some, live_free_some, Bool.decide_and]
    by_cases hbc : b = c
    · rw [hbc]
    · have hcb : c ≠ b := fun he => hbc he.symm
      simp only [hbc, hcb, ne_eq, not_false_eq_true, decide_true, Bool.and_true]
      rw [Bool.or_assoc, Bool.or_assoc, Bool.or_comm (!decide (h.Live b))]

/-- The same frees in any order. -/
theorem of_perm {bs cs : List Nat} (hp : bs.Perm cs) (h : Heap) :
    (bs.foldl (fun h b => h.free (some b)) h).Reordered
      (cs.foldl (fun h b => h.free (some b)) h) := by
  induction hp generalizing h with
  | nil => exact refl h
  | cons b _ ih => exact ih _
  | swap b c bs => exact (swap h c b).foldl_free bs
  | trans _ _ ih ih' => exact (ih h).trans (ih' h)

end Reordered

end Heap
