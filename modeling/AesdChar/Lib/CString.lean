import Mathlib.Data.List.TakeWhile
import Mathlib.Tactic

/-!
# C strings in a block of memory

`strncmp` and `strtok` over a list of bytes.  A string ends at its first NUL; where the list ends
without one, a NUL is taken to follow.
-/

namespace CString

/-- `strncmp (a, b, n) == 0` -/
def strncmpEq : Nat → List UInt8 → List UInt8 → Bool
  | 0, _, _ => true
  | n + 1, a, b =>
      a.headD 0 == b.headD 0 && (a.headD 0 == 0 || strncmpEq n a.tail b.tail)

theorem strncmpEq_iff_prefix (a b : List UInt8) (hb : 0 ∉ b) :
    strncmpEq b.length a b = true ↔ b <+: a := by
  -- a NUL in `a` stops the comparison, but `b` has none to match it
  induction b generalizing a with
  | nil => simp [strncmpEq]
  | cons y b ih =>
      rw [List.mem_cons, not_or] at hb
      have hy : y ≠ 0 := fun he => hb.1 he.symm
      cases a with
      | nil => simp [strncmpEq, hb.1]
      | cons x a =>
          rw [List.length_cons, strncmpEq, List.headD_cons, List.headD_cons, List.tail_cons,
            List.tail_cons, Bool.and_eq_true, beq_iff_eq, Bool.or_eq_true, beq_iff_eq, ih a hb.2,
            List.cons_prefix_cons]
          constructor
          · intro h
            exact ⟨h.1.symm, h.2.resolve_left fun hx => hy (h.1 ▸ hx)⟩
          · intro h
            exact ⟨h.1.symm, Or.inr h.2⟩

/-- The string that starts the memory. -/
def string (mem : List UInt8) : List UInt8 := mem.takeWhile (· != 0)

/-- It ends where `front` does, or before, exactly when there is a NUL. -/
theorem string_append_iff (front rest : List UInt8) :
    string (front ++ rest) = string front ↔ 0 ∈ front ∨ rest.headD 0 = 0 := by
  induction front with
  | nil =>
      cases rest with
      | nil => simp [string]
      | cons c rest =>
          by_cases hc : c = 0
          · simp [string, hc]
          · simp [string, hc]
  | cons c front ih =>
      by_cases hc : c = 0
      · simp [string, hc]
      · have hne : ¬ 0 = c := fun he => hc he.symm
        simpa [string, hc, hne] using ih

/-- What one call of `strtok` leaves: the token, or NULL, the memory, and where the next call
goes on. -/
structure Token where
  token : Option (List UInt8)
  mem : List UInt8
  next : Nat

def strtok (delim : UInt8 → Bool) (mem : List UInt8) (pos : Nat) : Token :=
  let start := pos + ((mem.drop pos).takeWhile delim).length
  let token := (mem.drop start).takeWhile fun c => c != 0 && !delim c
  let stop := start + token.length
  if token = [] then ⟨none, mem, start⟩
  else if (mem[stop]?).any delim then ⟨some token, mem.set stop 0, stop + 1⟩
  else ⟨some token, mem, stop⟩

@[simp] theorem length_strtok (delim : UInt8 → Bool) (mem : List UInt8) (pos : Nat) :
    (strtok delim mem pos).mem.length = mem.length := by
  simp only [strtok]
  split
  · rfl
  · split
    · exact List.length_set
    · rfl

theorem strtok_mem (delim : UInt8 → Bool) (mem : List UInt8) (pos : Nat) {i : Nat}
    (hi : i < mem.length) :
    (strtok delim mem pos).mem[i]? = mem[i]? ∨ (strtok delim mem pos).mem[i]? = some 0 := by
  simp only [strtok]
  split
  · exact Or.inl rfl
  · split
    · rw [List.getElem?_set]
      split
      · rename_i heq
        apply Or.inr
        rw [if_pos (heq ▸ hi)]
      · exact Or.inl rfl
    · exact Or.inl rfl

/-- The first token of a string that starts with one: the delimiter behind it becomes NUL. -/
theorem strtok_first (delim : UInt8 → Bool) (token rest : List UInt8) (d : UInt8)
    (hne : token ≠ []) (htoken : ∀ c ∈ token, c ≠ 0 ∧ delim c = false) (hd : delim d = true) :
    strtok delim (token ++ d :: rest) 0 = ⟨some token, token ++ 0 :: rest, token.length + 1⟩ := by
  have hskip : (token ++ d :: rest).takeWhile delim = [] := by
    cases token with
    | nil => exact absurd rfl hne
    | cons c token =>
        rw [List.cons_append, List.takeWhile_cons_of_neg]
        simp [(htoken c List.mem_cons_self).2]
  have htake : (token ++ d :: rest).takeWhile (fun c => c != 0 && !delim c) = token := by
    rw [List.takeWhile_append_of_pos, List.takeWhile_cons_of_neg, List.append_nil]
    · simp [hd]
    · intro c hc
      simp [htoken c hc]
  have hget : (token ++ d :: rest)[token.length]? = some d := by
    rw [List.getElem?_append_right le_rfl, Nat.sub_self]
    rfl
  simp only [strtok, List.drop_zero, hskip, List.length_nil, Nat.add_zero, htake, Nat.zero_add,
    hne, if_false, hget, Option.any_some, hd, if_true]
  rw [List.set_append_right _ _ le_rfl, Nat.sub_self, List.set_cons_zero]

/-! ## Tokens -/

/-- The maximal runs of bytes other than delimiters in the string that starts the memory. -/
def tokens (delim : UInt8 → Bool) (mem : List UInt8) : List (List UInt8) :=
  ((mem.takeWhile (· != 0)).splitOnP delim).filter fun token => !token.isEmpty

section

variable {delim : UInt8 → Bool}

theorem tokens_nil : tokens delim [] = [] := rfl

theorem tokens_nul (mem : List UInt8) : tokens delim (0 :: mem) = [] := rfl

theorem ne_nul_of_delim (hnul : delim 0 = false) {d : UInt8} (hd : delim d = true) :
    (d != 0) = true := by
  apply bne_iff_ne.mpr
  rintro rfl
  rw [hnul] at hd
  exact Bool.noConfusion hd

theorem tokens_delim (hnul : delim 0 = false) {d : UInt8} (hd : delim d = true)
    (mem : List UInt8) : tokens delim (d :: mem) = tokens delim mem := by
  unfold tokens
  rw [@List.takeWhile_cons_of_pos _ (· != 0) d mem (ne_nul_of_delim hnul hd),
    List.splitOnP_cons_eq_if_modifyHead, if_pos hd]
  rfl

theorem tokens_skip (hnul : delim 0 = false) {ds : List UInt8} (hds : ∀ d ∈ ds, delim d = true)
    (mem : List UInt8) : tokens delim (ds ++ mem) = tokens delim mem := by
  induction ds with
  | nil => rfl
  | cons d ds ih =>
      rw [List.cons_append, tokens_delim hnul (hds d List.mem_cons_self)]
      exact ih fun d' hd' => hds d' (List.mem_cons_of_mem _ hd')

theorem takeWhile_word {word : List UInt8} (hword : ∀ c ∈ word, c ≠ 0) (mem : List UInt8) :
    (word ++ mem).takeWhile (· != 0) = word ++ mem.takeWhile (· != 0) := by
  apply List.takeWhile_append_of_pos
  intro c hc
  simpa using hword c hc

theorem tokens_word (hnul : delim 0 = false) {word : List UInt8} (hne : word ≠ [])
    (hword : ∀ c ∈ word, c ≠ 0 ∧ delim c = false) {d : UInt8} (hd : delim d = true)
    (mem : List UInt8) : tokens delim (word ++ d :: mem) = word :: tokens delim mem := by
  unfold tokens
  rw [takeWhile_word (fun c hc => (hword c hc).1),
    @List.takeWhile_cons_of_pos _ (· != 0) d mem (ne_nul_of_delim hnul hd),
    List.splitOnP_append_cons_of_forall_mem (fun c hc => (hword c hc).2) d hd,
    List.filter_cons_of_pos (by simpa using hne)]

theorem tokens_last {word : List UInt8} (hne : word ≠ [])
    (hword : ∀ c ∈ word, c ≠ 0 ∧ delim c = false) {mem : List UInt8}
    (hend : mem.takeWhile (· != 0) = []) : tokens delim (word ++ mem) = [word] := by
  unfold tokens
  rw [takeWhile_word (fun c hc => (hword c hc).1), hend, List.append_nil,
    List.splitOnP_eq_singleton (fun c hc => (hword c hc).2),
    List.filter_cons_of_pos (by simpa using hne), List.filter_nil]

/-- A byte of a token. -/
def isWord (delim : UInt8 → Bool) (c : UInt8) : Bool := c != 0 && !delim c

theorem isWord_iff (c : UInt8) : isWord delim c = true ↔ c ≠ 0 ∧ delim c = false := by
  rw [isWord, Bool.and_eq_true, bne_iff_ne, Bool.not_eq_true']

/-- What is left behind a token: its delimiter is used up. -/
def behindToken (delim : UInt8 → Bool) (mem : List UInt8) : List UInt8 :=
  if mem.head?.any delim then mem.tail else mem

theorem tokens_of_stop {mem : List UInt8} (hword : ∀ c ∈ mem.head?, isWord delim c = false)
    (hdelim : ∀ c ∈ mem.head?, delim c = false) : tokens delim mem = [] := by
  cases mem with
  | nil => exact tokens_nil
  | cons c mem =>
      have hc := hword c rfl
      have hnul : c = 0 := by
        rw [isWord, hdelim c rfl, Bool.not_false, Bool.and_true] at hc
        exact bne_eq_false_iff_eq.mp hc
      rw [hnul]
      exact tokens_nul mem

theorem tokens_token (hnul : delim 0 = false) {word : List UInt8} (hne : word ≠ [])
    (hword : ∀ c ∈ word, isWord delim c = true) {mem : List UInt8}
    (hstop : ∀ c ∈ mem.head?, isWord delim c = false) :
    tokens delim (word ++ mem) = word :: tokens delim (behindToken delim mem) := by
  have hword' := fun c hc => (isWord_iff c).mp (hword c hc)
  cases mem with
  | nil => exact tokens_last hne hword' rfl
  | cons c mem =>
      rw [behindToken, List.head?_cons, Option.any_some]
      by_cases hc : delim c = true
      · rw [if_pos hc]
        exact tokens_word hnul hne hword' hc mem
      · have hnone := @tokens_of_stop delim (c :: mem) hstop (by simpa using hc)
        have hc0 : c = 0 := by
          have hcw := hstop c rfl
          rw [isWord, Bool.eq_false_iff.mpr hc, Bool.not_false, Bool.and_true] at hcw
          exact bne_eq_false_iff_eq.mp hcw
        rw [if_neg hc, hnone]
        exact tokens_last hne hword' (by rw [hc0]; rfl)

theorem head_dropWhile (p : UInt8 → Bool) (mem : List UInt8) :
    ∀ c ∈ (mem.dropWhile p).head?, p c = false := by
  intro c hc
  have h := List.head?_dropWhile_not p mem
  rw [Option.mem_def.mp hc] at h
  exact h

theorem strtok_eq {mem ds word : List UInt8} {pos : Nat}
    (hds : ds = (mem.drop pos).takeWhile delim)
    (hword : word = (mem.drop (pos + ds.length)).takeWhile (isWord delim)) :
    strtok delim mem pos =
      if word = [] then ⟨none, mem, pos + ds.length⟩
      else if (mem[pos + ds.length + word.length]?).any delim then
        ⟨some word, mem.set (pos + ds.length + word.length) 0, pos + ds.length + word.length + 1⟩
      else ⟨some word, mem, pos + ds.length + word.length⟩ := by
  subst hword hds
  rfl

/-- A call of `strtok` takes the first token, and leaves the others. -/
theorem strtok_tokens (hnul : delim 0 = false) (mem : List UInt8) (pos : Nat) :
    (strtok delim mem pos).token = (tokens delim (mem.drop pos)).head? ∧
    tokens delim ((strtok delim mem pos).mem.drop (strtok delim mem pos).next) =
      (tokens delim (mem.drop pos)).tail := by
  -- the delimiters in front, the token, and what follows it
  obtain ⟨ds, hds⟩ : ∃ ds, ds = (mem.drop pos).takeWhile delim := ⟨_, rfl⟩
  obtain ⟨mem1, hmem1⟩ : ∃ mem1, mem1 = (mem.drop pos).dropWhile delim := ⟨_, rfl⟩
  obtain ⟨word, hword⟩ : ∃ word, word = mem1.takeWhile (isWord delim) := ⟨_, rfl⟩
  obtain ⟨mem2, hmem2⟩ : ∃ mem2, mem2 = mem1.dropWhile (isWord delim) := ⟨_, rfl⟩
  have hsplit1 : mem.drop pos = ds ++ mem1 := by
    rw [hds, hmem1, List.takeWhile_append_dropWhile]
  have hsplit2 : mem1 = word ++ mem2 := by
    rw [hword, hmem2, List.takeWhile_append_dropWhile]
  have hstart : mem.drop (pos + ds.length) = mem1 := by
    rw [← List.drop_drop, hsplit1, List.drop_left]
  have hstop : mem.drop (pos + ds.length + word.length) = mem2 := by
    rw [← List.drop_drop, hstart, hsplit2, List.drop_left]
  have hskip : tokens delim (mem.drop pos) = tokens delim mem1 := by
    rw [hsplit1]
    exact tokens_skip hnul (fun d hd => List.mem_takeWhile_imp (hds ▸ hd)) mem1
  have hhead1 := head_dropWhile delim (mem.drop pos)
  have hhead2 := head_dropWhile (isWord delim) mem1
  rw [← hmem1] at hhead1
  rw [← hmem2] at hhead2
  have hget : mem[pos + ds.length + word.length]? = mem2.head? := by
    rw [← hstop, List.head?_drop]
  rw [hskip, strtok_eq hds (show word = _ by rw [hstart, hword]), hget]
  by_cases hnil : word = []
  · have hnone : tokens delim mem1 = [] := by
      rw [hnil, List.nil_append] at hsplit2
      rw [← hsplit2] at hhead2
      exact tokens_of_stop hhead2 hhead1
    rw [if_pos hnil, hstart, hnone]
    exact ⟨rfl, rfl⟩
  · have hfirst : tokens delim mem1 = word :: tokens delim (behindToken delim mem2) := by
      rw [hsplit2]
      exact tokens_token hnul hnil (fun c hc => List.mem_takeWhile_imp (hword ▸ hc)) hhead2
    rw [if_neg hnil, hfirst, List.head?_cons, List.tail_cons, behindToken]
    by_cases hdelim : mem2.head?.any delim = true
    · rw [if_pos hdelim, if_pos hdelim]
      refine ⟨rfl, ?_⟩
      rw [List.drop_set_of_lt (Nat.lt_add_one _), ← List.drop_drop, hstop, List.drop_one]
    · rw [if_neg hdelim, if_neg hdelim, hstop]
      exact ⟨rfl, rfl⟩

/-! ## One call after another -/

/-- What `k` calls leave of the memory, each going on where the one before it stopped. -/
def strtoks (delim : UInt8 → Bool) : Nat → List UInt8 → Nat → List UInt8
  | 0, mem, _ => mem
  | k + 1, mem, pos =>
      let r := strtok delim mem pos
      strtoks delim k r.mem r.next

/-- The same first `n` bytes, and the same from `pos` on. -/
def Alike (n pos : Nat) (mem mem' : List UInt8) : Prop :=
  mem.take n = mem'.take n ∧ mem.drop pos = mem'.drop pos

theorem Alike.drop {n pos : Nat} {mem mem' : List UInt8} (h : Alike n pos mem mem') (k : Nat) :
    mem.drop (pos + k) = mem'.drop (pos + k) := by
  rw [← List.drop_drop, ← List.drop_drop, h.2]

/-- A call looks at nothing in front of where it goes on. -/
theorem strtok_alike {n pos : Nat} {mem mem' : List UInt8} (h : Alike n pos mem mem') :
    (strtok delim mem pos).next = (strtok delim mem' pos).next ∧
      Alike n (strtok delim mem pos).next (strtok delim mem pos).mem
        (strtok delim mem' pos).mem := by
  obtain ⟨ds, hds⟩ : ∃ ds, ds = (mem.drop pos).takeWhile delim := ⟨_, rfl⟩
  obtain ⟨word, hword⟩ : ∃ word,
    word = (mem.drop (pos + ds.length)).takeWhile (isWord delim) := ⟨_, rfl⟩
  have hget : mem[pos + ds.length + word.length]? = mem'[pos + ds.length + word.length]? := by
    rw [Nat.add_assoc, ← @List.getElem?_drop _ mem, ← @List.getElem?_drop _ mem', h.2]
  have hds' : ds = (mem'.drop pos).takeWhile delim := by rw [← h.2, hds]
  have hword' : word = (mem'.drop (pos + ds.length)).takeWhile (isWord delim) := by
    rw [← h.drop, hword]
  rw [strtok_eq hds hword, strtok_eq hds' hword', hget]
  split
  · exact ⟨rfl, h.1, h.drop _⟩
  · split
    · -- the NUL is set at the same byte of both
      refine ⟨rfl, ?_, ?_⟩
      · rw [List.take_set, List.take_set, h.1]
      · rw [List.drop_set_of_lt (Nat.lt_add_one _), List.drop_set_of_lt (Nat.lt_add_one _)]
        have hrest := h.drop (ds.length + word.length + 1)
        rwa [← Nat.add_assoc, ← Nat.add_assoc] at hrest
    · refine ⟨rfl, h.1, ?_⟩
      rw [Nat.add_assoc]
      exact h.drop _

/-- And nothing behind where the next one goes on is changed. -/
theorem strtok_behind (mem : List UInt8) (pos : Nat) :
    (strtok delim mem pos).mem.drop (strtok delim mem pos).next =
      mem.drop (strtok delim mem pos).next := by
  simp only [strtok]
  split
  · rfl
  · split
    -- the one byte that is set lies just in front of it
    · exact List.drop_set_of_lt (Nat.lt_add_one _)
    · rfl

/-- So each call can be given the first `n` bytes as the one before it left them, and the others as
they were. -/
theorem strtok_restored {n : Nat} {mem : List UInt8} (hn : n ≤ mem.length) (pos : Nat) :
    Alike n (strtok delim mem pos).next (strtok delim mem pos).mem
      ((strtok delim mem pos).mem.take n ++ mem.drop n) := by
  have hbehind := @strtok_behind delim mem pos
  have hlen := length_strtok delim mem pos
  generalize hr : strtok delim mem pos = r at hbehind hlen ⊢
  have htake : (r.mem.take n).length = n := by
    rw [List.length_take, hlen]
    omega
  constructor
  · rw [List.take_append_of_le_length htake.ge, List.take_take, Nat.min_self]
  · calc r.mem.drop r.next
        = (r.mem.take n ++ r.mem.drop n).drop r.next := by rw [List.take_append_drop]
      _ = (r.mem.take n ++ mem.drop n).drop r.next := by
          rw [List.drop_append, List.drop_append, htake, List.drop_drop, List.drop_drop]
          congr 1
          rw [show n + (r.next - n) = r.next + (n - r.next) by omega, ← List.drop_drop, hbehind,
            List.drop_drop]

end

end CString
