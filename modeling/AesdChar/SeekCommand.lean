import AesdChar.ClientConnection
import AesdChar.Lib.Decimal
import AesdChar.ReplyLoop

/-!
# The seek command

`seek_and_read` from the buffer to the `ioctl`.  The three tokens come from the C string that
starts the buffer: they end where it ends, not where the line does.
-/

namespace AesdChar

open CInt Decimal

structure SeekEnv where
  -- what `ioctl (fd, AESDCHAR_IOCSEEKTO, &seekto)` returns
  ioctl : AesdSeekto → Int
  -- the `k`-th results of the reply loop
  reads : Nat → Option (List UInt8)
  conn : Nat → Int → Int

/-- The requests made with `ioctl`, and what the call leaves; `none` when its loop has not left
after `fuel` rounds. -/
def seekAndRead (fuel : Nat) (env : SeekEnv) (mem pkt : List UInt8) :
    List AesdSeekto × Option Reply :=
  match seekArgs mem with
  | (some _, some arg2, some arg3, _) =>
      let seekto : AesdSeekto := ⟨uint32 (atoi arg2), uint32 (atoi arg3)⟩
      if env.ioctl seekto ≠ 0 then ([seekto], some ⟨pkt, [], []⟩)
      else
        ([seekto], (Loop.run (seekAndReadReply env.reads env.conn) fuel (0, ⟨pkt, [], []⟩)).map
          fun res => res.2)
  | _ => ([], some ⟨pkt, [], []⟩)

/-- `"AESDCHAR_IOCSEEKTO:X,Y\n"`, with numerals that a `uint32_t` holds. -/
def IsSeekCommand (line : List UInt8) (seekto : AesdSeekto) : Prop :=
  ∃ x y, line = ioctlCmd ++ (x ++ 44 :: (y ++ [NEWLINE])) ∧
    Numeral x seekto.writeCmd ∧ Numeral y seekto.writeCmdOffset ∧
    seekto.writeCmd < 2 ^ 32 ∧ seekto.writeCmdOffset < 2 ^ 32

/-- The line makes the one request it stands for, and no other line makes one. -/
structure ReadsCommand (fuel : Nat) (env : SeekEnv) (line rest pkt : List UInt8) : Prop where
  accepts : ∀ seekto, IsSeekCommand line seekto →
    (seekAndRead fuel env (line ++ rest) pkt).1 = [seekto]
  refuses : (¬ ∃ seekto, IsSeekCommand line seekto) →
    seekAndRead fuel env (line ++ rest) pkt = ([], some ⟨pkt, [], []⟩)

/-- `"AESDCHAR_IOCSEEKTO:%u,%u\n"` -/
def AesdSeekto.render (seekto : AesdSeekto) : List UInt8 :=
  ioctlCmd ++
    (Decimal.render seekto.writeCmd ++ 44 :: (Decimal.render seekto.writeCmdOffset ++ [NEWLINE]))

/-! ## Tokens of a line -/

theorem tokDelim_nul : tokDelim 0 = false := rfl

theorem seekArgs_tokens (mem : List UInt8) :
    (seekArgs (ioctlCmd ++ mem)).1 = some (ioctlCmd.take 18) ∧
    (seekArgs (ioctlCmd ++ mem)).2.1 = (CString.tokens tokDelim mem).head? ∧
    (seekArgs (ioctlCmd ++ mem)).2.2.1 = (CString.tokens tokDelim mem).tail.head? := by
  have hfirst : CString.strtok tokDelim (ioctlCmd ++ mem) 0 =
      ⟨some (ioctlCmd.take 18), ioctlCmd.take 18 ++ 0 :: mem, 19⟩ :=
    CString.strtok_first tokDelim (ioctlCmd.take 18) mem 58 (by decide) word_of_ioctlCmd (by decide)
  have hdrop : (ioctlCmd.take 18 ++ 0 :: mem).drop 19 = mem := rfl
  have hsecond := CString.strtok_tokens tokDelim_nul (ioctlCmd.take 18 ++ 0 :: mem) 19
  rw [hdrop] at hsecond
  have hthird := CString.strtok_tokens tokDelim_nul
    (CString.strtok tokDelim (ioctlCmd.take 18 ++ 0 :: mem) 19).mem
    (CString.strtok tokDelim (ioctlCmd.take 18 ++ 0 :: mem) 19).next
  rw [hsecond.2] at hthird
  simp only [seekArgs, hfirst]
  exact ⟨trivial, hsecond.1, hthird.1⟩

theorem tokens_pair {x y : List UInt8} {n m : Nat} (hx : Numeral x n) (hy : Numeral y m)
    (rest : List UInt8) :
    CString.tokens tokDelim (x ++ 44 :: (y ++ NEWLINE :: rest)) =
      x :: y :: CString.tokens tokDelim rest := by
  have hword : ∀ c : UInt8, isDigit c = true → c ≠ 0 ∧ tokDelim c = false := by
    intro c hc
    have hrange : 48 ≤ c.toNat ∧ c.toNat ≤ 57 := of_decide_eq_true hc
    have hne : ∀ d : UInt8, d.toNat < 48 ∨ 57 < d.toNat → c ≠ d := by
      rintro d hd rfl
      omega
    refine ⟨hne 0 (by decide), ?_⟩
    simp only [tokDelim, NEWLINE, beq_eq_false_iff_ne.mpr (hne 58 (by decide)),
      beq_eq_false_iff_ne.mpr (hne 44 (by decide)), beq_eq_false_iff_ne.mpr (hne 10 (by decide)),
      Bool.or_false]
  rw [CString.tokens_word tokDelim_nul hx.ne_nil (fun c hc => hword c (hx.digits c hc)) rfl,
    CString.tokens_word tokDelim_nul hy.ne_nil (fun c hc => hword c (hy.digits c hc)) rfl]

/-! ## The call -/

section

variable (fuel : Nat) (env : SeekEnv) {mem : List UInt8} (pkt : List UInt8)

theorem seekAndRead_two {arg2 arg3 : List UInt8} {more : List (List UInt8)}
    (h : CString.tokens tokDelim mem = arg2 :: arg3 :: more) :
    (seekAndRead fuel env (ioctlCmd ++ mem) pkt).1 =
      [⟨uint32 (atoi arg2), uint32 (atoi arg3)⟩] := by
  obtain ⟨h1, h2, h3⟩ := seekArgs_tokens mem
  rw [h] at h2 h3
  unfold seekAndRead
  generalize seekArgs (ioctlCmd ++ mem) = args at h1 h2 h3
  obtain ⟨_, _, _, mem'⟩ := args
  subst h1 h2 h3
  dsimp only [List.head?_cons, List.tail_cons]
  split <;> rfl

theorem seekAndRead_fewer (h : (CString.tokens tokDelim mem).length < 2) :
    seekAndRead fuel env (ioctlCmd ++ mem) pkt = ([], some ⟨pkt, [], []⟩) := by
  obtain ⟨-, -, h3⟩ := seekArgs_tokens mem
  have hnone : (CString.tokens tokDelim mem).tail.head? = none := by
    rw [List.head?_eq_none_iff, ← List.length_eq_zero_iff, List.length_tail]
    omega
  rw [hnone] at h3
  unfold seekAndRead
  generalize seekArgs (ioctlCmd ++ mem) = args at h3
  obtain ⟨arg1, arg2, _, mem'⟩ := args
  subst h3
  cases arg1 with
  | none => rfl
  | some => cases arg2 <;> rfl

theorem seekAndRead_accepts {line : List UInt8} {seekto : AesdSeekto}
    (h : IsSeekCommand line seekto) (rest : List UInt8) :
    (seekAndRead fuel env (line ++ rest) pkt).1 = [seekto] := by
  obtain ⟨x, y, rfl, hx, hy, hxlt, hylt⟩ := h
  have hpair := tokens_pair hx hy rest
  have hline : ioctlCmd ++ (x ++ 44 :: (y ++ [NEWLINE])) ++ rest =
      ioctlCmd ++ (x ++ 44 :: (y ++ NEWLINE :: rest)) := by simp
  rw [hline, seekAndRead_two fuel env pkt hpair, hx.uint32_atoi hxlt, hy.uint32_atoi hylt]

/-- A rendered pair is read back. -/
theorem seekAndRead_render {seekto : AesdSeekto} (hcmd : seekto.writeCmd < 2 ^ 32)
    (hoff : seekto.writeCmdOffset < 2 ^ 32) (rest : List UInt8) :
    (seekAndRead fuel env (seekto.render ++ rest) pkt).1 = [seekto] := by
  apply seekAndRead_accepts
  exact ⟨_, _, rfl, numeral_render _, numeral_render _, hcmd, hoff⟩

/-- The line is read as it should be exactly when it is a command, or fewer than two tokens follow
`"AESDCHAR_IOCSEEKTO:"` in memory. -/
theorem readsCommand_iff (body rest : List UInt8) :
    ReadsCommand fuel env (ioctlCmd ++ (body ++ [NEWLINE])) rest pkt ↔
      (∃ seekto, IsSeekCommand (ioctlCmd ++ (body ++ [NEWLINE])) seekto) ∨
        (CString.tokens tokDelim (body ++ NEWLINE :: rest)).length < 2 := by
  have hline : ioctlCmd ++ (body ++ [NEWLINE]) ++ rest =
      ioctlCmd ++ (body ++ NEWLINE :: rest) := by simp
  constructor
  · intro h
    by_cases hcmd : ∃ seekto, IsSeekCommand (ioctlCmd ++ (body ++ [NEWLINE])) seekto
    · exact Or.inl hcmd
    · apply Or.inr
      have hnone := h.refuses hcmd
      rw [hline] at hnone
      by_contra htwo
      obtain ⟨arg2, arg3, more, htokens⟩ : ∃ arg2 arg3 more,
          CString.tokens tokDelim (body ++ NEWLINE :: rest) = arg2 :: arg3 :: more := by
        match htok : CString.tokens tokDelim (body ++ NEWLINE :: rest) with
        | [] => rw [htok] at htwo; exact absurd (by decide) htwo
        | [_] => rw [htok] at htwo; exact absurd (by simp) htwo
        | arg2 :: arg3 :: more => exact ⟨arg2, arg3, more, rfl⟩
      have hrequest := seekAndRead_two fuel env pkt htokens
      rw [hnone] at hrequest
      exact absurd hrequest.symm (List.cons_ne_nil _ _)
  · intro h
    constructor
    · intro seekto hcmd
      exact seekAndRead_accepts fuel env pkt hcmd rest
    · intro hnot
      rcases h with hcmd | hfew
      · exact absurd hcmd hnot
      · rw [hline]
        exact seekAndRead_fewer fuel env pkt hfew

end

/-- `"AESDCHAR_IOCSEEKTO:a,b\n"` seeks to the first byte of the first command. -/
theorem letters_make_a_request :
    ¬ ReadsCommand 1 ⟨fun _ => -1, fun _ => none, fun _ n => n⟩
      (ioctlCmd ++ ([97, 44, 98] ++ [NEWLINE])) [] [] := by
  intro h
  have hnone := h.refuses (by
    rintro ⟨seekto, x, y, hline, hx, -⟩
    obtain ⟨c, x, rfl⟩ := List.exists_cons_of_ne_nil hx.ne_nil
    have hc : (97 : UInt8) = c := (List.cons.inj (List.append_cancel_left hline)).1
    have := hx.digits c List.mem_cons_self
    rw [← hc] at this
    exact absurd this (by decide))
  have hrequest : (seekAndRead 1 ⟨fun _ => -1, fun _ => none, fun _ n => n⟩
    (ioctlCmd ++ ([97, 44, 98] ++ [NEWLINE]) ++ []) []).1 = [⟨0, 0⟩] := by decide
  rw [hnone] at hrequest
  exact absurd hrequest.symm (List.cons_ne_nil _ _)

end AesdChar
