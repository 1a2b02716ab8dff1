import AesdChar.Lib.CInt
import Mathlib.Data.List.TakeWhile
import Mathlib.Data.Nat.Digits.Lemmas

/-!
# Decimal numbers in C strings

`strtol` in base ten and `atoi`, on a string that ends with its list.  `long` has 64 bits, and a
value that does not fit is replaced by the nearest one that does.
-/

namespace Decimal

open CInt

def isDigit (c : UInt8) : Bool := decide (48 ≤ c.toNat ∧ c.toNat ≤ 57)

/-- Space, and `\t`, `\n`, `\v`, `\f`, `\r`. -/
def isSpace (c : UInt8) : Bool := c == 32 || decide (9 ≤ c.toNat ∧ c.toNat ≤ 13)

def value (digits : List UInt8) : Nat := digits.foldl (fun n c => 10 * n + (c.toNat - 48)) 0

def LONG_MAX : Int := 2 ^ 63 - 1
def LONG_MIN : Int := -2 ^ 63

/-- `strtol (s, NULL, 10)` -/
def strtol (s : List UInt8) : Int :=
  let s := s.dropWhile isSpace
  let digits := (if s.head? = some 45 ∨ s.head? = some 43 then s.tail else s).takeWhile isDigit
  if s.head? = some 45 then max LONG_MIN (-(value digits : Int))
  else min LONG_MAX (value digits)

def atoi (s : List UInt8) : Int := int32 (strtol s)

/-- A nonempty string of digits, of value `n`. -/
structure Numeral (s : List UInt8) (n : Nat) : Prop where
  ne_nil : s ≠ []
  digits : ∀ c ∈ s, isDigit c = true
  value_eq : value s = n

theorem Numeral.strtol {s : List UInt8} {n : Nat} (h : Numeral s n) :
    strtol s = min LONG_MAX n := by
  obtain ⟨c, s, rfl⟩ := List.exists_cons_of_ne_nil h.ne_nil
  have hc : 48 ≤ c.toNat ∧ c.toNat ≤ 57 := of_decide_eq_true (h.digits c List.mem_cons_self)
  have hspace : ¬ isSpace c = true := by
    intro hs
    rw [isSpace, Bool.or_eq_true, beq_iff_eq, decide_eq_true_iff] at hs
    rcases hs with rfl | hs
    · exact absurd hc.1 (by decide)
    · omega
  have hminus : ¬ some c = some 45 := by
    intro he
    rw [Option.some.inj he] at hc
    exact absurd hc.1 (by decide)
  have hsign : ¬ (some c = some 45 ∨ some c = some 43) := by
    rintro (he | he)
    · exact hminus he
    · rw [Option.some.inj he] at hc
      exact absurd hc.1 (by decide)
  have hall : (c :: s).takeWhile isDigit = c :: s := List.takeWhile_eq_self_iff.mpr h.digits
  dsimp only [Decimal.strtol]
  rw [List.dropWhile_cons_of_neg hspace, List.head?_cons, if_neg hsign, if_neg hminus, hall,
    h.value_eq]

/-- Nothing is lost of an unsigned 32-bit number. -/
theorem Numeral.uint32_atoi {s : List UInt8} {n : Nat} (h : Numeral s n) (hn : n < 2 ^ 32) :
    uint32 (atoi s) = n := by
  have hfits : min LONG_MAX (n : Int) = n := by
    unfold LONG_MAX
    omega
  rw [atoi, h.strtol, hfits, uint32_of_modEq (int32_modEq n), Nat.mod_eq_of_lt hn]

/-! ## Rendering -/

/-- `"%u"` -/
def render (n : Nat) : List UInt8 :=
  if n = 0 then [48] else (Nat.digits 10 n).reverse.map fun d => UInt8.ofNat (48 + d)

theorem toNat_digit {d : Nat} (h : d < 10) : (UInt8.ofNat (48 + d)).toNat = 48 + d := by
  rw [UInt8.toNat_ofNat']
  omega

theorem value_render (n : Nat) : value (render n) = n := by
  by_cases hzero : n = 0
  · rw [render, if_pos hzero, hzero]
    rfl
  · have hdigit : ∀ d ∈ Nat.digits 10 n, (UInt8.ofNat (48 + d)).toNat - 48 = d := by
      intro d hd
      rw [toNat_digit (Nat.digits_lt_base (by decide) hd), Nat.add_sub_cancel_left]
    rw [render, if_neg hzero, value, List.foldl_map, List.foldl_reverse]
    calc (Nat.digits 10 n).foldr (fun d v => 10 * v + ((UInt8.ofNat (48 + d)).toNat - 48)) 0
        = (Nat.digits 10 n).foldr (fun d v => d + 10 * v) 0 := by
          apply List.foldr_ext
          intro d hd v
          rw [hdigit d hd, Nat.add_comm]
      _ = Nat.ofDigits 10 (Nat.digits 10 n) := (Nat.ofDigits_eq_foldr 10 _).symm
      _ = n := Nat.ofDigits_digits 10 n

theorem numeral_render (n : Nat) : Numeral (render n) n := by
  refine ⟨?_, ?_, value_render n⟩
  · by_cases hzero : n = 0
    · rw [render, if_pos hzero]
      exact List.cons_ne_nil _ _
    · rw [render, if_neg hzero]
      simpa [Nat.digits_eq_nil_iff_eq_zero] using hzero
  · intro c hc
    apply decide_eq_true
    by_cases hzero : n = 0
    · rw [render, if_pos hzero, List.mem_singleton] at hc
      rw [hc]
      decide
    · rw [render, if_neg hzero, List.mem_map] at hc
      obtain ⟨d, hd, rfl⟩ := hc
      have hlt : d < 10 := Nat.digits_lt_base (by decide) (List.mem_reverse.mp hd)
      rw [toNat_digit hlt]
      omega

end Decimal
