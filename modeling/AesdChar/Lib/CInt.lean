import Mathlib.Tactic

/-!
# Fixed-width C integers

Values are kept as mathematical integers.  A conversion to a C type keeps the residue modulo
the width of the type: `toUnsigned` yields the nonnegative residue, `toSigned` reads it as two's
complement.
-/

namespace CInt

def toUnsigned (modulus : Nat) (i : Int) : Nat := (i % modulus).toNat

def toSigned (modulus : Nat) (i : Int) : Int :=
  let residue := i % modulus
  if 2 * residue < modulus then residue else residue - modulus

def uint32 (i : Int) : Nat := toUnsigned 4294967296 i

/-- `size_t` on a 64-bit target. -/
def sizeT (i : Int) : Nat := toUnsigned 18446744073709551616 i

def int32 (i : Int) : Int := toSigned 4294967296 i

/-- `loff_t` and `ssize_t`. -/
def int64 (i : Int) : Int := toSigned 18446744073709551616 i

theorem toUnsigned_of_lt (modulus : Nat) (i : Int) (hlo : 0 ≤ i) (hhi : i < modulus) :
    toUnsigned modulus i = i.toNat := by
  rw [toUnsigned, Int.emod_eq_of_lt hlo hhi]

theorem toSigned_of_lt (modulus : Nat) (i : Int) (hlo : 0 ≤ i) (hhi : 2 * i < modulus) :
    toSigned modulus i = i := by
  simp only [toSigned]
  rw [Int.emod_eq_of_lt hlo (by omega), if_pos hhi]

theorem toSigned_emod (modulus : Nat) (i : Int) : toSigned modulus i % modulus = i % modulus := by
  simp only [toSigned]
  split
  · exact Int.emod_emod _ _
  · rw [Int.sub_emod_right, Int.emod_emod]

theorem toSigned_congr {modulus : Nat} {i j : Int} (h : i % modulus = j % modulus) :
    toSigned modulus i = toSigned modulus j := by
  unfold toSigned
  rw [h]

/-- A sum narrowed again on the way. -/
theorem int64_add (i j : Int) : int64 (int64 i + j) = int64 (i + j) := by
  apply toSigned_congr
  rw [Int.add_emod, int64, toSigned_emod, ← Int.add_emod]

/-! ## Residues modulo 2^32 -/

theorem int32_modEq (i : Int) : int32 i ≡ i [ZMOD 4294967296] :=
  toSigned_emod 4294967296 i

theorem sizeT_modEq (i : Int) : (sizeT i : Int) ≡ i [ZMOD 4294967296] := by
  have hpos : 0 ≤ i % (18446744073709551616 : Nat) := Int.emod_nonneg i (by decide)
  unfold sizeT toUnsigned
  rw [Int.toNat_of_nonneg hpos]
  exact Int.emod_emod_of_dvd i (by decide)

theorem int32_of_modEq {i j : Int} (h : i ≡ j [ZMOD 4294967296]) : int32 i = int32 j :=
  toSigned_congr h

/-- An `int` computed through `size_t`. -/
theorem int32_sizeT_sub (i j : Int) : int32 (sizeT i - j) = int32 (i - j) :=
  int32_of_modEq ((sizeT_modEq i).sub_right j)

theorem int32_sub (i j : Int) : int32 (int32 i - j) = int32 (i - j) :=
  int32_of_modEq ((int32_modEq i).sub_right j)

theorem int32_mod (n : Nat) : int32 ((n % 2 ^ 32 : Nat) : Int) = int32 n := by
  apply int32_of_modEq
  rw [Int.natCast_emod]
  exact Int.mod_modEq _ _

theorem uint32_of_modEq {i : Int} {n : Nat} (h : i ≡ n [ZMOD 4294967296]) :
    uint32 i = n % 2 ^ 32 := by
  unfold uint32 toUnsigned
  rw [show ((4294967296 : Nat) : Int) = 4294967296 from rfl, h]
  exact Int.toNat_natCast (n % 4294967296)

/-- `uint32_t += size_t - int` on a running total, whatever wraps on the way. -/
theorem uint32_accumulate {c t t' new old : Nat} (hc : c = t % 2 ^ 32) (ht : t' + old = t + new) :
    uint32 (c + sizeT (new - int32 old)) = t' % 2 ^ 32 := by
  have hcount : (c : Int) ≡ t [ZMOD 4294967296] := by
    rw [hc]
    exact Int.mod_modEq t 4294967296
  have hdiff : (sizeT (new - int32 old) : Int) ≡ new - old [ZMOD 4294967296] :=
    (sizeT_modEq _).trans ((int32_modEq old).sub_left new)
  apply uint32_of_modEq
  have hsum := hcount.add hdiff
  rwa [show (t : Int) + (new - old) = t' by omega] at hsum

/-! ## Values in range -/

theorem sizeT_le (n : Nat) : sizeT n ≤ n := by
  unfold sizeT toUnsigned
  omega

theorem sizeT_natCast (n : Nat) (h : n < 18446744073709551616) : sizeT n = n := by
  rw [sizeT, toUnsigned_of_lt _ _ (by omega) (by omega)]
  exact Int.toNat_natCast n

theorem int32_natCast (n : Nat) (h : n < 2 ^ 31) : int32 n = n :=
  toSigned_of_lt _ _ (by omega) (by omega)

theorem int64_natCast (n : Nat) (h : n < 2 ^ 63) : int64 n = n :=
  toSigned_of_lt _ _ (by omega) (by omega)

theorem int64_ne_zero (n : Nat) (hlo : 0 < n) (hhi : n < 2 ^ 64) : int64 n ≠ 0 := by
  simp only [int64, toSigned]
  split <;> omega

theorem int32_bounds (i : Int) : -(2 ^ 31 : Int) ≤ int32 i ∧ int32 i < 2 ^ 31 := by
  simp only [int32, toSigned]
  split <;> omega

theorem int32_of_overflow (n : Nat) (hlo : 2 ^ 31 ≤ n) (hhi : n < 2 ^ 32) : int32 n < 0 := by
  simp only [int32, toSigned]
  split <;> omega

theorem sizeT_lt (i : Int) : sizeT i < 2 ^ 64 := by
  unfold sizeT toUnsigned
  omega

theorem sizeT_of_neg (i : Int) (hlo : -(2 ^ 31 : Int) ≤ i) (hneg : i < 0) : 2 ^ 31 ≤ sizeT i := by
  unfold sizeT toUnsigned
  omega

/-- A `size_t` offset narrowed to `int` and read as `size_t` again: from 2^31 on it gets larger than
any block. -/
theorem sizeT_int32 (n : Nat) (h : n < 2 ^ 32) :
    sizeT (int32 n) = if n < 2 ^ 31 then n else n + (2 ^ 64 - 2 ^ 32) := by
  have hres : (n : Int) % (4294967296 : Nat) = n := by omega
  simp only [sizeT, int32, toUnsigned, toSigned, hres]
  split <;> split <;> omega

theorem sizeT_pos (i : Int) (hlo : -(2 ^ 31 : Int) ≤ i) (hhi : i < 2 ^ 31) (h : i ≠ 0) :
    0 < sizeT i := by
  unfold sizeT toUnsigned
  omega

end CInt
