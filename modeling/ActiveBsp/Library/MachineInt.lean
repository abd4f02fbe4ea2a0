import Mathlib.Algebra.Group.Int.Defs
import Mathlib.Algebra.GroupWithZero.Nat
import Mathlib.Data.Int.Order.Basic

/-!
# Fixed-width integers on `Int` and `Nat`

Conversions to a 32-bit two's complement integer and to a 64-bit unsigned one,
and the 64-bit operations, which wrap. Each has one rule: inside the range of
the type nothing happens.
-/
namespace ActiveBsp.Library.MachineInt

set_option autoImplicit false

/-- Conversion to a signed 32-bit integer. -/
def toInt32 (x : Int) : Int := Int.bmod x (2 ^ 32)

/-- Conversion to an unsigned 64-bit integer. -/
def toUInt64 (x : Int) : Nat := (x % 2 ^ 64).toNat

def add64 (a b : Nat) : Nat := (a + b) % 2 ^ 64
def sub64 (a b : Nat) : Nat := toUInt64 ((a : Int) - b)
def mul64 (a b : Nat) : Nat := (a * b) % 2 ^ 64

theorem toInt32_of_range {x : Int} (hl : -2 ^ 31 ≤ x) (hu : x < 2 ^ 31) : toInt32 x = x := by
  unfold toInt32
  rw [Int.bmod_def]
  omega

theorem toInt32_natCast {n : Nat} (h : n < 2 ^ 31) : toInt32 (n : Int) = n :=
  toInt32_of_range (by omega) (by omega)

/-- A natural number keeps its lowest 32 bits where the sign bit is not among them. -/
theorem toInt32_of_low {n : Nat} (h : n % 2 ^ 32 < 2 ^ 31) :
    toInt32 (n : Int) = (n % 2 ^ 32 : Nat) := by
  unfold toInt32
  rw [Int.bmod_def]
  omega

theorem toInt32_neg {n : Nat} (h : 2 ^ 31 ≤ n % 2 ^ 32) : toInt32 (n : Int) < 0 := by
  unfold toInt32
  rw [Int.bmod_def]
  omega

/-- The highest 64-bit values are small negative numbers in 32 bits. -/
theorem toInt32_of_high {n : Nat} (hn : n < 2 ^ 64) (h : 2 ^ 64 - 2 ^ 31 ≤ n) :
    toInt32 (n : Int) = n - 2 ^ 64 := by
  unfold toInt32
  rw [Int.bmod_def]
  omega

theorem toUInt64_natCast {n : Nat} (h : n < 2 ^ 64) : toUInt64 (n : Int) = n := by
  unfold toUInt64
  omega

/-- A 32-bit sum that overflows, widened to 64 bits. -/
theorem toUInt64_toInt32_of_carry {x : Int} (hl : 2 ^ 31 ≤ x) (hu : x < 2 ^ 32) :
    toUInt64 (toInt32 x) = 2 ^ 64 - 2 ^ 32 + x.toNat := by
  unfold toUInt64 toInt32
  rw [Int.bmod_def]
  omega

theorem toUInt64_lt (x : Int) : toUInt64 x < 2 ^ 64 := by
  unfold toUInt64
  omega

/-- A 32-bit value widened to 64 bits lies in the lowest or the highest 2^31 values. -/
theorem toUInt64_toInt32_range (x : Int) :
    toUInt64 (toInt32 x) < 2 ^ 31 ∨ 2 ^ 64 - 2 ^ 31 ≤ toUInt64 (toInt32 x) := by
  unfold toUInt64 toInt32
  rw [Int.bmod_def]
  omega

theorem add64_of_lt {a b : Nat} (h : a + b < 2 ^ 64) : add64 a b = a + b := Nat.mod_eq_of_lt h

theorem mul64_of_lt {a b : Nat} (h : a * b < 2 ^ 64) : mul64 a b = a * b := Nat.mod_eq_of_lt h

theorem sub64_of_le {a b : Nat} (h : b ≤ a) (ha : a < 2 ^ 64) : sub64 a b = a - b := by
  unfold sub64 toUInt64
  omega

/-- A difference determines what was subtracted, even when it wraps. -/
theorem sub64_eq_sub {a b c : Nat} (h : sub64 a b = a - c) (ha : a < 2 ^ 64) (hb : b < 2 ^ 64)
    (hc : c ≤ a) : b = c := by
  unfold sub64 toUInt64 at h
  omega

end ActiveBsp.Library.MachineInt
