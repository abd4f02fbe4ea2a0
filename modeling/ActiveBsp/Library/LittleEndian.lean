import Mathlib.Algebra.GroupWithZero.Nat
import Mathlib.Data.List.Basic
import Mathlib.Data.Nat.Basic

/-!
# Little-endian numbers

Numbers as sequences of bytes, lowest byte first.
-/
namespace ActiveBsp.Library.LittleEndian

set_option autoImplicit false

/-- The lowest `k` bytes of `n`. -/
def encode : Nat → Nat → List UInt8
  | 0, _ => []
  | k + 1, n => UInt8.ofNat (n % 256) :: encode k (n / 256)

def decode : List UInt8 → Nat
  | [] => 0
  | b :: bs => b.toNat + 256 * decode bs

@[simp] theorem length_encode (k n : Nat) : (encode k n).length = k := by
  induction k generalizing n with
  | zero => rfl
  | succ k ih => rw [encode, List.length_cons, ih]

theorem decode_encode (k n : Nat) : decode (encode k n) = n % 256 ^ k := by
  induction k generalizing n with
  | zero => simp [encode, decode, Nat.mod_one]
  | succ k ih =>
    have hb : (UInt8.ofNat (n % 256)).toNat = n % 256 := by
      rw [UInt8.toNat_ofNat']
      exact Nat.mod_mod n 256
    rw [encode, decode, ih, hb, Nat.pow_succ, Nat.mul_comm (256 ^ k) 256, Nat.mod_mul]

theorem decode_encode_of_lt {k n : Nat} (h : n < 256 ^ k) : decode (encode k n) = n := by
  rw [decode_encode, Nat.mod_eq_of_lt h]

theorem decode_append (xs ys : List UInt8) :
    decode (xs ++ ys) = decode xs + 256 ^ xs.length * decode ys := by
  induction xs with
  | nil => simp [decode]
  | cons x xs ih =>
    rw [List.cons_append, decode, decode, ih, List.length_cons, Nat.pow_succ]
    rw [Nat.mul_add, Nat.add_assoc, Nat.mul_comm (256 ^ xs.length) 256, Nat.mul_assoc]

theorem decode_zeros (k : Nat) : decode (List.replicate k 0) = 0 := by
  induction k with
  | zero => rfl
  | succ k ih => simp [List.replicate_succ, decode, ih]

/-- The first bytes of an encoding encode the number in fewer bytes. -/
theorem take_encode {j k : Nat} (n : Nat) (h : j ≤ k) : (encode k n).take j = encode j n := by
  induction j generalizing k n with
  | zero => simp [encode]
  | succ j ih =>
    cases k with
    | zero => omega
    | succ k => rw [encode, encode, List.take_succ_cons, ih _ (by omega)]

theorem encode_zero (k : Nat) : encode k 0 = List.replicate k 0 := by
  induction k with
  | zero => rfl
  | succ k ih => rw [encode, List.replicate_succ, Nat.zero_mod, Nat.zero_div, ih]; rfl

/-- The number that the lowest bytes encode has zeros in the others. -/
theorem encode_mod (j k n : Nat) :
    encode (j + k) (n % 256 ^ j) = encode j n ++ List.replicate k 0 := by
  induction j generalizing n with
  | zero => rw [Nat.pow_zero, Nat.mod_one, Nat.zero_add, encode_zero, encode, List.nil_append]
  | succ j ih =>
    have hhead : n % 256 ^ (j + 1) % 256 = n % 256 :=
      Nat.mod_mod_of_dvd n (Nat.dvd_mul_left 256 (256 ^ j))
    have htail : n % 256 ^ (j + 1) / 256 = n / 256 % 256 ^ j := by
      rw [Nat.pow_succ, Nat.mul_comm, Nat.mod_mul_right_div_self]
    rw [show j + 1 + k = (j + k) + 1 by omega, encode, encode, hhead, htail, ih, List.cons_append]

end ActiveBsp.Library.LittleEndian
