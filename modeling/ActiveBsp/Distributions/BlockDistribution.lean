import ActiveBsp.Library.MachineInt
import ActiveBsp.Library.Tiling
import Mathlib.Tactic.Linarith

/-!
# Block distribution of a range

`divRange` is `div_range` with its mixed `int` and `unsigned long` arithmetic.
While the total fits an `int` its answers are the consecutive bounds
`blockBound`, so the blocks of all `p` processes tile the range.
-/
namespace ActiveBsp.Distributions.BlockDistribution

open Library.MachineInt Library.Tiling

set_option autoImplicit false

/-- `div_range`: first and last bound of block `s` of `p` over `n` elements. -/
def divRange (n : Nat) (s p : Int) : Nat × Nat :=
  let block := toInt32 (n / toUInt64 p : Nat)
  let rem := toInt32 (n % toUInt64 p : Nat)
  if s < rem then
    let beg := toUInt64 (toInt32 (toInt32 (block + 1) * s))
    (beg, add64 (toUInt64 (toInt32 (block + 1))) beg)
  else
    let beg := sub64 n (toUInt64 (toInt32 (toInt32 (p - s) * block)))
    (beg, add64 (toUInt64 block) beg)

/-- Where block `s` begins: the first `n % p` blocks are one element longer. -/
def blockBound (n p s : Nat) : Nat := n / p * s + min s (n % p)

@[simp] theorem blockBound_zero (n p : Nat) : blockBound n p 0 = 0 := by simp [blockBound]

theorem blockBound_last {n p : Nat} (hp : 0 < p) : blockBound n p p = n := by
  have hr : n % p ≤ p := (Nat.mod_lt n hp).le
  rw [blockBound, Nat.min_eq_right hr, Nat.mul_comm]
  exact Nat.div_add_mod n p

theorem blockBound_mono (n p : Nat) : Monotone (blockBound n p) := by
  intro s t h
  have := Nat.mul_le_mul_left (n / p) h
  unfold blockBound
  omega

theorem blockBound_le {n p s : Nat} (hp : 0 < p) (hs : s ≤ p) : blockBound n p s ≤ n :=
  (blockBound_mono n p hs).trans_eq (blockBound_last hp)

theorem blockBound_succ (n p s : Nat) :
    blockBound n p (s + 1) = blockBound n p s + (n / p + if s < n % p then 1 else 0) := by
  unfold blockBound
  rw [Nat.mul_succ]
  split_ifs <;> omega

/-- A block past the last full element is empty and sits at the end. -/
theorem blockBound_eq_of_empty {n p s : Nat}
    (h : blockBound n p (s + 1) ≤ blockBound n p s) : blockBound n p s = n := by
  rw [blockBound_succ] at h
  have hq : n / p = 0 := Nat.le_zero.mp (by omega)
  have hr : n % p ≤ s := by
    by_contra hlt
    rw [if_pos (by omega)] at h
    omega
  have hn := Nat.div_add_mod n p
  rw [hq, Nat.mul_zero, Nat.zero_add] at hn
  rw [blockBound, hq, Nat.min_eq_right hr, Nat.zero_mul, Nat.zero_add, hn]

theorem divRange_of_lt {n p s : Nat} (hp : p < 2 ^ 31) (hr : n % p < p) (hs : s < n % p) :
    divRange n s p =
      (toUInt64 (toInt32 (toInt32 (toInt32 (n / p : Nat) + 1) * s)),
        add64 (toUInt64 (toInt32 (toInt32 (n / p : Nat) + 1)))
          (toUInt64 (toInt32 (toInt32 (toInt32 (n / p : Nat) + 1) * s)))) := by
  unfold divRange
  rw [toUInt64_natCast (n := p) (by omega), toInt32_natCast (n := n % p) (by omega),
    if_pos (by omega)]

theorem divRange_of_le {n p s : Nat} (hp : p < 2 ^ 31) (hr : n % p < p) (hs : n % p ≤ s) :
    divRange n s p =
      (sub64 n (toUInt64 (toInt32 (toInt32 (p - s) * toInt32 (n / p : Nat)))),
        add64 (toUInt64 (toInt32 (n / p : Nat)))
          (sub64 n (toUInt64 (toInt32 (toInt32 (p - s) * toInt32 (n / p : Nat)))))) := by
  unfold divRange
  rw [toUInt64_natCast (n := p) (by omega), toInt32_natCast (n := n % p) (by omega),
    if_neg (by omega)]

/-- Block `s` is the expected one when the quantities its branch multiplies fit an `int`. -/
theorem divRange_of_small {n p s : Nat} (hn : n < 2 ^ 64) (hs : s < p) (hp : p < 2 ^ 31)
    (hq : n / p < 2 ^ 31) (hlong : s < n % p → n / p + 1 < 2 ^ 31 ∧ (n / p + 1) * s < 2 ^ 31)
    (hshort : n % p ≤ s → (p - s) * (n / p) < 2 ^ 31) :
    divRange n s p = (blockBound n p s, blockBound n p (s + 1)) := by
  have hp0 : 0 < p := by omega
  have hsucc := blockBound_succ n p s
  have hdef : blockBound n p s = n / p * s + min s (n % p) := rfl
  have hsplit : p * (n / p) + n % p = n := Nat.div_add_mod n p
  have hr : n % p < p := Nat.mod_lt n hp0
  have hend : blockBound n p (s + 1) ≤ n := blockBound_le hp0 hs
  by_cases h : s < n % p
  · rw [divRange_of_lt hp hr h, toInt32_natCast hq]
    rw [if_pos h] at hsucc
    obtain ⟨hq1, hmul1⟩ := hlong h
    generalize blockBound n p s = b at *
    generalize blockBound n p (s + 1) = e at *
    generalize n / p = q at *
    have hfit : q + 1 + b < 2 ^ 64 := by omega
    have hb : (q + 1) * s = b := by rw [hdef, Nat.min_eq_left h.le, Nat.succ_mul]
    have hone : toInt32 ((q : Int) + 1) = (q + 1 : Nat) := by
      rw [← Nat.cast_succ]
      exact toInt32_natCast hq1
    have hmul : toInt32 ((q + 1 : Nat) * (s : Int)) = b := by
      rw [← Nat.cast_mul, hb]
      exact toInt32_natCast (hb ▸ hmul1)
    rw [hone, hmul, toUInt64_natCast (Nat.lt_of_le_of_lt (Nat.le_add_left b _) hfit),
      toUInt64_natCast (Nat.lt_of_le_of_lt (Nat.le_add_right _ b) hfit), add64_of_lt hfit, hsucc,
      Nat.add_comm]
  · rw [divRange_of_le hp hr (Nat.le_of_not_lt h), toInt32_natCast hq]
    rw [if_neg h] at hsucc
    have hle : (p - s) * (n / p) ≤ p * (n / p) := Nat.mul_le_mul_right _ (Nat.sub_le p s)
    have hprod : (p - s) * (n / p) < 2 ^ 31 := hshort (Nat.le_of_not_lt h)
    have hsq : s * (n / p) ≤ p * (n / p) := Nat.mul_le_mul_right _ hs.le
    rw [Nat.min_eq_right (Nat.le_of_not_lt h), Nat.mul_comm] at hdef
    generalize blockBound n p s = b at *
    generalize blockBound n p (s + 1) = e at *
    generalize n / p = q at *
    rw [Nat.add_zero] at hsucc
    have hfit : q + b < 2 ^ 64 := by omega
    have hsub : (p - s) * q ≤ n := by omega
    have hb : n - (p - s) * q = b := by
      rw [Nat.sub_mul]
      omega
    have hps : toInt32 ((p : Int) - s) = (p - s : Nat) := by
      rw [← Nat.cast_sub hs.le]
      exact toInt32_natCast ((Nat.sub_le p s).trans_lt hp)
    have hmul : toInt32 ((p - s : Nat) * (q : Int)) = ((p - s) * q : Nat) := by
      rw [← Nat.cast_mul]
      exact toInt32_natCast hprod
    rw [hps, hmul, toUInt64_natCast (hsub.trans_lt hn), sub64_of_le hsub hn, hb,
      toUInt64_natCast (Nat.lt_of_le_of_lt (Nat.le_add_right q b) hfit), add64_of_lt hfit, hsucc,
      Nat.add_comm]

/-- No conversion or product of `div_range` overflows while the total fits an `int`. -/
theorem divRange_eq {n p s : Nat} (hn : n < 2 ^ 31) (hs : s < p) (hp : p < 2 ^ 31) :
    divRange n s p = (blockBound n p s, blockBound n p (s + 1)) := by
  have hsplit : p * (n / p) + n % p = n := Nat.div_add_mod n p
  have hr : n % p < p := Nat.mod_lt n (by omega)
  have hqp : n / p ≤ p * (n / p) := Nat.le_mul_of_pos_left _ (by omega)
  apply divRange_of_small (by omega) hs hp (by omega)
  · intro hsr
    have hsq : n / p * (s + 1) ≤ n / p * p := Nat.mul_le_mul_left _ hs
    rw [Nat.mul_comm _ p, Nat.mul_succ] at hsq
    rw [Nat.succ_mul]
    generalize n / p = q at *
    omega
  · intro hrs
    have hle : (p - s) * (n / p) ≤ p * (n / p) := Nat.mul_le_mul_right _ (Nat.sub_le p s)
    omega

/-- The blocks of all processes, as spans. -/
theorem blocks_tile {n p : Nat} (hp : 0 < p) :
    Tiles (consecutive (blockBound n p) p) n := by
  have h := tiles_consecutive (blockBound_mono n p) (blockBound_zero n p) p
  rwa [blockBound_last hp] at h

end ActiveBsp.Distributions.BlockDistribution
