import ActiveBsp.Distributions.BlockDistribution
import ActiveBsp.Library.EvenSplit

/-!
# When `div_range` is a balanced partition

`div_range` narrows quotient and remainder to `int` and multiplies them there.
A balanced partition is unique, so the ranges are balanced exactly when every
one of them is the block of the mathematical division, and that is the case
exactly when the largest of those products fit. A product past the `int` range,
which the language leaves undefined, is taken to wrap around.
-/
namespace ActiveBsp.Distributions.DivRange

open Library.MachineInt Library.EvenSplit BlockDistribution

set_option autoImplicit false

/-- The ranges of `p` processes split `[0, n)` into near-equal blocks, longer ones first. -/
structure Balanced (n p : Nat) (range : Nat → Nat × Nat) : Prop where
  first : (range 0).1 = 0
  next : ∀ s, s + 1 < p → (range s).2 = (range (s + 1)).1
  last : (range (p - 1)).2 = n
  ordered : ∀ s < p, (range s).1 ≤ (range s).2
  longerFirst : ∀ s t, s ≤ t → t < p →
    (range t).2 - (range t).1 ≤ (range s).2 - (range s).1
  near : ∀ s t, s ≤ t → t < p →
    (range s).2 - (range s).1 ≤ (range t).2 - (range t).1 + 1

/-- The bounds of `p` ranges, the end of the last one included. -/
def bounds (n p : Nat) (range : Nat → Nat × Nat) (s : Nat) : Nat :=
  if s < p then (range s).1 else n

theorem Balanced.snd_eq {n p s : Nat} {range : Nat → Nat × Nat} (h : Balanced n p range)
    (hs : s < p) : (range s).2 = bounds n p range (s + 1) := by
  unfold bounds
  split_ifs with hnext
  · exact h.next s hnext
  · rw [show s = p - 1 by omega]
    exact h.last

theorem Balanced.gap_eq {n p s : Nat} {range : Nat → Nat × Nat} (h : Balanced n p range)
    (hs : s < p) : gap (bounds n p range) s = (range s).2 - (range s).1 := by
  rw [h.snd_eq hs, gap]
  congr 1
  exact if_pos hs

theorem Balanced.even {n p : Nat} {range : Nat → Nat × Nat} (h : Balanced n p range)
    (hp : 0 < p) : Even (bounds n p range) p where
  start := (if_pos hp).trans h.first
  ordered s hs := by
    rw [← h.snd_eq hs, bounds, if_pos hs]
    exact h.ordered s hs
  falling s t hst ht := by
    rw [h.gap_eq ht, h.gap_eq (Nat.lt_of_le_of_lt hst ht)]
    exact h.longerFirst s t hst ht
  near s t hst ht := by
    rw [h.gap_eq ht, h.gap_eq (Nat.lt_of_le_of_lt hst ht)]
    exact h.near s t hst ht

/-- A balanced partition consists of the blocks of the division with remainder. -/
theorem balanced_iff_blocks {n p : Nat} (hp : 0 < p) (range : Nat → Nat × Nat) :
    Balanced n p range ↔ ∀ s < p, range s = (blockBound n p s, blockBound n p (s + 1)) := by
  constructor
  · intro h s hs
    have hlast : bounds n p range p = n := if_neg (by omega)
    have hbound : ∀ t ≤ p, bounds n p range t = blockBound n p t := by
      intro t ht
      rw [(h.even hp).eq_div hp ht, hlast]
      rfl
    apply Prod.ext
    · rw [← hbound s hs.le, bounds, if_pos hs]
    · rw [h.snd_eq hs, hbound (s + 1) hs]
  · intro h
    have hlen : ∀ s < p, (range s).2 - (range s).1 = n / p + if s < n % p then 1 else 0 := by
      intro s hs
      rw [h s hs, blockBound_succ]
      exact Nat.add_sub_cancel_left _ _
    constructor
    · rw [h 0 hp, blockBound_zero]
    · intro s hs
      rw [h s (by omega), h (s + 1) hs]
    · rw [h (p - 1) (by omega), show p - 1 + 1 = p by omega, blockBound_last hp]
    · intro s hs
      rw [h s hs]
      exact blockBound_mono n p (Nat.le_succ s)
    · intro s t hst ht
      rw [hlen t ht, hlen s (by omega)]
      split_ifs <;> omega
    · intro s t hst ht
      rw [hlen t ht, hlen s (by omega)]
      split_ifs <;> omega

/-- What the `int` arithmetic has room for. With a remainder the longer length and the two
largest products must fit. Without one the only product is the total, and a single process
also gets the totals whose narrowing is undone by the widening that follows it. -/
def Fits (n p : Nat) : Prop :=
  if n % p = 0 then n < 2 ^ 31 ∨ p = 1 ∧ 2 ^ 64 - 2 ^ 31 ≤ n
  else n / p + 1 < 2 ^ 31 ∧ (n / p + 1) * (n % p - 1) < 2 ^ 31 ∧ (p - n % p) * (n / p) < 2 ^ 31

instance (n p : Nat) : Decidable (Fits n p) := by
  unfold Fits
  infer_instance

/-- The single block of a total whose narrowing to `int` is a small negative number. -/
theorem divRange_single {n : Nat} (hn : n < 2 ^ 64) (hbig : 2 ^ 64 - 2 ^ 31 ≤ n) :
    divRange n 0 1 = (0, n) := by
  have hq : toInt32 (n : Int) = n - 2 ^ 64 := by
    unfold toInt32
    rw [Int.bmod_def]
    omega
  have hzero : toInt32 0 = 0 := rfl
  have hone : toInt32 (1 - 0) = 1 := rfl
  have hback : toUInt64 ((n : Int) - 2 ^ 64) = n := by
    unfold toUInt64
    omega
  have hrange : toInt32 ((n : Int) - 2 ^ 64) = n - 2 ^ 64 := toInt32_of_range (by omega) (by omega)
  unfold divRange
  rw [show toUInt64 1 = 1 from rfl, Nat.div_one, Nat.mod_one, hq]
  simp only [Nat.cast_zero, hzero, lt_irrefl, if_false, hone, one_mul, hrange, hback]
  rw [sub64_of_le le_rfl hn, Nat.sub_self, add64_of_lt (by omega), Nat.add_zero]

/-- Within the room of `Fits` every range is its block. -/
theorem divRange_of_fits {n p s : Nat} (hn : n < 2 ^ 64) (hp : p < 2 ^ 31) (hs : s < p)
    (h : Fits n p) : divRange n s p = (blockBound n p s, blockBound n p (s + 1)) := by
  unfold Fits at h
  split_ifs at h with hr
  · rcases h with hsmall | ⟨rfl, hbig⟩
    · exact divRange_eq hsmall hs hp
    · obtain rfl : s = 0 := by omega
      rw [Nat.cast_zero, Nat.cast_one, divRange_single hn hbig, blockBound_zero,
        blockBound_last Nat.one_pos]
  · obtain ⟨hq, hlong, hshort⟩ := h
    apply divRange_of_small hn hs hp (by omega)
    · intro hsr
      have hle : (n / p + 1) * s ≤ (n / p + 1) * (n % p - 1) := Nat.mul_le_mul_left _ (by omega)
      exact ⟨hq, hle.trans_lt hlong⟩
    · intro hrs
      have hle : (p - s) * (n / p) ≤ (p - n % p) * (n / p) := Nat.mul_le_mul_right _ (by omega)
      exact hle.trans_lt hshort

/-- The products of two quantities below 2^31 keep clear of the upper part of the range. -/
theorem lt_of_product {a b : Nat} (ha : a ≤ 2 ^ 31) (hb : b ≤ 2 ^ 31)
    (h : a * b < 2 ^ 31 ∨ 2 ^ 64 - 2 ^ 31 ≤ a * b) : a * b < 2 ^ 31 := by
  have hle := Nat.mul_le_mul ha hb
  omega

/-- With a remainder, the first block, the last longer block and the first shorter one show
that nothing was lost on the way. -/
theorem fits_of_remainder {n p : Nat} (hn : n < 2 ^ 64) (hp : p < 2 ^ 31) (hr : 0 < n % p)
    (hrp : n % p < p)
    (h : ∀ s < p, divRange n s p = (blockBound n p s, blockBound n p (s + 1))) :
    n / p + 1 < 2 ^ 31 ∧ (n / p + 1) * (n % p - 1) < 2 ^ 31 ∧
      (p - n % p) * (n / p) < 2 ^ 31 := by
  have hsplit : p * (n / p) + n % p = n := Nat.div_add_mod n p
  have hbfirst : blockBound n p (0 + 1) = n / p + 1 := by
    rw [blockBound_succ, blockBound_zero, if_pos hr, Nat.zero_add]
  have hblong : blockBound n p (n % p - 1) = (n / p + 1) * (n % p - 1) := by
    rw [blockBound, Nat.min_eq_left (by omega), Nat.succ_mul]
  have hbshort : blockBound n p (n % p) = n - (p - n % p) * (n / p) := by
    have hle : n % p * (n / p) ≤ p * (n / p) := Nat.mul_le_mul_right _ hrp.le
    rw [blockBound, Nat.min_self, Nat.sub_mul, Nat.mul_comm (n / p)]
    omega
  have hfirst := (Prod.mk.inj ((divRange_of_lt hp hrp hr).symm.trans (h 0 (by omega)))).2
  have hlong := (Prod.mk.inj ((divRange_of_lt hp hrp (by omega)).symm.trans
    (h (n % p - 1) (by omega)))).1
  have hshort := (Prod.mk.inj ((divRange_of_le hp hrp le_rfl).symm.trans
    (h (n % p) hrp))).1
  rw [hbfirst] at hfirst
  rw [hblong] at hlong
  rw [hbshort] at hshort
  have h2p : 2 * (n / p) ≤ p * (n / p) := Nat.mul_le_mul_right _ (by omega)
  generalize n / p = q at *
  generalize n % p = r at *
  have hr31 : r - 1 ≤ 2 ^ 31 := by omega
  have hpr31 : p - r ≤ 2 ^ 31 := by omega
  have hq : q + 1 < 2 ^ 31 := by
    have hrange := toUInt64_toInt32_range (toInt32 (q : Int) + 1)
    have hlt := toUInt64_lt (toInt32 (toInt32 (q : Int) + 1))
    have hzero : toUInt64 (toInt32 (toInt32 (toInt32 (q : Int) + 1) * (0 : Nat))) = 0 := by
      rw [Nat.cast_zero, mul_zero]
      rfl
    rw [hzero, add64, Nat.add_zero, Nat.mod_eq_of_lt hlt] at hfirst
    rw [hfirst] at hrange
    omega
  have hq31 : q + 1 ≤ 2 ^ 31 := hq.le
  have hone : toInt32 (toInt32 (q : Int) + 1) = (q + 1 : Nat) := by
    rw [toInt32_natCast (n := q) (by omega), ← Nat.cast_succ, toInt32_natCast hq]
  refine ⟨hq, ?_, ?_⟩
  · have hrange := toUInt64_toInt32_range ((q + 1 : Nat) * ((r - 1 : Nat) : Int))
    rw [hone] at hlong
    rw [hlong] at hrange
    exact lt_of_product hq31 hr31 hrange
  · have hsub : (p - r) * q ≤ p * q := Nat.mul_le_mul_right q (Nat.sub_le p r)
    have hrange := toUInt64_toInt32_range (toInt32 ((p : Int) - r) * toInt32 (q : Int))
    rw [sub64_eq_sub hshort hn (toUInt64_lt _) (by omega)] at hrange
    exact lt_of_product hpr31 (Nat.le_of_succ_le hq31) hrange

/-- Without a remainder, the first and the last block show it. -/
theorem fits_of_exact {n p : Nat} (hn : n < 2 ^ 64) (hp0 : 0 < p) (hp : p < 2 ^ 31)
    (hr : n % p = 0)
    (h : ∀ s < p, divRange n s p = (blockBound n p s, blockBound n p (s + 1))) :
    n < 2 ^ 31 ∨ p = 1 ∧ 2 ^ 64 - 2 ^ 31 ≤ n := by
  have hsplit : p * (n / p) = n := Nat.mul_div_cancel' (Nat.dvd_of_mod_eq_zero hr)
  have hdiv : n / p ≤ n := Nat.div_le_self n p
  have hrp : n % p < p := Nat.mod_lt n hp0
  have hblast : blockBound n p (p - 1) = n - n / p := by
    rw [blockBound, hr, Nat.min_zero, Nat.add_zero, Nat.mul_sub_one, Nat.mul_comm, hsplit]
  have hfirst := (Prod.mk.inj ((divRange_of_le hp hrp hr.le).symm.trans (h 0 hp0))).1
  have hlast := (Prod.mk.inj ((divRange_of_le hp hrp (by omega)).symm.trans
    (h (p - 1) (by omega)))).1
  rw [blockBound_zero] at hfirst
  rw [hblast] at hlast
  have htotal := sub64_eq_sub (hfirst.trans (Nat.sub_self n).symm) hn (toUInt64_lt _) le_rfl
  have hrange := toUInt64_toInt32_range (toInt32 ((p : Int) - (0 : Nat)) * toInt32 ((n / p : Nat)))
  rw [htotal] at hrange
  rcases hrange with hsmall | hbig
  · exact Or.inl hsmall
  · refine Or.inr ⟨?_, hbig⟩
    by_contra hp1
    -- the length of a block would lie in the upper part of the range, with room for two
    have hone : toInt32 ((p : Int) - (p - 1 : Nat)) = 1 := by
      rw [show (p : Int) - (p - 1 : Nat) = 1 by omega]
      rfl
    have hlen := sub64_eq_sub hlast hn (toUInt64_lt _) hdiv
    have hhalf := toUInt64_toInt32_range (toInt32 ((n / p : Nat) : Int))
    rw [hone, one_mul] at hlen
    rw [hlen] at hhalf
    have h2p : 2 * (n / p) ≤ p * (n / p) := Nat.mul_le_mul_right _ (by omega)
    have hpq : p * (n / p) ≤ 2 ^ 31 * (n / p) := Nat.mul_le_mul_right _ hp.le
    omega

/-- `div_range` partitions a vector in balance exactly when its `int` arithmetic has room. -/
theorem divRange_balanced_iff {n p : Nat} (hn : n < 2 ^ 64) (hp0 : 0 < p) (hp : p < 2 ^ 31) :
    Balanced n p (fun s => divRange n s p) ↔ Fits n p := by
  rw [balanced_iff_blocks hp0]
  constructor
  · intro h
    unfold Fits
    split_ifs with hr
    · exact fits_of_exact hn hp0 hp hr h
    · exact fits_of_remainder hn hp (Nat.pos_of_ne_zero hr) (Nat.mod_lt n hp0) h
  · intro h s hs
    exact divRange_of_fits hn hp hs h

theorem divRange_balanced_iff_ten : Balanced 10 4 (fun s => divRange 10 s 4) ↔ Fits 10 4 :=
  divRange_balanced_iff (by decide) (by decide) (by decide)

/-- Two gibibytes on one process: the block begins at four. -/
theorem divRange_two_gib : ¬ Balanced (2 ^ 31) 1 (fun s => divRange (2 ^ 31) s 1) := by
  intro h
  have hbeg : (divRange (2 ^ 31) (0 : Nat) (1 : Nat)).1 = 2 ^ 32 := by decide
  have hfirst := h.first
  have hne : (2 ^ 32 : Nat) = 0 := hbeg.symm.trans hfirst
  omega

end ActiveBsp.Distributions.DivRange
