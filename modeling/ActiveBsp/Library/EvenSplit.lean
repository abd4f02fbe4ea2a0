import Mathlib.Algebra.Order.Group.Nat
import Mathlib.Tactic.Linarith

/-!
# Splitting a number into near-equal lengths

The bounds `f 0 ≤ … ≤ f p` split `f p` evenly when no two of their lengths
differ by more than one and the longer lengths stand first. There is only one
such split: quotient-sized lengths, the first remainder-many longer by one.
-/
namespace ActiveBsp.Library.EvenSplit

set_option autoImplicit false

/-- The length between two neighbouring bounds. -/
def gap (f : Nat → Nat) (s : Nat) : Nat := f (s + 1) - f s

/-- Consecutive bounds with lengths that fall by at most one, and never rise again. -/
structure Even (f : Nat → Nat) (p : Nat) : Prop where
  start : f 0 = 0
  ordered : ∀ s < p, f s ≤ f (s + 1)
  falling : ∀ s t, s ≤ t → t < p → gap f t ≤ gap f s
  near : ∀ s t, s ≤ t → t < p → gap f s ≤ gap f t + 1

theorem Even.succ {f : Nat → Nat} {p s : Nat} (h : Even f p) (hs : s < p) :
    f (s + 1) = f s + gap f s := by
  have := h.ordered s hs
  unfold gap
  omega

/-- Some number of longer lengths is followed by lengths of the last size only. -/
theorem Even.exists_long {f : Nat → Nat} {p : Nat} (h : Even f (p + 1)) :
    ∃ k ≤ p, (∀ s < k, gap f s = gap f p + 1) ∧ ∀ s, k ≤ s → s ≤ p → gap f s = gap f p := by
  have hex : ∃ k, gap f k = gap f p := ⟨p, rfl⟩
  have hk : Nat.find hex ≤ p := Nat.find_min' hex rfl
  refine ⟨Nat.find hex, hk, ?_, ?_⟩
  · intro s hs
    have hne : gap f s ≠ gap f p := Nat.find_min hex hs
    have hge := h.falling s p (by omega) (by omega)
    have hle := h.near s p (by omega) (by omega)
    omega
  · intro s hs hsp
    have hge := h.falling s p hsp (by omega)
    have hle := h.falling (Nat.find hex) s hs (by omega)
    rw [Nat.find_spec hex] at hle
    omega

/-- The bounds of an even split are those of the division with remainder. -/
theorem Even.eq_div {f : Nat → Nat} {p : Nat} (h : Even f p) (hp : 0 < p) {s : Nat}
    (hs : s ≤ p) : f s = f p / p * s + min s (f p % p) := by
  obtain ⟨m, rfl⟩ := Nat.exists_eq_add_of_lt hp
  rw [Nat.zero_add] at *
  obtain ⟨k, hk, hlong, hshort⟩ := h.exists_long
  have hrun : ∀ s ≤ m + 1, f s = gap f m * s + min s k := by
    intro s
    induction s with
    | zero => intro _; rw [h.start]; simp
    | succ s ih =>
      intro hs
      rw [h.succ (by omega), ih (by omega), Nat.mul_succ]
      by_cases hsk : s < k
      · rw [hlong s hsk]
        omega
      · rw [hshort s (by omega) (by omega)]
        omega
  have htotal : f (m + 1) = gap f m * (m + 1) + k := by
    rw [hrun (m + 1) le_rfl, Nat.min_eq_right (by omega)]
  have hdiv : f (m + 1) / (m + 1) = gap f m ∧ f (m + 1) % (m + 1) = k := by
    rw [Nat.div_mod_unique (by omega)]
    exact ⟨by rw [htotal, Nat.mul_comm, Nat.add_comm], by omega⟩
  rw [hdiv.1, hdiv.2]
  exact hrun s hs

end ActiveBsp.Library.EvenSplit
