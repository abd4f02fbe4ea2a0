import Mathlib.Algebra.BigOperators.Intervals
import Mathlib.Data.List.Count
import Mathlib.Tactic.SplitIfs
import Mathlib.Algebra.Order.BigOperators.Group.Finset

/-!
# Families of ranges that tile an interval

A family of spans, in any order and possibly with empty members, tiles `[0, n)`
when every position below `n` lies in exactly one of them and none reaches past
`n`. A window cut out of a tiled interval meets the members in pieces whose
lengths add up to the window.
-/
namespace ActiveBsp.Library.Tiling

set_option autoImplicit false

/-- The positions `off`, …, `off + len - 1`. -/
structure Span where
  off : Nat
  len : Nat
  deriving DecidableEq, Repr

namespace Span

def stop (r : Span) : Nat := r.off + r.len

def Covers (r : Span) (x : Nat) : Prop := r.off ≤ x ∧ x < r.stop

instance (r : Span) (x : Nat) : Decidable (r.Covers x) :=
  inferInstanceAs (Decidable (_ ∧ _))

/-- How much of the window `[a, b)` the span meets. -/
def overlap (r : Span) (a b : Nat) : Nat := min r.stop b - max r.off a

/-- The window test of a scan: neither before the window nor after it. -/
def Meets (r : Span) (a b : Nat) : Prop := a < r.stop ∧ r.off < b

instance (r : Span) (a b : Nat) : Decidable (r.Meets a b) :=
  inferInstanceAs (Decidable (_ ∧ _))

theorem Covers.meets {r : Span} {a b x : Nat} (h : r.Covers x) (ha : a ≤ x) (hb : x < b) :
    r.Meets a b := ⟨lt_of_le_of_lt ha h.2, lt_of_le_of_lt h.1 hb⟩

theorem overlap_of_not_meets {r : Span} {a b : Nat} (h : ¬ r.Meets a b) : r.overlap a b = 0 := by
  unfold Meets at h
  unfold overlap
  omega

theorem overlap_le_len (r : Span) (a b : Nat) : r.overlap a b ≤ r.len := by
  unfold overlap stop
  omega

theorem overlap_le_window (r : Span) (a b : Nat) : r.overlap a b ≤ b - a := by
  unfold overlap
  omega

/-- The overlap counts the window positions that the span covers. -/
theorem overlap_eq_card (r : Span) (a b : Nat) :
    r.overlap a b = ((Finset.Ico a b).filter r.Covers).card := by
  have he : (Finset.Ico a b).filter r.Covers = Finset.Ico (max r.off a) (min r.stop b) := by
    ext x
    simp only [Finset.mem_filter, Finset.mem_Ico, Covers]
    omega
  rw [he, Nat.card_Ico]
  rfl

end Span

/-- `spans` covers every position below `n` exactly once and nothing from `n` on. -/
structure Tiles (spans : List Span) (n : Nat) : Prop where
  bounded : ∀ r ∈ spans, r.stop ≤ n
  once : ∀ x < n, spans.countP (fun r => decide (r.Covers x)) = 1

theorem Tiles.exists_covers {spans : List Span} {n x : Nat} (h : Tiles spans n) (hx : x < n) :
    ∃ r ∈ spans, r.Covers x := by
  have hc : 0 < spans.countP (fun r => decide (r.Covers x)) := by rw [h.once x hx]; omega
  obtain ⟨r, hr, hd⟩ := List.countP_pos_iff.mp hc
  exact ⟨r, hr, of_decide_eq_true hd⟩

private theorem sum_map_eq_sum_countP (spans : List Span) (a b : Nat) :
    (spans.map (fun r => r.overlap a b)).sum =
      ∑ x ∈ Finset.Ico a b, spans.countP (fun r => decide (r.Covers x)) := by
  induction spans with
  | nil => simp
  | cons r spans ih =>
    rw [List.map_cons, List.sum_cons, ih, r.overlap_eq_card a b, Finset.card_filter,
      ← Finset.sum_add_distrib]
    apply Finset.sum_congr rfl
    intro x _
    rw [List.countP_cons, Nat.add_comm]
    simp

def Apart (spans : List Span) : Prop :=
  spans.Pairwise (fun r s => ∀ x, r.Covers x → ¬ s.Covers x)

theorem Apart.countP {spans : List Span} (h : Apart spans) (x : Nat) :
    spans.countP (fun r => decide (r.Covers x)) = if ∃ r ∈ spans, r.Covers x then 1 else 0 := by
  induction spans with
  | nil => simp
  | cons r spans ih =>
    obtain ⟨hr, hrest⟩ := List.pairwise_cons.mp h
    rw [List.countP_cons, ih hrest]
    by_cases hc : r.Covers x
    · have hnone : ¬ ∃ s ∈ spans, s.Covers x := fun ⟨s, hs, hsc⟩ => hr s hs x hc hsc
      rw [if_neg hnone, if_pos (decide_eq_true hc), if_pos ⟨r, List.mem_cons_self, hc⟩]
    · simp [hc]

theorem Apart.sum_len {spans : List Span} {n : Nat} (h : Apart spans)
    (hb : ∀ r ∈ spans, r.stop ≤ n) : (spans.map Span.len).sum =
      ((Finset.Ico 0 n).filter (fun x => ∃ r ∈ spans, r.Covers x)).card := by
  have hlen : spans.map Span.len = spans.map (fun r => r.overlap 0 n) := by
    apply List.map_congr_left
    intro r hr
    have := hb r hr
    unfold Span.overlap
    unfold Span.stop at *
    omega
  rw [hlen, sum_map_eq_sum_countP, Finset.card_filter]
  exact Finset.sum_congr rfl fun x _ => h.countP x

/-- Spans that are apart are together no longer than the interval around them … -/
theorem Apart.sum_len_le {spans : List Span} {n : Nat} (h : Apart spans)
    (hb : ∀ r ∈ spans, r.stop ≤ n) : (spans.map Span.len).sum ≤ n := by
  rw [h.sum_len hb]
  exact (Finset.card_filter_le _ _).trans_eq (Nat.card_Ico 0 n)

/-- … and as long as it exactly when they cover it. -/
theorem Apart.sum_len_eq_iff {spans : List Span} {n : Nat} (h : Apart spans)
    (hb : ∀ r ∈ spans, r.stop ≤ n) :
    (spans.map Span.len).sum = n ↔ ∀ x < n, ∃ r ∈ spans, r.Covers x := by
  have hcard : (Finset.Ico 0 n).card = n := Nat.card_Ico 0 n
  have hiff := Finset.card_filter_eq_iff (s := Finset.Ico 0 n)
    (p := fun x => ∃ r ∈ spans, r.Covers x)
  rw [← h.sum_len hb, hcard] at hiff
  rw [hiff]
  exact ⟨fun hx x hlt => hx x (Finset.mem_Ico.mpr ⟨x.zero_le, hlt⟩),
    fun hx x hmem => hx x (Finset.mem_Ico.mp hmem).2⟩

/-- The pieces of a window of a tiled interval add up to the window. -/
theorem Tiles.sum_overlap {spans : List Span} {n a b : Nat} (h : Tiles spans n) (hb : b ≤ n) :
    (spans.map (fun r => r.overlap a b)).sum = b - a := by
  rw [sum_map_eq_sum_countP]
  have hone : ∀ x ∈ Finset.Ico a b, spans.countP (fun r => decide (r.Covers x)) = 1 := by
    intro x hx
    exact h.once x (lt_of_lt_of_le (Finset.mem_Ico.mp hx).2 hb)
  rw [Finset.sum_congr rfl hone, Finset.sum_const, Nat.card_Ico, nsmul_eq_mul, Nat.mul_one]
  rfl

/-- Of two members at different places, at most one covers a position. -/
theorem Tiles.not_covers_of_perm {n x : Nat} {r s : Span} {rest spans : List Span}
    (h : Tiles spans n) (hp : spans.Perm (r :: s :: rest)) (hx : x < n)
    (hr : r.Covers x) : ¬ s.Covers x := by
  intro hs
  have hc := h.once x hx
  rw [hp.countP_eq, List.countP_cons, List.countP_cons, if_pos (by simpa using hs),
    if_pos (by simpa using hr)] at hc
  omega

theorem Tiles.perm {spans spans' : List Span} {n : Nat} (h : Tiles spans n)
    (hp : spans.Perm spans') : Tiles spans' n :=
  ⟨fun r hr => h.bounded r (hp.mem_iff.mpr hr), fun x hx => hp.countP_eq _ ▸ h.once x hx⟩

/-- The consecutive ranges between the bounds `f 0 ≤ f 1 ≤ … ≤ f p`. -/
def consecutive (f : Nat → Nat) (p : Nat) : List Span :=
  (List.range p).map (fun i => ⟨f i, f (i + 1) - f i⟩)

private theorem countP_consecutive (f : Nat → Nat) (hf : Monotone f) (x : Nat) :
    ∀ p, (consecutive f p).countP (fun r => decide (r.Covers x)) =
      if f 0 ≤ x ∧ x < f p then 1 else 0 := by
  intro p
  induction p with
  | zero => simp [consecutive]
  | succ p ih =>
    have hp : f p ≤ f (p + 1) := hf (Nat.le_succ p)
    have h0 : f 0 ≤ f p := hf (Nat.zero_le p)
    have hs : consecutive f (p + 1) = consecutive f p ++ [⟨f p, f (p + 1) - f p⟩] := by
      simp [consecutive, List.range_succ]
    rw [hs, List.countP_append, ih, List.countP_singleton]
    have hc : (⟨f p, f (p + 1) - f p⟩ : Span).Covers x ↔ f p ≤ x ∧ x < f (p + 1) := by
      change f p ≤ x ∧ x < f p + (f (p + 1) - f p) ↔ _
      omega
    simp only [decide_eq_true_eq, hc]
    split_ifs <;> omega

/-- Consecutive ranges from `0` to `n` tile `[0, n)`. -/
theorem tiles_consecutive {f : Nat → Nat} (hf : Monotone f) (h0 : f 0 = 0) (p : Nat) :
    Tiles (consecutive f p) (f p) where
  bounded r hr := by
    obtain ⟨i, hi, rfl⟩ := List.mem_map.mp hr
    have h1 : f i ≤ f (i + 1) := hf (Nat.le_succ i)
    have h2 : f (i + 1) ≤ f p := hf (List.mem_range.mp hi)
    simp only [Span.stop]
    omega
  once x hx := by
    rw [countP_consecutive f hf, if_pos ⟨by omega, hx⟩]

end ActiveBsp.Library.Tiling
