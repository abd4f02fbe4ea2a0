import Mathlib.Data.List.Basic

/-!
# Windows of buffers

`slice` reads a window of a buffer and `splice` overwrites one. A batch of
writes that all agree with one target, and that together reach every position,
leaves that target in the buffer whatever the order of the writes.
-/
namespace ActiveBsp.Library.Buffer

set_option autoImplicit false

variable {α : Type*}

/-- The `len` elements of `xs` from position `off`. -/
def slice (xs : List α) (off len : Nat) : List α := (xs.drop off).take len

/-- `xs` with `ys` written over it from position `pos`. -/
def splice (xs : List α) (pos : Nat) (ys : List α) : List α :=
  xs.take pos ++ ys ++ xs.drop (pos + ys.length)

theorem length_slice (xs : List α) (off len : Nat) :
    (slice xs off len).length = min len (xs.length - off) := by
  simp [slice]

theorem length_slice_of_le {xs : List α} {off len : Nat} (h : off + len ≤ xs.length) :
    (slice xs off len).length = len := by
  rw [length_slice]
  omega

theorem getElem?_slice (xs : List α) (off len i : Nat) :
    (slice xs off len)[i]? = if i < len then xs[off + i]? else none := by
  unfold slice
  rw [List.getElem?_take]
  by_cases h : i < len
  · simp [h, List.getElem?_drop]
  · simp [h]

theorem slice_slice (xs : List α) {a n b m : Nat} (h : b + m ≤ n) :
    slice (slice xs a n) b m = slice xs (a + b) m := by
  apply List.ext_getElem?
  intro i
  simp only [getElem?_slice]
  by_cases hi : i < m
  · rw [if_pos hi, if_pos hi, if_pos (by omega), Nat.add_assoc]
  · rw [if_neg hi, if_neg hi]

theorem take_slice (xs : List α) {off len n : Nat} (h : n ≤ len) :
    (slice xs off len).take n = slice xs off n := by
  rw [slice, slice, List.take_take, Nat.min_eq_left h]

theorem slice_zero (xs : List α) (off : Nat) : slice xs off 0 = [] := by simp [slice]

theorem slice_full (xs : List α) : slice xs 0 xs.length = xs := by simp [slice]

/-- A window ends where the next one begins. -/
theorem slice_add (xs : List α) (off m n : Nat) :
    slice xs off (m + n) = slice xs off m ++ slice xs (off + m) n := by
  simp [slice, List.take_add, List.drop_drop]

theorem length_splice {xs : List α} {pos : Nat} {ys : List α}
    (h : pos + ys.length ≤ xs.length) : (splice xs pos ys).length = xs.length := by
  simp only [splice, List.length_append, List.length_take, List.length_drop]
  omega

theorem getElem?_splice {xs : List α} {pos : Nat} {ys : List α}
    (h : pos + ys.length ≤ xs.length) (i : Nat) :
    (splice xs pos ys)[i]? =
      if pos ≤ i ∧ i < pos + ys.length then ys[i - pos]? else xs[i]? := by
  have ht : (xs.take pos).length = pos := by rw [List.length_take]; omega
  unfold splice
  by_cases h1 : i < pos
  · rw [List.append_assoc, List.getElem?_append_left (by omega), List.getElem?_take,
      if_pos h1, if_neg (by omega)]
  · rw [List.append_assoc, List.getElem?_append_right (by omega), ht]
    by_cases h2 : i < pos + ys.length
    · rw [List.getElem?_append_left (by omega), if_pos ⟨by omega, h2⟩]
    · rw [List.getElem?_append_right (by omega), List.getElem?_drop, if_neg (by omega)]
      congr 1
      omega

/-- A window just written holds what was written. -/
theorem slice_splice {xs : List α} {pos : Nat} {ys : List α} (h : pos + ys.length ≤ xs.length) :
    slice (splice xs pos ys) pos ys.length = ys := by
  apply List.ext_getElem?
  intro i
  rw [getElem?_slice]
  by_cases hi : i < ys.length
  · rw [if_pos hi, getElem?_splice h, if_pos ⟨by omega, by omega⟩]
    congr 1
    omega
  · rw [if_neg hi, List.getElem?_eq_none (by omega)]

theorem splice_nil (xs : List α) (pos : Nat) : splice xs pos [] = xs := by
  simp [splice]

theorem splice_all {xs ys : List α} (h : ys.length = xs.length) : splice xs 0 ys = ys := by
  rw [splice, List.take_zero, List.nil_append, Nat.zero_add, h, List.drop_length, List.append_nil]

/-- A write behind the first elements leaves them alone. -/
theorem splice_append (xs zs : List α) (pos : Nat) (ys : List α) :
    splice (xs ++ zs) (xs.length + pos) ys = xs ++ splice zs pos ys := by
  have hdrop : (xs ++ zs).drop (xs.length + pos + ys.length) = zs.drop (pos + ys.length) := by
    rw [Nat.add_assoc, List.drop_length_add_append]
  rw [splice, splice, hdrop, List.take_length_add_append, List.append_assoc, List.append_assoc,
    List.append_assoc]

/-- A write of `data` at `pos`. -/
structure Write (α : Type*) where
  pos : Nat
  data : List α

namespace Write

def stop (w : Write α) : Nat := w.pos + w.data.length

/-- The write puts into its window what `target` has there. -/
def Agrees (target : List α) (w : Write α) : Prop :=
  w.stop ≤ target.length ∧ slice target w.pos w.data.length = w.data

end Write

/-- The buffer after the writes `ws`, first to last. -/
def applyWrites (xs : List α) (ws : List (Write α)) : List α :=
  ws.foldl (fun buf w => splice buf w.pos w.data) xs

@[simp] theorem applyWrites_nil (xs : List α) : applyWrites xs [] = xs := rfl

@[simp] theorem applyWrites_cons (xs : List α) (w : Write α) (ws : List (Write α)) :
    applyWrites xs (w :: ws) = applyWrites (splice xs w.pos w.data) ws := rfl

theorem applyWrites_append (xs : List α) (ws ws' : List (Write α)) :
    applyWrites xs (ws ++ ws') = applyWrites (applyWrites xs ws) ws' :=
  List.foldl_append

theorem length_applyWrites {xs : List α} {ws : List (Write α)}
    (h : ∀ w ∈ ws, w.stop ≤ xs.length) : (applyWrites xs ws).length = xs.length := by
  induction ws generalizing xs with
  | nil => rfl
  | cons w ws ih =>
    have hw : (splice xs w.pos w.data).length = xs.length :=
      length_splice (h w List.mem_cons_self)
    rw [applyWrites_cons, ih, hw]
    intro w' hw'
    rw [hw]
    exact h w' (List.mem_cons_of_mem w hw')

theorem getElem?_splice_of_agrees {target xs : List α} {w : Write α}
    (hl : xs.length = target.length) (hw : w.Agrees target) {i : Nat} :
    (splice xs w.pos w.data)[i]? =
      if w.pos ≤ i ∧ i < w.stop then target[i]? else xs[i]? := by
  have hfit : w.pos + w.data.length ≤ xs.length := by rw [hl]; exact hw.1
  rw [getElem?_splice hfit]
  change (if w.pos ≤ i ∧ i < w.stop then _ else _) = _
  by_cases hi : w.pos ≤ i ∧ i < w.stop
  · have hlt : i - w.pos < w.data.length := by have := hi.2; unfold Write.stop at this; omega
    rw [if_pos hi, if_pos hi, ← hw.2, getElem?_slice, if_pos hlt]
    congr 1
    omega
  · rw [if_neg hi, if_neg hi]

/-- Position by position: reached by a write that agrees with the target, or untouched. -/
theorem getElem?_applyWrites {target xs : List α} {ws : List (Write α)}
    (hl : xs.length = target.length) (hw : ∀ w ∈ ws, w.Agrees target) (i : Nat) :
    (applyWrites xs ws)[i]? =
      if ∃ w ∈ ws, w.pos ≤ i ∧ i < w.stop then target[i]? else xs[i]? := by
  induction ws generalizing xs with
  | nil => simp
  | cons w ws ih =>
    have hw0 := hw w List.mem_cons_self
    have hl' : (splice xs w.pos w.data).length = target.length := by
      rw [length_splice (by rw [hl]; exact hw0.1), hl]
    rw [applyWrites_cons, ih hl' (fun w' h' => hw w' (List.mem_cons_of_mem w h')),
      getElem?_splice_of_agrees hl hw0]
    by_cases h1 : ∃ w' ∈ ws, w'.pos ≤ i ∧ i < w'.stop
    · rw [if_pos h1, if_pos]
      obtain ⟨w', hm, hc⟩ := h1
      exact ⟨w', List.mem_cons_of_mem w hm, hc⟩
    · rw [if_neg h1]
      by_cases h2 : w.pos ≤ i ∧ i < w.stop
      · rw [if_pos h2, if_pos ⟨w, List.mem_cons_self, h2⟩]
      · rw [if_neg h2, if_neg]
        rintro ⟨w', hm, hc⟩
        rcases List.mem_cons.mp hm with rfl | hm
        · exact h2 hc
        · exact h1 ⟨w', hm, hc⟩

/-- A position that no write reaches keeps its element. -/
theorem getElem?_applyWrites_of_not_reached {xs : List α} {ws : List (Write α)}
    (hw : ∀ w ∈ ws, w.stop ≤ xs.length) {i : Nat}
    (hi : ∀ w ∈ ws, ¬ (w.pos ≤ i ∧ i < w.stop)) : (applyWrites xs ws)[i]? = xs[i]? := by
  induction ws generalizing xs with
  | nil => rfl
  | cons w ws ih =>
    have hlen : (splice xs w.pos w.data).length = xs.length :=
      length_splice (hw w List.mem_cons_self)
    rw [applyWrites_cons, ih (fun w' h' => hlen.symm ▸ hw w' (List.mem_cons_of_mem w h'))
      (fun w' h' => hi w' (List.mem_cons_of_mem w h')), getElem?_splice (hw w List.mem_cons_self)]
    exact if_neg (hi w List.mem_cons_self)

/-- No position lies in the windows of both writes. -/
def Write.Clear (w w' : Write α) : Prop :=
  ∀ i, w.pos ≤ i ∧ i < w.stop → ¬ (w'.pos ≤ i ∧ i < w'.stop)

/-- What writes to separate windows wrote is all still there at the end. -/
theorem slice_applyWrites {xs : List α} {ws : List (Write α)}
    (hb : ∀ w ∈ ws, w.stop ≤ xs.length) (hw : ws.Pairwise Write.Clear) {w : Write α}
    (hm : w ∈ ws) : slice (applyWrites xs ws) w.pos w.data.length = w.data := by
  induction ws generalizing xs with
  | nil => cases hm
  | cons v ws ih =>
    obtain ⟨hv, hws⟩ := List.pairwise_cons.mp hw
    have hlen : (splice xs v.pos v.data).length = xs.length :=
      length_splice (hb v List.mem_cons_self)
    have hb' : ∀ w ∈ ws, w.stop ≤ (splice xs v.pos v.data).length :=
      fun w' h' => hlen.symm ▸ hb w' (List.mem_cons_of_mem v h')
    rw [applyWrites_cons]
    rcases List.mem_cons.mp hm with rfl | hm
    · apply List.ext_getElem?
      intro i
      rw [getElem?_slice]
      split_ifs with hi
      · have hin : w.pos ≤ w.pos + i ∧ w.pos + i < w.stop := by
          unfold Write.stop
          omega
        rw [getElem?_applyWrites_of_not_reached hb' (fun w' h' => hv w' h' _ hin),
          getElem?_splice (hb w List.mem_cons_self), if_pos ⟨hin.1, hin.2⟩,
          Nat.add_sub_cancel_left]
      · rw [List.getElem?_eq_none (by omega)]
    · exact ih hb' hws hm

/-- Writes that agree with the target and reach every position leave the target,
in any order and over any previous contents. -/
theorem applyWrites_eq_of_cover {target xs : List α} {ws : List (Write α)}
    (hl : xs.length = target.length) (hw : ∀ w ∈ ws, w.Agrees target)
    (hc : ∀ i < target.length, ∃ w ∈ ws, w.pos ≤ i ∧ i < w.stop) :
    applyWrites xs ws = target := by
  apply List.ext_getElem?
  intro i
  rw [getElem?_applyWrites hl hw]
  by_cases hi : i < target.length
  · rw [if_pos (hc i hi)]
  · have hx : xs[i]? = none := List.getElem?_eq_none (by omega)
    have ht : target[i]? = none := List.getElem?_eq_none (by omega)
    simp [hx, ht]

end ActiveBsp.Library.Buffer
