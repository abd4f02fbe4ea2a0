import ActiveBsp.Library.Buffer

/-!
# Fields in a buffer

A buffer holds data at a position when the whole data lies inside it. Writes to
windows that do not meet all stay, whatever was in the buffer and whatever
follows it. Reads and writes that leave the buffer have no result.
-/
namespace ActiveBsp.Library.Layout

open Buffer

set_option autoImplicit false

variable {α : Type*} {buf : List α} {pos : Nat} {data : List α} {w : Write α} {ws : List (Write α)}

/-- The buffer has `data` at `pos`. -/
def Holds (buf : List α) (pos : Nat) (data : List α) : Prop :=
  pos + data.length ≤ buf.length ∧ slice buf pos data.length = data

/-- The windows of two writes do not meet. -/
def Apart (w v : Write α) : Prop := w.stop ≤ v.pos ∨ v.stop ≤ w.pos

/-- One write; nothing is written when the window leaves the buffer. -/
def store (buf : List α) (w : Write α) : Option (List α) :=
  if w.stop ≤ buf.length then some (splice buf w.pos w.data) else none

def storeAll (buf : List α) (ws : List (Write α)) : Option (List α) := ws.foldlM store buf

/-- `n` elements from `pos`, all of them inside the buffer. -/
def load (buf : List α) (pos n : Nat) : Option (List α) :=
  if pos + n ≤ buf.length then some (slice buf pos n) else none

theorem load_of_holds (h : Holds buf pos data) : load buf pos data.length = some data := by
  rw [load, if_pos h.1, h.2]

/-- What a buffer holds in its first elements it holds without the others. -/
theorem Holds.take (h : Holds buf pos data) {n : Nat} (hn : pos + data.length ≤ n) :
    Holds (buf.take n) pos data := by
  obtain ⟨hlen, hslice⟩ := h
  have hsame : slice (buf.take n) pos data.length = slice buf pos data.length := by
    apply List.ext_getElem?
    intro i
    simp only [getElem?_slice, List.getElem?_take]
    by_cases hi : i < data.length
    · rw [if_pos hi, if_pos hi, if_pos (by omega)]
    · rw [if_neg hi, if_neg hi]
  refine ⟨?_, hsame.trans hslice⟩
  rw [List.length_take]
  omega

theorem holds_splice (h : w.stop ≤ buf.length) : Holds (splice buf w.pos w.data) w.pos w.data := by
  refine ⟨?_, slice_splice h⟩
  rw [length_splice h]
  exact h

/-- A write to another window leaves what the buffer holds. -/
theorem Holds.splice (h : Holds buf pos data) (hw : w.stop ≤ buf.length)
    (hapart : Apart w ⟨pos, data⟩) : Holds (splice buf w.pos w.data) pos data := by
  obtain ⟨hlen, hslice⟩ := h
  unfold Apart Write.stop at hapart
  dsimp only at hapart
  have hsame : slice (Buffer.splice buf w.pos w.data) pos data.length =
      slice buf pos data.length := by
    apply List.ext_getElem?
    intro i
    simp only [getElem?_slice]
    by_cases hi : i < data.length
    · rw [if_pos hi, if_pos hi, getElem?_splice hw, if_neg (by omega)]
    · rw [if_neg hi, if_neg hi]
  refine ⟨?_, hsame.trans hslice⟩
  rw [length_splice hw]
  exact hlen

theorem Holds.applyWrites (h : Holds buf pos data) (hstop : ∀ w ∈ ws, w.stop ≤ buf.length)
    (hapart : ∀ w ∈ ws, Apart w ⟨pos, data⟩) : Holds (applyWrites buf ws) pos data := by
  induction ws generalizing buf with
  | nil => exact h
  | cons w ws ih =>
    have hw := hstop w List.mem_cons_self
    refine ih (h.splice hw (hapart w List.mem_cons_self)) (fun v hv => ?_) fun v hv =>
      hapart v (List.mem_cons_of_mem w hv)
    rw [length_splice hw]
    exact hstop v (List.mem_cons_of_mem w hv)

/-- Writes to windows apart from each other all stay. -/
theorem holds_applyWrites (hstop : ∀ w ∈ ws, w.stop ≤ buf.length) (hapart : ws.Pairwise Apart)
    (hw : w ∈ ws) : Holds (applyWrites buf ws) w.pos w.data := by
  induction ws generalizing buf with
  | nil => cases hw
  | cons v ws ih =>
    have hv := hstop v List.mem_cons_self
    have hrest : ∀ u ∈ ws, u.stop ≤ (Buffer.splice buf v.pos v.data).length := by
      intro u hu
      rw [length_splice hv]
      exact hstop u (List.mem_cons_of_mem v hu)
    obtain ⟨hfirst, hpair⟩ := List.pairwise_cons.mp hapart
    rw [applyWrites_cons]
    rcases List.mem_cons.mp hw with rfl | hmem
    · exact (holds_splice hv).applyWrites hrest fun u hu => (hfirst u hu).symm
    · exact ih hrest hpair hmem

theorem storeAll_eq (hstop : ∀ w ∈ ws, w.stop ≤ buf.length) :
    storeAll buf ws = some (applyWrites buf ws) := by
  induction ws generalizing buf with
  | nil => rfl
  | cons w ws ih =>
    have hw := hstop w List.mem_cons_self
    have hrest : ∀ v ∈ ws, v.stop ≤ (splice buf w.pos w.data).length := by
      intro v hv
      rw [length_splice hw]
      exact hstop v (List.mem_cons_of_mem w hv)
    rw [storeAll, List.foldlM_cons, store, if_pos hw]
    exact ih hrest

/-- Elements behind all windows are left alone. -/
theorem drop_applyWrites {n : Nat} (hstop : ∀ w ∈ ws, w.stop ≤ n) (hn : n ≤ buf.length) :
    (applyWrites buf ws).drop n = buf.drop n := by
  induction ws generalizing buf with
  | nil => rfl
  | cons w ws ih =>
    have hw : w.stop ≤ n := hstop w List.mem_cons_self
    have hlen : (splice buf w.pos w.data).length = buf.length := length_splice (Nat.le_trans hw hn)
    rw [applyWrites_cons, ih (fun v hv => hstop v (List.mem_cons_of_mem w hv)) (hlen ▸ hn)]
    apply List.ext_getElem?
    intro i
    unfold Write.stop at hw
    rw [List.getElem?_drop, List.getElem?_drop, getElem?_splice (Nat.le_trans hw hn), if_neg (by omega)]

/-- Data in two pieces, one behind the other. -/
theorem holds_append {xs ys : List α} :
    Holds buf pos (xs ++ ys) ↔ Holds buf pos xs ∧ Holds buf (pos + xs.length) ys := by
  unfold Holds
  rw [List.length_append, slice_add]
  constructor
  · rintro ⟨hlen, hslice⟩
    have hxs : (slice buf pos xs.length).length = xs.length := length_slice_of_le (by omega)
    obtain ⟨hfirst, hsecond⟩ := List.append_inj hslice hxs
    exact ⟨⟨by omega, hfirst⟩, ⟨by omega, hsecond⟩⟩
  · rintro ⟨⟨_, hfirst⟩, ⟨hlen, hsecond⟩⟩
    exact ⟨by omega, by rw [hfirst, hsecond]⟩

theorem holds_nil (h : pos ≤ buf.length) : Holds buf pos ([] : List α) :=
  ⟨h, slice_zero buf pos⟩

theorem holds_self (buf : List α) : Holds buf 0 buf := ⟨by simp, slice_full buf⟩

/-- The first write is at `pos`, and each one starts where the one before it stops. -/
def Consecutive : Nat → List (Write α) → Prop
  | _, [] => True
  | pos, w :: ws => w.pos = pos ∧ Consecutive w.stop ws

/-- All that the writes put down, in their order. -/
def dataOf (ws : List (Write α)) : List α := ws.flatMap Write.data

theorem dataOf_cons (w : Write α) (ws : List (Write α)) : dataOf (w :: ws) = w.data ++ dataOf ws :=
  List.flatMap_cons

theorem dataOf_append (ws vs : List (Write α)) : dataOf (ws ++ vs) = dataOf ws ++ dataOf vs :=
  List.flatMap_append

theorem Consecutive.append {vs : List (Write α)} (h : Consecutive pos ws)
    (hvs : Consecutive (pos + (dataOf ws).length) vs) : Consecutive pos (ws ++ vs) := by
  induction ws generalizing pos with
  | nil => exact hvs
  | cons w ws ih =>
    obtain ⟨rfl, hrest⟩ := h
    refine ⟨rfl, ih hrest ?_⟩
    rw [dataOf_cons, List.length_append, ← Nat.add_assoc] at hvs
    exact hvs

theorem Consecutive.inside (h : Consecutive pos ws) (hw : w ∈ ws) :
    pos ≤ w.pos ∧ w.stop ≤ pos + (dataOf ws).length := by
  induction ws generalizing pos with
  | nil => cases hw
  | cons v ws ih =>
    obtain ⟨rfl, hrest⟩ := h
    rw [dataOf_cons, List.length_append]
    have hstop : v.stop = v.pos + v.data.length := rfl
    rcases List.mem_cons.mp hw with rfl | hmem
    · omega
    · have := ih hrest hmem
      omega

theorem Consecutive.apart (h : Consecutive pos ws) : ws.Pairwise Apart := by
  induction ws generalizing pos with
  | nil => exact List.Pairwise.nil
  | cons w ws ih =>
    obtain ⟨rfl, hrest⟩ := h
    exact List.pairwise_cons.mpr ⟨fun v hv => Or.inl (hrest.inside hv).1, ih hrest⟩

theorem Consecutive.holds (h : Consecutive pos ws) (hpos : pos ≤ buf.length)
    (hws : ∀ w ∈ ws, Holds buf w.pos w.data) : Holds buf pos (dataOf ws) := by
  induction ws generalizing pos with
  | nil => exact holds_nil hpos
  | cons w ws ih =>
    obtain ⟨rfl, hrest⟩ := h
    have hfirst := hws w List.mem_cons_self
    rw [dataOf_cons]
    exact holds_append.mpr ⟨hfirst, ih hrest hfirst.1 fun v hv => hws v (List.mem_cons_of_mem w hv)⟩

section Each

variable {β γ : Type*} {read : Nat → Option β} {enc : γ → List α} {val : γ → β} {size : Nat}

/-- `n` values from `pos`, `size` elements apart. -/
def loadEach (read : Nat → Option β) (size : Nat) : Nat → Nat → Option (List β)
  | 0, _ => some []
  | n + 1, pos => do
    let x ← read pos
    let xs ← loadEach read size n (pos + size)
    pure (x :: xs)

theorem loadEach_of_holds {xs : List γ} (hsize : ∀ x ∈ xs, (enc x).length = size)
    (hread : ∀ x ∈ xs, ∀ pos, Holds buf pos (enc x) → read pos = some (val x))
    (h : Holds buf pos (xs.flatMap enc)) :
    loadEach read size xs.length pos = some (xs.map val) := by
  induction xs generalizing pos with
  | nil => rfl
  | cons x xs ih =>
    rw [List.flatMap_cons] at h
    obtain ⟨hfirst, hrest⟩ := holds_append.mp h
    rw [hsize x List.mem_cons_self] at hrest
    have htail := ih (fun y hy => hsize y (List.mem_cons_of_mem x hy))
      (fun y hy => hread y (List.mem_cons_of_mem x hy)) hrest
    rw [List.length_cons, loadEach, hread x List.mem_cons_self pos hfirst, htail]
    rfl

theorem length_flatMap {xs : List γ} (hsize : ∀ x ∈ xs, (enc x).length = size) :
    (xs.flatMap enc).length = size * xs.length := by
  induction xs with
  | nil => rfl
  | cons x xs ih =>
    rw [List.flatMap_cons, List.length_append, hsize x List.mem_cons_self,
      ih fun y hy => hsize y (List.mem_cons_of_mem x hy), List.length_cons, Nat.mul_succ]
    omega

end Each

section Terminated

variable [DecidableEq α] [Zero α]

/-- The elements before the first zero; none when the buffer ends before it. -/
def terminated (buf : List α) (pos : Nat) : Option (List α) :=
  let name := (buf.drop pos).takeWhile (· ≠ 0)
  if pos + name.length < buf.length then some name else none

theorem terminated_of_holds {name : List α} (h : Holds buf pos (name ++ [0])) (hz : 0 ∉ name) :
    terminated buf pos = some name := by
  obtain ⟨hlen, hslice⟩ := h
  rw [List.length_append, List.length_singleton] at hlen
  have hdrop : buf.drop pos = name ++ 0 :: (buf.drop pos).drop (name.length + 1) := by
    have htake : (buf.drop pos).take (name.length + 1) = name ++ [0] := by
      simpa [slice] using hslice
    calc buf.drop pos = (buf.drop pos).take (name.length + 1) ++
          (buf.drop pos).drop (name.length + 1) := (List.take_append_drop _ _).symm
      _ = name ++ 0 :: (buf.drop pos).drop (name.length + 1) := by rw [htake]; simp
  have hname : (buf.drop pos).takeWhile (· ≠ 0) = name := by
    rw [hdrop, List.takeWhile_append_of_pos fun x hx => by
      simpa using fun he : x = 0 => hz (he ▸ hx)]
    simp
  unfold terminated
  simp only [hname]
  rw [if_pos (by omega)]

end Terminated

end ActiveBsp.Library.Layout
