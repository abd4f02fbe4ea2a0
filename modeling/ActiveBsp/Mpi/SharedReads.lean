import ActiveBsp.Management.Parts
import ActiveBsp.Mpi.MPIActorCommunicator

/-!
# The shared-memory shortcut for parts of the own process

`dv_get_part` reads a part of its own process without a message. Offset and
size pass through `int` on the way, so far into a large part the copy comes
from another place, or does not happen at all, while the manager thread would
have answered the same request from the right one.
-/
namespace ActiveBsp.MPIActorCommunicator

open Library Library.Buffer Library.MachineInt

set_option autoImplicit false

variable {ds : DataStore} {s : ActorServer} {data buf : Bytes} {r : ResultReqPart}

theorem readLocal_eq (hget : ds.getPartData r.resid = .ok (some data, data.length)) (buf : Bytes) :
    readLocal ds buf r =
      if data.length < toUInt64 (toInt32 (toInt32 r.offset + toInt32 r.size)) then .ok buf
      else if data.length < toUInt64 (toInt32 r.offset) + toUInt64 (toInt32 r.size) then
        .error .undefined
      else .ok (splice buf r.dst
        (slice data (toUInt64 (toInt32 r.offset)) (toUInt64 (toInt32 r.size)))) := by
  simp only [readLocal, readStoredResult, hget, bind, Except.bind]

/-- The copy is the right one when the offset survives its way through `int` and the sum taken
there is not mistaken for a range past the end. -/
theorem readLocal_of_survives (hget : ds.getPartData r.resid = .ok (some data, data.length))
    (hin : r.offset + r.size ≤ data.length) (hsize : r.size < 2 ^ 31)
    (hoff : toUInt64 (toInt32 r.offset) = r.offset)
    (hsum : toUInt64 (toInt32 (toInt32 r.offset + r.size)) ≤ data.length) (buf : Bytes) :
    readLocal ds buf r = .ok (splice buf r.dst (slice data r.offset r.size)) := by
  have hcount : toInt32 (r.size : Int) = r.size := toInt32_natCast hsize
  rw [readLocal_eq hget, hcount, hoff, toUInt64_natCast (n := r.size) (by omega),
    if_neg (Nat.not_lt.mpr hsum), if_neg (Nat.not_lt.mpr hin)]

/-- An empty range is copied, or skipped, without a trace. -/
theorem readLocal_of_empty (hget : ds.getPartData r.resid = .ok (some data, data.length))
    (hsize : r.size = 0) (buf : Bytes) : readLocal ds buf r = .ok buf := by
  have hzero : toInt32 ((0 : Nat) : Int) = 0 := rfl
  have hback : toInt32 (toInt32 (r.offset : Int) + 0) = toInt32 r.offset := by
    unfold toInt32
    rw [add_zero, Int.bmod_bmod]
  rw [readLocal_eq hget, hsize, hzero, hback, show toUInt64 0 = 0 from rfl, Nat.add_zero, slice_zero,
    splice_nil]
  split_ifs <;> rfl

theorem repliesTo_of_fits {self : Int} (hl : s.resultStoreLock = false)
    (hget : s.dataStore.getPartData r.resid = .ok (some data, data.length))
    (h64 : data.length < 2 ^ 64) (hin : r.offset + r.size ≤ data.length)
    (hsize : r.size < 2 ^ 31) :
    repliesTo self (ActorServer.handleGetResultPartsMessage self ⟨self, [r]⟩ s).1 =
      [slice data r.offset r.size] := by
  have hpart : ActorServer.getPartData r.resid { s with resultStoreLock := true } =
      ([], .ok ((some data, data.length), { s with resultStoreLock := true })) := by
    simp only [ActorServer.getPartData, Act.lift_apply, hget]
    rfl
  have hfits : ¬ data.length < add64 r.offset r.size := by
    rw [add64_of_lt (by omega)]
    omega
  have hloop : ActorServer.answerParts self self [r] { s with resultStoreLock := true } =
      ([.resultPart self (slice data r.offset r.size)],
        .ok (true, { s with resultStoreLock := true })) := by
    rw [ActorServer.answerParts, Act.bind_of_ok hpart]
    dsimp only
    rw [if_neg hfits, Act.bind_of_ok (ActorServer.sendResultPart_fits hin hsize)]
    rfl
  rw [ActorServer.handleGetResultPartsMessage,
    Act.bind_of_ok (ActorServer.lockResultStore_of_free hl), Act.bind_of_ok hloop]
  simp [repliesTo, replyTo, ActorServer.unlockResultStore]

/-- For every part of `len` bytes and every buffer with room, the request is answered with the
stored bytes, and the shortcut writes the same bytes. -/
def SharedAgrees (len offset size : Nat) : Prop :=
  ∀ (s : ActorServer) (self key : Int) (data buf : Bytes) (dst : Nat), data.length = len →
    s.resultStoreLock = false → s.dataStore.getPartData key = .ok (some data, data.length) →
    dst + size ≤ buf.length →
    ∃ bytes, bytes = slice data offset size ∧
      repliesTo self (ActorServer.handleGetResultPartsMessage self
        ⟨self, [⟨key, offset, size, dst⟩]⟩ s).1 = [bytes] ∧
      readLocal s.dataStore buf ⟨key, offset, size, dst⟩ = .ok (splice buf dst bytes)

/-- The range ends below 2^31. Past that, only an empty range, an offset so high that widening
restores it, or a part so long that a negative sum still passes the test. -/
def WithinInt (len offset size : Nat) : Prop :=
  size = 0 ∨ offset + size < 2 ^ 31 ∨ 2 ^ 64 - 2 ^ 31 ≤ offset ∨
    offset < 2 ^ 31 ∧ 2 ^ 64 - 2 ^ 32 + (offset + size) ≤ len

instance (len offset size : Nat) : Decidable (WithinInt len offset size) := by
  unfold WithinInt
  infer_instance

/-- The shared-memory read of a range that the `int` parameters hold. -/
theorem readLocal_of_withinInt (hget : ds.getPartData r.resid = .ok (some data, data.length))
    (h64 : data.length < 2 ^ 64) (hin : r.offset + r.size ≤ data.length)
    (hsize : r.size < 2 ^ 31) (h : WithinInt data.length r.offset r.size) (buf : Bytes) :
    readLocal ds buf r = .ok (splice buf r.dst (slice data r.offset r.size)) := by
  rcases h with hzero | hsmall | hhigh | ⟨hoff31, hlong⟩
  · rw [readLocal_of_empty hget hzero, hzero, slice_zero, splice_nil]
  · have hoff : toInt32 (r.offset : Int) = r.offset := toInt32_natCast (by omega)
    have hsum : toInt32 ((r.offset : Int) + r.size) = (r.offset + r.size : Nat) :=
      (congrArg toInt32 (Nat.cast_add _ _).symm).trans (toInt32_natCast hsmall)
    apply readLocal_of_survives hget hin hsize
    · rw [hoff, toUInt64_natCast (by omega)]
    · rw [hoff, hsum, toUInt64_natCast (by omega)]
      exact hin
  · have hoff : toInt32 (r.offset : Int) = r.offset - 2 ^ 64 := toInt32_of_high (by omega) hhigh
    apply readLocal_of_survives hget hin hsize
    · rw [hoff]
      unfold toUInt64
      omega
    · rw [hoff, toInt32_of_range (by omega) (by omega)]
      unfold toUInt64
      omega
  · have hoff : toInt32 (r.offset : Int) = r.offset := toInt32_natCast hoff31
    apply readLocal_of_survives hget hin hsize
    · rw [hoff, toUInt64_natCast (by omega)]
    · rw [hoff]
      rcases Nat.lt_or_ge (r.offset + r.size) (2 ^ 31) with hsmall | hbig
      · rw [toInt32_of_range (by omega) (by omega)]
        unfold toUInt64
        omega
      · rw [toUInt64_toInt32_of_carry (by omega) (by omega)]
        omega

theorem sharedAgrees_of_withinInt {len offset size : Nat} (hlen : len < 2 ^ 64)
    (hin : offset + size ≤ len) (hsize : size < 2 ^ 31) (h : WithinInt len offset size) :
    SharedAgrees len offset size := by
  rintro s self key data buf dst rfl hl hget -
  have hreply := @repliesTo_of_fits s data ⟨key, offset, size, dst⟩ self hl hget hlen hin hsize
  have hread := readLocal_of_withinInt (r := ⟨key, offset, size, dst⟩) hget hlen hin hsize h buf
  exact ⟨_, rfl, hreply, hread⟩

/-- Zeros with a one at `offset`. -/
def marked (len offset : Nat) : Bytes :=
  List.replicate offset 0 ++ 1 :: List.replicate (len - offset - 1) 0

theorem length_marked {len offset : Nat} (h : offset < len) : (marked len offset).length = len := by
  simp only [marked, List.length_append, List.length_replicate, List.length_cons]
  omega

theorem marked_get (len offset : Nat) : (marked len offset)[offset]? = some 1 := by
  rw [marked, List.getElem?_append_right (by simp)]
  simp

theorem marked_get_of_ne {len offset i : Nat} (h : i ≠ offset) :
    (marked len offset)[i]? ≠ some 1 := by
  intro hone
  rw [marked] at hone
  rcases Nat.lt_or_gt_of_ne h with hlt | hgt
  · rw [List.getElem?_append_left (by simpa using hlt)] at hone
    have hmem := List.mem_of_getElem? hone
    rw [List.mem_replicate] at hmem
    exact absurd hmem.2 (by decide)
  · rw [List.getElem?_append_right (by simpa using hgt.le), List.length_replicate,
      List.getElem?_cons, if_neg (by omega)] at hone
    have hmem := List.mem_of_getElem? hone
    rw [List.mem_replicate] at hmem
    exact absurd hmem.2 (by decide)

/-- The server that keeps one vector part and nothing else. -/
def keeping (key : Int) (part : Part) : ActorServer :=
  { pid := 0, dataStore := .single key part }

/-- With a mark at the requested offset the copy shows where it came from: the offset must have
survived, and the test must have let the range pass. -/
theorem survives_of_agrees {len offset size : Nat} (hin : offset + size ≤ len) (hpos : 0 < size)
    (hsize : size < 2 ^ 31) (h : SharedAgrees len offset size) :
    toUInt64 (toInt32 offset) = offset ∧
      toUInt64 (toInt32 (toInt32 (offset : Int) + size)) ≤ len := by
  have hlen : (marked len offset).length = len := length_marked (by omega)
  have hne : marked len offset ≠ [] := List.ne_nil_of_length_pos (by omega)
  have hrep := DataStore.single_represents 0 (Part.ofVector (marked len offset))
  have hget : (keeping 0 (.ofVector (marked len offset))).dataStore.getPartData 0 =
      .ok (some (marked len offset), (marked len offset).length) := by
    rw [keeping, DataStore.getPartData_of_represents hrep]
    exact congrArg Except.ok (PartTable.get_of_available
      (PartTable.available_of_whole (PartialMap.set_self _ _ _) rfl hne))
  obtain ⟨bytes, rfl, -, hread⟩ := h (keeping 0 (.ofVector (marked len offset))) 0 0
    (marked len offset) (List.replicate size 0) 0 hlen rfl hget (by simp)
  have hcount : toInt32 (size : Int) = size := toInt32_natCast hsize
  have hslice : (slice (marked len offset) offset size).length = size :=
    length_slice_of_le (by omega)
  have hfirst : (splice (List.replicate size 0) 0 (slice (marked len offset) offset size))[0]? =
      some 1 := by
    rw [getElem?_splice (by rw [hslice, List.length_replicate, Nat.zero_add]), hslice,
      if_pos ⟨le_rfl, by omega⟩, getElem?_slice, Nat.sub_zero, if_pos hpos, Nat.add_zero, marked_get]
  rw [readLocal_eq (r := ⟨0, offset, size, 0⟩) hget] at hread
  dsimp only at hread
  rw [hcount, hlen] at hread
  split_ifs at hread with htest hrange
  · rw [← Except.ok.inj hread, List.getElem?_replicate, if_pos hpos] at hfirst
    cases hfirst
  · refine ⟨?_, Nat.not_lt.mp htest⟩
    by_contra hoff
    have hcopied : (slice (marked len offset) (toUInt64 (toInt32 offset)) size).length = size := by
      apply length_slice_of_le
      rw [toUInt64_natCast (n := size) (by omega)] at hrange
      omega
    rw [← Except.ok.inj hread, toUInt64_natCast (n := size) (by omega),
      getElem?_splice (by rw [hcopied, List.length_replicate, Nat.zero_add]), hcopied,
      if_pos ⟨le_rfl, by omega⟩, getElem?_slice, Nat.sub_zero, if_pos hpos, Nat.add_zero] at hfirst
    exact marked_get_of_ne hoff hfirst

theorem withinInt_of_sharedAgrees {len offset size : Nat} (hin : offset + size ≤ len)
    (hsize : size < 2 ^ 31) (h : SharedAgrees len offset size) : WithinInt len offset size := by
  unfold WithinInt
  rcases Nat.eq_zero_or_pos size with hzero | hpos
  · exact Or.inl hzero
  obtain ⟨hoff, hsum⟩ := survives_of_agrees hin hpos hsize h
  have hrange := toUInt64_toInt32_range (offset : Int)
  rw [hoff] at hrange
  rcases hrange with hlow | hhigh
  · rw [toInt32_natCast hlow] at hsum
    rcases Nat.lt_or_ge (offset + size) (2 ^ 31) with hsmall | hbig
    · exact Or.inr (Or.inl hsmall)
    · rw [toUInt64_toInt32_of_carry (by omega) (by omega)] at hsum
      refine Or.inr (Or.inr (Or.inr ⟨hlow, ?_⟩))
      omega
  · exact Or.inr (Or.inr (Or.inl hhigh))

/-- The shortcut agrees with the message for every stored part exactly when the range passes
through `int`. -/
theorem sharedAgrees_iff {len offset size : Nat} (hlen : len < 2 ^ 64) (hin : offset + size ≤ len)
    (hsize : size < 2 ^ 31) : SharedAgrees len offset size ↔ WithinInt len offset size :=
  ⟨withinInt_of_sharedAgrees hin hsize, sharedAgrees_of_withinInt hlen hin hsize⟩

theorem sharedAgrees_iff_sample : SharedAgrees 10 4 6 ↔ WithinInt 10 4 6 :=
  sharedAgrees_iff (by decide) (by decide) (by decide)

/-- One byte at offset 2^32: the first byte of the part is copied instead. -/
theorem shared_read_past_int : ¬ SharedAgrees (2 ^ 32 + 1) (2 ^ 32) 1 := by
  intro h
  have hwithin := withinInt_of_sharedAgrees (by decide) (by decide) h
  revert hwithin
  decide

end ActiveBsp.MPIActorCommunicator
