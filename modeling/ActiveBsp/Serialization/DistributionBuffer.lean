import ActiveBsp.Fault
import ActiveBsp.Library.Buffer
import ActiveBsp.Serialization.RoundTrip

/-!
# The buffer behind a distribution

A `vector_distribution_base` is a vector of bytes: an `int` with the number of
parts, four bytes up to the alignment of the parts, then 24 bytes for each part.
Its size is computed as an `int`.
-/
namespace ActiveBsp.Serialization

open Library Library.Buffer Library.MachineInt

set_option autoImplicit false

/-- `size_for_elems`: computed in `size_t`, returned as an `int`. -/
def sizeForElems (nelem : Int) : Int := toInt32 (add64 8 (mul64 (toUInt64 nelem) 24))

/-- `vector_distribution_base(nelems)`: zero-filled bytes, then the number of parts. -/
def newBuf (nelems : Int) : Except Fault Bytes :=
  let size := toUInt64 (sizeForElems nelems)
  -- no vector is that long: its constructor throws
  if 2 ^ 63 ≤ size then .error .exception
  else if size < 4 then .error .undefined
  else .ok (splice (List.replicate size 0) 0 (intBytes nelems))

/-- `register_part`, on the bytes. -/
def registerPartBytes (buf : Bytes) (i : Nat) (part : VectorDistributionPart) :
    Except Fault Bytes :=
  if 8 + 24 * i + 24 ≤ buf.length then .ok (splice buf (8 + 24 * i) (partBytes part))
  else .error .undefined

theorem sizeForElems_of_small {n : Nat} (h : 8 + 24 * n < 2 ^ 31) :
    sizeForElems n = ((8 + 24 * n : Nat) : Int) := by
  have hn : toUInt64 (n : Int) = n := toUInt64_natCast (by omega)
  have hmul : mul64 n 24 = 24 * n := by
    rw [mul64_of_lt (by omega)]
    omega
  rw [sizeForElems, hn, hmul, add64_of_lt (by omega), toInt32_natCast h]

/-- Whatever the number of parts, the size of a buffer is a non-negative `int`. -/
theorem length_of_newBuf {nelems : Int} {buf : Bytes} (h : newBuf nelems = .ok buf) :
    buf.length < 2 ^ 31 := by
  have hrange := toUInt64_toInt32_range (add64 8 (mul64 (toUInt64 nelems) 24))
  unfold newBuf at h
  dsimp only at h
  split_ifs at h with hbig hsmall
  cases h
  rw [length_splice (by rw [length_intBytes, List.length_replicate]; omega), List.length_replicate]
  unfold sizeForElems at hbig ⊢
  omega

theorem partBytes_zero : partBytes ⟨0, 0, 0, 0⟩ = List.replicate 24 0 := by decide

theorem flatMap_zero_parts (n : Nat) :
    (List.replicate n (⟨0, 0, 0, 0⟩ : VectorDistributionPart)).flatMap partBytes =
      List.replicate (24 * n) 0 := by
  induction n with
  | zero => rfl
  | succ n ih =>
    rw [List.replicate_succ, List.flatMap_cons, ih, partBytes_zero, List.replicate_append_replicate]
    congr 1
    omega

theorem nparts_new (n : Nat) : (VectorDistribution.new n).nparts = n := List.length_replicate

theorem getBuf_new (n : Nat) :
    getBuf (VectorDistribution.new n) = intBytes n ++ List.replicate (24 * n + 4) 0 := by
  rw [getBuf, nparts_new]
  unfold VectorDistribution.new
  rw [flatMap_zero_parts, List.replicate_append_replicate, Nat.add_comm]

/-- The constructor makes the buffer of a distribution of zero-filled parts. -/
theorem newBuf_of_small {n : Nat} (h : 8 + 24 * n < 2 ^ 31) :
    newBuf n = .ok (getBuf (VectorDistribution.new n)) := by
  have hsize : toUInt64 (sizeForElems n) = 8 + 24 * n := by
    rw [sizeForElems_of_small h, toUInt64_natCast (by omega)]
  have hrest : 8 + 24 * n - 4 = 24 * n + 4 := by omega
  unfold newBuf
  dsimp only
  rw [hsize, if_neg (by omega), if_neg (by omega), getBuf_new, splice, List.take_zero,
    List.nil_append, length_intBytes, Nat.zero_add, List.drop_replicate, hrest]

theorem flatMap_set {parts : List VectorDistributionPart} {i : Nat} (hi : i < parts.length)
    (part : VectorDistributionPart) :
    (parts.set i part).flatMap partBytes =
      splice (parts.flatMap partBytes) (24 * i) (partBytes part) := by
  induction parts generalizing i with
  | nil => simp at hi
  | cons first rest ih =>
    cases i with
    | zero =>
      rw [List.set_cons_zero, List.flatMap_cons, List.flatMap_cons, splice, Nat.mul_zero,
        List.take_zero, List.nil_append, Nat.zero_add, length_partBytes,
        List.drop_left' (length_partBytes first)]
    | succ i =>
      have hpos : 24 * (i + 1) = (partBytes first).length + 24 * i := by
        rw [length_partBytes]
        omega
      rw [List.set_cons_succ, List.flatMap_cons, List.flatMap_cons,
        ih (Nat.lt_of_succ_lt_succ hi), hpos, splice_append]

theorem registerPart_getBuf {dv : VectorDistribution} {i : Nat} (hi : i < dv.nparts)
    (part : VectorDistributionPart) :
    splice (getBuf dv) (8 + 24 * i) (partBytes part) = getBuf (dv.registerPart i part) := by
  have hnparts : (dv.registerPart i part).nparts = dv.nparts := List.length_set
  have hpos : 8 + 24 * i = (intBytes dv.nparts).length +
      ((List.replicate 4 (0 : UInt8)).length + 24 * i) := by
    rw [length_intBytes, List.length_replicate]
    omega
  rw [getBuf, getBuf, hnparts, VectorDistribution.parts_registerPart, flatMap_set hi, hpos,
    splice_append, splice_append]

/-- Registering a part on the bytes registers it in the distribution they hold. -/
theorem registerPartBytes_inv {dv : VectorDistribution} {i : Nat} {part : VectorDistributionPart}
    {buf : Bytes} (h : registerPartBytes (getBuf dv) i part = .ok buf) :
    i < dv.nparts ∧ buf = getBuf (dv.registerPart i part) := by
  have hlen := length_getBuf dv
  unfold getBufSize at hlen
  unfold registerPartBytes at h
  by_cases hfit : 8 + 24 * i + 24 ≤ (getBuf dv).length
  · rw [if_pos hfit] at h
    cases h
    have hi : i < dv.nparts := by omega
    exact ⟨hi, registerPart_getBuf hi part⟩
  · rw [if_neg hfit] at h
    cases h

end ActiveBsp.Serialization
