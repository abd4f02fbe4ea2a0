import ActiveBsp.Serialization.Archive
import Mathlib.Tactic.IntervalCases

/-!
# Reading a distribution back

An archive is read back by the class that wrote it. The two classes do not read
each other's archives: one class header too many shifts the size of the buffer
away from where the base class looks for it, one too few makes the derived class
take it for a header.
-/
namespace ActiveBsp.Serialization

open Library Library.MachineInt

set_option autoImplicit false

@[simp] theorem length_intBytes (x : Int) : (intBytes x).length = 4 :=
  LittleEndian.length_encode _ _

@[simp] theorem length_partBytes (part : VectorDistributionPart) : (partBytes part).length = 24 := by
  simp [partBytes]

theorem length_getBuf (dv : VectorDistribution) : (getBuf dv).length = getBufSize dv := by
  have hparts : ∀ parts : List VectorDistributionPart,
      (parts.flatMap partBytes).length = 24 * parts.length := by
    intro parts
    induction parts with
    | nil => rfl
    | cons part parts ih =>
      rw [List.flatMap_cons, List.length_append, ih, length_partBytes, List.length_cons]
      omega
  simp only [getBuf, List.length_append, length_intBytes, List.length_replicate, hparts,
    getBufSize, VectorDistribution.nparts]
  omega

theorem intOfBytes_intBytes {x : Int} (hl : -2 ^ 31 ≤ x) (hu : x < 2 ^ 31) :
    intOfBytes (intBytes x) = x := by
  have hlt : (x % 2 ^ 32).toNat < 256 ^ 4 := by omega
  rw [intOfBytes, intBytes, LittleEndian.decode_encode_of_lt hlt]
  unfold toInt32
  rw [Int.bmod_def]
  omega

/-- The fields are values of their types. -/
structure InRange (part : VectorDistributionPart) : Prop where
  pid : -2 ^ 31 ≤ part.pid ∧ part.pid < 2 ^ 31
  resid : -2 ^ 31 ≤ part.resid ∧ part.resid < 2 ^ 31
  size : part.size < 2 ^ 64
  offset : part.offset < 2 ^ 64

theorem partOfBytes_partBytes {part : VectorDistributionPart} (h : InRange part) :
    partOfBytes (partBytes part) = part := by
  have hpid : (partBytes part).take 4 = intBytes part.pid :=
    List.take_left' (length_intBytes _)
  have h4 : (partBytes part).drop 4 = intBytes part.resid ++
      (LittleEndian.encode 8 part.size ++ LittleEndian.encode 8 part.offset) :=
    List.drop_left' (length_intBytes _)
  have h8 : (partBytes part).drop 8 =
      LittleEndian.encode 8 part.size ++ LittleEndian.encode 8 part.offset := by
    rw [show (8 : Nat) = 4 + 4 from rfl, ← List.drop_drop, h4,
      List.drop_left' (length_intBytes _)]
  have h16 : (partBytes part).drop 16 = LittleEndian.encode 8 part.offset := by
    rw [show (16 : Nat) = 8 + 8 from rfl, ← List.drop_drop, h8,
      List.drop_left' (LittleEndian.length_encode _ _)]
  have hsize : part.size < 256 ^ 8 := by have := h.size; omega
  have hoffset : part.offset < 256 ^ 8 := by have := h.offset; omega
  unfold partOfBytes
  rw [hpid, h4, h8, h16, List.take_left' (length_intBytes _),
    List.take_left' (LittleEndian.length_encode _ _),
    List.take_of_length_le (by simp), intOfBytes_intBytes h.pid.1 h.pid.2,
    intOfBytes_intBytes h.resid.1 h.resid.2, LittleEndian.decode_encode_of_lt hsize,
    LittleEndian.decode_encode_of_lt hoffset]

theorem partsOfBytes_flatMap {parts : List VectorDistributionPart}
    (h : ∀ part ∈ parts, InRange part) :
    partsOfBytes parts.length (parts.flatMap partBytes) = some parts := by
  induction parts with
  | nil => rfl
  | cons part parts ih =>
    have hlen : ¬ (partBytes part ++ parts.flatMap partBytes).length < 24 := by simp
    rw [List.flatMap_cons, List.length_cons, partsOfBytes, if_neg hlen,
      List.drop_left' (length_partBytes part), List.take_left' (length_partBytes part),
      ih fun p hp => h p (List.mem_cons_of_mem part hp),
      partOfBytes_partBytes (h part List.mem_cons_self)]
    rfl

/-- Fields in range, and a buffer whose size is an `int`. -/
structure Valid (dv : VectorDistribution) : Prop where
  parts : ∀ part ∈ dv.parts, InRange part
  size : getBufSize dv < 2 ^ 31

theorem ofBuf_getBuf {dv : VectorDistribution} (h : Valid dv) : ofBuf (getBuf dv) = some dv := by
  have hlen := length_getBuf dv
  have hsize := h.size
  unfold getBufSize at hlen hsize
  have hn : intOfBytes (intBytes dv.nparts) = dv.nparts :=
    intOfBytes_intBytes (by omega) (by omega)
  have hdrop : (getBuf dv).drop 8 = dv.parts.flatMap partBytes := by
    rw [show (8 : Nat) = 4 + 4 from rfl, ← List.drop_drop, getBuf,
      List.drop_left' (length_intBytes _), List.drop_left' (List.length_replicate ..)]
  have htake : (getBuf dv).take 4 = intBytes dv.nparts := List.take_left' (length_intBytes _)
  unfold ofBuf
  rw [htake, hdrop, hn, if_neg (by omega), Int.toNat_natCast, VectorDistribution.nparts,
    partsOfBytes_flatMap h.parts]
  rfl

/-- The accessors need a buffer with room for all parts. -/
theorem length_of_partsOfBytes {n : Nat} {bs : Bytes} {parts : List VectorDistributionPart}
    (h : partsOfBytes n bs = some parts) : parts.length = n ∧ 24 * n ≤ bs.length := by
  induction n generalizing bs parts with
  | zero =>
    cases h
    exact ⟨rfl, Nat.zero_le _⟩
  | succ n ih =>
    rw [partsOfBytes] at h
    by_cases hlen : bs.length < 24
    · rw [if_pos hlen] at h
      cases h
    · rw [if_neg hlen, Option.map_eq_some_iff] at h
      obtain ⟨rest, hrest, rfl⟩ := h
      obtain ⟨h1, h2⟩ := ih hrest
      rw [List.length_drop] at h2
      rw [List.length_cons]
      omega

theorem getBufSize_le_of_ofBuf {buf : Bytes} {dv : VectorDistribution} (h : ofBuf buf = some dv) :
    getBufSize dv ≤ buf.length := by
  unfold ofBuf at h
  by_cases hbad : buf.length < 8 ∨ intOfBytes (buf.take 4) < 0
  · rw [if_pos hbad] at h
    cases h
  · rw [if_neg hbad, Option.map_eq_some_iff] at h
    obtain ⟨parts, hparts, rfl⟩ := h
    obtain ⟨h1, h2⟩ := length_of_partsOfBytes hparts
    rw [List.length_drop] at h2
    simp only [getBufSize, VectorDistribution.nparts, h1]
    omega

namespace ArchiveFormat

variable {fmt : ArchiveFormat}

theorem readBytes_append {n : Nat} {xs : Bytes} (h : xs.length = n) (ys : Bytes) :
    readBytes n (xs ++ ys) = some (xs, ys) := by
  unfold readBytes
  rw [if_neg (by simp [h]), List.take_left' h, List.drop_left' h]

theorem readBytes_inv {n : Nat} {stream : Bytes} {r : Bytes × Bytes}
    (h : readBytes n stream = some r) :
    r.1.length = n ∧ r.1.length + r.2.length = stream.length := by
  unfold readBytes at h
  by_cases hlen : stream.length < n
  · rw [if_pos hlen] at h
    cases h
  · rw [if_neg hlen] at h
    cases h
    rw [List.length_take, List.length_drop]
    omega

theorem openArchive_header (stream : Bytes) : fmt.openArchive (fmt.header ++ stream) = some stream := by
  unfold openArchive
  rw [readBytes_append rfl]
  simp

theorem length_saveClassHeader : fmt.saveClassHeader.length = fmt.classHeader :=
  List.length_replicate ..

theorem length_saveBase (fmt : ArchiveFormat) (dv : VectorDistribution) :
    (fmt.saveBase dv).length = fmt.classHeader + (8 + getBufSize dv) := by
  simp only [saveBase, List.length_append, length_saveClassHeader, LittleEndian.length_encode,
    length_getBuf]

theorem loadBase_saveBase {dv : VectorDistribution} (h : Valid dv) :
    fmt.loadBase (fmt.saveBase dv) = some (getBuf dv, []) := by
  have hsize : LittleEndian.decode (LittleEndian.encode 8 (getBufSize dv)) = getBufSize dv :=
    LittleEndian.decode_encode_of_lt (by have := h.size; omega)
  have hbuf := readBytes_append (length_getBuf dv) []
  rw [List.append_nil] at hbuf
  rw [loadBase, saveBase, readBytes_append length_saveClassHeader, Option.bind_some,
    readBytes_append (LittleEndian.length_encode _ _), Option.bind_some, hsize, hbuf]

/-- The base class reads what it wrote. -/
theorem deserializeBase_serializeBase {dv : VectorDistribution} (h : Valid dv) :
    fmt.deserializeBase (fmt.serializeBase dv) = some dv := by
  rw [deserializeBase, serializeBase, openArchive_header, Option.bind_some, loadBase_saveBase h,
    Option.bind_some, ofBuf_getBuf h]

theorem deserializeAll_serializeAll {dv : VectorDistribution} (h : Valid dv) :
    fmt.codec.deserializeAll (fmt.codec.serializeAll dv) = some dv :=
  deserializeBase_serializeBase h

/-- So does the derived class. -/
theorem deserializeDerived_serializeDerived {dv : VectorDistribution} (h : Valid dv) :
    fmt.deserializeDerived (fmt.serializeDerived dv) = some dv := by
  rw [deserializeDerived, serializeDerived, openArchive_header, Option.bind_some, loadDerived,
    saveDerived, readBytes_append length_saveClassHeader, Option.bind_some, loadBase_saveBase h,
    Option.bind_some, ofBuf_getBuf h]

theorem loadBase_length {stream : Bytes} {r : Bytes × Bytes} (h : fmt.loadBase stream = some r) :
    fmt.classHeader + (8 + r.1.length) ≤ stream.length := by
  unfold loadBase at h
  obtain ⟨header, h₁, h⟩ := Option.bind_eq_some_iff.mp h
  obtain ⟨size, h₂, h₃⟩ := Option.bind_eq_some_iff.mp h
  have l₁ := readBytes_inv h₁
  have l₂ := readBytes_inv h₂
  have l₃ := readBytes_inv h₃
  omega

/-- The derived class finds no room for the parts in an archive of the base class. -/
theorem deserializeDerived_serializeBase_ne (hfmt : 0 < fmt.classHeader) (dv : VectorDistribution) :
    fmt.deserializeDerived (fmt.serializeBase dv) ≠ some dv := by
  intro h
  rw [deserializeDerived, serializeBase, openArchive_header, Option.bind_some] at h
  obtain ⟨buf, hload, hbuf⟩ := Option.bind_eq_some_iff.mp h
  obtain ⟨header, h₁, h₂⟩ := Option.bind_eq_some_iff.mp hload
  have l₁ := readBytes_inv h₁
  have l₂ := loadBase_length h₂
  have l₃ := getBufSize_le_of_ofBuf hbuf
  have l₄ := length_saveBase fmt dv
  omega

/-- Where the base class looks for the size, an archive of the derived class has zeros
before the first bytes of the size. -/
theorem misreadSize {size k : Nat} (hk : 0 < k) (hsize : 8 ≤ size) (hsmall : size < 2 ^ 31)
    (buf : Bytes) {misread : Nat} (hmis : misread = LittleEndian.decode
      ((List.replicate k 0 ++ (LittleEndian.encode 8 size ++ buf)).take 8)) :
    misread = 0 ∨ k + size < misread := by
  by_cases hk8 : 8 ≤ k
  · left
    have htake : (List.replicate k (0 : UInt8) ++ (LittleEndian.encode 8 size ++ buf)).take 8 =
        List.replicate 8 0 := by
      rw [List.take_append_of_le_length (by simpa using hk8), List.take_replicate,
        Nat.min_eq_left hk8]
    rw [hmis, htake, LittleEndian.decode_zeros]
  · have htake : (List.replicate k (0 : UInt8) ++ (LittleEndian.encode 8 size ++ buf)).take 8 =
        List.replicate k 0 ++ LittleEndian.encode (8 - k) size := by
      rw [List.take_append, List.take_of_length_le (by simp; omega), List.length_replicate,
        List.take_append_of_le_length (by simp), LittleEndian.take_encode _ (by omega)]
    have hval : misread = 256 ^ k * (size % 256 ^ (8 - k)) := by
      rw [hmis, htake, LittleEndian.decode_append, LittleEndian.decode_zeros,
        List.length_replicate, LittleEndian.decode_encode, Nat.zero_add]
    rw [hval]
    interval_cases k <;> omega

/-- The base class reads an empty buffer, or runs into the end of the archive. -/
theorem deserializeBase_serializeDerived (hfmt : 0 < fmt.classHeader) {dv : VectorDistribution}
    (hsize : getBufSize dv < 2 ^ 31) : fmt.deserializeBase (fmt.serializeDerived dv) = none := by
  have h8 : 8 ≤ getBufSize dv := Nat.le_add_right 8 _
  have hlen := length_saveBase fmt dv
  have hmis : LittleEndian.decode ((fmt.saveBase dv).take 8) = 0 ∨
      fmt.classHeader + getBufSize dv < LittleEndian.decode ((fmt.saveBase dv).take 8) :=
    misreadSize hfmt h8 hsize (getBuf dv) rfl
  rw [deserializeBase, serializeDerived, openArchive_header, Option.bind_some, loadBase,
    saveDerived, readBytes_append length_saveClassHeader, Option.bind_some]
  cases hread : readBytes 8 (fmt.saveBase dv) with
  | none => rfl
  | some size =>
    have htake : size.1 = (fmt.saveBase dv).take 8 := by
      unfold readBytes at hread
      rw [if_neg (by omega)] at hread
      cases hread
      rfl
    obtain ⟨hfield, hrest⟩ := readBytes_inv hread
    rw [Option.bind_some, htake]
    rcases hmis with hzero | hbig
    · rw [hzero]
      rfl
    · have hshort : size.2.length < LittleEndian.decode ((fmt.saveBase dv).take 8) := by omega
      rw [readBytes, if_pos hshort]
      rfl

/-- Neither class reads the other's archives. -/
theorem classes_disagree (hfmt : 0 < fmt.classHeader) {dv : VectorDistribution}
    (hsize : getBufSize dv < 2 ^ 31) :
    fmt.deserializeBase (fmt.serializeDerived dv) ≠ some dv ∧
      fmt.deserializeDerived (fmt.serializeBase dv) ≠ some dv := by
  refine ⟨?_, deserializeDerived_serializeBase_ne hfmt dv⟩
  rw [deserializeBase_serializeDerived hfmt hsize]
  simp

/-- The signature of a binary archive, and class headers of a flag and a four-byte version. -/
def sampleFormat : ArchiveFormat where
  header := [22, 0, 0, 0, 0, 0, 0, 0,
    115, 101, 114, 105, 97, 108, 105, 122, 97, 116, 105, 111, 110, 58, 58,
    97, 114, 99, 104, 105, 118, 101, 17, 0, 4, 8, 4, 8, 1, 0, 0, 0]
  classHeader := 5

/-- Forty bytes at process 1, under key 3. -/
def sampleDistribution : VectorDistribution := ⟨[⟨1, 3, 40, 0⟩]⟩

theorem valid_sampleDistribution : Valid sampleDistribution where
  parts := by
    intro part hpart
    obtain rfl := List.mem_singleton.mp hpart
    exact ⟨by decide, by decide, by decide, by decide⟩
  size := by decide

theorem classes_disagree_sample :
    sampleFormat.deserializeBase (sampleFormat.serializeDerived sampleDistribution) ≠
        some sampleDistribution ∧
      sampleFormat.deserializeDerived (sampleFormat.serializeBase sampleDistribution) ≠
        some sampleDistribution :=
  classes_disagree (by decide) (by decide)

/-- The base class runs into the end of the archive, and so does the derived class. -/
theorem sample_archives_misread :
    sampleFormat.deserializeBase (sampleFormat.serializeDerived sampleDistribution) = none ∧
      sampleFormat.deserializeDerived (sampleFormat.serializeBase sampleDistribution) = none := by
  decide +kernel

end ArchiveFormat

end ActiveBsp.Serialization
