import ActiveBsp.Actormsg.Envelopes
import ActiveBsp.Fault
import ActiveBsp.Library.Layout
import ActiveBsp.Library.LittleEndian
import ActiveBsp.Library.MachineInt
import ActiveBsp.VectorDistribution
import Mathlib.Data.Vector.Basic

/-!
# Serialisation of arguments without pointers

Three templates go through the same arguments: one predicts their size, one
writes them and one reads them back, each by steps of a size that it finds out
for itself. The types of the arguments alone decide whether these templates are
used or those over the archive library.
-/
namespace ActiveBsp.Serialization.Contiguous

open Library Library.Buffer Library.Layout Library.MachineInt

set_option autoImplicit false

/-- A type for which `std::is_pod` holds. All that counts is its size. -/
structure PodType where
  size : Nat
  pos : 0 < size

inductive ArgType where
  | pod (type : PodType)
  | vector (elem : ArgType)
  | other (name : String)

namespace ArgType

def isPod : ArgType → Bool
  | pod _ => true
  | _ => false

def isContiguousVector : ArgType → Bool
  | vector elem => elem.isPod
  | _ => false

def isContiguous (T : ArgType) : Bool := T.isPod || T.isContiguousVector

end ArgType

def areContiguous : List ArgType → Bool
  | [] => true
  | T :: Ts => T.isContiguous && areContiguous Ts

/-- The values of a type; those without pointers are their bytes, and `O` has the values of the
types that are neither. -/
abbrev Value (O : String → Type) : ArgType → Type
  | .pod type => List.Vector UInt8 type.size
  | .vector elem => List (Value O elem)
  | .other name => O name

abbrev Args (O : String → Type) : List ArgType → Type
  | [] => Unit
  | T :: Ts => Value O T × Args O Ts

variable {O : String → Type}

/-- `predict_contiguous_unit_serialization_size`. -/
def predictUnit : (T : ArgType) → Value O T → Nat
  | .pod type, _ => type.size
  | .vector (.pod type), vec => add64 8 (mul64 vec.length type.size)
  | _, _ => 0

/-- `contiguous_serialize_unit_to_buf`: the buffer and the number of bytes written. -/
def serializeUnit (buf : Bytes) (pos : Nat) : (T : ArgType) → Value O T → Except Fault (Bytes × Nat)
  | .pod type, arg => do
    let buf ← orUndefined (store buf ⟨pos, arg.toList⟩)
    return (buf, type.size)
  | .vector (.pod type), vec => do
    let buf ← orUndefined (store buf ⟨pos, LittleEndian.encode 8 vec.length⟩)
    -- nothing is read through `&vec[0]` of an empty vector
    let buf ← orUndefined (store buf ⟨pos + 8, vec.flatMap List.Vector.toList⟩)
    return (buf, add64 (mul64 vec.length type.size) 8)
  | _, _ => .error .undefined

/-- The object whose bytes are at a place of the buffer. -/
def loadObject (buf : Bytes) (pos n : Nat) : Option (List.Vector UInt8 n) :=
  if h : pos + n ≤ buf.length then some ⟨slice buf pos n, length_slice_of_le h⟩ else none

/-- `memcpy` over the elements of a vector. -/
def memcpyElems (buf : Bytes) {n : Nat} :
    Nat → List (List.Vector UInt8 n) → Except Fault (List (List.Vector UInt8 n))
  | _, [] => .ok []
  | pos, _ :: vec => do
    let x ← orUndefined (loadObject buf pos n)
    let vec ← memcpyElems buf (pos + n) vec
    return x :: vec

/-- `std::vector::resize`: new elements are zero. -/
def resize {n : Nat} (vec : List (List.Vector UInt8 n)) (size : Nat) :
    Except Fault (List (List.Vector UInt8 n)) :=
  -- no vector is that long
  if 2 ^ 63 ≤ size * n then .error .exception
  else .ok (vec.take size ++ List.replicate (size - vec.length) (List.Vector.replicate n 0))

/-- `contiguous_deserialize_unit`: the new value of the destination and the number of bytes read. -/
def deserializeUnit (buf : Bytes) (pos : Nat) :
    (T : ArgType) → Value O T → Except Fault (Value O T × Nat)
  | .pod type, _ => do
    let arg ← orUndefined (loadObject buf pos type.size)
    return (arg, toUInt64 (toInt32 type.size))
  | .vector (.pod type), vec => do
    let bytes ← orUndefined (load buf pos 8)
    let size := LittleEndian.decode bytes
    let vec ← resize vec size
    let vec ← memcpyElems buf (pos + 8) vec
    return (vec, add64 (mul64 size type.size) 8)
  | _, _ => .error .undefined

/-- `predict_contiguous_serialization_size`. -/
def predictAll : (Ts : List ArgType) → Args O Ts → Nat
  | [], _ => 0
  | T :: Ts, (first, others) => add64 (predictUnit T first) (predictAll Ts others)

/-- `contiguous_serialize_all_to_buf`, from a place of the buffer: the buffer, and the place behind
what was written. -/
def contiguousSerializeAll : (Ts : List ArgType) → Bytes → Nat → Args O Ts →
    Except Fault (Bytes × Nat)
  | [], buf, pos, _ => .ok (buf, pos)
  | T :: Ts, buf, pos, (first, others) => do
    let (buf, offset) ← serializeUnit buf pos T first
    contiguousSerializeAll Ts buf (pos + offset) others

/-- `contiguous_deserialize_all`, from a place of the buffer: the destinations, and the place
behind what was read. -/
def contiguousDeserializeAll : (Ts : List ArgType) → Bytes → Nat → Args O Ts →
    Except Fault (Args O Ts × Nat)
  | [], _, pos, _ => .ok ((), pos)
  | T :: Ts, buf, pos, (first, others) => do
    let (first, offset) ← deserializeUnit buf pos T first
    let (others, stop) ← contiguousDeserializeAll Ts buf (pos + offset) others
    return ((first, others), stop)

/-- `boost_serialization.hpp`, over the archive library. -/
structure Archive (O : String → Type) where
  predictBoostSerializationSize : (Ts : List ArgType) → Args O Ts → Nat
  boostSerializeAllToBuf : (Ts : List ArgType) → Bytes → Args O Ts → Except Fault Bytes
  boostDeserializeAll : (Ts : List ArgType) → Bytes → Args O Ts → Except Fault (Args O Ts)

inductive Format where
  | contiguous
  | boost
  deriving DecidableEq, Repr

def predictSerializationSize (lib : Archive O) (Ts : List ArgType) (args : Args O Ts) : Nat :=
  if areContiguous Ts then predictAll Ts args else lib.predictBoostSerializationSize Ts args

/-- The format of the bytes, and the buffer with them. -/
def serializeAllToBuf (lib : Archive O) (Ts : List ArgType) (buf : Bytes) (args : Args O Ts) :
    Format × Except Fault Bytes :=
  if areContiguous Ts then (.contiguous, (contiguousSerializeAll Ts buf 0 args).map Prod.fst)
  else (.boost, lib.boostSerializeAllToBuf Ts buf args)

/-- The format that is read, and the destinations. -/
def deserializeAll (lib : Archive O) (Ts : List ArgType) (buf : Bytes) (args : Args O Ts) :
    Format × Except Fault (Args O Ts) :=
  if areContiguous Ts then (.contiguous, (contiguousDeserializeAll Ts buf 0 args).map Prod.fst)
  else (.boost, lib.boostDeserializeAll Ts buf args)

/-- The bytes of one argument. -/
def image : (T : ArgType) → Value O T → Bytes
  | .pod _, arg => arg.toList
  | .vector (.pod _), vec => LittleEndian.encode 8 vec.length ++ vec.flatMap List.Vector.toList
  | _, _ => []

def imageAll : (Ts : List ArgType) → Args O Ts → Bytes
  | [], _ => []
  | T :: Ts, (first, others) => image T first ++ imageAll Ts others

variable {buf : Bytes} {pos : Nat}

theorem store_ok {data : Bytes} (h : pos + data.length ≤ buf.length) :
    orUndefined (store buf ⟨pos, data⟩) = .ok (splice buf pos data) := by
  rw [store, if_pos (show (Write.mk pos data).stop ≤ buf.length from h)]
  rfl

theorem length_elems {n : Nat} (vec : List (List.Vector UInt8 n)) :
    (vec.flatMap List.Vector.toList).length = n * vec.length :=
  length_flatMap fun x _ => x.2

/-- What the buffer holds before a place. -/
def SameBefore (pos : Nat) (buf buf' : Bytes) : Prop :=
  ∀ p data, p + data.length ≤ pos → Holds buf p data → Holds buf' p data

theorem sameBefore_splice {p : Nat} {data : Bytes} (h : pos + data.length ≤ buf.length)
    (hp : p ≤ pos) : SameBefore p buf (splice buf pos data) :=
  fun _ _ hq hd =>
    hd.splice (show (Write.mk pos data).stop ≤ buf.length from h) (.inr (Nat.le_trans hq hp))

theorem SameBefore.trans {buf₁ buf₂ buf₃ : Bytes} {p : Nat} (h₁ : SameBefore p buf₁ buf₂)
    (h₂ : SameBefore pos buf₂ buf₃) (hp : p ≤ pos) : SameBefore p buf₁ buf₃ :=
  fun q d hq hd => h₂ q d (Nat.le_trans hq hp) (h₁ q d hq hd)

/-- The three templates agree on the size of one argument. -/
theorem predictUnit_eq {T : ArgType} (hT : T.isContiguous = true) (v : Value O T)
    (h : (image T v).length < 2 ^ 31) : predictUnit T v = (image T v).length := by
  match T, hT, v, h with
  | .pod type, _, v, _ => exact v.2.symm
  | .vector (.pod type), _, vec, h =>
    rw [image, List.length_append, LittleEndian.length_encode, length_elems] at h ⊢
    rw [predictUnit, Nat.mul_comm type.size, mul64_of_lt (by rw [Nat.mul_comm]; omega),
      add64_of_lt (by rw [Nat.mul_comm]; omega)]

/-- One argument is written. -/
theorem serializeUnit_ok {T : ArgType} (hT : T.isContiguous = true) (v : Value O T)
    (h : (image T v).length < 2 ^ 31) (hfit : pos + (image T v).length ≤ buf.length) :
    ∃ buf', serializeUnit buf pos T v = .ok (buf', (image T v).length) ∧
      buf'.length = buf.length ∧ Holds buf' pos (image T v) ∧ SameBefore pos buf buf' := by
  match T, hT, v, h, hfit with
  | .pod type, _, v, _, hfit =>
    have hw : (Write.mk pos v.toList).stop ≤ buf.length := hfit
    refine ⟨splice buf pos v.toList, ?_, length_splice hw, holds_splice hw,
      sameBefore_splice hw (Nat.le_refl pos)⟩
    rw [serializeUnit, store_ok hw, ok_bind, image, List.Vector.toList_length]
    rfl
  | .vector (.pod type), _, vec, h, hfit =>
    rw [image, List.length_append, LittleEndian.length_encode] at h hfit ⊢
    have hsize : add64 (mul64 vec.length type.size) 8 =
        8 + (vec.flatMap List.Vector.toList).length := by
      rw [length_elems, Nat.mul_comm] at h ⊢
      rw [mul64_of_lt (by omega), add64_of_lt (by omega), Nat.add_comm]
    have hfirst : (Write.mk pos (LittleEndian.encode 8 vec.length)).stop ≤ buf.length := by
      rw [Write.stop, LittleEndian.length_encode]
      show pos + 8 ≤ _
      omega
    have hlen : (splice buf pos (LittleEndian.encode 8 vec.length)).length = buf.length :=
      length_splice hfirst
    have hsecond : (Write.mk (pos + 8) (vec.flatMap List.Vector.toList)).stop ≤
        (splice buf pos (LittleEndian.encode 8 vec.length)).length := by
      rw [hlen]
      show pos + 8 + (vec.flatMap List.Vector.toList).length ≤ _
      omega
    have hcount : Holds (splice buf pos (LittleEndian.encode 8 vec.length)) pos
        (LittleEndian.encode 8 vec.length) := holds_splice hfirst
    refine ⟨_, ?_, (length_splice hsecond).trans hlen, holds_append.mpr ⟨?_, ?_⟩, ?_⟩
    · rw [serializeUnit, store_ok hfirst, ok_bind, store_ok hsecond, ok_bind, hsize]
      rfl
    · refine hcount.splice hsecond (.inr ?_)
      rw [Write.stop, LittleEndian.length_encode]
    · rw [LittleEndian.length_encode]
      exact holds_splice hsecond
    · exact (sameBefore_splice hfirst (Nat.le_refl pos)).trans
        (sameBefore_splice hsecond (Nat.le_refl (pos + 8))) (Nat.le_add_right pos 8)

theorem predictAll_eq : ∀ {Ts : List ArgType}, areContiguous Ts = true → ∀ args : Args O Ts,
    (imageAll Ts args).length < 2 ^ 31 → predictAll Ts args = (imageAll Ts args).length := by
  intro Ts
  induction Ts with
  | nil => exact fun _ _ _ => rfl
  | cons T Ts ih =>
    rintro hTs ⟨first, others⟩ h
    obtain ⟨hT, hrest⟩ := Bool.and_eq_true_iff.mp hTs
    rw [imageAll, List.length_append] at h ⊢
    rw [predictAll, predictUnit_eq hT first (by omega), ih hrest others (by omega),
      add64_of_lt (by omega)]

/-- All arguments are written, one behind the other. -/
theorem contiguousSerializeAll_ok : ∀ {Ts : List ArgType}, areContiguous Ts = true →
    ∀ (args : Args O Ts) {buf : Bytes} {pos : Nat}, (imageAll Ts args).length < 2 ^ 31 →
      pos + (imageAll Ts args).length ≤ buf.length →
      ∃ buf', contiguousSerializeAll Ts buf pos args = .ok (buf', pos + (imageAll Ts args).length) ∧
        buf'.length = buf.length ∧ Holds buf' pos (imageAll Ts args) ∧ SameBefore pos buf buf' := by
  intro Ts
  induction Ts with
  | nil =>
    intro _ _ buf pos _ hfit
    exact ⟨buf, rfl, rfl, holds_nil hfit, fun _ _ _ h => h⟩
  | cons T Ts ih =>
    rintro hTs ⟨first, others⟩ buf pos h hfit
    obtain ⟨hT, hrest⟩ := Bool.and_eq_true_iff.mp hTs
    rw [imageAll, List.length_append] at h hfit ⊢
    obtain ⟨buf₁, hunit, hlen₁, hholds₁, hsame₁⟩ :=
      serializeUnit_ok hT first (by omega) (show pos + (image T first).length ≤ buf.length by omega)
    obtain ⟨buf₂, hall, hlen₂, hholds₂, hsame₂⟩ :=
      ih hrest others (by omega)
        (show pos + (image T first).length + (imageAll Ts others).length ≤ buf₁.length by omega)
    refine ⟨buf₂, ?_, hlen₂.trans hlen₁, holds_append.mpr ⟨?_, hholds₂⟩,
      hsame₁.trans hsame₂ (Nat.le_add_right pos _)⟩
    · rw [contiguousSerializeAll, hunit, ok_bind, ← Nat.add_assoc]
      exact hall
    · exact hsame₂ pos (image T first) (Nat.le_refl _) hholds₁

theorem loadObject_of_holds {n : Nat} {x : List.Vector UInt8 n} (h : Holds buf pos x.toList) :
    loadObject buf pos n = some x := by
  have hx : x.toList.length = n := x.2
  obtain ⟨hlen, hslice⟩ := h
  rw [hx] at hlen hslice
  rw [loadObject, dif_pos hlen]
  exact congrArg some (Subtype.ext hslice)

/-- What comes from the buffer replaces as many elements, whatever they were. -/
theorem memcpyElems_of_holds {n : Nat} {old new : List (List.Vector UInt8 n)}
    (hlen : old.length = new.length) (h : Holds buf pos (new.flatMap List.Vector.toList)) :
    memcpyElems buf pos old = .ok new := by
  induction new generalizing pos old with
  | nil =>
    rw [List.length_eq_zero_iff.mp hlen]
    rfl
  | cons x new ih =>
    obtain ⟨y, old, rfl⟩ := List.exists_cons_of_length_eq_add_one hlen
    rw [List.flatMap_cons] at h
    obtain ⟨hfirst, hrest⟩ := holds_append.mp h
    rw [List.Vector.toList_length] at hrest
    rw [memcpyElems, loadObject_of_holds hfirst, ih (Nat.succ.inj hlen) hrest]
    rfl

theorem resize_ok {n size : Nat} (h : size * n < 2 ^ 63) (vec : List (List.Vector UInt8 n)) :
    ∃ vec', resize vec size = .ok vec' ∧ vec'.length = size := by
  refine ⟨vec.take size ++ List.replicate (size - vec.length) (List.Vector.replicate n 0), ?_, ?_⟩
  · rw [resize, if_neg (by omega)]
  · rw [List.length_append, List.length_take, List.length_replicate]
    omega

/-- One argument is read back, whatever the destination had before. -/
theorem deserializeUnit_of_holds {T : ArgType} (hT : T.isContiguous = true) (v dst : Value O T)
    (h : (image T v).length < 2 ^ 31) (hbuf : Holds buf pos (image T v)) :
    deserializeUnit buf pos T dst = .ok (v, (image T v).length) := by
  match T, hT, v, dst, h, hbuf with
  | .pod type, _, v, _, h, hbuf =>
    rw [image, List.Vector.toList_length] at h ⊢
    rw [deserializeUnit, loadObject_of_holds hbuf, toInt32_natCast h, toUInt64_natCast (by omega)]
    rfl
  | .vector (.pod type), _, vec, dst, h, hbuf =>
    rw [image, List.length_append, LittleEndian.length_encode] at h ⊢
    obtain ⟨hcount, helems⟩ := holds_append.mp hbuf
    rw [LittleEndian.length_encode] at helems
    have hload := load_of_holds hcount
    rw [LittleEndian.length_encode] at hload
    have hbytes : (vec.flatMap List.Vector.toList).length = vec.length * type.size := by
      rw [length_elems, Nat.mul_comm]
    have hlen : vec.length ≤ vec.length * type.size := Nat.le_mul_of_pos_right _ type.pos
    have hdecode : LittleEndian.decode (LittleEndian.encode 8 vec.length) = vec.length :=
      LittleEndian.decode_encode_of_lt (by omega)
    obtain ⟨vec', hresize, hvec'⟩ :=
      resize_ok (show vec.length * type.size < 2 ^ 63 by omega) dst
    have hsize : add64 (mul64 vec.length type.size) 8 =
        8 + (vec.flatMap List.Vector.toList).length := by
      rw [mul64_of_lt (by omega), add64_of_lt (by omega), hbytes, Nat.add_comm]
    rw [deserializeUnit, hload]
    show (resize dst (LittleEndian.decode (LittleEndian.encode 8 vec.length)) >>= fun vec => _) = _
    rw [hdecode, hresize, ok_bind, memcpyElems_of_holds hvec' helems, ok_bind, hsize]
    rfl

/-- All arguments are read back. -/
theorem contiguousDeserializeAll_of_holds : ∀ {Ts : List ArgType}, areContiguous Ts = true →
    ∀ (args dst : Args O Ts) {buf : Bytes} {pos : Nat}, (imageAll Ts args).length < 2 ^ 31 →
      Holds buf pos (imageAll Ts args) →
      contiguousDeserializeAll Ts buf pos dst = .ok (args, pos + (imageAll Ts args).length) := by
  intro Ts
  induction Ts with
  | nil => exact fun _ _ _ _ _ _ _ => rfl
  | cons T Ts ih =>
    rintro hTs ⟨first, others⟩ ⟨oldFirst, oldOthers⟩ buf pos h hbuf
    obtain ⟨hT, hrest⟩ := Bool.and_eq_true_iff.mp hTs
    rw [imageAll, List.length_append] at h ⊢
    obtain ⟨hfirst, hothers⟩ := holds_append.mp hbuf
    rw [contiguousDeserializeAll, deserializeUnit_of_holds hT first oldFirst (by omega) hfirst,
      ok_bind]
    dsimp only
    rw [ih hrest others oldOthers (by omega) hothers, ok_bind, Nat.add_assoc]
    rfl

/-- The bytes of the arguments, without regard to the width of the sizes. -/
def totalSize (Ts : List ArgType) (args : Args O Ts) : Nat := (imageAll Ts args).length

/-- Writer and reader choose the format by the types alone. Arguments without pointers, of fewer
than 2^31 bytes in all, fill a buffer of the predicted size and no more, and are read back from all
of its bytes into any destinations. -/
theorem contiguous_round_trip (lib : Archive O) (Ts : List ArgType) :
    (∀ (args dst : Args O Ts) (buf buf' : Bytes),
      (serializeAllToBuf lib Ts buf args).1 = (deserializeAll lib Ts buf' dst).1) ∧
    (areContiguous Ts = true → ∀ args : Args O Ts, totalSize Ts args < 2 ^ 31 →
      predictSerializationSize lib Ts args = totalSize Ts args ∧
      ∀ buf : Bytes, buf.length = predictSerializationSize lib Ts args →
        ∃ buf', contiguousSerializeAll Ts buf 0 args =
            .ok (buf', predictSerializationSize lib Ts args) ∧
          serializeAllToBuf lib Ts buf args = (.contiguous, .ok buf') ∧
          buf'.length = buf.length ∧
          ∀ dst, contiguousDeserializeAll Ts buf' 0 dst = .ok (args, buf'.length) ∧
            deserializeAll lib Ts buf' dst = (.contiguous, .ok args)) := by
  constructor
  · intro args dst buf buf'
    unfold serializeAllToBuf deserializeAll
    by_cases hTs : areContiguous Ts = true
    · rw [if_pos hTs, if_pos hTs]
    · rw [if_neg hTs, if_neg hTs]
  · intro hTs args hsize
    have hpredict : predictSerializationSize lib Ts args = totalSize Ts args := by
      rw [predictSerializationSize, if_pos hTs]
      exact predictAll_eq hTs args hsize
    refine ⟨hpredict, fun buf hbuf => ?_⟩
    rw [hpredict] at hbuf ⊢
    obtain ⟨buf', hwrite, hlen, hholds, -⟩ := contiguousSerializeAll_ok hTs args hsize
      (show 0 + (imageAll Ts args).length ≤ buf.length by rw [hbuf, totalSize]; omega)
    rw [Nat.zero_add] at hwrite
    refine ⟨buf', hwrite, ?_, hlen, fun dst => ?_⟩
    · rw [serializeAllToBuf, if_pos hTs, hwrite]
      rfl
    · have hread := contiguousDeserializeAll_of_holds hTs args dst hsize hholds
      rw [Nat.zero_add] at hread
      refine ⟨by rw [hread, hlen, hbuf]; rfl, ?_⟩
      rw [deserializeAll, if_pos hTs, hread]
      rfl

/-- An `int` of two bytes, an empty vector and a vector of two characters. -/
def sampleTypes : List ArgType :=
  [.pod ⟨2, by decide⟩, .vector (.pod ⟨8, by decide⟩), .vector (.pod ⟨1, by decide⟩)]

def sampleArgs : Args (fun _ => Empty) sampleTypes :=
  (⟨[1, 2], rfl⟩, [], [⟨[3], rfl⟩, ⟨[4], rfl⟩], ())

/-- There is nothing to do for the archive library. -/
def sampleArchive : Archive (fun _ => Empty) where
  predictBoostSerializationSize _ _ := 0
  boostSerializeAllToBuf _ buf _ := .ok buf
  boostDeserializeAll _ _ args := .ok args

theorem contiguous_round_trip_sample :
    ∃ buf', contiguousSerializeAll sampleTypes (List.replicate 20 170) 0 sampleArgs =
        .ok (buf', predictSerializationSize sampleArchive sampleTypes sampleArgs) ∧
      serializeAllToBuf sampleArchive sampleTypes (List.replicate 20 170) sampleArgs =
        (.contiguous, .ok buf') ∧
      buf'.length = (List.replicate 20 (170 : UInt8)).length ∧
      ∀ dst, contiguousDeserializeAll sampleTypes buf' 0 dst = .ok (sampleArgs, buf'.length) ∧
        deserializeAll sampleArchive sampleTypes buf' dst = (.contiguous, .ok sampleArgs) :=
  ((contiguous_round_trip sampleArchive sampleTypes).2 rfl sampleArgs (by decide)).2
    (List.replicate 20 170) (by decide)

open Actormsg

/-- The arguments as the constructor of a call gets them. -/
def units : (Ts : List ArgType) → Args O Ts → List ContiguousUnit
  | [], _ => []
  | .pod _ :: Ts, (first, others) => .object first.toList :: units Ts others
  | .vector (.pod type) :: Ts, (first, others) => .vector type.size first :: units Ts others
  | _ :: Ts, (_, others) => units Ts others

theorem bytes_units : ∀ {Ts : List ArgType}, areContiguous Ts = true → ∀ args : Args O Ts,
    (Arguments.contiguous (units Ts args)).bytes = imageAll Ts args := by
  intro Ts
  induction Ts with
  | nil => exact fun _ _ => rfl
  | cons T Ts ih =>
    rintro hTs ⟨first, others⟩
    obtain ⟨hT, hrest⟩ := Bool.and_eq_true_iff.mp hTs
    rw [imageAll, ← ih hrest others]
    match T, hT, first with
    | .pod type, _, first => exact List.flatMap_cons
    | .vector (.pod type), _, first => exact List.flatMap_cons

/-- What the callee gets as the bytes of its arguments is read back as the arguments. -/
theorem deserialize_call {Ts : List ArgType} (hTs : areContiguous Ts = true) (args dst : Args O Ts)
    (hsize : totalSize Ts args < 2 ^ 31) :
    contiguousDeserializeAll Ts (Arguments.contiguous (units Ts args)).bytes 0 dst =
      .ok (args, totalSize Ts args) := by
  rw [bytes_units hTs args]
  have hread := contiguousDeserializeAll_of_holds hTs args dst hsize (holds_self _)
  rwa [Nat.zero_add] at hread

end ActiveBsp.Serialization.Contiguous
