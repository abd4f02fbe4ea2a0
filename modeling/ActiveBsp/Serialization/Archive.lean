import ActiveBsp.Library.LittleEndian
import ActiveBsp.Library.MachineInt
import ActiveBsp.VectorDistribution

/-!
# Archives of distributed vectors

The memory of a `vector_distribution_base`, what its class and the derived class
write into a binary archive, and what each of them reads back. The archive
library puts one header of fixed size before the first object of each class; its
tracking flag and version are zero for these classes.
-/
namespace ActiveBsp

/-- How the managers write and read distributions, with the archive library below. -/
structure Codec where
  /-- `serialize_all_to_vchar` of a `vector_distribution_base`. -/
  serializeAll : VectorDistribution → Bytes
  /-- `deserialize_all` into a `vector_distribution_base`; `none` when it throws. -/
  deserializeAll : Bytes → Option VectorDistribution

namespace Serialization

open Library Library.MachineInt

set_option autoImplicit false

def intBytes (x : Int) : Bytes := LittleEndian.encode 4 (x % 2 ^ 32).toNat

def intOfBytes (bs : Bytes) : Int := toInt32 (LittleEndian.decode bs)

def partBytes (part : VectorDistributionPart) : Bytes :=
  intBytes part.pid ++ (intBytes part.resid ++
    (LittleEndian.encode 8 part.size ++ LittleEndian.encode 8 part.offset))

/-- `getBuf`: the number of parts, padding to the alignment of the parts, the parts. -/
def getBuf (dv : VectorDistribution) : Bytes :=
  intBytes dv.nparts ++ (List.replicate 4 0 ++ dv.parts.flatMap partBytes)

def getBufSize (dv : VectorDistribution) : Nat := 8 + 24 * dv.nparts

def partOfBytes (bs : Bytes) : VectorDistributionPart where
  pid := intOfBytes (bs.take 4)
  resid := intOfBytes ((bs.drop 4).take 4)
  size := LittleEndian.decode ((bs.drop 8).take 8)
  offset := LittleEndian.decode ((bs.drop 16).take 8)

def partsOfBytes : Nat → Bytes → Option (List VectorDistributionPart)
  | 0, _ => some []
  | n + 1, bs =>
    if bs.length < 24 then none
    else (partsOfBytes n (bs.drop 24)).map (partOfBytes (bs.take 24) :: ·)

/-- What `nparts` and `getPart` read in a buffer; `none` when they read outside it. -/
def ofBuf (buf : Bytes) : Option VectorDistribution :=
  let nelem := intOfBytes (buf.take 4)
  if buf.length < 8 ∨ nelem < 0 then none
  else (partsOfBytes nelem.toNat (buf.drop 8)).map VectorDistribution.mk

/-- What the archive library adds: its own header, and the size of a class header. -/
structure ArchiveFormat where
  header : Bytes
  classHeader : Nat
  deriving DecidableEq, Repr

namespace ArchiveFormat

variable (fmt : ArchiveFormat)

def saveClassHeader : Bytes := List.replicate fmt.classHeader 0

/-- `vector_distribution_base::save`, as the first object of its class. -/
def saveBase (dv : VectorDistribution) : Bytes :=
  fmt.saveClassHeader ++ (LittleEndian.encode 8 (getBufSize dv) ++ getBuf dv)

/-- `vector_distribution<T>::save`: its own class header, then the base object. -/
def saveDerived (dv : VectorDistribution) : Bytes := fmt.saveClassHeader ++ fmt.saveBase dv

def serializeBase (dv : VectorDistribution) : Bytes := fmt.header ++ fmt.saveBase dv

def serializeDerived (dv : VectorDistribution) : Bytes := fmt.header ++ fmt.saveDerived dv

def readBytes (n : Nat) (stream : Bytes) : Option (Bytes × Bytes) :=
  if stream.length < n then none else some (stream.take n, stream.drop n)

def openArchive (stream : Bytes) : Option Bytes :=
  (readBytes fmt.header.length stream).bind fun r => if r.1 = fmt.header then some r.2 else none

/-- `vector_distribution_base::load`: the new contents of `_buf`, and the rest. -/
def loadBase (stream : Bytes) : Option (Bytes × Bytes) :=
  (readBytes fmt.classHeader stream).bind fun header =>
    (readBytes 8 header.2).bind fun size =>
      readBytes (LittleEndian.decode size.1) size.2

def loadDerived (stream : Bytes) : Option (Bytes × Bytes) :=
  (readBytes fmt.classHeader stream).bind fun header => fmt.loadBase header.2

/-- `deserialize_all` into a `vector_distribution_base`, as its accessors then see it. -/
def deserializeBase (bytes : Bytes) : Option VectorDistribution :=
  (fmt.openArchive bytes).bind fun stream => (fmt.loadBase stream).bind fun buf => ofBuf buf.1

def deserializeDerived (bytes : Bytes) : Option VectorDistribution :=
  (fmt.openArchive bytes).bind fun stream => (fmt.loadDerived stream).bind fun buf => ofBuf buf.1

def codec : Codec := ⟨fmt.serializeBase, fmt.deserializeBase⟩

end ArchiveFormat

end Serialization

end ActiveBsp
