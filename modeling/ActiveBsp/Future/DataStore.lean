import ActiveBsp.Library.Buffer
import ActiveBsp.Library.MachineInt
import ActiveBsp.Library.PartialMap
import ActiveBsp.Actormsg.Messages
import ActiveBsp.Fault

/-!
# The store of vector parts

A part is kept inside the message that brought it, or in a vector that later
messages fill. `_dv_parts` says which, how large the part is and how many of its
bytes are still missing.
-/
namespace ActiveBsp

open Library Library.Buffer Library.MachineInt

set_option autoImplicit false

inductive PartLocation where
  | vectorStore
  | messageStore
  deriving DecidableEq, Repr

/-- `dv_part_t`. -/
structure DvPart where
  key : Int
  size : Nat
  location : PartLocation
  remainingBytes : Nat
  deriving DecidableEq, Repr

structure DataStore where
  resultVectorStore : PartialMap Int Bytes
  resultMsgStore : PartialMap Int StoreResultMessage
  dvParts : PartialMap Int DvPart

namespace DataStore

def empty : DataStore := ⟨.empty, .empty, .empty⟩

def storePartMessage (ds : DataStore) (key : Int) (msg : StoreResultMessage) :
    Except Fault DataStore := do
  let dvPart : DvPart := ⟨msg.resId, msg.dataSize, .messageStore, 0⟩
  assert .storePartMessage (ds.dvParts key = none)
  return { ds with
    resultMsgStore := ds.resultMsgStore.insert key msg
    dvParts := ds.dvParts.set key dvPart }

def storePartVector (ds : DataStore) (key : Int) (v : Bytes) : Except Fault DataStore := do
  assert .storePartVector (ds.resultVectorStore key = none)
  let dvPart : DvPart := ⟨key, v.length, .vectorStore, 0⟩
  assert .storePartVector (ds.dvParts key = none)
  return { ds with
    resultVectorStore := ds.resultVectorStore.set key v
    dvParts := ds.dvParts.set key dvPart }

/-- The new vector is zero-filled. -/
def preparePartVector (ds : DataStore) (key : Int) (size : Nat) : Except Fault DataStore := do
  assert .preparePartVector (ds.dvParts key = none)
  assert .preparePartVector (ds.resultVectorStore key = none)
  let v : Bytes := List.replicate size 0
  let dvPart : DvPart := ⟨key, v.length, .vectorStore, size⟩
  return { ds with
    resultVectorStore := ds.resultVectorStore.set key v
    dvParts := ds.dvParts.set key dvPart }

/-- `std::vector::data`, which is null for a vector that was never given room. -/
def vectorData (v : Bytes) : Option Bytes := if v.isEmpty then none else some v

def findDataBuf (ds : DataStore) (key : Int) : Except Fault (Option Bytes) :=
  match ds.dvParts key with
  | none => .error (.assertion .findDataBuf)
  | some part =>
    match part.location with
    | .vectorStore =>
      match ds.resultVectorStore key with
      | none => .error (.assertion .findDataBuf)
      | some v => .ok (vectorData v)
    | .messageStore =>
      match ds.resultMsgStore key with
      | none => .error (.assertion .findDataBuf)
      | some msg => .ok (some msg.data)

/-- The `memcpy` of `addData`, into the buffer that `findDataBuf` returned. -/
def writeDataBuf (ds : DataStore) (key : Int) (part : DvPart) (buf data : Bytes) (offset : Nat) :
    Except Fault DataStore :=
  if buf.length < offset + data.length then .error .undefined
  else match part.location with
    | .vectorStore =>
      .ok { ds with resultVectorStore := ds.resultVectorStore.set key (splice buf offset data) }
    | .messageStore =>
      .ok { ds with
        resultMsgStore := ds.resultMsgStore.set key ⟨part.key, splice buf offset data⟩ }

/-- Returns the bytes that are still missing. -/
def addData (ds : DataStore) (key : Int) (data : Bytes) (offset : Nat) :
    Except Fault (Nat × DataStore) :=
  match ds.dvParts key with
  | none => .error (.assertion .addDataPart)
  | some part => do
    match ← ds.findDataBuf key with
    | none => .error (.assertion .addDataBuf)
    | some buf => do
      assert .addDataRange (add64 offset data.length ≤ part.size)
      assert .addDataRemaining (data.length ≤ part.remainingBytes)
      let ds ← ds.writeDataBuf key part buf data offset
      let remaining := part.remainingBytes - data.length
      return (remaining, { ds with dvParts := ds.dvParts.set key { part with remainingBytes := remaining } })

def removePart (ds : DataStore) (key : Int) : Except Fault DataStore :=
  match ds.dvParts key with
  | none => .error (.assertion .removePart)
  | some part =>
    match part.location with
    | .messageStore => do
      assert .removePart ((ds.resultMsgStore key).isSome)
      return { ds with
        resultMsgStore := ds.resultMsgStore.erase key
        dvParts := ds.dvParts.erase key }
    | .vectorStore => do
      assert .removePart ((ds.resultVectorStore key).isSome)
      return { ds with
        resultVectorStore := ds.resultVectorStore.erase key
        dvParts := ds.dvParts.erase key }

/-- The pointer, null when the part is absent or incomplete, and the size. -/
def getPartData (ds : DataStore) (key : Int) : Except Fault (Option Bytes × Nat) :=
  match ds.dvParts key with
  | none => .ok (none, 0)
  | some part =>
    if 0 < part.remainingBytes then .ok (none, 0)
    else do
      let data ← ds.findDataBuf key
      return (data, part.size)

end DataStore

end ActiveBsp
