import ActiveBsp.Actormsg.Messages
import ActiveBsp.Library.Layout
import ActiveBsp.Serialization.RoundTrip
import Mathlib.Data.UInt
import Mathlib.Data.Vector.Basic

/-!
# The envelopes of the messages

Every constructor computes a size, takes a buffer and writes its fields at fixed
offsets of the packed structures; names, lists and payloads follow behind them,
found again through offsets that are themselves fields. The getters read the same
offsets in whatever buffer the message came in.
-/
namespace ActiveBsp.Actormsg

open Library Library.Buffer Library.Layout Serialization

set_option autoImplicit false

/-- `instruction_t`. -/
inductive Instruction where
  | stop
  | createActor
  | destroyActor
  | callActor
  | registerFutureData
  | getFutureData
  | releaseFuture
  | storeResult
  | storeResultPart
  | releaseResult
  | getResultParts
  | distributeVector
  | prefetch
  | fetch
  deriving DecidableEq, Repr

namespace Instruction

def code : Instruction → Int
  | stop => 1
  | createActor => 2
  | destroyActor => 3
  | callActor => 4
  | registerFutureData => 5
  | getFutureData => 6
  | releaseFuture => 7
  | storeResult => 8
  | storeResultPart => 9
  | releaseResult => 10
  | getResultParts => 11
  | distributeVector => 12
  | prefetch => 13
  | fetch => 14

/-- The case of the factory's switch; none is its default. -/
def ofCode (n : Int) : Option Instruction :=
  [stop, createActor, destroyActor, callActor, registerFutureData, getFutureData, releaseFuture,
    storeResult, storeResultPart, releaseResult, getResultParts, distributeVector, prefetch,
    fetch].find? fun i => i.code = n

theorem ofCode_code (i : Instruction) : ofCode i.code = some i := by cases i <;> rfl

end Instruction

/-- `distr_type_t`. -/
inductive DistrType where
  | block
  deriving DecidableEq, Repr

namespace DistrType

def code : DistrType → Int
  | block => 1

def ofCode (n : Int) : Option DistrType := if n = 1 then some block else none

end DistrType

/-- An argument without pointers: one object, or a vector of objects of one size. -/
inductive ContiguousUnit where
  | object (memory : Bytes)
  | vector (elemSize : Nat) (elems : List (List.Vector UInt8 elemSize))

namespace ContiguousUnit

/-- `predict_contiguous_unit_serialization_size`. -/
def predictSize : ContiguousUnit → Nat
  | object memory => memory.length
  | vector elemSize elems => 8 + elems.length * elemSize

/-- `contiguous_serialize_unit_to_buf`. -/
def writes (pos : Nat) : ContiguousUnit → List (Write UInt8)
  | object memory => [⟨pos, memory⟩]
  | vector _ elems => [⟨pos, LittleEndian.encode 8 elems.length⟩,
      ⟨pos + 8, elems.flatMap List.Vector.toList⟩]

/-- The bytes that stand for the argument. -/
def bytes : ContiguousUnit → Bytes
  | object memory => memory
  | vector _ elems => LittleEndian.encode 8 elems.length ++ elems.flatMap List.Vector.toList

end ContiguousUnit

/-- What a call carries: ready bytes, arguments without pointers, or the bytes that the archive
library emits for its arguments, once to count them and once to store them. -/
inductive Arguments where
  | ready (args : Bytes)
  | contiguous (units : List ContiguousUnit)
  | boost (archive : Bytes)

namespace Arguments

/-- `predictSerializationSize`, or the size of the ready bytes. -/
def predictSize : Arguments → Nat
  | ready args => args.length
  | contiguous units => (units.map ContiguousUnit.predictSize).sum
  | boost archive => archive.length

/-- `contiguous_serialize_all_to_buf`. -/
def writesContiguous : Nat → List ContiguousUnit → List (Write UInt8)
  | _, [] => []
  | pos, unit :: units => unit.writes pos ++ writesContiguous (pos + unit.predictSize) units

/-- `serialize_all_to_buf`, or the copy of the ready bytes. -/
def writes (pos : Nat) : Arguments → List (Write UInt8)
  | ready args => [⟨pos, args⟩]
  | contiguous units => writesContiguous pos units
  | boost archive => [⟨pos, archive⟩]

def bytes : Arguments → Bytes
  | ready args => args
  | contiguous units => units.flatMap ContiguousUnit.bytes
  | boost archive => archive

end Arguments

/-- A `result_req_part_t` in memory, with whatever its padding holds. -/
structure ReqPartMemory where
  part : ResultReqPart
  padding : Bytes
  length_padding : padding.length = 4

namespace ReqPartMemory

def bytes (p : ReqPartMemory) : Bytes :=
  intBytes p.part.resid ++ (p.padding ++ (LittleEndian.encode 8 p.part.offset ++
    (LittleEndian.encode 8 p.part.size ++ LittleEndian.encode 8 p.part.dst)))

end ReqPartMemory

/-- What `StoreResultMessage` stores: the data, or where the data is and how much of it. -/
inductive ResultContent where
  | data (content : Bytes)
  | address (addr size : Nat)
  deriving DecidableEq, Repr

namespace ResultContent

/-- The `size` argument. -/
def size : ResultContent → Nat
  | data content => content.length
  | address _ size => size

def onlyAddress : ResultContent → Bool
  | data _ => false
  | address _ _ => true

def bytes : ResultContent → Bytes
  | data content => content
  | address addr _ => LittleEndian.encode 8 addr

end ResultContent

/-- The constructors with their arguments. The keys of a fetch are those gathered behind its
processes before it is sent. -/
inductive Envelope where
  | createActor (actorName : Bytes) (pids : List Int)
  | callActor (functionName : Bytes) (futureKey : Int) (args : Arguments)
  | registerFuture (futureKey : Int) (futureData : Bytes)
  | getFutureData (futureKey : Int)
  | releaseFuture (futureKey : Int)
  | storeResult (resid : Int) (content : ResultContent)
  | storeResultPart (resid : Int) (data : Bytes) (offset fullSize : Nat)
  | releaseResultPart (resid : Int)
  | getResultParts (forwardTo : Int) (parts : List ReqPartMemory)
  | distributeVector (type : DistrType) (n elemSize : Nat)
  | prefetch (futurePid futureKey : Int) (dvSize : Nat)
  | fetch (pids keys : List Int) (reqFutureKey resFutureKey : Int) (dvSize : Nat)
  | stopActor (askAnswer : Bool)
  | stopActorProcess

namespace Envelope

def instruction : Envelope → Instruction
  | createActor .. => .createActor
  | callActor .. => .callActor
  | registerFuture .. => .registerFutureData
  | getFutureData .. => .getFutureData
  | releaseFuture .. => .releaseFuture
  | storeResult .. => .storeResult
  | storeResultPart .. => .storeResultPart
  | releaseResultPart .. => .releaseResult
  | getResultParts .. => .getResultParts
  | distributeVector .. => .distributeVector
  | prefetch .. => .prefetch
  | fetch .. => .fetch
  | stopActor .. => .destroyActor
  | stopActorProcess => .stop

/-- The size each constructor asks for: four bytes of instruction, the `sizeof` of the envelope,
and what follows it. -/
def size : Envelope → Nat
  | createActor actorName pids => 4 + 12 + (actorName.length + 1) + 4 * pids.length
  | callActor functionName _ args => 4 + 16 + (functionName.length + 1) + args.predictSize
  | registerFuture _ futureData => 4 + 12 + futureData.length
  | getFutureData _ => 4 + 4
  | releaseFuture _ => 4 + 4
  | storeResult _ content => 4 + 24 + if content.onlyAddress then 8 else content.size
  | storeResultPart _ data _ _ => 4 + 32 + data.length
  | releaseResultPart _ => 4 + 4
  | getResultParts _ parts => 4 + 8 + 32 * parts.length
  | distributeVector .. => 4 + 4 + 16
  | prefetch .. => 4 + 16
  | fetch pids _ _ _ _ => 4 + 24 + pids.length * 2 * 4
  | stopActor _ => 4 + 1
  | stopActorProcess => 4

def writeInt (pos : Nat) (x : Int) : Write UInt8 := ⟨pos, intBytes x⟩

def writeSize (pos n : Nat) : Write UInt8 := ⟨pos, LittleEndian.encode 8 n⟩

def writeBool (pos : Nat) (b : Bool) : Write UInt8 := ⟨pos, [if b then 1 else 0]⟩

/-- What a constructor writes behind the instruction, in its order. -/
def body : Envelope → List (Write UInt8)
  | createActor actorName pids =>
    [writeInt 4 0, writeInt 8 (actorName.length + 1), writeInt 12 pids.length,
      ⟨16, actorName ++ [0]⟩, ⟨16 + (actorName.length + 1), pids.flatMap intBytes⟩]
  | callActor functionName futureKey args =>
    [writeInt 8 futureKey, writeInt 16 args.predictSize, writeInt 4 0,
      writeInt 12 (functionName.length + 1), ⟨20, functionName ++ [0]⟩] ++
      args.writes (20 + (functionName.length + 1))
  | registerFuture futureKey futureData =>
    [writeInt 4 futureKey, writeInt 12 futureData.length, writeInt 8 0, ⟨16, futureData⟩]
  | getFutureData futureKey => [writeInt 4 futureKey]
  | releaseFuture futureKey => [writeInt 4 futureKey]
  | storeResult resid content =>
    [writeInt 4 resid, writeSize 12 content.size, writeBool 20 content.onlyAddress,
      ⟨21, content.bytes⟩]
  | storeResultPart resid data offset fullSize =>
    [writeInt 4 resid, writeSize 12 data.length, writeSize 28 fullSize, writeSize 20 offset,
      ⟨36, data⟩]
  | releaseResultPart resid => [writeInt 4 resid]
  | getResultParts forwardTo parts =>
    [writeInt 4 parts.length, writeInt 8 forwardTo, ⟨12, parts.flatMap ReqPartMemory.bytes⟩]
  | distributeVector type n elemSize =>
    [writeInt 4 type.code, writeSize 8 n, writeSize 16 elemSize]
  | prefetch futurePid futureKey dvSize =>
    [writeInt 4 futurePid, writeInt 8 futureKey, writeSize 12 dvSize]
  | fetch pids keys reqFutureKey resFutureKey dvSize =>
    [writeInt 20 pids.length, writeInt 12 reqFutureKey, writeInt 16 resFutureKey,
      writeSize 4 dvSize, ⟨24, pids.flatMap intBytes⟩,
      ⟨24 + 4 * pids.length, keys.flatMap intBytes⟩]
  | stopActor askAnswer => [writeBool 4 askAnswer]
  | stopActorProcess => []

def writes (m : Envelope) : List (Write UInt8) := writeInt 0 m.instruction.code :: m.body

end Envelope

/-- A received message, as the results of its getters. -/
inductive WireMessage where
  | createActor (actorName : Bytes) (pids : List Int)
  | callActor (functionName args : Bytes) (futureKey : Int)
  | registerFuture (futureKey : Int) (futureData : Bytes)
  | getFutureData (futureKey : Int)
  | releaseFuture (futureKey : Int)
  | storeResult (resid : Int) (content : ResultContent)
  | storeResultPart (resid : Int) (data : Bytes) (offset : Nat)
  | releaseResultPart (resid : Int)
  | getResultParts (forwardTo : Int) (parts : List ResultReqPart)
  | distributeVector (type : DistrType) (n elemSize : Nat)
  | prefetch (futurePid futureKey : Int) (dvSize : Nat)
  | fetch (pids keys : List Int) (reqFutureKey resFutureKey : Int) (dvSize : Nat)
  | stopActor (askAnswer : Bool)
  | stopActorProcess
  deriving DecidableEq, Repr

/-- The original fields. The full size of a part has no getter. -/
def Envelope.fields : Envelope → WireMessage
  | createActor actorName pids => .createActor actorName pids
  | callActor functionName futureKey args => .callActor functionName args.bytes futureKey
  | registerFuture futureKey futureData => .registerFuture futureKey futureData
  | getFutureData futureKey => .getFutureData futureKey
  | releaseFuture futureKey => .releaseFuture futureKey
  | storeResult resid content => .storeResult resid content
  | storeResultPart resid data offset _ => .storeResultPart resid data offset
  | releaseResultPart resid => .releaseResultPart resid
  | getResultParts forwardTo parts => .getResultParts forwardTo (parts.map ReqPartMemory.part)
  | distributeVector type n elemSize => .distributeVector type n elemSize
  | prefetch futurePid futureKey dvSize => .prefetch futurePid futureKey dvSize
  | fetch pids keys reqFutureKey resFutureKey dvSize =>
    .fetch pids keys reqFutureKey resFutureKey dvSize
  | stopActor askAnswer => .stopActor askAnswer
  | stopActorProcess => .stopActorProcess

namespace Getters

def readInt (buf : Bytes) (pos : Nat) : Option Int := (load buf pos 4).map intOfBytes

def readSize (buf : Bytes) (pos : Nat) : Option Nat := (load buf pos 8).map LittleEndian.decode

def readBool (buf : Bytes) (pos : Nat) : Option Bool := (load buf pos 1).map (· ≠ [0])

/-- `n` integers from `pos`; a negative number of them is not allocated. -/
def readInts (buf : Bytes) (n : Int) (pos : Nat) : Option (List Int) := do
  loadEach (readInt buf) 4 (← n.toNat?) pos

/-- `n` bytes from `pos`. -/
def readVchar (buf : Bytes) (n : Int) (pos : Nat) : Option Bytes := do
  load buf pos (← n.toNat?)

/-- `ENVELOPE_OFFSET`, from the position of the envelope's data. -/
def envelopeOffset (data : Nat) (offset : Int) : Option Nat := (data + offset).toNat?

/-- A name is read up to its terminating zero. -/
def readName (buf : Bytes) (pos : Nat) : Option Bytes := terminated buf pos

def createActor (buf : Bytes) : Option WireMessage := do
  let actorName ← readName buf (← envelopeOffset 16 (← readInt buf 4))
  let pids ← readInts buf (← readInt buf 12) (← envelopeOffset 16 (← readInt buf 8))
  pure (.createActor actorName pids)

def callActor (buf : Bytes) : Option WireMessage := do
  let functionName ← readName buf (← envelopeOffset 20 (← readInt buf 4))
  let args ← readVchar buf (← readInt buf 16) (← envelopeOffset 20 (← readInt buf 12))
  pure (.callActor functionName args (← readInt buf 8))

def registerFuture (buf : Bytes) : Option WireMessage := do
  let futureKey ← readInt buf 4
  let futureData ← readVchar buf (← readInt buf 12) (← envelopeOffset 16 (← readInt buf 8))
  pure (.registerFuture futureKey futureData)

/-- `getResId`, `isOnlyAddr`, `getDataSize`, and `getData` or `getAddrData`. -/
def storeResult (buf : Bytes) : Option WireMessage := do
  let resid ← readInt buf 4
  let dataSize ← readSize buf 12
  if ← readBool buf 20 then pure (.storeResult resid (.address (← readSize buf 21) dataSize))
  else pure (.storeResult resid (.data (← load buf 21 dataSize)))

def storeResultPart (buf : Bytes) : Option WireMessage := do
  let resid ← readInt buf 4
  let data ← load buf 36 (← readSize buf 12)
  pure (.storeResultPart resid data (← readSize buf 20))

/-- What `getPart` points at. -/
def readPart (buf : Bytes) (pos : Nat) : Option ResultReqPart := do
  let resid ← readInt buf pos
  let offset ← readSize buf (pos + 8)
  let size ← readSize buf (pos + 16)
  let dst ← readSize buf (pos + 24)
  pure ⟨resid, offset, size, dst⟩

def getResultParts (buf : Bytes) : Option WireMessage := do
  let nparts ← (← readInt buf 4).toNat?
  let forwardTo ← readInt buf 8
  pure (.getResultParts forwardTo (← loadEach (readPart buf) 32 nparts 12))

def distributeVector (buf : Bytes) : Option WireMessage := do
  let type ← DistrType.ofCode (← readInt buf 4)
  pure (.distributeVector type (← readSize buf 8) (← readSize buf 16))

def prefetch (buf : Bytes) : Option WireMessage := do
  pure (.prefetch (← readInt buf 4) (← readInt buf 8) (← readSize buf 12))

/-- The keys start behind the processes. -/
def fetch (buf : Bytes) : Option WireMessage := do
  let npids ← readInt buf 20
  let pids ← readInts buf npids 24
  let keys ← readInts buf npids (← envelopeOffset 24 (4 * npids))
  pure (.fetch pids keys (← readInt buf 12) (← readInt buf 16) (← readSize buf 4))

end Getters

/-- The class that the factory makes for an instruction, with its getters. -/
def readMessage (buf : Bytes) : Instruction → Option WireMessage
  | .createActor => Getters.createActor buf
  | .callActor => Getters.callActor buf
  | .destroyActor => do pure (.stopActor (← Getters.readBool buf 4))
  | .stop => some .stopActorProcess
  | .registerFutureData => Getters.registerFuture buf
  | .getFutureData => do pure (.getFutureData (← Getters.readInt buf 4))
  | .releaseFuture => do pure (.releaseFuture (← Getters.readInt buf 4))
  | .getResultParts => Getters.getResultParts buf
  | .storeResult => Getters.storeResult buf
  | .releaseResult => do pure (.releaseResultPart (← Getters.readInt buf 4))
  | .distributeVector => Getters.distributeVector buf
  | .prefetch => Getters.prefetch buf
  | .fetch => Getters.fetch buf
  | .storeResultPart => Getters.storeResultPart buf

/-- `ActorMessageFactory::createMessage` and all getters of the message it makes; none when the
instruction is unknown or a getter reads outside the buffer. -/
def createMessage (buf : Bytes) : Option WireMessage := do
  readMessage buf (← Instruction.ofCode (← Getters.readInt buf 0))

def IsInt (x : Int) : Prop := -2 ^ 31 ≤ x ∧ x < 2 ^ 31

def IsSize (n : Nat) : Prop := n < 2 ^ 64

namespace Envelope

/-- Every field is a value of its type, and names have no zero inside. -/
def InRange : Envelope → Prop
  | createActor actorName pids => 0 ∉ actorName ∧ ∀ pid ∈ pids, IsInt pid
  | callActor functionName futureKey _ => 0 ∉ functionName ∧ IsInt futureKey
  | registerFuture futureKey _ => IsInt futureKey
  | getFutureData futureKey => IsInt futureKey
  | releaseFuture futureKey => IsInt futureKey
  | storeResult resid content =>
    IsInt resid ∧ match content with
      | .data _ => True
      | .address addr size => IsSize addr ∧ IsSize size
  | storeResultPart resid _ offset fullSize => IsInt resid ∧ IsSize offset ∧ IsSize fullSize
  | releaseResultPart resid => IsInt resid
  | getResultParts forwardTo parts =>
    IsInt forwardTo ∧ ∀ p ∈ parts,
      IsInt p.part.resid ∧ IsSize p.part.offset ∧ IsSize p.part.size ∧ IsSize p.part.dst
  | distributeVector _ n elemSize => IsSize n ∧ IsSize elemSize
  | prefetch futurePid futureKey dvSize => IsInt futurePid ∧ IsInt futureKey ∧ IsSize dvSize
  | fetch pids keys reqFutureKey resFutureKey dvSize =>
    keys.length = pids.length ∧ (∀ pid ∈ pids, IsInt pid) ∧ (∀ key ∈ keys, IsInt key) ∧
      IsInt reqFutureKey ∧ IsInt resFutureKey ∧ IsSize dvSize
  | stopActor _ => True
  | stopActorProcess => True

/-- Fields in range, and a size that an `int` can hold. -/
structure Valid (m : Envelope) : Prop where
  fields : m.InRange
  size : m.size < 2 ^ 31

end Envelope

end ActiveBsp.Actormsg
