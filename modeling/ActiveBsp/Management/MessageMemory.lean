import ActiveBsp.Actormsg.EnvelopeRoundTrip
import ActiveBsp.Library.Heap
import ActiveBsp.Library.Triple
import ActiveBsp.Management.ActorServer

/-!
# The memory of the messages

What the handlers of a manager do with the buffers of messages: the one receive
buffer, which the next message overwrites or replaces, the buffer that a message
takes along when it is kept, and the copies. What else a handler looks at is the
state of the manager, here called the thread.
-/
namespace ActiveBsp.MessageMemory

open Library Library.Buffer Library.MachineInt Actormsg Distributions.BlockDistribution

set_option autoImplicit false

/-- An `ActorMessage`: a buffer and whether the message deletes it. The bytes it was received
with are for the proofs. -/
structure MessageObject where
  src : Int
  buf : Nat
  bufSize : Nat
  qowned : Bool
  received : Bytes

/-- The storage of a `std::vector<char>`, with what it was filled with; nothing is said of the
vectors that later messages fill. -/
structure VectorObject where
  data : Nat
  size : Nat
  contents : Bytes

/-- The blocks, and everything of the communicator, the manager and the queue of the worker that
refers to one. `current` is the handled message when its buffer is not the receive buffer, and
`received` what the receive buffer was last filled with. -/
structure Memory where
  heap : Heap UInt8 := ∅
  recvBuf : Option Nat := none
  recvBufSize : Nat := 0
  received : Bytes := []
  current : Option MessageObject := none
  resultMsgStore : PartialMap Int MessageObject := .empty
  resultVectorStore : PartialMap Int VectorObject := .empty
  dvParts : PartialMap Int DvPart := .empty
  futureDataStore : PartialMap Int VectorObject := .empty
  askedFetch : PartialMap Int MessageObject := .empty
  queue : List MessageObject := []

inductive MemoryFault where
  /-- A block is used that is not allocated, or beyond its end. -/
  | badBlock
  /-- The assertion of `giveBufferOwnership`. -/
  | notReceiveBuffer
  | other (fault : Fault)
  deriving DecidableEq, Repr

/-- What happens to the receive buffer. -/
inductive MemoryEvent where
  | deleted (a : Nat)
  | wrote (a : Nat)
  | handedOver (a : Nat)
  deriving DecidableEq, Repr

abbrev MemAct (α : Type) : Type := Act Memory MemoryEvent MemoryFault α

def orBadBlock {α : Type} : Option α → Except MemoryFault α
  | none => .error .badBlock
  | some a => .ok a

def newBlock (al : Allocator) (block : Bytes) : MemAct Nat :=
  Act.lift fun m => .ok ((m.heap.alloc al block).1, { m with heap := (m.heap.alloc al block).2 })

def deleteBlock (a : Nat) : MemAct Unit :=
  Act.lift fun m => (orBadBlock (m.heap.delete a)).map fun heap => ((), { m with heap })

def writeBlock (a pos : Nat) (data : Bytes) : MemAct Unit :=
  Act.lift fun m => (orBadBlock (m.heap.write a ⟨pos, data⟩)).map fun heap => ((), { m with heap })

def readBlock (a n : Nat) : MemAct Bytes :=
  Act.lift fun m => (orBadBlock (m.heap.read a 0 n)).map fun data => (data, m)

def assertThat (site : Assertion) (cond : Prop) [Decidable cond] : MemAct Unit :=
  if cond then pure () else Act.fail (.other (.assertion site))

/-- A buffer that is too small is deleted and a larger one allocated. -/
def growRecvBuf (al : Allocator) (memory : Nat → UInt8) (bufSize : Nat) : MemAct Unit := do
  match (← Act.get).recvBuf with
  | none => pure ()
  | some a => do
    Act.emit (.deleted a)
    deleteBlock a
  let a ← newBlock al (allocate memory bufSize)
  Act.modify fun m => { m with recvBuf := some a, recvBufSize := bufSize, received := [] }

/-- `ActorMessageFactory::createMessage`: a call gets a copy of the buffer, which the message does
not own; every other message refers to the buffer itself. None is a null message. -/
def createObject (al : Allocator) (src : Int) (buf : Nat) (bytes : Bytes) :
    MemAct (Option MessageObject) := do
  let view ← readBlock buf bytes.length
  match Getters.readInt view 0 with
  | none => Act.fail (.other .undefined)
  | some code =>
    match Instruction.ofCode code with
    | none => pure none
    | some .callActor => do
      let cpy ← newBlock al view
      let msg : MessageObject := ⟨src, cpy, bytes.length, false, bytes⟩
      Act.modify fun m => { m with current := some msg }
      return some msg
    | some _ => return some ⟨src, buf, bytes.length, false, bytes⟩

/-- The message is received into the buffer. -/
def fillRecvBuf (al : Allocator) (src : Int) (bytes : Bytes) : MemAct (Option MessageObject) := do
  match (← Act.get).recvBuf with
  | none => Act.fail (.other .undefined)
  | some a => do
    Act.emit (.wrote a)
    writeBlock a 0 bytes
    Act.modify fun m => { m with received := bytes }
    createObject al src a bytes

/-- `receiveActorMessage`. -/
def receiveActorMessage (al : Allocator) (memory : Nat → UInt8) (src : Int) (bytes : Bytes) :
    MemAct (Option MessageObject) := do
  if (← Act.get).recvBufSize < bytes.length then growRecvBuf al memory bytes.length
  fillRecvBuf al src bytes

/-- `giveBufferOwnershipTo`: the message keeps the receive buffer, and a zeroed one of the same
size takes its place. -/
def giveBufferOwnershipTo (al : Allocator) (msg : MessageObject) : MemAct MessageObject := do
  let m ← Act.get
  if m.recvBuf = some msg.buf then do
    let owner : MessageObject := { msg with qowned := true }
    Act.emit (.handedOver msg.buf)
    Act.modify fun m => { m with current := some owner, recvBuf := none, received := [] }
    let a ← newBlock al (List.replicate m.recvBufSize 0)
    Act.modify fun m => { m with recvBuf := some a }
    return owner
  else Act.fail .notReceiveBuffer

/-- `storePartMessage`; the map does not replace a message it has. -/
def storePartMessage (key : Int) (msg : MessageObject) (dataSize : Nat) : MemAct Unit := do
  Act.modify fun m =>
    if m.resultMsgStore key = none then
      { m with resultMsgStore := m.resultMsgStore.set key msg, current := none }
    else m
  assertThat .storePartMessage ((← Act.get).dvParts key = none)
  Act.modify fun m => { m with dvParts := m.dvParts.set key ⟨key, dataSize, .messageStore, 0⟩ }

/-- `preparePartVector`. -/
def preparePartVector (al : Allocator) (key : Int) (size : Nat) : MemAct Unit := do
  assertThat .preparePartVector ((← Act.get).dvParts key = none)
  assertThat .preparePartVector (((← Act.get).resultVectorStore key).isNone)
  let data ← newBlock al (List.replicate size 0)
  Act.modify fun m => { m with
    resultVectorStore := m.resultVectorStore.set key ⟨data, size, []⟩
    dvParts := m.dvParts.set key ⟨key, size, .vectorStore, size⟩ }

/-- `findDataBuf`: a block, where the data starts in it, and how much there is from there on. -/
def findDataBuf (part : DvPart) (key : Int) : MemAct (Nat × Nat × Nat) := do
  match part.location with
  | .vectorStore =>
    match (← Act.get).resultVectorStore key with
    | none => Act.fail (.other (.assertion .findDataBuf))
    | some v => if v.size = 0 then Act.fail (.other (.assertion .addDataBuf)) else
      return (v.data, 0, v.size)
  | .messageStore =>
    match (← Act.get).resultMsgStore key with
    | none => Act.fail (.other (.assertion .findDataBuf))
    | some msg => return (msg.buf, 21, msg.bufSize - 21)

/-- `addData`. A `memcpy` of nothing touches nothing. -/
def addData (key : Int) (data : Bytes) (offset : Nat) : MemAct Unit := do
  match (← Act.get).dvParts key with
  | none => Act.fail (.other (.assertion .addDataPart))
  | some part => do
    let (block, start, room) ← findDataBuf part key
    assertThat .addDataRange (add64 offset data.length ≤ part.size)
    assertThat .addDataRemaining (data.length ≤ part.remainingBytes)
    if data ≠ [] then
      if room < offset + data.length then Act.fail (.other .undefined)
      else writeBlock block (start + offset) data
    Act.modify fun m => { m with
      dvParts := m.dvParts.set key
        { part with remainingBytes := part.remainingBytes - data.length } }

/-- A message that is destroyed deletes the buffer it owns, and no other. -/
def destroyMessage (msg : MessageObject) : MemAct Unit :=
  if msg.qowned then deleteBlock msg.buf else pure ()

/-- `removePart`. -/
def removePart (key : Int) : MemAct Unit := do
  match (← Act.get).dvParts key with
  | none => Act.fail (.other (.assertion .removePart))
  | some part =>
    match part.location with
    | .messageStore =>
      match (← Act.get).resultMsgStore key with
      | none => Act.fail (.other (.assertion .removePart))
      | some msg => do
        destroyMessage msg
        Act.modify fun m => { m with resultMsgStore := m.resultMsgStore.erase key }
    | .vectorStore =>
      match (← Act.get).resultVectorStore key with
      | none => Act.fail (.other (.assertion .removePart))
      | some v => do
        deleteBlock v.data
        Act.modify fun m => { m with resultVectorStore := m.resultVectorStore.erase key }
  Act.modify fun m => { m with dvParts := m.dvParts.erase key }

/-- `registerFutureData`: the store copies the data. -/
def registerFutureData (al : Allocator) (key : Int) (data : Bytes) : MemAct Unit := do
  match (← Act.get).futureDataStore key with
  | none => pure ()
  | some old => deleteBlock old.data
  let a ← newBlock al data
  Act.modify fun m => { m with
    futureDataStore := m.futureDataStore.set key ⟨a, data.length, data⟩ }

/-- `removeFutureData`, of a future that may be missing. -/
def removeFutureData (key : Int) : MemAct Unit := do
  match (← Act.get).futureDataStore key with
  | none => pure ()
  | some v => do
    deleteBlock v.data
    Act.modify fun m => { m with futureDataStore := m.futureDataStore.erase key }

/-- `checkFutureRequired`: a deferred fetch is run and then destroyed. -/
def checkFutureRequired (key : Int) : MemAct Unit := do
  match (← Act.get).askedFetch key with
  | none => pure ()
  | some msg => do
    destroyMessage msg
    Act.modify fun m => { m with askedFetch := m.askedFetch.erase key }

def registerFuture (al : Allocator) (thread : ActorServer) (key : Int) (data : Bytes) :
    MemAct Unit := do
  if thread.pendingFutureRequests key = none ∧ thread.askedFutureDelete key = true then pure ()
  else do
    registerFutureData al key data
    checkFutureRequired key
    if thread.askedFutureDelete key = true then removeFutureData key

def handleStoreResultMessage (al : Allocator) (msg : MessageObject) (resid : Int)
    (dataSize : Nat) : MemAct Unit := do
  let owner ← giveBufferOwnershipTo al msg
  storePartMessage resid owner dataSize

/-- The request is queued for the worker. -/
def handleCallActorMessage (thread : ActorServer) (msg : MessageObject) : MemAct Unit :=
  if thread.actorWorkerProxy then
    Act.modify fun m => { m with queue := m.queue ++ [msg], current := none }
  else Act.fail (.other .undefined)

/-- The buffer for the part of this process. The head has taken a key for the future before. -/
def handlePrefetchMessage (al : Allocator) (thread : ActorServer) (dvSize : Nat) :
    MemAct Unit :=
  match thread.intraActorComm with
  | none => Act.fail (.other .undefined)
  | some comm =>
    let keys := if comm.pid = 0 then thread.futureKeyManager.takeKey.2 else thread.futureKeyManager
    let range := divRange dvSize comm.pid comm.nprocs
    preparePartVector al keys.takeKey.1 (sub64 range.2 range.1)

/-- The head copies a fetch for a future that it does not have; the copy owns its buffer. -/
def handleFetchMessage (al : Allocator) (thread : ActorServer) (msg : MessageObject)
    (reqFutureKey : Int) : MemAct Unit := do
  match thread.intraActorComm with
  | none => Act.fail (.other .undefined)
  | some comm =>
    if comm.pid = 0 ∧ ((← Act.get).futureDataStore reqFutureKey).isNone then do
      let view ← readBlock msg.buf msg.bufSize
      assertThat .handleFetchMessage (((← Act.get).askedFetch reqFutureKey).isNone)
      let cpy ← newBlock al view
      Act.modify fun m => { m with
        askedFetch := m.askedFetch.set reqFutureKey
          ⟨msg.src, cpy, msg.bufSize, true, msg.received⟩ }

/-- The handlers that keep or give up a buffer. -/
def routeHandleMessage (al : Allocator) (thread : ActorServer) (msg : MessageObject) :
    WireMessage → MemAct Unit
  | .storeResult resid content => handleStoreResultMessage al msg resid content.size
  | .storeResultPart resid data offset => addData resid data offset
  | .releaseResultPart resid => removePart resid
  | .callActor .. => handleCallActorMessage thread msg
  | .registerFuture futureKey futureData => registerFuture al thread futureKey futureData
  | .releaseFuture futureKey => removeFutureData futureKey
  | .prefetch _ _ dvSize => handlePrefetchMessage al thread dvSize
  | .fetch _ _ reqFutureKey _ _ => handleFetchMessage al thread msg reqFutureKey
  | .createActor .. => pure ()
  | .getFutureData _ => pure ()
  | .getResultParts .. => pure ()
  | .distributeVector .. => pure ()
  | .stopActor _ => pure ()
  | .stopActorProcess => pure ()

/-- The last reference to the handled message goes. -/
def releaseMessage : MemAct Unit := do
  match (← Act.get).current with
  | none => pure ()
  | some msg => do
    destroyMessage msg
    Act.modify fun m => { m with current := none }

/-- What happens at a manager: a turn of its loop, the end of a prefetch at the head, which
registers a future of its own, and a call that its worker is done with. -/
inductive Event where
  | message (thread : ActorServer) (memory : Nat → UInt8) (src : Int) (bytes : Bytes)
  | gathered (thread : ActorServer) (futureKey : Int) (data : Bytes)
  | callDone

def step (al : Allocator) : Event → MemAct Unit
  | .message thread memory src bytes => do
    match ← receiveActorMessage al memory src bytes with
    | none => pure ()
    | some msg => do
      let view ← readBlock msg.buf msg.bufSize
      match createMessage view with
      | none => Act.fail (.other .undefined)
      | some wire => do
        routeHandleMessage al thread msg wire
        releaseMessage
  | .gathered thread futureKey data => registerFuture al thread futureKey data
  | .callDone => Act.modify fun m => { m with queue := m.queue.tail }

end ActiveBsp.MessageMemory
