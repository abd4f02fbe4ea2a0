import ActiveBsp.Library.Act
import ActiveBsp.Distributions.BlockDistribution
import ActiveBsp.Future.DataStore
import ActiveBsp.Future.FutureKeyManager
import ActiveBsp.Serialization.Archive

/-!
# The management thread

The state of one process's manager and its message handlers. A handler emits
what it sends and posts, in order. The two collective operations of the manager
split a handler: at the head `gatherKeys` waits for the keys of the slaves, and
at a slave `broadcastVd` waits for the distribution of the head.
-/
namespace ActiveBsp

open Library Library.Buffer Library.MachineInt Distributions.BlockDistribution

set_option autoImplicit false

/-- Rank and size of the communicator that the managers of one actor share. -/
structure IntraActorCommunicator where
  pid : Nat
  nprocs : Nat
  deriving DecidableEq, Repr

/-- `pending_result_request_t`. -/
structure PendingResultRequest where
  offset : Nat
  size : Nat
  dst : Int
  deriving DecidableEq, Repr

/-- A prefetch at the head, between its own key and the keys of the slaves. -/
structure GatheringPrefetch where
  msg : PrefetchMessage
  resFutureKey : Int
  partKey : Int
  deriving DecidableEq, Repr

/-- What the thread waits for. -/
inductive Phase where
  | receiving
  | gatheringKeys (prefetch : GatheringPrefetch)
  | awaitingVd (msg : FetchMessage)
  deriving DecidableEq, Repr

/-- The fields of `ActorServer`. The flags of `_askedFutureDelete` are read with
`operator[]`, for which an absent key and `false` are the same. -/
structure ActorServer where
  pid : Int
  pids : List Int := []
  intraActorComm : Option IntraActorCommunicator := none
  actorWorkerProxy : Bool := false
  futureKeyManager : FutureKeyManager := {}
  futureDataStore : PartialMap Int Bytes := .empty
  pendingFutureRequests : PartialMap Int (List Int) := .empty
  askedFutureDelete : Int → Bool := fun _ => false
  askedFetch : PartialMap Int FetchMessage := .empty
  resultStoreLock : Bool := false
  dataStore : DataStore := .empty
  pendingResultRequests : PartialMap Int (List PendingResultRequest) := .empty
  nextResultStoreLocalKey : Int := -1
  qrun : Bool := true
  phase : Phase := .receiving

/-- What a handler sends or posts, and the mark that a run of `fetchDv` leaves. -/
inductive Output where
  | responseCode (dst : Int) (code : Int)
  | futureData (dst : Int) (data : Bytes)
  | resultPart (dst : Int) (data : Bytes)
  | distrVector (dst : Int) (dv : VectorDistribution)
  | actorMessage (dst : Int) (msg : ActorMessage)
  | gatherKey (key : Int)
  | broadcastVd (dv : VectorDistribution)
  | startActor (actorName : String) (pids : List Int)
  | callActor (req : ActiveObjectRequest)
  | stopActor
  | workerKey (key : Int)
  | fetchDv (msg : FetchMessage) (dvFuture : Bytes)
  deriving DecidableEq, Repr

abbrev Handler (α : Type) : Type := Act ActorServer Output Fault α

/-- What the thread, or the worker thread beside it, does next. -/
inductive Input where
  | message (src : Int) (msg : ActorMessage)
  /-- The keys of the slaves, in rank order, reach `gatherKeys` at the head. -/
  | gatheredKeys (keys : List Int)
  /-- The distribution of the head reaches `broadcastVd` at a slave. -/
  | broadcastVd (dv : VectorDistribution)
  /-- The worker thread has created the communicator of the managers. -/
  | setIntraActorComm (comm : IntraActorCommunicator)
  /-- The worker thread takes a key for a result. -/
  | takeKey
  deriving DecidableEq, Repr

namespace ActorServer

def takeKey : Handler Int :=
  Act.lift fun s =>
    .ok (s.futureKeyManager.takeKey.1, { s with futureKeyManager := s.futureKeyManager.takeKey.2 })

/-- The communicator; the code does not check for a null pointer. -/
def getIntraActorComm : Handler IntraActorCommunicator := do
  match (← Act.get).intraActorComm with
  | none => Act.fail .undefined
  | some comm => pure comm

def isHead : Handler Bool := do
  return (← getIntraActorComm).pid == 0

/-- A second lock by the same thread never returns. -/
def lockResultStore : Handler Unit :=
  Act.lift fun s =>
    if s.resultStoreLock then .error .deadlock else .ok ((), { s with resultStoreLock := true })

def unlockResultStore : Handler Unit := Act.modify fun s => { s with resultStoreLock := false }

/-- A call on the data store that changes it. -/
def updateDataStore {α : Type} (f : DataStore → Except Fault (α × DataStore)) : Handler α :=
  Act.lift fun s => (f s.dataStore).map fun r => (r.1, { s with dataStore := r.2 })

def getPartData (key : Int) : Handler (Option Bytes × Nat) :=
  Act.lift fun s => (s.dataStore.getPartData key).map fun r => (r, s)

/-- `sendResultPart(dst, data + offset, size)`, whose count is an `int`. -/
def sendResultPart (dst : Int) (data : Bytes) (offset size : Nat) : Handler Unit :=
  let count := toInt32 size
  if count < 0 ∨ data.length < offset + count.toNat then Act.fail .undefined
  else Act.emit (.resultPart dst (slice data offset count.toNat))

/-- The test of `fetchDv` on a part of the distribution, for the range `[ioffset, iend)`. -/
def Selects (pid : Int) (part : VectorDistributionPart) (ioffset iend : Nat) : Prop :=
  pid = part.pid ∧ ¬ (add64 part.offset part.size ≤ ioffset ∨ iend ≤ part.offset)

instance (pid : Int) (part : VectorDistributionPart) (ioffset iend : Nat) :
    Decidable (Selects pid part ioffset iend) := inferInstanceAs (Decidable (_ ∧ _))

/-- `req_offset` and `req_size`. -/
def subPart (part : VectorDistributionPart) (ioffset iend : Nat) : Nat × Nat :=
  let reqOffset := if part.offset ≤ ioffset then ioffset - part.offset else 0
  (reqOffset, sub64 (min part.size (sub64 iend part.offset)) reqOffset)

/-- The body of the inner loop of `fetchDv`. -/
def fetchPart (dst key : Int) (size ioffset iend : Nat) (part : VectorDistributionPart) :
    Handler Unit := do
  let s ← Act.get
  if Selects s.pid part ioffset iend then
    lockResultStore
    match (← getPartData part.resid).1 with
    | none => Act.fail (.assertion .fetchDv)
    | some data =>
      -- the message is built from the start of the part: `reqOffset` is not added to `data`
      let reqSize := (subPart part ioffset iend).2
      if data.length < reqSize then Act.fail .undefined
      else Act.emit (.actorMessage dst (.storeResultPart ⟨key, data.take reqSize, 0, size⟩))
    unlockResultStore

/-- One turn of the outer loop of `fetchDv`: the parts that process `i` of the actor gets. -/
def fetchRange (msg : FetchMessage) (dv : VectorDistribution) (i : Nat) (pid key : Int) :
    Handler Unit :=
  let range := divRange msg.dvSize i msg.npids
  dv.parts.forM (fetchPart pid key msg.dvSize range.1 range.2)

/-- `fetchDv` from its loop on, when the distribution is known. -/
def fetchParts (msg : FetchMessage) (dv : VectorDistribution) : Handler Unit :=
  (msg.pids.zip msg.keys).zipIdx.forM fun dst => fetchRange msg dv dst.2 dst.1.1 dst.1.2

/-- `fetchDv`. -/
def fetchDv (codec : Codec) (msg : FetchMessage) : Handler Unit := do
  if ← isHead then
    (← Act.get).pids.tail.forM fun pid => Act.emit (.actorMessage pid (.fetch msg))
    match (← Act.get).futureDataStore msg.reqFutureKey with
    | none => Act.fail .undefined
    | some dvFuture =>
      Act.emit (.fetchDv msg dvFuture)
      match codec.deserializeAll dvFuture with
      | none => Act.fail .exception
      | some dv =>
        Act.emit (.broadcastVd dv)
        fetchParts msg dv
  else
    Act.modify fun s => { s with phase := .awaitingVd msg }

/-- `fetchDv` at a slave, after its `broadcastVd`. -/
def resumeFetchDv (msg : FetchMessage) (dv : VectorDistribution) : Handler Unit := do
  Act.modify fun s => { s with phase := .receiving }
  fetchParts msg dv

def checkFutureRequired (codec : Codec) (key : Int) : Handler Unit := do
  match (← Act.get).askedFetch key with
  | none => pure ()
  | some msg =>
    fetchDv codec msg
    Act.modify fun s => { s with askedFetch := s.askedFetch.erase key }

/-- The reply to the processes that asked before the data came. -/
def servePending (key : Int) (data : Bytes) : Option (List Int) → Handler Unit
  | none => pure ()
  | some pids => do
    pids.forM fun pid => Act.emit (.futureData pid data)
    Act.modify fun s => { s with pendingFutureRequests := s.pendingFutureRequests.erase key }

def removeIfAsked (key : Int) : Handler Unit := do
  if (← Act.get).askedFutureDelete key = true then
    Act.modify fun s => { s with
      askedFutureDelete := Function.update s.askedFutureDelete key false
      futureDataStore := s.futureDataStore.erase key }

def registerFuture (codec : Codec) (key : Int) (data : Bytes) : Handler Unit := do
  let s ← Act.get
  let pending := s.pendingFutureRequests key
  if pending = none ∧ s.askedFutureDelete key = true then
    Act.modify fun s => { s with askedFutureDelete := Function.update s.askedFutureDelete key false }
  else
    Act.modify fun s => { s with futureDataStore := s.futureDataStore.set key data }
    checkFutureRequired codec key
    servePending key data pending
    removeIfAsked key

def handleGetFutureData (src key : Int) : Handler Unit := do
  let s ← Act.get
  match s.futureDataStore key with
  | some data => Act.emit (.futureData src data)
  | none =>
    Act.modify fun s => { s with
      pendingFutureRequests :=
        s.pendingFutureRequests.set key ((s.pendingFutureRequests key).getD [] ++ [src]) }

def handleReleaseFutureMessage (key : Int) : Handler Unit := do
  match (← Act.get).futureDataStore key with
  | some _ => Act.modify fun s => { s with futureDataStore := s.futureDataStore.erase key }
  | none =>
    Act.modify fun s => { s with askedFutureDelete := Function.update s.askedFutureDelete key true }

/-- The loop of `handleGetResultPartsMessage`; `false` when it returns early. -/
def answerParts (src forwardTo : Int) : List ResultReqPart → Handler Bool
  | [] => pure true
  | part :: parts => do
    let (data, dataSize) ← getPartData part.resid
    match data with
    | none =>
      Act.modify fun s => { s with
        pendingResultRequests := s.pendingResultRequests.set part.resid
          ((s.pendingResultRequests part.resid).getD [] ++ [⟨part.offset, part.size, src⟩]) }
      answerParts src forwardTo parts
    | some data =>
      if dataSize < add64 part.offset part.size then pure false
      else
        sendResultPart forwardTo data part.offset part.size
        answerParts src forwardTo parts

/-- An out-of-bounds request returns without the unlock. -/
def handleGetResultPartsMessage (src : Int) (msg : GetResultPartsMessage) : Handler Unit := do
  lockResultStore
  if ← answerParts src msg.forwardTo msg.parts then unlockResultStore

/-- The body of the loop of `checkDvPartRequired`. -/
def answerParked (key : Int) (request : PendingResultRequest) : Handler Unit := do
  let data := (← getPartData key).1
  sendResultPart request.dst (data.getD []) request.offset request.size

/-- The requests that are answered stay in `_pendingResultRequests`. -/
def checkDvPartRequired (key : Int) : Handler Unit := do
  match (← Act.get).pendingResultRequests key with
  | none => pure ()
  | some requests =>
    lockResultStore
    requests.forM (answerParked key)
    unlockResultStore

def handleStoreResultMessage (msg : StoreResultMessage) : Handler Unit := do
  lockResultStore
  updateDataStore fun ds => (ds.storePartMessage msg.resId msg).map fun ds => ((), ds)
  unlockResultStore
  checkDvPartRequired msg.resId

def handleStoreResultPartMessage (msg : StoreResultPartMessage) : Handler Unit := do
  lockResultStore
  let remaining ← updateDataStore fun ds => ds.addData msg.resId msg.data msg.offset
  unlockResultStore
  if remaining = 0 then checkDvPartRequired msg.resId

def handleReleaseResultPartMessage (resId : Int) : Handler Unit := do
  lockResultStore
  updateDataStore fun ds => (ds.removePart resId).map fun ds => ((), ds)
  unlockResultStore

/-- The loop of `handleDistributeVectorMessage`: the distribution and the next local key. -/
def distributeParts (pids : List Int) (localKey : Int) (msg : DistributeVectorMessage) :
    VectorDistribution × Int :=
  (List.range pids.length).foldl (fun acc (i : Nat) =>
    let range := divRange msg.n i pids.length
    let size := sub64 range.2 range.1
    (acc.1.registerPart i ⟨pids.getD i 0, acc.2, mul64 size msg.elemSize,
      mul64 range.1 msg.elemSize⟩, toInt32 (acc.2 - 1))) (.new pids.length, localKey)

def handleDistributeVectorMessage (src : Int) (msg : DistributeVectorMessage) : Handler Unit := do
  let s ← Act.get
  let distributed := distributeParts s.pids s.nextResultStoreLocalKey msg
  Act.modify fun s => { s with nextResultStoreLocalKey := distributed.2 }
  Act.emit (.distrVector src distributed.1)

/-- What the head does first: a key for the new future, and the message to the slaves. -/
def announcePrefetch (src : Int) (msg : PrefetchMessage) : Handler Int := do
  let resFutureKey ← takeKey
  Act.emit (.responseCode src resFutureKey)
  match (← Act.get).pids with
  | [] => Act.fail .undefined
  | _ :: slaves => slaves.forM fun pid => Act.emit (.actorMessage pid (.prefetch msg))
  return resFutureKey

/-- What every process does: a key and an empty buffer for its part. -/
def preparePart (msg : PrefetchMessage) : Handler Int := do
  let comm ← getIntraActorComm
  let range := divRange msg.dvSize comm.pid comm.nprocs
  let partSize := sub64 range.2 range.1
  let partKey ← takeKey
  lockResultStore
  updateDataStore fun ds => (ds.preparePartVector partKey partSize).map fun ds => ((), ds)
  unlockResultStore
  return partKey

/-- `handlePrefetchMessage`, up to `gatherKeys`. -/
def handlePrefetchMessage (src : Int) (msg : PrefetchMessage) : Handler Unit := do
  if ← isHead then
    let resFutureKey ← announcePrefetch src msg
    let partKey ← preparePart msg
    Act.modify fun s => { s with phase := .gatheringKeys ⟨msg, resFutureKey, partKey⟩ }
  else
    let partKey ← preparePart msg
    Act.emit (.gatherKey partKey)

/-- The distribution that a prefetch registers. -/
def prefetchedDistribution (nprocs : Nat) (msg : FetchMessage) : VectorDistribution :=
  (List.range nprocs).foldl (fun vd (i : Nat) =>
    let range := divRange msg.dvSize i nprocs
    vd.registerPart i ⟨msg.pids.getD i 0, msg.keys.getD i 0, sub64 range.2 range.1, range.1⟩)
    (.new nprocs)

/-- `handlePrefetchMessage` at the head, after its `gatherKeys`. -/
def resumePrefetch (codec : Codec) (prefetch : GatheringPrefetch) (keys : List Int) :
    Handler Unit := do
  Act.modify fun s => { s with phase := .receiving }
  let comm ← getIntraActorComm
  let fetchMessage : FetchMessage :=
    ⟨(← Act.get).pids, prefetch.partKey :: keys, prefetch.msg.futureKey, prefetch.resFutureKey,
      prefetch.msg.dvSize⟩
  Act.emit (.actorMessage prefetch.msg.futurePid (.fetch fetchMessage))
  registerFuture codec prefetch.resFutureKey
    (codec.serializeAll (prefetchedDistribution comm.nprocs fetchMessage))

/-- A second request for a future that is not there yet breaks the assertion. -/
def handleFetchMessage (codec : Codec) (msg : FetchMessage) : Handler Unit := do
  if ← isHead then
    let s ← Act.get
    match s.futureDataStore msg.reqFutureKey with
    | some _ => fetchDv codec msg
    | none =>
      if s.askedFetch msg.reqFutureKey = none then
        Act.modify fun s => { s with askedFetch := s.askedFetch.set msg.reqFutureKey msg }
      else Act.fail (.assertion .handleFetchMessage)
  else fetchDv codec msg

def handleCreateActorMessage (src : Int) (msg : CreateActorMessage) : Handler Unit := do
  Act.modify fun s => { s with pids := msg.pids, actorWorkerProxy := true }
  Act.emit (.startActor msg.actorName msg.pids)
  match msg.pids with
  | [] => Act.fail .undefined
  | head :: _ =>
    let s ← Act.get
    if s.pid = head then Act.emit (.responseCode src 0)

/-- A call on the worker's proxy, which is null when the process has no actor. -/
def useActorWorkerProxy (output : Output) : Handler Unit := do
  let s ← Act.get
  if s.actorWorkerProxy then Act.emit output else Act.fail .undefined

def handleCallActorMessage (src : Int) (msg : CallActorMessage) : Handler Unit := do
  let key ← takeKey
  useActorWorkerProxy (.callActor ⟨msg, src, key⟩)
  Act.emit (.responseCode src key)

def handleStopActorMessage (src : Int) (askAnswer : Bool) : Handler Unit := do
  Act.modify fun s => { s with pids := [] }
  useActorWorkerProxy .stopActor
  Act.modify fun s => { s with actorWorkerProxy := false }
  if askAnswer then Act.emit (.responseCode src 0)

/-- The handler of `INSTRUCTION_STOP`, and what `run` does when it leaves its loop. -/
def handleStopActorProcessMessage : Handler Unit := do
  Act.modify fun s => { s with qrun := false }
  let s ← Act.get
  if s.actorWorkerProxy then
    Act.emit .stopActor
    Act.modify fun s => { s with actorWorkerProxy := false }

def routeHandleMessage (codec : Codec) (src : Int) : ActorMessage → Handler Unit
  | .stop => handleStopActorProcessMessage
  | .createActor msg => handleCreateActorMessage src msg
  | .destroyActor askAnswer => handleStopActorMessage src askAnswer
  | .callActor msg => handleCallActorMessage src msg
  | .registerFutureData key data => registerFuture codec key data
  | .getFutureData key => handleGetFutureData src key
  | .releaseFuture key => handleReleaseFutureMessage key
  | .storeResult msg => handleStoreResultMessage msg
  | .storeResultPart msg => handleStoreResultPartMessage msg
  | .releaseResult resId => handleReleaseResultPartMessage resId
  | .getResultParts msg => handleGetResultPartsMessage src msg
  | .distributeVector msg => handleDistributeVectorMessage src msg
  | .prefetch msg => handlePrefetchMessage src msg
  | .fetch msg => handleFetchMessage codec msg

/-- One turn of `run`, or of the code that a collective operation had stopped. -/
def step (codec : Codec) (input : Input) : Handler Unit := do
  let s ← Act.get
  match input, s.phase with
  | .message src msg, .receiving =>
    if s.qrun then routeHandleMessage codec src msg else Act.fail .blocked
  | .gatheredKeys keys, .gatheringKeys prefetch => resumePrefetch codec prefetch keys
  | .broadcastVd dv, .awaitingVd msg => resumeFetchDv msg dv
  | .setIntraActorComm comm, _ => Act.modify fun s => { s with intraActorComm := some comm }
  | .takeKey, _ => do Act.emit (.workerKey (← takeKey))
  | _, _ => Act.fail .blocked

theorem step_message {codec : Codec} {s : ActorServer} (hp : s.phase = .receiving)
    (hq : s.qrun = true) (src : Int) (msg : ActorMessage) :
    step codec (.message src msg) s = routeHandleMessage codec src msg s := by
  simp only [step, Act.get_bind, hp, hq, if_true]

theorem step_message_inv {codec : Codec} {s : ActorServer} {out : List Output} {src : Int} {msg : ActorMessage} {r : Unit × ActorServer}
    (h : step codec (.message src msg) s = (out, .ok r)) :
    s.phase = .receiving ∧ s.qrun = true ∧ routeHandleMessage codec src msg s = (out, .ok r) := by
  simp only [step, Act.get_bind] at h
  cases hp : s.phase with
  | receiving =>
    rw [hp] at h
    by_cases hq : s.qrun = true
    · exact ⟨rfl, hq, by simpa only [if_pos hq] using h⟩
    · simp only [if_neg hq] at h
      cases h
  | gatheringKeys prefetch =>
    rw [hp] at h
    cases h
  | awaitingVd msg =>
    rw [hp] at h
    cases h

theorem step_gatheredKeys_inv {codec : Codec} {s : ActorServer} {out : List Output} {keys : List Int}
    {r : Unit × ActorServer} (h : step codec (.gatheredKeys keys) s = (out, .ok r)) :
    ∃ prefetch, s.phase = .gatheringKeys prefetch ∧
      resumePrefetch codec prefetch keys s = (out, .ok r) := by
  simp only [step, Act.get_bind] at h
  cases hp : s.phase with
  | gatheringKeys prefetch =>
    rw [hp] at h
    exact ⟨prefetch, rfl, h⟩
  | receiving =>
    rw [hp] at h
    cases h
  | awaitingVd msg =>
    rw [hp] at h
    cases h

theorem step_broadcastVd_inv {codec : Codec} {s : ActorServer} {out : List Output}
    {dv : VectorDistribution} {r : Unit × ActorServer}
    (h : step codec (.broadcastVd dv) s = (out, .ok r)) :
    ∃ msg, s.phase = .awaitingVd msg ∧ resumeFetchDv msg dv s = (out, .ok r) := by
  simp only [step, Act.get_bind] at h
  cases hp : s.phase with
  | awaitingVd msg =>
    rw [hp] at h
    exact ⟨msg, rfl, h⟩
  | receiving =>
    rw [hp] at h
    cases h
  | gatheringKeys prefetch =>
    rw [hp] at h
    cases h

end ActorServer

end ActiveBsp
