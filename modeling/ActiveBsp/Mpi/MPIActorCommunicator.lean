import ActiveBsp.Management.ActorServer

/-!
# The client's side of distributed vectors

The messages that a process sends to distribute, read and release a vector. A
read is split into one list of requests for each process that keeps a part, and
the replies of a process are matched with its requests in order.
-/
namespace ActiveBsp.MPIActorCommunicator

open Library Library.Buffer Library.MachineInt

set_option autoImplicit false

/-- The `StoreResult` messages of `block_distribute`. -/
def storeMessages (v : Bytes) (dv : VectorDistribution) : List (Int × ActorMessage) :=
  dv.parts.map fun part =>
    (part.pid, .storeResult ⟨part.resid, slice v part.offset part.size⟩)

/-- `dv_release`. -/
def dvRelease (dv : VectorDistribution) : List (Int × ActorMessage) :=
  dv.parts.map fun part => (part.pid, .releaseResult part.resid)

/-- The test of `dv_get_part` on a part, for the range `[offset, reqEnd)`. -/
def Requests (part : VectorDistributionPart) (offset reqEnd : Nat) : Prop :=
  ¬ (add64 part.offset part.size ≤ offset ∨ reqEnd ≤ part.offset)

instance (part : VectorDistributionPart) (offset reqEnd : Nat) :
    Decidable (Requests part offset reqEnd) := inferInstanceAs (Decidable (¬ _))

/-- What is asked of a part, and where the bytes go. -/
def reqPart (part : VectorDistributionPart) (offset reqEnd : Nat) : ResultReqPart :=
  let sub := ActorServer.subPart part offset reqEnd
  ⟨part.resid, sub.1, sub.2, sub.1 + part.offset - offset⟩

/-- `reqs[pid].push_back(part)`, on a map in the order of its keys. -/
def pushBack (pid : Int) (part : ResultReqPart) :
    List (Int × List ResultReqPart) → List (Int × List ResultReqPart)
  | [] => [(pid, [part])]
  | (key, parts) :: reqs =>
    if pid < key then (pid, [part]) :: (key, parts) :: reqs
    else if pid = key then (key, parts ++ [part]) :: reqs
    else (key, parts) :: pushBack pid part reqs

/-- What the first loop of `dv_get_part` decides: parts of this process are read at once. -/
structure PartRequests where
  localReads : List ResultReqPart := []
  reqs : List (Int × List ResultReqPart) := []
  deriving DecidableEq, Repr

def selectPart (self : Int) (offset reqEnd : Nat) (acc : PartRequests)
    (part : VectorDistributionPart) : PartRequests :=
  if ¬ Requests part offset reqEnd then acc
  else if part.pid = self then
    { acc with localReads := acc.localReads ++ [reqPart part offset reqEnd] }
  else { acc with reqs := pushBack part.pid (reqPart part offset reqEnd) acc.reqs }

def partRequests (self : Int) (dv : VectorDistribution) (offset size : Nat) : PartRequests :=
  dv.parts.foldl (selectPart self offset (add64 offset size)) {}

/-- The `GetResultParts` messages, one to each process. -/
def requestMessages (self : Int) (reqs : PartRequests) : List (Int × ActorMessage) :=
  reqs.reqs.map fun req => (req.1, .getResultParts ⟨self, req.2⟩)

/-- `nreqs`: counted along with the requests. -/
def countRequest (self : Int) (offset reqEnd nreqs : Nat) (part : VectorDistributionPart) : Nat :=
  if ¬ Requests part offset reqEnd then nreqs
  else if part.pid = self then nreqs
  else nreqs + 1

/-- The size that `_reqs_buf` gets. -/
def reqsBufSize (self : Int) (dv : VectorDistribution) (offset size : Nat) : Nat :=
  dv.parts.foldl (countRequest self offset (add64 offset size)) 0 +
    (partRequests self dv offset size).reqs.length

/-- What `dv_get_part` hands to the message library, and the place in `_reqs_buf` that it names. -/
inductive Posted where
  | isend (dst : Int) (msg : GetResultPartsMessage) (ireq : Nat)
  | irecv (dst : Nat) (count : Int) (src : Int) (ireq : Nat)
  | waitAll (count : Nat) (ireq : Nat)
  deriving DecidableEq, Repr

def Posted.ireq : Posted → Nat
  | isend _ _ ireq => ireq
  | irecv _ _ _ ireq => ireq
  | waitAll _ ireq => ireq

def postSends (self : Int) : Nat → List (Int × List ResultReqPart) → List Posted
  | _, [] => []
  | ireqs, (s, parts) :: reqs => .isend s ⟨self, parts⟩ ireqs :: postSends self (ireqs + 1) reqs

def postReceivesFrom (s : Int) : Nat → List ResultReqPart → List Posted
  | _, [] => []
  | ireqs, part :: parts =>
    .irecv part.dst (toInt32 part.size) s ireqs :: postReceivesFrom s (ireqs + 1) parts

def postReceives : Nat → List (Int × List ResultReqPart) → List Posted
  | _, [] => []
  | ireqs, (s, parts) :: reqs =>
    postReceivesFrom s ireqs parts ++ postReceives (ireqs + parts.length) reqs

/-- All sends, all receives, and the wait, which takes the address of the first place. -/
def posted (self : Int) (reqs : List (Int × List ResultReqPart)) : List Posted :=
  postSends self 0 reqs ++ postReceives reqs.length reqs ++
    [.waitAll (reqs.length + (reqs.flatMap Prod.snd).length) 0]

/-- `readStoredResult`: waits for the part, and copies nothing when the sum of offset and size,
taken in `int`, leaves it. The offset is widened to an address, which may still miss the part. -/
def readStoredResult (ds : DataStore) (buf : Bytes) (dst : Nat) (key offset size : Int) :
    Except Fault Bytes := do
  match ← ds.getPartData key with
  | (none, _) => .error .blocked
  | (some data, dataSize) =>
    if dataSize < toUInt64 (toInt32 (offset + size)) then .ok buf
    else if data.length < toUInt64 offset + toUInt64 size then .error .undefined
    else .ok (splice buf dst (slice data (toUInt64 offset) (toUInt64 size)))

def readLocal (ds : DataStore) (buf : Bytes) (part : ResultReqPart) : Except Fault Bytes :=
  readStoredResult ds buf part.dst part.resid (toInt32 part.offset) (toInt32 part.size)

/-- The replies of one process, in the order of the receives that were posted for it. -/
def receiveParts (buf : Bytes) (parts : List ResultReqPart) (replies : List Bytes) : Bytes :=
  applyWrites buf ((parts.zip replies).map fun r => ⟨r.1.dst, r.2⟩)

/-- The data of a reply to a client. -/
def replyTo (client : Int) : Output → Option Bytes
  | .resultPart dst data => if dst = client then some data else none
  | _ => none

def repliesTo (client : Int) (out : List Output) : List Bytes := out.filterMap (replyTo client)

/-- `waitAll` on the receives from one process, which handles the request when it comes. -/
def readRemote (self : Int) (servers : Int → ActorServer) (buf : Bytes)
    (req : Int × List ResultReqPart) : Except Fault Bytes :=
  let out := (ActorServer.handleGetResultPartsMessage self ⟨self, req.2⟩ (servers req.1)).1
  if (repliesTo self out).length < req.2.length then .error .blocked
  else .ok (receiveParts buf req.2 (repliesTo self out))

/-- `dv_get_part`, when every process answers from the state it is in. -/
def dvGetPart (self : Int) (servers : Int → ActorServer) (dv : VectorDistribution)
    (offset size : Nat) (buf : Bytes) : Except Fault Bytes := do
  let reqs := partRequests self dv offset size
  let buf ← reqs.localReads.foldlM (readLocal (servers self).dataStore) buf
  reqs.reqs.foldlM (readRemote self servers) buf

end ActiveBsp.MPIActorCommunicator
