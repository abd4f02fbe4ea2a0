import ActiveBsp.Mpi.VectorVault
import ActiveBsp.Management.KeyReuse

/-!
# Clients that distribute, read and give back vectors

Many clients use the managers of several actors at a time. A client runs no
manager of its own. The messages of one client to one process arrive in order,
and so do the replies of one process to one client; nothing else is ordered.
A message has fewer than 2^31 bytes, and MPI reads those of `dv_release`, whose
memory is freed at once, before anything else is written there.
-/
namespace ActiveBsp

open Library Library.Buffer Library.Tiling MPIActorCommunicator

set_option autoImplicit false

/-- A distribution that a client keeps, and, as a record, the vector that it distributed. -/
structure Handle where
  dv : VectorDistribution
  content : Bytes
  deriving DecidableEq, Repr

inductive ClientPhase where
  | idle
  /-- In `block_distribute`, for the distribution. -/
  | distributing (head : Int) (v : Bytes) (msg : DistributeVectorMessage)
  /-- In `dv_get_part`, for the parts. -/
  | reading (handle : Handle) (offset size : Nat) (buf : Bytes)
  deriving DecidableEq, Repr

structure VectorSessions where
  servers : Int → ActorServer
  mail : Int → Int → List ActorMessage := fun _ _ => []
  vectors : Int → Int → List VectorDistribution := fun _ _ => []
  parts : Int → Int → List Bytes := fun _ _ => []
  phase : Int → ClientPhase := fun _ => .idle
  handles : Int → List Handle := fun _ => []

structure VectorRead where
  client : Int
  handle : Handle
  offset : Nat
  size : Nat
  bytes : Bytes
  deriving DecidableEq, Repr

namespace VectorSessions

inductive Move where
  /-- `block_distribute`, up to `receiveDistrVector`. -/
  | distribute (client head : Int) (v : Bytes) (msg : DistributeVectorMessage)
  /-- The rest of it. -/
  | store (client : Int)
  /-- `dv_get_part`, up to `waitAll`. -/
  | read (client : Int) (handle : Handle) (offset size : Nat) (buf : Bytes)
  /-- The rest of it. -/
  | receive (client : Int)
  /-- `dv_release`, and the messages that MPI reads from the memory that it has freed. -/
  | release (client : Int) (handle : Handle) (read : List (Int × ActorMessage))
  | deliver (client pid : Int)
  deriving DecidableEq, Repr

def messagesTo (pid : Int) (msgs : List (Int × ActorMessage)) : List ActorMessage :=
  msgs.filterMap fun m => if m.1 = pid then some m.2 else none

def vectorTo (client : Int) : Output → Option VectorDistribution
  | .distrVector dst dv => if dst = client then some dv else none
  | _ => none

def requestsTo (pid : Int) (reqs : List (Int × List ResultReqPart)) : List ResultReqPart :=
  (reqs.filter fun e => e.1 = pid).flatMap Prod.snd

def post (net : VectorSessions) (client : Int) (msgs : List (Int × ActorMessage))
    (phase : ClientPhase) (handles : List Handle) : VectorSessions :=
  { net with
    mail := Function.update net.mail client fun pid => net.mail client pid ++ messagesTo pid msgs
    phase := Function.update net.phase client phase
    handles := Function.update net.handles client handles }

def received (net : VectorSessions) (client : Int) (reqs : List (Int × List ResultReqPart))
    (buf : Bytes) : Bytes :=
  reqs.foldl (fun buf e => receiveParts buf e.2 ((net.parts e.1 client).take e.2.length)) buf

def step (codec : Codec) : Move → Act VectorSessions VectorRead Fault Unit
  | .distribute c head v msg => fun net =>
    match net.phase c with
    | .idle => ([], .ok ((), net.post c [(head, .distributeVector msg)]
        (.distributing head v msg) (net.handles c)))
    | _ => ([], .error .blocked)
  | .store c => fun net =>
    match net.phase c with
    | .distributing head v _ =>
      match net.vectors head c with
      | [] => ([], .error .blocked)
      | dv :: rest =>
        ([], .ok ((), { net.post c (storeMessages v dv) .idle (net.handles c ++ [⟨dv, v⟩]) with
          vectors := Function.update net.vectors head
            (Function.update (net.vectors head) c rest) }))
    | _ => ([], .error .blocked)
  | .read c handle offset size buf => fun net =>
    match net.phase c with
    | .idle =>
      let reqs := partRequests c handle.dv offset size
      -- there is no data store beside the client
      if reqs.localReads = [] then
        ([], .ok ((), net.post c (requestMessages c reqs) (.reading handle offset size buf)
          (net.handles c)))
      else ([], .error .undefined)
    | _ => ([], .error .blocked)
  | .receive c => fun net =>
    match net.phase c with
    | .reading handle offset size buf =>
      let reqs := (partRequests c handle.dv offset size).reqs
      if ∀ e ∈ reqs, e.2.length ≤ (net.parts e.1 c).length then
        ([⟨c, handle, offset, size, net.received c reqs buf⟩], .ok ((),
          { net.post c [] .idle (net.handles c) with
            parts := fun pid client =>
              if client = c then (net.parts pid c).drop (requestsTo pid reqs).length
              else net.parts pid client }))
      else ([], .error .blocked)
    | _ => ([], .error .blocked)
  | .release c handle read => fun net =>
    match net.phase c with
    | .idle => ([], .ok ((), net.post c read .idle ((net.handles c).erase handle)))
    | _ => ([], .error .blocked)
  | .deliver c pid => fun net =>
    match net.mail c pid with
    | [] => ([], .error .blocked)
    | msg :: rest =>
      match ActorServer.step codec (.message c msg) (net.servers pid) with
      | (_, .error e) => ([], .error e)
      | (out, .ok (_, s)) =>
        ([], .ok ((), { net with
          servers := Function.update net.servers pid s
          mail := Function.update net.mail c (Function.update (net.mail c) pid rest)
          vectors := fun head client => net.vectors head client ++
            if head = pid then out.filterMap (vectorTo client) else []
          parts := fun q client => net.parts q client ++
            if q = pid then repliesTo client out else [] }))

/-- The actors, before any client has done anything. -/
structure Cluster where
  servers : Int → ActorServer
  tables : Int → PartTable
  heads : List Int
  ready : ∀ q, ActorServer.Ready (servers q)
  unasked : ∀ q key, (servers q).parked key = []
  represented : ∀ q, (servers q).dataStore.Represents (tables q)
  nonempty : ∀ head ∈ heads, (servers head).pids ≠ []
  /-- The head can build its distributions. -/
  few : ∀ head ∈ heads, 8 + 24 * (servers head).pids.length < 2 ^ 31
  nodup : ∀ head ∈ heads, (servers head).pids.Nodup
  /-- No process runs two actors. -/
  apart : ∀ head ∈ heads, ∀ head' ∈ heads, ∀ q ∈ (servers head).pids, q ∈ (servers head').pids →
    head = head'
  /-- The keys that the head gives next are new. -/
  fresh : ∀ head ∈ heads, ∀ q ∈ (servers head).pids, ∀ key ≤
    (servers head).nextResultStoreLocalKey, tables q key = none
  small : ∀ head ∈ heads, (servers head).nextResultStoreLocalKey < 2 ^ 31

namespace Cluster

variable (st : Cluster)

def start : VectorSessions := { servers := st.servers }

def Outside (c : Int) : Prop := ∀ head ∈ st.heads, c ∉ (st.servers head).pids

instance (c : Int) : Decidable (st.Outside c) := inferInstanceAs (Decidable (∀ _ ∈ _, _))

/-- A vector of whole elements that fits a `StoreResult` message goes to an actor that exists;
what is read is a range of a vector that the client has not given back, and fits the buffer; what
MPI reads of `dv_release` is what was written; and the head has keys left. -/
def Proper (net : VectorSessions) : Move → Prop
  | .distribute c head v msg => st.Outside c ∧ head ∈ st.heads ∧
      v.length = msg.n * msg.elemSize ∧ 28 + v.length < 2 ^ 31
  | .read c handle offset size buf => handle ∈ net.handles c ∧
      offset + size ≤ handle.content.length ∧ buf.length = size
  | .release c handle read => handle ∈ net.handles c ∧ read = dvRelease handle.dv
  | .deliver _ pid => -2 ^ 31 ≤ (net.servers pid).nextResultStoreLocalKey -
      (st.servers pid).pids.length
  | _ => True

instance (net : VectorSessions) (move : Move) : Decidable (st.Proper net move) := by
  unfold Proper
  cases move <;> infer_instance

end Cluster

def Keeps (handles : List Handle) (q key : Int) (data : Bytes) : Prop :=
  ∃ handle ∈ handles, ∃ part ∈ handle.dv.parts, part.pid = q ∧ part.resid = key ∧
    data = slice handle.content part.offset part.size

def names (handles : List Handle) : List (Int × Int) :=
  handles.flatMap fun handle => handle.dv.parts.map fun part => (part.pid, part.resid)

structure Usable (c : Int) (handle : Handle) : Prop where
  small : handle.content.length < 2 ^ 31
  tiles : Tiles handle.dv.spans handle.content.length
  apart : ∀ part ∈ handle.dv.parts, part.pid ≠ c

/-- What is known of a run beside its state: who owns a key, what a process keeps for a client,
what it would keep and what would have come back if no message were under way. -/
structure Books where
  owner : Int → Int → Option Int := fun _ _ => none
  vault : Int → Int → Vault := fun _ _ => .empty
  prompt : Int → Int → Vault := fun _ _ => .empty
  expected : Int → Int → List Bytes := fun _ _ => []

def distributions (msgs : List ActorMessage) : List DistributeVectorMessage :=
  msgs.filterMap fun
    | .distributeVector msg => some msg
    | _ => none

/-- No distribution is under way between the client and the process, in either direction. -/
def NoVector (net : VectorSessions) (c q : Int) : Prop :=
  distributions (net.mail c q) = [] ∧ net.vectors q c = []

/-- The distribution is a new one: its keys are the client's, and nothing is kept under them. -/
structure New (b : Books) (c : Int) (v : Bytes) (dv : VectorDistribution) : Prop where
  usable : Usable c ⟨dv, v⟩
  names : (names [⟨dv, v⟩]).Nodup
  owned : ∀ part ∈ dv.parts, b.owner part.pid part.resid = some c
  unused : ∀ part ∈ dv.parts, b.prompt c part.pid part.resid = none

/-- The head has the request, or has answered it. -/
def Awaits (net : VectorSessions) (b : Books) (c head : Int) (v : Bytes)
    (msg : DistributeVectorMessage) : Prop :=
  (distributions (net.mail c head) = [msg] ∧ net.vectors head c = []) ∨
    (distributions (net.mail c head) = [] ∧ ∃ dv, net.vectors head c = [dv] ∧ New b c v dv)

def Session (st : Cluster) (net : VectorSessions) (b : Books) (c : Int) : ClientPhase → Prop
  | .idle => (∀ q, NoVector net c q) ∧ ∀ q, b.expected q c = []
  | .distributing head v msg => (st.Outside c ∧ head ∈ st.heads ∧
      v.length = msg.n * msg.elemSize ∧ v.length < 2 ^ 31) ∧ Awaits net b c head v msg ∧
      (∀ q ≠ head, NoVector net c q) ∧ ∀ q, b.expected q c = []
  | .reading handle offset size buf => (handle ∈ net.handles c ∧
      offset + size ≤ handle.content.length ∧ buf.length = size) ∧ (∀ q, NoVector net c q) ∧
      ∀ q, (requestsTo q (partRequests c handle.dv offset size).reqs).mapM (b.prompt c q).read =
        some (b.expected q c)

/-- The books agree with the state. -/
structure Balanced (st : Cluster) (net : VectorSessions) (b : Books) : Prop where
  servers : ∀ q, Serves (st.tables q) (b.owner q) (fun c => b.vault c q) (st.servers q)
    (net.servers q)
  lags : ∀ c q, Lags (serve c) (b.vault c q) (net.mail c q) (net.parts q c) (b.prompt c q)
    (b.expected q c)
  vault_owned : ∀ c q key data, b.vault c q key = some data → b.owner q key = some c
  prompt_owned : ∀ c q key data, b.prompt c q key = some data → b.owner q key = some c
  mail_owned : ∀ c q msg, .storeResult msg ∈ net.mail c q → b.owner q msg.resId = some c
  /-- No part that was there before has a key of a client. -/
  unheld : ∀ q key c, b.owner q key = some c → st.tables q key = none
  owner_new : ∀ head ∈ st.heads, ∀ q ∈ (st.servers head).pids, ∀ key c,
    b.owner q key = some c → (net.servers head).nextResultStoreLocalKey < key
  next_le : ∀ head ∈ st.heads, (net.servers head).nextResultStoreLocalKey ≤
    (st.servers head).nextResultStoreLocalKey
  kept : ∀ c q key data, b.prompt c q key = some data ↔ Keeps (net.handles c) q key data
  names : ∀ c, (names (net.handles c)).Nodup
  usable : ∀ c, ∀ handle ∈ net.handles c, Usable c handle
  session : ∀ c, Session st net b c (net.phase c)

end VectorSessions

end ActiveBsp
