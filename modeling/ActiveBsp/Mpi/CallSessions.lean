import ActiveBsp.Management.FutureReads
import ActiveBsp.Management.PieceDelivery
import ActiveBsp.Worker.RequestIds
import ActiveBsp.Worker.SequentialObject

/-!
# Clients that call actors and read their futures

Many clients call the methods of several actors and hold the futures of their
calls. They copy them, pass them on, read and release them. A process that runs
an actor has two threads: the manager, which takes the messages, and the worker,
which sends its results to the manager of its own process.
-/
namespace ActiveBsp

open Library

set_option autoImplicit false

/-- A future in the memory of a client: what it has read, and where it reads. -/
structure FutureBase where
  data : Option Bytes := none
  /-- `_pid` and `_key` of the `LazyFutureDataRetriever`. -/
  dataRetriever : Option (Int × Int) := none
  deriving DecidableEq, Repr

namespace FutureBase

def resetData (future : FutureBase) : FutureBase := { future with data := none }

def save (future : FutureBase) : Option (Int × Int) := future.dataRetriever

def load (dataRetriever : Option (Int × Int)) (future : FutureBase) : FutureBase :=
  { future with dataRetriever := dataRetriever }

end FutureBase

inductive CallerPhase where
  | idle
  /-- In `active_call`, for the key of the future. -/
  | calling (var : Nat) (head : Int) (f : String) (args : Bytes)
  /-- In `getFutureData`. -/
  | getting (var : Nat) (pid key : Int)
  deriving DecidableEq, Repr

def CallerPhase.Gets (pid key : Int) : CallerPhase → Prop
  | .getting _ pid' key' => pid' = pid ∧ key' = key
  | _ => False

instance (pid key : Int) : DecidablePred (CallerPhase.Gets pid key)
  | .idle => .isFalse id
  | .calling .. => .isFalse id
  | .getting _ pid' key' => inferInstanceAs (Decidable (pid' = pid ∧ key' = key))

inductive CallEvent where
  | called (client head : Int) (f : String) (args : Bytes) (key : Int)
  | got (client : Int) (dataRetriever : Option (Int × Int)) (data : Bytes)
  deriving DecidableEq, Repr

structure CallSessions (Obj : Type) where
  servers : Int → ActorServer
  queues : Int → List ActiveObjectRequest := fun _ => []
  workers : Int → ActorWorker.Worker Obj
  /-- The messages under way from a worker to the manager of its process. -/
  own : Int → List ActorMessage := fun _ => []
  mail : Int → Int → List ActorMessage := fun _ _ => []
  codes : Int → Int → List Int := fun _ _ => []
  data : Int → Int → List Bytes := fun _ _ => []
  phase : Int → CallerPhase := fun _ => .idle
  vars : Int → Nat → FutureBase := fun _ _ => {}
  /-- The futures that have been released, as a record. -/
  released : List (Int × Int) := []

namespace CallSessions

inductive Move where
  /-- `active_call`, up to `receiveResponseCode`. -/
  | call (client : Int) (var : Nat) (head : Int) (f : String) (args : Bytes)
  /-- The rest of it. -/
  | respond (client : Int)
  /-- `get`; it ends here if the future has its data. -/
  | get (client : Int) (var : Nat)
  /-- The rest of it. -/
  | retrieve (client : Int)
  | copy (client : Int) (dst src : Nat)
  | resetData (client : Int) (var : Nat)
  | release (client : Int) (var : Nat)
  /-- One client serializes the future, another one makes a future of it. -/
  | share (client : Int) (var : Nat) (client' : Int) (var' : Nat)
  | handle (client pid : Int)
  | handleOwn (pid : Int)
  | work (pid : Int) (learnt : Bytes)
  deriving DecidableEq, Repr

variable {Obj : Type}

/-- The two threads of a process, when the manager is at no call. -/
def head (net : CallSessions Obj) (pid : Int) : ActorWorker.Head Obj :=
  ⟨⟨[(net.servers pid).futureKeyManager], some 0⟩, net.queues pid, .idle, net.workers pid⟩

def post (net : CallSessions Obj) (client pid : Int) (msg : ActorMessage) : CallSessions Obj :=
  { net with
    mail := Function.update net.mail client
      (Function.update (net.mail client) pid (net.mail client pid ++ [msg])) }

def turn (net : CallSessions Obj) (client : Int) (phase : CallerPhase) : CallSessions Obj :=
  { net with phase := Function.update net.phase client phase }

def assign (net : CallSessions Obj) (client : Int) (var : Nat) (future : FutureBase) :
    CallSessions Obj :=
  { net with vars := Function.update net.vars client (Function.update (net.vars client) var future) }

def request : Output → Option ActiveObjectRequest
  | .callActor req => some req
  | _ => none

def codeTo (client : Int) : Output → Option Int
  | .responseCode dst code => if dst = client then some code else none
  | _ => none

def dataTo (client : Int) : Output → Option Bytes
  | .futureData dst data => if dst = client then some data else none
  | _ => none

def handled (net : CallSessions Obj) (pid : Int) (out : List Output) (s : ActorServer) :
    CallSessions Obj :=
  { net with
    servers := Function.update net.servers pid s
    queues := Function.update net.queues pid (net.queues pid ++ out.filterMap request)
    codes := fun q client => net.codes q client ++ if q = pid then out.filterMap (codeTo client) else []
    data := fun q client => net.data q client ++ if q = pid then out.filterMap (dataTo client) else [] }

def toManager : ActorWorker.Event → Option ActorMessage
  | .registerFuture key data => some (.registerFutureData key data)
  | .storeResult msg => some (.storeResult msg)
  | _ => none

def worked (net : CallSessions Obj) (pid : Int) (events : List ActorWorker.Event)
    (s : ActorWorker.Head Obj) : CallSessions Obj :=
  { net with
    servers := Function.update net.servers pid
      { net.servers pid with futureKeyManager := s.keys.allocated.headD {} }
    queues := Function.update net.queues pid s.messages
    workers := Function.update net.workers pid s.worker
    own := Function.update net.own pid (net.own pid ++ events.filterMap toManager) }

def step (codec : Codec) (functions : Int → ActorWorker.Functions Obj) :
    Move → Act (CallSessions Obj) CallEvent Fault Unit
  | .call c var head f args => fun net =>
    match net.phase c with
    | .idle => ([], .ok ((), (net.post c head (.callActor (RequestIds.activeCall f args))).turn c
        (.calling var head f args)))
    | _ => ([], .error .blocked)
  | .respond c => fun net =>
    match net.phase c with
    | .calling var head f args =>
      match net.codes head c with
      | [] => ([], .error .blocked)
      | key :: rest =>
        ([.called c head f args key], .ok ((), { (net.assign c var ⟨none, some (head, key)⟩).turn c
          .idle with
          codes := Function.update net.codes head (Function.update (net.codes head) c rest) }))
    | _ => ([], .error .blocked)
  | .get c var => fun net =>
    match net.phase c with
    | .idle =>
      match (net.vars c var).data, (net.vars c var).dataRetriever with
      | some data, dataRetriever => ([.got c dataRetriever data], .ok ((), net))
      | none, some (pid, key) =>
        ([], .ok ((), (net.post c pid (.getFutureData key)).turn c (.getting var pid key)))
      | none, none => ([], .error .undefined)
    | _ => ([], .error .blocked)
  | .retrieve c => fun net =>
    match net.phase c with
    | .getting var pid _ =>
      match net.data pid c with
      | [] => ([], .error .blocked)
      | data :: rest =>
        ([.got c (net.vars c var).dataRetriever data], .ok ((), {
          (net.assign c var { net.vars c var with data := some data }).turn c .idle with
          data := Function.update net.data pid (Function.update (net.data pid) c rest) }))
    | _ => ([], .error .blocked)
  | .copy c dst src => fun net =>
    match net.phase c with
    | .idle => ([], .ok ((), net.assign c dst (net.vars c src)))
    | _ => ([], .error .blocked)
  | .resetData c var => fun net =>
    match net.phase c with
    | .idle => ([], .ok ((), net.assign c var (net.vars c var).resetData))
    | _ => ([], .error .blocked)
  | .release c var => fun net =>
    match net.phase c with
    | .idle =>
      match (net.vars c var).dataRetriever with
      | some (pid, key) =>
        ([], .ok ((), { net.post c pid (.releaseFuture key) with
          released := net.released ++ [(pid, key)] }))
      | none => ([], .error .undefined)
    | _ => ([], .error .blocked)
  | .share c var c' var' => fun net =>
    match net.phase c, net.phase c' with
    | .idle, .idle => ([], .ok ((), net.assign c' var' (.load (net.vars c var).save {})))
    | _, _ => ([], .error .blocked)
  | .handle c pid => fun net =>
    match net.mail c pid with
    | [] => ([], .error .blocked)
    | msg :: rest =>
      match ActorServer.step codec (.message c msg) (net.servers pid) with
      | (_, .error e) => ([], .error e)
      | (out, .ok (_, s)) =>
        ([], .ok ((), { net.handled pid out s with
          mail := Function.update net.mail c (Function.update (net.mail c) pid rest) }))
  | .handleOwn pid => fun net =>
    match net.own pid with
    | [] => ([], .error .blocked)
    | msg :: rest =>
      match ActorServer.step codec (.message pid msg) (net.servers pid) with
      | (_, .error e) => ([], .error e)
      | (out, .ok (_, s)) =>
        ([], .ok ((), { net.handled pid out s with own := Function.update net.own pid rest }))
  | .work pid learnt => fun net =>
    match ActorWorker.workerTurn (functions pid) learnt (net.head pid) with
    | (_, .error e) => ([], .error e)
    | (events, .ok (_, s)) => ([], .ok ((), net.worked pid events s))

/-- A move that is made, with what it shows and where it leads. -/
inductive Stepped (codec : Codec) (functions : Int → ActorWorker.Functions Obj)
    (net : CallSessions Obj) : Move → List CallEvent → CallSessions Obj → Prop
  | call {c var head f args} (hphase : net.phase c = .idle) :
      Stepped codec functions net (.call c var head f args) []
        ((net.post c head (.callActor (RequestIds.activeCall f args))).turn c
          (.calling var head f args))
  | respond {c var head f args key rest} (hphase : net.phase c = .calling var head f args)
      (hcodes : net.codes head c = key :: rest) :
      Stepped codec functions net (.respond c) [.called c head f args key]
        { (net.assign c var ⟨none, some (head, key)⟩).turn c .idle with
          codes := Function.update net.codes head (Function.update (net.codes head) c rest) }
  | got {c var data} (hphase : net.phase c = .idle) (hdata : (net.vars c var).data = some data) :
      Stepped codec functions net (.get c var) [.got c (net.vars c var).dataRetriever data] net
  | get {c var pid key} (hphase : net.phase c = .idle) (hdata : (net.vars c var).data = none)
      (hkey : (net.vars c var).dataRetriever = some (pid, key)) :
      Stepped codec functions net (.get c var) []
        ((net.post c pid (.getFutureData key)).turn c (.getting var pid key))
  | retrieve {c var pid key data rest} (hphase : net.phase c = .getting var pid key)
      (hdata : net.data pid c = data :: rest) :
      Stepped codec functions net (.retrieve c) [.got c (net.vars c var).dataRetriever data]
        { (net.assign c var { net.vars c var with data := some data }).turn c .idle with
          data := Function.update net.data pid (Function.update (net.data pid) c rest) }
  | copy {c dst src} (hphase : net.phase c = .idle) :
      Stepped codec functions net (.copy c dst src) [] (net.assign c dst (net.vars c src))
  | resetData {c var} (hphase : net.phase c = .idle) :
      Stepped codec functions net (.resetData c var) [] (net.assign c var (net.vars c var).resetData)
  | release {c var pid key} (hphase : net.phase c = .idle)
      (hkey : (net.vars c var).dataRetriever = some (pid, key)) :
      Stepped codec functions net (.release c var) []
        { net.post c pid (.releaseFuture key) with released := net.released ++ [(pid, key)] }
  | share {c var c' var'} (hphase : net.phase c = .idle) (hphase' : net.phase c' = .idle) :
      Stepped codec functions net (.share c var c' var') []
        (net.assign c' var' (.load (net.vars c var).save {}))
  | handle {c pid msg rest out s} (hmail : net.mail c pid = msg :: rest)
      (hs : ActorServer.step codec (.message c msg) (net.servers pid) = (out, .ok ((), s))) :
      Stepped codec functions net (.handle c pid) []
        { net.handled pid out s with
          mail := Function.update net.mail c (Function.update (net.mail c) pid rest) }
  | handleOwn {pid msg rest out s} (hown : net.own pid = msg :: rest)
      (hs : ActorServer.step codec (.message pid msg) (net.servers pid) = (out, .ok ((), s))) :
      Stepped codec functions net (.handleOwn pid) []
        { net.handled pid out s with own := Function.update net.own pid rest }
  | work {pid learnt events s}
      (hs : ActorWorker.workerTurn (functions pid) learnt (net.head pid) = (events, .ok ((), s))) :
      Stepped codec functions net (.work pid learnt) [] (net.worked pid events s)

theorem step_inversion {codec : Codec} {functions : Int → ActorWorker.Functions Obj}
    {net net' : CallSessions Obj} {move : Move} {out : List CallEvent}
    (h : step codec functions move net = (out, .ok ((), net'))) :
    Stepped codec functions net move out net' := by
  cases move with
  | call c var head f args =>
    simp only [step] at h
    split at h
    · rename_i hphase
      cases h
      exact .call hphase
    · cases h
  | respond c =>
    simp only [step] at h
    split at h
    · rename_i hphase
      split at h
      · cases h
      · rename_i hcodes
        cases h
        exact .respond hphase hcodes
    · cases h
  | get c var =>
    simp only [step] at h
    split at h
    · rename_i hphase
      split at h
      · rename_i hdata
        cases h
        exact .got hphase hdata
      · rename_i hdata hkey
        cases h
        exact .get hphase hdata hkey
      · cases h
    · cases h
  | retrieve c =>
    simp only [step] at h
    split at h
    · rename_i hphase
      split at h
      · cases h
      · rename_i hdata
        cases h
        exact .retrieve hphase hdata
    · cases h
  | copy c dst src =>
    simp only [step] at h
    split at h
    · rename_i hphase
      cases h
      exact .copy hphase
    · cases h
  | resetData c var =>
    simp only [step] at h
    split at h
    · rename_i hphase
      cases h
      exact .resetData hphase
    · cases h
  | release c var =>
    simp only [step] at h
    split at h
    · rename_i hphase
      split at h
      · rename_i hkey
        cases h
        exact .release hphase hkey
      · cases h
    · cases h
  | share c var c' var' =>
    simp only [step] at h
    split at h
    · rename_i hphase hphase'
      cases h
      exact .share hphase hphase'
    · cases h
  | handle c pid =>
    simp only [step] at h
    split at h
    · cases h
    · rename_i hmail
      split at h
      · cases h
      · rename_i hs
        cases h
        exact .handle hmail hs
  | handleOwn pid =>
    simp only [step] at h
    split at h
    · cases h
    · rename_i hown
      split at h
      · cases h
      · rename_i hs
        cases h
        exact .handleOwn hown hs
  | work pid learnt =>
    simp only [step] at h
    split at h
    · cases h
    · rename_i hs
      cases h
      exact .work hs

end CallSessions

/-- The actors when their workers enter `master_loop`, and the clients. -/
structure CallCluster (Obj : Type) where
  servers : Int → ActorServer
  functions : Int → ActorWorker.Functions Obj
  objects : Int → Obj
  heads : List Int
  clients : List Int
  fresh : ∀ q, FutureReads.FreshFutures (servers q)
  free : ∀ q, (servers q).resultStoreLock = false
  unasked : ∀ q key, (servers q).parked key = []
  proxy : ∀ head ∈ heads, (servers head).actorWorkerProxy = true
  next_nonneg : ∀ q, 0 ≤ (servers q).futureKeyManager.next
  next_lt : ∀ q, (servers q).futureKeyManager.next < 2 ^ 31
  /-- Nothing is stored under the keys to come. -/
  unused : ∀ q, ∃ t, (servers q).dataStore.Represents t ∧
    ∀ key, (servers q).futureKeyManager.next ≤ key → t key = none

namespace CallCluster

open CallSessions

variable {Obj : Type} (st : CallCluster Obj)

def start : CallSessions Obj where
  servers := st.servers
  workers q := .looping (st.objects q)

/-- The future that the variable holds. -/
def Holds (net : CallSessions Obj) (c : Int) (var : Nat) (P : Int → Int → Prop) : Prop :=
  match (net.vars c var).dataRetriever with
  | none => False
  | some (pid, key) => P pid key

instance (net : CallSessions Obj) (c : Int) (var : Nat) (P : Int → Int → Prop)
    [∀ pid key, Decidable (P pid key)] : Decidable (Holds net c var P) := by
  unfold Holds
  split <;> infer_instance

/-- Actors that exist are called; what is read is a future that has its data or has not been
released; what is released is a future that has not been released and that nobody is reading; and
there are keys left. -/
def Proper (net : CallSessions Obj) : Move → Prop
  | .call c _ head _ _ => 0 ≤ c ∧ head ∈ st.heads
  | .get c var => c ∈ st.clients ∧ ((net.vars c var).data = none →
      Holds net c var fun pid key => (pid, key) ∉ net.released)
  | .release c var => Holds net c var fun pid key =>
      (pid, key) ∉ net.released ∧ ∀ c' ∈ st.clients, ¬ (net.phase c').Gets pid key
  | .handle _ pid | .work pid _ => (net.servers pid).futureKeyManager.next + 1 < 2 ^ 31
  | _ => True

instance (net : CallSessions Obj) (move : Move) : Decidable (st.Proper net move) := by
  unfold Proper
  cases move <;> infer_instance

end CallCluster

end ActiveBsp
