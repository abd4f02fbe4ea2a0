import ActiveBsp.Actormsg.Messages
import ActiveBsp.Fault
import ActiveBsp.Future.FutureKeyManager
import ActiveBsp.Library.Act
import ActiveBsp.Management.ActorServer

/-!
# The two threads of an actor's head

The management thread chooses a key for a call, posts the call into the queue
and answers the caller; the worker thread constructs the object, takes the calls
out, runs them and registers their results. Calls may come before the object is
there. One input is one step of one of the two threads, and a step takes at most
one mutex.
-/
namespace ActiveBsp.ActorWorker

open Library

set_option autoImplicit false

/-- What a method of the actor, or the constructor of its object, does: it returns its serialized
result and the object, stores a part of a result, learns something that depends on the rest of the
system, or throws. To learn it may have to send the manager of its `own` process a message. -/
inductive Program (Obj : Type) where
  | done (serial : Bytes) (obj : Obj)
  | storeResult (buf : Bytes) (next : Int → Program Obj)
  | learn (own : Bool) (next : Bytes → Program Obj)
  | throw

/-- `_functions`. A method sees the request id that `master_loop` sets, which is the field of the
message and not the key of the future. -/
abbrev Functions (Obj : Type) : Type := String → Option (Int → Bytes → Obj → Program Obj)

/-- `_instance`, which nothing locks, and the managers that were allocated. -/
structure Keys where
  allocated : List FutureKeyManager
  instance? : Option Nat
  deriving DecidableEq, Repr

/-- Where a thread is in `FutureKeyManager::getInstance()->takeKey()`. -/
inductive KeyPhase where
  | reading
  | creating
  | returning
  | taking (pointer : Nat)
  deriving DecidableEq, Repr

/-- One step there: where the thread is next, or the key. -/
def keyTurn (keys : Keys) : KeyPhase → Option ((KeyPhase ⊕ Int) × Keys)
  | .reading => some (.inl (if keys.instance? = none then .creating else .returning), keys)
  | .creating => some (.inl .returning, ⟨keys.allocated ++ [{}], some keys.allocated.length⟩)
  | .returning => keys.instance?.map fun pointer => (.inl (.taking pointer), keys)
  | .taking pointer => keys.allocated[pointer]?.map fun manager =>
      (.inr manager.takeKey.1, { keys with
        allocated := keys.allocated.set pointer manager.takeKey.2 })

/-- What the management thread takes a key for. -/
inductive Errand where
  | call (src : Nat) (msg : CallActorMessage)
  /-- The future or the part of a `Prefetch` message. -/
  | prefetch
  deriving DecidableEq, Repr

inductive Manager where
  | idle
  | takingKey (phase : KeyPhase) (errand : Errand)
  | posting (req : ActiveObjectRequest)
  | responding (req : ActiveObjectRequest)
  | postingStop (src : Nat) (askAnswer : Bool)
  | joining (src : Nat) (askAnswer : Bool)
  | stopped
  deriving DecidableEq, Repr

/-- The worker runs the constructor for no request, and a method for the request that calls it. -/
inductive Worker (Obj : Type) where
  | looping (obj : Obj)
  | handling (req : ActiveObjectRequest) (obj : Obj)
  | running (task : Option ActiveObjectRequest) (program : Program Obj)
  | takingKey (phase : KeyPhase) (task : Option ActiveObjectRequest) (buf : Bytes)
      (next : Int → Program Obj)
  | storing (task : Option ActiveObjectRequest) (key : Int) (buf : Bytes) (program : Program Obj)
  | reporting (req : ActiveObjectRequest) (serial : Bytes) (obj : Obj)
  | finished (obj : Obj)

/-- What the two threads share, and where they are. -/
structure Head (Obj : Type) where
  keys : Keys
  messages : List ActiveObjectRequest
  manager : Manager
  worker : Worker Obj

inductive Purpose where
  | call
  | prefetch
  | part
  deriving DecidableEq, Repr

/-- What is observed of the threads: the keys they take, the messages they send, and what the
worker does with the requests. -/
inductive Event where
  | keyTaken (purpose : Purpose) (key : Int)
  | accepted (req : ActiveObjectRequest)
  | response (dst : Int) (key : Int)
  | stopRequested
  | stopResponse (dst : Int)
  | started (req : ActiveObjectRequest)
  | storeResult (msg : StoreResultMessage)
  | returned (req : ActiveObjectRequest) (serial : Bytes)
  | registerFuture (key : Int) (data : Bytes)
  | sawStop
  deriving DecidableEq, Repr

inductive Input where
  /-- A message reaches the management thread. -/
  | callActor (src : Nat) (msg : CallActorMessage)
  | prefetch
  | stopActor (src : Nat) (askAnswer : Bool)
  /-- The management thread goes on. -/
  | manager
  /-- The worker thread goes on, and learns what it may learn there. -/
  | worker (learnt : Bytes)
  deriving DecidableEq, Repr

abbrev Step (Obj : Type) : Type := Act (Head Obj) Event Fault Unit

variable {Obj : Type}

/-- The request that `stopActor` posts; its message carries nothing. -/
def stopRequest : ActiveObjectRequest := ⟨⟨"", [], -1⟩, -1, 0⟩

/-- `{'e','r','r','o','r'}`, for a name without a method. -/
def errorSerial : Bytes := [101, 114, 114, 111, 114]

/-- Where the management thread goes with the key it took. -/
def Errand.withKey (key : Int) : Errand → Manager
  | .call src msg => .posting ⟨msg, src, key⟩
  | .prefetch => .idle

def Errand.purpose : Errand → Purpose
  | .call _ _ => .call
  | .prefetch => .prefetch

/-- The management thread takes a message from the communicator. -/
def receive (next : Manager) : Step Obj := fun s =>
  match s.manager with
  | .idle => ([], .ok ((), { s with manager := next }))
  -- `_actorWorkerProxy` is null after `stopActor`
  | .stopped => ([], .error .undefined)
  | _ => ([], .error .blocked)

/-- `pthread_join` returned, and `handleStopActorMessage` ends. -/
def joined (src : Nat) (askAnswer : Bool) : Step Obj := fun s =>
  (if askAnswer then [.stopResponse src] else [], .ok ((), { s with manager := .stopped }))

/-- The management thread in `handleCallActorMessage` and `handleStopActorMessage`. -/
def managerTurn : Step Obj := fun s =>
  match s.manager with
  | .idle | .stopped => ([], .error .blocked)
  | .takingKey phase errand =>
    match keyTurn s.keys phase with
    | none => ([], .error .undefined)
    | some (.inl phase', keys) =>
      ([], .ok ((), { s with keys := keys, manager := .takingKey phase' errand }))
    | some (.inr key, keys) =>
      ([.keyTaken errand.purpose key],
        .ok ((), { s with keys := keys, manager := errand.withKey key }))
  | .posting req =>
    ([.accepted req],
      .ok ((), { s with messages := s.messages ++ [req], manager := .responding req }))
  | .responding req => ([.response req.sender req.localkey], .ok ((), { s with manager := .idle }))
  | .postingStop src askAnswer =>
    ([.stopRequested],
      .ok ((), { s with messages := s.messages ++ [stopRequest], manager := .joining src askAnswer }))
  | .joining src askAnswer =>
    match s.worker with
    | .finished _ => joined src askAnswer s
    | _ => ([], .error .blocked)

/-- The worker thread in the constructor, in `master_loop` and in the methods that it calls. -/
def workerTurn (functions : Functions Obj) (learnt : Bytes) : Step Obj := fun s =>
  match s.worker with
  | .looping obj =>
    match s.messages with
    -- `pthread_cond_wait`
    | [] => ([], .error .blocked)
    | req :: rest => ([], .ok ((), { s with messages := rest, worker := .handling req obj }))
  | .handling req obj =>
    if req.sender = -1 then ([.sawStop], .ok ((), { s with worker := .finished obj })) else
      match functions req.callActorMessage.functionName with
      | some method =>
        ([.started req], .ok ((), { s with
          worker := .running (some req)
            (method req.callActorMessage.futureKey req.callActorMessage.args obj) }))
      | none =>
        ([.started req, .returned req errorSerial],
          .ok ((), { s with worker := .reporting req errorSerial obj }))
  | .running none (.done _ obj) => ([], .ok ((), { s with worker := .looping obj }))
  | .running (some req) (.done serial obj) =>
    ([.returned req serial], .ok ((), { s with worker := .reporting req serial obj }))
  | .running task (.storeResult buf next) =>
    ([], .ok ((), { s with worker := .takingKey .reading task buf next }))
  | .running task (.learn _ next) =>
    ([], .ok ((), { s with worker := .running task (next learnt) }))
  | .running _ .throw => ([], .error .exception)
  | .takingKey phase task buf next =>
    match keyTurn s.keys phase with
    | none => ([], .error .undefined)
    | some (.inl phase', keys) =>
      ([], .ok ((), { s with keys := keys, worker := .takingKey phase' task buf next }))
    | some (.inr key, keys) =>
      ([.keyTaken .part key],
        .ok ((), { s with keys := keys, worker := .storing task key buf (next key) }))
  | .storing task key buf program =>
    ([.storeResult ⟨key, buf⟩], .ok ((), { s with worker := .running task program }))
  | .reporting req serial obj =>
    ([.registerFuture req.localkey serial], .ok ((), { s with worker := .looping obj }))
  | .finished _ => ([], .error .blocked)

def step (functions : Functions Obj) : Input → Step Obj
  | .callActor src msg => receive (.takingKey .reading (.call src msg))
  | .prefetch => receive (.takingKey .reading .prefetch)
  | .stopActor src askAnswer => receive (.postingStop src askAnswer)
  | .manager => managerTurn
  | .worker learnt => workerTurn functions learnt

/-- The steps that end in a state, thread by thread. -/
inductive Turn (functions : Functions Obj) :
    Input → Head Obj → List Event → Head Obj → Prop where
  | callActor {keys messages worker src msg} :
      Turn functions (.callActor src msg) ⟨keys, messages, .idle, worker⟩ []
        ⟨keys, messages, .takingKey .reading (.call src msg), worker⟩
  | prefetch {keys messages worker} :
      Turn functions .prefetch ⟨keys, messages, .idle, worker⟩ []
        ⟨keys, messages, .takingKey .reading .prefetch, worker⟩
  | stopActor {keys messages worker src ask} :
      Turn functions (.stopActor src ask) ⟨keys, messages, .idle, worker⟩ []
        ⟨keys, messages, .postingStop src ask, worker⟩
  | managerPhase {keys messages worker phase errand phase' keys'}
      (h : keyTurn keys phase = some (.inl phase', keys')) :
      Turn functions .manager ⟨keys, messages, .takingKey phase errand, worker⟩ []
        ⟨keys', messages, .takingKey phase' errand, worker⟩
  | callKey {keys messages worker phase src msg key keys'}
      (h : keyTurn keys phase = some (.inr key, keys')) :
      Turn functions .manager ⟨keys, messages, .takingKey phase (.call src msg), worker⟩
        [.keyTaken .call key] ⟨keys', messages, .posting ⟨msg, src, key⟩, worker⟩
  | prefetchKey {keys messages worker phase key keys'}
      (h : keyTurn keys phase = some (.inr key, keys')) :
      Turn functions .manager ⟨keys, messages, .takingKey phase .prefetch, worker⟩
        [.keyTaken .prefetch key] ⟨keys', messages, .idle, worker⟩
  | post {keys messages worker req} :
      Turn functions .manager ⟨keys, messages, .posting req, worker⟩ [.accepted req]
        ⟨keys, messages ++ [req], .responding req, worker⟩
  | respond {keys messages worker req} :
      Turn functions .manager ⟨keys, messages, .responding req, worker⟩
        [.response req.sender req.localkey] ⟨keys, messages, .idle, worker⟩
  | postStop {keys messages worker src ask} :
      Turn functions .manager ⟨keys, messages, .postingStop src ask, worker⟩ [.stopRequested]
        ⟨keys, messages ++ [stopRequest], .joining src ask, worker⟩
  | joinAnswer {keys messages obj src} :
      Turn functions .manager ⟨keys, messages, .joining src true, .finished obj⟩
        [.stopResponse src] ⟨keys, messages, .stopped, .finished obj⟩
  | join {keys messages obj src} :
      Turn functions .manager ⟨keys, messages, .joining src false, .finished obj⟩ []
        ⟨keys, messages, .stopped, .finished obj⟩
  | pop {keys messages manager req obj learnt} :
      Turn functions (.worker learnt) ⟨keys, req :: messages, manager, .looping obj⟩ []
        ⟨keys, messages, manager, .handling req obj⟩
  | seeStop {keys messages manager req obj learnt} (h : req.sender = -1) :
      Turn functions (.worker learnt) ⟨keys, messages, manager, .handling req obj⟩ [.sawStop]
        ⟨keys, messages, manager, .finished obj⟩
  | start {keys messages manager req obj learnt} {method : Int → Bytes → Obj → Program Obj}
      (h : req.sender ≠ -1)
      (hf : functions req.callActorMessage.functionName = some method) :
      Turn functions (.worker learnt) ⟨keys, messages, manager, .handling req obj⟩ [.started req]
        ⟨keys, messages, manager,
          .running (some req)
            (method req.callActorMessage.futureKey req.callActorMessage.args obj)⟩
  | startUnknown {keys messages manager req obj learnt} (h : req.sender ≠ -1)
      (hf : functions req.callActorMessage.functionName = none) :
      Turn functions (.worker learnt) ⟨keys, messages, manager, .handling req obj⟩
        [.started req, .returned req errorSerial]
        ⟨keys, messages, manager, .reporting req errorSerial obj⟩
  | constructed {keys messages manager serial obj learnt} :
      Turn functions (.worker learnt) ⟨keys, messages, manager, .running none (.done serial obj)⟩
        [] ⟨keys, messages, manager, .looping obj⟩
  | finish {keys messages manager req serial obj learnt} :
      Turn functions (.worker learnt)
        ⟨keys, messages, manager, .running (some req) (.done serial obj)⟩
        [.returned req serial] ⟨keys, messages, manager, .reporting req serial obj⟩
  | storeResult {keys messages manager task buf next learnt} :
      Turn functions (.worker learnt)
        ⟨keys, messages, manager, .running task (.storeResult buf next)⟩
        [] ⟨keys, messages, manager, .takingKey .reading task buf next⟩
  | learn {keys messages manager task own next learnt} :
      Turn functions (.worker learnt) ⟨keys, messages, manager, .running task (.learn own next)⟩
        [] ⟨keys, messages, manager, .running task (next learnt)⟩
  | workerPhase {keys messages manager phase task buf next phase' keys' learnt}
      (h : keyTurn keys phase = some (.inl phase', keys')) :
      Turn functions (.worker learnt) ⟨keys, messages, manager, .takingKey phase task buf next⟩ []
        ⟨keys', messages, manager, .takingKey phase' task buf next⟩
  | workerKey {keys messages manager phase task buf next key keys' learnt}
      (h : keyTurn keys phase = some (.inr key, keys')) :
      Turn functions (.worker learnt) ⟨keys, messages, manager, .takingKey phase task buf next⟩
        [.keyTaken .part key] ⟨keys', messages, manager, .storing task key buf (next key)⟩
  | store {keys messages manager task key buf program learnt} :
      Turn functions (.worker learnt) ⟨keys, messages, manager, .storing task key buf program⟩
        [.storeResult ⟨key, buf⟩] ⟨keys, messages, manager, .running task program⟩
  | report {keys messages manager req serial obj learnt} :
      Turn functions (.worker learnt) ⟨keys, messages, manager, .reporting req serial obj⟩
        [.registerFuture req.localkey serial] ⟨keys, messages, manager, .looping obj⟩

theorem receive_ok {next : Manager} {s s' : Head Obj} {out : List Event}
    (h : receive next s = (out, .ok ((), s'))) :
    s.manager = .idle ∧ out = [] ∧ s' = { s with manager := next } := by
  unfold receive at h
  split at h
  · cases h
    exact ⟨‹_›, rfl, rfl⟩
  · cases h
  · cases h

private theorem managerTurn_ok {functions : Functions Obj} {s s' : Head Obj} {out : List Event}
    (h : managerTurn s = (out, .ok ((), s'))) : Turn functions .manager s out s' := by
  obtain ⟨keys, messages, manager, worker⟩ := s
  cases manager with
  | idle => cases h
  | stopped => cases h
  | takingKey phase errand =>
    simp only [managerTurn] at h
    split at h
    · cases h
    · cases h
      exact .managerPhase ‹_›
    · cases h
      cases errand with
      | call src msg => exact .callKey ‹_›
      | prefetch => exact .prefetchKey ‹_›
  | posting req =>
    cases h
    exact .post
  | responding req =>
    cases h
    exact .respond
  | postingStop src ask =>
    cases h
    exact .postStop
  | joining src ask =>
    cases worker with
    | finished obj =>
      cases h
      cases ask with
      | true => exact .joinAnswer
      | false => exact .join
    | _ => cases h

private theorem running_ok {functions : Functions Obj} {keys : Keys}
    {messages : List ActiveObjectRequest} {manager : Manager} {task : Option ActiveObjectRequest}
    {program : Program Obj} {learnt : Bytes} {s' : Head Obj} {out : List Event}
    (h : workerTurn functions learnt ⟨keys, messages, manager, .running task program⟩ =
      (out, .ok ((), s'))) :
    Turn functions (.worker learnt) ⟨keys, messages, manager, .running task program⟩ out s' := by
  cases program with
  | done serial obj =>
    cases task with
    | none =>
      cases h
      exact .constructed
    | some req =>
      cases h
      exact .finish
  | storeResult buf next =>
    cases task <;> cases h <;> exact .storeResult
  | learn own next =>
    cases task <;> cases h <;> exact .learn
  | throw => cases task <;> cases h

private theorem workerTurn_ok {functions : Functions Obj} {learnt : Bytes} {s s' : Head Obj}
    {out : List Event} (h : workerTurn functions learnt s = (out, .ok ((), s'))) :
    Turn functions (.worker learnt) s out s' := by
  obtain ⟨keys, messages, manager, worker⟩ := s
  cases worker with
  | looping obj =>
    cases messages with
    | nil => cases h
    | cons req rest =>
      cases h
      exact .pop
  | handling req obj =>
    simp only [workerTurn] at h
    split at h
    · cases h
      exact .seeStop ‹_›
    · split at h
      · cases h
        exact .start ‹_› ‹_›
      · cases h
        exact .startUnknown ‹_› ‹_›
  | running task program => exact running_ok h
  | takingKey phase task buf next =>
    simp only [workerTurn] at h
    split at h
    · cases h
    · cases h
      exact .workerPhase ‹_›
    · cases h
      exact .workerKey ‹_›
  | storing task key buf program =>
    cases h
    exact .store
  | reporting req serial obj =>
    cases h
    exact .report
  | finished obj => cases h

theorem step_cases {functions : Functions Obj} {input : Input} {s s' : Head Obj}
    {out : List Event} (h : step functions input s = (out, .ok ((), s'))) :
    Turn functions input s out s' := by
  obtain ⟨keys, messages, manager, worker⟩ := s
  cases input with
  | callActor src msg =>
    obtain ⟨rfl, rfl, rfl⟩ := receive_ok h
    exact .callActor
  | prefetch =>
    obtain ⟨rfl, rfl, rfl⟩ := receive_ok h
    exact .prefetch
  | stopActor src ask =>
    obtain ⟨rfl, rfl, rfl⟩ := receive_ok h
    exact .stopActor
  | manager => exact managerTurn_ok h
  | worker learnt => exact workerTurn_ok h

/-- When the worker does nothing meanwhile, the management thread does in these steps what the
server's handler does in one. -/
theorem handleCallActorMessage_turns (functions : Functions Obj) (server : ActorServer)
    (hproxy : server.actorWorkerProxy = true) (messages : List ActiveObjectRequest)
    (worker : Worker Obj) (src : Nat) (msg : CallActorMessage) :
    ∃ req server' outs, ActorServer.handleCallActorMessage src msg server =
        ([.callActor req, .responseCode req.sender req.localkey], .ok ((), server')) ∧
      Act.trace (step functions) (.callActor src msg :: List.replicate 5 .manager)
          ⟨⟨[server.futureKeyManager], some 0⟩, messages, .idle, worker⟩ =
        (outs, .ok ⟨⟨[server'.futureKeyManager], some 0⟩, messages ++ [req], .idle, worker⟩) ∧
      outs.flatten =
        [.keyTaken .call req.localkey, .accepted req, .response req.sender req.localkey] := by
  refine ⟨⟨msg, src, server.futureKeyManager.takeKey.1⟩,
    { server with futureKeyManager := server.futureKeyManager.takeKey.2 }, _, ?_, rfl, rfl⟩
  have hpost (s : ActorServer) (hs : s.actorWorkerProxy = true) (req : ActiveObjectRequest) :
      (ActorServer.useActorWorkerProxy (.callActor req) >>= fun _ =>
        Act.emit (.responseCode req.sender req.localkey)) s =
      ([.callActor req, .responseCode req.sender req.localkey], .ok ((), s)) := by
    have hcall : ActorServer.useActorWorkerProxy (.callActor req) s =
        ([.callActor req], .ok ((), s)) := by
      simp only [ActorServer.useActorWorkerProxy, Act.get_bind, hs, if_true, Act.emit_apply]
    rw [Act.bind_of_ok hcall]
    rfl
  have hkey : ActorServer.takeKey server = ([], .ok (server.futureKeyManager.takeKey.1,
      { server with futureKeyManager := server.futureKeyManager.takeKey.2 })) := rfl
  rw [ActorServer.handleCallActorMessage, Act.bind_of_ok hkey]
  exact hpost { server with futureKeyManager := server.futureKeyManager.takeKey.2 } hproxy
    ⟨msg, src, server.futureKeyManager.takeKey.1⟩

end ActiveBsp.ActorWorker
