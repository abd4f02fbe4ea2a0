import ActiveBsp.Worker.ActorWorker
import Mathlib.Logic.Relation

/-!
# Stopping an actor

The management thread of a process stops its actor by a join with the worker
thread, and takes no message meanwhile. At the head the worker may have calls
left, whose results it registers with its own manager, or the rest of the
constructor. The worker of a slave sends its manager a `StopActor` when the head
tells it to end. The manager may be told to stop before, on its own or by the
`StopActor` of an earlier actor of the process, whose role may have been another.
-/
namespace ActiveBsp.Shutdown

open Library ActorWorker

set_option autoImplicit false

variable {Obj : Type}

/-- Where the worker is in `slave_loop` and `destroyActor`; the first function that it executes is
the constructor. -/
inductive SlaveWorker where
  | receivingId
  | executing
  | sendingStop
  | syncing
  | finished
  deriving DecidableEq, Repr

inductive SlaveManager where
  | idle
  | joining
  /-- `_actorWorkerProxy` is null. -/
  | stopped
  deriving DecidableEq, Repr

/-- `stops`: so many `StopActor` messages of workers are on their way to the manager. -/
structure Slave where
  manager : SlaveManager
  worker : SlaveWorker
  stops : Nat
  deriving DecidableEq, Repr

inductive SlaveInput where
  /-- The broadcast of the head reaches `receiveSPMDFunctionId`. -/
  | functionId (id : Nat)
  /-- A function of the object sends its own manager a message. -/
  | message
  | functionReturned
  /-- `destroyMasterObject`. -/
  | sendStop
  /-- The worker of an earlier actor of the process does the same. -/
  | earlierStop
  | synced
  /-- The manager takes a `StopActor`. -/
  | stopActor
  /-- The manager takes `INSTRUCTION_STOP`, and cleans up. -/
  | stopProcess
  | joined
  deriving DecidableEq, Repr

inductive SlaveEvent where
  | message
  | stopActor
  deriving DecidableEq, Repr

def slaveStep : SlaveInput → Act Slave SlaveEvent Fault Unit
  | .functionId id => fun s =>
    match s.worker with
    | .receivingId =>
      ([], .ok ((), { s with worker := if id = 0 then .sendingStop else .executing }))
    | _ => ([], .error .blocked)
  | .message => fun s =>
    match s.worker with
    | .executing => ([.message], .ok ((), s))
    | _ => ([], .error .blocked)
  | .functionReturned => fun s =>
    match s.worker with
    | .executing => ([], .ok ((), { s with worker := .receivingId }))
    | _ => ([], .error .blocked)
  | .sendStop => fun s =>
    match s.worker with
    | .sendingStop => ([.stopActor], .ok ((), { s with worker := .syncing, stops := s.stops + 1 }))
    | _ => ([], .error .blocked)
  | .earlierStop => fun s => ([], .ok ((), { s with stops := s.stops + 1 }))
  | .synced => fun s =>
    match s.worker with
    | .syncing => ([], .ok ((), { s with worker := .finished }))
    | _ => ([], .error .blocked)
  | .stopActor => fun s =>
    match s.stops, s.manager with
    | 0, _ => ([], .error .blocked)
    | stops + 1, .idle => ([], .ok ((), { s with manager := .joining, stops := stops }))
    | _, .stopped => ([], .error .undefined)
    | _, .joining => ([], .error .blocked)
  | .stopProcess => fun s =>
    match s.manager with
    | .idle => ([], .ok ((), { s with manager := .joining }))
    | _ => ([], .error .blocked)
  | .joined => fun s =>
    match s.manager, s.worker with
    | .joining, .finished => ([], .ok ((), { s with manager := .stopped }))
    | _, _ => ([], .error .blocked)

inductive Process (Obj : Type) where
  | head (s : Head Obj)
  | slave (s : Slave)

/-- The manager takes messages. -/
def Process.Receives : Process Obj → Prop
  | .head s => s.manager = .idle ∨ s.manager = .stopped
  | .slave s => s.manager = .idle ∨ s.manager = .stopped

instance : (p : Process Obj) → Decidable p.Receives
  | .head _ | .slave _ => inferInstanceAs (Decidable (_ ∨ _))

/-- At the head `INSTRUCTION_STOP` is a `stopActor` that nobody waits for, and the `StopActor` of an
earlier actor is one too. -/
inductive Input (Obj : Type) where
  | head (input : ActorWorker.Input)
  | slave (input : SlaveInput)
  /-- The manager creates an actor that the process leads, with the keys that it has by then. -/
  | createHead (keys : Keys) (constructor : Program Obj)
  /-- The manager creates an actor that another process leads; so many `StopActor` messages of
  earlier actors are on their way. -/
  | createSlave (stops : Nat)

def createdHead (keys : Keys) (constructor : Program Obj) : Process Obj :=
  .head ⟨keys, [], .idle, .running none constructor⟩

def createdSlave (stops : Nat) : Process Obj := .slave ⟨.idle, .executing, stops⟩

/-- `handleCreateActorMessage`: the new proxy replaces the one that may be there. -/
def create (new : Process Obj) : Act (Process Obj) (ActorWorker.Event ⊕ SlaveEvent) Fault Unit :=
  fun p => if p.Receives then ([], .ok ((), new)) else ([], .error .blocked)

def step (functions : Functions Obj) :
    Input Obj → Act (Process Obj) (ActorWorker.Event ⊕ SlaveEvent) Fault Unit
  | .head input => fun
    | .head s =>
      match ActorWorker.step functions input s with
      | (out, .error e) => (out.map .inl, .error e)
      | (out, .ok (_, s')) => (out.map .inl, .ok ((), .head s'))
    | .slave _ => ([], .error .blocked)
  | .slave input => fun
    | .head _ => ([], .error .blocked)
    | .slave s =>
      match slaveStep input s with
      | (out, .error e) => (out.map .inr, .error e)
      | (out, .ok (_, s')) => (out.map .inr, .ok ((), .slave s'))
  | .createHead keys constructor => create (createdHead keys constructor)
  | .createSlave stops => create (createdSlave stops)

/-- The process when the first of its actors has just been created. -/
inductive Started : Process Obj → Prop where
  | head (keys : Keys) (constructor : Program Obj) : Started (createdHead keys constructor)
  | slave (stops : Nat) : Started (createdSlave stops)

/-- The program may still send the manager of its own process a message. -/
def MaySend : Program Obj → Prop
  | .done .. | .throw => False
  | .storeResult .. => True
  | .learn own next => own = true ∨ ∃ learnt, MaySend (next learnt)

/-- The next request in the queue is a call. -/
def CallQueued : List ActiveObjectRequest → Prop
  | [] => False
  | req :: _ => req.sender ≠ -1

/-- The worker of a head has a call to report, or in the constructor something else to send, before
it can see a request to stop. -/
def headOwes (s : Head Obj) : Prop :=
  match s.worker with
  | .looping _ => CallQueued s.messages
  | .handling req _ => req.sender ≠ -1
  | .running none program => MaySend program ∨ CallQueued s.messages
  | .finished _ => False
  | _ => True

/-- The worker of a slave has not told its manager to stop. -/
def slaveOwes (s : Slave) : Prop :=
  match s.worker with
  | .syncing | .finished => False
  | _ => True

namespace Process

/-- The worker still has to send a message to the manager of its own process. -/
def Owes : Process Obj → Prop
  | head s => headOwes s
  | slave s => slaveOwes s

def Joins : Process Obj → Prop
  | head s => ∃ src askAnswer, s.manager = .joining src askAnswer
  | slave s => s.manager = .joining

def Wedged (p : Process Obj) : Prop := p.Joins ∧ p.Owes

theorem not_joins_of_receives {p : Process Obj} (h : p.Receives) : ¬ p.Joins := by
  cases p with
  | head s =>
    rintro ⟨src, ask, hj⟩
    rcases h with h | h <;> cases h.symm.trans hj
  | slave s =>
    intro hj
    rcases h with h | h <;> cases h.symm.trans hj

end Process

open Process

/-- The manager of a head posts its request to stop when the worker has nothing left to send, and the
manager of a slave takes a `StopActor` or `INSTRUCTION_STOP` when its worker has sent its own. -/
def StopsQuiet (p : Process Obj) (input : Input Obj) : Prop :=
  match input, p with
  | .head .manager, .head s =>
    ∀ src askAnswer, s.manager = .postingStop src askAnswer → ¬ headOwes s
  | .slave .stopActor, .slave s => s.stops ≠ 0 → s.manager = .idle → ¬ slaveOwes s
  | .slave .stopProcess, .slave s => s.manager = .idle → ¬ slaveOwes s
  | _, _ => True

variable {functions : Functions Obj} {p p' : Process Obj} {s s' : Head Obj}
  {out : List ActorWorker.Event}

theorem callQueued_append {messages : List ActiveObjectRequest} (h : CallQueued messages) :
    CallQueued (messages ++ [stopRequest]) := by
  cases messages with
  | nil => exact h.elim
  | cons req rest => exact h

theorem callQueued_of_append {messages : List ActiveObjectRequest}
    (h : CallQueued (messages ++ [stopRequest])) : CallQueued messages := by
  cases messages with
  | nil => exact absurd rfl h
  | cons req rest => exact h

/-- The request to stop adds nothing to what the worker owes. -/
theorem headOwes_postStop {keys : Keys} {messages : List ActiveObjectRequest} {worker : Worker Obj}
    {src : Nat} {ask : Bool} :
    headOwes ⟨keys, messages ++ [stopRequest], .joining src ask, worker⟩ ↔
      headOwes ⟨keys, messages, .postingStop src ask, worker⟩ := by
  have hcall : CallQueued (messages ++ [stopRequest]) ↔ CallQueued messages :=
    ⟨callQueued_of_append, callQueued_append⟩
  cases worker with
  | looping obj => exact hcall
  | running task program =>
    cases task with
    | none => exact or_congr_right hcall
    | some req => exact Iff.rfl
  | _ => exact Iff.rfl

/-- The worker comes to owe nothing new by what it does itself. -/
theorem headOwes_of_turn {learnt : Bytes} (h : Turn functions (.worker learnt) s out s')
    (ho : headOwes s') : headOwes s ∧ s'.manager = s.manager := by
  cases h with
  | pop => exact ⟨ho, rfl⟩
  | seeStop => exact ho.elim
  | start hreq => exact ⟨hreq, rfl⟩
  | startUnknown hreq => exact ⟨hreq, rfl⟩
  | constructed => exact ⟨.inr ho, rfl⟩
  | finish => exact ⟨trivial, rfl⟩
  | @storeResult _ _ _ task =>
    cases task with
    | none => exact ⟨.inl trivial, rfl⟩
    | some req => exact ⟨trivial, rfl⟩
  | @learn _ _ _ task =>
    cases task with
    | none => exact ⟨ho.imp_left fun hsend => .inr ⟨learnt, hsend⟩, rfl⟩
    | some req => exact ⟨trivial, rfl⟩
  | workerPhase => exact ⟨trivial, rfl⟩
  | workerKey => exact ⟨trivial, rfl⟩
  | store => exact ⟨trivial, rfl⟩
  | report => exact ⟨trivial, rfl⟩

/-- The manager of a head comes to wait for a worker with a call by posting behind the call. -/
theorem head_wedged {input : ActorWorker.Input} (h : Turn functions input s out s')
    (hw : (Process.head s').Wedged) : (Process.head s).Wedged ∨
      input = .manager ∧ ∃ src ask, s.manager = .postingStop src ask ∧ headOwes s := by
  obtain ⟨⟨src, ask, hjoin⟩, ho⟩ := hw
  have hworker : ∀ learnt, input = .worker learnt → (Process.head s).Wedged := by
    rintro learnt rfl
    obtain ⟨howes, hmanager⟩ := headOwes_of_turn h ho
    exact ⟨⟨src, ask, hmanager ▸ hjoin⟩, howes⟩
  cases h with
  | callActor => cases hjoin
  | prefetch => cases hjoin
  | stopActor => cases hjoin
  | managerPhase => cases hjoin
  | callKey => cases hjoin
  | prefetchKey => cases hjoin
  | post => cases hjoin
  | respond => cases hjoin
  | joinAnswer => cases hjoin
  | join => cases hjoin
  | @postStop keys messages worker src' ask' =>
    exact .inr ⟨rfl, src', ask', rfl, headOwes_postStop.mp ho⟩
  | _ => exact .inl (hworker _ rfl)

theorem head_step_inv {input : ActorWorker.Input} {events : List (ActorWorker.Event ⊕ SlaveEvent)}
    (h : step functions (.head input) p = (events, .ok ((), p'))) :
    ∃ s out s', p = .head s ∧ ActorWorker.step functions input s = (out, .ok ((), s')) ∧
      p' = .head s' := by
  cases p with
  | slave s => cases h
  | head s =>
    unfold step at h
    rcases hs : ActorWorker.step functions input s with ⟨out, e | ⟨u, s'⟩⟩
    · simp only [hs] at h
      cases h
    · simp only [hs] at h
      cases h
      exact ⟨s, out, s', rfl, hs, rfl⟩

theorem slave_step_inv {input : SlaveInput} {events : List (ActorWorker.Event ⊕ SlaveEvent)}
    (h : step functions (.slave input) p = (events, .ok ((), p'))) :
    ∃ s out s', p = .slave s ∧ slaveStep input s = (out, .ok ((), s')) ∧ p' = .slave s' := by
  cases p with
  | head s => cases h
  | slave s =>
    unfold step at h
    rcases hs : slaveStep input s with ⟨out, e | ⟨u, s'⟩⟩
    · simp only [hs] at h
      cases h
    · simp only [hs] at h
      cases h
      exact ⟨s, out, s', rfl, hs, rfl⟩

theorem create_inv {new : Process Obj} {events : List (ActorWorker.Event ⊕ SlaveEvent)}
    (h : create new p = (events, .ok ((), p'))) : p.Receives ∧ p' = new := by
  unfold create at h
  split at h
  · cases h
    exact ⟨‹_›, rfl⟩
  · cases h

/-- What a step of a slave leaves of what its worker owes and its manager waits for. -/
theorem slaveStep_spec {input : SlaveInput} {s s' : Slave} {out : List SlaveEvent}
    (h : slaveStep input s = (out, .ok ((), s'))) :
    (slaveOwes s' → slaveOwes s) ∧ (s'.manager = .joining → s.manager = .joining ∨
      s.manager = .idle ∧ (input = .stopProcess ∨ input = .stopActor ∧ s.stops ≠ 0)) := by
  obtain ⟨manager, worker, stops⟩ := s
  cases input with
  | functionId id =>
    cases worker <;> cases h
    exact ⟨fun _ => trivial, .inl⟩
  | message =>
    cases worker <;> cases h
    exact ⟨id, .inl⟩
  | functionReturned =>
    cases worker <;> cases h
    exact ⟨fun _ => trivial, .inl⟩
  | sendStop =>
    cases worker <;> cases h
    exact ⟨fun ho => ho.elim, .inl⟩
  | earlierStop =>
    cases h
    exact ⟨id, .inl⟩
  | synced =>
    cases worker <;> cases h
    exact ⟨fun ho => ho.elim, .inl⟩
  | stopActor =>
    cases stops with
    | zero => cases h
    | succ stops =>
      cases manager <;> cases h
      exact ⟨id, fun _ => .inr ⟨rfl, .inr ⟨rfl, Nat.succ_ne_zero stops⟩⟩⟩
  | stopProcess =>
    cases manager <;> cases h
    exact ⟨id, fun _ => .inr ⟨rfl, .inl rfl⟩⟩
  | joined =>
    cases manager <;> cases worker <;> cases h
    exact ⟨id, fun hj => by cases hj⟩

theorem started_not_wedged (h : Started p) : ¬ p.Wedged := by
  cases h with
  | head keys constructor =>
    have hr : (createdHead keys constructor).Receives := Or.inl rfl
    exact fun hw => not_joins_of_receives hr hw.1
  | slave stops =>
    have hr : (createdSlave stops : Process Obj).Receives := Or.inl rfl
    exact fun hw => not_joins_of_receives hr hw.1

variable {input : Input Obj} {events : List (ActorWorker.Event ⊕ SlaveEvent)}

/-- A step that ends in a wedged process is a stop that was not quiet. -/
theorem step_not_wedged (hp : ¬ p.Wedged) (hq : StopsQuiet p input)
    (h : step functions input p = (events, .ok ((), p'))) : ¬ p'.Wedged := by
  intro hw
  cases input with
  | head input =>
    obtain ⟨s, out, s', rfl, hs, rfl⟩ := head_step_inv h
    rcases head_wedged (step_cases hs) hw with hbefore | ⟨rfl, src, ask, hpost, ho⟩
    · exact hp hbefore
    · exact hq src ask hpost ho
  | slave input =>
    obtain ⟨s, out, s', rfl, hs, rfl⟩ := slave_step_inv h
    obtain ⟨howes, hjoin⟩ := slaveStep_spec hs
    have ho : slaveOwes s := howes hw.2
    rcases hjoin hw.1 with hbefore | ⟨hidle, rfl | ⟨rfl, hstops⟩⟩
    · exact hp ⟨hbefore, ho⟩
    · exact hq hidle ho
    · exact hq hstops hidle ho
  | createHead keys constructor =>
    obtain ⟨-, rfl⟩ := create_inv h
    exact started_not_wedged (.head keys constructor) hw
  | createSlave stops =>
    obtain ⟨-, rfl⟩ := create_inv h
    exact started_not_wedged (.slave stops) hw

/-- A stop that is not quiet wedges the process. -/
theorem stopsQuiet_of_not_wedged
    (hy : Act.Yields (step functions input) (fun p => ¬ p.Wedged) p) : StopsQuiet p input := by
  cases input with
  | head input =>
    cases p with
    | slave s => cases input <;> trivial
    | head s =>
      cases input with
      | manager =>
        intro src ask hpost ho
        obtain ⟨keys, messages, manager, worker⟩ := s
        obtain rfl : manager = .postingStop src ask := hpost
        exact hy _ _ rfl ⟨⟨src, ask, rfl⟩, headOwes_postStop.mpr ho⟩
      | _ => trivial
  | slave input =>
    cases p with
    | head s => cases input <;> trivial
    | slave s =>
      obtain ⟨manager, worker, stops⟩ := s
      cases input with
      | stopActor =>
        intro hstops hidle ho
        obtain rfl : manager = .idle := hidle
        cases stops with
        | zero => exact hstops rfl
        | succ stops => exact hy _ _ rfl ⟨rfl, ho⟩
      | stopProcess =>
        intro hidle ho
        obtain rfl : manager = .idle := hidle
        exact hy _ _ rfl ⟨rfl, ho⟩
      | _ => trivial
  | createHead keys constructor => trivial
  | createSlave stops => trivial

/-- In every run of a process, over all its actors and in either role, the manager never joins a
worker that still has to send to it, exactly when it only stops with no call left at the head, and
at a slave when the worker has told it and will not send any more. -/
theorem never_wedged_iff {inputs : List (Input Obj)} (hp : Started p) :
    Act.Along (step functions)
        (fun p input => Act.Yields (step functions input) (fun p => ¬ p.Wedged) p) inputs p ↔
      Act.Along (step functions) StopsQuiet inputs p :=
  Act.Along.congr (fun _ _ _ _ (_ : ¬ Process.Wedged _) _ hy h => hy _ _ h)
    (fun _ _ hp _ => ⟨stopsQuiet_of_not_wedged, fun hq _ _ h => step_not_wedged hp hq h⟩)
    (started_not_wedged hp) (Act.Along.of_forall (fun _ _ => trivial) inputs p)

/-- The input lets the worker send its own manager a message. -/
def Sends (p : Process Obj) (input : Input Obj) : Prop :=
  match input, p with
  | .head (.worker _), .head s =>
    match s.worker with
    | .storing .. | .reporting .. => True
    | .running _ (.learn own _) => own = true
    | _ => False
  | .slave .message, .slave _ | .slave .sendStop, .slave _ => True
  | _, _ => False

/-- A step when `MPI_Send` returns only once the manager receives. -/
def BlockingStep (functions : Functions Obj) (p p' : Process Obj) : Prop :=
  ∃ input events, (Sends p input → p.Receives) ∧
    step functions input p = (events, .ok ((), p'))

/-- The worker is in the constructor, which what it learns may keep from sending anything. -/
def Process.Constructs : Process Obj → Prop
  | .head s => ∃ program, s.worker = .running none program
  | .slave _ => False

private theorem head_stays_wedged {input : ActorWorker.Input} (hw : (Process.head s).Wedged)
    (hc : ¬ (Process.head s).Constructs) (hsend : ¬ Sends (.head s) (.head input))
    (h : Turn functions input s out s') :
    (Process.head s').Wedged ∧ ¬ (Process.head s').Constructs := by
  obtain ⟨⟨src, ask, hjoin⟩, ho⟩ := hw
  cases h with
  | callActor => cases hjoin
  | prefetch => cases hjoin
  | stopActor => cases hjoin
  | managerPhase => cases hjoin
  | callKey => cases hjoin
  | prefetchKey => cases hjoin
  | post => cases hjoin
  | respond => cases hjoin
  | postStop => cases hjoin
  | joinAnswer => exact ho.elim
  | join => exact ho.elim
  | pop => exact ⟨⟨⟨src, ask, hjoin⟩, ho⟩, fun ⟨_, hworker⟩ => by cases hworker⟩
  | seeStop hreq => exact absurd hreq ho
  | store => exact absurd trivial hsend
  | report => exact absurd trivial hsend
  | constructed => exact absurd ⟨_, rfl⟩ hc
  | @learn _ _ _ task =>
    cases task with
    | none => exact absurd ⟨_, rfl⟩ hc
    | some req => exact ⟨⟨⟨src, ask, hjoin⟩, trivial⟩, fun ⟨_, hworker⟩ => by cases hworker⟩
  | _ => exact ⟨⟨⟨src, ask, hjoin⟩, trivial⟩, fun ⟨_, hworker⟩ => by cases hworker⟩

private theorem slave_stays_wedged {input : SlaveInput} {s s' : Slave} {out : List SlaveEvent}
    (hw : (Process.slave s : Process Obj).Wedged)
    (hsend : ¬ Sends (.slave s : Process Obj) (.slave input))
    (h : slaveStep input s = (out, .ok ((), s'))) : (Process.slave s' : Process Obj).Wedged := by
  obtain ⟨manager, worker, stops⟩ := s
  obtain ⟨hjoin, ho⟩ := hw
  obtain rfl : manager = .joining := hjoin
  cases input with
  | functionId id =>
    cases worker <;> cases h
    by_cases hid : id = 0
    · rw [if_pos hid]
      exact ⟨rfl, trivial⟩
    · rw [if_neg hid]
      exact ⟨rfl, trivial⟩
  | message => exact absurd trivial hsend
  | functionReturned =>
    cases worker <;> cases h
    exact ⟨rfl, trivial⟩
  | sendStop => exact absurd trivial hsend
  | earlierStop =>
    cases h
    exact ⟨rfl, ho⟩
  | synced =>
    cases worker <;> cases h
    exact ho.elim
  | stopActor => cases stops <;> cases h
  | stopProcess => cases h
  | joined =>
    cases worker <;> cases h
    exact ho.elim

/-- When a send waits for its receiver, a process that is wedged behind the constructor stays so
whatever happens. -/
theorem wedged_forever (hw : p.Wedged) (hc : ¬ p.Constructs)
    (h : Relation.ReflTransGen (BlockingStep functions) p p') : p'.Wedged := by
  suffices hboth : p'.Wedged ∧ ¬ p'.Constructs from hboth.1
  induction h with
  | refl => exact ⟨hw, hc⟩
  | @tail p' p'' _ hstep ih =>
    obtain ⟨input, events, hsend, h⟩ := hstep
    have hnot : ¬ p'.Receives := fun hr => not_joins_of_receives hr ih.1.1
    cases input with
    | head input =>
      obtain ⟨s, out, s', rfl, hs, rfl⟩ := head_step_inv h
      exact head_stays_wedged ih.1 ih.2 (fun hsends => hnot (hsend hsends)) (step_cases hs)
    | slave input =>
      obtain ⟨s, out, s', rfl, hs, rfl⟩ := slave_step_inv h
      exact ⟨slave_stays_wedged ih.1 (fun hsends => hnot (hsend hsends)) hs, fun hc => hc⟩
    | createHead keys constructor => exact absurd (create_inv h).1 hnot
    | createSlave stops => exact absurd (create_inv h).1 hnot

def noFunctions : Functions Unit := fun _ => none

/-- A head whose constructor sends nothing. -/
def sampleHead : Process Unit := createdHead ⟨[{}], some 0⟩ (.done [] ())

theorem sampleHead_started : Started sampleHead := .head _ _

/-- Client 0 calls a method, and the actor is destroyed before the worker has taken the call. -/
def destroyedEarly : List (Input Unit) :=
  .head (.worker []) :: .head (.callActor 0 ⟨"f", [], 0⟩) :: List.replicate 5 (.head .manager) ++
    [.head (.stopActor 0 true)]

/-- The manager of the head joins with the call still in the queue; that of a slave does when the
program ends with an actor alive, and when the `StopActor` of an earlier actor is still on its
way. -/
theorem wedged_sample :
    (¬ Act.Along (step noFunctions) (fun p input =>
        Act.Yields (step noFunctions input) (fun p => ¬ p.Wedged) p)
        (destroyedEarly ++ [.head .manager]) sampleHead) ∧
      (¬ Act.Along (step noFunctions) (fun p input =>
        Act.Yields (step noFunctions input) (fun p => ¬ p.Wedged) p) [.slave .stopProcess]
        (createdSlave 0)) ∧
      ¬ Act.Along (step noFunctions) (fun p input =>
        Act.Yields (step noFunctions input) (fun p => ¬ p.Wedged) p) [.slave .stopActor]
        (createdSlave 1) := by
  refine ⟨fun h => ?_, fun h => ?_, fun h => ?_⟩
  · exact h.last rfl _ _ rfl ⟨⟨0, true, rfl⟩, show (0 : Int) ≠ -1 by decide⟩
  · exact h.1 _ _ rfl ⟨rfl, trivial⟩
  · exact h.1 _ _ rfl ⟨rfl, trivial⟩

/-- An actor that is destroyed without calls, in a process that is a slave afterwards. -/
theorem never_wedged_sample :
    Act.Along (step noFunctions) (fun p input =>
        Act.Yields (step noFunctions input) (fun p => ¬ p.Wedged) p)
        [.head (.worker []), .head (.stopActor 0 true), .head .manager, .head (.worker []),
          .head (.worker []), .head .manager, .createSlave 0] sampleHead ↔
      Act.Along (step noFunctions) StopsQuiet
        [.head (.worker []), .head (.stopActor 0 true), .head .manager, .head (.worker []),
          .head (.worker []), .head .manager, .createSlave 0] sampleHead :=
  never_wedged_iff sampleHead_started

end ActiveBsp.Shutdown
