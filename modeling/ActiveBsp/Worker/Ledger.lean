import ActiveBsp.Library.Lists
import ActiveBsp.Worker.ActorWorker

/-!
# What a run of the two threads has done

The events of a run, read as ledgers: what was posted, seen, returned,
answered and registered. Each ledger and the one it is fed from differ by what
one of the threads holds at the moment.
-/
namespace ActiveBsp.ActorWorker

open Library
open Library.Lists

set_option autoImplicit false

variable {Obj : Type}

def accepted (events : List Event) : List ActiveObjectRequest :=
  events.filterMap fun
    | .accepted req => some req
    | _ => none

/-- What went into the queue. -/
def posted (events : List Event) : List ActiveObjectRequest :=
  events.filterMap fun
    | .accepted req => some req
    | .stopRequested => some stopRequest
    | _ => none

def started (events : List Event) : List ActiveObjectRequest :=
  events.filterMap fun
    | .started req => some req
    | _ => none

/-- What came out of the queue and was looked at. -/
def seen (events : List Event) : List ActiveObjectRequest :=
  events.filterMap fun
    | .started req => some req
    | .sawStop => some stopRequest
    | _ => none

def returned (events : List Event) : List (ActiveObjectRequest × Bytes) :=
  events.filterMap fun
    | .returned req serial => some (req, serial)
    | _ => none

def responses (events : List Event) : List (Int × Int) :=
  events.filterMap fun
    | .response dst key => some (dst, key)
    | _ => none

def registrations (events : List Event) : List (Int × Bytes) :=
  events.filterMap fun
    | .registerFuture key data => some (key, data)
    | _ => none

def storedKeys (events : List Event) : List Int :=
  events.filterMap fun
    | .storeResult msg => some msg.resId
    | _ => none

/-- Every key that was taken, with its purpose. -/
def keysTaken (events : List Event) : List (Purpose × Int) :=
  events.filterMap fun
    | .keyTaken purpose key => some (purpose, key)
    | _ => none

def keysFor (purpose : Purpose) (events : List Event) : List Int :=
  ((keysTaken events).filter fun taken => taken.1 = purpose).map Prod.snd

/-- The calls that reached the management thread, with their callers. -/
def calls (inputs : List Input) : List (Int × CallActorMessage) :=
  inputs.filterMap fun
    | .callActor src msg => some ((src : Int), msg)
    | _ => none

def Errand.incoming : Errand → List (Int × CallActorMessage)
  | .call src msg => [((src : Int), msg)]
  | .prefetch => []

def Manager.incoming : Manager → List (Int × CallActorMessage)
  | .takingKey _ errand => errand.incoming
  | .posting req => [(req.sender, req.callActorMessage)]
  | _ => []

def Manager.unposted : Manager → List Int
  | .posting req => [req.localkey]
  | _ => []

def Manager.unanswered : Manager → List (Int × Int)
  | .responding req => [(req.sender, req.localkey)]
  | _ => []

/-- What `stopActor` has put into the queue. -/
def Manager.stopPosted : Manager → List ActiveObjectRequest
  | .joining _ _ | .stopped => [stopRequest]
  | _ => []

def Worker.held : Worker Obj → List ActiveObjectRequest
  | .handling req _ => [req]
  | _ => []

def Worker.current : Worker Obj → List ActiveObjectRequest
  | .running task _ | .takingKey _ task _ _ | .storing task _ _ _ => task.toList
  | _ => []

def Worker.unregistered : Worker Obj → List (Int × Bytes)
  | .reporting req serial _ => [(req.localkey, serial)]
  | _ => []

def Worker.unstored : Worker Obj → List Int
  | .storing _ key _ _ => [key]
  | _ => []

def Worker.stopSeen : Worker Obj → List ActiveObjectRequest
  | .finished _ => [stopRequest]
  | _ => []

/-- The ledgers of a run that ended in `s`. -/
structure Balanced (inputs : List Input) (events : List Event) (s : Head Obj) : Prop where
  received : calls inputs =
    (accepted events).map (fun req => (req.sender, req.callActorMessage)) ++ s.manager.incoming
  keyed : keysFor .call events =
    (accepted events).map ActiveObjectRequest.localkey ++ s.manager.unposted
  answered : (accepted events).map (fun req => (req.sender, req.localkey)) =
    responses events ++ s.manager.unanswered
  stopLast : posted events = accepted events ++ s.manager.stopPosted
  queued : posted events = seen events ++ s.worker.held ++ s.messages
  seenLast : seen events = started events ++ s.worker.stopSeen
  running : started events = (returned events).map Prod.fst ++ s.worker.current
  registered : (returned events).map (fun done => (done.1.localkey, done.2)) =
    registrations events ++ s.worker.unregistered
  stored : keysFor .part events = storedKeys events ++ s.worker.unstored
  senders : ∀ req ∈ started events, req.sender ≠ -1

section Kept

variable {functions : Functions Obj} {inputs : List Input} {events out : List Event}
  {input : Input} {s s' : Head Obj}

private theorem keysFor_append (purpose : Purpose) :
    keysFor purpose (events ++ out) = keysFor purpose events ++ keysFor purpose out := by
  simp only [keysFor, keysTaken, List.filterMap_append, List.filter_append, List.map_append]

theorem Balanced.accepted_sender (hb : Balanced inputs events s) (req : ActiveObjectRequest)
    (hr : req ∈ accepted events) : req.sender ≠ -1 := by
  have hc : (req.sender, req.callActorMessage) ∈ calls inputs := by
    rw [hb.received]
    exact List.mem_append_left _ (List.mem_map_of_mem hr)
  obtain ⟨input, -, hi⟩ := List.mem_filterMap.mp hc
  cases input with
  | callActor src msg =>
    have hsrc : (src : Int) = req.sender := congrArg Prod.fst (Option.some.inj hi)
    omega
  | _ => cases hi

theorem Manager.eq_stopRequest {manager : Manager} {req : ActiveObjectRequest}
    (h : req ∈ manager.stopPosted) : req = stopRequest ∧ manager.stopPosted = [stopRequest] := by
  cases manager with
  | joining src ask => exact ⟨List.mem_singleton.mp h, rfl⟩
  | stopped => exact ⟨List.mem_singleton.mp h, rfl⟩
  | _ => cases h

/-- What the worker holds when it sees a request without a sender is what `stopActor` posted. -/
theorem Balanced.held_stop (hb : Balanced inputs events s) {req : ActiveObjectRequest} {obj : Obj}
    (hw : s.worker = .handling req obj) (hs : req.sender = -1) : req = stopRequest := by
  have hmem : req ∈ posted events := by
    rw [hb.queued, hw]
    simp [Worker.held]
  rw [hb.stopLast] at hmem
  rcases List.mem_append.mp hmem with hm | hm
  · exact absurd hs (hb.accepted_sender req hm)
  · exact (Manager.eq_stopRequest hm).1

/-- Each side of the books grows by what the step moved. -/
theorem Balanced.turn (hb : Balanced inputs events s) (ht : Turn functions input s out s') :
    Balanced (inputs ++ [input]) (events ++ out) s' where
  received := by
    have hlocal : s.manager.incoming ++ calls [input] = (accepted out).map
        (fun req => (req.sender, req.callActorMessage)) ++ s'.manager.incoming := by
      cases ht <;> first | rfl | exact List.append_nil _
    simp only [calls, accepted, List.filterMap_append, List.map_append]
    exact carry hb.received hlocal
  keyed := by
    have hlocal : s.manager.unposted ++ keysFor .call out =
        (accepted out).map ActiveObjectRequest.localkey ++ s'.manager.unposted := by
      cases ht <;> first | rfl | exact List.append_nil _
    rw [keysFor_append, accepted, List.filterMap_append, List.map_append]
    exact carry hb.keyed hlocal
  answered := by
    have hlocal : s.manager.unanswered ++ (accepted out).map (fun req => (req.sender, req.localkey)) =
        responses out ++ s'.manager.unanswered := by
      cases ht <;> first | rfl | exact List.append_nil _
    simp only [accepted, responses, List.filterMap_append, List.map_append]
    exact carry hb.answered hlocal
  stopLast := by
    have hlocal : s.manager.stopPosted ++ posted out = accepted out ++ s'.manager.stopPosted := by
      cases ht <;> first | rfl | exact List.append_nil _
    simp only [accepted, posted, List.filterMap_append]
    exact carry hb.stopLast hlocal
  queued := by
    have hlocal : (s.worker.held ++ s.messages) ++ posted out =
        seen out ++ (s'.worker.held ++ s'.messages) := by
      cases ht with
      | seeStop h =>
        rw [hb.held_stop rfl h]
        simp [posted, seen, Worker.held]
      | _ => simp [posted, seen, Worker.held]
    rw [posted, seen, List.filterMap_append, List.filterMap_append, List.append_assoc]
    exact carry (hb.queued.trans (List.append_assoc _ _ _)) hlocal
  seenLast := by
    have hlocal : s.worker.stopSeen ++ seen out = started out ++ s'.worker.stopSeen := by
      cases ht <;> first | rfl | exact List.append_nil _
    simp only [started, seen, List.filterMap_append]
    exact carry hb.seenLast hlocal
  running := by
    have hlocal : s.worker.current ++ started out =
        (returned out).map Prod.fst ++ s'.worker.current := by
      cases ht <;> first | rfl | exact List.append_nil _
    simp only [started, returned, List.filterMap_append, List.map_append]
    exact carry hb.running hlocal
  registered := by
    have hlocal : s.worker.unregistered ++
        (returned out).map (fun done => (done.1.localkey, done.2)) =
        registrations out ++ s'.worker.unregistered := by
      cases ht <;> first | rfl | exact List.append_nil _
    simp only [registrations, returned, List.filterMap_append, List.map_append]
    exact carry hb.registered hlocal
  stored := by
    have hlocal : s.worker.unstored ++ keysFor .part out =
        storedKeys out ++ s'.worker.unstored := by
      cases ht <;> first | rfl | exact List.append_nil _
    rw [keysFor_append, storedKeys, List.filterMap_append]
    exact carry hb.stored hlocal
  senders := by
    rw [started, List.filterMap_append]
    intro req hr
    rcases List.mem_append.mp hr with hr | hr
    · exact hb.senders req hr
    · cases ht with
      | start h => exact List.mem_singleton.mp hr ▸ h
      | startUnknown h => exact List.mem_singleton.mp hr ▸ h
      | _ => cases hr

/-- Without the stop request, the worker's calls are the first of those accepted. -/
theorem Balanced.started_prefix (hb : Balanced inputs events s) :
    started events <+: accepted events := by
  have heq : accepted events ++ s.manager.stopPosted =
      started events ++ (s.worker.stopSeen ++ (s.worker.held ++ s.messages)) := by
    rw [← hb.stopLast, hb.queued, hb.seenLast]
    simp only [List.append_assoc]
  rcases List.prefix_or_prefix_of_prefix ⟨_, heq.symm⟩ (List.prefix_append _ _) with h | h
  · exact h
  · obtain ⟨rest, hrest⟩ := h
    cases rest with
    | nil => exact ⟨[], by rw [List.append_nil] at hrest ⊢; exact hrest.symm⟩
    | cons req rest =>
      -- what the worker started past the accepted calls would be the stop request
      rw [← hrest, List.append_assoc, List.append_cancel_left_eq] at heq
      have hmem : req ∈ s.manager.stopPosted := by
        rw [heq]
        exact List.mem_cons_self
      refine absurd ?_ (hb.senders req ?_)
      · rw [(Manager.eq_stopRequest hmem).1]
        rfl
      · rw [← hrest]
        exact List.mem_append_right _ List.mem_cons_self

/-- When the worker has seen the stop request, it has started every accepted call. -/
theorem Balanced.finished (hb : Balanced inputs events s) {obj : Obj}
    (hw : s.worker = .finished obj) :
    accepted events = started events ∧ s.messages = [] ∧ s.manager.stopPosted = [stopRequest] := by
  obtain ⟨rest, hrest⟩ := hb.started_prefix
  have heq : rest ++ s.manager.stopPosted = stopRequest :: s.messages := by
    have h : accepted events ++ s.manager.stopPosted =
        started events ++ (stopRequest :: s.messages) := by
      rw [← hb.stopLast, hb.queued, hb.seenLast, hw]
      simp [Worker.stopSeen, Worker.held]
    rwa [← hrest, List.append_assoc, List.append_cancel_left_eq] at h
  cases rest with
  | nil =>
    rw [List.nil_append] at heq
    have hone : s.manager.stopPosted = [stopRequest] :=
      (Manager.eq_stopRequest (heq ▸ List.mem_cons_self)).2
    rw [hone] at heq
    exact ⟨by rw [← hrest, List.append_nil], (List.cons.inj heq).2.symm, hone⟩
  | cons req rest =>
    have hstop : req = stopRequest := (List.cons.inj heq).1
    refine absurd ?_ (hb.accepted_sender req ?_)
    · rw [hstop]
      rfl
    · rw [← hrest]
      exact List.mem_append_right _ List.mem_cons_self

end Kept

end ActiveBsp.ActorWorker
