import ActiveBsp.VectorDistribution
import ActiveBsp.Worker.ActorWorker

/-!
# The identity of a request

A call carries a key in its message, which the proxy writes, and gets another
one from the manager that takes it. `master_loop` shows its method the first as
the request id, and publishes the result under the second.
-/
namespace ActiveBsp.RequestIds

open Library ActorWorker

set_option autoImplicit false

/-- `ProxyBase::active_call`: the key in the message is always zero. -/
def activeCall (f : String) (args : Bytes) : CallActorMessage := ⟨f, args, 0⟩

/-- The fields of `ActorBase` that have to do with requests. -/
structure ActorBase where
  reqId : Int
  requestDistrVectors : PartialMap Int VectorDistribution

namespace ActorBase

def setRequestId (reqId : Int) (obj : ActorBase) : ActorBase := { obj with reqId := reqId }

def getRequestId (obj : ActorBase) : Int := obj.reqId

/-- `std::map::emplace` leaves an entry that is there. -/
def storeVectorDistribution (dv : VectorDistribution) (obj : ActorBase) : ActorBase :=
  { obj with requestDistrVectors := obj.requestDistrVectors.insert obj.reqId dv }

def freeVectorDistribution (reqId : Int) (obj : ActorBase) : ActorBase :=
  { obj with requestDistrVectors := obj.requestDistrVectors.erase reqId }

end ActorBase

variable {σ : Type}

/-- What a method does: it uses the request id and the distributions of the requests, learns
something that depends on the rest of the system, returns its serialized result and what it leaves
in the other fields of the object, or throws. -/
inductive Method (σ : Type) where
  | getRequestId (next : Int → Method σ)
  | storeVectorDistribution (dv : VectorDistribution) (next : Method σ)
  | freeVectorDistribution (reqId : Int) (next : Method σ)
  | learn (next : Bytes → Method σ)
  | done (serial : Bytes) (fields : σ)
  | throw

/-- `_functions`. -/
abbrev Methods (σ : Type) : Type := String → Option (Bytes → σ → Method σ)

inductive Phase (σ : Type) where
  | looping
  | serving (req : ActiveObjectRequest) (method : Method σ)
  | finished

/-- What a run leaves on record: the key and the request id of every call served, the last first,
and the distribution that each call keeps, under the key of the call. -/
structure Record where
  served : List (Int × Int)
  book : PartialMap Int VectorDistribution

structure Head (σ : Type) where
  messages : List ActiveObjectRequest
  object : ActorBase
  fields : σ
  phase : Phase σ
  record : Record

inductive Event where
  | response (dst : Int) (key : Int)
  | requestId (id : Int)
  | reportResult (key : Int) (serial : Bytes)
  deriving DecidableEq, Repr

inductive Input where
  /-- The call of a proxy reaches the manager, for which `takeKey` has this key. -/
  | activeCall (src : Nat) (f : String) (args : Bytes) (key : Int)
  | stopActor
  /-- The worker goes on, and learns what it may learn there. -/
  | worker (learnt : Bytes)
  deriving DecidableEq, Repr

/-- `handleCallActorMessage`. -/
def handleCallActorMessage (src : Nat) (msg : CallActorMessage) (key : Int) :
    Act (Head σ) Event Fault Unit := fun s =>
  ([.response src key], .ok ((), { s with messages := s.messages ++ [⟨msg, src, key⟩] }))

/-- `master_loop` takes a request out and calls its method. -/
def masterLoop (methods : Methods σ) : Act (Head σ) Event Fault Unit := fun s =>
  match s.messages with
  | [] => ([], .error .blocked)
  | req :: rest =>
    if req.sender = -1 then ([], .ok ((), { s with messages := rest, phase := .finished })) else
      match methods req.callActorMessage.functionName with
      | some method =>
        ([], .ok ((), { s with
          messages := rest
          object := s.object.setRequestId req.callActorMessage.futureKey
          phase := .serving req (method req.callActorMessage.args s.fields)
          record := { s.record with
            served := (req.localkey, req.callActorMessage.futureKey) :: s.record.served } }))
      | none =>
        ([.reportResult req.localkey errorSerial], .ok ((), { s with messages := rest }))

/-- One step of a method, the last of which is the report of its result. -/
def serve (req : ActiveObjectRequest) (learnt : Bytes) :
    Method σ → Act (Head σ) Event Fault Unit
  | .getRequestId next => fun s =>
    ([.requestId s.object.getRequestId],
      .ok ((), { s with phase := .serving req (next s.object.getRequestId) }))
  | .storeVectorDistribution dv next => fun s =>
    ([], .ok ((), { s with
      object := s.object.storeVectorDistribution dv
      phase := .serving req next
      record := { s.record with book := s.record.book.set req.localkey dv } }))
  | .freeVectorDistribution reqId next => fun s =>
    ([], .ok ((), { s with
      object := s.object.freeVectorDistribution reqId
      phase := .serving req next
      record := { s.record with book := s.record.book.erase reqId } }))
  | .learn next => fun s => ([], .ok ((), { s with phase := .serving req (next learnt) }))
  | .done serial fields => fun s =>
    ([.reportResult req.localkey serial], .ok ((), { s with fields := fields, phase := .looping }))
  | .throw => fun _ => ([], .error .exception)

def step (methods : Methods σ) : Input → Act (Head σ) Event Fault Unit
  | .activeCall src f args key => handleCallActorMessage src (activeCall f args) key
  | .stopActor => fun s => ([], .ok ((), { s with messages := s.messages ++ [stopRequest] }))
  | .worker learnt => fun s =>
    match s.phase with
    | .looping => masterLoop methods s
    | .serving req method => serve req learnt method s
    | .finished => ([], .error .blocked)

/-- The constructor leaves the request id as the memory was. -/
def start (reqId : Int) (fields : σ) : Head σ :=
  ⟨[], ⟨reqId, PartialMap.empty⟩, fields, .looping, ⟨[], PartialMap.empty⟩⟩

/-- A method that asks for the id of its request gets the key of its result, no two calls have
been shown the same id, and every call finds the distribution that it keeps under its id: the last
that it stored, unless someone freed it by this id. -/
structure Own (s : Head σ) : Prop where
  id : ∀ req method, s.phase = .serving req method → s.object.getRequestId = req.localkey
  distinct : (s.record.served.map Prod.snd).Nodup
  kept : s.object.requestDistrVectors = s.record.book

/-- What the step leads to. -/
def KeepsOwn (methods : Methods σ) (s : Head σ) (input : Input) : Prop :=
  ∀ out s', step methods input s = (out, .ok ((), s')) → Own s'

/-- A step that begins to serve a call does so for the first call, under the key zero; and a call
does not store a distribution while it keeps another one. -/
def First (methods : Methods σ) (s : Head σ) : Input → Prop
  | .worker _ =>
    match s.phase with
    | .looping =>
      match s.messages with
      | [] => True
      | req :: _ => req.sender ≠ -1 → (methods req.callActorMessage.functionName).isSome →
          req.localkey = 0 ∧ s.record.served = []
    | .serving req (.storeVectorDistribution dv _) =>
      ∀ dv', s.record.book req.localkey = some dv' → dv' = dv
    | _ => True
  | _ => True

/-- All calls come from proxies, and the object has the id of the call that it serves. -/
structure FromProxies (s : Head σ) : Prop where
  queued : ∀ req ∈ s.messages, req.sender ≠ -1 → req.callActorMessage.futureKey = 0
  serving : ∀ req method, s.phase = .serving req method → s.object.reqId = 0
  served : ∀ p ∈ s.record.served, p.2 = 0

theorem fromProxies_start (reqId : Int) (fields : σ) : FromProxies (start reqId fields) where
  queued := nofun
  serving := nofun
  served := nofun

theorem own_start (reqId : Int) (fields : σ) : Own (start reqId fields) where
  id := nofun
  distinct := List.nodup_nil
  kept := rfl

variable {methods : Methods σ}

/-- What `master_loop` does with the first request in its queue. -/
theorem masterLoop_cases {s s' : Head σ} {out : List Event}
    (h : masterLoop methods s = (out, .ok ((), s'))) :
    ∃ req rest, s.messages = req :: rest ∧
      ((req.sender = -1 ∧ s' = { s with messages := rest, phase := .finished }) ∨
        (req.sender ≠ -1 ∧ methods req.callActorMessage.functionName = none ∧
          s' = { s with messages := rest }) ∨
        ∃ method, req.sender ≠ -1 ∧ methods req.callActorMessage.functionName = some method ∧
          s' = { s with
            messages := rest
            object := s.object.setRequestId req.callActorMessage.futureKey
            phase := .serving req (method req.callActorMessage.args s.fields)
            record := { s.record with
              served := (req.localkey, req.callActorMessage.futureKey) :: s.record.served } }) := by
  unfold masterLoop at h
  split at h
  · cases h
  · rename_i req rest hmessages
    refine ⟨req, rest, hmessages, ?_⟩
    split at h
    · cases h
      exact .inl ⟨‹_›, rfl⟩
    · split at h
      · cases h
        exact .inr (.inr ⟨_, ‹_›, ‹_›, rfl⟩)
      · cases h
        exact .inr (.inl ⟨‹_›, ‹_›, rfl⟩)

/-- Serving a call leaves the id of the object, the queue and the list of calls alone. -/
theorem serve_frame {req : ActiveObjectRequest} {learnt : Bytes} {method : Method σ}
    {s s' : Head σ} {out : List Event} (h : serve req learnt method s = (out, .ok ((), s'))) :
    s'.messages = s.messages ∧ s'.object.reqId = s.object.reqId ∧
      s'.record.served = s.record.served ∧
      ∀ req' method', s'.phase = .serving req' method' → req' = req := by
  cases method with
  | throw => cases h
  | done serial fields =>
    cases h
    exact ⟨rfl, rfl, rfl, nofun⟩
  | _ =>
    cases h
    refine ⟨rfl, rfl, rfl, fun req' method' hphase => ?_⟩
    cases hphase
    rfl

theorem fromProxies_step {input : Input} {s s' : Head σ} {out : List Event} (hs : FromProxies s)
    (h : step methods input s = (out, .ok ((), s'))) : FromProxies s' := by
  cases input with
  | activeCall src f args key =>
    cases h
    refine ⟨fun req hreq hsender => ?_, hs.serving, hs.served⟩
    rcases List.mem_append.mp hreq with hreq | hreq
    · exact hs.queued req hreq hsender
    · rw [List.mem_singleton.mp hreq]
      rfl
  | stopActor =>
    cases h
    refine ⟨fun req hreq hsender => ?_, hs.serving, hs.served⟩
    rcases List.mem_append.mp hreq with hreq | hreq
    · exact hs.queued req hreq hsender
    · rw [List.mem_singleton.mp hreq] at hsender
      exact absurd rfl hsender
  | worker learnt =>
    rw [step] at h
    dsimp only at h
    split at h
    · rename_i hphase
      obtain ⟨req, rest, hmessages, hcase⟩ := masterLoop_cases h
      have hrest : ∀ r ∈ rest, r.sender ≠ -1 → r.callActorMessage.futureKey = 0 :=
        fun r hr => hs.queued r (by rw [hmessages]; exact List.mem_cons_of_mem req hr)
      rcases hcase with ⟨-, rfl⟩ | ⟨-, -, rfl⟩ | ⟨method, hsender, -, rfl⟩
      · exact ⟨hrest, nofun, hs.served⟩
      · exact ⟨hrest, hs.serving, hs.served⟩
      · have hkey : req.callActorMessage.futureKey = 0 :=
          hs.queued req (by rw [hmessages]; exact List.mem_cons_self) hsender
        refine ⟨hrest, fun _ _ _ => hkey, fun p hp => ?_⟩
        rcases List.mem_cons.mp hp with rfl | hp
        · exact hkey
        · exact hs.served p hp
    · rename_i req method hphase
      obtain ⟨hmessages, hreqId, hserved, -⟩ := serve_frame h
      refine ⟨?_, fun req' method' _ => ?_, ?_⟩
      · rw [hmessages]
        exact hs.queued
      · rw [hreqId]
        exact hs.serving req method hphase
      · rw [hserved]
        exact hs.served
    · cases h

/-- Steps that leave the object and the record alone keep what calls know. -/
theorem Own.of_same {s s' : Head σ} (hs : Own s) (hobject : s'.object = s.object)
    (hrecord : s'.record = s.record)
    (hphase : ∀ req method, s'.phase = .serving req method →
      ∃ method', s.phase = .serving req method') : Own s' where
  id req method h := by
    obtain ⟨method', hm⟩ := hphase req method h
    rw [hobject]
    exact hs.id req method' hm
  distinct := by
    rw [hrecord]
    exact hs.distinct
  kept := by
    rw [hobject, hrecord]
    exact hs.kept

/-- Of the ids that the calls of proxies are shown, no two differ. -/
theorem distinct_cons_iff {s : Head σ} (hp : FromProxies s) (key : Int) :
    (((key, 0) :: s.record.served).map Prod.snd).Nodup ↔ s.record.served = [] := by
  constructor
  · intro h
    rw [List.map_cons, List.nodup_cons] at h
    by_contra hne
    obtain ⟨p, hmem⟩ := List.exists_mem_of_ne_nil _ hne
    exact h.1 (List.mem_map.mpr ⟨p, hmem, hp.served p hmem⟩)
  · intro h
    rw [h]
    exact List.nodup_singleton 0

/-- Beginning to serve a call. -/
theorem own_serving_iff {s : Head σ} (hs : Own s) (hp : FromProxies s) {req : ActiveObjectRequest}
    (hkey : req.callActorMessage.futureKey = 0) (rest : List ActiveObjectRequest)
    (method : Method σ) :
    Own { s with
      messages := rest
      object := s.object.setRequestId req.callActorMessage.futureKey
      phase := .serving req method
      record := { s.record with
        served := (req.localkey, req.callActorMessage.futureKey) :: s.record.served } } ↔
      req.localkey = 0 ∧ s.record.served = [] := by
  rw [hkey]
  constructor
  · intro h
    exact ⟨(h.id req method rfl).symm, (distinct_cons_iff hp req.localkey).mp h.distinct⟩
  · rintro ⟨hlocal, hserved⟩
    refine ⟨?_, (distinct_cons_iff hp req.localkey).mpr hserved, hs.kept⟩
    intro req' method' hphase
    cases hphase
    exact hlocal.symm

/-- A call stores a distribution. -/
theorem own_store_iff {s : Head σ} (hs : Own s) {req : ActiveObjectRequest}
    {method next : Method σ} (hphase : s.phase = .serving req method) (dv : VectorDistribution) :
    Own { s with
      object := s.object.storeVectorDistribution dv
      phase := .serving req next
      record := { s.record with book := s.record.book.set req.localkey dv } } ↔
      ∀ dv', s.record.book req.localkey = some dv' → dv' = dv := by
  have hid : s.object.reqId = req.localkey := hs.id req method hphase
  rw [← PartialMap.insert_eq_set_iff, ← hs.kept]
  constructor
  · intro h
    have hkept : s.object.requestDistrVectors.insert s.object.reqId dv =
        s.object.requestDistrVectors.set req.localkey dv := h.kept
    rwa [hid] at hkept
  · intro h
    refine ⟨?_, hs.distinct, ?_⟩
    · intro req' method' hphase'
      cases hphase'
      exact hid
    · show s.object.requestDistrVectors.insert s.object.reqId dv = _
      rw [hid, h]

theorem keepsOwn_of_ok {s s₁ : Head σ} {input : Input} {out₁ : List Event}
    (h : step methods input s = (out₁, .ok ((), s₁))) : KeepsOwn methods s input ↔ Own s₁ := by
  constructor
  · exact fun hk => hk out₁ s₁ h
  · intro ho out s' hstep
    rw [h] at hstep
    cases hstep
    exact ho

theorem keepsOwn_of_error {s : Head σ} {input : Input} {out : List Event} {e : Fault}
    (h : step methods input s = (out, .error e)) : KeepsOwn methods s input := by
  intro out' s' hstep
  rw [h] at hstep
  cases hstep

/-- In a state in which calls know who they are, a step keeps this exactly when no second call
begins, none begins under another key than zero, and no call stores a second distribution. -/
theorem keepsOwn_iff {s : Head σ} {input : Input} (hs : Own s) (hp : FromProxies s) :
    KeepsOwn methods s input ↔ First methods s input := by
  obtain ⟨messages, object, fields, phase, record⟩ := s
  cases input with
  | activeCall src f args key =>
    rw [keepsOwn_of_ok rfl]
    exact iff_of_true (hs.of_same rfl rfl fun req method h => ⟨method, h⟩) trivial
  | stopActor =>
    rw [keepsOwn_of_ok rfl]
    exact iff_of_true (hs.of_same rfl rfl fun req method h => ⟨method, h⟩) trivial
  | worker learnt =>
    cases phase with
    | finished => exact iff_of_true (keepsOwn_of_error rfl) trivial
    | looping =>
      cases messages with
      | nil => exact iff_of_true (keepsOwn_of_error rfl) trivial
      | cons req rest =>
        -- the branches of `master_loop`
        by_cases hsender : req.sender = -1
        · have hstep : step methods (.worker learnt) ⟨req :: rest, object, fields, .looping, record⟩ =
              ([], .ok ((), ⟨rest, object, fields, .finished, record⟩)) := by
            simp only [step, masterLoop, if_pos hsender]
          rw [keepsOwn_of_ok hstep]
          exact iff_of_true (hs.of_same rfl rfl nofun) fun hne => absurd hsender hne
        · cases hm : methods req.callActorMessage.functionName with
          | none =>
            have hstep : step methods (.worker learnt) ⟨req :: rest, object, fields, .looping, record⟩ =
                ([.reportResult req.localkey errorSerial],
                  .ok ((), ⟨rest, object, fields, .looping, record⟩)) := by
              simp only [step, masterLoop, if_neg hsender, hm]
            rw [keepsOwn_of_ok hstep]
            refine iff_of_true (hs.of_same rfl rfl nofun) fun _ hsome => ?_
            rw [hm] at hsome
            cases hsome
          | some method =>
            have hkey : req.callActorMessage.futureKey = 0 := hp.queued req List.mem_cons_self hsender
            rw [keepsOwn_of_ok (by simp only [step, masterLoop, if_neg hsender, hm]; rfl),
              own_serving_iff hs hp hkey]
            exact ⟨fun h _ _ => h, fun h => h hsender (by rw [hm]; rfl)⟩
    | serving req method =>
      cases method with
      | storeVectorDistribution dv next =>
        rw [keepsOwn_of_ok rfl]
        exact own_store_iff hs rfl dv
      | throw => exact iff_of_true (keepsOwn_of_error rfl) trivial
      | done serial fields =>
        rw [keepsOwn_of_ok rfl]
        exact iff_of_true (hs.of_same rfl rfl nofun) trivial
      | freeVectorDistribution reqId next =>
        rw [keepsOwn_of_ok rfl]
        refine iff_of_true ⟨?_, hs.distinct, ?_⟩ trivial
        · intro req' method' hphase
          cases hphase
          exact hs.id req _ rfl
        · exact congrArg (PartialMap.erase · reqId) hs.kept
      | _ =>
        rw [keepsOwn_of_ok rfl]
        refine iff_of_true (hs.of_same rfl rfl ?_) trivial
        intro req' method' hphase
        cases hphase
        exact ⟨_, rfl⟩

/-- In a run of calls from proxies, every call knows who it is exactly when one call at most is
served, under the key zero, and this call never stores a second distribution over the first. -/
theorem requests_own_iff (methods : Methods σ) (reqId : Int) (fields : σ) (inputs : List Input) :
    Act.Along (step methods) (KeepsOwn methods) inputs (start reqId fields) ↔
      Act.Along (step methods) (First methods) inputs (start reqId fields) :=
  Act.Along.congr
    (fun _ _ out s' (hs : Own _ ∧ FromProxies _) _ hk h => ⟨hk out s' h, fromProxies_step hs.2 h⟩)
    (fun _ _ hs _ => keepsOwn_iff hs.1 hs.2) ⟨own_start reqId fields, fromProxies_start reqId fields⟩
    (Act.Along.of_forall (fun _ _ => trivial) inputs _)

/-- A class with one method, which looks at the id of its request. -/
def looking : Methods Unit := fun _ => some fun _ _ => .getRequestId fun _ => .done [] ()

/-- The second call has the key one, and sees the id zero, as the first did. -/
theorem second_call_not_own : ¬ Act.Along (step looking) (KeepsOwn looking)
    [.activeCall 2 "f" [] 0, .activeCall 2 "f" [] 1, .worker [], .worker [], .worker [], .worker []]
    (start 0 ()) := by
  intro h
  have hlast := (((((h.2 _ _ rfl).2 _ _ rfl).2 _ _ rfl).2 _ _ rfl).2 _ _ rfl).1 _ _ rfl
  have hid := hlast.id _ _ rfl
  exact absurd hid (by decide)

end ActiveBsp.RequestIds
