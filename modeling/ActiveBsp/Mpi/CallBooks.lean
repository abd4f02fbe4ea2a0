import ActiveBsp.Mpi.CallLedger

/-!
# What is under way between clients and processes

A client waits for one thing at a time, so there is nothing, one call or one
read under way between it and a process. A future that is released is marked
first; then its message is under way, and at last a manager has handled it.
-/
namespace ActiveBsp.CallSessions

open Library FutureReads
open ActorWorker (registrations accepted)

set_option autoImplicit false

variable {Obj : Type}

@[ext] structure Line where
  calls : List CallActorMessage := []
  gets : List Int := []
  codes : List Int := []
  data : List Bytes := []
  /-- How many reads of a future wait for its result. -/
  parked : Int → Nat := fun _ => 0

def Line.post (line : Line) (msg : ActorMessage) : Line :=
  { line with calls := line.calls ++ callsIn [msg], gets := line.gets ++ getsIn [msg] }

def waiting (c key : Int) (ms : List FutureMessage) : Nat :=
  if FutureReads.registered key ms = none then (readers key ms).count c else 0

def line (net : CallSessions Obj) (b : Int → HeadBooks) (c q : Int) : Line where
  calls := callsIn (net.mail c q)
  gets := getsIn (net.mail c q)
  codes := net.codes q c
  data := net.data q c
  parked key := waiting c key (b q).history

/-- A call on its way to the actor, or its key on the way back. -/
inductive AwaitsKey (accepted : List ActiveObjectRequest) (c : Int) (msg : CallActorMessage) :
    Line → Prop
  | asked : AwaitsKey accepted c msg { calls := [msg] }
  | answered (key : Int) (h : ⟨msg, c, key⟩ ∈ accepted) : AwaitsKey accepted c msg { codes := [key] }

/-- A read on its way to the process, waiting there, or its answer on the way back. -/
inductive AwaitsData (registrations : List (Int × Bytes)) (key : Int) : Line → Prop
  | asked : AwaitsData registrations key { gets := [key] }
  | parked : AwaitsData registrations key { parked := Function.update (fun _ => 0) key 1 }
  | answered (data : Bytes) (h : (key, data) ∈ registrations) :
      AwaitsData registrations key { data := [data] }

theorem AwaitsKey.mono {reqs reqs' : List ActiveObjectRequest} {c : Int} {msg : CallActorMessage}
    {line : Line} (h : AwaitsKey reqs c msg line) (hsub : reqs ⊆ reqs') :
    AwaitsKey reqs' c msg line := by
  cases h with
  | asked => exact .asked
  | answered key hkey => exact .answered key (hsub hkey)

theorem AwaitsData.mono {regs regs' : List (Int × Bytes)} {key : Int} {line : Line}
    (h : AwaitsData regs key line) (hsub : regs ⊆ regs') : AwaitsData regs' key line := by
  cases h with
  | asked => exact .asked
  | parked => exact .parked
  | answered data hdata => exact .answered data (hsub hdata)

/-- The marks and the messages of one future: whether a client has released it, whether the
manager knows, and the messages about it that are under way. -/
inductive ReleaseStage : Prop → Bool → (Int → Nat) → Prop
  | kept {marked : Prop} (h : ¬ marked) : ReleaseStage marked false fun _ => 0
  | underway {marked : Prop} (h : marked) (c : Int) :
      ReleaseStage marked false (Function.update (fun _ => 0) c 1)
  | handled {marked : Prop} (h : marked) : ReleaseStage marked true fun _ => 0

variable {st : CallCluster Obj} {net net' : CallSessions Obj} {b b' : Int → HeadBooks} {c q : Int}

/-- What the client waits for is under way, and nothing else. -/
def Session (st : CallCluster Obj) (net : CallSessions Obj) (b : Int → HeadBooks) (c : Int) :
    CallerPhase → Prop
  | .idle => ∀ q, line net b c q = {}
  | .calling _ head f args => (0 ≤ c ∧ head ∈ st.heads) ∧
      AwaitsKey (accepted (b head).events) c (RequestIds.activeCall f args) (line net b c head) ∧
      ∀ q, q ≠ head → line net b c q = {}
  | .getting var pid key => (c ∈ st.clients ∧ (pid, key) ∉ net.released ∧
        (net.vars c var).dataRetriever = some (pid, key)) ∧
      AwaitsData (registrations (b pid).events) key (line net b c pid) ∧
      ∀ q, q ≠ pid → line net b c q = {}

/-- The future of a call; the data that it has is the result of the call. -/
def Known (b : Int → HeadBooks) (future : FutureBase) : Prop :=
  match future.dataRetriever with
  | none => future.data = none
  | some (pid, key) => (∃ req ∈ accepted (b pid).events, req.localkey = key) ∧
      ∀ data, future.data = some data → (key, data) ∈ registrations (b pid).events

/-- What clients send. -/
def FromClient : ActorMessage → Prop
  | .callActor _ | .getFutureData _ | .releaseFuture _ => True
  | _ => False

structure Balanced (st : CallCluster Obj) (net : CallSessions Obj) (b : Int → HeadBooks) :
    Prop where
  heads : ∀ q, HeadKept st q (net.servers q) (net.head q) (net.own q) (b q)
  session : ∀ c, Session st net b c (net.phase c)
  known : ∀ c var, Known b (net.vars c var)
  mail : ∀ c q, ∀ msg ∈ net.mail c q, FromClient msg
  releases : ∀ q key, ReleaseStage ((q, key) ∈ net.released)
    (FutureReads.released key (b q).history) fun c => (releasesIn (net.mail c q)).count key

/-- The calls and the results of a process only become more. -/
def Grows (b b' : Int → HeadBooks) : Prop :=
  ∀ q, accepted (b q).events <+: accepted (b' q).events ∧
    registrations (b q).events <+: registrations (b' q).events

theorem Grows.refl (b : Int → HeadBooks) : Grows b b := fun _ =>
  ⟨List.prefix_rfl, List.prefix_rfl⟩

theorem Grows.trans {b'' : Int → HeadBooks} (h : Grows b b') (h' : Grows b' b'') : Grows b b'' :=
  fun q => ⟨(h q).1.trans (h' q).1, (h q).2.trans (h' q).2⟩

theorem Known.mono {future : FutureBase} (h : Known b future) (hgrows : Grows b b') :
    Known b' future := by
  unfold Known at h ⊢
  cases hr : future.dataRetriever with
  | none =>
    rw [hr] at h
    exact h
  | some future' =>
    obtain ⟨pid, key⟩ := future'
    rw [hr] at h
    obtain ⟨⟨req, hreq, hkey⟩, hdata⟩ := h
    exact ⟨⟨req, (hgrows pid).1.subset hreq, hkey⟩,
      fun data hd => (hgrows pid).2.subset (hdata data hd)⟩

/-- A client for which nothing has changed. -/
theorem Session.congr {phase : CallerPhase} (h : Session st net b c phase)
    (hline : ∀ q, line net' b' c q = line net b c q) (hgrows : Grows b b')
    (hvars : net'.vars c = net.vars c)
    (hreleased : ∀ pid key, c ∈ st.clients → phase.Gets pid key → (pid, key) ∉ net.released →
      (pid, key) ∉ net'.released) :
    Session st net' b' c phase := by
  cases phase with
  | idle => exact fun q => (hline q).trans (h q)
  | calling var head f args =>
    obtain ⟨hcall, hawaits, hothers⟩ := h
    refine ⟨hcall, ?_, fun q hq => (hline q).trans (hothers q hq)⟩
    rw [hline]
    exact hawaits.mono (hgrows head).1.subset
  | getting var pid key =>
    obtain ⟨⟨hc, hkept, hvar⟩, hawaits, hothers⟩ := h
    refine ⟨⟨hc, hreleased pid key hc ⟨rfl, rfl⟩ hkept, ?_⟩, ?_,
      fun q hq => (hline q).trans (hothers q hq)⟩
    · rw [hvars]
      exact hvar
    · rw [hline]
      exact hawaits.mono (hgrows pid).2.subset

/-- What the run has shown is right. -/
def Right (b : Int → HeadBooks) : CallEvent → Prop
  | .called c head f args key =>
    ⟨RequestIds.activeCall f args, c, key⟩ ∈ accepted (b head).events
  | .got _ none _ => False
  | .got _ (some (pid, key)) data => (key, data) ∈ registrations (b pid).events

theorem Right.mono {e : CallEvent} (h : Right b e) (hgrows : Grows b b') : Right b' e := by
  cases e with
  | called c head f args key => exact (hgrows head).1.subset h
  | got c dataRetriever data =>
    cases dataRetriever with
    | none => exact h
    | some future => exact (hgrows future.1).2.subset h

/-- The keys of the calls of a client. -/
def acceptedKeys (c : Int) (events : List ActorWorker.Event) : List Int :=
  ((accepted events).filter fun req => req.sender = c).map ActiveObjectRequest.localkey

theorem acceptedKeys_append (c : Int) (events events' : List ActorWorker.Event) :
    acceptedKeys c (events ++ events') = acceptedKeys c events ++ acceptedKeys c events' := by
  simp only [acceptedKeys, accepted, List.filterMap_append, List.filter_append, List.map_append]

/-- The keys that the client has got for its calls to this actor. -/
def calledKeys (c q : Int) (shown : List CallEvent) : List Int :=
  shown.filterMap fun
    | .called c' head _ _ key => if c' = c ∧ head = q then some key else none
    | _ => none

theorem calledKeys_append (c q : Int) (shown shown' : List CallEvent) :
    calledKeys c q (shown ++ shown') = calledKeys c q shown ++ calledKeys c q shown' :=
  List.filterMap_append

theorem calledKeys_called (c q c' head : Int) (f : String) (args : Bytes) (key : Int) :
    calledKeys c q [.called c' head f args key] = if c' = c ∧ head = q then [key] else [] := by
  rw [calledKeys, List.filterMap_cons, List.filterMap_nil]
  by_cases hcq : c' = c ∧ head = q
  · simp only [if_pos hcq]
  · simp only [if_neg hcq]

/-- The calls that the client has made are those that have come back and those whose keys are under
way; a step that is observed so keeps that. -/
def Carries (net : CallSessions Obj) (b : Int → HeadBooks) (out : List CallEvent)
    (net' : CallSessions Obj) (b' : Int → HeadBooks) : Prop :=
  ∀ c q before, acceptedKeys c (b q).events = before ++ net.codes q c →
    acceptedKeys c (b' q).events = before ++ calledKeys c q out ++ net'.codes q c

theorem Carries.quiet {out : List CallEvent} (hcodes : net'.codes = net.codes)
    (hout : ∀ c q, calledKeys c q out = []) : Carries net b out net' b := by
  intro c q before h
  rw [hout, hcodes, List.append_nil]
  exact h

end ActiveBsp.CallSessions
