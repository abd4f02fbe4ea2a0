import ActiveBsp.Management.Specs

/-!
# What each kind of input leaves alone

The handlers fall into kinds by the fields they change and the outputs they
make. A property of the server that does not read the fields of a kind is kept
by all inputs of that kind.
-/
namespace ActiveBsp.ActorServer

open Library Library.MachineInt

set_option autoImplicit false

variable {codec : Codec}

/-- What the handlers of futures leave alone. -/
def futuresFrame (s : ActorServer) : ActorServer :=
  { s with
    futureDataStore := .empty
    pendingFutureRequests := .empty
    askedFutureDelete := fun _ => false
    askedFetch := .empty
    phase := .receiving }

/-- The data of a future, or what a prefetch sends. -/
def IsFuture : Output → Prop
  | .futureData .. | .broadcastVd .. | .fetchDv .. => True
  | .actorMessage _ (.fetch _) | .actorMessage _ (.storeResultPart _) => True
  | _ => False

abbrev OnFutures {α : Type} (x : Handler α) : Prop :=
  Act.Guarantees (Act.Keeps futuresFrame IsFuture) x

theorem fetchParts_onFutures (msg : FetchMessage) (dv : VectorDistribution) :
    OnFutures (fetchParts msg dv) := by
  intro s out a s' h
  obtain ⟨rfl, hpieces⟩ := fetchParts_onlyPieces msg dv s out a s' h
  refine ⟨rfl, fun o ho => ?_⟩
  obtain ⟨dst, m, rfl⟩ := hpieces o ho
  trivial

theorem getIntraActorComm_onFutures : OnFutures getIntraActorComm := by
  refine Act.keeps_get.keeps_bind fun s => ?_
  cases s.intraActorComm with
  | none => exact Act.keeps_fail _
  | some comm => exact Act.keeps_pure _

theorem isHead_onFutures : OnFutures isHead :=
  getIntraActorComm_onFutures.keeps_bind fun _ => Act.keeps_pure _

theorem fetchDv_onFutures (msg : FetchMessage) : OnFutures (fetchDv codec msg) := by
  refine isHead_onFutures.keeps_bind fun head => ?_
  cases head with
  | false => exact Act.keeps_modify fun _ => rfl
  | true =>
    refine Act.keeps_get.keeps_bind fun s => ?_
    refine Act.Guarantees.keeps_bind ?_ fun _ => Act.keeps_get.keeps_bind fun s => ?_
    · exact Act.Guarantees.forM (Act.keeps_composes _ _) fun pid _ => Act.keeps_emit trivial
    cases s.futureDataStore msg.reqFutureKey with
    | none => exact Act.keeps_fail _
    | some dvFuture =>
      refine Act.Guarantees.keeps_bind (Act.keeps_emit trivial) fun _ => ?_
      cases codec.deserializeAll dvFuture with
      | none => exact Act.keeps_fail _
      | some dv =>
        exact Act.Guarantees.keeps_bind (Act.keeps_emit trivial) fun _ =>
          fetchParts_onFutures msg dv

theorem checkFutureRequired_onFutures (key : Int) : OnFutures (checkFutureRequired codec key) := by
  refine Act.keeps_get.keeps_bind fun s => ?_
  cases s.askedFetch key with
  | none => exact Act.keeps_pure _
  | some msg => exact (fetchDv_onFutures msg).keeps_bind fun _ => Act.keeps_modify fun _ => rfl

theorem servePending_onFutures (key : Int) (data : Bytes) (pids : Option (List Int)) :
    OnFutures (servePending key data pids) := by
  cases pids with
  | none => exact Act.keeps_pure _
  | some pids =>
    refine Act.Guarantees.keeps_bind ?_ fun _ => Act.keeps_modify fun _ => rfl
    exact Act.Guarantees.forM (Act.keeps_composes _ _) fun pid _ => Act.keeps_emit trivial

theorem removeIfAsked_onFutures (key : Int) : OnFutures (removeIfAsked key) := by
  refine Act.keeps_get.keeps_bind fun s => ?_
  by_cases h : s.askedFutureDelete key = true
  · rw [if_pos h]
    exact Act.keeps_modify fun _ => rfl
  · rw [if_neg h]
    exact Act.keeps_pure _

theorem registerFuture_onFutures (key : Int) (data : Bytes) :
    OnFutures (registerFuture codec key data) := by
  refine Act.keeps_get.keeps_bind fun s => ?_
  by_cases h : s.pendingFutureRequests key = none ∧ s.askedFutureDelete key = true
  · simp only [if_pos h]
    exact Act.keeps_modify fun _ => rfl
  · simp only [if_neg h]
    refine Act.Guarantees.keeps_bind (Act.keeps_modify fun _ => rfl) fun _ => ?_
    exact (checkFutureRequired_onFutures key).keeps_bind fun _ =>
      (servePending_onFutures key data _).keeps_bind fun _ => removeIfAsked_onFutures key

theorem handleGetFutureData_onFutures (src key : Int) : OnFutures (handleGetFutureData src key) := by
  refine Act.keeps_get.keeps_bind fun s => ?_
  cases s.futureDataStore key with
  | none => exact Act.keeps_modify fun _ => rfl
  | some data => exact Act.keeps_emit trivial

theorem handleReleaseFutureMessage_onFutures (key : Int) :
    OnFutures (handleReleaseFutureMessage key) := by
  refine Act.keeps_get.keeps_bind fun s => ?_
  cases s.futureDataStore key with
  | none => exact Act.keeps_modify fun _ => rfl
  | some data => exact Act.keeps_modify fun _ => rfl

theorem handleFetchMessage_onFutures (msg : FetchMessage) :
    OnFutures (handleFetchMessage codec msg) := by
  refine isHead_onFutures.keeps_bind fun head => ?_
  cases head with
  | false => exact fetchDv_onFutures msg
  | true =>
    refine Act.keeps_get.keeps_bind fun s => ?_
    cases s.futureDataStore msg.reqFutureKey with
    | some data => exact fetchDv_onFutures msg
    | none =>
      by_cases h : s.askedFetch msg.reqFutureKey = none
      · simp only [if_pos h]
        exact Act.keeps_modify fun _ => rfl
      · simp only [if_neg h]
        exact Act.keeps_fail _

theorem resumePrefetch_onFutures (prefetch : GatheringPrefetch) (keys : List Int) :
    OnFutures (resumePrefetch codec prefetch keys) := by
  refine Act.Guarantees.keeps_bind (Act.keeps_modify fun _ => rfl) fun _ => ?_
  refine getIntraActorComm_onFutures.keeps_bind fun comm => Act.keeps_get.keeps_bind fun s => ?_
  exact Act.Guarantees.keeps_bind (Act.keeps_emit trivial) fun _ => registerFuture_onFutures _ _

inductive Kind where
  | lifecycle
  | calls
  | distribution
  | futures
  | results
  | prefetch
  | worker
  deriving DecidableEq, Repr

def kind : Input → Kind
  | .message _ (.registerFutureData ..) | .message _ (.getFutureData _)
  | .message _ (.releaseFuture _) | .message _ (.fetch _) | .gatheredKeys _ | .broadcastVd _ =>
    .futures
  | .message _ (.storeResult _) | .message _ (.storeResultPart _)
  | .message _ (.releaseResult _) | .message _ (.getResultParts _) => .results
  | .message _ (.prefetch _) => .prefetch
  | .message _ (.callActor _) => .calls
  | .message _ (.distributeVector _) => .distribution
  | .message _ _ => .lifecycle
  | .setIntraActorComm _ | .takeKey => .worker

/-- What the worker thread beside the handlers leaves alone. -/
def workerCore (s : ActorServer) : ActorServer :=
  { s with intraActorComm := none, futureKeyManager := {} }

/-- What a call leaves alone. -/
def callsCore (s : ActorServer) : ActorServer := { s with futureKeyManager := {} }

/-- What the distribution of a vector leaves alone. -/
def distributionCore (s : ActorServer) : ActorServer := { s with nextResultStoreLocalKey := 0 }

def Kind.core : Kind → ActorServer → ActorServer
  | .lifecycle => lifecycleCore
  | .calls => callsCore
  | .distribution => distributionCore
  | .futures => futuresFrame
  | .results => resultsCore
  | .prefetch => prefetchCore
  | .worker => workerCore

def IsWorkerKey : Output → Prop
  | .workerKey _ => True
  | _ => False

def IsCall : Output → Prop
  | .responseCode .. | .callActor .. => True
  | _ => False

def IsDistribution : Output → Prop
  | .distrVector .. => True
  | _ => False

def Kind.Emits : Kind → Output → Prop
  | .lifecycle => IsLifecycle
  | .calls => IsCall
  | .distribution => IsDistribution
  | .futures => IsFuture
  | .results => IsResult
  | .prefetch => IsAnnouncement
  | .worker => IsWorkerKey

theorem handleCallActorMessage_onCalls (src : Int) (msg : CallActorMessage) :
    Act.Guarantees (Act.Keeps callsCore IsCall) (handleCallActorMessage src msg) := by
  refine Act.Guarantees.keeps_bind (Act.keeps_lift fun _ _ _ h => by cases h; rfl) fun key => ?_
  refine Act.Guarantees.keeps_bind (Act.keeps_get.keeps_bind fun s => ?_) fun _ =>
    Act.keeps_emit trivial
  by_cases hp : s.actorWorkerProxy = true
  · rw [if_pos hp]
    exact Act.keeps_emit trivial
  · rw [if_neg hp]
    exact Act.keeps_fail _

theorem handleDistributeVectorMessage_onDistribution (src : Int) (msg : DistributeVectorMessage) :
    Act.Guarantees (Act.Keeps distributionCore IsDistribution)
      (handleDistributeVectorMessage src msg) :=
  Act.keeps_get.keeps_bind fun _ =>
    Act.Guarantees.keeps_bind (Act.keeps_modify fun _ => rfl) fun _ => Act.keeps_emit trivial

/-- An input changes the fields of its kind only. -/
theorem step_kind (i : Input) :
    Act.Guarantees (Act.Keeps (kind i).core (kind i).Emits) (step codec i) := by
  refine Act.keeps_get.keeps_bind fun s => ?_
  cases i with
  | message src msg =>
    cases s.phase with
    | receiving =>
      by_cases hq : s.qrun = true
      · simp only [if_pos hq]
        cases msg with
        | stop => exact handleStopActorProcessMessage_onLifecycle
        | createActor msg => exact handleCreateActorMessage_onLifecycle src msg
        | destroyActor ask => exact handleStopActorMessage_onLifecycle src ask
        | callActor msg => exact handleCallActorMessage_onCalls src msg
        | registerFutureData key data => exact registerFuture_onFutures key data
        | getFutureData key => exact handleGetFutureData_onFutures src key
        | releaseFuture key => exact handleReleaseFutureMessage_onFutures key
        | storeResult msg => exact handleStoreResultMessage_onResults msg
        | storeResultPart msg => exact handleStoreResultPartMessage_onResults msg
        | releaseResult resId => exact handleReleaseResultPartMessage_onResults resId
        | getResultParts msg => exact handleGetResultPartsMessage_onResults src msg
        | distributeVector msg => exact handleDistributeVectorMessage_onDistribution src msg
        | prefetch msg => exact handlePrefetchMessage_onPrefetch src msg
        | fetch msg => exact handleFetchMessage_onFutures msg
      · simp only [if_neg hq]
        exact Act.keeps_fail _
    | gatheringKeys prefetch => exact Act.keeps_fail _
    | awaitingVd msg => exact Act.keeps_fail _
  | gatheredKeys keys =>
    cases s.phase with
    | gatheringKeys prefetch => exact resumePrefetch_onFutures prefetch keys
    | _ => exact Act.keeps_fail _
  | broadcastVd dv =>
    cases s.phase with
    | awaitingVd msg =>
      exact Act.Guarantees.keeps_bind (Act.keeps_modify fun _ => rfl) fun _ =>
        fetchParts_onFutures msg dv
    | _ => exact Act.keeps_fail _
  | setIntraActorComm comm => exact Act.keeps_modify fun _ => rfl
  | takeKey =>
    exact Act.Guarantees.keeps_bind (Act.keeps_lift fun _ _ _ h => by cases h; rfl) fun key =>
      Act.keeps_emit trivial

/-- The maps of futures, and whether the process is the head. -/
def futuresCore (s : ActorServer) : ActorServer :=
  { pid := 0
    intraActorComm := s.intraActorComm
    futureDataStore := s.futureDataStore
    pendingFutureRequests := s.pendingFutureRequests
    askedFutureDelete := s.askedFutureDelete
    askedFetch := s.askedFetch }

def IsFetchMark : Output → Prop
  | .fetchDv .. => True
  | _ => False

/-- A message, or the end of a collective operation, that reads or writes no future. -/
def AvoidsFutures : Input → Prop
  | .message _ (.registerFutureData ..) | .message _ (.getFutureData _)
  | .message _ (.releaseFuture _) | .message _ (.fetch _) | .gatheredKeys _
  | .setIntraActorComm _ => False
  | _ => True

theorem step_avoids_futures {i : Input} (hi : AvoidsFutures i) :
    Act.Guarantees (Act.Keeps futuresCore fun o => ¬ IsFetchMark o) (step codec i) := by
  cases i with
  | broadcastVd dv =>
    refine Act.keeps_get.keeps_bind fun s => ?_
    cases s.phase with
    | receiving => exact Act.keeps_fail _
    | gatheringKeys prefetch => exact Act.keeps_fail _
    | awaitingVd msg =>
      refine Act.Guarantees.keeps_bind (Act.keeps_modify fun _ => rfl) fun _ => ?_
      intro s out a s' h
      obtain ⟨rfl, hpieces⟩ := fetchParts_onlyPieces msg dv s out a s' h
      refine ⟨rfl, fun o ho hm => ?_⟩
      obtain ⟨dst, m, rfl⟩ := hpieces o ho
      exact hm
  | message src msg =>
    refine (step_kind (.message src msg)).keeps_mono (fun s s' h => ?_) fun o ho hm => ?_
    · cases msg <;>
        first | exact (congrArg futuresCore h : futuresCore (Kind.core _ s') = _) | cases hi
    · cases msg <;> cases o <;> first | exact ho | exact hm | exact hi
  | takeKey =>
    refine Act.keeps_get.keeps_bind fun s => ?_
    refine Act.Guarantees.keeps_bind (Act.keeps_lift fun _ _ _ h => ?_) fun key => ?_
    · cases h
      rfl
    · exact Act.keeps_emit fun h => h
  | gatheredKeys keys => cases hi
  | setIntraActorComm comm => cases hi

end ActiveBsp.ActorServer
