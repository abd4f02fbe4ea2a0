import ActiveBsp.Library.Commutes
import ActiveBsp.Management.Parts

/-!
# Handlers that know nothing of who waits

Only the request for parts records who waits for a part, and only the arrival of
a part looks at the record. Every other handler does the same whatever the
record holds.
-/
namespace ActiveBsp.ActorServer

open Library Library.MachineInt

set_option autoImplicit false

/-- The server with another record of those who wait for parts. -/
def withPending (p : PartialMap Int (List PendingResultRequest)) (s : ActorServer) :
    ActorServer :=
  { s with pendingResultRequests := p }

variable {codec : Codec} {p : PartialMap Int (List PendingResultRequest)}

@[simp] theorem parked_withPending (s : ActorServer) (key : Int) :
    (withPending p s).parked key = (p key).getD [] := rfl

theorem takeKey_beside : Act.Commutes (withPending p) takeKey := Act.Commutes.lift fun _ => rfl

theorem getIntraActorComm_beside : Act.Commutes (withPending p) getIntraActorComm := by
  refine Act.Commutes.get_bind (fun _ => rfl) fun s => ?_
  cases s.intraActorComm with
  | none => exact Act.Commutes.fail _
  | some comm => exact Act.Commutes.pure _

theorem isHead_beside : Act.Commutes (withPending p) isHead :=
  getIntraActorComm_beside.bind fun _ => Act.Commutes.pure _

theorem lockResultStore_beside : Act.Commutes (withPending p) lockResultStore := by
  refine Act.Commutes.lift fun s => ?_
  cases h : s.resultStoreLock <;> simp only [withPending, h] <;> rfl

theorem unlockResultStore_beside : Act.Commutes (withPending p) unlockResultStore :=
  Act.Commutes.modify fun _ => rfl

theorem updateDataStore_beside {α : Type} (f : DataStore → Except Fault (α × DataStore)) :
    Act.Commutes (withPending p) (updateDataStore f) := by
  refine Act.Commutes.lift fun s => ?_
  simp only [withPending]
  cases f s.dataStore <;> rfl

theorem getPartData_beside (key : Int) : Act.Commutes (withPending p) (getPartData key) := by
  refine Act.Commutes.lift fun s => ?_
  simp only [withPending]
  cases s.dataStore.getPartData key <;> rfl

theorem sendResultPart_beside (dst : Int) (data : Bytes) (offset size : Nat) :
    Act.Commutes (withPending p) (sendResultPart dst data offset size) := by
  unfold sendResultPart
  by_cases h : toInt32 size < 0 ∨ data.length < offset + (toInt32 size).toNat
  · rw [if_pos h]
    exact Act.Commutes.fail _
  · rw [if_neg h]
    exact Act.Commutes.emit _

theorem fetchPart_beside (dst key : Int) (size ioffset iend : Nat) (part : VectorDistributionPart) :
    Act.Commutes (withPending p) (fetchPart dst key size ioffset iend part) := by
  refine Act.Commutes.get_bind (fun _ => rfl) fun s => ?_
  by_cases hsel : Selects s.pid part ioffset iend
  · simp only [if_pos hsel]
    refine lockResultStore_beside.bind fun _ => (getPartData_beside part.resid).bind fun r => ?_
    cases r.1 with
    | none => exact (Act.Commutes.fail _).bind fun _ => unlockResultStore_beside
    | some data =>
      dsimp only
      by_cases h : data.length < (subPart part ioffset iend).2
      · rw [if_pos h]
        exact (Act.Commutes.fail _).bind fun _ => unlockResultStore_beside
      · rw [if_neg h]
        exact (Act.Commutes.emit _).bind fun _ => unlockResultStore_beside
  · simp only [if_neg hsel]
    exact Act.Commutes.pure _

theorem fetchParts_beside (msg : FetchMessage) (dv : VectorDistribution) :
    Act.Commutes (withPending p) (fetchParts msg dv) :=
  Act.Commutes.forM fun _ _ => Act.Commutes.forM fun part _ => fetchPart_beside _ _ _ _ _ part

theorem fetchDv_beside (msg : FetchMessage) : Act.Commutes (withPending p) (fetchDv codec msg) := by
  refine isHead_beside.bind fun head => ?_
  cases head with
  | false => exact Act.Commutes.modify fun _ => rfl
  | true =>
    refine Act.Commutes.get_bind (fun _ => rfl) fun s => ?_
    refine Act.Commutes.bind (Act.Commutes.forM fun pid _ => Act.Commutes.emit _) fun _ => ?_
    refine Act.Commutes.get_bind (fun _ => rfl) fun s => ?_
    cases s.futureDataStore msg.reqFutureKey with
    | none => exact Act.Commutes.fail _
    | some dvFuture =>
      refine (Act.Commutes.emit _).bind fun _ => ?_
      cases codec.deserializeAll dvFuture with
      | none => exact Act.Commutes.fail _
      | some dv => exact (Act.Commutes.emit _).bind fun _ => fetchParts_beside msg dv

theorem checkFutureRequired_beside (key : Int) :
    Act.Commutes (withPending p) (checkFutureRequired codec key) := by
  refine Act.Commutes.get_bind (fun _ => rfl) fun s => ?_
  cases s.askedFetch key with
  | none => exact Act.Commutes.pure _
  | some msg => exact (fetchDv_beside msg).bind fun _ => Act.Commutes.modify fun _ => rfl

theorem servePending_beside (key : Int) (data : Bytes) (pids : Option (List Int)) :
    Act.Commutes (withPending p) (servePending key data pids) := by
  cases pids with
  | none => exact Act.Commutes.pure _
  | some pids =>
    exact Act.Commutes.bind (Act.Commutes.forM fun pid _ => Act.Commutes.emit _) fun _ =>
      Act.Commutes.modify fun _ => rfl

theorem removeIfAsked_beside (key : Int) : Act.Commutes (withPending p) (removeIfAsked key) := by
  refine Act.Commutes.get_bind (fun _ => rfl) fun s => ?_
  by_cases h : s.askedFutureDelete key = true
  · rw [if_pos h]
    exact Act.Commutes.modify fun _ => rfl
  · rw [if_neg h]
    exact Act.Commutes.pure _

theorem registerFuture_beside (key : Int) (data : Bytes) :
    Act.Commutes (withPending p) (registerFuture codec key data) := by
  refine Act.Commutes.get_bind (fun _ => rfl) fun s => ?_
  by_cases h : s.pendingFutureRequests key = none ∧ s.askedFutureDelete key = true
  · simp only [if_pos h]
    exact Act.Commutes.modify fun _ => rfl
  · simp only [if_neg h]
    refine Act.Commutes.bind (Act.Commutes.modify fun _ => rfl) fun _ => ?_
    exact (checkFutureRequired_beside key).bind fun _ =>
      (servePending_beside key data _).bind fun _ => removeIfAsked_beside key

theorem handleGetFutureData_beside (src key : Int) :
    Act.Commutes (withPending p) (handleGetFutureData src key) := by
  refine Act.Commutes.get_bind (fun _ => rfl) fun s => ?_
  cases s.futureDataStore key with
  | none => exact Act.Commutes.modify fun _ => rfl
  | some data => exact Act.Commutes.emit _

theorem handleReleaseFutureMessage_beside (key : Int) :
    Act.Commutes (withPending p) (handleReleaseFutureMessage key) := by
  refine Act.Commutes.get_bind (fun _ => rfl) fun s => ?_
  cases s.futureDataStore key with
  | none => exact Act.Commutes.modify fun _ => rfl
  | some data => exact Act.Commutes.modify fun _ => rfl

theorem handleFetchMessage_beside (msg : FetchMessage) :
    Act.Commutes (withPending p) (handleFetchMessage codec msg) := by
  refine isHead_beside.bind fun head => ?_
  cases head with
  | false => exact fetchDv_beside msg
  | true =>
    refine Act.Commutes.get_bind (fun _ => rfl) fun s => ?_
    cases s.futureDataStore msg.reqFutureKey with
    | some data => exact fetchDv_beside msg
    | none =>
      by_cases h : s.askedFetch msg.reqFutureKey = none
      · simp only [if_pos h]
        exact Act.Commutes.modify fun _ => rfl
      · simp only [if_neg h]
        exact Act.Commutes.fail _

theorem announcePrefetch_beside (src : Int) (msg : PrefetchMessage) :
    Act.Commutes (withPending p) (announcePrefetch src msg) := by
  refine takeKey_beside.bind fun key => (Act.Commutes.emit _).bind fun _ => ?_
  refine Act.Commutes.get_bind (fun _ => rfl) fun s => ?_
  cases s.pids with
  | nil => exact (Act.Commutes.fail _).bind fun _ => Act.Commutes.pure _
  | cons head slaves =>
    exact Act.Commutes.bind (Act.Commutes.forM fun pid _ => Act.Commutes.emit _) fun _ =>
      Act.Commutes.pure _

theorem preparePart_beside (msg : PrefetchMessage) :
    Act.Commutes (withPending p) (preparePart msg) := by
  refine getIntraActorComm_beside.bind fun comm => takeKey_beside.bind fun key => ?_
  refine lockResultStore_beside.bind fun _ => (updateDataStore_beside _).bind fun _ => ?_
  exact unlockResultStore_beside.bind fun _ => Act.Commutes.pure _

theorem handlePrefetchMessage_beside (src : Int) (msg : PrefetchMessage) :
    Act.Commutes (withPending p) (handlePrefetchMessage src msg) := by
  refine isHead_beside.bind fun head => ?_
  cases head with
  | false => exact (preparePart_beside msg).bind fun key => Act.Commutes.emit _
  | true =>
    exact (announcePrefetch_beside src msg).bind fun _ => (preparePart_beside msg).bind fun _ =>
      Act.Commutes.modify fun _ => rfl

theorem resumePrefetch_beside (prefetch : GatheringPrefetch) (keys : List Int) :
    Act.Commutes (withPending p) (resumePrefetch codec prefetch keys) := by
  refine Act.Commutes.bind (Act.Commutes.modify fun _ => rfl) fun _ => ?_
  refine getIntraActorComm_beside.bind fun comm => ?_
  refine Act.Commutes.get_bind (fun _ => rfl) fun s => ?_
  exact (Act.Commutes.emit _).bind fun _ => registerFuture_beside _ _

theorem handleReleaseResultPartMessage_beside (resId : Int) :
    Act.Commutes (withPending p) (handleReleaseResultPartMessage resId) :=
  lockResultStore_beside.bind fun _ => (updateDataStore_beside _).bind fun _ =>
    unlockResultStore_beside

theorem handleDistributeVectorMessage_beside (src : Int) (msg : DistributeVectorMessage) :
    Act.Commutes (withPending p) (handleDistributeVectorMessage src msg) :=
  Act.Commutes.get_bind (fun _ => rfl) fun _ =>
    Act.Commutes.bind (Act.Commutes.modify fun _ => rfl) fun _ => Act.Commutes.emit _

theorem handleCreateActorMessage_beside (src : Int) (msg : CreateActorMessage) :
    Act.Commutes (withPending p) (handleCreateActorMessage src msg) := by
  refine Act.Commutes.bind (Act.Commutes.modify fun _ => rfl) fun _ => ?_
  refine (Act.Commutes.emit _).bind fun _ => ?_
  cases msg.pids with
  | nil => exact Act.Commutes.fail _
  | cons head _ =>
    refine Act.Commutes.get_bind (fun _ => rfl) fun s => ?_
    by_cases h : s.pid = head
    · simp only [if_pos h]
      exact Act.Commutes.emit _
    · simp only [if_neg h]
      exact Act.Commutes.pure _

theorem useActorWorkerProxy_beside (o : Output) :
    Act.Commutes (withPending p) (useActorWorkerProxy o) := by
  refine Act.Commutes.get_bind (fun _ => rfl) fun s => ?_
  by_cases h : s.actorWorkerProxy = true
  · simp only [if_pos h]
    exact Act.Commutes.emit _
  · simp only [if_neg h]
    exact Act.Commutes.fail _

theorem handleCallActorMessage_beside (src : Int) (msg : CallActorMessage) :
    Act.Commutes (withPending p) (handleCallActorMessage src msg) :=
  takeKey_beside.bind fun _ => (useActorWorkerProxy_beside _).bind fun _ => Act.Commutes.emit _

theorem handleStopActorMessage_beside (src : Int) (askAnswer : Bool) :
    Act.Commutes (withPending p) (handleStopActorMessage src askAnswer) := by
  refine Act.Commutes.bind (Act.Commutes.modify fun _ => rfl) fun _ => ?_
  refine (useActorWorkerProxy_beside _).bind fun _ => ?_
  refine Act.Commutes.bind (Act.Commutes.modify fun _ => rfl) fun _ => ?_
  cases askAnswer with
  | false => exact Act.Commutes.pure _
  | true => exact Act.Commutes.emit _

theorem handleStopActorProcessMessage_beside :
    Act.Commutes (withPending p) handleStopActorProcessMessage := by
  refine Act.Commutes.bind (Act.Commutes.modify fun _ => rfl) fun _ => ?_
  refine Act.Commutes.get_bind (fun _ => rfl) fun s => ?_
  by_cases h : s.actorWorkerProxy = true
  · simp only [if_pos h]
    exact (Act.Commutes.emit _).bind fun _ => Act.Commutes.modify fun _ => rfl
  · simp only [if_neg h]
    exact Act.Commutes.pure _

/-- The input that records who waits, and those that look at the record. -/
def MeetsParked : Input → Prop
  | .message _ (.getResultParts _) => True
  | .message _ (.storeResult _) => True
  | .message _ (.storeResultPart _) => True
  | _ => False

/-- Every other input does the same whatever the record holds. -/
theorem step_beside {i : Input} (hi : ¬ MeetsParked i) :
    Act.Commutes (withPending p) (step codec i) := by
  refine Act.Commutes.get_bind (fun _ => rfl) fun s => ?_
  cases i with
  | message src msg =>
    cases s.phase with
    | receiving =>
      by_cases hq : s.qrun = true
      · simp only [if_pos hq]
        cases msg with
        | stop => exact handleStopActorProcessMessage_beside
        | createActor msg => exact handleCreateActorMessage_beside src msg
        | destroyActor ask => exact handleStopActorMessage_beside src ask
        | callActor msg => exact handleCallActorMessage_beside src msg
        | registerFutureData key data => exact registerFuture_beside key data
        | getFutureData key => exact handleGetFutureData_beside src key
        | releaseFuture key => exact handleReleaseFutureMessage_beside key
        | releaseResult resId => exact handleReleaseResultPartMessage_beside resId
        | distributeVector msg => exact handleDistributeVectorMessage_beside src msg
        | prefetch msg => exact handlePrefetchMessage_beside src msg
        | fetch msg => exact handleFetchMessage_beside msg
        | _ => exact absurd trivial hi
      · simp only [if_neg hq]
        exact Act.Commutes.fail _
    | gatheringKeys prefetch => exact Act.Commutes.fail _
    | awaitingVd msg => exact Act.Commutes.fail _
  | gatheredKeys keys =>
    cases s.phase with
    | gatheringKeys prefetch => exact resumePrefetch_beside prefetch keys
    | _ => exact Act.Commutes.fail _
  | broadcastVd dv =>
    cases s.phase with
    | awaitingVd msg =>
      exact Act.Commutes.bind (Act.Commutes.modify fun _ => rfl) fun _ => fetchParts_beside msg dv
    | _ => exact Act.Commutes.fail _
  | setIntraActorComm comm => exact Act.Commutes.modify fun _ => rfl
  | takeKey => exact takeKey_beside.bind fun key => Act.Commutes.emit _

/-- It leaves the record as it is. -/
theorem step_keeps_pending {i : Input} (hi : ¬ MeetsParked i) {s s' : ActorServer}
    {out : List Output} (h : step codec i s = (out, .ok ((), s'))) :
    s'.pendingResultRequests = s.pendingResultRequests := by
  have hsame : step codec i s = (out, .ok ((), withPending s.pendingResultRequests s')) :=
    (step_beside hi (p := s.pendingResultRequests)).of_ok h
  rw [h] at hsame
  have hs : s' = withPending s.pendingResultRequests s' :=
    congrArg Prod.snd (Except.ok.inj (congrArg Prod.snd hsame))
  exact (congrArg pendingResultRequests hs).trans rfl

end ActiveBsp.ActorServer
