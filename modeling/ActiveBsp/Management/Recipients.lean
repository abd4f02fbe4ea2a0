import ActiveBsp.Library.Emits
import ActiveBsp.Management.Specs

/-!
# To whom a manager sends

The messages that a handler sends to other managers all come from prefetches.
Who gets them can be read off the request and the state in which it is taken up:
the slaves, the owner of the future, and the processes of the prefetching actor
whose blocks meet a part that is kept here.
-/
namespace ActiveBsp.ActorServer

open Library Distributions.BlockDistribution

set_option autoImplicit false

def fetchers (pid : Int) (msg : FetchMessage) (dv : VectorDistribution) : List Int :=
  ((msg.pids.zip msg.keys).zipIdx.filter fun dst => dv.parts.any fun part =>
    Selects pid part (divRange msg.dvSize dst.2 msg.npids).1
      (divRange msg.dvSize dst.2 msg.npids).2).map fun dst => dst.1.1

/-- For a fetch that a head runs: its slaves, and those who get pieces. -/
def fetchRecipients (codec : Codec) (s : ActorServer) (msg : FetchMessage) : List Int :=
  match s.intraActorComm with
  | none => []
  | some comm =>
    if comm.pid = 0 then
      s.pids.tail ++ match (s.futureDataStore msg.reqFutureKey).bind codec.deserializeAll with
        | none => []
        | some dv => fetchers s.pid msg dv
    else []

/-- For a future that is registered: a fetch may wait for it. -/
def registerRecipients (codec : Codec) (s : ActorServer) (key : Int) (data : Bytes) : List Int :=
  if s.pendingFutureRequests key = none ∧ s.askedFutureDelete key = true then []
  else match s.askedFetch key with
    | none => []
    | some msg => fetchRecipients codec
        { s with futureDataStore := s.futureDataStore.set key data } msg

/-- The future that the head of a prefetching actor registers. -/
def prefetchedFuture (codec : Codec) (s : ActorServer) (prefetch : GatheringPrefetch)
    (keys : List Int) : Bytes :=
  codec.serializeAll (prefetchedDistribution (s.intraActorComm.elim 0 (·.nprocs))
    ⟨s.pids, prefetch.partKey :: keys, prefetch.msg.futureKey, prefetch.resFutureKey,
      prefetch.msg.dvSize⟩)

/-- The managers to which the handler of an input sends. -/
def recipients (codec : Codec) (s : ActorServer) : Input → List Int
  | .message _ (.prefetch _) => if s.intraActorComm.any (·.pid = 0) then s.pids.tail else []
  | .message _ (.fetch msg) =>
    if s.futureDataStore msg.reqFutureKey = none then [] else fetchRecipients codec s msg
  | .message _ (.registerFutureData key data) => registerRecipients codec s key data
  | .gatheredKeys keys =>
    match s.phase with
    | .gatheringKeys prefetch => prefetch.msg.futurePid ::
        registerRecipients codec s prefetch.resFutureKey (prefetchedFuture codec s prefetch keys)
    | _ => []
  | .broadcastVd dv =>
    match s.phase with
    | .awaitingVd msg => fetchers s.pid msg dv
    | _ => []
  | _ => []

/-- An output is a message to another manager only if that is one of these. -/
def GoesTo (dsts : List Int) (o : Output) : Prop :=
  ∀ dst msg, o = .actorMessage dst msg → dst ∈ dsts

variable {codec : Codec} {s : ActorServer} {dsts : List Int}

theorem goesTo_of_mem {dst : Int} (msg : ActorMessage) (h : dst ∈ dsts) :
    GoesTo dsts (.actorMessage dst msg) := by
  rintro _ _ ⟨⟩
  exact h

theorem goesTo_of_not_message {o : Output} (h : ∀ dst msg, o ≠ .actorMessage dst msg) :
    GoesTo dsts o := fun dst msg ho => absurd ho (h dst msg)

def SendsTo {α : Type} (dsts : List Int) (x : Handler α) : Prop :=
  Act.Emits (GoesTo dsts) (fun _ => True) x fun _ _ => True

section SendsTo

variable {α β : Type} {x : Handler α}

theorem SendsTo.bind {f : α → Handler β} (hx : SendsTo dsts x) (hf : ∀ a, SendsTo dsts (f a)) :
    SendsTo dsts (x >>= f) := Act.Emits.bind hx hf

theorem sendsTo_pure (a : α) : SendsTo dsts (pure a : Handler α) :=
  Act.Emits.pure fun _ _ => trivial

theorem sendsTo_get : SendsTo dsts (Act.get : Handler ActorServer) := by
  intro s _
  exact ⟨fun _ ho => (nomatch ho), fun _ _ _ => trivial⟩

theorem sendsTo_modify (g : ActorServer → ActorServer) :
    SendsTo dsts (Act.modify g : Handler Unit) := Act.Emits.modify fun _ _ => trivial

theorem sendsTo_lift (g : ActorServer → Except Fault (α × ActorServer)) :
    SendsTo dsts (Act.lift g : Handler α) := Act.Emits.lift fun _ _ _ _ _ => trivial

theorem sendsTo_fail (e : Fault) : SendsTo dsts (Act.fail e : Handler α) := Act.Emits.fail e

theorem sendsTo_emit {o : Output} (h : ∀ dst msg, o ≠ .actorMessage dst msg) :
    SendsTo dsts (Act.emit o : Handler Unit) :=
  Act.Emits.emit (goesTo_of_not_message h) fun _ _ => trivial

theorem sendsTo_forM {f : β → Handler PUnit} {xs : List β} (h : ∀ x ∈ xs, SendsTo dsts (f x)) :
    SendsTo dsts (xs.forM f) := Act.Emits.forM h

end SendsTo

theorem getIntraActorComm_sendsTo : SendsTo dsts getIntraActorComm := by
  refine sendsTo_get.bind fun s => ?_
  cases s.intraActorComm with
  | none => exact sendsTo_fail _
  | some comm => exact sendsTo_pure _

theorem sendResultPart_sendsTo (dst : Int) (data : Bytes) (offset size : Nat) :
    SendsTo dsts (sendResultPart dst data offset size) := by
  unfold sendResultPart
  dsimp only
  split_ifs
  · exact sendsTo_fail _
  · exact sendsTo_emit (by rintro _ _ ⟨⟩)

theorem answerParts_sendsTo (src forwardTo : Int) (parts : List ResultReqPart) :
    SendsTo dsts (answerParts src forwardTo parts) := by
  induction parts with
  | nil => exact sendsTo_pure _
  | cons part parts ih =>
    refine (sendsTo_lift _).bind fun r => ?_
    obtain ⟨data, dataSize⟩ := r
    cases data with
    | none => exact (sendsTo_modify _).bind fun _ => ih
    | some data =>
      dsimp only
      split_ifs
      · exact sendsTo_pure _
      · exact (sendResultPart_sendsTo _ _ _ _).bind fun _ => ih

theorem handleGetResultPartsMessage_sendsTo (src : Int) (msg : GetResultPartsMessage) :
    SendsTo dsts (handleGetResultPartsMessage src msg) := by
  refine (sendsTo_lift _).bind fun _ => (answerParts_sendsTo _ _ _).bind fun b => ?_
  cases b with
  | false => exact sendsTo_pure _
  | true => exact sendsTo_modify _

theorem checkDvPartRequired_sendsTo (key : Int) : SendsTo dsts (checkDvPartRequired key) := by
  refine sendsTo_get.bind fun s => ?_
  cases s.pendingResultRequests key with
  | none => exact sendsTo_pure _
  | some requests =>
    refine (sendsTo_lift _).bind fun _ => SendsTo.bind ?_ fun _ => sendsTo_modify _
    exact sendsTo_forM fun request _ =>
      (sendsTo_lift _).bind fun r => sendResultPart_sendsTo _ _ _ _

theorem handleStoreResultMessage_sendsTo (msg : StoreResultMessage) :
    SendsTo dsts (handleStoreResultMessage msg) :=
  (sendsTo_lift _).bind fun _ => (sendsTo_lift _).bind fun _ => (sendsTo_modify _).bind fun _ =>
    checkDvPartRequired_sendsTo _

theorem handleStoreResultPartMessage_sendsTo (msg : StoreResultPartMessage) :
    SendsTo dsts (handleStoreResultPartMessage msg) := by
  refine (sendsTo_lift _).bind fun _ => (sendsTo_lift _).bind fun remaining =>
    (sendsTo_modify _).bind fun _ => ?_
  split_ifs
  · exact checkDvPartRequired_sendsTo _
  · exact sendsTo_pure _

theorem useActorWorkerProxy_sendsTo {o : Output} (h : ∀ dst msg, o ≠ .actorMessage dst msg) :
    SendsTo dsts (useActorWorkerProxy o) := by
  refine sendsTo_get.bind fun s => ?_
  split_ifs
  · exact sendsTo_emit h
  · exact sendsTo_fail _

theorem handleCreateActorMessage_sendsTo (src : Int) (msg : CreateActorMessage) :
    SendsTo dsts (handleCreateActorMessage src msg) := by
  refine (sendsTo_modify _).bind fun _ => (sendsTo_emit (by rintro _ _ ⟨⟩)).bind fun _ => ?_
  cases msg.pids with
  | nil => exact sendsTo_fail _
  | cons head slaves =>
    refine sendsTo_get.bind fun s => ?_
    split_ifs
    · exact sendsTo_emit (by rintro _ _ ⟨⟩)
    · exact sendsTo_pure _

theorem handleStopActorMessage_sendsTo (src : Int) (askAnswer : Bool) :
    SendsTo dsts (handleStopActorMessage src askAnswer) := by
  refine (sendsTo_modify _).bind fun _ =>
    (useActorWorkerProxy_sendsTo (by rintro _ _ ⟨⟩)).bind fun _ =>
    (sendsTo_modify _).bind fun _ => ?_
  split_ifs
  · exact sendsTo_emit (by rintro _ _ ⟨⟩)
  · exact sendsTo_pure _

theorem handleStopActorProcessMessage_sendsTo : SendsTo dsts handleStopActorProcessMessage := by
  refine (sendsTo_modify _).bind fun _ => sendsTo_get.bind fun s => ?_
  split_ifs
  · exact (sendsTo_emit (by rintro _ _ ⟨⟩)).bind fun _ => sendsTo_modify _
  · exact sendsTo_pure _

theorem handleGetFutureData_sendsTo (src key : Int) :
    SendsTo dsts (handleGetFutureData src key) := by
  refine sendsTo_get.bind fun s => ?_
  cases s.futureDataStore key with
  | none => exact sendsTo_modify _
  | some data => exact sendsTo_emit (by rintro _ _ ⟨⟩)

theorem handleReleaseFutureMessage_sendsTo (key : Int) :
    SendsTo dsts (handleReleaseFutureMessage key) := by
  refine sendsTo_get.bind fun s => ?_
  cases s.futureDataStore key with
  | none => exact sendsTo_modify _
  | some data => exact sendsTo_modify _

theorem preparePart_sendsTo (msg : PrefetchMessage) : SendsTo dsts (preparePart msg) :=
  getIntraActorComm_sendsTo.bind fun _ => (sendsTo_lift _).bind fun _ =>
    (sendsTo_lift _).bind fun _ => (sendsTo_lift _).bind fun _ =>
    (sendsTo_modify _).bind fun _ => sendsTo_pure _

theorem handleReleaseResultPartMessage_sendsTo (resId : Int) :
    SendsTo dsts (handleReleaseResultPartMessage resId) :=
  (sendsTo_lift _).bind fun _ => (sendsTo_lift _).bind fun _ => sendsTo_modify _

theorem handleCallActorMessage_sendsTo (src : Int) (msg : CallActorMessage) :
    SendsTo dsts (handleCallActorMessage src msg) :=
  (sendsTo_lift _).bind fun _ => (useActorWorkerProxy_sendsTo (by rintro _ _ ⟨⟩)).bind fun _ =>
    sendsTo_emit (by rintro _ _ ⟨⟩)

theorem handleDistributeVectorMessage_sendsTo (src : Int) (msg : DistributeVectorMessage) :
    SendsTo dsts (handleDistributeVectorMessage src msg) :=
  sendsTo_get.bind fun _ => (sendsTo_modify _).bind fun _ => sendsTo_emit (by rintro _ _ ⟨⟩)

theorem servePending_sendsTo (key : Int) (data : Bytes) (pids : Option (List Int)) :
    SendsTo dsts (servePending key data pids) := by
  cases pids with
  | none => exact sendsTo_pure _
  | some pids =>
    refine SendsTo.bind ?_ fun _ => sendsTo_modify _
    exact sendsTo_forM fun pid _ => sendsTo_emit (by rintro _ _ ⟨⟩)

theorem removeIfAsked_sendsTo (key : Int) : SendsTo dsts (removeIfAsked key) := by
  refine sendsTo_get.bind fun s => ?_
  split_ifs
  · exact sendsTo_modify _
  · exact sendsTo_pure _

/-- The handler sends to these managers from a state of the process, whose number it keeps. -/
def SendsAt {α : Type} (dsts : List Int) (pid : Int) (x : Handler α) : Prop :=
  Act.Emits (GoesTo dsts) (fun s => s.pid = pid) x fun _ s => s.pid = pid

variable {pid : Int}

theorem SendsAt.bind {α β : Type} {x : Handler α} {f : α → Handler β} (hx : SendsAt dsts pid x)
    (hf : ∀ a, SendsAt dsts pid (f a)) : SendsAt dsts pid (x >>= f) := Act.Emits.bind hx hf

theorem sendsAt_fail {α : Type} (e : Fault) : SendsAt dsts pid (Act.fail e : Handler α) :=
  Act.Emits.fail e

theorem lockResultStore_sendsAt : SendsAt dsts pid lockResultStore := by
  refine Act.Emits.lift fun s a s' hs h => ?_
  split_ifs at h
  cases h
  exact hs

theorem getPartData_sendsAt (key : Int) : SendsAt dsts pid (getPartData key) := by
  refine Act.Emits.lift fun s a s' hs h => ?_
  cases hd : s.dataStore.getPartData key with
  | error e =>
    rw [hd] at h
    cases h
  | ok r =>
    rw [hd] at h
    cases h
    exact hs

theorem fetchPart_sendsAt {dst key : Int} {size ioffset iend : Nat} {part : VectorDistributionPart}
    (h : Selects pid part ioffset iend → dst ∈ dsts) :
    SendsAt dsts pid (fetchPart dst key size ioffset iend part) := by
  refine Act.Emits.get_bind fun s hs => ?_
  have hkeep : ∀ t : ActorServer, t = s → t.pid = pid := by
    rintro t rfl
    exact hs
  split_ifs with hsel
  · have hdst : dst ∈ dsts := h (hs ▸ hsel)
    refine (lockResultStore_sendsAt.pre hkeep).bind fun _ => ?_
    refine (getPartData_sendsAt _).bind fun r => ?_
    have hunlock : SendsAt dsts pid unlockResultStore := Act.Emits.modify fun _ h => h
    cases r.1 with
    | none => exact (sendsAt_fail _).bind fun _ => hunlock
    | some data =>
      dsimp only
      split_ifs
      · exact (sendsAt_fail _).bind fun _ => hunlock
      · exact Act.Emits.bind (Act.Emits.emit (goesTo_of_mem _ hdst) fun _ h => h) fun _ => hunlock
  · exact Act.Emits.pure hkeep

/-- Pieces go to those whose blocks meet a part that is kept here. -/
theorem fetchParts_sendsAt {msg : FetchMessage} {dv : VectorDistribution}
    (h : ∀ dst ∈ fetchers pid msg dv, dst ∈ dsts) : SendsAt dsts pid (fetchParts msg dv) := by
  refine Act.Emits.forM fun dst hdst => Act.Emits.forM fun part hpart => ?_
  refine fetchPart_sendsAt fun hsel => h _ (List.mem_map.mpr ⟨dst, ?_, rfl⟩)
  exact List.mem_filter.mpr ⟨hdst, List.any_eq_true.mpr ⟨part, hpart, decide_eq_true hsel⟩⟩

theorem getIntraActorComm_sends (s : ActorServer) :
    Act.Emits (GoesTo dsts) (· = s) getIntraActorComm fun comm t =>
      t = s ∧ s.intraActorComm = some comm := by
  rintro t rfl
  cases hcomm : t.intraActorComm with
  | none =>
    rw [getIntraActorComm_of_none hcomm]
    exact ⟨fun _ ho => (nomatch ho), fun _ _ h => nomatch h⟩
  | some comm =>
    rw [getIntraActorComm_of_some hcomm]
    refine ⟨fun _ ho => (nomatch ho), fun b t' h => ?_⟩
    cases h
    exact ⟨rfl, rfl⟩

theorem isHead_sends (s : ActorServer) :
    Act.Emits (GoesTo dsts) (· = s) isHead fun b t =>
      t = s ∧ ∃ comm, s.intraActorComm = some comm ∧ (b = true ↔ comm.pid = 0) := by
  rintro t rfl
  cases hcomm : t.intraActorComm with
  | none =>
    rw [isHead_of_none hcomm]
    exact ⟨fun _ ho => (nomatch ho), fun _ _ h => nomatch h⟩
  | some comm =>
    rw [isHead_of_some hcomm]
    refine ⟨fun _ ho => (nomatch ho), fun b t' h => ?_⟩
    cases h
    exact ⟨rfl, comm, rfl, beq_iff_eq⟩

theorem fetchRecipients_of_head {msg : FetchMessage} {s : ActorServer}
    {comm : IntraActorCommunicator} (hcomm : s.intraActorComm = some comm) (h0 : comm.pid = 0) :
    fetchRecipients codec s msg = s.pids.tail ++
      match (s.futureDataStore msg.reqFutureKey).bind codec.deserializeAll with
      | none => []
      | some dv => fetchers s.pid msg dv := by
  rw [fetchRecipients, hcomm]
  exact if_pos h0

theorem fetchDv_sends (codec : Codec) (msg : FetchMessage) (s : ActorServer) :
    Act.Emits (GoesTo (fetchRecipients codec s msg)) (· = s) (fetchDv codec msg)
      fun _ _ => True := by
  refine (isHead_sends s).bind fun b => ?_
  cases b with
  | false => exact Act.Emits.modify fun _ _ => trivial
  | true =>
    refine Act.Emits.get_bind ?_
    rintro t ⟨rfl, comm, hcomm, hhead⟩
    have hto : fetchRecipients codec t msg = t.pids.tail ++ _ :=
      fetchRecipients_of_head hcomm (hhead.mp rfl)
    have hslaves : Act.Emits (GoesTo (fetchRecipients codec t msg)) (· = t)
        (t.pids.tail.forM fun pid => Act.emit (.actorMessage pid (.fetch msg)) : Handler PUnit)
        fun _ s => s = t := by
      refine Act.Emits.forM fun pid hpid => Act.Emits.emit (goesTo_of_mem _ ?_) fun _ h => h
      rw [hto]
      exact List.mem_append_left _ hpid
    refine hslaves.bind fun _ => Act.Emits.get_bind ?_
    rintro t rfl
    cases hd : t.futureDataStore msg.reqFutureKey with
    | none => exact Act.Emits.fail _
    | some data =>
      refine Act.Emits.bind (Q := fun _ s => s = t)
        (Act.Emits.emit (goesTo_of_not_message (by rintro _ _ ⟨⟩)) fun _ h => h) fun _ => ?_
      cases hdv : codec.deserializeAll data with
      | none => exact Act.Emits.fail _
      | some dv =>
        refine Act.Emits.bind (Q := fun _ s => s = t)
          (Act.Emits.emit (goesTo_of_not_message (by rintro _ _ ⟨⟩)) fun _ h => h) fun _ => ?_
        have hparts : SendsAt (fetchRecipients codec t msg) t.pid (fetchParts msg dv) := by
          refine fetchParts_sendsAt fun dst hdst => ?_
          rw [hto, hd, Option.bind_some, hdv]
          exact List.mem_append_right _ hdst
        refine (hparts.pre ?_).post fun _ _ _ => trivial
        rintro _ rfl
        rfl

/-- A fetch that has waited for the future is run. -/
theorem registerFuture_sends (codec : Codec) (key : Int) (data : Bytes) (s : ActorServer) :
    Act.Emits (GoesTo (registerRecipients codec s key data)) (· = s)
      (registerFuture codec key data) fun _ _ => True := by
  refine Act.Emits.get_bind ?_
  rintro t rfl
  dsimp only
  by_cases hdelete : t.pendingFutureRequests key = none ∧ t.askedFutureDelete key = true
  · rw [if_pos hdelete]
    exact Act.Emits.modify fun _ _ => trivial
  · rw [if_neg hdelete, registerRecipients, if_neg hdelete]
    have hset : Act.Emits (GoesTo (match t.askedFetch key with
          | none => []
          | some msg => fetchRecipients codec
              { t with futureDataStore := t.futureDataStore.set key data } msg)) (· = t)
        (Act.modify fun s => { s with futureDataStore := s.futureDataStore.set key data } :
          Handler Unit)
        fun _ s => s = { t with futureDataStore := t.futureDataStore.set key data } := by
      apply Act.Emits.modify
      rintro _ rfl
      rfl
    refine hset.bind fun _ => Act.Emits.bind (Q := fun _ _ => True) ?_ fun _ =>
      (servePending_sendsTo _ _ _).bind fun _ => removeIfAsked_sendsTo _
    refine Act.Emits.get_bind ?_
    rintro _ rfl
    dsimp only
    cases t.askedFetch key with
    | none => exact Act.Emits.pure fun _ _ => trivial
    | some msg => exact (fetchDv_sends codec msg _).bind fun _ => sendsTo_modify _

theorem handleFetchMessage_sends (codec : Codec) (src : Int) (msg : FetchMessage)
    (s : ActorServer) :
    Act.Emits (GoesTo (recipients codec s (.message src (.fetch msg)))) (· = s)
      (handleFetchMessage codec msg) fun _ _ => True := by
  refine (isHead_sends s).bind fun b => ?_
  cases b with
  | false =>
    rintro t ⟨rfl, comm, hcomm, hhead⟩
    have hslave : comm.pid ≠ 0 := fun h0 => Bool.false_ne_true (hhead.mpr h0)
    rw [if_neg Bool.false_ne_true, fetchDv_of_slave hcomm hslave]
    exact ⟨fun _ ho => (nomatch ho), fun _ _ _ => trivial⟩
  | true =>
    refine Act.Emits.get_bind ?_
    rintro t ⟨rfl, -⟩
    cases hd : t.futureDataStore msg.reqFutureKey with
    | none =>
      dsimp only
      split_ifs
      · exact Act.Emits.modify fun _ _ => trivial
      · exact Act.Emits.fail _
    | some data =>
      rw [recipients, if_neg (by rw [hd]; exact Option.some_ne_none data)]
      exact fetchDv_sends codec msg t

theorem announcePrefetch_sends (src : Int) (msg : PrefetchMessage) (s : ActorServer) :
    Act.Emits (GoesTo s.pids.tail) (· = s) (announcePrefetch src msg) fun _ _ => True := by
  have htake : Act.Emits (GoesTo s.pids.tail) (· = s) takeKey fun _ t => t.pids = s.pids := by
    refine Act.Emits.lift ?_
    rintro _ _ _ rfl h
    cases h
    rfl
  refine htake.bind fun key => ?_
  refine Act.Emits.bind (Q := fun _ t => t.pids = s.pids)
    (Act.Emits.emit (goesTo_of_not_message (by rintro _ _ ⟨⟩)) fun _ h => h) fun _ => ?_
  refine Act.Emits.get_bind fun t ht => ?_
  rw [ht]
  cases s.pids with
  | nil => exact Act.Emits.bind (Q := fun _ _ => True) (Act.Emits.fail _) fun _ => sendsTo_pure _
  | cons head slaves =>
    refine Act.Emits.bind (Q := fun _ _ => True) ?_ fun _ => sendsTo_pure _
    refine Act.Emits.pre (P := fun _ => True) ?_ fun _ _ => trivial
    exact Act.Emits.forM fun pid hpid => Act.Emits.emit (goesTo_of_mem _ hpid) fun _ _ => trivial

theorem handlePrefetchMessage_sends (codec : Codec) (src : Int) (msg : PrefetchMessage)
    (s : ActorServer) :
    Act.Emits (GoesTo (recipients codec s (.message src (.prefetch msg)))) (· = s)
      (handlePrefetchMessage src msg) fun _ _ => True := by
  refine (isHead_sends s).bind fun b => ?_
  cases b with
  | false =>
    exact (((preparePart_sendsTo msg).bind fun _ => sendsTo_emit (by rintro _ _ ⟨⟩))).pre
      fun _ _ => trivial
  | true =>
    refine Act.Emits.intro ?_
    rintro t ⟨rfl, comm, hcomm, hhead⟩
    have hto : recipients codec t (.message src (.prefetch msg)) = t.pids.tail :=
      if_pos (by rw [hcomm]; exact decide_eq_true (hhead.mp rfl))
    rw [hto]
    exact (announcePrefetch_sends src msg t).bind fun _ => (preparePart_sendsTo msg).bind fun _ =>
      sendsTo_modify _

/-- The head asks the owner of the future, and registers its own. -/
theorem resumePrefetch_sends (codec : Codec) (prefetch : GatheringPrefetch) (keys : List Int)
    (s : ActorServer) :
    Act.Emits (GoesTo (prefetch.msg.futurePid ::
        registerRecipients codec s prefetch.resFutureKey (prefetchedFuture codec s prefetch keys)))
      (· = s) (resumePrefetch codec prefetch keys) fun _ _ => True := by
  have hphase : Act.Emits (GoesTo (prefetch.msg.futurePid ::
        registerRecipients codec s prefetch.resFutureKey (prefetchedFuture codec s prefetch keys)))
      (· = s) (Act.modify fun s => { s with phase := .receiving } : Handler Unit)
      fun _ t => t = { s with phase := .receiving } := by
    apply Act.Emits.modify
    rintro _ rfl
    rfl
  refine hphase.bind fun _ => (getIntraActorComm_sends _).bind fun comm => ?_
  refine Act.Emits.get_bind ?_
  rintro _ ⟨rfl, hcomm⟩
  refine Act.Emits.bind (Q := fun _ t => t = { s with phase := .receiving })
    (Act.Emits.emit (goesTo_of_mem _ List.mem_cons_self) fun _ h => h) fun _ => ?_
  have hfuture : prefetchedFuture codec s prefetch keys = codec.serializeAll
      (prefetchedDistribution comm.nprocs ⟨s.pids, prefetch.partKey :: keys,
        prefetch.msg.futureKey, prefetch.resFutureKey, prefetch.msg.dvSize⟩) := by
    have hsome : s.intraActorComm = some comm := hcomm
    rw [prefetchedFuture, hsome]
    rfl
  rw [hfuture]
  exact (registerFuture_sends codec _ _ _).weaken fun o ho dst msg h =>
    List.mem_cons_of_mem _ (ho dst msg h)

theorem routeHandleMessage_sends (codec : Codec) (src : Int) (msg : ActorMessage)
    (s : ActorServer) :
    Act.Emits (GoesTo (recipients codec s (.message src msg))) (· = s)
      (routeHandleMessage codec src msg) fun _ _ => True := by
  have hall : ∀ {x : Handler Unit}, SendsTo (recipients codec s (.message src msg)) x →
      Act.Emits (GoesTo (recipients codec s (.message src msg))) (· = s) x fun _ _ => True :=
    fun h => h.pre fun _ _ => trivial
  cases msg with
  | stop => exact hall handleStopActorProcessMessage_sendsTo
  | createActor msg => exact hall (handleCreateActorMessage_sendsTo src msg)
  | destroyActor askAnswer => exact hall (handleStopActorMessage_sendsTo src askAnswer)
  | callActor msg => exact hall (handleCallActorMessage_sendsTo src msg)
  | registerFutureData key data => exact registerFuture_sends codec key data s
  | getFutureData key => exact hall (handleGetFutureData_sendsTo src key)
  | releaseFuture key => exact hall (handleReleaseFutureMessage_sendsTo key)
  | storeResult msg => exact hall (handleStoreResultMessage_sendsTo msg)
  | storeResultPart msg => exact hall (handleStoreResultPartMessage_sendsTo msg)
  | releaseResult resId => exact hall (handleReleaseResultPartMessage_sendsTo resId)
  | getResultParts msg => exact hall (handleGetResultPartsMessage_sendsTo src msg)
  | distributeVector msg => exact hall (handleDistributeVectorMessage_sendsTo src msg)
  | prefetch msg => exact handlePrefetchMessage_sends codec src msg s
  | fetch msg => exact handleFetchMessage_sends codec src msg s

/-- Every message to a manager goes to one of those whom the request and the state name, also
where the handler stops with a fault. -/
theorem step_sends (codec : Codec) (i : Input) (s : ActorServer) :
    Act.Emits (GoesTo (recipients codec s i)) (· = s) (step codec i) fun _ _ => True := by
  refine Act.Emits.get_bind ?_
  rintro t rfl
  have hblocked : Act.Emits (GoesTo (recipients codec t i)) (· = t)
      (Act.fail .blocked : Handler Unit) fun _ _ => True := Act.Emits.fail _
  cases i with
  | message src msg =>
    cases hp : t.phase with
    | receiving =>
      dsimp only
      split_ifs
      · exact routeHandleMessage_sends codec src msg t
      · exact hblocked
    | gatheringKeys prefetch => exact hblocked
    | awaitingVd msg => exact hblocked
  | gatheredKeys keys =>
    cases hp : t.phase with
    | gatheringKeys prefetch =>
      rw [recipients, hp]
      exact resumePrefetch_sends codec prefetch keys t
    | receiving => exact hblocked
    | awaitingVd msg => exact hblocked
  | broadcastVd dv =>
    cases hp : t.phase with
    | awaitingVd msg =>
      rw [recipients, hp]
      have hparts : SendsAt (fetchers t.pid msg dv) t.pid (fetchParts msg dv) :=
        fetchParts_sendsAt fun _ h => h
      refine Act.Emits.bind (Q := fun _ s => s.pid = t.pid) (Act.Emits.modify ?_) fun _ =>
        hparts.post fun _ _ _ => trivial
      rintro _ rfl
      rfl
    | receiving => exact hblocked
    | gatheringKeys prefetch => exact hblocked
  | setIntraActorComm comm => exact Act.Emits.modify fun _ _ => trivial
  | takeKey =>
    have htake : SendsTo (recipients codec t .takeKey) takeKey := sendsTo_lift _
    exact (htake.bind fun _ => sendsTo_emit (by rintro _ _ ⟨⟩)).pre fun _ _ => trivial

end ActiveBsp.ActorServer
