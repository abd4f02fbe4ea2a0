import ActiveBsp.Library.Triple
import ActiveBsp.Management.Frames
import ActiveBsp.Mpi.MPIActorCommunicator
import ActiveBsp.Serialization.RoundTrip

/-!
# The lock of the result store

Every handler takes `_result_store_lock` and gives it back by hand, and so does
the worker's read through shared memory. One path does not: a request for parts
that one of the parts refuses returns from inside the loop.
-/
namespace ActiveBsp.ActorServer

open Library Library.Buffer Library.MachineInt

set_option autoImplicit false

/-- `readStoredResult` of the worker thread: while it waits for the part, `pthread_cond_wait`
gives the lock back. -/
def readStoredResult (buf : Bytes) (dst : Nat) (key offset size : Int) : Handler Bytes := do
  lockResultStore
  let buf ← Act.lift fun s =>
    (MPIActorCommunicator.readStoredResult s.dataStore buf dst key offset size).map fun b => (b, s)
  unlockResultStore
  return buf

def Free (s : ActorServer) : Prop := s.resultStoreLock = false

instance (s : ActorServer) : Decidable (Free s) := inferInstanceAs (Decidable (_ = _))

/-- From a free lock the handler does not wait for itself, and where it returns the lock is
free again. -/
abbrev Releases {α : Type} (x : Handler α) : Prop :=
  Act.Triple (· ≠ Fault.deadlock) Free x fun _ => Free

/-- Between lock and unlock the handler takes no lock. -/
structure LocksNothing {α : Type} (x : Handler α) : Prop where
  triple : Act.Triple (· ≠ Fault.deadlock) (fun _ => True) x fun _ _ => True

/-- The computation does not fail for want of a lock. -/
def Spares {α : Type} (x : Except Fault α) : Prop := x ≠ .error .deadlock

theorem spares_ok {α : Type} (a : α) : Spares (.ok a : Except Fault α) := fun h => by cases h

theorem spares_assert (site : Assertion) (cond : Prop) [Decidable cond] :
    Spares (assert site cond) := by
  unfold assert
  split_ifs <;> intro h <;> cases h

theorem Spares.bind {α β : Type} {x : Except Fault α} {f : α → Except Fault β} (hx : Spares x)
    (hf : ∀ a, Spares (f a)) : Spares (x >>= f) := by
  cases x with
  | error e => exact fun h => hx (congrArg Except.error (Except.error.inj h))
  | ok a => exact hf a

theorem Spares.map {α β : Type} {x : Except Fault α} (hx : Spares x) (f : α → β) :
    Spares (x.map f) := by
  cases x with
  | error e => exact fun h => hx (congrArg Except.error (Except.error.inj h))
  | ok a => exact spares_ok _

theorem findDataBuf_spares (ds : DataStore) (key : Int) : Spares (ds.findDataBuf key) := by
  unfold DataStore.findDataBuf
  split
  · intro h
    cases h
  · split
    · split <;> intro h <;> cases h
    · split <;> intro h <;> cases h

theorem getPartData_spares (ds : DataStore) (key : Int) : Spares (ds.getPartData key) := by
  unfold DataStore.getPartData
  split
  · exact spares_ok _
  · split_ifs
    · exact spares_ok _
    · exact (findDataBuf_spares ds key).bind fun _ => spares_ok _

theorem storePartMessage_spares (ds : DataStore) (key : Int) (msg : StoreResultMessage) :
    Spares (ds.storePartMessage key msg) :=
  (spares_assert _ _).bind fun _ => spares_ok _

theorem preparePartVector_spares (ds : DataStore) (key : Int) (size : Nat) :
    Spares (ds.preparePartVector key size) :=
  (spares_assert _ _).bind fun _ => (spares_assert _ _).bind fun _ => spares_ok _

theorem writeDataBuf_spares (ds : DataStore) (key : Int) (part : DvPart) (buf data : Bytes)
    (offset : Nat) : Spares (ds.writeDataBuf key part buf data offset) := by
  unfold DataStore.writeDataBuf
  split_ifs
  · intro h
    cases h
  · split <;> exact spares_ok _

theorem addData_spares (ds : DataStore) (key : Int) (data : Bytes) (offset : Nat) :
    Spares (ds.addData key data offset) := by
  unfold DataStore.addData
  split
  · intro h
    cases h
  · refine (findDataBuf_spares ds key).bind fun buf => ?_
    cases buf with
    | none =>
      intro h
      cases h
    | some buf =>
      exact (spares_assert _ _).bind fun _ => (spares_assert _ _).bind fun _ =>
        (writeDataBuf_spares ds key _ buf data offset).bind fun _ => spares_ok _

theorem removePart_spares (ds : DataStore) (key : Int) : Spares (ds.removePart key) := by
  unfold DataStore.removePart
  split
  · intro h
    cases h
  · split <;> exact (spares_assert _ _).bind fun _ => spares_ok _

theorem releases_pure {α : Type} (a : α) : Releases (pure a : Handler α) :=
  Act.Triple.pure fun _ h => h

theorem releases_fail {α : Type} {e : Fault} (he : e ≠ .deadlock) :
    Releases (Act.fail e : Handler α) := Act.Triple.fail fun _ _ => he

theorem releases_get : Releases (Act.get : Handler ActorServer) := Act.Triple.get fun _ h => h

theorem releases_emit (o : Output) : Releases (Act.emit o) := Act.Triple.emit fun _ h => h

theorem releases_modify {g : ActorServer → ActorServer}
    (hg : ∀ s, (g s).resultStoreLock = s.resultStoreLock) : Releases (Act.modify g) :=
  Act.Triple.modify_apply fun s h => (hg s).trans h

theorem Releases.bind {α β : Type} {x : Handler α} {f : α → Handler β} (hx : Releases x)
    (hf : ∀ a, Releases (f a)) : Releases (x >>= f) := Act.Triple.bind hx hf

theorem lock_spares : Act.Triple (· ≠ Fault.deadlock) Free lockResultStore fun _ _ => True := by
  refine Act.Triple.lift fun s hs => ?_
  rw [if_neg (by rw [show s.resultStoreLock = false from hs]; decide)]
  trivial

theorem unlock_frees :
    Act.Triple (· ≠ Fault.deadlock) (fun _ => True) unlockResultStore fun _ => Free :=
  Act.Triple.modify_apply fun _ _ => rfl

theorem locksNothing_fail {α : Type} {e : Fault} (he : e ≠ .deadlock) :
    LocksNothing (Act.fail e : Handler α) := ⟨Act.Triple.fail fun _ _ => he⟩

theorem locksNothing_emit (o : Output) : LocksNothing (Act.emit o) :=
  ⟨Act.Triple.emit fun _ h => h⟩

theorem LocksNothing.bind {α β : Type} {x : Handler α} {f : α → Handler β} (hx : LocksNothing x)
    (hf : ∀ a, LocksNothing (f a)) : LocksNothing (x >>= f) :=
  ⟨hx.triple.bind fun a => (hf a).triple⟩

theorem LocksNothing.forM {β : Type} {f : β → Handler PUnit} {xs : List β}
    (h : ∀ x ∈ xs, LocksNothing (f x)) : LocksNothing (xs.forM f) :=
  ⟨Act.Triple.forM fun x hx => (h x hx).triple⟩

/-- Lock, work, unlock. -/
theorem LocksNothing.releases {α β : Type} {x : Handler α} {f : α → Handler β}
    (hx : LocksNothing x) (hf : ∀ a, Releases (f a)) :
    Releases (lockResultStore >>= fun _ => x >>= fun a => unlockResultStore >>= fun _ => f a) :=
  lock_spares.bind fun _ => hx.triple.bind fun a => unlock_frees.bind fun _ => hf a

theorem locksNothing_update {α : Type} {f : DataStore → Except Fault (α × DataStore)}
    (hf : ∀ ds, Spares (f ds)) : LocksNothing (updateDataStore f) := by
  refine ⟨Act.Triple.lift fun s _ => ?_⟩
  have hs := hf s.dataStore
  cases h : f s.dataStore with
  | error e => exact fun he => hs (by rw [h, he])
  | ok r => trivial

theorem locksNothing_getPartData (key : Int) : LocksNothing (getPartData key) := by
  refine ⟨Act.Triple.lift fun s _ => ?_⟩
  have hs := getPartData_spares s.dataStore key
  cases h : s.dataStore.getPartData key with
  | error e => exact fun he => hs (by rw [h, he])
  | ok r => trivial

theorem locksNothing_sendResultPart (dst : Int) (data : Bytes) (offset size : Nat) :
    LocksNothing (sendResultPart dst data offset size) := by
  unfold sendResultPart
  by_cases h : toInt32 size < 0 ∨ data.length < offset + (toInt32 size).toNat
  · rw [if_pos h]
    exact locksNothing_fail fun h => by cases h
  · rw [if_neg h]
    exact locksNothing_emit _

theorem readStoredResult_spares (ds : DataStore) (buf : Bytes) (dst : Nat)
    (key offset size : Int) :
    Spares (MPIActorCommunicator.readStoredResult ds buf dst key offset size) := by
  unfold MPIActorCommunicator.readStoredResult
  refine (getPartData_spares ds key).bind fun r => ?_
  obtain ⟨data, dataSize⟩ := r
  cases data with
  | none =>
    intro h
    cases h
  | some data =>
    dsimp only
    split_ifs
    · exact spares_ok _
    · intro h
      cases h
    · exact spares_ok _

/-- The worker's read gives the lock back in every case, the refused one included. -/
theorem readStoredResult_releases (buf : Bytes) (dst : Nat) (key offset size : Int) :
    Releases (readStoredResult buf dst key offset size) := by
  refine LocksNothing.releases ⟨Act.Triple.lift fun s _ => ?_⟩ fun b => releases_pure b
  have hs := readStoredResult_spares s.dataStore buf dst key offset size
  cases h : MPIActorCommunicator.readStoredResult s.dataStore buf dst key offset size with
  | error e => exact fun he => hs (by rw [h, he])
  | ok r => trivial

variable {codec : Codec}

theorem takeKey_releases : Releases takeKey := Act.Triple.lift fun _ h => h

theorem getIntraActorComm_releases : Releases getIntraActorComm := by
  refine releases_get.bind fun s => ?_
  cases s.intraActorComm with
  | none => exact releases_fail fun h => by cases h
  | some comm => exact releases_pure comm

theorem isHead_releases : Releases isHead :=
  getIntraActorComm_releases.bind fun _ => releases_pure _

theorem fetchPart_releases (dst key : Int) (size ioffset iend : Nat)
    (part : VectorDistributionPart) : Releases (fetchPart dst key size ioffset iend part) := by
  refine releases_get.bind fun s => ?_
  split_ifs
  · refine lock_spares.bind fun _ => ?_
    refine (locksNothing_getPartData part.resid).triple.bind fun r => ?_
    cases r.1 with
    | none => exact Act.Triple.fail fun _ _ h => by cases h
    | some data =>
      dsimp only
      by_cases h : data.length < (subPart part ioffset iend).2
      · rw [if_pos h]
        exact Act.Triple.fail fun _ _ h => by cases h
      · rw [if_neg h]
        exact Act.Triple.bind (Q := fun _ _ => True) (Act.Triple.emit fun _ h => h)
          fun _ => unlock_frees
  · exact releases_pure _

theorem fetchParts_releases (msg : FetchMessage) (dv : VectorDistribution) :
    Releases (fetchParts msg dv) :=
  Act.Triple.forM fun _ _ => Act.Triple.forM fun part _ => fetchPart_releases _ _ _ _ _ part

theorem fetchDv_releases (msg : FetchMessage) : Releases (fetchDv codec msg) := by
  refine isHead_releases.bind fun head => ?_
  cases head with
  | false => exact releases_modify fun _ => rfl
  | true =>
    refine releases_get.bind fun s => ?_
    refine Releases.bind (Act.Triple.forM fun pid _ => releases_emit _) fun _ => ?_
    refine releases_get.bind fun s => ?_
    cases s.futureDataStore msg.reqFutureKey with
    | none => exact releases_fail fun h => by cases h
    | some dvFuture =>
      refine (releases_emit _).bind fun _ => ?_
      cases codec.deserializeAll dvFuture with
      | none => exact releases_fail fun h => by cases h
      | some dv => exact (releases_emit _).bind fun _ => fetchParts_releases msg dv

theorem registerFuture_releases (key : Int) (data : Bytes) :
    Releases (registerFuture codec key data) := by
  refine releases_get.bind fun s => ?_
  by_cases h : s.pendingFutureRequests key = none ∧ s.askedFutureDelete key = true
  · simp only [if_pos h]
    exact releases_modify fun _ => rfl
  · simp only [if_neg h]
    refine Releases.bind (releases_modify fun _ => rfl) fun _ => ?_
    refine Releases.bind ?_ fun _ => Releases.bind ?_ fun _ => ?_
    · refine releases_get.bind fun s => ?_
      cases s.askedFetch key with
      | none => exact releases_pure _
      | some msg => exact (fetchDv_releases msg).bind fun _ => releases_modify fun _ => rfl
    · cases s.pendingFutureRequests key with
      | none => exact releases_pure _
      | some pids =>
        exact Releases.bind (Act.Triple.forM fun pid _ => releases_emit _) fun _ =>
          releases_modify fun _ => rfl
    · refine releases_get.bind fun s => ?_
      by_cases hd : s.askedFutureDelete key = true
      · rw [if_pos hd]
        exact releases_modify fun _ => rfl
      · rw [if_neg hd]
        exact releases_pure _

theorem handleFetchMessage_releases (msg : FetchMessage) :
    Releases (handleFetchMessage codec msg) := by
  refine isHead_releases.bind fun head => ?_
  cases head with
  | false => exact fetchDv_releases msg
  | true =>
    refine releases_get.bind fun s => ?_
    cases s.futureDataStore msg.reqFutureKey with
    | some data => exact fetchDv_releases msg
    | none =>
      by_cases h : s.askedFetch msg.reqFutureKey = none
      · simp only [if_pos h]
        exact releases_modify fun _ => rfl
      · simp only [if_neg h]
        exact releases_fail fun h => by cases h

theorem resumePrefetch_releases (prefetch : GatheringPrefetch) (keys : List Int) :
    Releases (resumePrefetch codec prefetch keys) := by
  refine Releases.bind (releases_modify fun _ => rfl) fun _ => ?_
  refine getIntraActorComm_releases.bind fun comm => releases_get.bind fun s => ?_
  exact (releases_emit _).bind fun _ => registerFuture_releases _ _

theorem locksNothing_answerParked (key : Int) (request : PendingResultRequest) :
    LocksNothing (answerParked key request) := by
  unfold answerParked
  exact (locksNothing_getPartData key).bind fun r => locksNothing_sendResultPart _ _ _ _

/-- The requests that waited are answered between one lock and one unlock. -/
theorem checkDvPartRequired_releases (key : Int) : Releases (checkDvPartRequired key) := by
  refine releases_get.bind fun s => ?_
  cases s.pendingResultRequests key with
  | none => exact releases_pure _
  | some requests =>
    exact lock_spares.bind fun _ => Act.Triple.bind
      (LocksNothing.forM fun request _ => locksNothing_answerParked key request).triple
      fun _ => unlock_frees

theorem useActorWorkerProxy_releases (o : Output) : Releases (useActorWorkerProxy o) := by
  refine releases_get.bind fun s => ?_
  by_cases hp : s.actorWorkerProxy = true
  · rw [if_pos hp]
    exact releases_emit o
  · rw [if_neg hp]
    exact releases_fail fun h => by cases h

theorem handleStoreResultMessage_releases (msg : StoreResultMessage) :
    Releases (handleStoreResultMessage msg) := by
  refine (locksNothing_update fun ds => ?_).releases fun _ => checkDvPartRequired_releases msg.resId
  exact (storePartMessage_spares ds msg.resId msg).map _

theorem handleStoreResultPartMessage_releases (msg : StoreResultPartMessage) :
    Releases (handleStoreResultPartMessage msg) := by
  refine (locksNothing_update fun ds => addData_spares ds _ _ _).releases fun remaining => ?_
  by_cases h : remaining = 0
  · rw [if_pos h]
    exact checkDvPartRequired_releases _
  · rw [if_neg h]
    exact releases_pure _

theorem handleReleaseResultPartMessage_releases (resId : Int) :
    Releases (handleReleaseResultPartMessage resId) := by
  have hwork : LocksNothing (updateDataStore fun ds => (ds.removePart resId).map fun ds => ((), ds)) :=
    locksNothing_update fun ds => (removePart_spares ds resId).map _
  exact lock_spares.bind fun _ => hwork.triple.bind fun _ => unlock_frees

theorem preparePart_releases (msg : PrefetchMessage) : Releases (preparePart msg) := by
  refine getIntraActorComm_releases.bind fun comm => takeKey_releases.bind fun key => ?_
  refine (locksNothing_update fun ds => ?_).releases fun _ => releases_pure key
  exact (preparePartVector_spares ds _ _).map _

theorem handlePrefetchMessage_releases (src : Int) (msg : PrefetchMessage) :
    Releases (handlePrefetchMessage src msg) := by
  refine isHead_releases.bind fun head => ?_
  cases head with
  | false => exact (preparePart_releases msg).bind fun key => releases_emit _
  | true =>
    refine Releases.bind (takeKey_releases.bind fun resFutureKey => ?_) fun resFutureKey =>
      (preparePart_releases msg).bind fun key => releases_modify fun _ => rfl
    refine (releases_emit _).bind fun _ => releases_get.bind fun s => ?_
    cases s.pids with
    | nil => exact Releases.bind (releases_fail fun h => by cases h) fun _ => releases_pure _
    | cons head slaves =>
      exact Releases.bind (Act.Triple.forM fun pid _ => releases_emit _) fun _ =>
        releases_pure _

def IsGetResultParts : Input → Prop
  | .message _ (.getResultParts _) => True
  | _ => False

theorem answerParts_locksNothing (src forwardTo : Int) :
    ∀ parts : List ResultReqPart, LocksNothing (answerParts src forwardTo parts)
  | [] => ⟨Act.Triple.pure fun _ h => h⟩
  | part :: parts => by
    refine (locksNothing_getPartData part.resid).bind fun r => ?_
    obtain ⟨data, dataSize⟩ := r
    cases data with
    | none =>
      exact LocksNothing.bind ⟨Act.Triple.modify_apply fun _ h => h⟩
        fun _ => answerParts_locksNothing src forwardTo parts
    | some data =>
      by_cases h : dataSize < add64 part.offset part.size
      · simp only [if_pos h]
        exact ⟨Act.Triple.pure fun _ h => h⟩
      · simp only [if_neg h]
        exact (locksNothing_sendResultPart _ _ _ _).bind
          fun _ => answerParts_locksNothing src forwardTo parts

/-- Every handler but one gives the lock back. -/
theorem step_releases {i : Input} (hi : ¬ IsGetResultParts i) : Releases (step codec i) := by
  refine releases_get.bind fun s => ?_
  cases i with
  | message src msg =>
    cases s.phase with
    | receiving =>
      by_cases hq : s.qrun = true
      · simp only [if_pos hq]
        cases msg with
        | stop =>
          refine Releases.bind (releases_modify fun _ => rfl) fun _ => releases_get.bind fun s => ?_
          by_cases hp : s.actorWorkerProxy = true
          · rw [if_pos hp]
            exact (releases_emit _).bind fun _ => releases_modify fun _ => rfl
          · rw [if_neg hp]
            exact releases_pure _
        | createActor msg =>
          refine Releases.bind (releases_modify fun _ => rfl) fun _ => ?_
          refine (releases_emit _).bind fun _ => ?_
          cases msg.pids with
          | nil => exact releases_fail fun h => by cases h
          | cons head _ =>
            refine releases_get.bind fun s => ?_
            by_cases hp : s.pid = head
            · rw [if_pos hp]
              exact releases_emit _
            · rw [if_neg hp]
              exact releases_pure _
        | destroyActor ask =>
          refine Releases.bind (releases_modify fun _ => rfl) fun _ => ?_
          refine (useActorWorkerProxy_releases _).bind fun _ => ?_
          refine Releases.bind (releases_modify fun _ => rfl) fun _ => ?_
          cases ask with
          | false => exact releases_pure _
          | true => exact releases_emit _
        | callActor msg =>
          exact takeKey_releases.bind fun key => (useActorWorkerProxy_releases _).bind
            fun _ => releases_emit _
        | registerFutureData key data => exact registerFuture_releases key data
        | getFutureData key =>
          refine releases_get.bind fun s => ?_
          cases s.futureDataStore key with
          | none => exact releases_modify fun _ => rfl
          | some data => exact releases_emit _
        | releaseFuture key =>
          refine releases_get.bind fun s => ?_
          cases s.futureDataStore key with
          | none => exact releases_modify fun _ => rfl
          | some data => exact releases_modify fun _ => rfl
        | storeResult msg => exact handleStoreResultMessage_releases msg
        | storeResultPart msg => exact handleStoreResultPartMessage_releases msg
        | releaseResult resId => exact handleReleaseResultPartMessage_releases resId
        | getResultParts msg => exact absurd trivial hi
        | distributeVector msg =>
          exact releases_get.bind fun s => Releases.bind (releases_modify fun _ => rfl)
            fun _ => releases_emit _
        | prefetch msg => exact handlePrefetchMessage_releases src msg
        | fetch msg => exact handleFetchMessage_releases msg
      · simp only [if_neg hq]
        exact releases_fail fun h => by cases h
    | gatheringKeys prefetch => exact releases_fail fun h => by cases h
    | awaitingVd msg => exact releases_fail fun h => by cases h
  | gatheredKeys keys =>
    cases s.phase with
    | gatheringKeys prefetch => exact resumePrefetch_releases prefetch keys
    | _ => exact releases_fail fun h => by cases h
  | broadcastVd dv =>
    cases s.phase with
    | awaitingVd msg =>
      exact Releases.bind (releases_modify fun _ => rfl) fun _ => fetchParts_releases msg dv
    | _ => exact releases_fail fun h => by cases h
  | setIntraActorComm comm => exact releases_modify fun _ => rfl
  | takeKey => exact takeKey_releases.bind fun key => releases_emit _

/-- A send that the part cannot serve: the count is negative, or the bytes are not all there. -/
def Unsendable (data : Bytes) (offset size : Nat) : Prop :=
  toInt32 size < 0 ∨ data.length < offset + (toInt32 size).toNat

instance (data : Bytes) (offset size : Nat) : Decidable (Unsendable data offset size) :=
  inferInstanceAs (Decidable (_ ∨ _))

/-- The request waits, or passes the test of the loop and the send. -/
def Passes (ds : DataStore) (part : ResultReqPart) : Prop :=
  match ds.getPartData part.resid with
  | .error _ => False
  | .ok (none, _) => True
  | .ok (some data, dataSize) => ¬ dataSize < add64 part.offset part.size ∧
      ¬ Unsendable data part.offset part.size

variable {s s' : ActorServer} {out : List Output} {src forwardTo : Int}

theorem sendResultPart_eq (dst : Int) (data : Bytes) (offset size : Nat) :
    sendResultPart dst data offset size s =
      if Unsendable data offset size then ([], .error .undefined)
      else ([.resultPart dst (slice data offset (toInt32 size).toNat)], .ok ((), s)) := by
  unfold sendResultPart
  by_cases h : Unsendable data offset size
  · rw [if_pos h]
    exact congrFun (if_pos h) s
  · rw [if_neg h]
    exact congrFun (if_neg h) s

theorem sendResultPart_keeps {dst : Int} {data : Bytes} {offset size : Nat} {u : Unit}
    (h : sendResultPart dst data offset size s = (out, .ok (u, s'))) : s' = s := by
  rw [sendResultPart_eq] at h
  split_ifs at h
  · cases h
  · cases h
    rfl

/-- The loop runs to its end exactly when all requests pass, and then it has only parked. -/
theorem answerParts_ok_iff {parts : List ResultReqPart} :
    (∃ out s', answerParts src forwardTo parts s = (out, .ok (true, s'))) ↔
      ∀ part ∈ parts, Passes s.dataStore part := by
  induction parts generalizing s with
  | nil => exact iff_of_true ⟨[], s, rfl⟩ (by simp)
  | cons part parts ih =>
    rw [List.forall_mem_cons]
    unfold answerParts
    cases hget : s.dataStore.getPartData part.resid with
    | error e =>
      have hg : getPartData part.resid s = ([], .error e) := by
        simp only [getPartData, Act.lift_apply, hget]
        rfl
      rw [Act.bind_of_error hg]
      refine iff_of_false ?_ fun h => ?_
      · rintro ⟨out, s', h⟩
        cases h
      · have hp := h.1
        rw [Passes, hget] at hp
        exact hp
    | ok r =>
      have hg : getPartData part.resid s = ([], .ok (r, s)) := by
        simp only [getPartData, Act.lift_apply, hget]
        rfl
      rw [Act.bind_of_ok hg]
      obtain ⟨data, dataSize⟩ := r
      cases data with
      | none =>
        have hp : Passes s.dataStore part := by
          rw [Passes, hget]
          trivial
        simp only [Act.modify_bind]
        rw [and_iff_right hp]
        exact ih
      | some data =>
        have hpass : Passes s.dataStore part ↔ ¬ dataSize < add64 part.offset part.size ∧
            ¬ Unsendable data part.offset part.size := by
          rw [Passes, hget]
        rw [hpass]
        dsimp only
        by_cases htest : dataSize < add64 part.offset part.size
        · rw [if_pos htest]
          refine iff_of_false ?_ fun h => h.1.1 htest
          rintro ⟨out, s', h⟩
          cases h
        · rw [if_neg htest]
          by_cases hsend : Unsendable data part.offset part.size
          · have hfail : sendResultPart forwardTo data part.offset part.size s =
                ([], .error .undefined) := (sendResultPart_eq _ _ _ _).trans (if_pos hsend)
            rw [Act.bind_of_error hfail]
            refine iff_of_false ?_ fun h => h.1.2 hsend
            rintro ⟨out, s', h⟩
            cases h
          · have hok : sendResultPart forwardTo data part.offset part.size s =
                ([.resultPart forwardTo (slice data part.offset (toInt32 part.size).toNat)],
                  .ok ((), s)) := (sendResultPart_eq _ _ _ _).trans (if_neg hsend)
            rw [Act.bind_of_ok hok, ← ih, and_iff_right ⟨htest, hsend⟩]
            constructor
            · rintro ⟨out, s', h⟩
              exact ⟨_, s', Prod.ext rfl (Prod.mk.inj h).2⟩
            · rintro ⟨out, s', h⟩
              exact ⟨_, s', by rw [h]⟩

/-- The loop leaves everything but the parked requests alone. -/
theorem answerParts_keeps (parts : List ResultReqPart) :
    Act.Guarantees (Act.Keeps (fun s : ActorServer => { s with pendingResultRequests := .empty })
      fun _ => True) (answerParts src forwardTo parts) := by
  induction parts with
  | nil => exact Act.keeps_pure _
  | cons part parts ih =>
    refine Act.Guarantees.keeps_bind (Act.keeps_lift fun s a s' h => ?_) fun r => ?_
    · cases hget : s.dataStore.getPartData part.resid with
      | error e =>
        rw [hget] at h
        cases h
      | ok r =>
        rw [hget] at h
        cases h
        rfl
    · obtain ⟨data, dataSize⟩ := r
      cases data with
      | none => exact Act.Guarantees.keeps_bind (Act.keeps_modify fun _ => rfl) fun _ => ih
      | some data =>
        by_cases htest : dataSize < add64 part.offset part.size
        · simp only [if_pos htest]
          exact Act.keeps_pure _
        · simp only [if_neg htest]
          refine Act.Guarantees.keeps_bind ?_ fun _ => ih
          unfold sendResultPart
          by_cases h : toInt32 part.size < 0 ∨
              data.length < part.offset + (toInt32 part.size).toNat
          · rw [if_pos h]
            exact Act.keeps_fail _
          · rw [if_neg h]
            exact Act.keeps_emit trivial

theorem handleGetResultPartsMessage_spares (src : Int) (msg : GetResultPartsMessage) :
    Act.Triple (· ≠ Fault.deadlock) Free (handleGetResultPartsMessage src msg)
      fun _ _ => True := by
  refine lock_spares.bind fun _ => ?_
  refine (answerParts_locksNothing _ _ _).triple.bind fun answered => ?_
  cases answered with
  | true => exact Act.Triple.modify_apply fun _ h => h
  | false => exact Act.Triple.pure fun _ h => h

theorem step_spares (i : Input) :
    Act.Triple (· ≠ Fault.deadlock) Free (step codec i) fun _ _ => True := by
  by_cases hi : IsGetResultParts i
  · rcases i with ⟨src, msg⟩ | _ | _ | _ | _
    · cases msg with
      | getResultParts msg =>
        refine Act.Triple.bind (Q := fun _ => Free) (Act.Triple.get fun _ h => h) fun s => ?_
        cases s.phase with
        | receiving =>
          by_cases hq : s.qrun = true
          · simp only [if_pos hq]
            exact handleGetResultPartsMessage_spares src msg
          · simp only [if_neg hq]
            exact Act.Triple.fail fun _ _ h => by cases h
        | gatheringKeys prefetch => exact Act.Triple.fail fun _ _ h => by cases h
        | awaitingVd msg => exact Act.Triple.fail fun _ _ h => by cases h
      | _ => exact hi.elim
    all_goals exact hi.elim
  · exact (step_releases hi).post fun _ _ _ => trivial

theorem ne_deadlock_of_spares {α : Type} {x : Handler α} {Q : α → ActorServer → Prop}
    (hx : Act.Triple (· ≠ Fault.deadlock) Free x Q) (hs : Free s) : (x s).2 ≠ .error .deadlock := by
  intro h
  have hrun := hx s hs
  rw [h] at hrun
  exact hrun rfl

end ActiveBsp.ActorServer
