import ActiveBsp.Management.Futures
import ActiveBsp.Future.PartTable

/-!
# What a handler can do

One inversion for each handler that returns: how it changed the state, what it
sent, and what it checked on the way. Invariants and frame conditions are read
off these, and no later proof opens a handler again.
-/
namespace ActiveBsp.ActorServer

open Library Library.Buffer Library.MachineInt Distributions.BlockDistribution

set_option autoImplicit false

variable {codec : Codec} {s s' : ActorServer} {out : List Output}

theorem lockResultStore_of_free (h : s.resultStoreLock = false) :
    lockResultStore s = ([], .ok ((), { s with resultStoreLock := true })) := by
  simp [lockResultStore, h]

theorem lockResultStore_of_held (h : s.resultStoreLock = true) :
    lockResultStore s = ([], .error .deadlock) := by
  simp [lockResultStore, h]

theorem unlocked (h : s.resultStoreLock = false) : { s with resultStoreLock := false } = s := by
  cases s
  cases h
  rfl

/-- What a locked access makes of the store, or the fault it stops at. -/
theorem locked_update {α β : Type} {f : DataStore → Except Fault (α × DataStore)}
    {g : α → Handler β} (h : s.resultStoreLock = false) :
    (do lockResultStore
        let a ← updateDataStore f
        unlockResultStore
        g a) s =
      match f s.dataStore with
      | .ok (a, ds) => g a { s with dataStore := ds }
      | .error e => ([], .error e) := by
  rw [Act.bind_of_ok (lockResultStore_of_free h)]
  cases hf : f s.dataStore with
  | error e =>
    have hu : updateDataStore f { s with resultStoreLock := true } = ([], .error e) := by
      simp only [updateDataStore, Act.lift_apply, hf]
      rfl
    rw [Act.bind_of_error hu]
    rfl
  | ok r =>
    have hu : updateDataStore f { s with resultStoreLock := true } =
        ([], .ok (r.1, { s with resultStoreLock := true, dataStore := r.2 })) := by
      simp only [updateDataStore, Act.lift_apply, hf]
      rfl
    have hs : ({ s with resultStoreLock := false, dataStore := r.2 } : ActorServer) =
        { s with dataStore := r.2 } := by
      rw [← h]
    rw [Act.bind_of_ok hu, unlockResultStore, Act.modify_bind]
    simp only [hs, List.nil_append]

theorem locked_update_of_held {α β : Type} {f : DataStore → Except Fault (α × DataStore)}
    {g : α → Handler β} (h : s.resultStoreLock = true) :
    (do lockResultStore
        let a ← updateDataStore f
        unlockResultStore
        g a) s = ([], .error .deadlock) :=
  Act.bind_of_error (lockResultStore_of_held h) _

theorem locked_update_last {f : DataStore → Except Fault (Unit × DataStore)}
    (h : s.resultStoreLock = false) :
    (do lockResultStore
        updateDataStore f
        unlockResultStore) s =
      match f s.dataStore with
      | .ok (_, ds) => ([], .ok ((), { s with dataStore := ds }))
      | .error e => ([], .error e) := by
  have hlast : (do lockResultStore
                   updateDataStore f
                   unlockResultStore) s =
      (do lockResultStore
          let _ ← updateDataStore f
          unlockResultStore
          pure () : Handler Unit) s := by
    rw [Act.bind_of_ok (lockResultStore_of_free h), Act.bind_of_ok (lockResultStore_of_free h)]
    rfl
  rw [hlast, locked_update h]
  cases f s.dataStore <;> rfl

/-- A handler that took the lock and returned had found it free. -/
theorem free_of_locked {α : Type} {f : Unit → Handler α} {r : α × ActorServer}
    (h : (lockResultStore >>= f) s = (out, .ok r)) : s.resultStoreLock = false := by
  by_contra hheld
  rw [Act.bind_of_error (lockResultStore_of_held (by simpa using hheld))] at h
  cases h

theorem locked_inv {α : Type} {f : Unit → Handler α} {r : α × ActorServer}
    (h : (lockResultStore >>= f) s = (out, .ok r)) :
    s.resultStoreLock = false ∧ f () { s with resultStoreLock := true } = (out, .ok r) := by
  have hl := free_of_locked h
  rw [Act.bind_of_ok (lockResultStore_of_free hl), List.nil_append] at h
  exact ⟨hl, h⟩

variable {t : PartTable}

theorem getPartData_eq (h : s.dataStore.Represents t) (key : Int) :
    getPartData key s = ([], .ok (t.get key, s)) := by
  simp only [getPartData, Act.lift_apply, DataStore.getPartData_of_represents h]
  rfl

/-- The message that `fetchPart` sends for a part, if any. -/
def piece (t : PartTable) (pid dst key : Int) (size ioffset iend : Nat)
    (part : VectorDistributionPart) : List Output :=
  if Selects pid part ioffset iend then
    [.actorMessage dst (.storeResultPart
      ⟨key, ((t.available part.resid).getD []).take (subPart part ioffset iend).2, 0, size⟩)]
  else []

/-- A part that is selected is there, with as many bytes as are asked for. -/
def Servable (t : PartTable) (pid : Int) (ioffset iend : Nat) (part : VectorDistributionPart) :
    Prop :=
  Selects pid part ioffset iend →
    ∃ data, t.available part.resid = some data ∧ (subPart part ioffset iend).2 ≤ data.length

section FetchPart

variable {dst key : Int} {size ioffset iend : Nat} {part : VectorDistributionPart}

theorem fetchPart_of_not_selects (h : ¬ Selects s.pid part ioffset iend) :
    fetchPart dst key size ioffset iend part s = ([], .ok ((), s)) := by
  simp only [fetchPart, Act.get_bind, if_neg h]
  rfl

theorem fetchPart_of_selects (hs : Selects s.pid part ioffset iend)
    (hl : s.resultStoreLock = false) (ht : s.dataStore.Represents t) :
    fetchPart dst key size ioffset iend part s =
      match t.available part.resid with
      | none => ([], .error (.assertion .fetchDv))
      | some data =>
        if data.length < (subPart part ioffset iend).2 then ([], .error .undefined)
        else (piece t s.pid dst key size ioffset iend part, .ok ((), s)) := by
  have ht' : DataStore.Represents ({ s with resultStoreLock := true } : ActorServer).dataStore t := ht
  simp only [fetchPart, Act.get_bind, if_pos hs]
  rw [Act.bind_of_ok (lockResultStore_of_free hl), Act.bind_of_ok (getPartData_eq ht' _)]
  simp only [piece, if_pos hs, PartTable.available]
  cases (t.get part.resid).1 with
  | none => rfl
  | some data =>
    by_cases hlen : data.length < (subPart part ioffset iend).2
    · simp only [if_pos hlen]
      rfl
    · simp only [if_neg hlen, Act.emit_bind, unlockResultStore, Act.modify_apply, Option.getD_some]
      rw [unlocked hl]
      rfl

theorem fetchPart_of_servable (h : Servable t s.pid ioffset iend part)
    (hl : s.resultStoreLock = false) (ht : s.dataStore.Represents t) :
    fetchPart dst key size ioffset iend part s =
      (piece t s.pid dst key size ioffset iend part, .ok ((), s)) := by
  by_cases hs : Selects s.pid part ioffset iend
  · obtain ⟨data, hdata, hlen⟩ := h hs
    rw [fetchPart_of_selects hs hl ht, hdata]
    simp only [if_neg (Nat.not_lt.mpr hlen)]
  · rw [fetchPart_of_not_selects hs, piece, if_neg hs]

end FetchPart

/-- The message is a piece of a prefetched part. -/
def IsPiece (o : Output) : Prop := ∃ dst msg, o = .actorMessage dst (.storeResultPart msg)

/-- Only pieces were sent, and nothing changed. -/
def OnlyPieces (s : ActorServer) (out : List Output) (s' : ActorServer) : Prop :=
  s' = s ∧ ∀ o ∈ out, IsPiece o

theorem onlyPieces_composes : Act.Composes OnlyPieces where
  nil _ := ⟨rfl, by simp⟩
  append h₁ h₂ := by
    obtain ⟨rfl, h₁⟩ := h₁
    obtain ⟨rfl, h₂⟩ := h₂
    refine ⟨rfl, fun o ho => ?_⟩
    rcases List.mem_append.mp ho with ho | ho
    · exact h₁ o ho
    · exact h₂ o ho

theorem fetchPart_onlyPieces (dst key : Int) (size ioffset iend : Nat)
    (part : VectorDistributionPart) :
    Act.Guarantees OnlyPieces (fetchPart dst key size ioffset iend part) := by
  intro s out a s' h
  by_cases hs : Selects s.pid part ioffset iend
  · simp only [fetchPart, Act.get_bind, if_pos hs] at h
    have hl := free_of_locked h
    rw [Act.bind_of_ok (lockResultStore_of_free hl)] at h
    cases hdata : s.dataStore.getPartData part.resid with
    | error e =>
      have hg : getPartData part.resid { s with resultStoreLock := true } = ([], .error e) := by
        simp only [getPartData, Act.lift_apply, hdata]
        rfl
      rw [Act.bind_of_error hg] at h
      cases h
    | ok r =>
      have hg : getPartData part.resid { s with resultStoreLock := true } =
          ([], .ok (r, { s with resultStoreLock := true })) := by
        simp only [getPartData, Act.lift_apply, hdata]
        rfl
      rw [Act.bind_of_ok hg] at h
      cases hr : r.1 with
      | none =>
        rw [hr] at h
        cases h
      | some data =>
        rw [hr] at h
        by_cases hlen : data.length < (subPart part ioffset iend).2
        · simp only [if_pos hlen] at h
          cases h
        · simp only [if_neg hlen, Act.emit_bind, unlockResultStore, Act.modify_apply] at h
          cases h
          exact ⟨unlocked hl, by simp [IsPiece]⟩
  · rw [fetchPart_of_not_selects hs] at h
    cases h
    exact ⟨rfl, by simp⟩

theorem fetchParts_onlyPieces (msg : FetchMessage) (dv : VectorDistribution) :
    Act.Guarantees OnlyPieces (fetchParts msg dv) :=
  Act.Guarantees.forM onlyPieces_composes fun _ _ =>
    Act.Guarantees.forM onlyPieces_composes fun part _ => fetchPart_onlyPieces _ _ _ _ _ part

/-- The pieces that process `pid` sends for one range of a destination actor. -/
def rangePieces (t : PartTable) (pid : Int) (msg : FetchMessage) (dv : VectorDistribution)
    (i : Nat) (dst key : Int) : List Output :=
  let range := divRange msg.dvSize i msg.npids
  dv.parts.flatMap (piece t pid dst key msg.dvSize range.1 range.2)

/-- All the pieces that process `pid` sends for a fetch. -/
def pieces (t : PartTable) (pid : Int) (msg : FetchMessage) (dv : VectorDistribution) :
    List Output :=
  (msg.pids.zip msg.keys).zipIdx.flatMap fun dst => rangePieces t pid msg dv dst.2 dst.1.1 dst.1.2

/-- Every part that the fetch selects at process `pid` can be sent. -/
def AllServable (t : PartTable) (pid : Int) (msg : FetchMessage) (dv : VectorDistribution) : Prop :=
  ∀ i < msg.npids, ∀ part ∈ dv.parts,
    Servable t pid (divRange msg.dvSize i msg.npids).1 (divRange msg.dvSize i msg.npids).2 part

/-- The parts that the loops of a fetch visit are there; they stop at the shorter list. -/
def VisitedServable (t : PartTable) (pid : Int) (msg : FetchMessage) (dv : VectorDistribution) :
    Prop :=
  ∀ i < (msg.pids.zip msg.keys).length, ∀ part ∈ dv.parts,
    Servable t pid (divRange msg.dvSize i msg.npids).1 (divRange msg.dvSize i msg.npids).2 part

theorem AllServable.visited {pid : Int} {msg : FetchMessage} {dv : VectorDistribution}
    (h : AllServable t pid msg dv) : VisitedServable t pid msg dv := by
  intro i hi
  apply h
  rw [List.length_zip] at hi
  exact lt_of_lt_of_le hi (Nat.min_le_left _ _)

theorem fetchParts_of_visited {msg : FetchMessage} {dv : VectorDistribution}
    (h : VisitedServable t s.pid msg dv) (hl : s.resultStoreLock = false)
    (ht : s.dataStore.Represents t) :
    fetchParts msg dv s = (pieces t s.pid msg dv, .ok ((), s)) := by
  apply Act.forM_emitting
  intro dst hdst
  apply Act.forM_emitting
  intro part hpart
  have hi : dst.2 < (msg.pids.zip msg.keys).length := by
    have := List.mem_zipIdx hdst
    omega
  exact fetchPart_of_servable (h dst.2 hi part hpart) hl ht

theorem fetchParts_of_servable {msg : FetchMessage} {dv : VectorDistribution}
    (h : AllServable t s.pid msg dv) (hl : s.resultStoreLock = false)
    (ht : s.dataStore.Represents t) :
    fetchParts msg dv s = (pieces t s.pid msg dv, .ok ((), s)) :=
  fetchParts_of_visited h.visited hl ht

theorem getIntraActorComm_of_some {comm : IntraActorCommunicator}
    (h : s.intraActorComm = some comm) : getIntraActorComm s = ([], .ok (comm, s)) := by
  simp only [getIntraActorComm, Act.get_bind, h]
  rfl

theorem getIntraActorComm_of_none (h : s.intraActorComm = none) :
    getIntraActorComm s = ([], .error .undefined) := by
  simp only [getIntraActorComm, Act.get_bind, h]
  rfl

theorem isHead_of_some {comm : IntraActorCommunicator} (h : s.intraActorComm = some comm) :
    isHead s = ([], .ok (comm.pid == 0, s)) := by
  unfold isHead
  rw [Act.bind_of_ok (getIntraActorComm_of_some h)]
  rfl

theorem isHead_of_none (h : s.intraActorComm = none) : isHead s = ([], .error .undefined) := by
  unfold isHead
  rw [Act.bind_of_error (getIntraActorComm_of_none h)]

/-- The process runs the head of its actor. -/
def Head (s : ActorServer) : Prop := ∃ comm, s.intraActorComm = some comm ∧ comm.pid = 0

theorem isHead_of_head (h : Head s) : isHead s = ([], .ok (true, s)) := by
  obtain ⟨comm, hc, h0⟩ := h
  rw [isHead_of_some hc, h0]
  rfl

/-- The head's announcement of a fetch to its slaves, and the mark of the run. -/
def fetchAnnouncement (s : ActorServer) (msg : FetchMessage) (dvFuture : Bytes) : List Output :=
  s.pids.tail.map (fun pid => .actorMessage pid (.fetch msg)) ++ [.fetchDv msg dvFuture]

/-- At the head a run of `fetchDv` is its announcement, its broadcast and its pieces. -/
theorem fetchDv_of_head {msg : FetchMessage} {dvFuture : Bytes} (hh : Head s)
    (hd : s.futureDataStore msg.reqFutureKey = some dvFuture) :
    fetchDv codec msg s =
      match codec.deserializeAll dvFuture with
      | none => (fetchAnnouncement s msg dvFuture, .error .exception)
      | some dv => (fetchAnnouncement s msg dvFuture ++ .broadcastVd dv :: (fetchParts msg dv s).1,
          (fetchParts msg dv s).2) := by
  unfold fetchDv
  rw [Act.bind_of_ok (isHead_of_head hh)]
  simp only [if_true, Act.get_bind]
  rw [Act.bind_of_ok (Act.forM_emit _ s.pids.tail s)]
  simp only [Act.get_bind, hd, Act.emit_bind, fetchAnnouncement]
  cases codec.deserializeAll dvFuture with
  | none => simp
  | some dv => simp

theorem fetchDv_of_head_none {msg : FetchMessage} (hh : Head s)
    (hd : s.futureDataStore msg.reqFutureKey = none) :
    ∃ out, fetchDv codec msg s = (out, .error .undefined) := by
  unfold fetchDv
  rw [Act.bind_of_ok (isHead_of_head hh)]
  simp only [if_true, Act.get_bind]
  rw [Act.bind_of_ok (Act.forM_emit _ s.pids.tail s)]
  simp only [Act.get_bind, hd]
  exact ⟨_, rfl⟩

/-- A run of `fetchDv` at the head that returns has read the future, and changed nothing. -/
theorem fetchDv_head_inv {msg : FetchMessage} (hh : Head s)
    (h : fetchDv codec msg s = (out, .ok ((), s'))) :
    ∃ dvFuture dv sent, s.futureDataStore msg.reqFutureKey = some dvFuture ∧
      codec.deserializeAll dvFuture = some dv ∧ s' = s ∧
      out = fetchAnnouncement s msg dvFuture ++ .broadcastVd dv :: sent ∧
      ∀ o ∈ sent, IsPiece o := by
  cases hd : s.futureDataStore msg.reqFutureKey with
  | none =>
    obtain ⟨out', hbad⟩ : ∃ out', fetchDv codec msg s = (out', .error .undefined) :=
      fetchDv_of_head_none hh hd
    rw [hbad] at h
    cases h
  | some dvFuture =>
    rw [fetchDv_of_head hh hd] at h
    cases hdv : codec.deserializeAll dvFuture with
    | none =>
      rw [hdv] at h
      cases h
    | some dv =>
      rw [hdv] at h
      obtain ⟨hout, hres⟩ := Prod.mk.inj h
      obtain ⟨hs, hpieces⟩ := fetchParts_onlyPieces msg dv s _ () s' (Prod.ext rfl hres)
      exact ⟨dvFuture, dv, _, rfl, hdv, hs, hout.symm, hpieces⟩

theorem fetchDv_of_slave {msg : FetchMessage} {comm : IntraActorCommunicator}
    (hc : s.intraActorComm = some comm) (h0 : comm.pid ≠ 0) :
    fetchDv codec msg s = ([], .ok ((), { s with phase := .awaitingVd msg })) := by
  unfold fetchDv
  rw [Act.bind_of_ok (isHead_of_some hc), beq_false_of_ne h0]
  rfl

theorem handleFetchMessage_of_stored {msg : FetchMessage} {data : Bytes} (hh : Head s)
    (hd : s.futureDataStore msg.reqFutureKey = some data) :
    handleFetchMessage codec msg s = fetchDv codec msg s := by
  unfold handleFetchMessage
  rw [Act.bind_of_ok (isHead_of_head hh)]
  simp only [if_true, Act.get_bind, hd, List.nil_append]

theorem handleFetchMessage_waits {msg : FetchMessage} (hh : Head s)
    (hd : s.futureDataStore msg.reqFutureKey = none) (hf : s.askedFetch msg.reqFutureKey = none) :
    handleFetchMessage codec msg s =
      ([], .ok ((), { s with askedFetch := s.askedFetch.set msg.reqFutureKey msg })) := by
  unfold handleFetchMessage
  rw [Act.bind_of_ok (isHead_of_head hh)]
  simp only [if_true, Act.get_bind, hd, hf]
  rfl

/-- The insertion is asserted to be new. -/
theorem handleFetchMessage_fails {msg msg' : FetchMessage} (hh : Head s)
    (hd : s.futureDataStore msg.reqFutureKey = none)
    (hf : s.askedFetch msg.reqFutureKey = some msg') :
    handleFetchMessage codec msg s = ([], .error (.assertion .handleFetchMessage)) := by
  unfold handleFetchMessage
  rw [Act.bind_of_ok (isHead_of_head hh)]
  simp only [if_true, Act.get_bind, hd, hf]
  rfl

/-- A registered future that had to be fetched for someone is fetched first. -/
theorem checkFutureRequired_inv {key : Int} (h : checkFutureRequired codec key s = (out, .ok ((), s'))) :
    (s.askedFetch key = none ∧ out = [] ∧ s' = s) ∨
      ∃ msg s₁, s.askedFetch key = some msg ∧ fetchDv codec msg s = (out, .ok ((), s₁)) ∧
        s' = { s₁ with askedFetch := s₁.askedFetch.erase key } := by
  cases hf : s.askedFetch key with
  | none =>
    rw [checkFutureRequired_of_none hf] at h
    cases h
    exact .inl ⟨rfl, rfl, rfl⟩
  | some msg =>
    right
    simp only [checkFutureRequired, Act.get_bind, hf] at h
    obtain ⟨out₁, _, s₁, out₂, h₁, h₂, rfl⟩ := Act.bind_ok_inv h
    cases h₂
    exact ⟨msg, s₁, rfl, by simpa using h₁, rfl⟩

/-- At the head a registration forgets the data, or runs the waiting fetch and serves the
waiting readers. -/
theorem registerFuture_head_inv {key : Int} {data : Bytes} (hh : Head s)
    (h : registerFuture codec key data s = (out, .ok ((), s'))) :
    ((s.pendingFutureRequests key = none ∧ s.askedFutureDelete key = true) ∧ out = [] ∧
      s' = { s with askedFutureDelete := Function.update s.askedFutureDelete key false }) ∨
    (¬ (s.pendingFutureRequests key = none ∧ s.askedFutureDelete key = true) ∧
      s' = s.registered key data ∧
      ∃ fetched, out = fetched ++
          ((s.pendingFutureRequests key).getD []).map (fun pid => .futureData pid data) ∧
        ((s.askedFetch key = none ∧ fetched = []) ∨
          ∃ msg, s.askedFetch key = some msg ∧
            fetchDv codec msg { s with futureDataStore := s.futureDataStore.set key data } =
              (fetched, .ok ((), { s with futureDataStore := s.futureDataStore.set key data })))) := by
  by_cases hn : s.pendingFutureRequests key = none ∧ s.askedFutureDelete key = true
  · rw [registerFuture_forgets hn.1 hn.2] at h
    cases h
    exact .inl ⟨hn, rfl, rfl⟩
  · right
    refine ⟨hn, ?_⟩
    unfold registerFuture at h
    rw [Act.get_bind, if_neg hn, Act.modify_bind] at h
    obtain ⟨out₁, _, s₁, out₂, h₁, h₂, rfl⟩ := Act.bind_ok_inv h
    rcases checkFutureRequired_inv h₁ with ⟨hf, rfl, rfl⟩ | ⟨msg, s₂, hf, hfetch, rfl⟩
    · rw [Act.bind_of_ok (servePending_eq (by rfl)), removeIfAsked_eq] at h₂
      cases h₂
      refine ⟨?_, [], by simp, .inl ⟨hf, rfl⟩⟩
      have he := PartialMap.erase_of_none hf
      simp only [registered, PartialMap.erase_set, he]
    · obtain ⟨_, _, _, _, _, rfl, _, _⟩ := fetchDv_head_inv (by exact hh) hfetch
      rw [Act.bind_of_ok (servePending_eq (by rfl)), removeIfAsked_eq] at h₂
      cases h₂
      refine ⟨?_, out₁, by simp, .inr ⟨msg, hf, hfetch⟩⟩
      simp only [registered, PartialMap.erase_set]

/-- What messages that create and stop actors leave alone. -/
def lifecycleCore (s : ActorServer) : ActorServer :=
  { s with pids := [], actorWorkerProxy := false, qrun := true }

def IsLifecycle : Output → Prop
  | .responseCode .. | .startActor .. | .stopActor => True
  | _ => False

abbrev OnLifecycle (x : Handler Unit) : Prop :=
  Act.Guarantees (Act.Keeps lifecycleCore IsLifecycle) x

theorem handleCreateActorMessage_onLifecycle (src : Int) (msg : CreateActorMessage) :
    OnLifecycle (handleCreateActorMessage src msg) := by
  refine Act.Guarantees.keeps_bind (Act.keeps_modify fun _ => rfl) fun _ => ?_
  refine Act.Guarantees.keeps_bind (Act.keeps_emit trivial) fun _ => ?_
  cases msg.pids with
  | nil => exact Act.keeps_fail _
  | cons head _ =>
    refine Act.keeps_get.keeps_bind fun s => ?_
    by_cases hp : s.pid = head
    · rw [if_pos hp]
      exact Act.keeps_emit trivial
    · rw [if_neg hp]
      exact Act.keeps_pure _

theorem stopActor_onLifecycle : OnLifecycle (useActorWorkerProxy .stopActor) := by
  refine Act.keeps_get.keeps_bind fun s => ?_
  by_cases hp : s.actorWorkerProxy = true
  · rw [if_pos hp]
    exact Act.keeps_emit trivial
  · rw [if_neg hp]
    exact Act.keeps_fail _

theorem handleStopActorMessage_onLifecycle (src : Int) (askAnswer : Bool) :
    OnLifecycle (handleStopActorMessage src askAnswer) := by
  refine Act.Guarantees.keeps_bind (Act.keeps_modify fun _ => rfl) fun _ => ?_
  refine stopActor_onLifecycle.keeps_bind fun _ => ?_
  refine Act.Guarantees.keeps_bind (Act.keeps_modify fun _ => rfl) fun _ => ?_
  cases askAnswer with
  | true => exact Act.keeps_emit trivial
  | false => exact Act.keeps_pure _

theorem handleStopActorProcessMessage_onLifecycle : OnLifecycle handleStopActorProcessMessage := by
  refine Act.Guarantees.keeps_bind (Act.keeps_modify fun _ => rfl) fun _ => ?_
  refine Act.keeps_get.keeps_bind fun s => ?_
  by_cases hp : s.actorWorkerProxy = true
  · rw [if_pos hp]
    exact Act.Guarantees.keeps_bind (Act.keeps_emit trivial) fun _ => Act.keeps_modify fun _ => rfl
  · rw [if_neg hp]
    exact Act.keeps_pure _

/-- What the handlers of results leave alone. -/
def resultsCore (s : ActorServer) : ActorServer :=
  { s with
    resultStoreLock := false
    dataStore := .empty
    pendingResultRequests := .empty }

def IsResult : Output → Prop
  | .resultPart .. => True
  | _ => False

abbrev OnResults {α : Type} (x : Handler α) : Prop :=
  Act.Guarantees (Act.Keeps resultsCore IsResult) x

theorem lockResultStore_onResults : OnResults lockResultStore := by
  refine Act.keeps_lift fun s a s' h => ?_
  by_cases hl : s.resultStoreLock = true
  · rw [if_pos hl] at h
    cases h
  · rw [if_neg hl] at h
    cases h
    rfl

theorem unlockResultStore_onResults : OnResults unlockResultStore :=
  Act.keeps_modify fun _ => rfl

theorem updateDataStore_onResults {α : Type} (f : DataStore → Except Fault (α × DataStore)) :
    OnResults (updateDataStore f) := by
  refine Act.keeps_lift fun s a s' h => ?_
  cases hf : f s.dataStore with
  | error e =>
    rw [hf] at h
    cases h
  | ok r =>
    rw [hf] at h
    cases h
    rfl

theorem getPartData_onResults (key : Int) : OnResults (getPartData key) := by
  refine Act.keeps_lift fun s a s' h => ?_
  cases hf : s.dataStore.getPartData key with
  | error e =>
    rw [hf] at h
    cases h
  | ok r =>
    rw [hf] at h
    cases h
    rfl

theorem sendResultPart_onResults (dst : Int) (data : Bytes) (offset size : Nat) :
    OnResults (sendResultPart dst data offset size) := by
  unfold sendResultPart
  by_cases h : toInt32 size < 0 ∨ data.length < offset + (toInt32 size).toNat
  · rw [if_pos h]
    exact Act.keeps_fail _
  · rw [if_neg h]
    exact Act.keeps_emit trivial

theorem answerParts_onResults (src forwardTo : Int) :
    ∀ parts : List ResultReqPart, OnResults (answerParts src forwardTo parts)
  | [] => Act.keeps_pure _
  | part :: parts => by
    refine (getPartData_onResults part.resid).keeps_bind fun r => ?_
    obtain ⟨data, dataSize⟩ := r
    cases data with
    | none =>
      exact Act.Guarantees.keeps_bind (Act.keeps_modify fun _ => rfl)
        fun _ => answerParts_onResults src forwardTo parts
    | some data =>
      by_cases h : dataSize < add64 part.offset part.size
      · simp only [if_pos h]
        exact Act.keeps_pure _
      · simp only [if_neg h]
        exact (sendResultPart_onResults _ _ _ _).keeps_bind
          fun _ => answerParts_onResults src forwardTo parts

theorem handleGetResultPartsMessage_onResults (src : Int) (msg : GetResultPartsMessage) :
    OnResults (handleGetResultPartsMessage src msg) := by
  refine lockResultStore_onResults.keeps_bind fun _ => ?_
  refine (answerParts_onResults _ _ _).keeps_bind fun answered => ?_
  cases answered with
  | true => exact unlockResultStore_onResults
  | false => exact Act.keeps_pure _

theorem checkDvPartRequired_onResults (key : Int) : OnResults (checkDvPartRequired key) := by
  refine Act.keeps_get.keeps_bind fun s => ?_
  cases s.pendingResultRequests key with
  | none => exact Act.keeps_pure _
  | some requests =>
    refine lockResultStore_onResults.keeps_bind fun _ => ?_
    refine Act.Guarantees.keeps_bind ?_ fun _ => unlockResultStore_onResults
    exact Act.Guarantees.forM (Act.keeps_composes _ _) fun request _ =>
      (getPartData_onResults key).keeps_bind fun _ => sendResultPart_onResults _ _ _ _

theorem handleStoreResultMessage_onResults (msg : StoreResultMessage) :
    OnResults (handleStoreResultMessage msg) :=
  lockResultStore_onResults.keeps_bind fun _ =>
    (updateDataStore_onResults _).keeps_bind fun _ =>
      unlockResultStore_onResults.keeps_bind fun _ => checkDvPartRequired_onResults _

theorem handleStoreResultPartMessage_onResults (msg : StoreResultPartMessage) :
    OnResults (handleStoreResultPartMessage msg) := by
  refine lockResultStore_onResults.keeps_bind fun _ => ?_
  refine (updateDataStore_onResults _).keeps_bind fun remaining => ?_
  refine unlockResultStore_onResults.keeps_bind fun _ => ?_
  by_cases h : remaining = 0
  · rw [if_pos h]
    exact checkDvPartRequired_onResults _
  · rw [if_neg h]
    exact Act.keeps_pure _

theorem handleReleaseResultPartMessage_onResults (resId : Int) :
    OnResults (handleReleaseResultPartMessage resId) :=
  lockResultStore_onResults.keeps_bind fun _ =>
    (updateDataStore_onResults _).keeps_bind fun _ => unlockResultStore_onResults

/-- What the first half of a prefetch leaves alone. -/
def prefetchCore (s : ActorServer) : ActorServer :=
  { s with
    futureKeyManager := {}
    resultStoreLock := false
    dataStore := .empty
    phase := .receiving }

def IsAnnouncement : Output → Prop
  | .responseCode .. | .gatherKey .. => True
  | .actorMessage _ (.prefetch _) => True
  | _ => False

abbrev OnPrefetch {α : Type} (x : Handler α) : Prop :=
  Act.Guarantees (Act.Keeps prefetchCore IsAnnouncement) x

theorem takeKey_onPrefetch : OnPrefetch takeKey :=
  Act.keeps_lift fun _ _ _ h => by cases h; rfl

theorem getIntraActorComm_onPrefetch : OnPrefetch getIntraActorComm := by
  refine Act.keeps_get.keeps_bind fun s => ?_
  cases s.intraActorComm with
  | none => exact Act.keeps_fail _
  | some comm => exact Act.keeps_pure _

theorem announcePrefetch_onPrefetch (src : Int) (msg : PrefetchMessage) :
    OnPrefetch (announcePrefetch src msg) := by
  refine takeKey_onPrefetch.keeps_bind fun key => ?_
  refine Act.Guarantees.keeps_bind (Act.keeps_emit trivial) fun _ => ?_
  refine Act.keeps_get.keeps_bind fun s => ?_
  cases s.pids with
  | nil => exact (Act.keeps_fail _).keeps_bind fun _ => Act.keeps_pure _
  | cons head slaves =>
    refine Act.Guarantees.keeps_bind ?_ fun _ => Act.keeps_pure _
    exact Act.Guarantees.forM (Act.keeps_composes _ _) fun pid _ => Act.keeps_emit trivial

theorem lockResultStore_onPrefetch : OnPrefetch lockResultStore := by
  refine Act.keeps_lift fun s a s' h => ?_
  by_cases hl : s.resultStoreLock = true
  · rw [if_pos hl] at h
    cases h
  · rw [if_neg hl] at h
    cases h
    rfl

theorem updateDataStore_onPrefetch {α : Type} (f : DataStore → Except Fault (α × DataStore)) :
    OnPrefetch (updateDataStore f) := by
  refine Act.keeps_lift fun s a s' h => ?_
  cases hf : f s.dataStore with
  | error e =>
    rw [hf] at h
    cases h
  | ok r =>
    rw [hf] at h
    cases h
    rfl

theorem preparePart_onPrefetch (msg : PrefetchMessage) : OnPrefetch (preparePart msg) :=
  getIntraActorComm_onPrefetch.keeps_bind fun _ =>
    takeKey_onPrefetch.keeps_bind fun _ =>
      lockResultStore_onPrefetch.keeps_bind fun _ =>
        (updateDataStore_onPrefetch _).keeps_bind fun _ =>
          Act.Guarantees.keeps_bind (Act.keeps_modify fun _ => rfl) fun _ => Act.keeps_pure _

theorem handlePrefetchMessage_onPrefetch (src : Int) (msg : PrefetchMessage) :
    OnPrefetch (handlePrefetchMessage src msg) := by
  refine (getIntraActorComm_onPrefetch.keeps_bind fun _ => Act.keeps_pure _).keeps_bind
    fun head => ?_
  cases head with
  | true =>
    exact (announcePrefetch_onPrefetch src msg).keeps_bind fun _ =>
      (preparePart_onPrefetch msg).keeps_bind fun _ => Act.keeps_modify fun _ => rfl
  | false => exact (preparePart_onPrefetch msg).keeps_bind fun _ => Act.keeps_emit trivial

end ActiveBsp.ActorServer
