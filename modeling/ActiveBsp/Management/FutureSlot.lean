import ActiveBsp.Management.Frames

/-!
# One future at the head

What the inputs do to the four maps at one key, at a process that is the head of
its actor, until the future is registered, while it is, and afterwards.
-/
namespace ActiveBsp.ActorServer

open Library

set_option autoImplicit false

def IsGetOf (key : Int) : Input → Bool
  | .message _ (.getFutureData k) => k == key
  | _ => false

def IsReleaseOf (key : Int) : Input → Bool
  | .message _ (.releaseFuture k) => k == key
  | _ => false

/-- The fetch of the future `key` that the input is. -/
def fetchOf (key : Int) : Input → Option FetchMessage
  | .message _ (.fetch msg) => if msg.reqFutureKey = key then some msg else none
  | _ => none

def fetchesOf (key : Int) (is : List Input) : List FetchMessage := is.filterMap (fetchOf key)

/-- The input registers the future `key`: as a message, or as the result of a prefetch. -/
def Registers (key : Int) (s : ActorServer) : Input → Prop
  | .message _ (.registerFutureData k _) => k = key
  | .gatheredKeys _ => ∃ prefetch, s.phase = .gatheringKeys prefetch ∧ prefetch.resFutureKey = key
  | _ => False

/-- The runs of `fetchDv` for the future `key`, with the data they ran on. -/
def fetchRuns (key : Int) (out : List Output) : List (FetchMessage × Bytes) :=
  out.filterMap fun
    | .fetchDv msg data => if msg.reqFutureKey = key then some (msg, data) else none
    | _ => none

theorem fetchRuns_append (key : Int) (out out' : List Output) :
    fetchRuns key (out ++ out') = fetchRuns key out ++ fetchRuns key out' :=
  List.filterMap_append

theorem fetchRuns_of_no_mark {key : Int} {out : List Output} (h : ∀ o ∈ out, ¬ IsFetchMark o) :
    fetchRuns key out = [] := by
  apply List.filterMap_eq_nil_iff.mpr
  intro o ho
  have hm := h o ho
  cases o <;> first | rfl | exact absurd trivial hm

/-- A head, whose waiting fetches stand under the futures they ask for. -/
structure HeadKeyed (s : ActorServer) : Prop where
  head : Head s
  keyed : ∀ key msg, s.askedFetch key = some msg → msg.reqFutureKey = key

/-- The four maps agree at `key`. -/
structure SameFuture (key : Int) (s s' : ActorServer) : Prop where
  stored : s'.futureDataStore key = s.futureDataStore key
  pending : s'.pendingFutureRequests key = s.pendingFutureRequests key
  askedDelete : s'.askedFutureDelete key = s.askedFutureDelete key
  askedFetch : s'.askedFetch key = s.askedFetch key

theorem SameFuture.refl (key : Int) (s : ActorServer) : SameFuture key s s := ⟨rfl, rfl, rfl, rfl⟩

variable {codec : Codec} {s s' : ActorServer} {out : List Output} {key : Int}

private theorem sameFuture_of_core (h : futuresCore s' = futuresCore s) (key : Int) :
    SameFuture key s s' where
  stored := congrArg (fun s => s.futureDataStore key) h
  pending := congrArg (fun s => s.pendingFutureRequests key) h
  askedDelete := congrArg (fun s => s.askedFutureDelete key) h
  askedFetch := congrArg (fun s => s.askedFetch key) h

private theorem HeadKeyed.of_core (hs : HeadKeyed s) (h : futuresCore s' = futuresCore s) :
    HeadKeyed s' where
  head := by
    obtain ⟨comm, hc, h0⟩ := hs.head
    exact ⟨comm, (congrArg ActorServer.intraActorComm h).trans hc, h0⟩
  keyed k msg hk := hs.keyed k msg ((congrArg (fun s => s.askedFetch k) h).symm.trans hk)

theorem fetchRuns_fetched {msg : FetchMessage} {dvFuture : Bytes} {dv : VectorDistribution}
    {sent : List Output} (hsent : ∀ o ∈ sent, IsPiece o) :
    fetchRuns key (fetchAnnouncement s msg dvFuture ++ .broadcastVd dv :: sent) =
      if msg.reqFutureKey = key then [(msg, dvFuture)] else [] := by
  have hquiet : ∀ o ∈ s.pids.tail.map (fun pid => Output.actorMessage pid (.fetch msg)),
      ¬ IsFetchMark o := by
    intro o ho hm
    obtain ⟨pid, -, rfl⟩ := List.mem_map.mp ho
    exact hm
  have hpieces : ∀ o ∈ Output.broadcastVd dv :: sent, ¬ IsFetchMark o := by
    intro o ho hm
    rcases List.mem_cons.mp ho with rfl | ho
    · exact hm
    · obtain ⟨dst, m, rfl⟩ := hsent o ho
      exact hm
  rw [fetchRuns_append, fetchRuns_of_no_mark hpieces, List.append_nil, fetchAnnouncement,
    fetchRuns_append, fetchRuns_of_no_mark hquiet, List.nil_append]
  by_cases hk : msg.reqFutureKey = key <;> simp [fetchRuns, hk]

theorem fetchRuns_readers (key : Int) (pids : List Int) (data : Bytes) :
    fetchRuns key (pids.map fun pid => .futureData pid data) = [] := by
  apply fetchRuns_of_no_mark
  intro o ho hm
  obtain ⟨pid, -, rfl⟩ := List.mem_map.mp ho
  exact hm

theorem HeadKeyed.registered {k : Int} {data : Bytes} (hs : HeadKeyed s) :
    HeadKeyed (s.registered k data) where
  head := hs.head
  keyed k' msg hk := by
    by_cases he : k' = k
    · subst he
      simp [ActorServer.registered] at hk
    · exact hs.keyed k' msg ((PartialMap.erase_of_ne _ he).symm.trans hk)

/-- The registration of another future changes nothing at `key`. -/
private theorem registerFuture_other {k : Int} {data : Bytes} (hs : HeadKeyed s) (hk : key ≠ k)
    (h : registerFuture codec k data s = (out, .ok ((), s'))) :
    SameFuture key s s' ∧ fetchRuns key out = [] ∧ HeadKeyed s' := by
  rcases registerFuture_head_inv hs.head h with ⟨-, rfl, rfl⟩ | ⟨-, rfl, fetched, rfl, hfetched⟩
  · exact ⟨⟨rfl, rfl, Function.update_of_ne hk _ _, rfl⟩, rfl, hs.head, hs.keyed⟩
  · refine ⟨⟨registered_stored_of_ne hk, PartialMap.erase_of_ne _ hk,
      Function.update_of_ne hk _ _, PartialMap.erase_of_ne _ hk⟩, ?_, hs.registered⟩
    · rw [fetchRuns_append, fetchRuns_readers key, List.append_nil]
      rcases hfetched with ⟨-, rfl⟩ | ⟨msg, hmsg, hfetch⟩
      · rfl
      · obtain ⟨dvFuture, dv, sent, -, -, -, rfl, hsent⟩ := fetchDv_head_inv (by exact hs.head) hfetch
        rw [fetchRuns_fetched hsent, if_neg]
        rw [hs.keyed k msg hmsg]
        exact hk.symm

/-- The registration of `key` itself. -/
theorem registerFuture_same {data : Bytes} (hs : HeadKeyed s)
    (h : registerFuture codec key data s = (out, .ok ((), s'))) :
    HeadKeyed s' ∧
    ((s.pendingFutureRequests key = none ∧ s.askedFutureDelete key = true ∧
        fetchRuns key out = [] ∧ s'.askedFetch key = s.askedFetch key) ∨
      (¬ (s.pendingFutureRequests key = none ∧ s.askedFutureDelete key = true) ∧
        fetchRuns key out = ((s.askedFetch key).map fun msg => (msg, data)).toList ∧
        s'.askedFetch key = none)) := by
  rcases registerFuture_head_inv hs.head h with
    ⟨⟨hp, hd⟩, rfl, rfl⟩ | ⟨hn, rfl, fetched, rfl, hfetched⟩
  · exact ⟨⟨hs.head, hs.keyed⟩, .inl ⟨hp, hd, rfl, rfl⟩⟩
  · refine ⟨hs.registered, .inr ⟨hn, ?_, PartialMap.erase_self _ _⟩⟩
    rw [fetchRuns_append, fetchRuns_readers key, List.append_nil]
    rcases hfetched with ⟨hf, rfl⟩ | ⟨msg, hmsg, hfetch⟩
    · rw [hf]
      rfl
    · obtain ⟨dvFuture, dv, sent, hstored, -, -, rfl, hsent⟩ :=
        fetchDv_head_inv (by exact hs.head) hfetch
      have hkey := hs.keyed key msg hmsg
      rw [hkey] at hstored
      obtain rfl : data = dvFuture := by simpa using hstored
      rw [fetchRuns_fetched hsent, if_pos hkey, hmsg]
      rfl

theorem HeadKeyed.set_askedFetch {msg : FetchMessage} (hs : HeadKeyed s) :
    HeadKeyed { s with askedFetch := s.askedFetch.set msg.reqFutureKey msg } where
  head := hs.head
  keyed k m hk := by
    by_cases he : k = msg.reqFutureKey
    · subst he
      obtain rfl : msg = m := by simpa using hk
      rfl
    · exact hs.keyed k m ((PartialMap.set_of_ne _ _ he).symm.trans hk)

/-- A fetch that finds its future is run, and changes nothing at the head. -/
theorem handleFetchMessage_stored_inv (key : Int) {msg : FetchMessage} {data : Bytes}
    (hs : HeadKeyed s)
    (hd : s.futureDataStore msg.reqFutureKey = some data)
    (h : handleFetchMessage codec msg s = (out, .ok ((), s'))) :
    s' = s ∧ fetchRuns key out = if msg.reqFutureKey = key then [(msg, data)] else [] := by
  rw [handleFetchMessage_of_stored hs.head hd] at h
  obtain ⟨dvFuture, dv, sent, hstored, -, rfl, rfl, hsent⟩ := fetchDv_head_inv hs.head h
  rw [hd] at hstored
  cases hstored
  exact ⟨rfl, fetchRuns_fetched hsent⟩

/-- An input that has no part in futures. -/
private theorem step_avoiding {i : Input} (hs : HeadKeyed s)
    (h : step codec i s = (out, .ok ((), s'))) (hi : AvoidsFutures i) :
    SameFuture key s s' ∧ fetchRuns key out = [] ∧ HeadKeyed s' := by
  obtain ⟨hcore, hquiet⟩ := step_avoids_futures hi s out () s' h
  exact ⟨sameFuture_of_core hcore key, fetchRuns_of_no_mark hquiet, hs.of_core hcore⟩

/-- The end of a prefetch whose own future is another one. -/
private theorem resumePrefetch_other {prefetch : GatheringPrefetch} {keys : List Int}
    (hs : HeadKeyed s) (hk : prefetch.resFutureKey ≠ key)
    (h : resumePrefetch codec prefetch keys s = (out, .ok ((), s'))) :
    SameFuture key s s' ∧ fetchRuns key out = [] ∧ HeadKeyed s' := by
  obtain ⟨comm, hc, h0⟩ := hs.head
  unfold resumePrefetch at h
  rw [Act.modify_bind, Act.bind_of_ok (getIntraActorComm_of_some (by exact hc))] at h
  simp only [Act.get_bind, Act.emit_bind, List.nil_append] at h
  obtain ⟨hout, hres⟩ := Prod.mk.inj h
  obtain ⟨hsame, hsilent, hkeyed⟩ := registerFuture_other
    (s := { s with phase := .receiving }) ⟨⟨comm, hc, h0⟩, hs.keyed⟩ hk.symm (Prod.ext rfl hres)
  refine ⟨⟨hsame.stored, hsame.pending, hsame.askedDelete, hsame.askedFetch⟩, ?_, hkeyed⟩
  rw [← hout]
  exact hsilent

private theorem get_other {src k : Int} (hs : HeadKeyed s) (hk : key ≠ k)
    (h : handleGetFutureData src k s = (out, .ok ((), s'))) :
    SameFuture key s s' ∧ fetchRuns key out = [] ∧ HeadKeyed s' := by
  cases hd : s.futureDataStore k with
  | some data =>
    rw [handleGetFutureData_of_some hd] at h
    cases h
    exact ⟨.refl key s, rfl, hs⟩
  | none =>
    rw [handleGetFutureData_of_none hd] at h
    cases h
    exact ⟨⟨rfl, PartialMap.set_of_ne _ _ hk, rfl, rfl⟩, rfl, hs.head, hs.keyed⟩

private theorem release_other {k : Int} (hs : HeadKeyed s) (hk : key ≠ k)
    (h : handleReleaseFutureMessage k s = (out, .ok ((), s'))) :
    SameFuture key s s' ∧ fetchRuns key out = [] ∧ HeadKeyed s' := by
  cases hd : s.futureDataStore k with
  | some data =>
    rw [handleReleaseFutureMessage_of_some hd] at h
    cases h
    exact ⟨⟨PartialMap.erase_of_ne _ hk, rfl, rfl, rfl⟩, rfl, hs.head, hs.keyed⟩
  | none =>
    rw [handleReleaseFutureMessage_of_none hd] at h
    cases h
    exact ⟨⟨rfl, rfl, Function.update_of_ne hk _ _, rfl⟩, rfl, hs.head, hs.keyed⟩

private theorem fetch_other {msg : FetchMessage} (hs : HeadKeyed s) (hk : key ≠ msg.reqFutureKey)
    (h : handleFetchMessage codec msg s = (out, .ok ((), s'))) :
    SameFuture key s s' ∧ fetchRuns key out = [] ∧ HeadKeyed s' := by
  cases hd : s.futureDataStore msg.reqFutureKey with
  | some data =>
    obtain ⟨rfl, hruns⟩ := handleFetchMessage_stored_inv key hs hd h
    exact ⟨.refl key s', by rw [hruns, if_neg hk.symm], hs⟩
  | none =>
    cases hf : s.askedFetch msg.reqFutureKey with
    | some msg' =>
      rw [handleFetchMessage_fails hs.head hd hf] at h
      cases h
    | none =>
      rw [handleFetchMessage_waits hs.head hd hf] at h
      cases h
      exact ⟨⟨rfl, rfl, rfl, PartialMap.set_of_ne _ _ hk⟩, rfl, hs.set_askedFetch⟩

/-- An input about other futures, or about none, changes nothing at `key`. -/
theorem step_other {i : Input} (hs : HeadKeyed s) (hreg : ¬ Registers key s i)
    (hcomm : ∀ comm, i ≠ .setIntraActorComm comm) (hg : IsGetOf key i = false)
    (hr : IsReleaseOf key i = false) (hf : fetchOf key i = none)
    (h : step codec i s = (out, .ok ((), s'))) :
    SameFuture key s s' ∧ fetchRuns key out = [] ∧ HeadKeyed s' := by
  cases i with
  | gatheredKeys keys =>
    simp only [step, Act.get_bind] at h
    cases hp : s.phase with
    | gatheringKeys prefetch =>
      rw [hp] at h
      exact resumePrefetch_other hs (fun hk => hreg ⟨prefetch, hp, hk⟩) h
    | receiving =>
      rw [hp] at h
      cases h
    | awaitingVd msg =>
      rw [hp] at h
      cases h
  | setIntraActorComm comm => exact absurd rfl (hcomm comm)
  | broadcastVd dv => exact step_avoiding hs h trivial
  | takeKey => exact step_avoiding hs h trivial
  | message src msg =>
    cases msg with
    | registerFutureData k data =>
      exact registerFuture_other hs (fun he => hreg he.symm) (step_message_inv h).2.2
    | getFutureData k =>
      have hk : k ≠ key := by simpa [IsGetOf] using hg
      exact get_other hs hk.symm (step_message_inv h).2.2
    | releaseFuture k =>
      have hk : k ≠ key := by simpa [IsReleaseOf] using hr
      exact release_other hs hk.symm (step_message_inv h).2.2
    | fetch msg =>
      have hk : msg.reqFutureKey ≠ key := by simpa [fetchOf] using hf
      exact fetch_other hs hk.symm (step_message_inv h).2.2
    | _ => exact step_avoiding hs h trivial

/-- What an input that does not register `key` makes of a future that is not there yet. -/
structure UnregisteredStep (key : Int) (i : Input) (s : ActorServer) (out : List Output)
    (s' : ActorServer) : Prop where
  stored : s'.futureDataStore key = none
  pending : s'.pendingFutureRequests key = none ↔
    s.pendingFutureRequests key = none ∧ IsGetOf key i = false
  askedDelete : s'.askedFutureDelete key = (s.askedFutureDelete key || IsReleaseOf key i)
  askedFetch : s'.askedFetch key = (s.askedFetch key).or (fetchOf key i)
  once : s.askedFetch key = none ∨ fetchOf key i = none
  silent : fetchRuns key out = []
  headKeyed : HeadKeyed s'

theorem step_unregistered {i : Input} (hs : HeadKeyed s) (hstored : s.futureDataStore key = none)
    (hreg : ¬ Registers key s i) (hcomm : ∀ comm, i ≠ .setIntraActorComm comm)
    (h : step codec i s = (out, .ok ((), s'))) : UnregisteredStep key i s out s' := by
  by_cases habout : IsGetOf key i = false ∧ IsReleaseOf key i = false ∧ fetchOf key i = none
  · obtain ⟨hg, hr, hf⟩ := habout
    obtain ⟨hsame, hsilent, hkeyed⟩ := step_other hs hreg hcomm hg hr hf h
    exact ⟨hsame.stored.trans hstored, by rw [hsame.pending, hg]; simp,
      by rw [hsame.askedDelete, hr, Bool.or_false], by rw [hsame.askedFetch, hf, Option.or_none],
      .inr hf, hsilent, hkeyed⟩
  · cases i with
    | message src msg =>
      have hroute := (step_message_inv h).2.2
      cases msg with
      | getFutureData k =>
        obtain rfl : k = key := by simpa [IsGetOf, IsReleaseOf, fetchOf] using habout
        change handleGetFutureData src k s = _ at hroute
        rw [handleGetFutureData_of_none hstored] at hroute
        cases hroute
        exact ⟨hstored, by simp [IsGetOf], by simp [IsReleaseOf], by simp [fetchOf], .inr rfl, rfl,
          hs.head, hs.keyed⟩
      | releaseFuture k =>
        obtain rfl : k = key := by simpa [IsGetOf, IsReleaseOf, fetchOf] using habout
        change handleReleaseFutureMessage k s = _ at hroute
        rw [handleReleaseFutureMessage_of_none hstored] at hroute
        cases hroute
        exact ⟨hstored, by simp [IsGetOf], by simp [IsReleaseOf], by simp [fetchOf], .inr rfl, rfl,
          hs.head, hs.keyed⟩
      | fetch msg =>
        obtain rfl : msg.reqFutureKey = key := by
          simpa [IsGetOf, IsReleaseOf, fetchOf] using habout
        change handleFetchMessage codec msg s = _ at hroute
        cases hf : s.askedFetch msg.reqFutureKey with
        | some msg' =>
          rw [handleFetchMessage_fails hs.head hstored hf] at hroute
          cases hroute
        | none =>
          rw [handleFetchMessage_waits hs.head hstored hf] at hroute
          cases hroute
          exact ⟨hstored, by simp [IsGetOf], by simp [IsReleaseOf], by simp [fetchOf, hf],
            .inl hf, rfl, hs.set_askedFetch⟩
      | _ => exact absurd ⟨rfl, rfl, rfl⟩ habout
    | _ => exact absurd ⟨rfl, rfl, rfl⟩ habout

/-- Once nothing waits for a fetch, only a fetch or a registration runs one. -/
theorem step_no_fetch {i : Input} (hs : HeadKeyed s) (hreg : ¬ Registers key s i)
    (hcomm : ∀ comm, i ≠ .setIntraActorComm comm) (hf : fetchOf key i = none)
    (h : step codec i s = (out, .ok ((), s'))) :
    s'.askedFetch key = s.askedFetch key ∧ fetchRuns key out = [] ∧ HeadKeyed s' := by
  by_cases habout : IsGetOf key i = false ∧ IsReleaseOf key i = false
  · obtain ⟨hsame, hsilent, hkeyed⟩ := step_other hs hreg hcomm habout.1 habout.2 hf h
    exact ⟨hsame.askedFetch, hsilent, hkeyed⟩
  · cases i with
    | message src msg =>
      have hroute := (step_message_inv h).2.2
      cases msg with
      | getFutureData k =>
        change handleGetFutureData src k s = _ at hroute
        cases hd : s.futureDataStore k with
        | some data =>
          rw [handleGetFutureData_of_some hd] at hroute
          cases hroute
          exact ⟨rfl, rfl, hs⟩
        | none =>
          rw [handleGetFutureData_of_none hd] at hroute
          cases hroute
          exact ⟨rfl, rfl, hs.head, hs.keyed⟩
      | releaseFuture k =>
        change handleReleaseFutureMessage k s = _ at hroute
        cases hd : s.futureDataStore k with
        | some data =>
          rw [handleReleaseFutureMessage_of_some hd] at hroute
          cases hroute
          exact ⟨rfl, rfl, hs.head, hs.keyed⟩
        | none =>
          rw [handleReleaseFutureMessage_of_none hd] at hroute
          cases hroute
          exact ⟨rfl, rfl, hs.head, hs.keyed⟩
      | _ => exact absurd ⟨rfl, rfl⟩ habout
    | _ => exact absurd ⟨rfl, rfl⟩ habout

end ActiveBsp.ActorServer
