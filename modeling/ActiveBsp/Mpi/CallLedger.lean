import ActiveBsp.Management.Frames
import ActiveBsp.Mpi.CallSessions

/-!
# What one process has done

The books of a process that runs an actor: what its two threads have done, and
the messages about futures that its manager has handled. Every step of one of
the threads keeps them in agreement with the state.
-/
namespace ActiveBsp.CallSessions

open Library ActorServer FutureReads
open ActorWorker (Event Head Kept Turn keysTaken registrations storedKeys returned)

set_option autoImplicit false

def callsIn (msgs : List ActorMessage) : List CallActorMessage :=
  msgs.filterMap fun
    | .callActor msg => some msg
    | _ => none

def getsIn (msgs : List ActorMessage) : List Int :=
  msgs.filterMap fun
    | .getFutureData key => some key
    | _ => none

def releasesIn (msgs : List ActorMessage) : List Int :=
  msgs.filterMap fun
    | .releaseFuture key => some key
    | _ => none

def registersIn (msgs : List ActorMessage) : List (Int × Bytes) :=
  msgs.filterMap fun
    | .registerFutureData key data => some (key, data)
    | _ => none

def storesIn (msgs : List ActorMessage) : List Int :=
  msgs.filterMap fun
    | .storeResult msg => some msg.resId
    | _ => none

/-- The registrations that the manager has handled. -/
def registrationsOf (ms : List FutureMessage) : List (Int × Bytes) :=
  ms.filterMap fun m => match m.op with
    | .register data => some (m.key, data)
    | _ => none

theorem registrationsOf_append (ms ms' : List FutureMessage) :
    registrationsOf (ms ++ ms') = registrationsOf ms ++ registrationsOf ms' := List.filterMap_append

theorem registersIn_append (msgs msgs' : List ActorMessage) :
    registersIn (msgs ++ msgs') = registersIn msgs ++ registersIn msgs' := List.filterMap_append

theorem storesIn_append (msgs msgs' : List ActorMessage) :
    storesIn (msgs ++ msgs') = storesIn msgs ++ storesIn msgs' := List.filterMap_append

theorem registersIn_toManager (events : List Event) :
    registersIn (events.filterMap toManager) = registrations events := by
  rw [registersIn, registrations, List.filterMap_filterMap]
  congr 1
  funext e
  cases e <;> rfl

theorem storesIn_toManager (events : List Event) :
    storesIn (events.filterMap toManager) = storedKeys events := by
  rw [storesIn, storedKeys, List.filterMap_filterMap]
  congr 1
  funext e
  cases e <;> rfl

/-- A key that is registered is registered with the data of its registration. -/
theorem registered_eq_some {key : Int} {data : Bytes} {ms : List FutureMessage}
    (h : registered key ms = some data) : (key, data) ∈ registrationsOf ms := by
  obtain ⟨m, hm, hkey⟩ := List.exists_of_findSome?_eq_some h
  apply List.mem_filterMap.mpr ⟨m, hm, _⟩
  unfold FutureMessage.registers at hkey
  cases hop : m.op with
  | register d =>
    rw [hop] at hkey
    simp only at hkey ⊢
    split_ifs at hkey with he
    cases hkey
    rw [he]
  | get =>
    rw [hop] at hkey
    cases hkey
  | release =>
    rw [hop] at hkey
    cases hkey

theorem registered_eq_none {key : Int} {ms : List FutureMessage}
    (h : key ∉ (registrationsOf ms).map Prod.fst) : registered key ms = none := by
  rw [Option.eq_none_iff_forall_ne_some]
  exact fun data hdata => h (List.mem_map_of_mem (registered_eq_some hdata))

theorem registered_of_mem {key : Int} {data : Bytes} {ms : List FutureMessage}
    (hnodup : ((registrationsOf ms).map Prod.fst).Nodup) (h : (key, data) ∈ registrationsOf ms) :
    registered key ms = some data := by
  cases hreg : registered key ms with
  | none =>
    exfalso
    obtain ⟨m, hm, hkey⟩ := List.mem_filterMap.mp h
    have hnone := List.findSome?_eq_none_iff.mp hreg m hm
    unfold FutureMessage.registers at hnone
    cases hop : m.op with
    | register d =>
      rw [hop] at hkey hnone
      cases hkey
      simp at hnone
    | get =>
      rw [hop] at hkey
      cases hkey
    | release =>
      rw [hop] at hkey
      cases hkey
  | some data' =>
    have hpair := List.inj_on_of_nodup_map hnodup (registered_eq_some hreg) h rfl
    cases hpair
    rfl

theorem handleCallActorMessage_accepts {s : ActorServer} (hproxy : s.actorWorkerProxy = true)
    (src : Int) (msg : CallActorMessage) : handleCallActorMessage src msg s =
      ([.callActor ⟨msg, src, s.futureKeyManager.next⟩, .responseCode src s.futureKeyManager.next],
        .ok ((), { s with futureKeyManager := s.futureKeyManager.takeKey.2 })) := by
  have hkey : takeKey s = ([], .ok (s.futureKeyManager.next,
      { s with futureKeyManager := s.futureKeyManager.takeKey.2 })) := rfl
  have hworker (s : ActorServer) (hs : s.actorWorkerProxy = true) (req : ActiveObjectRequest) :
      useActorWorkerProxy (.callActor req) s = ([.callActor req], .ok ((), s)) := by
    simp only [useActorWorkerProxy, Act.get_bind, hs, if_true, Act.emit_apply]
  rw [handleCallActorMessage, Act.bind_of_ok hkey, List.nil_append,
    Act.bind_of_ok (hworker { s with futureKeyManager := s.futureKeyManager.takeKey.2 } hproxy _)]
  rfl

structure HeadBooks where
  inputs : List ActorWorker.Input := []
  events : List Event := []
  history : List FutureMessage := []

variable {Obj : Type} {codec : Codec} {st : CallCluster Obj} {q : Int} {s s' : ActorServer}
  {threads threads' : Head Obj} {own : List ActorMessage} {b : HeadBooks}

structure HeadKept (st : CallCluster Obj) (q : Int) (s : ActorServer) (threads : Head Obj)
    (own : List ActorMessage) (b : HeadBooks) : Prop where
  kept : Kept (st.servers q).futureKeyManager.next b.inputs b.events threads
  bounded : (st.servers q).futureKeyManager.next + (keysTaken b.events).length < 2 ^ 31
  keys : threads.keys = ⟨[s.futureKeyManager], some 0⟩
  idle : threads.manager = .idle
  object : threads.worker.Holds (st.functions q) b.events (st.objects q)
  agrees : Agrees s b.history
  free : s.resultStoreLock = false
  unasked : ∀ key, s.parked key = []
  proxy : q ∈ st.heads → s.actorWorkerProxy = true
  /-- The parts of results that are stored beside those that were there. -/
  parts : ∃ t done, s.dataStore.Represents t ∧ storedKeys b.events = done ++ storesIn own ∧
    ∀ key, t key ≠ none → key < (st.servers q).futureKeyManager.next ∨ key ∈ done
  registered : registrations b.events = registrationsOf b.history ++ registersIn own
  own_mine : ∀ msg ∈ own, (∃ key data, msg = .registerFutureData key data) ∨
    ∃ m, msg = .storeResult m

namespace HeadKept

theorem next_eq (h : HeadKept st q s threads own b) : s.futureKeyManager.next =
    (st.servers q).futureKeyManager.next + (keysTaken b.events).length := by
  rw [← h.kept.counted.counted h.bounded, h.keys]
  rfl

/-- A key that was taken is one of those between the first one and the next one. -/
theorem key_range (h : HeadKept st q s threads own b) {key : Int}
    (hkey : key ∈ (keysTaken b.events).map Prod.snd) :
    (st.servers q).futureKeyManager.next ≤ key ∧ key < s.futureKeyManager.next := by
  rw [h.kept.counted.consecutive h.bounded] at hkey
  obtain ⟨i, hi, rfl⟩ := List.mem_map.mp hkey
  have hi := List.mem_range.mp hi
  rw [h.next_eq]
  omega

theorem keys_nodup (h : HeadKept st q s threads own b) :
    ((keysTaken b.events).map Prod.snd).Nodup := h.kept.counted.nodup h.bounded

theorem mem_keysTaken (purpose : ActorWorker.Purpose) {events : List Event} {key : Int}
    (hkey : key ∈ ActorWorker.keysFor purpose events) : key ∈ (keysTaken events).map Prod.snd := by
  obtain ⟨taken, hmem, rfl⟩ := List.mem_map.mp hkey
  exact List.mem_map_of_mem (List.mem_of_mem_filter hmem)

/-- The keys of the accepted calls. -/
theorem keysFor_call (h : HeadKept st q s threads own b) : ActorWorker.keysFor .call b.events =
    (ActorWorker.accepted b.events).map ActiveObjectRequest.localkey := by
  rw [h.kept.balanced.keyed, h.idle]
  exact List.append_nil _

theorem keysFor_nodup (h : HeadKept st q s threads own b) (purpose : ActorWorker.Purpose) :
    (ActorWorker.keysFor purpose b.events).Nodup :=
  h.keys_nodup.sublist (List.filter_sublist.map _)

theorem accepted_nodup (h : HeadKept st q s threads own b) :
    ((ActorWorker.accepted b.events).map ActiveObjectRequest.localkey).Nodup := by
  rw [← h.keysFor_call]
  exact h.keysFor_nodup .call

/-- Calls are accepted under rising keys. -/
theorem accepted_rising (h : HeadKept st q s threads own b) :
    ((ActorWorker.accepted b.events).map ActiveObjectRequest.localkey).Pairwise (· < ·) := by
  have htaken : ((keysTaken b.events).map Prod.snd).Pairwise (· < ·) := by
    rw [h.kept.counted.consecutive h.bounded, List.pairwise_map]
    exact List.pairwise_lt_range.imp fun hij => by omega
  rw [← h.keysFor_call]
  exact htaken.sublist (List.filter_sublist.map _)

/-- Calls return in the order in which they were accepted. -/
theorem returned_prefix (h : HeadKept st q s threads own b) :
    (returned b.events).map Prod.fst <+: ActorWorker.accepted b.events :=
  List.IsPrefix.trans ⟨_, h.kept.balanced.running.symm⟩ h.kept.balanced.started_prefix

/-- The results are registered in the order of the calls. -/
theorem registrations_prefix (h : HeadKept st q s threads own b) :
    (registrations b.events).map Prod.fst <+:
      (ActorWorker.accepted b.events).map ActiveObjectRequest.localkey := by
  have hreturned : registrations b.events <+:
      (returned b.events).map fun done => (done.1.localkey, done.2) :=
    ⟨_, h.kept.balanced.registered.symm⟩
  have hserved := h.returned_prefix.map ActiveObjectRequest.localkey
  have hkeys := hreturned.map Prod.fst
  rw [List.map_map] at hserved hkeys
  exact hkeys.trans hserved

theorem registrations_nodup (h : HeadKept st q s threads own b) :
    ((registrations b.events).map Prod.fst).Nodup :=
  h.accepted_nodup.sublist h.registrations_prefix.sublist

theorem registered_iff (h : HeadKept st q s threads own b) {key : Int} {data : Bytes} :
    FutureReads.registered key b.history = some data ↔ (key, data) ∈ registrationsOf b.history := by
  refine ⟨registered_eq_some, registered_of_mem ?_⟩
  have hnodup := h.registrations_nodup
  rw [h.registered, List.map_append] at hnodup
  exact hnodup.of_append_left

/-- A result that was registered is the result of a call that has returned. -/
theorem returned_of_registration (h : HeadKept st q s threads own b) {key : Int} {data : Bytes}
    (hmem : (key, data) ∈ registrations b.events) :
    ∃ req, (req, data) ∈ returned b.events ∧ req.localkey = key := by
  have hreturned : (key, data) ∈ (returned b.events).map fun done => (done.1.localkey, done.2) := by
    rw [h.kept.balanced.registered]
    exact List.mem_append_left _ hmem
  obtain ⟨⟨req, serial⟩, hdone, he⟩ := List.mem_map.mp hreturned
  cases he
  exact ⟨req, hdone, rfl⟩

/-- A message about a future. -/
theorem future (h : HeadKept st q s threads own b) (codec : Codec) (own' : List ActorMessage)
    {m : FutureMessage} (hallowed : Allowed b.history m)
    (hreg : registrationsOf [m] ++ registersIn own' = registersIn own)
    (hstores : storesIn own' = storesIn own) (hmine : ∀ msg ∈ own', msg ∈ own) :
    ∃ s', ActorServer.step codec m.input s = (answer b.history m, .ok ((), s')) ∧
      HeadKept st q s' threads own' { b with history := b.history ++ [m] } := by
  obtain ⟨s', hstep, hagrees⟩ := h.agrees.handle codec hallowed
  have hframe : futuresFrame s' = futuresFrame s := by
    obtain ⟨src, key, op⟩ := m
    have hkeeps := step_kind (FutureMessage.input ⟨src, key, op⟩) s _ _ _ hstep
    cases op <;> exact hkeeps.1
  refine ⟨s', hstep, h.kept, h.bounded, ?_, h.idle, h.object, hagrees, ?_, ?_, ?_, ?_, ?_, ?_⟩
  · have hmanager := congrArg ActorServer.futureKeyManager hframe
    change s'.futureKeyManager = s.futureKeyManager at hmanager
    rw [hmanager]
    exact h.keys
  · exact (congrArg ActorServer.resultStoreLock hframe).trans h.free
  · intro key
    exact (congrArg (fun s : ActorServer => s.parked key) hframe).trans (h.unasked key)
  · exact fun hq => (congrArg ActorServer.actorWorkerProxy hframe).trans (h.proxy hq)
  · obtain ⟨t, done, hrep, hstored, hkeys⟩ := h.parts
    refine ⟨t, done, ?_, hstored.trans (by rw [hstores]), hkeys⟩
    have hstore := congrArg ActorServer.dataStore hframe
    change s'.dataStore = s.dataStore at hstore
    rw [hstore]
    exact hrep
  · show registrations b.events = registrationsOf (b.history ++ [m]) ++ registersIn own'
    rw [h.registered, ← hreg, registrationsOf_append, List.append_assoc]
  · exact fun msg hmsg => h.own_mine msg (hmine msg hmsg)

/-- A part of a result. -/
theorem store (h : HeadKept st q s threads own b) (codec : Codec) {m : StoreResultMessage}
    {own' : List ActorMessage} (hown : own = .storeResult m :: own') :
    ∃ s', ActorServer.step codec (.message q (.storeResult m)) s = ([], .ok ((), s')) ∧
      HeadKept st q s' threads own' b := by
  obtain ⟨t, done, hrep, hstored, hkeys⟩ := h.parts
  have hstores : storesIn own = m.resId :: storesIn own' := by
    rw [hown]
    rfl
  rw [hstores] at hstored
  have hnodup : (storedKeys b.events).Nodup :=
    (h.keysFor_nodup .part).sublist (by
      rw [h.kept.balanced.stored]
      exact List.sublist_append_left _ _)
  have hnone : t m.resId = none := by
    by_contra hsome
    have hmem : m.resId ∈ storedKeys b.events := by
      rw [hstored]
      exact List.mem_append_right _ List.mem_cons_self
    rcases hkeys m.resId hsome with hlt | hdone
    · have hpart : m.resId ∈ ActorWorker.keysFor .part b.events := by
        rw [h.kept.balanced.stored]
        exact List.mem_append_left _ hmem
      have hrange := h.key_range (mem_keysTaken .part hpart)
      omega
    · rw [hstored] at hnodup
      exact (List.nodup_append'.mp hnodup).2.2 hdone List.mem_cons_self
  obtain ⟨ds, heq, hrep'⟩ := handleStoreResultMessage_stores h.free hrep hnone
    (by rw [h.unasked]; exact List.forall_mem_nil _)
  rw [h.unasked, List.map_nil] at heq
  refine ⟨_, (step_message h.agrees.receiving h.agrees.qrun _ _).trans heq, h.kept, h.bounded,
    h.keys, h.idle, h.object, ?_, h.free, h.unasked, h.proxy, ?_, ?_, ?_⟩
  · exact ⟨h.agrees.receiving, h.agrees.qrun, h.agrees.askedFetch, h.agrees.stored,
      h.agrees.pending, h.agrees.askedDelete⟩
  · refine ⟨_, done ++ [m.resId], hrep', ?_, fun key hkey => ?_⟩
    · rw [hstored, List.append_assoc]
      rfl
    · by_cases hk : key = m.resId
      · exact .inr (hk ▸ List.mem_append_right _ List.mem_cons_self)
      · rw [PartialMap.set_of_ne _ _ hk] at hkey
        exact (hkeys key hkey).imp_right (List.mem_append_left _)
  · rw [h.registered, hown]
    rfl
  · intro msg hmsg
    exact h.own_mine msg (hown ▸ List.mem_cons_of_mem _ hmsg)

theorem start (st : CallCluster Obj) (q : Int) :
    HeadKept st q (st.servers q)
      ⟨⟨[(st.servers q).futureKeyManager], some 0⟩, [], .idle, .looping (st.objects q)⟩ [] {} := by
  have hfresh : ActorWorker.Fresh (⟨⟨[(st.servers q).futureKeyManager], some 0⟩, [], .idle,
      .looping (st.objects q)⟩ : Head Obj) :=
    ⟨.inr ⟨_, rfl⟩, st.next_nonneg q, rfl, rfl, .inr ⟨_, rfl⟩⟩
  obtain ⟨t, hrep, hunused⟩ := st.unused q
  refine ⟨⟨hfresh.balanced, hfresh.counted, .nil⟩, ?_, rfl, rfl, .nil, ?_, st.free q, st.unasked q,
    st.proxy q, ⟨t, [], hrep, rfl, fun key hkey => ?_⟩, rfl, List.forall_mem_nil _⟩
  · have hlt := st.next_lt q
    exact (Int.add_zero _).trans_lt hlt
  · have hfutures := st.fresh q
    exact ⟨hfutures.receiving, hfutures.qrun, hfutures.askedFetch, hfutures.stored,
      hfutures.pending, hfutures.askedDelete⟩
  · left
    by_contra hle
    exact hkey (hunused key (Int.not_lt.mp hle))

/-- A call is accepted under the next key. -/
theorem call (h : HeadKept st q s threads own b) (codec : Codec) (hq : q ∈ st.heads) (src : Nat)
    (msg : CallActorMessage) (hbound : s.futureKeyManager.next + 1 < 2 ^ 31)
    {req : ActiveObjectRequest} (hreq : req = ⟨msg, src, s.futureKeyManager.next⟩) :
    ∃ s', ActorServer.step codec (.message src (.callActor msg)) s =
        ([.callActor req, .responseCode src s.futureKeyManager.next], .ok ((), s')) ∧
      HeadKept st q s' ⟨⟨[s'.futureKeyManager], some 0⟩, threads.messages ++ [req], .idle,
        threads.worker⟩ own
        { b with
          inputs := b.inputs ++ .callActor src msg :: List.replicate 5 .manager
          events := b.events ++
            [.keyTaken .call req.localkey, .accepted req, .response req.sender req.localkey] } := by
  obtain ⟨keys, messages, manager, worker⟩ := threads
  have hkeys : keys = ⟨[s.futureKeyManager], some 0⟩ := h.keys
  have hidle : manager = .idle := h.idle
  subst hkeys hidle
  obtain ⟨req', s', outs, hhandle, htrace, houts⟩ := ActorWorker.handleCallActorMessage_turns
    (st.functions q) s (h.proxy hq) messages worker src msg
  have hhandle' := handleCallActorMessage_accepts (h.proxy hq) src msg
  rw [← hreq] at hhandle'
  rw [hhandle'] at hhandle
  obtain ⟨hout, hend⟩ := Prod.mk.inj hhandle
  cases hend
  obtain rfl : req = req' := by
    injection hout with hfirst
    injection hfirst
  have hk := h.kept.run (st.next_nonneg q) (Option.some_ne_none 0) htrace
  rw [houts] at hk
  refine ⟨_, (step_message h.agrees.receiving h.agrees.qrun _ _).trans hhandle', hk, ?_, rfl, rfl,
    h.object.quiet rfl, ?_, h.free, h.unasked, h.proxy, ?_, ?_, h.own_mine⟩
  · have hnext := h.next_eq
    have hlength : keysTaken (b.events ++
        [.keyTaken .call req.localkey, .accepted req, .response req.sender req.localkey]) =
        keysTaken b.events ++ [(.call, req.localkey)] := List.filterMap_append
    rw [hlength, List.length_append, List.length_singleton]
    omega
  · exact ⟨h.agrees.receiving, h.agrees.qrun, h.agrees.askedFetch, h.agrees.stored,
      h.agrees.pending, h.agrees.askedDelete⟩
  · obtain ⟨t, done, hrep, hstored, ht⟩ := h.parts
    refine ⟨t, done, hrep, Eq.trans ?_ hstored, ht⟩
    exact List.filterMap_append.trans (List.append_nil _)
  · refine Eq.trans ?_ h.registered
    exact List.filterMap_append.trans (List.append_nil _)

/-- The worker goes on. -/
theorem work (h : HeadKept st q s threads own b) {learnt : Bytes} {events : List Event}
    (hbound : s.futureKeyManager.next + 1 < 2 ^ 31)
    (hstep : ActorWorker.workerTurn (st.functions q) learnt threads =
      (events, .ok ((), threads'))) :
    HeadKept st q { s with futureKeyManager := threads'.keys.allocated.headD {} } threads'
      (own ++ events.filterMap toManager)
      { b with inputs := b.inputs ++ [.worker learnt], events := b.events ++ events } := by
  have ht : Turn (st.functions q) (.worker learnt) threads events threads' :=
    ActorWorker.step_cases hstep
  obtain ⟨-, hmanager, htaken⟩ := ht.of_worker
  have hinstance : threads.keys.instance? ≠ none := by
    rw [h.keys]
    exact Option.some_ne_none 0
  refine ⟨h.kept.turn (st.next_nonneg q)
    (ActorWorker.apart_of_instance h.kept.counted.manager hinstance) ht, ?_, h.kept.counted.worker_keys ht h.keys,
    hmanager.trans h.idle, h.object.turn ht, ?_, h.free, h.unasked, h.proxy, ?_, ?_, ?_⟩
  · have hnext := h.next_eq
    have hlength : keysTaken (b.events ++ events) = keysTaken b.events ++ keysTaken events :=
      List.filterMap_append
    rw [hlength, List.length_append]
    omega
  · exact ⟨h.agrees.receiving, h.agrees.qrun, h.agrees.askedFetch, h.agrees.stored,
      h.agrees.pending, h.agrees.askedDelete⟩
  · obtain ⟨t, done, hrep, hstored, hkeys⟩ := h.parts
    refine ⟨t, done, hrep, ?_, hkeys⟩
    rw [storesIn_append, storesIn_toManager, ← List.append_assoc, ← hstored]
    exact List.filterMap_append
  · rw [registersIn_append, registersIn_toManager, ← List.append_assoc, ← h.registered]
    exact List.filterMap_append
  · intro msg hmsg
    rcases List.mem_append.mp hmsg with hmsg | hmsg
    · exact h.own_mine msg hmsg
    · obtain ⟨e, -, he⟩ := List.mem_filterMap.mp hmsg
      cases e with
      | registerFuture key data =>
        cases he
        exact .inl ⟨key, data, rfl⟩
      | storeResult m =>
        cases he
        exact .inr ⟨m, rfl⟩
      | _ => cases he

end HeadKept

end ActiveBsp.CallSessions
