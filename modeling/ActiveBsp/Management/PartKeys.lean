import ActiveBsp.Management.Distribute
import ActiveBsp.Management.ParkedRequests

/-!
# The keys of parts at one process

A process numbers its own results and prefetched parts upwards from zero; a head
numbers the parts that it distributes downwards, wherever they are kept. One
lemma says what each input does to both counters and to the kept parts.
-/
namespace ActiveBsp.PartKeys

open Library Library.MachineInt ActorServer ParkedRequests Distributions.BlockDistribution

set_option autoImplicit false

variable {codec : Codec} {s s' : ActorServer} {i : Input} {out : List Output} {key : Int}

/-- The process keeps a part under the key, complete or not. -/
def Held (s : ActorServer) (key : Int) : Prop := s.dataStore.dvParts key ≠ none

/-- No dictionary of the store has the key. -/
def Absent (s : ActorServer) (key : Int) : Prop :=
  s.dataStore.dvParts key = none ∧ s.dataStore.resultVectorStore key = none ∧
    s.dataStore.resultMsgStore key = none

theorem absent_iff {t : PartTable} (ht : s.dataStore.Represents t) (key : Int) :
    Absent s key ↔ ¬ Held s key := by
  refine ⟨fun h hh => hh h.1, fun h => ?_⟩
  have hk : t key = none := (ht.dvParts_eq_none_iff key).mp (not_not.mp h)
  exact ht.absent hk

/-- The process leads its actor, as far as it knows. -/
def LeadsActor (s : ActorServer) : Prop := s.intraActorComm.any fun comm => comm.pid == 0

instance (s : ActorServer) : Decidable (LeadsActor s) := inferInstanceAs (Decidable (_ = true))

/-- How many keys of its own counter the process takes for the input. -/
def keysTaken (s : ActorServer) : Input → Nat
  | .message _ (.callActor _) | .takeKey => 1
  | .message _ (.prefetch _) => if LeadsActor s then 2 else 1
  | _ => 0

/-- How many keys of its counter for distributed parts. -/
def keysHanded (s : ActorServer) : Input → Nat
  | .message _ (.distributeVector _) => s.pids.length
  | _ => 0

/-- The own counter after some keys. -/
def keyAfter (first : Int) : Nat → Int
  | 0 => first
  | n + 1 => toInt32 (keyAfter first n + 1)

/-- The key under which the input brings a new part. -/
def insertedKey (s : ActorServer) : Input → Option Int
  | .message _ (.storeResult msg) => some msg.resId
  | .message _ (.prefetch _) =>
    some (keyAfter s.futureKeyManager.next (if LeadsActor s then 1 else 0))
  | _ => none

/-- Who numbered a part. -/
inductive Origin where
  | worker
  | head (pid : Int)
  deriving DecidableEq, Repr

/-- A numbered part that is still to be stored. -/
structure Posted where
  dst : Int
  key : Int
  origin : Origin
  deriving DecidableEq, Repr

/-- The parts that an output of the process numbers. -/
def posts (pid : Int) : Output → List Posted
  | .distrVector _ dv => dv.parts.map fun part => ⟨part.pid, part.resid, .head pid⟩
  | .workerKey key => [⟨pid, key, .worker⟩]
  | _ => []

/-- The parts that a step numbers. -/
def posted (s : ActorServer) (pid : Int) : Input → List Posted
  | .message _ (.distributeVector _) => (List.range s.pids.length).map fun n =>
    ⟨s.pids.getD n 0, localKey s.nextResultStoreLocalKey n, .head pid⟩
  | .takeKey => [⟨pid, s.futureKeyManager.next, .worker⟩]
  | _ => []

/-- What a step that returned did to keys. -/
structure KeyEffect (s : ActorServer) (i : Input) (out : List Output) (s' : ActorServer) :
    Prop where
  taken : s'.futureKeyManager.next = keyAfter s.futureKeyManager.next (keysTaken s i)
  handed : s'.nextResultStoreLocalKey = localKey s.nextResultStoreLocalKey (keysHanded s i)
  held : ∀ key, Held s' key → Held s key ∨ insertedKey s i = some key
  posts : ∀ pid, out.flatMap (posts pid) = posted s pid i

/-- The parts and the counters. -/
def keysView (s : ActorServer) : DataStore × FutureKeyManager × Int :=
  (s.dataStore, s.futureKeyManager, s.nextResultStoreLocalKey)

def IssuesNothing (o : Output) : Prop := ∀ pid, posts pid o = []

/-- A step that leaves parts and counters alone and issues no key. -/
private theorem idle_effect (hview : keysView s' = keysView s) (hout : ∀ o ∈ out, IssuesNothing o)
    (htaken : keysTaken s i = 0) (hhanded : keysHanded s i = 0)
    (hissued : ∀ msg src, i ≠ .message src (.distributeVector msg)) (hworker : i ≠ .takeKey) :
    KeyEffect s i out s' := by
  obtain ⟨hds, hrest⟩ := Prod.mk.inj hview
  obtain ⟨hnext, hlocal⟩ := Prod.mk.inj hrest
  refine ⟨by rw [htaken, hnext]; rfl, by rw [hhanded, hlocal]; rfl, fun key hk => .inl ?_, ?_⟩
  · rwa [Held, hds] at hk
  · intro pid
    rw [List.flatMap_eq_nil_iff.mpr fun o ho => hout o ho pid]
    unfold posted
    split
    · exact absurd rfl (hissued _ _)
    · exact absurd rfl hworker
    · rfl

theorem issuesNothing_of_lifecycle {o : Output} (h : IsLifecycle o) : IssuesNothing o := by
  intro pid
  cases o <;> first | rfl | exact h.elim

theorem issuesNothing_of_future {o : Output} (h : IsFuture o) : IssuesNothing o := by
  intro pid
  cases o <;> first | rfl | exact h.elim

theorem issuesNothing_of_result {o : Output} (h : IsResult o) : IssuesNothing o := by
  intro pid
  cases o <;> first | rfl | exact h.elim

theorem issuesNothing_of_announcement {o : Output} (h : IsAnnouncement o) : IssuesNothing o := by
  intro pid
  cases o <;> first | rfl | exact h.elim

private theorem lifecycle_effect {x : Handler Unit} (hx : OnLifecycle x)
    (h : x s = (out, .ok ((), s'))) (htaken : keysTaken s i = 0) (hhanded : keysHanded s i = 0)
    (hissued : ∀ msg src, i ≠ .message src (.distributeVector msg)) (hworker : i ≠ .takeKey) :
    KeyEffect s i out s' := by
  obtain ⟨hcore, hout⟩ := hx s out () s' h
  exact idle_effect (congrArg keysView hcore : keysView (lifecycleCore s') = _)
    (fun o ho => issuesNothing_of_lifecycle (hout o ho)) htaken hhanded hissued hworker

private theorem futures_effect (hcore : futuresFrame s' = futuresFrame s)
    (hout : ∀ o ∈ out, IsFuture o) (hkind : kind i = .futures) : KeyEffect s i out s' := by
  refine idle_effect (congrArg keysView hcore : keysView (futuresFrame s') = _)
    (fun o ho => issuesNothing_of_future (hout o ho)) ?_ ?_ ?_ ?_
  · unfold keysTaken
    split <;> first | rfl | cases hkind
  · unfold keysHanded
    split <;> first | rfl | cases hkind
  · rintro msg src rfl
    cases hkind
  · rintro rfl
    cases hkind

variable {t t' : PartTable}

theorem held_iff (ht : s.dataStore.Represents t) (key : Int) : Held s key ↔ t key ≠ none :=
  not_congr (ht.dvParts_eq_none_iff key)

private theorem results_effect (hcore : resultsCore s' = resultsCore s) (hout : ∀ o ∈ out, IsResult o)
    (hkind : kind i = .results)
    (hheld : ∀ key, Held s' key → Held s key ∨ insertedKey s i = some key) :
    KeyEffect s i out s' := by
  have hnext : s'.futureKeyManager = s.futureKeyManager := congrArg (·.futureKeyManager) hcore
  have hlocal : s'.nextResultStoreLocalKey = s.nextResultStoreLocalKey :=
    congrArg (·.nextResultStoreLocalKey) hcore
  refine ⟨?_, ?_, hheld, fun pid => ?_⟩
  · rw [hnext]
    unfold keysTaken
    split <;> first | rfl | cases hkind
  · rw [hlocal]
    unfold keysHanded
    split <;> first | rfl | cases hkind
  · rw [List.flatMap_eq_nil_iff.mpr fun o ho => issuesNothing_of_result (hout o ho) pid]
    unfold posted
    split <;> first | rfl | cases hkind

private theorem held_of_set {ds : DataStore} {part : Part} {k : Int}
    (ht : s.dataStore.Represents t) (hrep : ds.Represents (t.set k part))
    (h : Held { s with dataStore := ds } key) : Held s key ∨ k = key := by
  rw [held_iff (s := { s with dataStore := ds }) hrep] at h
  by_cases hk : key = k
  · exact .inr hk.symm
  · rw [PartialMap.set_of_ne _ _ hk] at h
    exact .inl ((held_iff ht key).mpr h)

theorem storeResult_held {msg : StoreResultMessage} (ht : s.dataStore.Represents t)
    (h : handleStoreResultMessage msg s = (out, .ok ((), s'))) (key : Int) (hk : Held s' key) :
    Held s key ∨ msg.resId = key := by
  have hl : s.resultStoreLock = false := (locked_inv h).1
  obtain ⟨t₁, ds, hap, hrep, rfl, -⟩ := ReplyOrder.handleStoreResultMessage_inv hl ht h
  obtain ⟨-, rfl⟩ := PartTable.store_inv hap
  exact held_of_set ht hrep hk

theorem storeResultPart_held {msg : StoreResultPartMessage} (ht : s.dataStore.Represents t)
    (h : handleStoreResultPartMessage msg s = (out, .ok ((), s'))) (key : Int) (hk : Held s' key) :
    Held s key := by
  have hl : s.resultStoreLock = false := (locked_inv h).1
  obtain ⟨t₁, ds, hap, hrep, rfl, -⟩ := ReplyOrder.handleStoreResultPartMessage_inv hl ht h
  cases hadd : t.add msg.resId msg.data msg.offset with
  | error e =>
    rw [ReplyOrder.PartMessage.apply, hadd] at hap
    cases hap
  | ok r =>
    rw [ReplyOrder.PartMessage.apply, hadd] at hap
    cases hap
    obtain ⟨part, hfits, hsome, -, -, hset⟩ := PartTable.add_inv hadd
    rw [hset] at hrep
    rcases held_of_set ht hrep hk with hold | rfl
    · exact hold
    · exact (held_iff ht _).mpr (hsome ▸ Option.some_ne_none part)

theorem releaseResult_held {resId : Int} (ht : s.dataStore.Represents t)
    (h : handleReleaseResultPartMessage resId s = (out, .ok ((), s'))) (key : Int)
    (hk : Held s' key) : Held s key := by
  have hl : s.resultStoreLock = false := (locked_inv h).1
  by_cases hnone : t resId = none
  · have href := DataStore.removePart_refines ht resId
    rw [PartTable.remove, if_pos hnone] at href
    have herr := href.of_error rfl
    unfold handleReleaseResultPartMessage at h
    rw [locked_update_last hl, herr] at h
    cases h
  · obtain ⟨ds', heq, hrep⟩ := handleReleaseResultPartMessage_removes hl ht hnone
    rw [heq] at h
    cases h
    rw [held_iff (s := { s with dataStore := ds' }) hrep] at hk
    refine (held_iff ht key).mpr fun hn => hk ?_
    by_cases hkey : key = resId
    · rw [hkey, PartialMap.erase_self]
    · rw [PartialMap.erase_of_ne _ hkey, hn]

theorem getResultParts_dataStore {src : Int} {msg : GetResultPartsMessage}
    (ht : s.dataStore.Represents t)
    (h : handleGetResultPartsMessage src msg s = (out, .ok ((), s'))) :
    s'.dataStore = s.dataStore := by
  obtain ⟨-, hbody⟩ := locked_inv h
  obtain ⟨out₁, b, s₁, out₂, h₁, h₂, rfl⟩ := Act.bind_ok_inv hbody
  obtain ⟨rfl, rfl⟩ := answerParts_reached (s := { s with resultStoreLock := true }) ht h₁
  cases b <;> cases h₂ <;> rfl

theorem getIntraActorComm_inv {comm : IntraActorCommunicator}
    (h : getIntraActorComm s = (out, .ok (comm, s'))) :
    s.intraActorComm = some comm ∧ out = [] ∧ s' = s := by
  unfold getIntraActorComm at h
  rw [Act.get_bind] at h
  cases hc : s.intraActorComm with
  | none =>
    rw [hc] at h
    cases h
  | some comm =>
    rw [hc] at h
    cases h
    exact ⟨rfl, rfl, rfl⟩

theorem isHead_inv {b : Bool} (h : isHead s = (out, .ok (b, s'))) :
    (b = true ↔ LeadsActor s) ∧ out = [] ∧ s' = s := by
  obtain ⟨out₁, comm, s₁, out₂, h₁, h₂, rfl⟩ := Act.bind_ok_inv h
  obtain ⟨hc, rfl, rfl⟩ := getIntraActorComm_inv h₁
  cases h₂
  refine ⟨?_, rfl, rfl⟩
  rw [LeadsActor, hc]
  exact Iff.rfl

theorem announcePrefetch_inv {src : Int} {msg : PrefetchMessage} {resFutureKey : Int}
    (h : announcePrefetch src msg s = (out, .ok (resFutureKey, s'))) :
    resFutureKey = s.futureKeyManager.next ∧
      s' = { s with futureKeyManager := s.futureKeyManager.takeKey.2 } ∧
      ∀ o ∈ out, IssuesNothing o := by
  have hout : ∀ o ∈ out, IssuesNothing o := fun o ho =>
    issuesNothing_of_announcement ((announcePrefetch_onPrefetch src msg s out _ s' h).2 o ho)
  obtain ⟨out₁, key, s₁, out₂, h₁, h₂, rfl⟩ := Act.bind_ok_inv h
  cases h₁
  obtain ⟨out₃, u, s₃, out₄, h₃, h₄, rfl⟩ := Act.bind_ok_inv h₂
  cases h₃
  rw [Act.get_bind] at h₄
  cases hp : s.pids with
  | nil =>
    simp only [hp] at h₄
    cases h₄
  | cons head slaves =>
    simp only [hp] at h₄
    obtain ⟨out₅, u, s₅, out₆, h₅, h₆, rfl⟩ := Act.bind_ok_inv h₄
    obtain ⟨-, rfl⟩ := Act.forM_emitting_inv (g := fun pid => [.actorMessage pid (.prefetch msg)])
      (fun pid _ o u s'' hr => by cases hr; exact ⟨rfl, rfl⟩) h₅
    cases h₆
    exact ⟨rfl, rfl, hout⟩

theorem preparePart_inv {msg : PrefetchMessage} {partKey : Int} (ht : s.dataStore.Represents t)
    (h : preparePart msg s = (out, .ok (partKey, s'))) :
    ∃ ds size, partKey = s.futureKeyManager.next ∧ t partKey = none ∧
      ds.Represents (t.set partKey (.prepared size)) ∧
      s' = { s with futureKeyManager := s.futureKeyManager.takeKey.2, dataStore := ds } ∧
      out = [] := by
  obtain ⟨out₁, comm, s₁, out₂, h₁, h₂, rfl⟩ := Act.bind_ok_inv h
  obtain ⟨-, rfl, hs⟩ := getIntraActorComm_inv h₁
  obtain rfl := hs.symm
  obtain ⟨out₃, key, s₃, out₄, h₃, h₄, rfl⟩ := Act.bind_ok_inv h₂
  cases h₃
  obtain ⟨hl, h₅⟩ := locked_inv h₄
  obtain ⟨out₅, u, s₅, out₆, h₆, h₇, rfl⟩ := Act.bind_ok_inv h₅
  cases h₇
  have href := DataStore.preparePartVector_refines ht s.futureKeyManager.next
    (sub64 (divRange msg.dvSize comm.pid comm.nprocs).2 (divRange msg.dvSize comm.pid comm.nprocs).1)
  simp only [updateDataStore, Act.lift_apply] at h₆
  cases hds : s.dataStore.preparePartVector s.futureKeyManager.next
      (sub64 (divRange msg.dvSize comm.pid comm.nprocs).2
        (divRange msg.dvSize comm.pid comm.nprocs).1) with
  | error e =>
    simp only [FutureKeyManager.takeKey, hds] at h₆
    cases h₆
  | ok ds =>
    simp only [FutureKeyManager.takeKey, hds] at h₆
    cases h₆
    obtain ⟨t', hstore, hrep⟩ := href.ok_inv hds
    obtain ⟨hnone, rfl⟩ := PartTable.store_inv hstore
    refine ⟨ds, _, rfl, hnone, hrep, ?_, rfl⟩
    simp only [FutureKeyManager.takeKey]
    rw [show s.resultStoreLock = false from hl]

private theorem prefetch_effect {src : Int} {msg : PrefetchMessage}
    (ht : s.dataStore.Represents t)
    (h : handlePrefetchMessage src msg s = (out, .ok ((), s'))) :
    KeyEffect s (.message src (.prefetch msg)) out s' := by
  have hout : ∀ o ∈ out, IssuesNothing o := fun o ho =>
    issuesNothing_of_announcement ((handlePrefetchMessage_onPrefetch src msg s out () s' h).2 o ho)
  obtain ⟨out₁, head, s₁, out₂, h₁, h₂, rfl⟩ := Act.bind_ok_inv h
  obtain ⟨hhead, rfl, hs⟩ := isHead_inv h₁
  obtain rfl := hs.symm
  have hissued : ∀ pid, ([] ++ out₂).flatMap (posts pid) = [] := fun pid =>
    List.flatMap_eq_nil_iff.mpr fun o ho => hout o ho pid
  cases head with
  | false =>
    have hslave : ¬ LeadsActor s := fun hl => Bool.false_ne_true (hhead.mpr hl)
    obtain ⟨out₃, partKey, s₃, out₄, h₃, h₄, rfl⟩ := Act.bind_ok_inv h₂
    obtain ⟨ds, size, rfl, -, hrep, rfl, rfl⟩ := preparePart_inv ht h₃
    cases h₄
    refine ⟨?_, rfl, fun key hk => ?_, hissued⟩
    · simp only [keysTaken, if_neg hslave]
      rfl
    · simp only [insertedKey, if_neg hslave, Option.some_inj]
      exact held_of_set ht hrep hk
  | true =>
    have hl : LeadsActor s := hhead.mp rfl
    obtain ⟨out₃, resFutureKey, s₃, out₄, h₃, h₄, rfl⟩ := Act.bind_ok_inv h₂
    obtain ⟨rfl, rfl, -⟩ := announcePrefetch_inv h₃
    obtain ⟨out₅, partKey, s₅, out₆, h₅, h₆, rfl⟩ := Act.bind_ok_inv h₄
    obtain ⟨ds, size, rfl, -, hrep, rfl, rfl⟩ := preparePart_inv (t := t)
      (s := { s with futureKeyManager := s.futureKeyManager.takeKey.2 }) ht h₅
    cases h₆
    refine ⟨?_, rfl, fun key hk => ?_, hissued⟩
    · simp only [keysTaken, if_pos hl]
      rfl
    · simp only [insertedKey, if_pos hl, Option.some_inj]
      exact held_of_set ht hrep hk

private theorem callActor_effect {src : Int} {msg : CallActorMessage}
    (h : handleCallActorMessage src msg s = (out, .ok ((), s'))) :
    KeyEffect s (.message src (.callActor msg)) out s' := by
  obtain ⟨out₁, key, s₁, out₂, h₁, h₂, rfl⟩ := Act.bind_ok_inv h
  cases h₁
  obtain ⟨out₃, u, s₃, out₄, h₃, h₄, rfl⟩ := Act.bind_ok_inv h₂
  cases h₄
  unfold useActorWorkerProxy at h₃
  rw [Act.get_bind] at h₃
  split_ifs at h₃ with hproxy
  · cases h₃
    exact ⟨rfl, rfl, fun key hk => .inl hk, fun pid => rfl⟩
  · cases h₃

/-- Each input numbers, issues and keeps parts as its kind does. -/
theorem step_key_effect (ht : s.dataStore.Represents t)
    (h : step codec i s = (out, .ok ((), s'))) : KeyEffect s i out s' := by
  have hkeeps := step_kind i s out () s' h
  cases i with
  | message src msg =>
    have hrun := (step_message_inv h).2.2
    cases msg with
    | stop =>
      exact lifecycle_effect handleStopActorProcessMessage_onLifecycle hrun rfl rfl (fun _ _ h => by cases h)
        fun h => by cases h
    | createActor msg =>
      exact lifecycle_effect (handleCreateActorMessage_onLifecycle src msg) hrun rfl rfl (fun _ _ h => by cases h)
        fun h => by cases h
    | destroyActor ask =>
      exact lifecycle_effect (handleStopActorMessage_onLifecycle src ask) hrun rfl rfl (fun _ _ h => by cases h)
        fun h => by cases h
    | callActor msg => exact callActor_effect hrun
    | registerFutureData key data => exact futures_effect hkeeps.1 hkeeps.2 rfl
    | getFutureData key => exact futures_effect hkeeps.1 hkeeps.2 rfl
    | releaseFuture key => exact futures_effect hkeeps.1 hkeeps.2 rfl
    | storeResult msg =>
      exact results_effect hkeeps.1 hkeeps.2 rfl fun key hk =>
        (storeResult_held ht hrun key hk).imp_right (congrArg some)
    | storeResultPart msg =>
      exact results_effect hkeeps.1 hkeeps.2 rfl fun key hk => .inl (storeResultPart_held ht hrun key hk)
    | releaseResult resId =>
      exact results_effect hkeeps.1 hkeeps.2 rfl fun key hk => .inl (releaseResult_held ht hrun key hk)
    | getResultParts msg =>
      refine results_effect hkeeps.1 hkeeps.2 rfl fun key hk => .inl ?_
      rwa [Held, getResultParts_dataStore ht hrun] at hk
    | distributeVector msg =>
      rw [routeHandleMessage, handleDistributeVectorMessage_eq] at hrun
      cases hrun
      refine ⟨rfl, rfl, fun key hk => .inl hk, fun pid => ?_⟩
      rw [List.flatMap_singleton, posts, distribution, List.map_map]
      rfl
    | prefetch msg => exact prefetch_effect ht hrun
    | fetch msg => exact futures_effect hkeeps.1 hkeeps.2 rfl
  | gatheredKeys keys => exact futures_effect hkeeps.1 hkeeps.2 rfl
  | broadcastVd dv => exact futures_effect hkeeps.1 hkeeps.2 rfl
  | setIntraActorComm comm =>
    cases h
    exact ⟨rfl, rfl, fun key hk => .inl hk, fun pid => rfl⟩
  | takeKey =>
    cases h
    exact ⟨rfl, rfl, fun key hk => .inl hk, fun pid => rfl⟩

end ActiveBsp.PartKeys
