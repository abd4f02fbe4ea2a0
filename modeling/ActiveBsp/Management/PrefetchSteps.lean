import ActiveBsp.Library.Lists
import ActiveBsp.Management.Network
import ActiveBsp.Management.Parts

/-!
# The steps of a prefetch

What each handler of a prefetch does to a process that is ready for it, in one
equation. A process prepares its part, the head hands the keys on, and whoever
fetches sends its pieces.
-/
namespace ActiveBsp.ActorServer

open Library Distributions.BlockDistribution

set_option autoImplicit false

variable {codec : Codec} {s : ActorServer} {t : PartTable}

/-- The size that process `comm.pid` prepares. -/
def preparedSize (comm : IntraActorCommunicator) (dvSize : Nat) : Nat :=
  MachineInt.sub64 (divRange dvSize comm.pid comm.nprocs).2 (divRange dvSize comm.pid comm.nprocs).1

theorem preparePart_eq {comm : IntraActorCommunicator} (msg : PrefetchMessage)
    (hc : s.intraActorComm = some comm) (hl : s.resultStoreLock = false)
    (ht : s.dataStore.Represents t) (hk : t s.futureKeyManager.takeKey.1 = none) :
    ∃ ds, preparePart msg s = ([], .ok (s.futureKeyManager.takeKey.1,
        { s with futureKeyManager := s.futureKeyManager.takeKey.2, dataStore := ds })) ∧
      ds.Represents (t.set s.futureKeyManager.takeKey.1
        (.prepared (preparedSize comm msg.dvSize))) := by
  have href := DataStore.preparePartVector_refines ht s.futureKeyManager.takeKey.1
    (preparedSize comm msg.dvSize)
  obtain ⟨ds, hds, hrep⟩ := href.of_ok (by rw [PartTable.store, if_pos hk])
  refine ⟨ds, ?_, hrep⟩
  have htake : takeKey s = ([], .ok (s.futureKeyManager.takeKey.1,
      { s with futureKeyManager := s.futureKeyManager.takeKey.2 })) := rfl
  unfold preparePart
  rw [Act.bind_of_ok (getIntraActorComm_of_some hc), Act.bind_of_ok htake,
    locked_update (s := { s with futureKeyManager := s.futureKeyManager.takeKey.2 }) hl]
  unfold preparedSize at hds
  simp only [hds]
  rfl

/-- The head takes a key for the future first, and waits for the keys of the slaves. -/
theorem handlePrefetchMessage_of_head {comm : IntraActorCommunicator} {head : Int}
    {slaves : List Int} (src : Int) (msg : PrefetchMessage) (hc : s.intraActorComm = some comm)
    (h0 : comm.pid = 0) (hp : s.pids = head :: slaves) (hl : s.resultStoreLock = false)
    (ht : s.dataStore.Represents t)
    (hk : t s.futureKeyManager.takeKey.2.takeKey.1 = none) :
    ∃ ds, handlePrefetchMessage src msg s =
        (.responseCode src s.futureKeyManager.takeKey.1 ::
          slaves.map (fun pid => .actorMessage pid (.prefetch msg)),
        .ok ((), { s with
          futureKeyManager := s.futureKeyManager.takeKey.2.takeKey.2
          dataStore := ds
          phase := .gatheringKeys
            ⟨msg, s.futureKeyManager.takeKey.1, s.futureKeyManager.takeKey.2.takeKey.1⟩ })) ∧
      ds.Represents (t.set s.futureKeyManager.takeKey.2.takeKey.1
        (.prepared (preparedSize comm msg.dvSize))) := by
  obtain ⟨ds, hprep, hrep⟩ := preparePart_eq (s := { s with
    futureKeyManager := s.futureKeyManager.takeKey.2 }) msg hc hl ht hk
  refine ⟨ds, ?_, hrep⟩
  have htake : takeKey s = ([], .ok (s.futureKeyManager.takeKey.1,
      { s with futureKeyManager := s.futureKeyManager.takeKey.2 })) := rfl
  have hannounce : announcePrefetch src msg s =
      (.responseCode src s.futureKeyManager.takeKey.1 ::
          slaves.map (fun pid => .actorMessage pid (.prefetch msg)),
        .ok (s.futureKeyManager.takeKey.1,
          { s with futureKeyManager := s.futureKeyManager.takeKey.2 })) := by
    unfold announcePrefetch
    rw [Act.bind_of_ok htake, Act.emit_bind, Act.get_bind]
    simp only [hp]
    rw [Act.bind_of_ok (Act.forM_emit _ slaves _)]
    simp
  unfold handlePrefetchMessage
  rw [Act.bind_of_ok (isHead_of_head ⟨comm, hc, h0⟩)]
  simp only [if_true]
  rw [Act.bind_of_ok hannounce, Act.bind_of_ok hprep]
  simp

theorem handlePrefetchMessage_of_slave {comm : IntraActorCommunicator} (src : Int)
    (msg : PrefetchMessage) (hc : s.intraActorComm = some comm) (h0 : comm.pid ≠ 0)
    (hl : s.resultStoreLock = false) (ht : s.dataStore.Represents t)
    (hk : t s.futureKeyManager.takeKey.1 = none) :
    ∃ ds, handlePrefetchMessage src msg s = ([.gatherKey s.futureKeyManager.takeKey.1],
        .ok ((), { s with futureKeyManager := s.futureKeyManager.takeKey.2, dataStore := ds })) ∧
      ds.Represents (t.set s.futureKeyManager.takeKey.1
        (.prepared (preparedSize comm msg.dvSize))) := by
  obtain ⟨ds, hprep, hrep⟩ := preparePart_eq msg hc hl ht hk
  refine ⟨ds, ?_, hrep⟩
  unfold handlePrefetchMessage
  rw [Act.bind_of_ok (isHead_of_some hc), beq_false_of_ne h0]
  simp only [Bool.false_eq_true, if_false]
  rw [Act.bind_of_ok hprep]
  rfl

/-- When all keys are there, the head asks for the bytes and registers the distribution. -/
theorem resumePrefetch_eq {comm : IntraActorCommunicator} {prefetch : GatheringPrefetch}
    {keys : List Int} {msg : FetchMessage} (hc : s.intraActorComm = some comm)
    (hm : (⟨s.pids, prefetch.partKey :: keys, prefetch.msg.futureKey, prefetch.resFutureKey,
      prefetch.msg.dvSize⟩ : FetchMessage) = msg)
    (hf : s.askedFetch msg.resFutureKey = none)
    (hd : s.askedFutureDelete msg.resFutureKey = false) :
    resumePrefetch codec prefetch keys s =
      (.actorMessage prefetch.msg.futurePid (.fetch msg) ::
          ((s.pendingFutureRequests msg.resFutureKey).getD []).map (fun pid =>
            .futureData pid (codec.serializeAll (prefetchedDistribution comm.nprocs msg))),
        .ok ((), ({ s with phase := .receiving } : ActorServer).registered msg.resFutureKey
          (codec.serializeAll (prefetchedDistribution comm.nprocs msg)))) := by
  subst hm
  have hcomm : getIntraActorComm { s with phase := .receiving } =
      ([], .ok (comm, { s with phase := .receiving })) := getIntraActorComm_of_some hc
  have hn : ¬ (s.pendingFutureRequests prefetch.resFutureKey = none ∧
      s.askedFutureDelete prefetch.resFutureKey = true) := by simp [hd]
  unfold resumePrefetch
  rw [Act.modify_bind, Act.bind_of_ok hcomm, Act.get_bind]
  dsimp only
  rw [Act.emit_bind, registerFuture_serves (s := { s with phase := .receiving }) hf hn]
  rfl

/-- What a process sends depends on its own parts only. -/
theorem pieces_congr {t' : PartTable} {pid : Int} {msg : FetchMessage} {dv : VectorDistribution}
    (h : ∀ part ∈ dv.parts, part.pid = pid → t.available part.resid = t'.available part.resid) :
    pieces t pid msg dv = pieces t' pid msg dv := by
  refine List.flatMap_congr fun dst _ => List.flatMap_congr fun part hp => ?_
  unfold piece
  split_ifs with hs
  · rw [h part hp hs.1.symm]
  · rfl

/-- A message that finds the process waiting for something else is not taken. -/
theorem step_message_of_busy {src : Int} {msg : ActorMessage} (h : s.phase ≠ .receiving) :
    step codec (.message src msg) s = ([], .error .blocked) := by
  simp only [step, Act.get_bind]
  cases hp : s.phase with
  | receiving => exact absurd hp h
  | gatheringKeys prefetch => rfl
  | awaitingVd msg => rfl

theorem step_gatheredKeys_of_idle {keys : List Int} (h : ∀ prefetch, s.phase ≠ .gatheringKeys prefetch) :
    step codec (.gatheredKeys keys) s = ([], .error .blocked) := by
  simp only [step, Act.get_bind]
  cases hp : s.phase with
  | receiving => rfl
  | gatheringKeys prefetch => exact absurd hp (h prefetch)
  | awaitingVd msg => rfl

theorem step_broadcastVd_of_idle {dv : VectorDistribution} (h : ∀ msg, s.phase ≠ .awaitingVd msg) :
    step codec (.broadcastVd dv) s = ([], .error .blocked) := by
  simp only [step, Act.get_bind]
  cases hp : s.phase with
  | receiving => rfl
  | gatheringKeys prefetch => rfl
  | awaitingVd msg => exact absurd hp (h msg)

end ActiveBsp.ActorServer

namespace ActiveBsp.Network

open ActorServer

set_option autoImplicit false

variable {codec : Codec} {net : Network} {pid : Int}

theorem handle_blocked {input : Input}
    (h : ActorServer.step codec input (net.servers pid) = ([], .error .blocked)) :
    handle codec pid input net = ([], .error .blocked) := by
  rw [handle, h]

theorem deliver_of_busy {src : Int} (h : (net.servers pid).phase ≠ .receiving) :
    step codec (.deliver src pid) net = ([], .error .blocked) := by
  cases hm : net.mail src pid with
  | nil => simp only [step, hm]
  | cons msg rest =>
    simp only [step, hm]
    exact handle_blocked (step_message_of_busy h)

theorem gather_of_idle (h : ∀ prefetch, (net.servers pid).phase ≠ .gatheringKeys prefetch) :
    step codec (.gather pid) net = ([], .error .blocked) := by
  simp only [step]
  split
  · rfl
  · exact handle_blocked (step_gatheredKeys_of_idle h)

theorem broadcast_of_idle (h : ∀ msg, (net.servers pid).phase ≠ .awaitingVd msg) :
    step codec (.broadcast pid) net = ([], .error .blocked) := by
  cases hb : net.broadcasts pid with
  | nil => simp only [step, hb]
  | cons dv rest =>
    simp only [step, hb]
    exact handle_blocked (step_broadcastVd_of_idle h)

end ActiveBsp.Network
