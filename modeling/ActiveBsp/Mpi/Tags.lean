import ActiveBsp.Management.Distribute
import ActiveBsp.Management.Frames
import ActiveBsp.Serialization.RoundTrip

/-!
# Which thread may receive a message

The threads of a process share one rank, and only the tag of a message says for
whom it is. Managers receive with the management tag from any source; the
threads that call them wait for their replies from one source.
-/
namespace ActiveBsp.Tags

open Library

set_option autoImplicit false

/-- `ABSP_MPI_MANAGEMENT_THREAD_TAG` and `ABSP_MPI_WORKER_THREAD_TAG`. -/
inductive Tag where
  | management
  | worker
  deriving DecidableEq, Repr

inductive Payload where
  | actorMessage (msg : ActorMessage)
  | responseCode (code : Int)
  | futureData (data : Bytes)
  | resultPart (data : Bytes)
  | distrVector (dv : VectorDistribution)
  deriving DecidableEq, Repr

structure Packet where
  src : Int
  dst : Int
  tag : Tag
  payload : Payload
  deriving DecidableEq, Repr

/-- The sends of `MPIActorCommunicator`, with the tag of each. -/
def sendActorMessage (src dst : Int) (msg : ActorMessage) : Packet :=
  ⟨src, dst, .management, .actorMessage msg⟩
def sendResponseCode (src dst code : Int) : Packet := ⟨src, dst, .worker, .responseCode code⟩
def sendFutureData (src dst : Int) (data : Bytes) : Packet := ⟨src, dst, .worker, .futureData data⟩
def sendResultPart (src dst : Int) (data : Bytes) : Packet := ⟨src, dst, .worker, .resultPart data⟩
def sendDistrVector (src dst : Int) (dv : VectorDistribution) : Packet :=
  ⟨src, dst, .management, .distrVector dv⟩

/-- What an output of the manager puts on the network. -/
def sends (pid : Int) : Output → List Packet
  | .actorMessage dst msg => [sendActorMessage pid dst msg]
  | .responseCode dst code => [sendResponseCode pid dst code]
  | .futureData dst data => [sendFutureData pid dst data]
  | .resultPart dst data => [sendResultPart pid dst data]
  | .distrVector dst dv => [sendDistrVector pid dst dv]
  | _ => []

/-- The managers, and the packets under way in the order of their sending. -/
structure World where
  servers : Int → ActorServer
  network : List Packet

/-- Every process but rank 0 runs the manager loop. -/
def HasManager (pid : Int) : Prop := pid ≠ 0

instance (pid : Int) : Decidable (HasManager pid) := inferInstanceAs (Decidable (_ ≠ _))

inductive Move where
  /-- A client, or the worker thread of an actor, sends a message. -/
  | send (src dst : Int) (msg : ActorMessage)
  /-- It takes a reply that it waits for. -/
  | receive (pid src : Int) (tag : Tag)
  /-- The manager loop takes a message from some source. -/
  | manage (pid src : Int)
  /-- The manager goes on with something else than a message. -/
  | turn (pid : Int) (input : Input)
  deriving DecidableEq, Repr

namespace World

/-- The next packet from the source: MPI lets none overtake another with the same tag. -/
def next? (world : World) (pid src : Int) (tag : Tag) : Option Packet :=
  world.network.find? fun p => p.src = src ∧ p.dst = pid ∧ p.tag = tag

def take (world : World) (p : Packet) : World := { world with network := world.network.erase p }

/-- One input of a manager, whose outputs go out. -/
def run (codec : Codec) (pid : Int) (input : Input) : Act World Packet Fault Unit := fun world =>
  match ActorServer.step codec input (world.servers pid) with
  | (out, .error e) => (out.flatMap (sends pid), .error e)
  | (out, .ok (_, s)) => (out.flatMap (sends pid), .ok ((), ⟨Function.update world.servers pid s,
      world.network ++ out.flatMap (sends pid)⟩))

/-- `receiveActorMessage`, and the handler of what it received. -/
def manage (codec : Codec) (pid src : Int) : Act World Packet Fault Unit := fun world =>
  match world.next? pid src .management with
  | none => ([], .error .blocked)
  | some p =>
    match p.payload with
    | .actorMessage msg => run codec pid (.message src msg) (world.take p)
    -- the bytes of a reply are read as an instruction code and its fields
    | _ => ([], .error .undefined)

def step (codec : Codec) : Move → Act World Packet Fault Unit
  | .send src dst msg => fun world =>
    ([sendActorMessage src dst msg],
      .ok ((), { world with network := world.network ++ [sendActorMessage src dst msg] }))
  | .receive pid src tag => fun world =>
    match world.next? pid src tag with
    | none => ([], .error .blocked)
    | some p => ([], .ok ((), world.take p))
  | .manage pid src => if HasManager pid then manage codec pid src else Act.fail .blocked
  | .turn _ (.message ..) => Act.fail .blocked
  | .turn pid input => run codec pid input

end World

def Payload.IsActorMessage : Payload → Prop
  | .actorMessage _ => True
  | _ => False

instance (payload : Payload) : Decidable payload.IsActorMessage := by
  unfold Payload.IsActorMessage
  split <;> infer_instance

open World

variable {codec : Codec} {world world' : World} {move : Move} {moves : List Move} {p : Packet}
  {out : List Packet} {pid src : Int} {tag : Tag} {input : Input}

/-- Every message that the loop of some manager can match is an actor message. -/
def Sound (world : World) : Prop :=
  ∀ p ∈ world.network, HasManager p.dst → p.tag = .management → p.payload.IsActorMessage

instance (world : World) : Decidable (Sound world) := inferInstanceAs (Decidable (∀ _ ∈ _, _))

/-- What the move's manager takes is an actor message. -/
def TakesRequest (world : World) : Move → Prop
  | .manage pid src => HasManager pid → ∀ p, world.next? pid src .management = some p →
      p.payload.IsActorMessage
  | _ => True

/-- No reply is mistaken for a request by the move, or can be after it. -/
def Unmistaken (codec : Codec) (world : World) (move : Move) : Prop :=
  TakesRequest world move ∧ Act.Yields (World.step codec move) Sound world

/-- The message that a manager handles in the move. -/
def handled? (world : World) : Move → Option (Int × Int × ActorMessage)
  | .manage pid src =>
    if HasManager pid ∧ (world.servers pid).phase = .receiving ∧ (world.servers pid).qrun = true
    then match world.next? pid src .management with
      | some ⟨_, _, _, .actorMessage msg⟩ => some (pid, src, msg)
      | _ => none
    else none
  | _ => none

/-- A vector is distributed for callers without a manager only. -/
def DistributesForClient (world : World) (move : Move) : Prop :=
  ∀ pid src msg, handled? world move = some (pid, src, .distributeVector msg) → ¬ HasManager src

theorem next?_some (h : world.next? pid src tag = some p) :
    p ∈ world.network ∧ p.src = src ∧ p.dst = pid ∧ p.tag = tag := by
  have hp := List.find?_some h
  exact ⟨List.mem_of_find?_eq_some h, by simpa using hp⟩

theorem Sound.take (h : Sound world) (p : Packet) : Sound (world.take p) := fun p' hp' =>
  h p' (List.mem_of_mem_erase hp')

/-- The replies that a manager could take are distributions for processes with a manager. -/
theorem sends_isActorMessage {o : Output} (hp : p ∈ sends pid o) (hd : HasManager p.dst)
    (ht : p.tag = .management) :
    p.payload.IsActorMessage ∨ ∃ dst dv, o = .distrVector dst dv ∧ HasManager dst := by
  cases o with
  | distrVector dst dv =>
    obtain rfl := List.mem_singleton.mp hp
    exact .inr ⟨dst, dv, rfl, hd⟩
  | actorMessage dst msg =>
    obtain rfl := List.mem_singleton.mp hp
    exact .inl trivial
  | responseCode dst code =>
    obtain rfl := List.mem_singleton.mp hp
    cases ht
  | futureData dst data =>
    obtain rfl := List.mem_singleton.mp hp
    cases ht
  | resultPart dst data =>
    obtain rfl := List.mem_singleton.mp hp
    cases ht
  | _ => cases hp

/-- Only the handler of `DistributeVector` sends a distribution, and to the caller. -/
theorem distrVector_inv {s s' : ActorServer} {outs : List Output} {dst : Int}
    {dv : VectorDistribution} (h : ActorServer.step codec input s = (outs, .ok ((), s')))
    (hdv : .distrVector dst dv ∈ outs) : ∃ msg, input = .message dst (.distributeVector msg) := by
  have hemits := (ActorServer.step_kind input s outs () s' h).2 _ hdv
  cases input with
  | message src msg =>
    cases msg with
    | distributeVector msg =>
      have hrun := (ActorServer.step_message_inv h).2.2
      rw [ActorServer.routeHandleMessage, ActorServer.handleDistributeVectorMessage_eq] at hrun
      cases hrun
      cases List.mem_singleton.mp hdv
      exact ⟨msg, rfl⟩
    | _ => cases hemits
  | _ => cases hemits

theorem run_ok_inv (h : run codec pid input world = (out, .ok ((), world'))) :
    ∃ outs s', ActorServer.step codec input (world.servers pid) = (outs, .ok ((), s')) ∧
      world' = ⟨Function.update world.servers pid s', world.network ++ outs.flatMap (sends pid)⟩ := by
  unfold run at h
  rcases hs : ActorServer.step codec input (world.servers pid) with ⟨outs, e | ⟨u, s'⟩⟩
  · rw [hs] at h
    cases h
  · rw [hs] at h
    cases h
    exact ⟨outs, s', rfl, rfl⟩

/-- One turn of a manager sends no reply that another manager could take, unless it distributes a
vector for a process with a manager. -/
theorem Sound.run (hw : Sound world) (h : World.run codec pid input world = (out, .ok ((), world')))
    (hclient : ∀ src msg, input = .message src (.distributeVector msg) → ¬ HasManager src) :
    Sound world' := by
  obtain ⟨outs, s', hs, rfl⟩ := run_ok_inv h
  intro p hp hd ht
  rcases List.mem_append.mp hp with hp | hp
  · exact hw p hp hd ht
  · obtain ⟨o, ho, hp⟩ := List.mem_flatMap.mp hp
    rcases sends_isActorMessage hp hd ht with hmsg | ⟨dst, dv, rfl, hdst⟩
    · exact hmsg
    · obtain ⟨msg, rfl⟩ := distrVector_inv hs ho
      exact absurd hdst (hclient dst msg rfl)

theorem manage_ok_inv (h : World.manage codec pid src world = (out, .ok ((), world'))) :
    ∃ p msg, world.next? pid src .management = some p ∧ p.payload = .actorMessage msg ∧
      World.run codec pid (.message src msg) (world.take p) = (out, .ok ((), world')) := by
  unfold World.manage at h
  cases hn : world.next? pid src .management with
  | none =>
    rw [hn] at h
    cases h
  | some p =>
    simp only [hn] at h
    cases hp : p.payload with
    | actorMessage msg =>
      simp only [hp] at h
      exact ⟨p, msg, rfl, hp, h⟩
    | _ =>
      simp only [hp] at h
      cases h

theorem handled?_of_next? {msg : ActorMessage} (hm : HasManager pid)
    (hr : (world.servers pid).phase = .receiving) (hq : (world.servers pid).qrun = true)
    (hn : world.next? pid src .management = some p) (hp : p.payload = .actorMessage msg) :
    handled? world (.manage pid src) = some (pid, src, msg) := by
  obtain ⟨psrc, pdst, ptag, payload⟩ := p
  obtain rfl : payload = .actorMessage msg := hp
  simp only [handled?, if_pos (And.intro hm (And.intro hr hq)), hn]

theorem handled?_inv {move : Move} {src' : Int} {msg : ActorMessage}
    (h : handled? world move = some (pid, src', msg)) :
    move = .manage pid src' ∧ HasManager pid ∧ (world.servers pid).phase = .receiving ∧
      (world.servers pid).qrun = true ∧ ∃ p, world.next? pid src' .management = some p ∧
        p.payload = .actorMessage msg := by
  unfold handled? at h
  cases move with
  | manage q src =>
    dsimp only at h
    by_cases hc : HasManager q ∧ (world.servers q).phase = .receiving ∧ (world.servers q).qrun = true
    · rw [if_pos hc] at h
      cases hn : world.next? q src .management with
      | none =>
        simp only [hn] at h
        cases h
      | some p =>
        obtain ⟨psrc, pdst, ptag, payload⟩ := p
        simp only [hn] at h
        cases payload with
        | actorMessage msg' =>
          cases h
          exact ⟨rfl, hc.1, hc.2.1, hc.2.2, _, hn, rfl⟩
        | _ => cases h
    · rw [if_neg hc] at h
      cases h
  | _ => cases h

/-- The handler cannot fail, and its reply is then under way to the caller's process. -/
theorem run_distribute (hr : (world.servers pid).phase = .receiving)
    (hq : (world.servers pid).qrun = true) (src : Int) (msg : DistributeVectorMessage) :
    ∃ out world', World.run codec pid (.message src (.distributeVector msg)) world =
        (out, .ok ((), world')) ∧
      sendDistrVector pid src (ActorServer.distribution (world.servers pid).pids
        (world.servers pid).nextResultStoreLocalKey msg) ∈ world'.network := by
  unfold World.run
  rw [ActorServer.step_message hr hq, ActorServer.routeHandleMessage,
    ActorServer.handleDistributeVectorMessage_eq]
  exact ⟨_, _, rfl, List.mem_append_right _ (List.mem_singleton.mpr rfl)⟩

private theorem client_of_unmistaken (hu : Unmistaken codec world move) :
    DistributesForClient world move := by
  intro pid src msg hh hsrc
  obtain ⟨rfl, hm, hr, hq, p, hn, hp⟩ := handled?_inv hh
  obtain ⟨out, world', hrun, hmem⟩ :=
    @run_distribute codec (world.take p) pid hr hq src msg
  have hstep : World.step codec (.manage pid src) world = (out, .ok ((), world')) := by
    simp only [World.step, if_pos hm, World.manage, hn, hp]
    exact hrun
  exact hu.2 out world' hstep _ hmem hsrc rfl

theorem Sound.step (hw : Sound world) (hc : DistributesForClient world move)
    (h : World.step codec move world = (out, .ok ((), world'))) : Sound world' := by
  cases move with
  | send src dst msg =>
    cases h
    intro p hp hd ht
    rcases List.mem_append.mp hp with hp | hp
    · exact hw p hp hd ht
    · obtain rfl := List.mem_singleton.mp hp
      trivial
  | receive pid src tag =>
    unfold World.step at h
    cases hn : world.next? pid src tag with
    | none =>
      simp only [hn] at h
      cases h
    | some p =>
      simp only [hn] at h
      cases h
      exact hw.take p
  | manage pid src =>
    unfold World.step at h
    by_cases hm : HasManager pid
    · simp only [if_pos hm] at h
      obtain ⟨p, msg, hn, hp, hrun⟩ := manage_ok_inv h
      refine (hw.take p).run hrun fun src' msg' heq => ?_
      cases heq
      obtain ⟨outs, s', hs, -⟩ := run_ok_inv hrun
      obtain ⟨hr, hq, -⟩ := ActorServer.step_message_inv hs
      exact hc pid src msg' (handled?_of_next? hm hr hq hn hp)
    · simp only [if_neg hm] at h
      cases h
  | turn pid input =>
    cases input with
    | message src msg => cases h
    | gatheredKeys keys =>
      have hrun : World.run codec pid (.gatheredKeys keys) world = (out, .ok ((), world')) := h
      exact hw.run hrun fun src msg heq => by cases heq
    | broadcastVd dv =>
      have hrun : World.run codec pid (.broadcastVd dv) world = (out, .ok ((), world')) := h
      exact hw.run hrun fun src msg heq => by cases heq
    | setIntraActorComm comm =>
      have hrun : World.run codec pid (.setIntraActorComm comm) world = (out, .ok ((), world')) := h
      exact hw.run hrun fun src msg heq => by cases heq
    | takeKey =>
      have hrun : World.run codec pid .takeKey world = (out, .ok ((), world')) := h
      exact hw.run hrun fun src msg heq => by cases heq

theorem unmistaken_step_iff (hw : Sound world) :
    Unmistaken codec world move ↔ DistributesForClient world move := by
  refine ⟨client_of_unmistaken, fun hc => ⟨?_, fun out world' h => hw.step hc h⟩⟩
  cases move with
  | manage pid src =>
    intro hm p hn
    obtain ⟨hmem, -, rfl, htag⟩ := next?_some hn
    exact hw p hmem hm htag
  | _ => trivial

/-- In every run, and for every order in which the threads take their messages, no reply is taken
by a manager or can be, exactly when no manager distributes a vector for a process that has a
manager itself. -/
theorem replies_unmistaken_iff (hw : Sound world) :
    Act.Along (World.step codec) (Unmistaken codec) moves world ↔
      Act.Along (World.step codec) DistributesForClient moves world :=
  Act.Along.congr (fun _ _ _ _ _ _ hu h => hu.2 _ _ h)
    (fun _ _ (hw : Sound _) _ => unmistaken_step_iff hw) hw
    (Act.Along.of_forall (fun _ _ => trivial) moves world)

/-- Client 0 creates an actor on 1 and one on 2, and the worker of 2 distributes to 1. -/
def workerDistributes : List Move :=
  [.send 0 1 (.createActor ⟨"A", [1]⟩), .manage 1 0, .receive 0 1 .worker,
    .send 0 2 (.createActor ⟨"B", [2]⟩), .manage 2 0, .receive 0 2 .worker,
    .send 2 1 (.distributeVector ⟨4, 1⟩), .manage 1 2]

def clientDistributes : List Move :=
  [.send 0 1 (.createActor ⟨"A", [1]⟩), .manage 1 0, .receive 0 1 .worker,
    .send 0 1 (.distributeVector ⟨4, 1⟩), .manage 1 0, .receive 0 1 .management]

def World.start : World := ⟨fun pid => { pid := pid }, []⟩

theorem sound_start : Sound World.start := fun _ hp => by cases hp

/-- The distribution is under way to 2 with the tag on which its manager receives from anyone, and
the manager can take it before the worker does. -/
theorem reply_mistaken :
    (¬ Act.Along (World.step Serialization.ArchiveFormat.sampleFormat.codec)
      (Unmistaken Serialization.ArchiveFormat.sampleFormat.codec) workerDistributes .start) ∧
    (Act.trace (World.step Serialization.ArchiveFormat.sampleFormat.codec)
      (workerDistributes ++ [.manage 2 1]) .start).2 = .error .undefined := by
  refine ⟨fun h => ?_, by rfl⟩
  have hsound := h.mono fun _ _ hu => hu.2
  revert hsound
  decide +kernel

/-- When the client distributes, no reply can be mistaken. -/
theorem replies_unmistaken_sample :
    Act.Along (World.step Serialization.ArchiveFormat.sampleFormat.codec)
        (Unmistaken Serialization.ArchiveFormat.sampleFormat.codec) clientDistributes .start ↔
      Act.Along (World.step Serialization.ArchiveFormat.sampleFormat.codec) DistributesForClient
        clientDistributes .start := replies_unmistaken_iff sound_start

end ActiveBsp.Tags
