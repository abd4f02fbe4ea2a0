import ActiveBsp.Library.Lists
import ActiveBsp.Management.PartKeys
import ActiveBsp.Serialization.RoundTrip

/-!
# The collective operations of the managers of an actor

The head forwards a `Prefetch` or a `Fetch` to its slaves and then enters the
collective operation for it; a slave enters the operation of each message that
it takes. What a handler does is performed act by act, so that other processes
run between a forward and the head's own entry.
-/
namespace ActiveBsp.Collectives

open Library ActorServer

set_option autoImplicit false

/-- A collective operation of the managers, with the message that it is entered for. -/
inductive Collective where
  | gatherKeys (msg : PrefetchMessage)
  | broadcastVd (msg : FetchMessage)
  deriving DecidableEq, Repr

/-- What a handler does that the other processes of the actor can notice. -/
inductive HandlerAct where
  | send (dst : Int) (msg : ActorMessage)
  | enter (collective : Collective)
  deriving DecidableEq, Repr

/-- The acts behind the outputs of a handler; `current` is the collective that it runs for. -/
def actsOf : Option Collective → List Output → List HandlerAct
  | _, [] => []
  | current, .actorMessage dst msg :: out => .send dst msg :: actsOf current out
  | _, .fetchDv msg _ :: out => actsOf (some (.broadcastVd msg)) out
  | current, .broadcastVd _ :: out => current.toList.map .enter ++ actsOf current out
  | current, .gatherKey _ :: out => current.toList.map .enter ++ actsOf current out
  | current, _ :: out => actsOf current out

def collectiveOf : Input → Option Collective
  | .message _ (.prefetch msg) => some (.gatherKeys msg)
  | _ => none

/-- The collective in which a handler has stopped. -/
def stoppedIn : Phase → List HandlerAct
  | .receiving => []
  | .gatheringKeys prefetch => [.enter (.gatherKeys prefetch.msg)]
  | .awaitingVd msg => [.enter (.broadcastVd msg)]

def handlerActs (input : Input) (out : List Output) (s' : ActorServer) : List HandlerAct :=
  actsOf (collectiveOf input) out ++ stoppedIn s'.phase

/-- The processes of one actor, the head first. Only messages between them are kept in channels. -/
structure Team where
  pids : List Int
  servers : Int → ActorServer
  running : Int → List HandlerAct := fun _ => []
  channel : Int × Int → List ActorMessage := fun _ => []
  entered : Int → List Collective := fun _ => []

inductive Move where
  /-- A message from a client, a worker or another actor. -/
  | outside (src dst : Int) (msg : ActorMessage)
  /-- The next message from one process of the actor to another. -/
  | deliver (src dst : Int)
  /-- A collective operation ends for one process. -/
  | resume (pid : Int) (input : Input)
  /-- The worker thread of a process takes a key or installs the communicator. -/
  | worker (pid : Int) (input : Input)
  /-- The next act of a running handler. -/
  | perform (pid : Int)
  deriving DecidableEq, Repr

def EndsCollective : Input → Prop
  | .gatheredKeys _ | .broadcastVd _ => True
  | _ => False

def FromWorker : Input → Prop
  | .takeKey | .setIntraActorComm _ => True
  | _ => False

instance (input : Input) : Decidable (EndsCollective input) := by
  unfold EndsCollective
  split <;> infer_instance

instance (input : Input) : Decidable (FromWorker input) := by
  unfold FromWorker
  split <;> infer_instance

namespace Team

/-- A process takes an input when its last handler is through. -/
def handle (codec : Codec) (pid : Int) (input : Input) : Act Team Output Fault Unit := fun t =>
  if pid ∉ t.pids ∨ t.running pid ≠ [] then ([], .error .blocked) else
    match ActorServer.step codec input (t.servers pid) with
    | (out, .error e) => (out, .error e)
    | (out, .ok (_, s)) => (out, .ok ((), { t with
        servers := Function.update t.servers pid s
        running := Function.update t.running pid (handlerActs input out s) }))

def step (codec : Codec) : Move → Act Team Output Fault Unit
  | .outside src dst msg => handle codec dst (.message src msg)
  | .deliver src dst => fun t =>
    match t.channel (src, dst) with
    | [] => ([], .error .blocked)
    | msg :: rest => handle codec dst (.message src msg)
        { t with channel := Function.update t.channel (src, dst) rest }
  | .resume pid input =>
    if EndsCollective input then handle codec pid input else Act.fail .blocked
  | .worker pid input => fun t =>
    if ¬ FromWorker input then ([], .error .blocked) else
      match ActorServer.step codec input (t.servers pid) with
      | (out, .error e) => (out, .error e)
      | (out, .ok (_, s)) => (out, .ok ((), { t with servers := Function.update t.servers pid s }))
  | .perform pid => fun t =>
    match t.running pid with
    | [] => ([], .error .blocked)
    | .send dst msg :: acts => ([], .ok ((), { t with
        running := Function.update t.running pid acts
        channel := Function.update t.channel (pid, dst) (t.channel (pid, dst) ++ [msg]) }))
    | .enter collective :: acts => ([], .ok ((), { t with
        running := Function.update t.running pid acts
        entered := Function.update t.entered pid (t.entered pid ++ [collective]) }))

end Team

/-- The collective that a process enters when it takes a message from the head. -/
def announced : ActorMessage → Option Collective
  | .prefetch msg => some (.gatherKeys msg)
  | .fetch msg => some (.broadcastVd msg)
  | _ => none

/-- The collectives that a handler has still to enter. -/
def entries (acts : List HandlerAct) : List Collective :=
  acts.filterMap fun
    | .enter collective => some collective
    | .send .. => none

/-- The collectives that a handler has still to announce to a slave. -/
def announcedTo (slave : Int) (acts : List HandlerAct) : List Collective :=
  acts.filterMap fun
    | .send dst msg => if dst = slave then announced msg else none
    | .enter _ => none

/-- The messages of the head that a slave has not acted on: in the channel, or in its hands. -/
def unheeded (t : Team) (head slave : Int) : Nat :=
  ((t.channel (head, slave)).filterMap announced).length + (entries (t.running slave)).length

/-- The message that the head is forwarding. -/
def forwarding (t : Team) (head : Int) : Nat := (entries (t.running head)).length

/-- Head and slave enter the same collectives, in one order, and neither is further ahead of the
other than the messages between them allow. -/
structure Agree (t : Team) (head slave : Int) : Prop where
  same : ∀ (k : Nat) (c c' : Collective), (t.entered head)[k]? = some c → (t.entered slave)[k]? = some c' →
    c = c'
  headAhead : (t.entered head).length ≤ (t.entered slave).length + unheeded t head slave
  slaveAhead : (t.entered slave).length ≤ (t.entered head).length + forwarding t head

/-- The communicator of the process tells whether it is the head of the actor, and the head has
the actor's list of processes. -/
def KnowsRole (t : Team) (pid : Int) : Prop :=
  ∃ comm, (t.servers pid).intraActorComm = some comm ∧ (comm.pid = 0 ↔ t.pids.head? = some pid) ∧
    (comm.pid = 0 → (t.servers pid).pids = t.pids)

/-- The handler reads whether its process is the head. -/
def AsksIsHead (s : ActorServer) : Input → Prop
  | .message _ (.prefetch _) | .message _ (.fetch _) | .gatheredKeys _ => True
  | .message _ (.registerFutureData key _) => s.askedFetch key ≠ none
  | _ => False

/-- The input that a move hands to the manager of a process. -/
def handled (t : Team) : Move → Option (Int × Input)
  | .outside src dst msg => some (dst, .message src msg)
  | .deliver src dst => (t.channel (src, dst)).head?.map fun msg => (dst, .message src msg)
  | .resume pid input => some (pid, input)
  | _ => none

/-- A handler that reads whether its process is the head is told the truth. -/
def AsksKnowing (t : Team) (move : Move) : Prop :=
  ∀ pid input, handled t move = some (pid, input) → AsksIsHead (t.servers pid) input →
    KnowsRole t pid

/-- Outside messages of the three kinds go to heads: also the one that a prefetch leads to. -/
def ToHeads (head : Int) (slaves : List Int) : Move → Prop
  | .outside _ dst (.prefetch msg) => dst = head ∧ msg.futurePid ∉ slaves
  | .outside _ dst (.fetch _) => dst = head
  | .outside _ dst (.registerFutureData ..) => dst = head
  | _ => True

/-- No handler is running, and nothing was sent or entered. -/
structure Idle (t : Team) : Prop where
  phase : ∀ pid, (t.servers pid).phase = .receiving
  running : ∀ pid, t.running pid = []
  channel : ∀ pair, t.channel pair = []
  entered : ∀ pid, t.entered pid = []

variable {codec : Codec} {s s' : ActorServer} {i : Input} {out : List Output} {head : Int}
  {slaves : List Int}

@[simp] theorem entries_nil : entries [] = [] := rfl

@[simp] theorem announcedTo_nil (slave : Int) : announcedTo slave [] = [] := rfl

@[simp] theorem entries_append (acts acts' : List HandlerAct) :
    entries (acts ++ acts') = entries acts ++ entries acts' := List.filterMap_append

@[simp] theorem announcedTo_append (slave : Int) (acts acts' : List HandlerAct) :
    announcedTo slave (acts ++ acts') = announcedTo slave acts ++ announcedTo slave acts' :=
  List.filterMap_append

@[simp] theorem entries_enter (c : Collective) (acts : List HandlerAct) :
    entries (.enter c :: acts) = c :: entries acts := rfl

@[simp] theorem entries_send (dst : Int) (msg : ActorMessage) (acts : List HandlerAct) :
    entries (.send dst msg :: acts) = entries acts := rfl

@[simp] theorem announcedTo_enter (slave : Int) (c : Collective) (acts : List HandlerAct) :
    announcedTo slave (.enter c :: acts) = announcedTo slave acts := rfl

theorem announcedTo_send (slave dst : Int) (msg : ActorMessage) (acts : List HandlerAct) :
    announcedTo slave (.send dst msg :: acts) =
      (if dst = slave then (announced msg).toList else []) ++ announcedTo slave acts := by
  unfold announcedTo
  by_cases hd : dst = slave
  · cases hm : announced msg with
    | none => simp [hd, hm]
    | some c => simp [hd, hm]
  · simp [hd]

theorem entries_sends (msg : ActorMessage) (dsts : List Int) :
    entries (dsts.map (HandlerAct.send · msg)) = [] := by
  induction dsts with
  | nil => rfl
  | cons dst dsts ih => exact ih

/-- A message to every slave reaches each of them once. -/
theorem announcedTo_sends {msg : ActorMessage} {slave : Int} :
    ∀ {dsts : List Int}, dsts.Nodup →
      announcedTo slave (dsts.map (HandlerAct.send · msg)) =
        if slave ∈ dsts then (announced msg).toList else [] := by
  intro dsts
  induction dsts with
  | nil => exact fun _ => rfl
  | cons dst dsts ih =>
    intro hn
    obtain ⟨hnot, hn⟩ := List.nodup_cons.mp hn
    rw [List.map_cons, announcedTo_send, ih hn]
    by_cases hd : dst = slave
    · subst hd
      rw [if_pos rfl, if_neg hnot, if_pos List.mem_cons_self, List.append_nil]
    · rw [if_neg hd, List.nil_append]
      simp only [List.mem_cons, Ne.symm hd, false_or]

theorem actsOf_sends (current : Option Collective) (msg : ActorMessage) (dsts : List Int)
    (out : List Output) :
    actsOf current (dsts.map (fun pid => .actorMessage pid msg) ++ out) =
      dsts.map (HandlerAct.send · msg) ++ actsOf current out := by
  induction dsts with
  | nil => rfl
  | cons dst dsts ih => exact congrArg (HandlerAct.send dst msg :: ·) ih

/-- An output that is no act: what goes to clients and to the own worker, and marks. -/
def Silent : Output → Prop
  | .actorMessage .. | .broadcastVd _ | .gatherKey _ | .fetchDv .. => False
  | _ => True

theorem actsOf_silent (current : Option Collective) (h : ∀ o ∈ out, Silent o) :
    actsOf current out = [] := by
  induction out with
  | nil => rfl
  | cons o out ih =>
    have ho : Silent o := h o List.mem_cons_self
    have hout := ih fun o ho => h o (List.mem_cons_of_mem _ ho)
    cases o <;> first | exact hout | exact ho.elim

/-- The acts of sending pieces and answering readers: no collective, and nothing announced. -/
theorem actsOf_pieces (current : Option Collective) (h : ∀ o ∈ out, IsPiece o ∨ Silent o) :
    entries (actsOf current out) = [] ∧ ∀ slave, announcedTo slave (actsOf current out) = [] := by
  induction out with
  | nil => exact ⟨rfl, fun _ => rfl⟩
  | cons o out ih =>
    have hout := ih fun o ho => h o (List.mem_cons_of_mem _ ho)
    rcases h o List.mem_cons_self with ⟨dst, msg, rfl⟩ | ho
    · refine ⟨hout.1, fun slave => ?_⟩
      rw [actsOf, announcedTo_send, hout.2 slave]
      by_cases hd : dst = slave <;> simp [hd, announced]
    · cases o <;> first | exact hout | exact ho.elim

theorem send_mem_actsOf {dst : Int} {msg : ActorMessage} {current : Option Collective} :
    HandlerAct.send dst msg ∈ actsOf current out ↔ .actorMessage dst msg ∈ out := by
  induction out generalizing current with
  | nil => exact ⟨fun h => (by cases h), fun h => (by cases h)⟩
  | cons o out ih => cases o <;> simp [actsOf, ih]

theorem silent_of_lifecycle {o : Output} (h : IsLifecycle o) : Silent o := by
  cases o <;> trivial

theorem silent_of_call {o : Output} (h : IsCall o) : Silent o := by
  cases o <;> trivial

theorem silent_of_distribution {o : Output} (h : IsDistribution o) : Silent o := by
  cases o <;> trivial

theorem silent_of_result {o : Output} (h : IsResult o) : Silent o := by
  cases o <;> trivial

theorem silent_readers (pids : List Int) (data : Bytes) :
    ∀ o ∈ pids.map (fun pid => Output.futureData pid data), Silent o := by
  intro o ho
  obtain ⟨pid, -, rfl⟩ := List.mem_map.mp ho
  trivial

theorem core_phase {k : Kind} (hf : k ≠ .futures) (hp : k ≠ .prefetch) (s : ActorServer) :
    (k.core s).phase = s.phase := by
  cases k <;> first | rfl | exact absurd rfl hf | exact absurd rfl hp

private theorem silent_step_of_kind (hf : kind i ≠ .futures) (hp : kind i ≠ .prefetch)
    (hw : kind i ≠ .worker) (h : ActorServer.step codec i s = (out, .ok ((), s'))) :
    (∀ o ∈ out, Silent o) ∧ s'.phase = s.phase := by
  obtain ⟨hcore, hout⟩ := step_kind i s out () s' h
  refine ⟨fun o ho => ?_, ?_⟩
  · have hemits := hout o ho
    revert hemits
    cases hk : kind i with
    | lifecycle => exact silent_of_lifecycle
    | calls => exact silent_of_call
    | distribution => exact silent_of_distribution
    | results => exact silent_of_result
    | futures => exact absurd hk hf
    | prefetch => exact absurd hk hp
    | worker => exact absurd hk hw
  · rw [← core_phase hf hp s', hcore, core_phase hf hp]

private theorem silent_registration {key : Int} {data : Bytes} (hf : s.askedFetch key = none)
    (h : registerFuture codec key data s = (out, .ok ((), s'))) :
    (∀ o ∈ out, Silent o) ∧ s'.phase = s.phase := by
  by_cases hn : s.pendingFutureRequests key = none ∧ s.askedFutureDelete key = true
  · rw [registerFuture_forgets hn.1 hn.2] at h
    cases h
    exact ⟨by simp, rfl⟩
  · rw [registerFuture_serves hf hn] at h
    cases h
    exact ⟨silent_readers _ data, rfl⟩

/-- A handler that does not ask for its role, and ends no collective, does nothing that other
processes of the actor notice. -/
theorem quiet_step (hq : ¬ AsksIsHead s i) (he : ¬ EndsCollective i) (hw : ¬ FromWorker i)
    (h : ActorServer.step codec i s = (out, .ok ((), s'))) :
    handlerActs i out s' = [] ∧ s'.phase = .receiving := by
  have hquiet : collectiveOf i = none ∧ s.phase = .receiving ∧ (∀ o ∈ out, Silent o) ∧
      s'.phase = s.phase := by
    cases i with
    | gatheredKeys keys => exact absurd trivial he
    | broadcastVd dv => exact absurd trivial he
    | setIntraActorComm comm => exact absurd trivial hw
    | takeKey => exact absurd trivial hw
    | message src msg =>
      obtain ⟨hp, -, hrun⟩ := step_message_inv h
      refine ⟨?_, hp, ?_⟩
      · cases msg <;> first | rfl | exact absurd trivial hq
      cases msg with
      | prefetch msg => exact absurd trivial hq
      | fetch msg => exact absurd trivial hq
      | registerFutureData key data => exact silent_registration (not_not.mp hq) hrun
      | getFutureData key =>
        change handleGetFutureData src key s = _ at hrun
        cases hd : s.futureDataStore key with
        | none =>
          rw [handleGetFutureData_of_none hd] at hrun
          cases hrun
          exact ⟨by simp, rfl⟩
        | some data =>
          rw [handleGetFutureData_of_some hd] at hrun
          cases hrun
          exact ⟨by simp [Silent], rfl⟩
      | releaseFuture key =>
        change handleReleaseFutureMessage key s = _ at hrun
        cases hd : s.futureDataStore key with
        | none =>
          rw [handleReleaseFutureMessage_of_none hd] at hrun
          cases hrun
          exact ⟨by simp, rfl⟩
        | some data =>
          rw [handleReleaseFutureMessage_of_some hd] at hrun
          cases hrun
          exact ⟨by simp, rfl⟩
      | _ => exact silent_step_of_kind (by simp [kind]) (by simp [kind]) (by simp [kind]) h
  obtain ⟨hnone, hp, hout, hphase⟩ := hquiet
  have hr : s'.phase = .receiving := hphase.trans hp
  refine ⟨?_, hr⟩
  rw [handlerActs, actsOf_silent _ hout, hr]
  rfl

/-- Nothing is emitted, and the phase stays. -/
abbrev KeepsPhase {α : Type} (x : Handler α) : Prop :=
  Act.Guarantees (Act.Keeps ActorServer.phase fun _ => False) x

theorem getIntraActorComm_keepsPhase : KeepsPhase getIntraActorComm := by
  refine Act.keeps_get.keeps_bind fun s => ?_
  cases s.intraActorComm with
  | none => exact Act.keeps_fail _
  | some comm => exact Act.keeps_pure _

theorem lockResultStore_keepsPhase : KeepsPhase lockResultStore := by
  refine Act.keeps_lift fun s a s' h => ?_
  by_cases hl : s.resultStoreLock = true
  · rw [if_pos hl] at h
    cases h
  · rw [if_neg hl] at h
    cases h
    rfl

theorem updateDataStore_keepsPhase {α : Type} (f : DataStore → Except Fault (α × DataStore)) :
    KeepsPhase (updateDataStore f) := by
  refine Act.keeps_lift fun s a s' h => ?_
  cases hf : f s.dataStore with
  | error e =>
    rw [hf] at h
    cases h
  | ok r =>
    rw [hf] at h
    cases h
    rfl

theorem preparePart_keepsPhase (msg : PrefetchMessage) : KeepsPhase (preparePart msg) :=
  getIntraActorComm_keepsPhase.keeps_bind fun _ =>
    Act.Guarantees.keeps_bind (Act.keeps_lift fun _ _ _ h => by cases h; rfl) fun _ =>
      lockResultStore_keepsPhase.keeps_bind fun _ =>
        (updateDataStore_keepsPhase _).keeps_bind fun _ =>
          Act.Guarantees.keeps_bind (Act.keeps_modify fun _ => rfl) fun _ => Act.keeps_pure _

theorem preparePart_silent {msg : PrefetchMessage} {partKey : Int}
    (h : preparePart msg s = (out, .ok (partKey, s'))) : out = [] ∧ s'.phase = s.phase := by
  obtain ⟨hphase, hout⟩ := preparePart_keepsPhase msg s out partKey s' h
  exact ⟨List.eq_nil_iff_forall_not_mem.mpr hout, hphase⟩

theorem announcePrefetch_out {src : Int} {msg : PrefetchMessage} {key : Int}
    (hp : s.pids = head :: slaves) (h : announcePrefetch src msg s = (out, .ok (key, s'))) :
    out = .responseCode src key :: slaves.map fun pid => .actorMessage pid (.prefetch msg) := by
  obtain ⟨out₁, key₁, s₁, out₂, h₁, h₂, rfl⟩ := Act.bind_ok_inv h
  cases h₁
  obtain ⟨out₃, u, s₃, out₄, h₃, h₄, rfl⟩ := Act.bind_ok_inv h₂
  cases h₃
  rw [Act.get_bind] at h₄
  simp only [hp] at h₄
  rw [Act.bind_of_ok (Act.forM_emit _ slaves _)] at h₄
  cases h₄
  simp

/-- At the head a prefetch is announced to every slave, and waits for their keys. -/
theorem handlePrefetchMessage_head {src : Int} {msg : PrefetchMessage} (hh : Head s)
    (hp : s.pids = head :: slaves)
    (h : handlePrefetchMessage src msg s = (out, .ok ((), s'))) :
    ∃ key partKey, s'.phase = .gatheringKeys ⟨msg, key, partKey⟩ ∧
      out = .responseCode src key :: slaves.map fun pid => .actorMessage pid (.prefetch msg) := by
  unfold handlePrefetchMessage at h
  rw [Act.bind_of_ok (isHead_of_head hh)] at h
  simp only [if_true, List.nil_append] at h
  obtain ⟨out₁, key, s₁, out₂, h₁, h₂, rfl⟩ := Act.bind_ok_inv h
  obtain ⟨out₃, partKey, s₃, out₄, h₃, h₄, rfl⟩ := Act.bind_ok_inv h₂
  obtain ⟨rfl, -⟩ := preparePart_silent h₃
  cases h₄
  exact ⟨key, partKey, rfl, by rw [announcePrefetch_out hp h₁]; simp⟩

theorem isHead_of_slave {comm : IntraActorCommunicator} (hc : s.intraActorComm = some comm)
    (h0 : comm.pid ≠ 0) : isHead s = ([], .ok (false, s)) := by
  rw [isHead_of_some hc, beq_false_of_ne h0]

theorem handlePrefetchMessage_slave {src : Int} {msg : PrefetchMessage}
    {comm : IntraActorCommunicator} (hc : s.intraActorComm = some comm) (h0 : comm.pid ≠ 0)
    (h : handlePrefetchMessage src msg s = (out, .ok ((), s'))) :
    ∃ partKey, s'.phase = s.phase ∧ out = [.gatherKey partKey] := by
  unfold handlePrefetchMessage at h
  rw [Act.bind_of_ok (isHead_of_slave hc h0)] at h
  simp only [Bool.false_eq_true, if_false, List.nil_append] at h
  obtain ⟨out₁, partKey, s₁, out₂, h₁, h₂, rfl⟩ := Act.bind_ok_inv h
  obtain ⟨rfl, hphase⟩ := preparePart_silent h₁
  cases h₂
  exact ⟨partKey, hphase, rfl⟩

/-- No collective is entered, and nothing is announced to a slave. -/
def Quiet (slaves : List Int) (acts : List HandlerAct) : Prop :=
  entries acts = [] ∧ ∀ slave ∈ slaves, announcedTo slave acts = []

/-- What is left of a handler of the head: at most one collective, and every announcement of it
comes before the entry. -/
inductive Round (slaves : List Int) : List HandlerAct → Prop where
  | quiet {acts : List HandlerAct} (h : Quiet slaves acts) : Round slaves acts
  | round {before after : List HandlerAct} {c : Collective} (hb : entries before = [])
      (hbefore : ∀ slave ∈ slaves, announcedTo slave before = [] ∨ announcedTo slave before = [c])
      (ha : Quiet slaves after) : Round slaves (before ++ .enter c :: after)

theorem Quiet.tail {act : HandlerAct} {acts : List HandlerAct} (h : Quiet slaves (act :: acts)) :
    Quiet slaves acts := by
  cases act with
  | enter c => exact absurd h.1 (List.cons_ne_nil _ _)
  | send dst msg =>
    refine ⟨h.1, fun slave hs => ?_⟩
    have hsend := h.2 slave hs
    rw [announcedTo_send] at hsend
    exact (List.append_eq_nil_iff.mp hsend).2

theorem Round.tail {act : HandlerAct} {acts : List HandlerAct} (h : Round slaves (act :: acts)) :
    Round slaves acts := by
  generalize hl : act :: acts = l at h
  cases h with
  | quiet h =>
    subst hl
    exact .quiet h.tail
  | @round before after c hb hbefore ha =>
    cases before with
    | nil =>
      cases hl
      exact .quiet ha
    | cons act' before =>
      rw [List.cons_append] at hl
      cases hl
      cases act with
      | enter c' => exact absurd hb (List.cons_ne_nil _ _)
      | send dst msg =>
        refine .round hb (fun slave hs => ?_) ha
        have hsend := hbefore slave hs
        rw [announcedTo_send] at hsend
        rcases hsend with hnil | hone
        · exact .inl (List.append_eq_nil_iff.mp hnil).2
        · cases hrest : announcedTo slave before with
          | nil => exact .inl rfl
          | cons c' rest =>
            right
            rw [hrest] at hone
            rcases List.append_eq_singleton_iff.mp hone with ⟨-, h⟩ | ⟨-, h⟩
            · exact h
            · cases h

theorem Round.announced_le {acts : List HandlerAct} (h : Round slaves acts) {slave : Int}
    (hs : slave ∈ slaves) : (announcedTo slave acts).length ≤ (entries acts).length := by
  cases h with
  | quiet h => rw [h.1, h.2 slave hs]
  | @round before after c hb hbefore ha =>
    rw [announcedTo_append, entries_append, announcedTo_enter, entries_enter, hb, ha.1,
      ha.2 slave hs]
    rcases hbefore slave hs with h | h <;> simp [h]

/-- The acts of a whole handler of the head: what is entered is announced to every slave. -/
structure Complete (slaves : List Int) (acts : List HandlerAct) : Prop where
  round : Round slaves acts
  announced : ∀ slave ∈ slaves, announcedTo slave acts = entries acts

theorem complete_of_quiet {acts : List HandlerAct} (h : Quiet slaves acts) :
    Complete slaves acts where
  round := .quiet h
  announced slave hs := by rw [h.1, h.2 slave hs]

theorem quiet_nil : Quiet slaves [] := ⟨rfl, fun _ _ => rfl⟩

/-- A message for all slaves, and then the collective that it announces. -/
theorem complete_forward (hn : slaves.Nodup) {msg : ActorMessage} {c : Collective}
    (hm : announced msg = some c) {before after : List HandlerAct} (hb : Quiet slaves before)
    (ha : Quiet slaves after) :
    Complete slaves (before ++ slaves.map (HandlerAct.send · msg) ++ .enter c :: after) := by
  have hbefore : ∀ slave ∈ slaves,
      announcedTo slave (before ++ slaves.map (HandlerAct.send · msg)) = [c] := by
    intro slave hs
    rw [announcedTo_append, hb.2 slave hs, announcedTo_sends hn, if_pos hs, hm]
    rfl
  have hentries : entries (before ++ slaves.map (HandlerAct.send · msg)) = [] := by
    rw [entries_append, hb.1, entries_sends]
    rfl
  refine ⟨.round hentries (fun slave hs => .inr (hbefore slave hs)) ha, fun slave hs => ?_⟩
  rw [announcedTo_append, entries_append, hbefore slave hs, hentries, announcedTo_enter,
    entries_enter, ha.1, ha.2 slave hs]
  rfl

theorem quiet_send {dst : Int} {msg : ActorMessage} (h : dst ∉ slaves) :
    Quiet slaves [.send dst msg] := by
  refine ⟨rfl, fun slave hs => ?_⟩
  have hd : dst ≠ slave := fun hd => h (hd ▸ hs)
  rw [announcedTo_send, if_neg hd]
  rfl

theorem Complete.prepend {before acts : List HandlerAct} (hb : Quiet slaves before)
    (h : Complete slaves acts) : Complete slaves (before ++ acts) := by
  refine ⟨?_, fun slave hs => ?_⟩
  · cases h.round with
    | quiet hq =>
      refine .quiet ⟨by rw [entries_append, hb.1, hq.1]; rfl, fun slave hs => ?_⟩
      rw [announcedTo_append, hb.2 slave hs, hq.2 slave hs]
      rfl
    | @round first after c hf hfirst ha =>
      rw [← List.append_assoc]
      refine .round (by rw [entries_append, hb.1, hf]; rfl) (fun slave hs => ?_) ha
      rw [announcedTo_append, hb.2 slave hs]
      exact hfirst slave hs
  · rw [announcedTo_append, entries_append, hb.1, hb.2 slave hs, h.announced slave hs]

/-- A run of `fetchDv` at the head, and the replies that follow a registration. -/
theorem fetchDv_complete {msg : FetchMessage} {served : List Output} (current : Option Collective)
    (hn : slaves.Nodup) (hh : Head s) (hp : s.pids = head :: slaves)
    (hserved : ∀ o ∈ served, Silent o) (h : fetchDv codec msg s = (out, .ok ((), s'))) :
    s' = s ∧ Complete slaves (actsOf current (out ++ served)) := by
  obtain ⟨dvFuture, dv, sent, -, -, hs, rfl, hpieces⟩ := fetchDv_head_inv hh h
  refine ⟨hs, ?_⟩
  have hafter := @actsOf_pieces (sent ++ served) (some (.broadcastVd msg)) fun o ho => by
    rcases List.mem_append.mp ho with ho | ho
    · exact .inl (hpieces o ho)
    · exact .inr (hserved o ho)
  have hacts : actsOf current
      (fetchAnnouncement s msg dvFuture ++ .broadcastVd dv :: sent ++ served) =
      [] ++ slaves.map (HandlerAct.send · (.fetch msg)) ++
        .enter (.broadcastVd msg) :: actsOf (some (.broadcastVd msg)) (sent ++ served) := by
    simp only [fetchAnnouncement, hp, List.tail_cons, List.append_assoc, List.cons_append,
      List.nil_append]
    rw [actsOf_sends]
    rfl
  rw [hacts]
  exact complete_forward hn rfl quiet_nil ⟨hafter.1, fun slave _ => hafter.2 slave⟩

theorem registerFuture_complete {key : Int} {data : Bytes} (hn : slaves.Nodup) (hh : Head s) (hp : s.pids = head :: slaves)
    (h : registerFuture codec key data s = (out, .ok ((), s'))) :
    s'.phase = s.phase ∧ ∀ current, Complete slaves (actsOf current out) := by
  rcases registerFuture_head_inv hh h with ⟨-, rfl, rfl⟩ | ⟨-, rfl, fetched, rfl, hfetched⟩
  · exact ⟨rfl, fun _ => complete_of_quiet quiet_nil⟩
  · refine ⟨rfl, fun current => ?_⟩
    rcases hfetched with ⟨-, rfl⟩ | ⟨msg, -, hrun⟩
    · rw [List.nil_append, actsOf_silent _ (silent_readers _ data)]
      exact complete_of_quiet quiet_nil
    · exact (fetchDv_complete current hn (by exact hh) (by exact hp) (silent_readers _ data) hrun).2

theorem resumePrefetch_complete {prefetch : GatheringPrefetch} {keys : List Int} (hn : slaves.Nodup) (hh : Head s) (hp : s.pids = head :: slaves)
    (hdst : prefetch.msg.futurePid ∉ slaves)
    (h : resumePrefetch codec prefetch keys s = (out, .ok ((), s'))) :
    s'.phase = .receiving ∧ ∀ current, Complete slaves (actsOf current out) := by
  obtain ⟨comm, hc, h0⟩ := hh
  unfold resumePrefetch at h
  rw [Act.modify_bind] at h
  have hcomm : getIntraActorComm { s with phase := .receiving } =
      ([], .ok (comm, { s with phase := .receiving })) := getIntraActorComm_of_some hc
  rw [Act.bind_of_ok hcomm] at h
  simp only [List.nil_append, Act.get_bind, Act.emit_bind] at h
  obtain ⟨rfl, hres⟩ := Prod.mk.inj h
  obtain ⟨hphase, hcomplete⟩ :=
    registerFuture_complete (s := { s with phase := .receiving }) hn ⟨comm, hc, h0⟩ hp
      (Prod.ext rfl hres)
  exact ⟨hphase, fun current => (hcomplete current).prepend (quiet_send hdst)⟩

/-- What one process of the actor may send to another. -/
def Relays (head : Int) (slaves : List Int) (src dst : Int) : ActorMessage → Prop
  | .prefetch _ => src = head ∧ dst ∈ slaves
  | .fetch _ => src = head
  | .storeResultPart _ => True
  | _ => False

/-- The head never waits for a distribution, and only prefetches from heads. -/
def HeadPhase (slaves : List Int) : Phase → Prop
  | .receiving => True
  | .gatheringKeys prefetch => prefetch.msg.futurePid ∉ slaves
  | .awaitingVd _ => False

/-- A slave never waits for keys. -/
def SlavePhase : Phase → Prop
  | .gatheringKeys _ => False
  | _ => True

theorem relays_of_future {o : Output} {dst : Int} {msg : ActorMessage} (ho : IsFuture o)
    (h : o = .actorMessage dst msg) : Relays head slaves head dst msg := by
  subst h
  cases msg <;> trivial

theorem handlerActs_of_receiving (h : s'.phase = .receiving) :
    handlerActs i out s' = actsOf (collectiveOf i) out := by
  rw [handlerActs, h, stoppedIn, List.append_nil]

theorem head_handles (hn : slaves.Nodup) (hphase : HeadPhase slaves s.phase)
    (hrole : AsksIsHead s i → Head s ∧ s.pids = head :: slaves)
    (hto : ∀ src msg, i = .message src (.prefetch msg) → msg.futurePid ∉ slaves)
    (hw : ¬ FromWorker i) (h : ActorServer.step codec i s = (out, .ok ((), s'))) :
    Complete slaves (handlerActs i out s') ∧ HeadPhase slaves s'.phase ∧
      ∀ dst msg, .send dst msg ∈ handlerActs i out s' → Relays head slaves head dst msg := by
  by_cases hask : AsksIsHead s i
  · obtain ⟨hh, hp⟩ := hrole hask
    have hemits := (step_kind i s out () s' h).2
    cases i with
    | gatheredKeys keys =>
      obtain ⟨prefetch, hgather, hrun⟩ := step_gatheredKeys_inv h
      rw [hgather] at hphase
      obtain ⟨hr, hcomplete⟩ := resumePrefetch_complete hn hh hp hphase hrun
      rw [handlerActs_of_receiving hr]
      exact ⟨hcomplete none, hr ▸ trivial, fun dst msg hm =>
        relays_of_future (hemits _ (send_mem_actsOf.mp hm)) rfl⟩
    | message src msg =>
      obtain ⟨hrecv, -, hrun⟩ := step_message_inv h
      cases msg with
      | prefetch msg =>
        obtain ⟨key, partKey, hgather, rfl⟩ := handlePrefetchMessage_head hh hp hrun
        have hacts : handlerActs (.message src (.prefetch msg)) (.responseCode src key ::
            slaves.map fun pid => .actorMessage pid (.prefetch msg)) s' =
              [] ++ slaves.map (HandlerAct.send · (.prefetch msg)) ++
                [.enter (.gatherKeys msg)] := by
          have hsends := actsOf_sends (some (.gatherKeys msg)) (.prefetch msg) slaves []
          simp only [List.append_nil, actsOf] at hsends
          simp only [handlerActs, collectiveOf, actsOf, hgather, stoppedIn, hsends,
            List.nil_append]
        rw [hacts]
        refine ⟨complete_forward hn rfl quiet_nil quiet_nil, ?_, fun dst msg' hm => ?_⟩
        · rw [hgather]
          exact hto src msg rfl
        · simp only [List.nil_append, List.mem_append, List.mem_map, HandlerAct.send.injEq,
            List.mem_singleton, reduceCtorEq, or_false] at hm
          obtain ⟨pid, hpid, rfl, rfl⟩ := hm
          exact ⟨rfl, hpid⟩
      | fetch msg =>
        have hfetch : s'.phase = .receiving ∧
            Complete slaves (actsOf (collectiveOf (.message src (.fetch msg))) out) := by
          change handleFetchMessage codec msg s = _ at hrun
          cases hd : s.futureDataStore msg.reqFutureKey with
          | some data =>
            rw [handleFetchMessage_of_stored hh hd] at hrun
            obtain ⟨rfl, hcomplete⟩ := @fetchDv_complete _ _ _ _ _ _ _ [] _ hn hh hp (by simp) hrun
            rw [List.append_nil] at hcomplete
            exact ⟨hrecv, hcomplete⟩
          | none =>
            cases hf : s.askedFetch msg.reqFutureKey with
            | none =>
              rw [handleFetchMessage_waits hh hd hf] at hrun
              cases hrun
              exact ⟨hrecv, complete_of_quiet quiet_nil⟩
            | some msg' =>
              rw [handleFetchMessage_fails hh hd hf] at hrun
              cases hrun
        rw [handlerActs_of_receiving hfetch.1]
        exact ⟨hfetch.2, hfetch.1 ▸ trivial, fun dst msg hm =>
          relays_of_future (hemits _ (send_mem_actsOf.mp hm)) rfl⟩
      | registerFutureData key data =>
        obtain ⟨hkept, hcomplete⟩ := registerFuture_complete hn hh hp hrun
        have hr := hkept.trans hrecv
        rw [handlerActs_of_receiving hr]
        exact ⟨hcomplete none, hr ▸ trivial, fun dst msg hm =>
          relays_of_future (hemits _ (send_mem_actsOf.mp hm)) rfl⟩
      | _ => exact hask.elim
    | _ => exact hask.elim
  · have he : ¬ EndsCollective i := by
      intro he
      cases i with
      | gatheredKeys keys => exact hask trivial
      | broadcastVd dv =>
        obtain ⟨msg, hwait, -⟩ := step_broadcastVd_inv h
        rw [hwait] at hphase
        exact hphase
      | _ => exact he
    obtain ⟨hnil, hr⟩ := quiet_step hask he hw h
    rw [hnil]
    exact ⟨complete_of_quiet quiet_nil, hr ▸ trivial, fun dst msg hm => (by cases hm)⟩

/-- The collective that a message asks of the slave that takes it. -/
def askedBy : Input → List Collective
  | .message _ msg => (announced msg).toList
  | _ => []

/-- A slave enters the collective of each message that announces one. -/
theorem slave_handles (hphase : SlavePhase s.phase)
    (hrole : AsksIsHead s i → ∃ comm, s.intraActorComm = some comm ∧ comm.pid ≠ 0)
    (hreg : ∀ src key data, i ≠ .message src (.registerFutureData key data))
    (hw : ¬ FromWorker i) (h : ActorServer.step codec i s = (out, .ok ((), s'))) :
    entries (handlerActs i out s') = askedBy i ∧ SlavePhase s'.phase ∧
      ∀ dst msg, .send dst msg ∈ handlerActs i out s' → ∃ piece, msg = .storeResultPart piece := by
  by_cases hask : AsksIsHead s i
  · obtain ⟨comm, hc, h0⟩ := hrole hask
    cases i with
    | gatheredKeys keys =>
      obtain ⟨prefetch, hgather, -⟩ := step_gatheredKeys_inv h
      rw [hgather] at hphase
      exact hphase.elim
    | message src msg =>
      obtain ⟨hrecv, -, hrun⟩ := step_message_inv h
      cases msg with
      | prefetch msg =>
        obtain ⟨partKey, hkept, rfl⟩ := handlePrefetchMessage_slave hc h0 hrun
        have hr := hkept.trans hrecv
        rw [handlerActs_of_receiving hr, hr]
        exact ⟨rfl, trivial, fun dst msg hm => by simp [actsOf, collectiveOf] at hm⟩
      | fetch msg =>
        have hfetch : handleFetchMessage codec msg s = fetchDv codec msg s := by
          unfold handleFetchMessage
          rw [Act.bind_of_ok (isHead_of_slave hc h0)]
          rfl
        rw [show routeHandleMessage codec src (.fetch msg) s = _ from hfetch,
          fetchDv_of_slave hc h0] at hrun
        cases hrun
        exact ⟨rfl, trivial, fun dst msg hm => by simp [handlerActs, actsOf, stoppedIn] at hm⟩
      | registerFutureData key data => exact absurd rfl (hreg src key data)
      | _ => exact hask.elim
    | _ => exact hask.elim
  · by_cases he : EndsCollective i
    · cases i with
      | gatheredKeys keys => exact absurd trivial hask
      | broadcastVd dv =>
        obtain ⟨msg, -, hrun⟩ := step_broadcastVd_inv h
        unfold resumeFetchDv at hrun
        rw [Act.modify_bind] at hrun
        obtain ⟨rfl, hpieces⟩ := fetchParts_onlyPieces msg dv _ out () s' hrun
        have hacts := @actsOf_pieces out none fun o ho => .inl (hpieces o ho)
        rw [handlerActs_of_receiving rfl]
        refine ⟨hacts.1, trivial, fun dst msg' hm => ?_⟩
        obtain ⟨dst', piece, hpiece⟩ := hpieces _ (send_mem_actsOf.mp hm)
        cases hpiece
        exact ⟨piece, rfl⟩
      | _ => exact he.elim
    · obtain ⟨hnil, hr⟩ := quiet_step hask he hw h
      rw [hnil, hr]
      refine ⟨?_, trivial, fun dst msg hm => (by cases hm)⟩
      cases i with
      | message src msg => cases msg <;> first | rfl | exact absurd trivial hask
      | _ => rfl

/-- What the head has entered or is about to enter has been entered by a slave, is in its hands, is
on its way to it, or is about to be announced to it. `debt` is what a message that was just taken
from a channel asks of its process. -/
structure Lockstep (head : Int) (slaves : List Int) (debt : Int → List Collective) (t : Team) :
    Prop where
  pids : t.pids = head :: slaves
  headPhase : HeadPhase slaves (t.servers head).phase
  slavePhase : ∀ slave ∈ slaves, SlavePhase (t.servers slave).phase
  round : Round slaves (t.running head)
  sending : ∀ src dst msg, .send dst msg ∈ t.running src → Relays head slaves src dst msg
  sent : ∀ src dst, ∀ msg ∈ t.channel (src, dst), Relays head slaves src dst msg
  ledger : ∀ slave ∈ slaves, t.entered head ++ entries (t.running head) =
    t.entered slave ++ (entries (t.running slave) ++ (debt slave ++
      ((t.channel (head, slave)).filterMap announced ++ announcedTo slave (t.running head))))

/-- Nothing is owed. -/
def noDebt : Int → List Collective := fun _ => []

variable {debt : Int → List Collective} {t t' : Team} {move : Move} {moves : List Move} {pid : Int}

theorem announced_of_relays {src dst : Int} {msg : ActorMessage}
    (h : Relays head slaves src dst msg) (hne : src ≠ head) : announced msg = none := by
  cases msg <;> first | rfl | exact absurd h hne | exact absurd h.1 hne

theorem Lockstep.agree (hl : Lockstep head slaves noDebt t) {slave : Int} (hs : slave ∈ slaves) :
    Agree t head slave := by
  have hledger := hl.ledger slave hs
  have hlen := congrArg List.length hledger
  have hround := hl.round.announced_le hs
  simp only [List.length_append, noDebt, List.length_nil] at hlen
  refine ⟨fun k c c' hc hc' => Lists.eq_of_append_eq_append hledger hc hc', ?_, ?_⟩
  · unfold unheeded
    omega
  · unfold forwarding
    omega

theorem handle_inv (h : Team.handle codec pid i t = (out, .ok ((), t'))) :
    pid ∈ t.pids ∧ t.running pid = [] ∧ ∃ s,
      ActorServer.step codec i (t.servers pid) = (out, .ok ((), s)) ∧
      t' = { t with
        servers := Function.update t.servers pid s
        running := Function.update t.running pid (handlerActs i out s) } := by
  unfold Team.handle at h
  by_cases hready : pid ∉ t.pids ∨ t.running pid ≠ []
  · rw [if_pos hready] at h
    cases h
  · rw [if_neg hready] at h
    obtain ⟨hmem, hrunning⟩ := not_or.mp hready
    refine ⟨not_not.mp hmem, not_not.mp hrunning, ?_⟩
    rcases hs : ActorServer.step codec i (t.servers pid) with ⟨out', e | ⟨u, s⟩⟩
    · rw [hs] at h
      cases h
    · rw [hs] at h
      cases h
      exact ⟨s, rfl, rfl⟩

theorem knowsRole_head (hp : t.pids = head :: slaves) (h : KnowsRole t head) :
    Head (t.servers head) ∧ (t.servers head).pids = head :: slaves := by
  obtain ⟨comm, hc, hrole, hpids⟩ := h
  have h0 : comm.pid = 0 := hrole.mpr (by rw [hp]; rfl)
  exact ⟨⟨comm, hc, h0⟩, (hpids h0).trans hp⟩

theorem knowsRole_slave (hp : t.pids = head :: slaves) (hne : pid ≠ head) (h : KnowsRole t pid) :
    ∃ comm, (t.servers pid).intraActorComm = some comm ∧ comm.pid ≠ 0 := by
  obtain ⟨comm, hc, hrole, -⟩ := h
  refine ⟨comm, hc, fun h0 => hne ?_⟩
  have hhead := hrole.mp h0
  rw [hp, List.head?_cons] at hhead
  exact (Option.some.inj hhead).symm

/-- The head takes an input. -/
theorem Lockstep.handle_head (hn : (head :: slaves).Nodup) (hl : Lockstep head slaves debt t)
    (hdebt : ∀ slave ∈ slaves, debt slave = [])
    (hrole : AsksIsHead (t.servers head) i → KnowsRole t head)
    (hto : ∀ src msg, i = .message src (.prefetch msg) → msg.futurePid ∉ slaves)
    (hw : ¬ FromWorker i) (h : Team.handle codec head i t = (out, .ok ((), t'))) :
    Lockstep head slaves noDebt t' := by
  obtain ⟨hnot, hn⟩ := List.nodup_cons.mp hn
  obtain ⟨-, hrunning, s, hs, rfl⟩ := handle_inv h
  obtain ⟨hcomplete, hphase, hsends⟩ := head_handles hn hl.headPhase
    (fun hask => knowsRole_head hl.pids (hrole hask)) hto hw hs
  have hne : ∀ slave ∈ slaves, slave ≠ head := fun slave hs he => hnot (he ▸ hs)
  refine ⟨hl.pids, ?_, fun slave hslave => ?_, ?_, fun src dst msg hm => ?_, hl.sent,
    fun slave hslave => ?_⟩
  · simpa only [Function.update_self] using hphase
  · simpa only [Function.update_of_ne (hne slave hslave)] using hl.slavePhase slave hslave
  · simpa only [Function.update_self] using hcomplete.round
  · by_cases hsrc : src = head
    · subst hsrc
      simp only [Function.update_self] at hm
      exact hsends dst msg hm
    · simp only [Function.update_of_ne hsrc] at hm
      exact hl.sending src dst msg hm
  · have hledger := hl.ledger slave hslave
    rw [hrunning, hdebt slave hslave] at hledger
    simp only [Function.update_self, Function.update_of_ne (hne slave hslave), noDebt,
      hcomplete.announced slave hslave]
    simp only [entries_nil, announcedTo_nil, List.append_nil, List.nil_append] at hledger
    rw [hledger]
    simp only [List.append_assoc, List.nil_append]

/-- A slave takes an input, and has then in its hands what the input asks for. -/
theorem Lockstep.handle_slave (hn : (head :: slaves).Nodup) (hl : Lockstep head slaves debt t)
    (hpid : pid ∈ slaves)
    (hdebt : debt pid = askedBy i)
    (hothers : ∀ slave ∈ slaves, slave ≠ pid → debt slave = [])
    (hrole : AsksIsHead (t.servers pid) i → KnowsRole t pid)
    (hreg : ∀ src key data, i ≠ .message src (.registerFutureData key data))
    (hw : ¬ FromWorker i) (h : Team.handle codec pid i t = (out, .ok ((), t'))) :
    Lockstep head slaves noDebt t' := by
  have hne : pid ≠ head := fun he => (List.nodup_cons.mp hn).1 (he ▸ hpid)
  obtain ⟨-, hrunning, s, hs, rfl⟩ := handle_inv h
  obtain ⟨hentries, hphase, hsends⟩ := slave_handles (hl.slavePhase pid hpid)
    (fun hask => knowsRole_slave hl.pids hne (hrole hask)) hreg hw hs
  refine ⟨hl.pids, ?_, fun slave hslave => ?_, ?_, fun src dst msg hm => ?_, hl.sent,
    fun slave hslave => ?_⟩
  · simpa only [Function.update_of_ne hne.symm] using hl.headPhase
  · by_cases hsame : slave = pid
    · subst hsame
      simpa only [Function.update_self] using hphase
    · simpa only [Function.update_of_ne hsame] using hl.slavePhase slave hslave
  · simpa only [Function.update_of_ne hne.symm] using hl.round
  · by_cases hsrc : src = pid
    · subst hsrc
      simp only [Function.update_self] at hm
      obtain ⟨piece, rfl⟩ := hsends dst msg hm
      trivial
    · simp only [Function.update_of_ne hsrc] at hm
      exact hl.sending src dst msg hm
  · have hledger := hl.ledger slave hslave
    by_cases hsame : slave = pid
    · subst hsame
      rw [hrunning] at hledger
      simp only [Function.update_self, Function.update_of_ne hne.symm, noDebt, hentries, ← hdebt]
      simpa only [entries_nil, List.nil_append] using hledger
    · rw [hothers slave hslave hsame] at hledger
      simpa only [Function.update_of_ne hsame, Function.update_of_ne hne.symm, noDebt] using hledger

/-- Taking a message from a channel leaves its process with what the message asks for. -/
theorem Lockstep.pop {src dst : Int} {msg : ActorMessage} {rest : List ActorMessage}
    (hl : Lockstep head slaves noDebt t) (hch : t.channel (src, dst) = msg :: rest) :
    Lockstep head slaves (Function.update noDebt dst (announced msg).toList)
      { t with channel := Function.update t.channel (src, dst) rest } := by
  have hrelays := hl.sent src dst msg (by rw [hch]; exact List.mem_cons_self)
  refine ⟨hl.pids, hl.headPhase, hl.slavePhase, hl.round, hl.sending, fun src' dst' msg' hm => ?_,
    fun slave hslave => ?_⟩
  · by_cases hpair : (src', dst') = (src, dst)
    · simp only [hpair, Function.update_self] at hm
      cases hpair
      exact hl.sent src dst msg' (by rw [hch]; exact List.mem_cons_of_mem _ hm)
    · simp only [Function.update_of_ne hpair] at hm
      exact hl.sent src' dst' msg' hm
  · have hledger := hl.ledger slave hslave
    by_cases hpair : (head, slave) = (src, dst)
    · cases hpair
      rw [hch, List.filterMap_cons] at hledger
      simp only [Function.update_self]
      rw [hledger]
      cases announced msg <;> simp [noDebt]
    · simp only [Function.update_of_ne hpair]
      by_cases hdst : slave = dst
      · subst hdst
        have hsrc : src ≠ head := fun he => hpair (by rw [he])
        rw [Function.update_self, announced_of_relays hrelays hsrc]
        exact hledger
      · rw [Function.update_of_ne hdst]
        exact hledger

/-- The next act of a handler. -/
theorem Lockstep.perform (hn : (head :: slaves).Nodup) (hl : Lockstep head slaves noDebt t)
    (h : Team.step codec (.perform pid) t = (out, .ok ((), t'))) :
    Lockstep head slaves noDebt t' := by
  have hnot := (List.nodup_cons.mp hn).1
  dsimp only [Team.step] at h
  cases hr : t.running pid with
  | nil =>
    rw [hr] at h
    cases h
  | cons act acts =>
    have hround : Round slaves (Function.update t.running pid acts head) := by
      by_cases hpid : head = pid
      · subst hpid
        have hold := hl.round
        rw [hr] at hold
        simpa only [Function.update_self] using hold.tail
      · simpa only [Function.update_of_ne hpid] using hl.round
    have hsending : ∀ src dst msg, .send dst msg ∈ Function.update t.running pid acts src →
        Relays head slaves src dst msg := by
      intro src dst msg hm
      by_cases hsrc : src = pid
      · subst hsrc
        rw [Function.update_self] at hm
        exact hl.sending src dst msg (by rw [hr]; exact List.mem_cons_of_mem _ hm)
      · rw [Function.update_of_ne hsrc] at hm
        exact hl.sending src dst msg hm
    rw [hr] at h
    cases act with
    | send dst msg =>
      cases h
      have hrelays := hl.sending pid dst msg (by rw [hr]; exact List.mem_cons_self)
      refine ⟨hl.pids, hl.headPhase, hl.slavePhase, hround, hsending, fun src dst' msg' hm => ?_,
        fun slave hslave => ?_⟩
      · by_cases hpair : (src, dst') = (pid, dst)
        · simp only [hpair, Function.update_self, List.mem_append, List.mem_singleton] at hm
          cases hpair
          rcases hm with hm | rfl
          · exact hl.sent pid dst msg' hm
          · exact hrelays
        · simp only [Function.update_of_ne hpair] at hm
          exact hl.sent src dst' msg' hm
      · have hledger := hl.ledger slave hslave
        have hne : slave ≠ head := fun he => hnot (he ▸ hslave)
        by_cases hpid : head = pid
        · subst hpid
          rw [hr, entries_send, announcedTo_send] at hledger
          simp only [Function.update_self, Function.update_of_ne hne, hledger]
          by_cases hdst : slave = dst
          · subst hdst
            simp only [Function.update_self, List.filterMap_append, List.append_assoc, if_true]
            cases hm : announced msg <;> simp [hm]
          · have hpair : (head, slave) ≠ (head, dst) := fun he => hdst (congrArg Prod.snd he)
            simp only [Function.update_of_ne hpair, if_neg (Ne.symm hdst), List.nil_append]
        · have hpair : (head, slave) ≠ (pid, dst) := fun he => hpid (congrArg Prod.fst he)
          simp only [Function.update_of_ne hpid, Function.update_of_ne hpair]
          by_cases hslave' : slave = pid
          · subst hslave'
            rw [hr, entries_send] at hledger
            simpa only [Function.update_self] using hledger
          · simpa only [Function.update_of_ne hslave'] using hledger
    | enter c =>
      cases h
      refine ⟨hl.pids, hl.headPhase, hl.slavePhase, hround, hsending, hl.sent,
        fun slave hslave => ?_⟩
      have hledger := hl.ledger slave hslave
      have hne : slave ≠ head := fun he => hnot (he ▸ hslave)
      by_cases hpid : head = pid
      · subst hpid
        rw [hr, entries_enter, announcedTo_enter] at hledger
        simp only [Function.update_self, Function.update_of_ne hne]
        rw [← hledger, List.append_assoc, List.singleton_append]
      · simp only [Function.update_of_ne hpid]
        by_cases hslave' : slave = pid
        · subst hslave'
          rw [hr, entries_enter] at hledger
          simp only [Function.update_self]
          rw [hledger, List.append_assoc (t.entered slave) [c], List.singleton_append,
            List.cons_append]
        · simpa only [Function.update_of_ne hslave'] using hledger

theorem phase_of_worker (hw : FromWorker i)
    (h : ActorServer.step codec i s = (out, .ok ((), s'))) : s'.phase = s.phase := by
  have hcore := (step_kind i s out () s' h).1
  cases i with
  | takeKey => exact congrArg (·.phase) hcore
  | setIntraActorComm comm => exact congrArg (·.phase) hcore
  | _ => exact hw.elim

theorem Lockstep.worker (hl : Lockstep head slaves noDebt t)
    (h : Team.step codec (.worker pid i) t = (out, .ok ((), t'))) :
    Lockstep head slaves noDebt t' := by
  dsimp only [Team.step] at h
  by_cases hw : FromWorker i
  · rw [if_neg (not_not.mpr hw)] at h
    rcases hs : ActorServer.step codec i (t.servers pid) with ⟨out', e | ⟨u, s⟩⟩
    · rw [hs] at h
      cases h
    · rw [hs] at h
      cases h
      have hkept : ∀ q, (Function.update t.servers pid s q).phase = (t.servers q).phase := by
        intro q
        by_cases hq : q = pid
        · subst hq
          rw [Function.update_self, phase_of_worker hw hs]
        · rw [Function.update_of_ne hq]
      refine ⟨hl.pids, ?_, fun slave hslave => ?_, hl.round, hl.sending, hl.sent, hl.ledger⟩
      · rw [hkept head]
        exact hl.headPhase
      · rw [hkept slave]
        exact hl.slavePhase slave hslave
  · rw [if_pos hw] at h
    cases h

/-- Every move of the actor's processes keeps them in step. -/
theorem Lockstep.step (hn : (head :: slaves).Nodup) (hl : Lockstep head slaves noDebt t)
    (hto : ToHeads head slaves move) (hknow : AsksKnowing t move)
    (h : Team.step codec move t = (out, .ok ((), t'))) : Lockstep head slaves noDebt t' := by
  have hnot := (List.nodup_cons.mp hn).1
  cases move with
  | outside src dst msg =>
    have hrole : AsksIsHead (t.servers dst) (.message src msg) → KnowsRole t dst :=
      hknow dst _ rfl
    have hdst : dst ∈ head :: slaves := hl.pids ▸ (handle_inv h).1
    rcases List.mem_cons.mp hdst with rfl | hslave
    · refine hl.handle_head hn (fun _ _ => rfl) hrole (fun src' msg' he => ?_) (fun hw => hw) h
      cases he
      exact hto.2
    · have hne : dst ≠ head := fun he => hnot (he ▸ hslave)
      refine hl.handle_slave hn hslave ?_ (fun _ _ _ => rfl) hrole (fun src' key data he => ?_)
        (fun hw => hw) h
      · cases msg <;> first | rfl | exact absurd hto hne | exact absurd hto.1 hne
      · cases he
        exact absurd hto hne
  | deliver src dst =>
    dsimp only [Team.step] at h
    cases hch : t.channel (src, dst) with
    | nil =>
      rw [hch] at h
      cases h
    | cons msg rest =>
      rw [hch] at h
      have hrole : AsksIsHead (t.servers dst) (.message src msg) → KnowsRole t dst := by
        refine hknow dst _ ?_
        simp only [handled, hch, List.head?_cons, Option.map_some]
      have hrelays := hl.sent src dst msg (by rw [hch]; exact List.mem_cons_self)
      have hdst : dst ∈ head :: slaves := hl.pids ▸ (handle_inv h).1
      rcases List.mem_cons.mp hdst with rfl | hslave
      · refine (hl.pop hch).handle_head hn (fun slave hs => ?_) hrole (fun src' msg' he => ?_)
          (fun hw => hw) h
        · have hne : slave ≠ dst := fun he => hnot (he ▸ hs)
          rw [Function.update_of_ne hne]
          rfl
        · cases he
          exact absurd hrelays.2 hnot
      · refine (hl.pop hch).handle_slave hn hslave ?_ (fun slave hs hne => ?_) hrole
          (fun src' key data he => ?_) (fun hw => hw) h
        · rw [Function.update_self]
          rfl
        · rw [Function.update_of_ne hne]
          rfl
        · cases he
          exact hrelays
  | resume pid input =>
    dsimp only [Team.step] at h
    by_cases he : EndsCollective input
    · rw [if_pos he] at h
      have hrole : AsksIsHead (t.servers pid) input → KnowsRole t pid := hknow pid _ rfl
      have hw : ¬ FromWorker input := by
        intro hw
        cases input <;> first | exact he | exact hw
      have hmessage : ∀ src msg, input ≠ .message src msg := by
        rintro src msg rfl
        exact he
      have hpid : pid ∈ head :: slaves := hl.pids ▸ (handle_inv h).1
      rcases List.mem_cons.mp hpid with rfl | hslave
      · exact hl.handle_head hn (fun _ _ => rfl) hrole
          (fun src msg hm => absurd hm (hmessage src _)) hw h
      · refine hl.handle_slave hn hslave ?_ (fun _ _ _ => rfl) hrole
          (fun src key data => hmessage src _) hw h
        cases input <;> first | rfl | exact he.elim
    · rw [if_neg he] at h
      cases h
  | worker pid input => exact hl.worker h
  | perform pid => exact hl.perform hn h

theorem lockstep_of_idle (hp : t.pids = head :: slaves) (hidle : Idle t) :
    Lockstep head slaves noDebt t where
  pids := hp
  headPhase := by
    rw [hidle.phase]
    trivial
  slavePhase slave _ := by
    rw [hidle.phase]
    trivial
  round := by
    rw [hidle.running]
    exact .quiet quiet_nil
  sending src dst msg hm := by
    rw [hidle.running] at hm
    cases hm
  sent src dst msg hm := by
    rw [hidle.channel] at hm
    cases hm
  ledger slave _ := by
    simp only [hidle.running, hidle.channel, hidle.entered, entries_nil, announcedTo_nil,
      List.filterMap_nil, noDebt, List.append_nil]

/-- After the move each slave agrees with the head. -/
def AgreeAfter (codec : Codec) (head : Int) (slaves : List Int) (t : Team) (move : Move) : Prop :=
  Act.Yields (Team.step codec move) (fun t' => ∀ slave ∈ slaves, Agree t' head slave) t

/-- In every run in which handlers that read whether their process is the head are told the truth,
the processes of the actor agree on their collectives in every state. -/
theorem collectives_agree (hn : (head :: slaves).Nodup) (hp : t.pids = head :: slaves)
    (hidle : Idle t) (hto : ∀ move ∈ moves, ToHeads head slaves move)
    (hknow : Act.Along (Team.step codec) AsksKnowing moves t) :
    Act.Along (Team.step codec) (AgreeAfter codec head slaves) moves t := by
  have hstep : ∀ t move out t', Lockstep head slaves noDebt t →
      (AsksKnowing t move ∧ ToHeads head slaves move) → True →
      Team.step codec move t = (out, .ok ((), t')) → Lockstep head slaves noDebt t' :=
    fun _ _ _ _ hl hb _ h => hl.step hn hb.2 hb.1 h
  have hagree : ∀ t move, Lockstep head slaves noDebt t →
      (AsksKnowing t move ∧ ToHeads head slaves move) →
      (True ↔ AgreeAfter codec head slaves t move) :=
    fun _ _ hl hb => iff_of_true trivial fun _ _ h _ hs => (hl.step hn hb.2 hb.1 h).agree hs
  exact (Act.Along.congr (P := fun _ _ => True) hstep hagree (lockstep_of_idle hp hidle)
    (hknow.and_mem hto)).mp (Act.Along.of_forall (fun _ _ => trivial) _ _)

instance (s : ActorServer) (input : Input) : Decidable (AsksIsHead s input) := by
  unfold AsksIsHead
  split <;> infer_instance

instance (t : Team) (pid : Int) : Decidable (KnowsRole t pid) :=
  match h : (t.servers pid).intraActorComm with
  | none => .isFalse fun ⟨_, hc, _⟩ => (by rw [h] at hc; cases hc)
  | some comm => decidable_of_iff ((comm.pid = 0 ↔ t.pids.head? = some pid) ∧
      (comm.pid = 0 → (t.servers pid).pids = t.pids))
    ⟨fun hc => ⟨comm, h, hc⟩, fun ⟨_, hc, hrole⟩ => (by rw [h] at hc; cases hc; exact hrole)⟩

instance (t : Team) (move : Move) : Decidable (AsksKnowing t move) :=
  match h : handled t move with
  | none => .isTrue fun _ _ hm => (by rw [h] at hm; cases hm)
  | some (pid, input) => decidable_of_iff (AsksIsHead (t.servers pid) input → KnowsRole t pid)
    ⟨fun hk _ _ hm => (by rw [h] at hm; cases hm; exact hk), fun hk => hk pid input h⟩

instance (head : Int) (slaves : List Int) (move : Move) : Decidable (ToHeads head slaves move) := by
  unfold ToHeads
  split <;> infer_instance

/-- Processes without an actor. -/
def fresh (pids : List Int) : Team := { pids := pids, servers := fun pid => { pid := pid } }

/-- Process 1 was the second process of an actor on 2 and 1. It is the head of the next one, on 1
and 3, and takes a prefetch when its new worker is still in its start-up. -/
def secondBefore : List Move :=
  [.outside 0 1 (.createActor ⟨"A", [2, 1]⟩), .worker 1 (.setIntraActorComm ⟨1, 2⟩),
    .outside 1 1 (.destroyActor false), .outside 0 1 (.createActor ⟨"B", [1, 3]⟩),
    .outside 0 3 (.createActor ⟨"B", [1, 3]⟩), .worker 3 (.setIntraActorComm ⟨1, 2⟩),
    .outside 0 1 (.prefetch ⟨2, 5, 8⟩), .perform 1]

/-- The head enters `gatherKeys` as a slave would, and announces it to nobody. -/
theorem collectives_disagree :
    Idle (fresh [1, 3]) ∧ (∀ move ∈ secondBefore, ToHeads 1 [3] move) ∧
      ¬ Act.Along (Team.step Serialization.ArchiveFormat.sampleFormat.codec)
        (AgreeAfter Serialization.ArchiveFormat.sampleFormat.codec 1 [3]) secondBefore
        (fresh [1, 3]) := by
  refine ⟨⟨fun _ => rfl, fun _ => rfl, fun _ => rfl, fun _ => rfl⟩, by decide, fun h => ?_⟩
  have hahead : ¬ Act.Along (Team.step Serialization.ArchiveFormat.sampleFormat.codec)
      (fun t move => Act.Yields (Team.step Serialization.ArchiveFormat.sampleFormat.codec move)
        (fun t' => (t'.entered 1).length ≤ (t'.entered 3).length + unheeded t' 1 3) t)
      secondBefore (fresh [1, 3]) := by decide +kernel
  exact hahead (h.mono fun _ _ hagree out t' hs => (hagree out t' hs 3 (by decide)).headAhead)

/-- An actor on 1 and 3 whose workers have installed the communicators. The slave takes the
prefetch, and enters its collective, before the head does. -/
def prefetched : List Move :=
  [.outside 0 1 (.createActor ⟨"B", [1, 3]⟩), .outside 0 3 (.createActor ⟨"B", [1, 3]⟩),
    .worker 1 (.setIntraActorComm ⟨0, 2⟩), .worker 3 (.setIntraActorComm ⟨1, 2⟩),
    .outside 0 1 (.prefetch ⟨2, 5, 8⟩), .perform 1, .deliver 1 3, .perform 3, .perform 1]

theorem collectives_agree_sample :
    Act.Along (Team.step Serialization.ArchiveFormat.sampleFormat.codec)
      (AgreeAfter Serialization.ArchiveFormat.sampleFormat.codec 1 [3]) prefetched (fresh [1, 3]) :=
  collectives_agree (by decide) rfl ⟨fun _ => rfl, fun _ => rfl, fun _ => rfl, fun _ => rfl⟩
    (by decide) (by decide +kernel)

end ActiveBsp.Collectives
