import ActiveBsp.Library.WaitFor
import ActiveBsp.Management.Recipients
import ActiveBsp.Serialization.RoundTrip

/-!
# Managers that send to one another

A manager sends in the middle of a handler, and `MPI_Send` may return only when
the receiver has taken the message. The receiver takes it in its loop, between
two handlers. Who sends meanwhile waits, and managers may wait for one another.
-/
namespace ActiveBsp.SendDeadlock

open Library Library.WaitFor

set_option autoImplicit false

/-- The managers, the message that each has taken from the network, and what is left to do of the
handler that it runs. -/
structure Managers where
  servers : Int → ActorServer
  received : Int → Option (Int × ActorMessage)
  pending : Int → List Output
  faulted : Int → Bool

inductive Move where
  /-- A manager takes a message of a client or a worker thread. -/
  | receive (pid src : Int) (msg : ActorMessage)
  /-- A manager that is sending hands its message to another one. -/
  | deliver (src dst : Int)
  | handle (pid : Int)
  /-- A collective operation that a handler waited for is over. -/
  | resume (pid : Int) (input : Input)
  /-- A manager does what is next in its handler and sends nothing to a manager. -/
  | advance (pid : Int)
  /-- The worker thread beside the manager does something to its state. -/
  | worker (pid : Int) (input : Input)
  deriving DecidableEq, Repr

namespace Managers

def Receiving (m : Managers) (pid : Int) : Prop :=
  m.pending pid = [] ∧ m.received pid = none ∧ m.faulted pid = false ∧
    (m.servers pid).phase = .receiving ∧ (m.servers pid).qrun = true

instance (m : Managers) (pid : Int) : Decidable (m.Receiving pid) :=
  inferInstanceAs (Decidable (_ ∧ _))

/-- The manager to which a manager is sending. -/
def target (m : Managers) (pid : Int) : Option Int :=
  match m.pending pid with
  | .actorMessage dst _ :: _ => some dst
  | _ => none

/-- A handler runs up to its end or its fault; its outputs are still to be made. -/
def run (codec : Codec) (m : Managers) (pid : Int) (input : Input) : Managers :=
  match ActorServer.step codec input (m.servers pid) with
  | (out, .error _) => { m with
      pending := Function.update m.pending pid out
      faulted := Function.update m.faulted pid true }
  | (out, .ok (_, s)) => { m with
      servers := Function.update m.servers pid s
      pending := Function.update m.pending pid out }

def step (codec : Codec) : Move → Act Managers (Int × Output) Fault Unit
  | .receive pid src msg => fun m =>
    if m.Receiving pid then
      ([], .ok ((), { m with received := Function.update m.received pid (some (src, msg)) }))
    else ([], .error .blocked)
  | .deliver src dst => fun m =>
    match m.pending src with
    | .actorMessage dst' msg :: rest =>
      if dst' = dst ∧ m.Receiving dst then
        ([(src, .actorMessage dst msg)], .ok ((), { m with
          received := Function.update m.received dst (some (src, msg))
          pending := Function.update m.pending src rest }))
      else ([], .error .blocked)
    | _ => ([], .error .blocked)
  | .handle pid => fun m =>
    match m.received pid, m.pending pid with
    | some (src, msg), [] =>
      ([], .ok ((), run codec { m with received := Function.update m.received pid none } pid
        (.message src msg)))
    | _, _ => ([], .error .blocked)
  | .resume pid input => fun m =>
    if m.pending pid = [] ∧ m.received pid = none ∧ m.faulted pid = false then
      match input with
      | .gatheredKeys _ | .broadcastVd _ => ([], .ok ((), run codec m pid input))
      | _ => ([], .error .blocked)
    else ([], .error .blocked)
  | .advance pid => fun m =>
    match m.pending pid with
    | [] | .actorMessage .. :: _ => ([], .error .blocked)
    | o :: rest =>
      ([(pid, o)], .ok ((), { m with pending := Function.update m.pending pid rest }))
  | .worker pid input => fun m =>
    match input with
    | .setIntraActorComm _ | .takeKey =>
      match ActorServer.step codec input (m.servers pid) with
      | (out, .error e) => (out.map (Prod.mk pid), .error e)
      | (out, .ok (_, s)) =>
        (out.map (Prod.mk pid), .ok ((), { m with servers := Function.update m.servers pid s }))
    | _ => ([], .error .blocked)

end Managers

open Managers

def Managers.Waits (m : Managers) (p q : Int) : Prop := m.target p = some q

/-- No set of managers is blocked, each in a send to one of the set, after the move. -/
def NoDeadlock (codec : Codec) (m : Managers) (move : Move) : Prop :=
  Act.Yields (Managers.step codec move) (fun m' => ¬ Deadlocked m'.Waits) m

/-- A manager has a message to another one left to send in the handler that it runs. -/
def Managers.StillSends (m : Managers) (p q : Int) : Prop :=
  ∃ msg, .actorMessage q msg ∈ m.pending p

/-- The request, or the end of a collective operation, that a manager takes up. -/
def takenUp (m : Managers) : Move → Option (Int × Input)
  | .handle pid => (m.received pid).map fun request => (pid, .message request.1 request.2)
  | .resume pid input => some (pid, input)
  | _ => none

/-- Nobody to whom a request lets a manager send has, when it is taken up, a message left for it,
directly or through a chain of managers that have messages left for one another. -/
def TakesUpFree (codec : Codec) (m : Managers) (move : Move) : Prop :=
  ∀ pid input, takenUp m move = some (pid, input) → m.pending pid = [] →
    ∀ q ∈ ActorServer.recipients codec (m.servers pid) input,
      ¬ Relation.ReflTransGen m.StillSends q pid

variable {codec : Codec} {m m' : Managers} {move : Move} {moves : List Move}
  {out : List (Int × Output)} {pid p q : Int}

theorem run_pending (codec : Codec) (m : Managers) (pid : Int) (input : Input) :
    (m.run codec pid input).pending =
      Function.update m.pending pid (ActorServer.step codec input (m.servers pid)).1 := by
  unfold run
  split
  · rename_i hrun
    rw [hrun]
  · rename_i hrun
    rw [hrun]

/-- What a move does to what is left to do: nothing, or a manager has done what came next, or it
has taken something up. -/
theorem step_cases (h : Managers.step codec move m = (out, .ok ((), m'))) :
    m'.pending = m.pending ∨
    (∃ p o rest, m.pending p = o :: rest ∧ m'.pending = Function.update m.pending p rest ∧
      ∀ q msg, o = .actorMessage q msg → m.pending q = []) ∨
    ∃ pid input, takenUp m move = some (pid, input) ∧ m.pending pid = [] ∧
      m'.pending =
        Function.update m.pending pid (ActorServer.step codec input (m.servers pid)).1 := by
  cases move with
  | receive pid src msg =>
    unfold Managers.step at h
    dsimp only at h
    split_ifs at h with hr
    · cases h
      exact .inl rfl
    · cases h
  | deliver src dst =>
    unfold Managers.step at h
    dsimp only at h
    split at h
    · rename_i dst' msg rest hsrc
      split_ifs at h with hc
      · cases h
        refine .inr (.inl ⟨src, _, rest, hsrc, rfl, ?_⟩)
        rintro _ _ ⟨⟩
        rw [hc.1]
        exact hc.2.1
      · cases h
    · cases h
  | handle pid =>
    unfold Managers.step at h
    dsimp only at h
    split at h
    · rename_i src msg hreceived hpending
      cases h
      refine .inr (.inr ⟨pid, .message src msg, ?_, hpending, run_pending codec _ pid _⟩)
      rw [takenUp, hreceived]
      rfl
    · cases h
  | resume pid input =>
    unfold Managers.step at h
    dsimp only at h
    split_ifs at h with hc
    · split at h
      · cases h
        exact .inr (.inr ⟨pid, _, rfl, hc.1, run_pending codec m pid _⟩)
      · cases h
        exact .inr (.inr ⟨pid, _, rfl, hc.1, run_pending codec m pid _⟩)
      · cases h
    · cases h
  | advance pid =>
    unfold Managers.step at h
    dsimp only at h
    split at h
    · cases h
    · cases h
    · rename_i o rest hno hpending
      cases h
      exact .inr (.inl ⟨pid, o, rest, hpending, rfl, fun q msg ho => absurd ho (hno q msg)⟩)
  | worker pid input =>
    unfold Managers.step at h
    dsimp only at h
    split at h
    · split at h
      · cases h
      · cases h
        exact .inl rfl
    · split at h
      · cases h
      · cases h
        exact .inl rfl
    · cases h

theorem stillSends_of_waits (h : m.Waits p q) : m.StillSends p q := by
  unfold Waits target at h
  split at h
  · rename_i dst msg rest hpending
    cases h
    exact ⟨msg, hpending ▸ List.mem_cons_self⟩
  · cases h

/-- No chain of managers that still send to one another closes. -/
theorem acyclic_step (hm : Acyclic m.StillSends) (hfree : TakesUpFree codec m move)
    (h : Managers.step codec move m = (out, .ok ((), m'))) : Acyclic m'.StillSends := by
  rcases step_cases h with hsame | ⟨p, o, rest, hp, hrest, -⟩ | ⟨pid, input, htaken, hpid, hrun⟩
  · have hsends : m'.StillSends = m.StillSends := by
      unfold StillSends
      rw [hsame]
    rwa [hsends]
  · -- less is left to send
    refine hm.mono fun p' q ⟨msg, hmsg⟩ => ⟨msg, ?_⟩
    rw [hrest] at hmsg
    by_cases he : p' = p
    · subst he
      rw [Function.update_self] at hmsg
      rw [hp]
      exact List.mem_cons_of_mem o hmsg
    · rwa [Function.update_of_ne he] at hmsg
  · refine hm.of_sameBut (p := pid) ?_ ?_
    · intro q hq r
      unfold StillSends
      rw [hrun, Function.update_of_ne hq]
    · rintro q ⟨msg, hmsg⟩
      rw [hrun, Function.update_self] at hmsg
      have hto := (ActorServer.step_sends codec input (m.servers pid) _ rfl).1 _ hmsg
      exact hfree pid input htaken hpid q (hto q msg rfl)

/-- In a run in which no manager takes up a request that lets it send to one that still has to
send to it, through whatever chain, no set of managers is ever blocked in sends to one another. -/
theorem never_deadlocked (hm : ∀ pid, m.pending pid = [])
    (hfree : Act.Along (Managers.step codec) (TakesUpFree codec) moves m) :
    Act.Along (Managers.step codec) (NoDeadlock codec) moves m := by
  have hstart : Acyclic m.StillSends := by
    intro p hp
    obtain ⟨q, ⟨msg, hmsg⟩, -⟩ := Relation.TransGen.head'_iff.mp hp
    rw [hm p] at hmsg
    cases hmsg
  have hkeep : ∀ m move out m', Acyclic m.StillSends → TakesUpFree codec m move → True →
      Managers.step codec move m = (out, .ok ((), m')) → Acyclic m'.StillSends :=
    fun m move out m' hm hfree _ h => acyclic_step hm hfree h
  have hno : ∀ m move, Acyclic m.StillSends → TakesUpFree codec m move →
      (True ↔ NoDeadlock codec m move) := by
    intro m move hm hfree
    refine iff_of_true trivial fun out m' h => ?_
    exact ((acyclic_step hm hfree h).mono fun _ _ => stillSends_of_waits).not_deadlocked
  exact (Act.Along.congr hkeep hno hstart hfree).mp
    (Act.Along.of_forall (fun _ _ => trivial) moves m)

/-- A message stays to be sent while its receiver has something to do itself. -/
theorem stillSends_step (h : Managers.step codec move m = (out, .ok ((), m')))
    (hq : m.pending q ≠ []) (hpq : m.StillSends p q) : m'.StillSends p q := by
  obtain ⟨msg, hmsg⟩ := hpq
  refine ⟨msg, ?_⟩
  rcases step_cases h with hsame | ⟨p', o, rest, hp, hrest, hfree⟩ | ⟨pid, input, -, hpid, hrun⟩
  · rwa [hsame]
  · rw [hrest]
    by_cases he : p = p'
    · subst he
      rw [Function.update_self]
      rw [hp] at hmsg
      rcases List.mem_cons.mp hmsg with ho | hmsg
      · exact absurd (hfree q msg ho.symm) hq
      · exact hmsg
    · rwa [Function.update_of_ne he]
  · have hne : p ≠ pid := by
      rintro rfl
      rw [hpid] at hmsg
      cases hmsg
    rwa [hrun, Function.update_of_ne hne]

/-- So managers that have to send to one another do so for ever: none of them receives again. -/
theorem chain_step (h : Managers.step codec move m = (out, .ok ((), m')))
    (hp : Relation.TransGen m.StillSends p p) :
    Relation.TransGen m'.StillSends p p ∧ ¬ m.Receiving p := by
  have hbusy : ∀ {r q}, m.StillSends r q → m.pending r ≠ [] := by
    rintro r q ⟨msg, hmsg⟩ hnil
    rw [hnil] at hmsg
    cases hmsg
  have hchain : ∀ {q}, Relation.TransGen m.StillSends p q → m.pending q ≠ [] →
      Relation.TransGen m'.StillSends p q := by
    intro q hpq
    induction hpq with
    | single hpq => exact fun hq => .single (stillSends_step h hq hpq)
    | tail _ hrq ih => exact fun hq => (ih (hbusy hrq)).tail (stillSends_step h hq hrq)
  obtain ⟨q, hpq, -⟩ := Relation.TransGen.head'_iff.mp hp
  exact ⟨hchain hp (hbusy hpq), fun hr => hbusy hpq hr.1⟩

def createActor (pid : Int) : List Move :=
  [.receive pid 0 (.createActor ⟨"A", [pid]⟩), .handle pid, .advance pid, .advance pid,
    .worker pid (.setIntraActorComm ⟨0, 1⟩)]

/-- Client 0 lets the actor at `pid` prefetch the future under `key` of `owner`. -/
def prefetch (pid owner key : Int) : List Move :=
  [.receive pid 0 (.prefetch ⟨owner, key, 8⟩), .handle pid, .advance pid,
    .resume pid (.gatheredKeys [])]

def Managers.start : Managers :=
  ⟨fun pid => { pid := pid }, fun _ => none, fun _ => [], fun _ => false⟩

def Crossed (m : Managers) : Prop := m.target 1 = some 2 ∧ m.target 2 = some 1

instance (m : Managers) : Decidable (Crossed m) := inferInstanceAs (Decidable (_ ∧ _))

theorem deadlocked_of_self (h : m.target p = some p) : Deadlocked m.Waits :=
  deadlocked_of_chain (.single h)

theorem deadlocked_of_crossed (h : Crossed m) : Deadlocked m.Waits :=
  deadlocked_of_chain (.tail (.single h.1) h.2)

/-- An actor that prefetches its own future sends to itself; two actors that prefetch from one
another block one another. -/
theorem managers_deadlocked :
    (¬ Act.Along (Managers.step Serialization.ArchiveFormat.sampleFormat.codec)
      (NoDeadlock Serialization.ArchiveFormat.sampleFormat.codec)
      (createActor 1 ++ prefetch 1 1 5) .start) ∧
    ¬ Act.Along (Managers.step Serialization.ArchiveFormat.sampleFormat.codec)
      (NoDeadlock Serialization.ArchiveFormat.sampleFormat.codec)
      (createActor 1 ++ createActor 2 ++ prefetch 1 2 5 ++ prefetch 2 1 5) .start := by
  constructor
  · intro h
    have hself := h.mono (Q := fun m move => Act.Yields
      (Managers.step Serialization.ArchiveFormat.sampleFormat.codec move)
      (fun m => m.target 1 ≠ some 1) m)
      fun m move hno out m' hs ht => hno out m' hs (deadlocked_of_self ht)
    revert hself
    decide +kernel
  · intro h
    have hcrossed := h.mono (Q := fun m move => Act.Yields
      (Managers.step Serialization.ArchiveFormat.sampleFormat.codec move)
      (fun m => ¬ Crossed m) m)
      fun m move hno out m' hs hc => hno out m' hs (deadlocked_of_crossed hc)
    revert hcrossed
    decide +kernel

/-- Whoever a request lets a manager send to has nothing left to send. -/
def TakesUpIdle (codec : Codec) (m : Managers) (move : Move) : Prop :=
  ∀ request ∈ takenUp m move, ∀ q ∈ ActorServer.recipients codec (m.servers request.1) request.2,
    q ≠ request.1 ∧ m.pending q = []

instance (codec : Codec) (m : Managers) (move : Move) : Decidable (TakesUpIdle codec m move) :=
  inferInstanceAs (Decidable (∀ request ∈ takenUp m move, ∀ q ∈ _, _))

theorem TakesUpIdle.free (h : TakesUpIdle codec m move) : TakesUpFree codec m move := by
  intro pid input htaken _ q hq hchain
  obtain ⟨hne, hidle⟩ := h _ htaken q hq
  rcases Relation.ReflTransGen.cases_head hchain with rfl | ⟨r, ⟨msg, hmsg⟩, -⟩
  · exact hne rfl
  · rw [hidle] at hmsg
    cases hmsg

/-- The actor at 1 prefetches a future of 2, and gets its part when 2 has it. -/
def servedPrefetch : List Move :=
  createActor 1 ++ createActor 2 ++ prefetch 1 2 5 ++
    [.deliver 1 2, .handle 2, .receive 2 0 (.storeResult ⟨7, [1, 2, 3, 4, 5, 6, 7, 8]⟩), .handle 2,
      .receive 2 0 (.registerFutureData 5
        (Serialization.ArchiveFormat.sampleFormat.codec.serializeAll ⟨[⟨2, 7, 8, 0⟩]⟩)),
      .handle 2, .advance 2, .advance 2, .deliver 2 1, .handle 1]

theorem never_deadlocked_sample :
    Act.Along (Managers.step Serialization.ArchiveFormat.sampleFormat.codec)
      (NoDeadlock Serialization.ArchiveFormat.sampleFormat.codec) servedPrefetch .start := by
  have hidle : Act.Along (Managers.step Serialization.ArchiveFormat.sampleFormat.codec)
      (TakesUpIdle Serialization.ArchiveFormat.sampleFormat.codec) servedPrefetch .start := by
    decide +kernel
  exact never_deadlocked (fun _ => rfl) (hidle.mono fun _ _ h => h.free)

end ActiveBsp.SendDeadlock
