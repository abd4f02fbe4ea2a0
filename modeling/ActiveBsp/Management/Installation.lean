import ActiveBsp.Management.Frames
import ActiveBsp.Serialization.RoundTrip

/-!
# The communicator of the current actor

The manager answers a `CreateActor` as soon as it has started the worker thread.
The worker installs the communicator of the managers later, in its start-up, and
until then the manager has the one of an earlier actor, or none.
-/
namespace ActiveBsp.Installation

open Library

set_option autoImplicit false

/-- A manager with the worker threads in their start-up. Actors are numbered as they are created:
`actor` is the one that is alive, `installer` the one whose worker set the communicator. -/
structure Process where
  server : ActorServer
  created : Nat := 0
  actor : Option Nat := none
  starting : List (Nat × List Int) := []
  installer : Option Nat := none

inductive Move where
  /-- An input of the management thread. -/
  | manager (input : Input)
  /-- The first worker in its start-up calls `setIntraActorComm`. -/
  | install
  deriving DecidableEq, Repr

/-- `MPI_Comm_create_group` ranks the processes in the order of the list. -/
def communicator (pid : Int) (pids : List Int) : IntraActorCommunicator :=
  ⟨pids.idxOf pid, pids.length⟩

/-- `stopActor` joins the worker, whose start-up comes first. -/
def Joins : Input → Prop
  | .message _ (.destroyActor _) | .message _ .stop => True
  | _ => False

instance (input : Input) : Decidable (Joins input) := by
  unfold Joins
  split <;> infer_instance

namespace Process

/-- The process after an input whose handler returned. -/
def next (p : Process) (s : ActorServer) : Input → Process
  | .message _ (.createActor msg) => { p with
      server := s
      created := p.created + 1
      actor := some p.created
      starting := p.starting ++ [(p.created, msg.pids)] }
  | .message _ (.destroyActor _) | .message _ .stop => { p with server := s, actor := none }
  | _ => { p with server := s }

def step (codec : Codec) : Move → Act Process Output Fault Unit
  | .manager (.setIntraActorComm _) => fun _ => ([], .error .blocked)
  | .manager input => fun p =>
    if Joins input ∧ p.actor.isSome ∧ p.starting ≠ [] then ([], .error .blocked) else
      match ActorServer.step codec input p.server with
      | (out, .error e) => (out, .error e)
      | (out, .ok (_, s)) => (out, .ok ((), p.next s input))
  | .install => fun p =>
    match p.starting with
    | [] => ([], .error .blocked)
    | (actor, pids) :: starting =>
      ([], .ok ((), { p with
        server := { p.server with intraActorComm := some (communicator p.server.pid pids) }
        starting := starting
        installer := some actor }))

end Process

/-- The move runs a handler that uses the communicator: that of a `Prefetch` or a `Fetch`, or the
rest of the former behind its `gatherKeys`. -/
def UsesComm (p : Process) : Move → Prop
  | .manager (.message _ (.prefetch _)) | .manager (.message _ (.fetch _)) =>
    p.server.phase = .receiving ∧ p.server.qrun = true
  | .manager (.gatheredKeys _) => p.server.phase ≠ .receiving
  | _ => False

/-- The communicator is set, and by the worker of the actor that is alive. -/
def Current (p : Process) : Prop :=
  p.server.intraActorComm ≠ none ∧ p.actor ≠ none ∧ p.installer = p.actor

/-- An actor is alive, and its worker has passed its start-up. -/
def PastStartUp (p : Process) : Prop := p.actor ≠ none ∧ p.starting = []

/-- A process has one actor at a time. -/
def OneActor (p : Process) : Move → Prop
  | .manager (.message _ (.createActor _)) => p.actor = none
  | _ => True

instance (p : Process) (move : Move) : Decidable (OneActor p move) := by
  unfold OneActor
  split <;> infer_instance

variable {codec : Codec} {p p' : Process} {move : Move} {moves : List Move} {input : Input}
  {out : List Output} {s : ActorServer}

theorem core_intraActorComm {k : ActorServer.Kind} (hk : k ≠ .worker) (s : ActorServer) :
    (k.core s).intraActorComm = s.intraActorComm := by
  cases k <;> first | rfl | exact absurd rfl hk

/-- Only the worker's start-up sets the communicator. -/
theorem intraActorComm_kept {s' : ActorServer} (hi : ∀ comm, input ≠ .setIntraActorComm comm)
    (h : ActorServer.step codec input s = (out, .ok ((), s'))) :
    s'.intraActorComm = s.intraActorComm := by
  by_cases hk : ActorServer.kind input = .worker
  · cases input with
    | message src msg => cases msg <;> cases hk
    | gatheredKeys keys => cases hk
    | broadcastVd dv => cases hk
    | setIntraActorComm comm => exact absurd rfl (hi comm)
    | takeKey =>
      cases h
      rfl
  · have hkeeps := (ActorServer.step_kind input s out () s' h).1
    rw [← core_intraActorComm hk s', hkeeps, core_intraActorComm hk]

theorem manager_inv (h : Process.step codec (.manager input) p = (out, .ok ((), p'))) :
    (∀ comm, input ≠ .setIntraActorComm comm) ∧
      ¬ (Joins input ∧ p.actor.isSome ∧ p.starting ≠ []) ∧
      ∃ s, ActorServer.step codec input p.server = (out, .ok ((), s)) ∧ p' = p.next s input := by
  have hrun : ∀ input, ¬ (∃ comm, input = .setIntraActorComm comm) →
      Process.step codec (.manager input) p =
        if Joins input ∧ p.actor.isSome ∧ p.starting ≠ [] then ([], .error .blocked) else
          match ActorServer.step codec input p.server with
          | (out, .error e) => (out, .error e)
          | (out, .ok (_, s)) => (out, .ok ((), p.next s input)) := by
    intro input hi
    cases input <;> first | rfl | exact absurd ⟨_, rfl⟩ hi
  by_cases hi : ∃ comm, input = .setIntraActorComm comm
  · obtain ⟨comm, rfl⟩ := hi
    cases h
  · rw [hrun input hi] at h
    refine ⟨fun comm he => hi ⟨comm, he⟩, ?_⟩
    by_cases hjoin : Joins input ∧ p.actor.isSome ∧ p.starting ≠ []
    · rw [if_pos hjoin] at h
      cases h
    · rw [if_neg hjoin] at h
      rcases hs : ActorServer.step codec input p.server with ⟨out', e | ⟨u, s⟩⟩
      · rw [hs] at h
        cases h
      · rw [hs] at h
        cases h
        exact ⟨hjoin, s, rfl, rfl⟩

/-- The worker of the actor is in its start-up, or the communicator is its own. -/
inductive Stage (p : Process) : Prop where
  | noActor (ha : p.actor = none) (hs : p.starting = [])
  | starting {actor : Nat} {pids : List Int} (ha : p.actor = some actor)
      (hs : p.starting = [(actor, pids)]) (hi : p.installer ≠ some actor)
  | installed {actor : Nat} (ha : p.actor = some actor) (hs : p.starting = [])
      (hi : p.installer = some actor) (hc : p.server.intraActorComm ≠ none)

structure Staged (p : Process) : Prop where
  stage : Stage p
  actor : ∀ actor, p.actor = some actor → actor < p.created
  installer : ∀ actor, p.installer = some actor → actor < p.created

theorem Staged.current_iff (h : Staged p) : Current p ↔ PastStartUp p := by
  cases h.stage with
  | noActor ha hs => exact ⟨fun hc => absurd ha hc.2.1, fun hp => absurd ha hp.1⟩
  | starting ha hs hi =>
    refine ⟨fun hc => absurd (hc.2.2.trans ha) hi, fun hp => ?_⟩
    rw [PastStartUp, hs] at hp
    cases hp.2
  | installed ha hs hi hc =>
    have halive : p.actor ≠ none := ha ▸ Option.some_ne_none _
    exact ⟨fun _ => ⟨halive, hs⟩, fun _ => ⟨hc, halive, hi.trans ha.symm⟩⟩

/-- An input that neither creates nor stops an actor leaves the stage alone. -/
theorem Staged.of_server (h : Staged p) (hs : s.intraActorComm = p.server.intraActorComm) :
    Staged { p with server := s } := by
  refine ⟨?_, h.actor, h.installer⟩
  cases h.stage with
  | noActor ha hst => exact .noActor ha hst
  | starting ha hst hi => exact .starting ha hst hi
  | installed ha hst hi hc => exact .installed ha hst hi (hs ▸ hc)

private theorem staged_stop (h : Staged p)
    (hjoin : ¬ (p.actor.isSome ∧ p.starting ≠ [])) :
    Staged { p with server := s, actor := none } := by
  refine ⟨.noActor rfl ?_, fun actor ha => (by cases ha), h.installer⟩
  cases h.stage with
  | noActor ha hst => exact hst
  | starting ha hst hi => exact absurd ⟨by rw [ha]; rfl, by rw [hst]; simp⟩ hjoin
  | installed ha hst hi hc => exact hst

theorem staged_step (hp : Staged p) (hone : OneActor p move)
    (h : Process.step codec move p = (out, .ok ((), p'))) : Staged p' := by
  cases move with
  | manager input =>
    obtain ⟨hi, hjoin, s, hs, rfl⟩ := manager_inv h
    have hcomm := intraActorComm_kept hi hs
    cases input with
    | message src msg =>
      cases msg with
      | createActor msg =>
        have ha : p.actor = none := hone
        have hst : p.starting = [] := by
          cases hp.stage with
          | noActor ha' hst => exact hst
          | starting ha' => rw [ha] at ha'; cases ha'
          | installed ha' hst => exact hst
        refine ⟨@Stage.starting _ p.created msg.pids rfl ?_ fun hi => ?_, fun actor ha => ?_, fun actor hi => ?_⟩
        · change p.starting ++ [(p.created, msg.pids)] = [(p.created, msg.pids)]
          rw [hst, List.nil_append]
        · exact absurd (hp.installer _ hi) (Nat.lt_irrefl _)
        · cases ha
          exact Nat.lt_succ_self _
        · exact (hp.installer actor hi).trans (Nat.lt_succ_self _)
      | destroyActor ask => exact staged_stop hp fun hj => hjoin ⟨trivial, hj⟩
      | stop => exact staged_stop hp fun hj => hjoin ⟨trivial, hj⟩
      | _ => exact hp.of_server hcomm
    | _ => exact hp.of_server hcomm
  | install =>
    dsimp only [Process.step] at h
    cases hp.stage with
    | noActor ha hst =>
      rw [hst] at h
      cases h
    | @starting actor pids ha hst hi =>
      rw [hst] at h
      cases h
      refine ⟨.installed ha rfl rfl (Option.some_ne_none _), hp.actor, fun actor' hi' => ?_⟩
      cases hi'
      exact hp.actor actor ha
    | installed ha hst =>
      rw [hst] at h
      cases h

/-- A handler that uses the communicator finds the one of the current actor. -/
def UsesCurrent (p : Process) (move : Move) : Prop := UsesComm p move → Current p

/-- A handler that uses the communicator runs when the worker has passed its start-up. -/
def UsesPastStartUp (p : Process) (move : Move) : Prop := UsesComm p move → PastStartUp p

theorem staged_start (s : ActorServer) : Staged { server := s } where
  stage := .noActor rfl rfl
  actor _ ha := by cases ha
  installer _ hi := by cases hi

/-- In every run of a process with one actor at a time, the handlers of `Prefetch` and `Fetch` use
the communicator of the current actor, exactly when they run after the start-up of its worker. -/
theorem uses_current_iff (hone : Act.Along (Process.step codec) OneActor moves { server := s }) :
    Act.Along (Process.step codec) UsesCurrent moves { server := s } ↔
      Act.Along (Process.step codec) UsesPastStartUp moves { server := s } :=
  Act.Along.congr (P := UsesCurrent)
    (fun _ _ _ _ (hp : Staged _) hone _ h => staged_step hp hone h)
    (fun _ _ hp _ => forall_congr' fun _ => hp.current_iff) (staged_start s) hone

/-- The actor on 1 is created, and its worker is still in its start-up when a prefetch comes. -/
def prefetchFirst : List Move :=
  [.manager (.message 0 (.createActor ⟨"A", [1]⟩)), .manager (.message 0 (.prefetch ⟨2, 5, 8⟩))]

/-- Process 1 leads an actor on 1 and 2, and is then the second process of one on 3 and 1. -/
def createdAgain : List Move :=
  [.manager (.message 0 (.createActor ⟨"A", [1, 2]⟩)), .install,
    .manager (.message 0 (.destroyActor true)), .manager (.message 0 (.createActor ⟨"B", [3, 1]⟩)),
    .manager (.message 3 (.prefetch ⟨2, 5, 8⟩))]

instance (p : Process) (move : Move) : Decidable (UsesComm p move) := by
  unfold UsesComm
  split <;> infer_instance

instance (p : Process) : Decidable (Current p) := inferInstanceAs (Decidable (_ ∧ _ ∧ _))

instance (p : Process) (move : Move) : Decidable (UsesCurrent p move) :=
  inferInstanceAs (Decidable (_ → _))

/-- The prefetch finds no communicator, or the one in which process 1 was the head. -/
theorem uses_not_current :
    (¬ Act.Along (Process.step Serialization.ArchiveFormat.sampleFormat.codec) UsesCurrent
      prefetchFirst { server := { pid := 1 } }) ∧
    (Act.Along (Process.step Serialization.ArchiveFormat.sampleFormat.codec) OneActor
        createdAgain { server := { pid := 1 } } ∧
      ¬ Act.Along (Process.step Serialization.ArchiveFormat.sampleFormat.codec) UsesCurrent
        createdAgain { server := { pid := 1 } }) := by
  refine ⟨?_, ?_, ?_⟩ <;> decide +kernel

/-- When the worker is through with its start-up before the prefetch. -/
theorem uses_current_sample :
    Act.Along (Process.step Serialization.ArchiveFormat.sampleFormat.codec) UsesCurrent
        [.manager (.message 0 (.createActor ⟨"A", [1]⟩)), .install,
          .manager (.message 0 (.prefetch ⟨2, 5, 8⟩))] { server := { pid := 1 } } ↔
      Act.Along (Process.step Serialization.ArchiveFormat.sampleFormat.codec) UsesPastStartUp
        [.manager (.message 0 (.createActor ⟨"A", [1]⟩)), .install,
          .manager (.message 0 (.prefetch ⟨2, 5, 8⟩))] { server := { pid := 1 } } :=
  uses_current_iff (by decide +kernel)

end ActiveBsp.Installation
