import ActiveBsp.Management.Frames
import ActiveBsp.Serialization.RoundTrip

/-!
# Actors on processes of an earlier actor

A client destroys an actor with a `StopActor` to its head, and has the answer
when the worker of the head is joined. The worker of a slave tells its own
manager, by a message of its own, before the barrier that ends all workers of
the actor. Managers take the messages of different senders in any order.
-/
namespace ActiveBsp.Recreation

open Library ActorServer

set_option autoImplicit false

/-- How far a client is with an actor. -/
inductive Stage where
  | creating
  | alive
  /-- `destroyObject` has sent its `StopActor`. -/
  | stopSent
  /-- The manager of the head is inside `stopActor`. -/
  | stopTaken
  | replied
  /-- `destroyObject` has returned. -/
  | returned
  deriving DecidableEq, Repr

/-- Where a worker thread is in its loop and in `destroyActor`. -/
inductive Worker where
  | absent
  | looping
  | sendingStop
  | syncing
  | finished
  deriving DecidableEq, Repr

/-- `pthread_join` on the worker that the proxy had, for a message of an actor. -/
structure Stopping where
  worker : Nat
  actor : Nat
  asked : Bool
  deriving DecidableEq, Repr

/-- A manager, and the actor whose worker its `_actorWorkerProxy` has. -/
structure Process where
  server : ActorServer
  proxy : Option Nat := none
  stopping : Option Stopping := none

/-- A `CreateActor`, or a `StopActor`, of an actor. -/
inductive Letter where
  | create (actor : Nat)
  | stop (actor : Nat) (askAnswer : Bool)
  deriving DecidableEq, Repr

def Letter.actor : Letter → Nat
  | .create actor => actor
  | .stop actor _ => actor

/-- An actor as its client created it; `earlier` are those whose `destroyObject` had returned. -/
structure Actor where
  name : String := ""
  client : Int := 0
  pids : List Int := []
  earlier : List Nat := []

/-- Actors are numbered as they are created. -/
structure Cluster where
  processes : Int → Process
  next : Nat := 0
  actors : Nat → Actor := fun _ => {}
  stage : Nat → Stage := fun _ => .creating
  worker : Nat × Int → Worker := fun _ => .absent
  channel : Int × Int → List Letter := fun _ => []
  /-- The actors whose `CreateActor` a manager has handled. -/
  created : Int → List Nat := fun _ => []

inductive Move where
  /-- `askCreateActor`. -/
  | create (client : Int) (actorName : String) (pids : List Int)
  /-- `destroyObject` sends its message. -/
  | destroy (actor : Nat)
  /-- `destroyObject` has its answer. -/
  | returns (actor : Nat)
  /-- A manager takes the next message of a sender. -/
  | take (src dst : Int)
  /-- `pthread_join` returns in a manager. -/
  | joined (pid : Int)
  /-- The worker of the head takes the request to stop, and kills the slaves. -/
  | seeStop (actor : Nat)
  /-- The worker of a slave leaves its loop. -/
  | seeKill (actor : Nat) (pid : Int)
  /-- `destroyMasterObject`. -/
  | sendStop (actor : Nat) (pid : Int)
  /-- `bsp_sync` returns. -/
  | synced (actor : Nat) (pid : Int)
  /-- Any other input of a manager. -/
  | other (pid : Int) (input : Input)
  deriving DecidableEq, Repr

/-- The worker has entered the last `bsp_sync`. -/
def Worker.Synced (w : Worker) : Prop := w = .syncing ∨ w = .finished

instance (w : Worker) : Decidable w.Synced := inferInstanceAs (Decidable (_ ∨ _))

namespace Cluster

def pids (c : Cluster) (actor : Nat) : List Int := (c.actors actor).pids

def head (c : Cluster) (actor : Nat) : Option Int := (c.pids actor).head?

def message (c : Cluster) : Letter → ActorMessage
  | .create actor => .createActor ⟨(c.actors actor).name, c.pids actor⟩
  | .stop _ askAnswer => .destroyActor askAnswer

/-- The actors whose `destroyObject` has returned. -/
def destroyed (c : Cluster) : List Nat :=
  (List.range c.next).filter fun actor => c.stage actor = .returned

/-- What is added to the channels when a client sends a message to each process of a list. -/
def post (channel : Int × Int → List Letter) (src : Int) (dsts : List Int) (letter : Letter) :
    Int × Int → List Letter :=
  fun pair => if pair.1 = src ∧ pair.2 ∈ dsts then channel pair ++ [letter] else channel pair

/-- What a manager and the other parties know when it has taken a message. -/
def taken (c : Cluster) (dst : Int) (server : ActorServer) : Letter → Except Fault Cluster
  | .create actor => .ok { c with
      processes := Function.update c.processes dst
        { c.processes dst with server := server, proxy := some actor }
      worker := Function.update c.worker (actor, dst) .looping
      stage := if c.head actor = some dst then Function.update c.stage actor .alive else c.stage
      created := Function.update c.created dst (c.created dst ++ [actor]) }
  | .stop actor askAnswer =>
    match (c.processes dst).proxy with
    | none => .error .undefined
    | some worker => .ok { c with
        processes := Function.update c.processes dst
          ⟨server, none, some ⟨worker, actor, askAnswer⟩⟩
        stage := if askAnswer then Function.update c.stage actor .stopTaken else c.stage }

def step (codec : Codec) : Move → Act Cluster Output Fault Unit
  | .create client actorName pids => fun c => ([], .ok ((), { c with
      next := c.next + 1
      actors := Function.update c.actors c.next ⟨actorName, client, pids, c.destroyed⟩
      channel := post c.channel client pids (.create c.next) }))
  | .destroy actor => fun c =>
    match c.stage actor, c.head actor with
    | .alive, some head => ([], .ok ((), { c with
        stage := Function.update c.stage actor .stopSent
        channel := post c.channel (c.actors actor).client [head] (.stop actor true) }))
    | _, _ => ([], .error .blocked)
  | .returns actor => fun c =>
    if c.stage actor = .replied then
      ([], .ok ((), { c with stage := Function.update c.stage actor .returned }))
    else ([], .error .blocked)
  | .take src dst => fun c =>
    match (c.processes dst).stopping, c.channel (src, dst) with
    | none, letter :: rest =>
      match ActorServer.step codec (.message src (c.message letter)) (c.processes dst).server with
      | (out, .error e) => (out, .error e)
      | (out, .ok (_, server)) =>
        match { c with channel := Function.update c.channel (src, dst) rest }.taken dst server
          letter with
        | .error e => (out, .error e)
        | .ok c' => (out, .ok ((), c'))
    | _, _ => ([], .error .blocked)
  | .joined pid => fun c =>
    match (c.processes pid).stopping with
    | none => ([], .error .blocked)
    | some stopping =>
      if c.worker (stopping.worker, pid) = .finished then
        ([], .ok ((), { c with
          processes := Function.update c.processes pid { c.processes pid with stopping := none }
          stage := if stopping.asked then Function.update c.stage stopping.actor .replied
            else c.stage }))
      else ([], .error .blocked)
  | .seeStop actor => fun c =>
    match c.head actor with
    | none => ([], .error .blocked)
    | some head =>
      if c.worker (actor, head) = .looping ∧
          (c.processes head).stopping.any (fun stopping => stopping.worker = actor) then
        ([], .ok ((), { c with worker := Function.update c.worker (actor, head) .syncing }))
      else ([], .error .blocked)
  | .seeKill actor pid => fun c =>
    if pid ∈ (c.pids actor).tail ∧ c.worker (actor, pid) = .looping ∧
        (c.head actor).any (fun head => (c.worker (actor, head)).Synced) then
      ([], .ok ((), { c with worker := Function.update c.worker (actor, pid) .sendingStop }))
    else ([], .error .blocked)
  | .sendStop actor pid => fun c =>
    if pid ∈ (c.pids actor).tail ∧ c.worker (actor, pid) = .sendingStop then
      ([], .ok ((), { c with
        worker := Function.update c.worker (actor, pid) .syncing
        channel := post c.channel pid [pid] (.stop actor false) }))
    else ([], .error .blocked)
  | .synced actor pid => fun c =>
    if c.worker (actor, pid) = .syncing ∧ ∀ q ∈ c.pids actor, (c.worker (actor, q)).Synced then
      ([], .ok ((), { c with worker := Function.update c.worker (actor, pid) .finished }))
    else ([], .error .blocked)
  | .other pid input => fun c =>
    if kind input = .lifecycle ∨ ((c.processes pid).stopping.isSome ∧ kind input ≠ .worker) then
      ([], .error .blocked) else
      match ActorServer.step codec input (c.processes pid).server with
      | (out, .error e) => (out, .error e)
      | (out, .ok (_, server)) => (out, .ok ((), { c with
          processes := Function.update c.processes pid { c.processes pid with server := server } }))

end Cluster

/-- A manager takes a `StopActor` of an actor, and has handled the `CreateActor` of one that was
created when `destroyObject` on the former had returned. -/
def HitsNext (c : Cluster) : Move → Prop
  | .take src dst =>
    match (c.channel (src, dst)).head? with
    | some (.stop actor _) => ∃ b ∈ c.created dst, actor ∈ (c.actors b).earlier
    | _ => False
  | _ => False

/-- A manager that takes the `CreateActor` of an actor has taken what its own workers of destroyed
actors have sent it. -/
def StopsTaken (c : Cluster) : Move → Prop
  | .take src dst =>
    match (c.channel (src, dst)).head? with
    | some (.create b) => ∀ a ∈ (c.actors b).earlier, .stop a false ∉ c.channel (dst, dst)
    | _ => True
  | _ => True

/-- An actor is created on processes whose earlier actors are destroyed. -/
def OnFree (c : Cluster) : Move → Prop
  | .create _ _ pids => pids.Nodup ∧
      ∀ a < c.next, (∃ p ∈ pids, p ∈ c.pids a) → c.stage a = .returned
  | _ => True

variable {codec : Codec} {c c' : Cluster} {move : Move} {moves : List Move} {out : List Output}
  {src dst p q : Int} {a b : Nat} {letter : Letter}

/-- Why a message is on its way. -/
inductive InFlight (c : Cluster) (src dst : Int) : Letter → Prop where
  | create {a : Nat} (hdst : dst ∈ c.pids a) (hsrc : src = (c.actors a).client)
      (hw : c.worker (a, dst) = .absent) : InFlight c src dst (.create a)
  | stop {a : Nat} (hdst : c.head a = some dst) (hsrc : src = (c.actors a).client)
      (hs : c.stage a = .stopSent) : InFlight c src dst (.stop a true)
  | stopOwn {a : Nat} (hdst : dst ∈ (c.pids a).tail) (hsrc : src = dst)
      (hw : (c.worker (a, dst)).Synced) : InFlight c src dst (.stop a false)

structure Orderly (c : Cluster) : Prop where
  fresh : ∀ a, c.next ≤ a → c.stage a = .creating ∧ (∀ p, c.worker (a, p) = .absent) ∧ c.pids a = []
  nodup : ∀ a, (c.pids a).Nodup
  returned : ∀ b, ∀ a ∈ (c.actors b).earlier, a < c.next ∧ c.stage a = .returned
  shared : ∀ a b p, a < b → b < c.next → p ∈ c.pids a → p ∈ c.pids b → a ∈ (c.actors b).earlier
  inFlight : ∀ src dst, ∀ letter ∈ c.channel (src, dst),
    letter.actor < c.next ∧ InFlight c src dst letter
  once : ∀ pair, (c.channel pair).Nodup
  barrier : ∀ a p, c.worker (a, p) = .finished → ∀ q ∈ c.pids a, (c.worker (a, q)).Synced
  answered : ∀ a, c.stage a = .replied ∨ c.stage a = .returned →
    ∀ q ∈ c.pids a, (c.worker (a, q)).Synced
  led : ∀ a head, c.head a = some head → c.stage a ≠ .creating →
    c.worker (a, head) ≠ .absent ∧ a ∈ c.created head
  proxied : ∀ a head, c.head a = some head → c.stage a = .alive ∨ c.stage a = .stopSent →
    (c.processes head).proxy = some a
  joining : ∀ p stopping, (c.processes p).stopping = some stopping → stopping.asked = true →
    stopping.worker = stopping.actor ∧ c.head stopping.actor = some p ∧
      c.stage stopping.actor = .stopTaken
  passed : ∀ dst, ∀ b ∈ c.created dst, b < c.next ∧ ∀ a ∈ (c.actors b).earlier, ∀ src ask,
    .stop a ask ∉ c.channel (src, dst)

theorem not_synced_absent : ¬ Worker.Synced .absent := by decide

theorem mem_of_head {head : Int} (h : c.head a = some head) : head ∈ c.pids a :=
  List.mem_of_mem_head? h

theorem head_not_mem_tail (hc : Orderly c) {head : Int} (h : c.head a = some head) :
    head ∉ (c.pids a).tail := by
  have hn := hc.nodup a
  unfold Cluster.head at h
  cases hp : c.pids a with
  | nil =>
    rw [hp] at h
    cases h
  | cons x xs =>
    rw [hp] at h hn
    cases h
    exact (List.nodup_cons.mp hn).1

/-- A message that is on its way stays so while workers only move on. -/
theorem InFlight.mono (h : InFlight c src dst letter)
    (hactor : c'.actors letter.actor = c.actors letter.actor)
    (habsent : letter = .create letter.actor → c.worker (letter.actor, dst) = .absent →
      c'.worker (letter.actor, dst) = .absent)
    (hsynced : (c.worker (letter.actor, dst)).Synced → (c'.worker (letter.actor, dst)).Synced)
    (hstage : letter = .stop letter.actor true → c.stage letter.actor = .stopSent →
      c'.stage letter.actor = .stopSent) : InFlight c' src dst letter := by
  cases h with
  | @create a hdst hsrc hw =>
    have ha : c'.actors a = c.actors a := hactor
    refine .create ?_ (by rw [ha]; exact hsrc) (habsent rfl hw)
    unfold Cluster.pids
    rw [ha]
    exact hdst
  | @stop a hdst hsrc hs =>
    have ha : c'.actors a = c.actors a := hactor
    refine .stop ?_ (by rw [ha]; exact hsrc) (hstage rfl hs)
    unfold Cluster.head Cluster.pids
    rw [ha]
    exact hdst
  | @stopOwn a hdst hsrc hw =>
    have ha : c'.actors a = c.actors a := hactor
    refine .stopOwn ?_ hsrc (hsynced hw)
    unfold Cluster.pids
    rw [ha]
    exact hdst

/-- Workers that move on, keeping the barrier. -/
theorem Orderly.of_worker (hc : Orderly c) {w : Nat × Int → Worker}
    (habsent : ∀ x, w x = .absent ↔ c.worker x = .absent)
    (hsynced : ∀ x, (c.worker x).Synced → (w x).Synced)
    (hbarrier : ∀ a p, w (a, p) = .finished → ∀ q ∈ c.pids a, (w (a, q)).Synced) :
    Orderly { c with worker := w } where
  fresh a ha := ⟨(hc.fresh a ha).1, fun p => (habsent _).mpr ((hc.fresh a ha).2.1 p),
    (hc.fresh a ha).2.2⟩
  nodup := hc.nodup
  returned := hc.returned
  shared := hc.shared
  inFlight src dst letter hm := by
    obtain ⟨hlt, hin⟩ := hc.inFlight src dst letter hm
    exact ⟨hlt, hin.mono rfl (fun _ h => (habsent _).mpr h) (hsynced _) fun _ h => h⟩
  once := hc.once
  barrier := hbarrier
  answered a hs q hq := hsynced _ (hc.answered a hs q hq)
  led a head hh hs :=
    ⟨fun h => (hc.led a head hh hs).1 ((habsent _).mp h), (hc.led a head hh hs).2⟩
  proxied := hc.proxied
  joining := hc.joining
  passed := hc.passed

/-- One worker moves on from a state that is not its last. -/
theorem Orderly.worker_moves (hc : Orderly c) {w : Worker} (hold : c.worker (a, p) ≠ .absent)
    (hnew : w ≠ .absent) (hsynced : (c.worker (a, p)).Synced → w.Synced)
    (hfinished : w = .finished → ∀ q ∈ c.pids a, (c.worker (a, q)).Synced) :
    Orderly { c with worker := Function.update c.worker (a, p) w } := by
  have hkept : ∀ x, (c.worker x).Synced → (Function.update c.worker (a, p) w x).Synced := by
    intro x hx
    by_cases hp : x = (a, p)
    · subst hp
      rw [Function.update_self]
      exact hsynced hx
    · rw [Function.update_of_ne hp]
      exact hx
  refine hc.of_worker (fun x => ?_) hkept fun a' p' hf q hq => ?_
  · by_cases hp : x = (a, p)
    · subst hp
      rw [Function.update_self]
      exact iff_of_false hnew hold
    · rw [Function.update_of_ne hp]
  · by_cases hp : (a', p') = (a, p)
    · cases hp
      rw [Function.update_self] at hf
      exact hkept _ (hfinished hf q hq)
    · rw [Function.update_of_ne hp] at hf
      exact hkept _ (hc.barrier a' p' hf q hq)

theorem Orderly.seeStop (hc : Orderly c)
    (h : Cluster.step codec (.seeStop a) c = (out, .ok ((), c'))) : Orderly c' := by
  dsimp only [Cluster.step] at h
  cases hh : c.head a with
  | none =>
    rw [hh] at h
    cases h
  | some head =>
    simp only [hh] at h
    split_ifs at h with hw
    · cases h
      refine hc.worker_moves ?_ (by decide) (fun _ => .inl rfl) fun hf => by cases hf
      rw [hw.1]
      decide
    · cases h

theorem Orderly.seeKill (hc : Orderly c)
    (h : Cluster.step codec (.seeKill a p) c = (out, .ok ((), c'))) : Orderly c' := by
  dsimp only [Cluster.step] at h
  split_ifs at h with hw
  · cases h
    refine hc.worker_moves ?_ (by decide) (fun hs => ?_) fun hf => by cases hf
    · rw [hw.2.1]
      decide
    · rw [hw.2.1] at hs
      exact absurd hs (by decide)
  · cases h

theorem Orderly.synced (hc : Orderly c)
    (h : Cluster.step codec (.synced a p) c = (out, .ok ((), c'))) : Orderly c' := by
  dsimp only [Cluster.step] at h
  split_ifs at h with hw
  · cases h
    refine hc.worker_moves ?_ (by decide) (fun _ => .inr rfl) fun _ => hw.2
    rw [hw.1]
    decide
  · cases h

theorem mem_post {channel : Int × Int → List Letter} {dsts : List Int} {new : Letter}
    {pair : Int × Int} : letter ∈ Cluster.post channel src dsts new pair ↔
      letter ∈ channel pair ∨ (pair.1 = src ∧ pair.2 ∈ dsts) ∧ letter = new := by
  unfold Cluster.post
  by_cases hp : pair.1 = src ∧ pair.2 ∈ dsts
  · rw [if_pos hp, List.mem_append, List.mem_singleton]
    simp only [hp, true_and, and_self]
  · rw [if_neg hp]
    exact ⟨.inl, fun h => h.resolve_right fun hr => hp hr.1⟩

theorem nodup_post {channel : Int × Int → List Letter} {dsts : List Int} {new : Letter}
    {pair : Int × Int} (hn : (channel pair).Nodup)
    (hnew : pair.1 = src → pair.2 ∈ dsts → new ∉ channel pair) :
    (Cluster.post channel src dsts new pair).Nodup := by
  unfold Cluster.post
  split_ifs with hp
  · exact List.nodup_append.mpr ⟨hn, List.nodup_singleton _, fun x hx y hy he =>
      hnew hp.1 hp.2 (List.mem_singleton.mp hy ▸ he ▸ hx)⟩
  · exact hn

theorem Orderly.sendStop (hc : Orderly c)
    (h : Cluster.step codec (.sendStop a p) c = (out, .ok ((), c'))) : Orderly c' := by
  dsimp only [Cluster.step] at h
  split_ifs at h with hw
  swap
  · cases h
  cases h
  obtain ⟨hp, hw⟩ := hw
  have hnot : ¬ (c.worker (a, p)).Synced := by
    rw [hw]
    decide
  have hm := hc.worker_moves (a := a) (p := p) (w := .syncing) (by rw [hw]; decide) (by decide)
    (fun _ => .inl rfl) fun hf => by cases hf
  have hwa : (Function.update c.worker (a, p) .syncing (a, p)).Synced := by
    rw [Function.update_self]
    exact .inl rfl
  refine ⟨hm.fresh, hm.nodup, hm.returned, hm.shared, fun src dst letter hl => ?_, fun pair => ?_,
    hm.barrier, hm.answered, hm.led, hm.proxied, hm.joining, fun dst b hb =>
      ⟨(hc.passed dst b hb).1, fun a' ha' src ask hl => ?_⟩⟩
  · rcases mem_post.mp hl with hold | ⟨⟨rfl, hdst⟩, rfl⟩
    · exact ⟨(hm.inFlight src dst letter hold).1, (hm.inFlight src dst letter hold).2.mono rfl
        (fun _ h => h) id fun _ h => h⟩
    · have hdst : dst = src := List.mem_singleton.mp hdst
      subst hdst
      refine ⟨?_, .stopOwn hp rfl hwa⟩
      by_contra hlt
      have hnone := (hc.fresh a (Nat.not_lt.mp hlt)).2.1 dst
      rw [hw] at hnone
      cases hnone
  · refine nodup_post (hc.once pair) fun _ hdst hl => ?_
    obtain ⟨src, dst⟩ := pair
    have hdst : dst = p := List.mem_singleton.mp hdst
    subst hdst
    cases (hc.inFlight src dst _ hl).2 with
    | stopOwn _ _ hs => exact hnot hs
  · rcases mem_post.mp hl with hold | ⟨_, he⟩
    · exact (hc.passed dst b hb).2 a' ha' src ask hold
    · cases he
      have hs := hc.answered a (.inr (hc.returned b a ha').2) p (List.mem_of_mem_tail hp)
      exact hnot hs

/-- A change of one stage does not concern the other ones. -/
theorem stage_update {stage : Nat → Stage} {st new : Stage} (hold : stage a ≠ st) (hnew : new ≠ st) :
    Function.update stage a new b = st ↔ stage b = st := by
  by_cases he : b = a
  · subst he
    rw [Function.update_self]
    exact iff_of_false hnew hold
  · rw [Function.update_of_ne he]

/-- The client asks the head of an actor that is alive to stop it. -/
theorem Orderly.destroy (hc : Orderly c)
    (h : Cluster.step codec (.destroy a) c = (out, .ok ((), c'))) : Orderly c' := by
  dsimp only [Cluster.step] at h
  cases hs : c.stage a with
  | alive =>
    cases hh : c.head a with
    | none =>
      rw [hs, hh] at h
      cases h
    | some head =>
      rw [hs, hh] at h
      cases h
      have hlt : a < c.next := by
        by_contra hlt
        have hnew := (hc.fresh a (Nat.not_lt.mp hlt)).1
        rw [hs] at hnew
        cases hnew
      have hstage : ∀ a' st, st ≠ .alive → st ≠ .stopSent →
          (Function.update c.stage a .stopSent a' = st ↔ c.stage a' = st) := fun a' st h₁ h₂ =>
        stage_update (by rw [hs]; exact h₁.symm) h₂.symm
      refine ⟨fun a' ha' => ?_, hc.nodup, fun b a' ha' => ?_, hc.shared, fun src dst letter hl => ?_,
        fun pair => ?_, hc.barrier, fun a' hst => ?_, fun a' head' hh' hst => ?_,
        fun a' head' hh' hst => ?_, fun p stopping hp hask => ?_, fun dst b hb =>
        ⟨(hc.passed dst b hb).1, fun a' ha' src ask hl => ?_⟩⟩
      · exact ⟨(hstage a' _ (by decide) (by decide)).mpr (hc.fresh a' ha').1, (hc.fresh a' ha').2⟩
      · exact ⟨(hc.returned b a' ha').1,
          (hstage a' _ (by decide) (by decide)).mpr (hc.returned b a' ha').2⟩
      · rcases mem_post.mp hl with hold | ⟨⟨hsrc, hdst⟩, rfl⟩
        · refine ⟨(hc.inFlight src dst letter hold).1,
            (hc.inFlight src dst letter hold).2.mono rfl (fun _ h => h) id fun _ hst => ?_⟩
          by_cases he : letter.actor = a
          · simp only [he, Function.update_self]
          · simp only [Function.update_of_ne he]
            exact hst
        · refine ⟨hlt, .stop ?_ hsrc ?_⟩
          · have hd : dst = head := List.mem_singleton.mp hdst
            rw [hd]
            exact hh
          · simp only [Function.update_self]
      · refine nodup_post (hc.once pair) fun _ _ hl => ?_
        obtain ⟨src, dst⟩ := pair
        cases (hc.inFlight src dst _ hl).2 with
        | stop _ _ hst =>
          rw [hs] at hst
          cases hst
      · exact hc.answered a' (hst.imp (hstage a' _ (by decide) (by decide)).mp
          (hstage a' _ (by decide) (by decide)).mp)
      · exact hc.led a' head' hh' fun hst' =>
          hst ((hstage a' _ (by decide) (by decide)).mpr hst')
      · refine hc.proxied a' head' hh' ?_
        by_cases he : a' = a
        · rw [he]
          exact .inl hs
        · simpa only [Function.update_of_ne he] using hst
      · obtain ⟨h₁, h₂, h₃⟩ := hc.joining p stopping hp hask
        exact ⟨h₁, h₂, (hstage _ _ (by decide) (by decide)).mpr h₃⟩
      · rcases mem_post.mp hl with hold | ⟨_, he⟩
        · exact (hc.passed dst b hb).2 a' ha' src ask hold
        · cases he
          have hret := (hc.returned b a ha').2
          rw [hs] at hret
          cases hret
  | _ =>
    rw [hs] at h
    cases h

/-- An actor comes to a later stage of its end, when all its workers are in their last barrier. -/
theorem Orderly.of_stage (hc : Orderly c) {st : Stage} (hnew : st = .replied ∨ st = .returned)
    (hold : c.stage a = .stopTaken ∨ c.stage a = .replied)
    (hjoining : ∀ p stopping, (c.processes p).stopping = some stopping → stopping.asked = true →
      stopping.actor ≠ a)
    (hsynced : ∀ q ∈ c.pids a, (c.worker (a, q)).Synced) :
    Orderly { c with stage := Function.update c.stage a st } := by
  have hstage : ∀ b st', st' = .creating ∨ st' = .alive ∨ st' = .stopSent →
      (Function.update c.stage a st b = st' ↔ c.stage b = st') := by
    intro b st' hst'
    refine stage_update ?_ ?_
    · rcases hst' with rfl | rfl | rfl <;> rcases hold with h | h <;> rw [h] <;> decide
    · rcases hst' with rfl | rfl | rfl <;> rcases hnew with rfl | rfl <;> decide
  refine ⟨fun b hb => ?_, hc.nodup, fun b a' ha' => ?_, hc.shared, fun src dst letter hl => ?_,
    hc.once, hc.barrier, fun b hst q hq => ?_, fun b head hh hst => ?_, fun b head hh hst => ?_,
    fun p stopping hp hask => ?_, hc.passed⟩
  · exact ⟨(hstage b _ (.inl rfl)).mpr (hc.fresh b hb).1, (hc.fresh b hb).2⟩
  · obtain ⟨hlt, hret⟩ := hc.returned b a' ha'
    refine ⟨hlt, ?_⟩
    by_cases he : a' = a
    · subst he
      rcases hold with h | h <;> rw [h] at hret <;> cases hret
    · simpa only [Function.update_of_ne he] using hret
  · exact ⟨(hc.inFlight src dst letter hl).1, (hc.inFlight src dst letter hl).2.mono rfl
      (fun _ h => h) id fun _ h => (hstage _ _ (.inr (.inr rfl))).mpr h⟩
  · by_cases he : b = a
    · subst he
      exact hsynced q hq
    · simp only [Function.update_of_ne he] at hst
      exact hc.answered b hst q hq
  · exact hc.led b head hh fun h => hst ((hstage b _ (.inl rfl)).mpr h)
  · exact hc.proxied b head hh (hst.imp (hstage b _ (.inr (.inl rfl))).mp
      (hstage b _ (.inr (.inr rfl))).mp)
  · obtain ⟨h₁, h₂, h₃⟩ := hc.joining p stopping hp hask
    refine ⟨h₁, h₂, ?_⟩
    simpa only [Function.update_of_ne (hjoining p stopping hp hask)] using h₃

theorem Orderly.returns (hc : Orderly c)
    (h : Cluster.step codec (.returns a) c = (out, .ok ((), c'))) : Orderly c' := by
  dsimp only [Cluster.step] at h
  split_ifs at h with hs
  · cases h
    refine hc.of_stage (.inr rfl) (.inr hs) (fun p stopping hp hask he => ?_)
      (hc.answered a (.inl hs))
    have htaken := (hc.joining p stopping hp hask).2.2
    rw [he, hs] at htaken
    cases htaken
  · cases h

/-- A manager that has no worker to join any more. -/
theorem Orderly.released (hc : Orderly c) : Orderly { c with
    processes := Function.update c.processes p { c.processes p with stopping := none } } := by
  refine ⟨hc.fresh, hc.nodup, hc.returned, hc.shared, fun src dst letter hl => ?_, hc.once,
    hc.barrier, hc.answered, hc.led, fun b head hh hst => ?_, fun q stopping hq hask => ?_,
    hc.passed⟩
  · exact ⟨(hc.inFlight src dst letter hl).1, (hc.inFlight src dst letter hl).2.mono rfl
      (fun _ h => h) id fun _ h => h⟩
  · by_cases he : head = p
    · subst he
      simpa only [Function.update_self] using hc.proxied b head hh hst
    · simpa only [Function.update_of_ne he] using hc.proxied b head hh hst
  · by_cases he : q = p
    · subst he
      simp only [Function.update_self] at hq
      cases hq
    · simp only [Function.update_of_ne he] at hq
      exact hc.joining q stopping hq hask

theorem Orderly.joined (hc : Orderly c)
    (h : Cluster.step codec (.joined p) c = (out, .ok ((), c'))) : Orderly c' := by
  dsimp only [Cluster.step] at h
  cases hp : (c.processes p).stopping with
  | none =>
    rw [hp] at h
    cases h
  | some stopping =>
    simp only [hp] at h
    split_ifs at h with hw hask
    · cases h
      obtain ⟨hsame, hhead, htaken⟩ := hc.joining p stopping hp hask
      have hreleased := hc.released (p := p)
      refine hreleased.of_stage (.inl rfl) (.inl htaken) (fun q stopping' hq hask' he => ?_) ?_
      · by_cases hqp : q = p
        · subst hqp
          simp only [Function.update_self] at hq
          cases hq
        · simp only [Function.update_of_ne hqp] at hq
          have hhead' := (hc.joining q stopping' hq hask').2.1
          rw [he, hhead] at hhead'
          exact hqp (Option.some.inj hhead').symm
      · rw [← hsame]
        exact hc.barrier _ p hw
    · cases h
      exact hc.released
    · cases h

theorem Orderly.other {input : Input} (hc : Orderly c)
    (h : Cluster.step codec (.other p input) c = (out, .ok ((), c'))) : Orderly c' := by
  dsimp only [Cluster.step] at h
  split_ifs at h
  · cases h
  · rcases hs : ActorServer.step codec input (c.processes p).server with ⟨out', e | ⟨u, server⟩⟩
    · simp only [hs] at h
      cases h
    · simp only [hs] at h
      cases h
      have hkept : ∀ q, (Function.update c.processes p { c.processes p with server := server }
            q).proxy = (c.processes q).proxy ∧
          (Function.update c.processes p { c.processes p with server := server } q).stopping =
            (c.processes q).stopping := by
        intro q
        by_cases he : q = p
        · subst he
          rw [Function.update_self]
          exact ⟨rfl, rfl⟩
        · rw [Function.update_of_ne he]
          exact ⟨rfl, rfl⟩
      refine ⟨hc.fresh, hc.nodup, hc.returned, hc.shared, fun src dst letter hl => ?_, hc.once,
        hc.barrier, hc.answered, hc.led, fun b head hh hst => ?_, fun q stopping hq hask => ?_,
        hc.passed⟩
      · exact ⟨(hc.inFlight src dst letter hl).1, (hc.inFlight src dst letter hl).2.mono rfl
          (fun _ h => h) id fun _ h => h⟩
      · exact (hkept head).1.trans (hc.proxied b head hh hst)
      · exact hc.joining q stopping ((hkept q).2.symm.trans hq) hask

theorem mem_destroyed : a ∈ c.destroyed ↔ a < c.next ∧ c.stage a = .returned := by
  simp [Cluster.destroyed]

theorem Orderly.create {client : Int} {actorName : String} {pids : List Int} (hc : Orderly c)
    (hfree : OnFree c (.create client actorName pids))
    (h : Cluster.step codec (.create client actorName pids) c = (out, .ok ((), c'))) :
    Orderly c' := by
  cases h
  obtain ⟨hnodup, hfree⟩ := hfree
  obtain ⟨hstage, habsent, -⟩ := hc.fresh c.next (Nat.le_refl _)
  have hold : ∀ a < c.next, Function.update c.actors c.next
      ⟨actorName, client, pids, c.destroyed⟩ a = c.actors a := fun a ha =>
    Function.update_of_ne (Nat.ne_of_lt ha) _ _
  have hpids : ∀ a, a ≠ c.next → (Function.update c.actors c.next
      ⟨actorName, client, pids, c.destroyed⟩ a).pids = c.pids a := fun a ha => by
    rw [Function.update_of_ne ha]
    rfl
  refine ⟨fun a ha => ?_, fun a => ?_, fun b a ha => ?_, fun a b p hab hb hpa hpb => ?_,
    fun src dst letter hl => ?_, fun pair => ?_, fun a p hf q hq => ?_, fun a hst q hq => ?_,
    fun a head hh hst => ?_, fun a head hh hst => ?_, fun p stopping hp hask => ?_,
    fun dst b hb => ?_⟩
  · have ha' : c.next + 1 ≤ a := ha
    have hne : a ≠ c.next := by omega
    obtain ⟨h₁, h₂, h₃⟩ := hc.fresh a (by omega)
    exact ⟨h₁, h₂, (hpids a hne).trans h₃⟩
  · by_cases he : a = c.next
    · subst he
      simpa only [Cluster.pids, Function.update_self] using hnodup
    · simpa only [Cluster.pids, hpids a he] using hc.nodup a
  · by_cases he : b = c.next
    · subst he
      simp only [Function.update_self] at ha
      exact ⟨Nat.lt_succ_of_lt (mem_destroyed.mp ha).1, (mem_destroyed.mp ha).2⟩
    · simp only [Function.update_of_ne he] at ha
      exact ⟨Nat.lt_succ_of_lt (hc.returned b a ha).1, (hc.returned b a ha).2⟩
  · have hb : b < c.next + 1 := hb
    have ha : a < c.next := by omega
    simp only [Cluster.pids, hold a ha] at hpa
    by_cases he : b = c.next
    · subst he
      simp only [Cluster.pids, Function.update_self] at hpb ⊢
      exact mem_destroyed.mpr ⟨ha, hfree a ha ⟨p, hpb, hpa⟩⟩
    · simp only [Cluster.pids, Function.update_of_ne he] at hpb ⊢
      exact hc.shared a b p hab (by omega) hpa hpb
  · rcases mem_post.mp hl with hl | ⟨⟨hsrc, hdst⟩, rfl⟩
    · obtain ⟨hlt, hin⟩ := hc.inFlight src dst letter hl
      exact ⟨Nat.lt_succ_of_lt hlt, hin.mono (hold _ hlt) (fun _ h => h) id fun _ h => h⟩
    · refine ⟨Nat.lt_succ_self _, .create ?_ ?_ (habsent dst)⟩
      · simpa only [Cluster.pids, Function.update_self] using hdst
      · simpa only [Function.update_self] using hsrc
  · refine nodup_post (hc.once pair) fun _ _ hl => ?_
    obtain ⟨src, dst⟩ := pair
    exact absurd (hc.inFlight src dst _ hl).1 (Nat.lt_irrefl _)
  · by_cases he : a = c.next
    · subst he
      have hnone := habsent p
      rw [show c.worker (c.next, p) = .finished from hf] at hnone
      cases hnone
    · simp only [Cluster.pids, hpids a he] at hq
      exact hc.barrier a p hf q hq
  · by_cases he : a = c.next
    · subst he
      rcases hst with hst | hst <;> rw [show c.stage c.next = _ from hst] at hstage <;> cases hstage
    · simp only [Cluster.pids, hpids a he] at hq
      exact hc.answered a hst q hq
  · by_cases he : a = c.next
    · subst he
      exact absurd hstage hst
    · simp only [Cluster.head, Cluster.pids, hpids a he] at hh
      exact hc.led a head hh hst
  · by_cases he : a = c.next
    · subst he
      rcases hst with hst | hst <;> rw [show c.stage c.next = _ from hst] at hstage <;> cases hstage
    · simp only [Cluster.head, Cluster.pids, hpids a he] at hh
      exact hc.proxied a head hh hst
  · obtain ⟨h₁, h₂, h₃⟩ := hc.joining p stopping hp hask
    refine ⟨h₁, ?_, h₃⟩
    have he : stopping.actor ≠ c.next := by
      intro he
      rw [he, hstage] at h₃
      cases h₃
    simpa only [Cluster.head, Cluster.pids, hpids _ he] using h₂
  · obtain ⟨hlt, hpassed⟩ := hc.passed dst b hb
    refine ⟨Nat.lt_succ_of_lt hlt, fun a ha src ask hl => ?_⟩
    simp only [hold b hlt] at ha
    rcases mem_post.mp hl with hl | ⟨-, he⟩
    · exact hpassed a ha src ask hl
    · cases he

theorem take_inv (h : Cluster.step codec (.take src dst) c = (out, .ok ((), c'))) :
    (c.processes dst).stopping = none ∧ ∃ letter rest server,
      c.channel (src, dst) = letter :: rest ∧
      { c with channel := Function.update c.channel (src, dst) rest }.taken dst server letter =
        .ok c' := by
  dsimp only [Cluster.step] at h
  cases hs : (c.processes dst).stopping with
  | some stopping =>
    rw [hs] at h
    cases h
  | none =>
    cases hch : c.channel (src, dst) with
    | nil =>
      rw [hs, hch] at h
      cases h
    | cons letter rest =>
      rw [hs, hch] at h
      rcases hr : ActorServer.step codec (.message src (c.message letter))
        (c.processes dst).server with ⟨out', e | ⟨u, server⟩⟩
      · simp only [hr] at h
        cases h
      · simp only [hr] at h
        rcases ht : { c with channel := Function.update c.channel (src, dst) rest }.taken dst server
          letter with e | c₁
        · simp only [ht] at h
          cases h
        · simp only [ht] at h
          cases h
          exact ⟨rfl, letter, rest, server, rfl, ht⟩

section Take

variable {rest : List Letter} {src' dst' : Int} {letter' : Letter}

theorem mem_of_popped (hch : c.channel (src, dst) = letter :: rest)
    (h : letter' ∈ Function.update c.channel (src, dst) rest (src', dst')) :
    letter' ∈ c.channel (src', dst') := by
  by_cases he : (src', dst') = (src, dst)
  · rw [he, Function.update_self] at h
    rw [he, hch]
    exact List.mem_cons_of_mem _ h
  · rwa [Function.update_of_ne he] at h

/-- The message that was taken is not sent a second time. -/
theorem not_mem_popped (hc : Orderly c) (hch : c.channel (src, dst) = letter :: rest) :
    letter ∉ Function.update c.channel (src, dst) rest (src, dst) := by
  have hn := hc.once (src, dst)
  rw [hch] at hn
  rw [Function.update_self]
  exact (List.nodup_cons.mp hn).1

theorem nodup_popped (hc : Orderly c) (hch : c.channel (src, dst) = letter :: rest)
    (pair : Int × Int) : (Function.update c.channel (src, dst) rest pair).Nodup := by
  by_cases he : pair = (src, dst)
  · have hn := hc.once (src, dst)
    rw [hch] at hn
    rw [he, Function.update_self]
    exact (List.nodup_cons.mp hn).2
  · rw [Function.update_of_ne he]
    exact hc.once pair

/-- A manager takes a `CreateActor`, and nothing of a destroyed actor is on its way to it. -/
theorem Orderly.take_create (hc : Orderly c) (hch : c.channel (src, dst) = .create b :: rest)
    (hstops : ∀ a ∈ (c.actors b).earlier, .stop a false ∉ c.channel (dst, dst))
    {server : ActorServer}
    (h : { c with channel := Function.update c.channel (src, dst) rest }.taken dst server
      (.create b) = .ok c') : Orderly c' := by
  cases h
  obtain ⟨hlt, hin⟩ := hc.inFlight src dst (.create b) (by rw [hch]; exact List.mem_cons_self)
  have hlt : b < c.next := hlt
  cases hin with
  | create hdst hsrc habsent =>
  have hworker : ∀ x, x ≠ (b, dst) → Function.update c.worker (b, dst) .looping x = c.worker x :=
    fun x hx => Function.update_of_ne hx _ _
  have hsynced : ∀ x, (c.worker x).Synced →
      (Function.update c.worker (b, dst) .looping x).Synced := by
    intro x hx
    have hne : x ≠ (b, dst) := by
      rintro rfl
      rw [habsent] at hx
      exact not_synced_absent hx
    rwa [hworker x hne]
  have hstage : ∀ a st, st ≠ .creating → st ≠ .alive →
      ((if c.head b = some dst then Function.update c.stage b .alive else c.stage) a = st ↔
        c.stage a = st) := by
    intro a st h₁ h₂
    split_ifs with hh
    · refine stage_update (fun he => ?_) h₂.symm
      exact (hc.led b dst hh (by rw [he]; exact h₁)).1 habsent
    · exact Iff.rfl
  have hreturned : ∀ a ∈ (c.actors b).earlier, c.stage a = .returned := fun a ha =>
    (hc.returned b a ha).2
  have hne : ∀ a, c.next ≤ a → a ≠ b := fun a ha he => by omega
  refine ⟨fun a ha => ?_, hc.nodup, fun b' a ha => ?_, hc.shared, fun src' dst' letter' hl => ?_,
    nodup_popped hc hch, fun a p hf q hq => ?_, fun a hst q hq => ?_, fun a head hh hst => ?_,
    fun a head hh hst => ?_, fun p stopping hp hask => ?_, fun dst' b' hb' => ?_⟩
  · obtain ⟨h₁, h₂, h₃⟩ := hc.fresh a ha
    have hab := hne a ha
    refine ⟨?_, fun p => ?_, h₃⟩
    · dsimp only
      split_ifs
      · rw [Function.update_of_ne hab, h₁]
      · exact h₁
    · exact (hworker _ fun he => hab (congrArg Prod.fst he)).trans (h₂ p)
  · exact ⟨(hc.returned b' a ha).1,
      (hstage a _ (by decide) (by decide)).mpr (hc.returned b' a ha).2⟩
  · obtain ⟨hlt', hin'⟩ := hc.inFlight src' dst' letter' (mem_of_popped hch hl)
    refine ⟨hlt', hin'.mono rfl (fun he hw => ?_) (hsynced _) fun _ hs =>
      (hstage _ _ (by decide) (by decide)).mpr hs⟩
    · refine (hworker _ fun hx => ?_).trans hw
      obtain ⟨hactor, rfl⟩ := Prod.mk.inj hx
      rw [hactor] at he
      subst he
      cases hin' with
      | create _ hsrc' _ =>
        rw [hsrc'.trans hsrc.symm] at hl
        exact not_mem_popped hc hch hl
  · have hp : (a, p) ≠ (b, dst) := by
      intro he
      simp only [he, Function.update_self] at hf
      cases hf
    exact hsynced _ (hc.barrier a p ((hworker _ hp).symm.trans hf) q hq)
  · exact hsynced _ (hc.answered a (hst.imp (hstage a _ (by decide) (by decide)).mp
      (hstage a _ (by decide) (by decide)).mp) q hq)
  · by_cases hx : (a, head) = (b, dst)
    · cases hx
      simp only [Function.update_self]
      exact ⟨by decide, List.mem_append_right _ (List.mem_singleton_self b)⟩
    · have hold : c.stage a ≠ .creating := by
        intro he
        refine hst ?_
        dsimp only
        split_ifs with hhb
        · have hab : a ≠ b := by
            rintro rfl
            have hhead : some dst = some head := hhb.symm.trans hh
            cases hhead
            exact hx rfl
          rw [Function.update_of_ne hab, he]
        · exact he
      obtain ⟨h₁, h₂⟩ := hc.led a head hh hold
      refine ⟨fun he => h₁ ((hworker _ hx).symm.trans he), ?_⟩
      by_cases hd : head = dst
      · subst hd
        simp only [Function.update_self]
        exact List.mem_append_left _ h₂
      · simpa only [Function.update_of_ne hd] using h₂
  · by_cases hd : head = dst
    · subst hd
      simp only [Function.update_self]
      by_cases hab : a = b
      · rw [hab]
      · have hold : c.stage a = .alive ∨ c.stage a = .stopSent := by
          dsimp only at hst
          split_ifs at hst with hhb
          · rwa [Function.update_of_ne hab] at hst
          · exact hst
        exfalso
        rcases Nat.lt_or_gt_of_ne hab with hlt' | hgt
        · have hret := hreturned a (hc.shared a b head hlt' hlt (mem_of_head hh) hdst)
          rw [hret] at hold
          rcases hold with he | he <;> cases he
        · have ha : a < c.next := by
            by_contra hlt'
            rw [(hc.fresh a (Nat.not_lt.mp hlt')).1] at hold
            rcases hold with he | he <;> cases he
          have hret := hc.returned a b (hc.shared b a head hgt ha hdst (mem_of_head hh))
          have hs := hc.answered b (.inr hret.2) head hdst
          rw [habsent] at hs
          exact not_synced_absent hs
    · simp only [Function.update_of_ne hd]
      refine hc.proxied a head hh ?_
      dsimp only at hst
      split_ifs at hst with hhb
      · have hab : a ≠ b := by
          rintro rfl
          have hhead : some dst = some head := hhb.symm.trans hh
          exact hd (Option.some.inj hhead).symm
        rwa [Function.update_of_ne hab] at hst
      · exact hst
  · have hold : (c.processes p).stopping = some stopping := by
      by_cases hd : p = dst
      · subst hd
        simpa only [Function.update_self] using hp
      · simpa only [Function.update_of_ne hd] using hp
    obtain ⟨h₁, h₂, h₃⟩ := hc.joining p stopping hold hask
    exact ⟨h₁, h₂, (hstage _ _ (by decide) (by decide)).mpr h₃⟩
  · have hold : b' ∈ c.created dst' → b' < c.next ∧ ∀ a ∈ (c.actors b').earlier, ∀ src' ask,
        .stop a ask ∉ Function.update c.channel (src, dst) rest (src', dst') := fun hb =>
      ⟨(hc.passed dst' b' hb).1, fun a ha src' ask hl =>
        (hc.passed dst' b' hb).2 a ha src' ask (mem_of_popped hch hl)⟩
    by_cases hd : dst' = dst
    · subst hd
      simp only [Function.update_self] at hb'
      rcases List.mem_append.mp hb' with hb' | hb'
      · exact hold hb'
      · cases List.mem_singleton.mp hb'
        refine ⟨hlt, fun a ha src' ask hl => ?_⟩
        have hl := mem_of_popped hch hl
        cases (hc.inFlight src' dst' _ hl).2 with
        | stop _ _ hs =>
          rw [hreturned a ha] at hs
          cases hs
        | stopOwn _ hsrc' _ =>
          subst hsrc'
          exact hstops a ha hl
    · simp only [Function.update_of_ne hd] at hb'
      exact hold hb'

/-- A process that still leads an actor has no `StopActor` of another one on its way. -/
theorem Orderly.no_other_stop (hc : Orderly c) {head : Int} {ask : Bool} (hh : c.head a = some head)
    (hst : c.stage a = .alive ∨ c.stage a = .stopSent) (hl : .stop b ask ∈ c.channel (src, head)) :
    b = a := by
  have hne : c.stage a ≠ .creating := by
    intro he
    rw [he] at hst
    rcases hst with h | h <;> cases h
  have ha : a < c.next := by
    by_contra hlt
    exact hne (hc.fresh a (Nat.not_lt.mp hlt)).1
  obtain ⟨hb, hin⟩ := hc.inFlight src head _ hl
  have hb : b < c.next := hb
  have hmem : head ∈ c.pids b := by
    cases hin with
    | stop hd _ _ => exact mem_of_head hd
    | stopOwn hd _ _ => exact List.mem_of_mem_tail hd
  by_contra hba
  rcases Nat.lt_or_gt_of_ne hba with hlt | hgt
  · exact (hc.passed head a (hc.led a head hh hne).2).2 b
      (hc.shared b a head hlt ha hmem (mem_of_head hh)) src ask hl
  · have hret := (hc.returned b a (hc.shared a b head hgt hb (mem_of_head hh) hmem)).2
    rw [hret] at hst
    rcases hst with h | h <;> cases h

/-- A manager takes a `StopActor`. -/
theorem Orderly.take_stop {ask : Bool} (hc : Orderly c)
    (hch : c.channel (src, dst) = .stop a ask :: rest) {server : ActorServer}
    (h : { c with channel := Function.update c.channel (src, dst) rest }.taken dst server
      (.stop a ask) = .ok c') : Orderly c' := by
  have hmem : .stop a ask ∈ c.channel (src, dst) := by
    rw [hch]
    exact List.mem_cons_self
  obtain ⟨hlt, hin⟩ := hc.inFlight src dst _ hmem
  have hlt : a < c.next := hlt
  cases hp : (c.processes dst).proxy with
  | none =>
    simp only [Cluster.taken, hp] at h
    cases h
  | some worker =>
    simp only [Cluster.taken, hp] at h
    cases h
    have hsent : ask = true → c.head a = some dst ∧ src = (c.actors a).client ∧
        c.stage a = .stopSent := by
      rintro rfl
      cases hin with
      | stop hd hsrc hs => exact ⟨hd, hsrc, hs⟩
    have hstage : ∀ b st, st ≠ .stopSent → st ≠ .stopTaken →
        ((if ask then Function.update c.stage a .stopTaken else c.stage) b = st ↔
          c.stage b = st) := by
      intro b st h₁ h₂
      cases ask with
      | false => exact Iff.rfl
      | true =>
        exact stage_update (by rw [(hsent rfl).2.2]; exact h₁.symm) h₂.symm
    have hother : ∀ b, b ≠ a →
        (if ask then Function.update c.stage a .stopTaken else c.stage) b = c.stage b := by
      intro b hb
      cases ask with
      | false => rfl
      | true => exact Function.update_of_ne hb _ _
    have hleads : ∀ b st, st = .alive ∨ st = .stopSent →
        (if ask then Function.update c.stage a .stopTaken else c.stage) b = st →
          c.stage b = st := by
      intro b st hst hb
      by_cases he : b = a
      · subst he
        cases ask with
        | false => exact hb
        | true =>
          simp only [if_true, Function.update_self] at hb
          rcases hst with h | h <;> rw [h] at hb <;> cases hb
      · rwa [hother b he] at hb
    refine ⟨fun b hb => ?_, hc.nodup, fun b x hx => ?_, hc.shared,
      fun src' dst' letter' hl => ?_, nodup_popped hc hch, hc.barrier, fun b hst q hq => ?_,
      fun b head hh hst => ?_, fun b head hh hst => ?_, fun p stopping hs hask => ?_,
      fun dst' b hb => ?_⟩
    · obtain ⟨h₁, h₂⟩ := hc.fresh b hb
      exact ⟨(hstage b _ (by decide) (by decide)).mpr h₁, h₂⟩
    · obtain ⟨h₁, h₂⟩ := hc.returned b x hx
      exact ⟨h₁, (hstage x _ (by decide) (by decide)).mpr h₂⟩
    · obtain ⟨hlt', hin'⟩ := hc.inFlight src' dst' letter' (mem_of_popped hch hl)
      refine ⟨hlt', hin'.mono rfl (fun _ h => h) id fun he hs => ?_⟩
      dsimp only
      by_cases hactor : letter'.actor = a
      · cases ask with
        | false => exact hs
        | true =>
          exfalso
          rw [hactor] at he
          subst he
          cases hin' with
          | stop hd hsrc _ =>
            obtain ⟨hd', hsrc', -⟩ := hsent rfl
            have hdst : dst' = dst := Option.some.inj (hd.symm.trans hd')
            rw [hdst, hsrc.trans hsrc'.symm] at hl
            exact not_mem_popped hc hch hl
      · rw [hother _ hactor]
        exact hs
    · exact hc.answered b (hst.imp (hstage b _ (by decide) (by decide)).mp
        (hstage b _ (by decide) (by decide)).mp) q hq
    · exact hc.led b head hh fun he => hst ((hstage b _ (by decide) (by decide)).mpr he)
    · have hst' : c.stage b = .alive ∨ c.stage b = .stopSent :=
        hst.imp (hleads b _ (.inl rfl)) (hleads b _ (.inr rfl))
      by_cases hd : head = dst
      · subst hd
        exfalso
        have hab : a = b := hc.no_other_stop hh hst' hmem
        subst hab
        cases ask with
        | true =>
          simp only [if_true, Function.update_self] at hst
          rcases hst with h | h <;> cases h
        | false =>
          cases hin with
          | stopOwn hd _ _ => exact head_not_mem_tail hc hh hd
      · simpa only [Function.update_of_ne hd] using hc.proxied b head hh hst'
    · by_cases hd : p = dst
      · subst hd
        simp only [Function.update_self] at hs
        cases hs
        have hask : ask = true := hask
        subst hask
        obtain ⟨hh, -, hsent⟩ := hsent rfl
        have hw := hc.proxied a p hh (.inr hsent)
        rw [hp] at hw
        refine ⟨Option.some.inj hw, hh, ?_⟩
        simp only [if_true, Function.update_self]
      · simp only [Function.update_of_ne hd] at hs
        obtain ⟨h₁, h₂, h₃⟩ := hc.joining p stopping hs hask
        refine ⟨h₁, h₂, ?_⟩
        dsimp only
        by_cases he : stopping.actor = a
        · rw [he] at h₃ ⊢
          cases ask with
          | false => exact h₃
          | true => simp only [if_true, Function.update_self]
        · rw [hother _ he]
          exact h₃
    · obtain ⟨h₁, h₂⟩ := hc.passed dst' b hb
      exact ⟨h₁, fun x hx src' ask' hl => h₂ x hx src' ask' (mem_of_popped hch hl)⟩

end Take

/-- Every move keeps the order of actors on each process. -/
theorem Orderly.step (hc : Orderly c) (hfree : OnFree c move) (hstops : StopsTaken c move)
    (h : Cluster.step codec move c = (out, .ok ((), c'))) : Orderly c' := by
  cases move with
  | create client actorName pids => exact hc.create hfree h
  | destroy actor => exact hc.destroy h
  | returns actor => exact hc.returns h
  | take src dst =>
    obtain ⟨-, letter, rest, server, hch, htaken⟩ := take_inv h
    cases letter with
    | create b =>
      rw [StopsTaken, hch] at hstops
      exact hc.take_create hch hstops htaken
    | stop a ask => exact hc.take_stop hch htaken
  | joined pid => exact hc.joined h
  | seeStop actor => exact hc.seeStop h
  | seeKill actor pid => exact hc.seeKill h
  | sendStop actor pid => exact hc.sendStop h
  | synced actor pid => exact hc.synced h
  | other pid input => exact hc.other h

theorem Orderly.not_hitsNext (hc : Orderly c) (move : Move) : ¬ HitsNext c move := by
  cases move with
  | take src dst =>
    intro hhits
    cases hch : c.channel (src, dst) with
    | nil =>
      rw [HitsNext, hch] at hhits
      exact hhits
    | cons letter rest =>
      rw [HitsNext, hch] at hhits
      cases letter with
      | create b => exact hhits
      | stop a ask =>
        obtain ⟨b, hb, ha⟩ := hhits
        exact (hc.passed dst b hb).2 a ha src ask (by rw [hch]; exact List.mem_cons_self)
  | _ => exact id

/-- Managers without actors. -/
def start (servers : Int → ActorServer) : Cluster := { processes := fun pid => ⟨servers pid, none, none⟩ }

theorem orderly_start (servers : Int → ActorServer) : Orderly (start servers) where
  fresh a _ := ⟨rfl, fun _ => rfl, rfl⟩
  nodup a := List.nodup_nil
  returned b a ha := by cases ha
  shared a b p hab hb := absurd hb (Nat.not_lt_zero b)
  inFlight src dst letter hl := by cases hl
  once pair := List.nodup_nil
  barrier a p hf := by cases hf
  answered a hst := by rcases hst with h | h <;> cases h
  led a head hh := by cases hh
  proxied a head hh := by cases hh
  joining p stopping hp := by cases hp
  passed dst b hb := by cases hb

/-- In every run in which a manager that takes a `CreateActor` has taken what its own workers of
destroyed actors sent it, no `StopActor` of a destroyed actor meets a later actor. -/
theorem never_hits {servers : Int → ActorServer}
    (hfree : Act.Along (Cluster.step codec) OnFree moves (start servers))
    (hstops : Act.Along (Cluster.step codec) StopsTaken moves (start servers)) :
    Act.Along (Cluster.step codec) (fun c move => ¬ HitsNext c move) moves (start servers) :=
  (Act.Along.congr (P := StopsTaken) (Q := fun c move => StopsTaken c move ∧ ¬ HitsNext c move)
    (fun _ _ _ _ (hc : Orderly _) hfree hstops h => hc.step hfree hstops h)
    (fun _ move hc _ => (and_iff_left (hc.not_hitsNext move)).symm) (orderly_start servers)
    hfree).mp hstops |>.mono fun _ _ h => h.2

instance (c : Cluster) (move : Move) : Decidable (OnFree c move) := by
  unfold OnFree
  split <;> infer_instance

instance (c : Cluster) (move : Move) : Decidable (StopsTaken c move) := by
  unfold StopsTaken
  split
  · split <;> infer_instance
  · infer_instance

instance (c : Cluster) (move : Move) : Decidable (HitsNext c move) := by
  unfold HitsNext
  split
  · split <;> infer_instance
  · infer_instance

/-- Client 0 creates an actor on 1 and 2 and destroys it: the worker of 2 has sent its manager a
`StopActor`, and 0 has its answer. -/
def destroyedOnTwo : List Move :=
  [.create 0 "A" [1, 2], .take 0 1, .take 0 2, .destroy 0, .take 0 1, .seeStop 0, .seeKill 0 2,
    .sendStop 0 2, .synced 0 1, .synced 0 2, .joined 1, .returns 0]

/-- The next actor, on 2, is created before the manager of 2 takes the `StopActor`. -/
theorem stop_hits :
    Act.Along (Cluster.step Serialization.ArchiveFormat.sampleFormat.codec) OnFree
        (destroyedOnTwo ++ [.create 0 "B" [2], .take 0 2, .take 2 2]) (start fun pid => { pid := pid }) ∧
      ¬ Act.Along (Cluster.step Serialization.ArchiveFormat.sampleFormat.codec)
        (fun c move => ¬ HitsNext c move)
        (destroyedOnTwo ++ [.create 0 "B" [2], .take 0 2, .take 2 2])
        (start fun pid => { pid := pid }) := by
  constructor <;> decide +kernel

theorem never_hits_sample :
    Act.Along (Cluster.step Serialization.ArchiveFormat.sampleFormat.codec)
      (fun c move => ¬ HitsNext c move)
      (destroyedOnTwo ++ [.create 0 "B" [2], .take 2 2, .joined 2, .take 0 2])
      (start fun pid => { pid := pid }) :=
  never_hits (by decide +kernel) (by decide +kernel)

end ActiveBsp.Recreation
