import ActiveBsp.Actormsg.Envelopes
import ActiveBsp.Management.PieceDelivery
import Mathlib.Logic.Function.Basic

/-!
# Managers and the messages between them

Messages of one process to another arrive in the order in which they were sent,
others in any order. A slave hands its key to `gatherKeys` and goes on; the head
goes on when all keys are there. The head's distribution waits at each slave
until the slave enters `broadcastVd`. A send does not wait for its receiver, but
its size has to be an `int`.
-/
namespace ActiveBsp

open Library

set_option autoImplicit false

structure Network where
  servers : Int → ActorServer
  /-- The messages under way from one process to another. -/
  mail : Int → Int → List ActorMessage := fun _ _ => []
  /-- What a slave has handed to `gatherKeys`. -/
  gathered : Int → List Int := fun _ => []
  /-- What the head has handed to `broadcastVd`, for each slave. -/
  broadcasts : Int → List VectorDistribution := fun _ => []
  /-- A record: the messages that a process took, with their senders. -/
  taken : Int → List (Int × ActorMessage) := fun _ => []
  /-- A record: the heads that went through `gatherKeys`. -/
  gatherings : List Int := []
  /-- A record: the processes that went through the loop of `fetchDv`. -/
  fetched : List Int := []

namespace Network

inductive Move where
  /-- A process takes the next message of another one. -/
  | deliver (src dst : Int)
  /-- `gatherKeys` ends at a head. -/
  | gather (pid : Int)
  /-- `broadcastVd` ends at a slave. -/
  | broadcast (pid : Int)
  deriving DecidableEq, Repr

def messageTo (dst : Int) : Output → Option ActorMessage
  | .actorMessage dst' msg => if dst' = dst then some msg else none
  | _ => none

@[simp] theorem messageTo_actorMessage (dst dst' : Int) (msg : ActorMessage) :
    messageTo dst (.actorMessage dst' msg) = if dst' = dst then some msg else none := rfl

def keyOf : Output → Option Int
  | .gatherKey key => some key
  | _ => none

def vdOf : Output → Option VectorDistribution
  | .broadcastVd dv => some dv
  | _ => none

/-- The loop of `fetchDv` comes behind `broadcastVd`, at the head and at a slave. -/
def runsFetch (input : Input) (out : List Output) : Bool :=
  (match input with
    | .broadcastVd _ => true
    | _ => false) || !(out.filterMap vdOf).isEmpty

/-- The message that a manager constructs and sends. -/
def envelope : Output → Option Actormsg.Envelope
  | .actorMessage _ (.prefetch msg) => some (.prefetch msg.futurePid msg.futureKey msg.dvSize)
  | .actorMessage _ (.fetch msg) =>
    some (.fetch msg.pids msg.keys msg.reqFutureKey msg.resFutureKey msg.dvSize)
  | .actorMessage _ (.storeResultPart msg) =>
    some (.storeResultPart msg.resId msg.data msg.offset msg.fullDataSize)
  | _ => none

/-- `sendActorMessage` takes the size of the message from `ActorMessage::getDataSize`, an `int`. -/
def Sendable (o : Output) : Prop := ∀ e ∈ envelope o, e.size < 2 ^ 31

instance : DecidablePred Sendable := fun o => inferInstanceAs (Decidable (∀ e ∈ envelope o, _))

/-- The new state of a process, and what its handler sent. -/
def post (net : Network) (pid : Int) (input : Input) (s : ActorServer) (out : List Output) :
    Network where
  servers := Function.update net.servers pid s
  mail src dst := net.mail src dst ++ if src = pid then out.filterMap (messageTo dst) else []
  gathered q := net.gathered q ++ if q = pid then out.filterMap keyOf else []
  broadcasts q := net.broadcasts q ++ if q ∈ s.pids.tail then out.filterMap vdOf else []
  taken := net.taken
  gatherings := net.gatherings
  fetched := if runsFetch input out then net.fetched ++ [pid] else net.fetched

def handle (codec : Codec) (pid : Int) (input : Input) : Act Network Output Fault Unit := fun net =>
  match ActorServer.step codec input (net.servers pid) with
  | (out, .error e) => (out, .error e)
  | (out, .ok (_, s)) =>
    if ∀ o ∈ out, Sendable o then (out, .ok ((), net.post pid input s out))
    -- the count of a send is negative, or too small
    else (out, .error .undefined)

/-- The network without the message that a process takes next. -/
def take (net : Network) (src dst : Int) (msg : ActorMessage) (rest : List ActorMessage) : Network where
  servers := net.servers
  mail := Function.update net.mail src (Function.update (net.mail src) dst rest)
  gathered := net.gathered
  broadcasts := net.broadcasts
  taken := Function.update net.taken dst (net.taken dst ++ [(src, msg)])
  gatherings := net.gatherings
  fetched := net.fetched

def step (codec : Codec) : Move → Act Network Output Fault Unit
  | .deliver src dst => fun net =>
    match net.mail src dst with
    | [] => ([], .error .blocked)
    | msg :: rest => handle codec dst (.message src msg) (net.take src dst msg rest)
  | .gather pid => fun net =>
    let slaves := (net.servers pid).pids.tail
    match slaves.mapM fun q => (net.gathered q).head? with
    | none => ([], .error .blocked)
    | some keys => handle codec pid (.gatheredKeys keys) { net with
        gathered := fun q => if q ∈ slaves then (net.gathered q).tail else net.gathered q
        gatherings := net.gatherings ++ [pid] }
  | .broadcast pid => fun net =>
    match net.broadcasts pid with
    | [] => ([], .error .blocked)
    | dv :: rest => handle codec pid (.broadcastVd dv) { net with
        broadcasts := Function.update net.broadcasts pid rest }

/-- What one process took from another. -/
def takenFrom (net : Network) (src dst : Int) : List ActorMessage :=
  (net.taken dst).filterMap fun m => if m.1 = src then some m.2 else none

def messagesTaken (net : Network) (dst : Int) : List ActorMessage := (net.taken dst).map Prod.snd

def pieceOf : Int × ActorMessage → Option ActorServer.Piece
  | (src, .storeResultPart msg) => some (src, msg)
  | _ => none

/-- The pieces of prefetched parts that a process took. -/
def piecesTaken (net : Network) (dst : Int) : List ActorServer.Piece :=
  (net.taken dst).filterMap pieceOf

variable {codec : Codec} {net net' : Network} {pid : Int} {input : Input} {out : List Output}

theorem handle_of_ok {s : ActorServer}
    (h : ActorServer.step codec input (net.servers pid) = (out, .ok ((), s)))
    (hout : ∀ o ∈ out, Sendable o) :
    handle codec pid input net = (out, .ok ((), net.post pid input s out)) := by
  rw [handle, h]
  exact if_pos hout

theorem handle_of_unsendable {s : ActorServer}
    (h : ActorServer.step codec input (net.servers pid) = (out, .ok ((), s)))
    (hout : ∃ o ∈ out, ¬ Sendable o) : handle codec pid input net = (out, .error .undefined) := by
  rw [handle, h]
  exact if_neg (by simpa using hout)

theorem step_deliver {src : Int} {msg : ActorMessage} {rest : List ActorMessage} {s : ActorServer}
    (hm : net.mail src pid = msg :: rest)
    (h : ActorServer.step codec (.message src msg) (net.servers pid) = (out, .ok ((), s)))
    (hout : ∀ o ∈ out, Sendable o) :
    step codec (.deliver src pid) net =
      (out, .ok ((), (net.take src pid msg rest).post pid (.message src msg) s out)) := by
  simp only [step, hm]
  exact handle_of_ok (by exact h) hout

theorem step_gather {keys : List Int} {s : ActorServer}
    (hk : (net.servers pid).pids.tail.mapM (fun q => (net.gathered q).head?) = some keys)
    (h : ActorServer.step codec (.gatheredKeys keys) (net.servers pid) = (out, .ok ((), s)))
    (hout : ∀ o ∈ out, Sendable o) :
    step codec (.gather pid) net = (out, .ok ((), ({ net with
      gathered := fun q =>
        if q ∈ (net.servers pid).pids.tail then (net.gathered q).tail else net.gathered q
      gatherings := net.gatherings ++ [pid] } : Network).post pid (.gatheredKeys keys) s out)) := by
  simp only [step, hk]
  exact handle_of_ok (by exact h) hout

theorem step_broadcast {dv : VectorDistribution} {rest : List VectorDistribution} {s : ActorServer}
    (hb : net.broadcasts pid = dv :: rest)
    (h : ActorServer.step codec (.broadcastVd dv) (net.servers pid) = (out, .ok ((), s)))
    (hout : ∀ o ∈ out, Sendable o) :
    step codec (.broadcast pid) net = (out, .ok ((), ({ net with
      broadcasts := Function.update net.broadcasts pid rest } : Network).post pid (.broadcastVd dv)
        s out)) := by
  simp only [step, hb]
  exact handle_of_ok (by exact h) hout

section Records

variable {src dst x y : Int} {msg : ActorMessage} {rest : List ActorMessage} {s : ActorServer}

@[simp] theorem messagesTaken_post : (net.post pid input s out).messagesTaken y = net.messagesTaken y :=
  rfl

theorem messagesTaken_take : (net.take src dst msg rest).messagesTaken y =
    net.messagesTaken y ++ if y = dst then [msg] else [] := by
  unfold messagesTaken take
  by_cases hy : y = dst
  · subst hy
    simp
  · simp [hy]

theorem piecesTaken_take : (net.take src dst msg rest).piecesTaken y =
    net.piecesTaken y ++ if y = dst then (pieceOf (src, msg)).toList else [] := by
  unfold piecesTaken take
  by_cases hy : y = dst
  · subst hy
    simp only [Function.update_self, List.filterMap_append, if_true, List.filterMap_cons,
      List.filterMap_nil]
    cases pieceOf (src, msg) <;> rfl
  · simp [hy]

theorem mem_messagesTaken : msg ∈ net.messagesTaken y ↔ ∃ x, msg ∈ net.takenFrom x y := by
  simp [messagesTaken, takenFrom]

theorem count_piecesTaken (piece : StoreResultPartMessage) :
    (net.piecesTaken y).count (x, piece) = (net.takenFrom x y).count (.storeResultPart piece) := by
  unfold piecesTaken takenFrom
  induction net.taken y with
  | nil => rfl
  | cons m ms ih =>
    obtain ⟨src, m⟩ := m
    cases m <;> by_cases hsrc : src = x <;>
      simp_all [pieceOf, List.filterMap_cons, List.count_cons]

/-- Taking a message moves it from the mail to the record. -/
theorem ledger_take (h : net.mail src dst = msg :: rest) :
    (net.take src dst msg rest).takenFrom x y ++ (net.take src dst msg rest).mail x y =
      net.takenFrom x y ++ net.mail x y := by
  unfold takenFrom take
  by_cases hy : y = dst
  · subst hy
    by_cases hx : x = src
    · subst hx
      simp [h]
    · simp [hx, Ne.symm hx]
  · by_cases hx : x = src
    · subst hx
      simp [hy]
    · simp [hx, hy]

end Records

end Network

end ActiveBsp
