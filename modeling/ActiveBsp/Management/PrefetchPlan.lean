import ActiveBsp.Management.Prefetch
import ActiveBsp.Management.PrefetchSteps

/-!
# A prefetch, process by process

A client has asked the target actor for a vector that the source actor keeps,
and nothing else is under way. `Progress` says how far the prefetch has come,
process by process; it determines what every process has sent and, with the
pieces that it took, the state of every process.
-/
namespace ActiveBsp.Prefetch

open Library Library.Buffer Library.Tiling Distributions.BlockDistribution ActorServer

set_option autoImplicit false

/-- Who takes part in a prefetch, and what it is about. -/
structure Plan where
  content : Bytes
  dv : VectorDistribution
  /-- The head of the target actor. -/
  target : Int
  targetSlaves : List Int
  /-- The head of the source actor. -/
  source : Int
  sourceSlaves : List Int
  client : Int
  /-- Whether the future of the vector is registered already, and who else does it. -/
  registered : Bool
  registrar : Int
  futureKey : Int
  future : Bytes
  servers : Int → ActorServer
  tables : Int → PartTable
  mail : Int → Int → List ActorMessage

/-- How far it has come. -/
@[ext]
structure Progress where
  /-- The process has prepared its part. -/
  prepared : Int → Bool := fun _ => false
  /-- The head of the target actor has all keys. -/
  gathered : Bool := false
  registered : Bool
  /-- The process has been asked for its pieces. -/
  asked : Int → Bool := fun _ => false
  /-- The process has sent its pieces. -/
  ran : Int → Bool := fun _ => false

namespace Plan

variable (p : Plan)

def targets : List Int := p.target :: p.targetSlaves
def sources : List Int := p.source :: p.sourceSlaves

/-- The first key that the head takes. -/
def resFutureKey : Int := (p.servers p.target).futureKeyManager.takeKey.1

/-- The key that a process takes for its part. -/
def partKey (q : Int) : Int :=
  if q = p.target then (p.servers q).futureKeyManager.takeKey.2.takeKey.1
  else (p.servers q).futureKeyManager.takeKey.1

def prefetch : PrefetchMessage := ⟨p.source, p.futureKey, p.content.length⟩

def fetch : FetchMessage :=
  ⟨p.targets, p.targets.map p.partKey, p.futureKey, p.resFutureKey, p.content.length⟩

/-- The size of the part of a target process. -/
def lenOf (q : Int) : Nat := p.fetch.blockLen (p.targets.idxOf q)

/-- What the prefetch registers. -/
def distribution : VectorDistribution := prefetchedDistribution p.targets.length p.fetch

def prefetchFrom (q : Int) : Int := if q = p.target then p.client else p.target
def fetchFrom (q : Int) : Int := if q = p.source then p.target else p.source

def PrefetchSent (g : Progress) (q : Int) : Prop :=
  q = p.target ∨ q ∈ p.targetSlaves ∧ g.prepared p.target = true

def FetchSent (g : Progress) (q : Int) : Prop :=
  q = p.source ∧ g.gathered = true ∨ q ∈ p.sourceSlaves ∧ g.ran p.source = true

instance (g : Progress) (q : Int) : Decidable (p.PrefetchSent g q) :=
  inferInstanceAs (Decidable (_ ∨ _))

instance (g : Progress) (q : Int) : Decidable (p.FetchSent g q) :=
  inferInstanceAs (Decidable (_ ∨ _))

/-- The pieces that one process sends to another. -/
def piecesTo (src dst : Int) : List ActorMessage :=
  (pieces (p.tables src) src p.fetch p.dv).filterMap (Network.messageTo dst)

/-- What the head of the source actor sends when it fetches. -/
def headSends : List Output :=
  p.sourceSlaves.map (fun pid => .actorMessage pid (.fetch p.fetch)) ++
    [.fetchDv p.fetch p.future] ++
    .broadcastVd p.dv :: pieces (p.tables p.source) p.source p.fetch p.dv

def registrations (src dst : Int) : List ActorMessage :=
  if src = p.registrar ∧ dst = p.source ∧ p.registered = false then
    [.registerFutureData p.futureKey p.future] else []

def prefetches (g : Progress) (src dst : Int) : List ActorMessage :=
  if src = p.prefetchFrom dst ∧ p.PrefetchSent g dst then [.prefetch p.prefetch] else []

def fetches (g : Progress) (src dst : Int) : List ActorMessage :=
  if src = p.fetchFrom dst ∧ p.FetchSent g dst then [.fetch p.fetch] else []

def piecesSent (g : Progress) (src dst : Int) : List ActorMessage :=
  if g.ran src = true then p.piecesTo src dst else []

/-- What has been sent from one process to another. -/
def sent (g : Progress) (src dst : Int) : List ActorMessage :=
  p.registrations src dst ++ p.prefetches g src dst ++ p.fetches g src dst ++ p.piecesSent g src dst

/-- Before the first step. -/
def initial : Progress := { registered := p.registered }

/-- What a process waits for. -/
def phaseOf (g : Progress) (q : Int) : Phase :=
  if q = p.target ∧ g.prepared q = true ∧ g.gathered = false then
    .gatheringKeys ⟨p.prefetch, p.resFutureKey, p.partKey q⟩
  else if q ∈ p.sourceSlaves ∧ g.asked q = true ∧ g.ran q = false then .awaitingVd p.fetch
  else .receiving

/-- The parts of a process that took the pieces `ps`. -/
def Holds (g : Progress) (ps : List Piece) (q : Int) (t : PartTable) : Prop :=
  if g.prepared q = true then ∃ part, t = (p.tables q).set (p.partKey q) part ∧
    WrittenBy (.prepared (p.lenOf q)) ps part
  else t = p.tables q

/-- What a prefetch leaves alone. -/
def core (s : ActorServer) : ActorServer :=
  { s with
    futureKeyManager := {}
    futureDataStore := .empty
    pendingFutureRequests := .empty
    askedFutureDelete := fun _ => false
    askedFetch := .empty
    dataStore := .empty
    phase := .receiving }

/-- The future of the vector, at the head of the source actor. -/
structure SourceFuture (g : Progress) (s : ActorServer) : Prop where
  known : g.registered = true → s.futureDataStore p.futureKey = some p.future
  unknown : g.registered = false →
    s.futureDataStore p.futureKey = none ∧ s.askedFutureDelete p.futureKey = false
  asked : s.askedFetch p.futureKey =
    if g.asked p.source = true ∧ g.ran p.source = false then some p.fetch else none

/-- The future of the prefetch, at the head of the target actor. -/
structure TargetFuture (codec : Codec) (g : Progress) (s : ActorServer) : Prop where
  known : g.gathered = true →
    s.futureDataStore p.resFutureKey = some (codec.serializeAll p.distribution)
  unknown : g.gathered = false → s.futureDataStore p.resFutureKey = none ∧
    s.askedFutureDelete p.resFutureKey = false ∧ s.askedFetch p.resFutureKey = none

/-- The state of process `q` when the prefetch has come so far. -/
structure At (codec : Codec) (g : Progress) (ps : List Piece) (q : Int) (s : ActorServer) :
    Prop where
  core_eq : core s = core (p.servers q)
  manager : g.prepared q = false → s.futureKeyManager = (p.servers q).futureKeyManager
  phase_eq : s.phase = p.phaseOf g q
  parts : ∃ t, s.dataStore.Represents t ∧ p.Holds g ps q t
  source : q = p.source → p.SourceFuture g s
  target : q = p.target → p.TargetFuture codec g s

end Plan

/-- A prefetch that has not begun: the vector is stored, every process takes messages, and the
keys that it gives next are new. -/
structure Setup (codec : Codec) extends Plan where
  small : content.length < 2 ^ 31
  tiles : Tiles dv.spans content.length
  few : toPlan.targets.length < 2 ^ 31
  targets_nodup : toPlan.targets.Nodup
  sources_nodup : toPlan.sources.Nodup
  owned : ∀ part ∈ dv.parts, part.pid ∈ toPlan.sources
  stored : ∀ part ∈ dv.parts, tables part.pid part.resid =
    some (.ofMessage (slice content part.offset part.size))
  pid_eq : ∀ q, (servers q).pid = q
  ready : ∀ q, Ready (servers q)
  represented : ∀ q, (servers q).dataStore.Represents (tables q)
  target_pids : ∀ q ∈ toPlan.targets, (servers q).pids = toPlan.targets
  target_comm : ∀ q ∈ toPlan.targets, (servers q).intraActorComm =
    some ⟨toPlan.targets.idxOf q, toPlan.targets.length⟩
  source_pids : ∀ q ∈ toPlan.sources, (servers q).pids = toPlan.sources
  source_comm : ∀ q ∈ toPlan.sources, (servers q).intraActorComm =
    some ⟨toPlan.sources.idxOf q, toPlan.sources.length⟩
  fresh : ∀ q ∈ toPlan.targets, tables q (toPlan.partKey q) = none
  unasked : ∀ q ∈ toPlan.targets, (servers q).parked (toPlan.partKey q) = []
  sourceFuture : toPlan.SourceFuture toPlan.initial (servers source)
  targetFuture : toPlan.TargetFuture codec toPlan.initial (servers target)
  keys_apart : target = source → toPlan.resFutureKey ≠ futureKey
  mail_eq : ∀ src dst, (mail src dst).Perm (toPlan.sent toPlan.initial src dst)

/-- The buffer of the prefetched distribution and every piece have a size that an `int` can hold;
the other messages are smaller. -/
structure Plan.Small (p : Plan) : Prop where
  distribution : 8 + 24 * p.targets.length < 2 ^ 31
  pieces : ∀ part ∈ p.dv.parts, ∀ i < p.targets.length,
    36 + part.span.overlap (p.fetch.bound i) (p.fetch.bound (i + 1)) < 2 ^ 31

/-- `fetchDv` can read the future. -/
def Setup.Loads {codec : Codec} (st : Setup codec) : Prop :=
  codec.deserializeAll st.future = some st.dv

/-- A prefetch whose future can be read and whose messages can be sent. -/
structure Start (codec : Codec) extends Setup codec where
  loads : toSetup.Loads
  sizes : toPlan.Small

namespace Setup

variable {codec : Codec} (st : Setup codec) {g : Progress} {ps : List Piece} {q : Int}
  {s : ActorServer}

theorem pid_fetch {i : Nat} (hi : i < st.targets.length) : st.fetch.pid i = st.targets[i] := by
  simp [FetchMessage.pid, Plan.fetch, hi]

theorem key_fetch {i : Nat} (hi : i < st.targets.length) :
    st.fetch.key i = st.partKey (st.fetch.pid i) := by
  simp [FetchMessage.pid, FetchMessage.key, Plan.fetch, hi]

theorem pid_idxOf (hq : q ∈ st.targets) : st.fetch.pid (st.targets.idxOf q) = q := by
  rw [st.pid_fetch (List.idxOf_lt_length_of_mem hq), List.getElem_idxOf]

theorem idxOf_pid {i : Nat} (hi : i < st.targets.length) :
    st.targets.idxOf (st.fetch.pid i) = i := by
  rw [st.pid_fetch hi]
  exact st.targets_nodup.idxOf_getElem i hi

theorem target_mem : st.target ∈ st.targets := List.mem_cons_self

theorem source_mem : st.source ∈ st.sources := List.mem_cons_self

theorem ne_target (hq : q ∈ st.targetSlaves) : q ≠ st.target := by
  rintro rfl
  exact (List.nodup_cons.mp st.targets_nodup).1 hq

theorem ne_source (hq : q ∈ st.sourceSlaves) : q ≠ st.source := by
  rintro rfl
  exact (List.nodup_cons.mp st.sources_nodup).1 hq

theorem ne_target_of_source (hq : q ∈ st.sourceSlaves) : q ≠ st.target := by
  rintro rfl
  have hs := st.source_comm st.target (List.mem_cons_of_mem _ hq)
  rw [st.target_comm st.target st.target_mem] at hs
  have hpid : st.targets.idxOf st.target = st.sources.idxOf st.target :=
    congrArg IntraActorCommunicator.pid (Option.some.inj hs)
  rw [Plan.sources, Plan.targets, List.idxOf_cons_self, List.idxOf_cons_ne _ (st.ne_source hq).symm]
    at hpid
  omega

theorem available_of_message {t : PartTable} {key : Int} {data : Bytes}
    (h : t key = some (.ofMessage data)) : t.available key = some data := by
  unfold PartTable.available PartTable.get
  rw [h]
  rfl

/-- The source actor, about to fetch. -/
def sourceActor : Source codec st.fetch where
  content := st.content
  dv := st.dv
  pids := st.sources
  state q := { st.servers q with phase := .awaitingVd st.fetch }
  small := st.small
  dvSize_eq := rfl
  tiles := st.tiles
  nodup := st.sources_nodup
  owned := st.owned
  pid_eq q _ := st.pid_eq q
  free q _ := (st.ready q).free
  fetching _ _ := .inr rfl
  stored q _ := ⟨st.tables q, st.represented q, fun part hp hpid _ =>
    available_of_message (hpid ▸ st.stored part hp)⟩

/-- The target actor, with every part prepared. -/
def targetActor : Target st.fetch where
  state q := { pid := q, dataStore := .single (st.partKey q) (.prepared (st.lenOf q)) }
  pos := Nat.succ_pos _
  small := st.few
  keys_length := List.length_map _
  nodup := st.targets_nodup
  ready _ _ := ⟨rfl, rfl, rfl⟩
  prepared i hi := by
    refine ⟨_, DataStore.single_represents _ _, ?_⟩
    rw [st.key_fetch hi, Plan.lenOf, st.idxOf_pid hi]
    exact PartialMap.set_self _ _ _
  waiting _ _ _ hr := nomatch hr

/-- Each process prepares the block of its rank. -/
theorem preparedSize_eq (hq : q ∈ st.targets) :
    preparedSize ⟨st.targets.idxOf q, st.targets.length⟩ st.content.length = st.lenOf q := by
  have hi : st.targets.idxOf q < st.fetch.npids := List.idxOf_lt_length_of_mem hq
  have hrange := st.sourceActor.divRange_eq_bound st.targetActor hi
  have hmono : st.fetch.bound (st.targets.idxOf q) ≤ st.fetch.bound (st.targets.idxOf q + 1) :=
    Source.bound_mono (Nat.le_succ _)
  have hle : st.fetch.bound (st.targets.idxOf q + 1) ≤ st.content.length :=
    st.sourceActor.bound_le st.targetActor hi
  have hsmall := st.small
  unfold preparedSize
  rw [show divRange st.content.length (st.targets.idxOf q : Nat) (st.targets.length : Nat) = _
    from hrange, MachineInt.sub64_of_le hmono (by omega)]
  rfl

theorem lenOf_lt (hq : q ∈ st.targets) : st.lenOf q < 2 ^ 64 := by
  have hle : st.fetch.bound (st.targets.idxOf q + 1) ≤ st.content.length :=
    st.sourceActor.bound_le st.targetActor (List.idxOf_lt_length_of_mem hq)
  have hsmall := st.small
  unfold Plan.lenOf FetchMessage.blockLen
  omega

theorem at_initial (q : Int) : st.At codec st.initial [] q (st.servers q) where
  core_eq := rfl
  manager _ := rfl
  phase_eq := by
    rw [(st.ready q).receiving]
    simp [Plan.phaseOf, Plan.initial]
  parts := ⟨st.tables q, st.represented q, rfl⟩
  source := by
    rintro rfl
    exact st.sourceFuture
  target := by
    rintro rfl
    exact st.targetFuture

section State

variable (h : st.At codec g ps q s)

include h

theorem pid_at : s.pid = q :=
  (congrArg ActorServer.pid h.core_eq).trans (st.pid_eq q)

theorem running_at : s.qrun = true :=
  (congrArg ActorServer.qrun h.core_eq).trans (st.ready q).running

theorem free_at : s.resultStoreLock = false :=
  (congrArg ActorServer.resultStoreLock h.core_eq).trans (st.ready q).free

theorem pids_at : s.pids = (st.servers q).pids := by
  show (Plan.core s).pids = _
  rw [h.core_eq]
  rfl

theorem comm_at : s.intraActorComm = (st.servers q).intraActorComm := by
  show (Plan.core s).intraActorComm = _
  rw [h.core_eq]
  rfl

theorem parked_at (key : Int) : s.parked key = (st.servers q).parked key := by
  show (Plan.core s).parked key = _
  rw [h.core_eq]
  rfl

end State

/-- The stored parts of the vector can be read, before and after a part is prepared. -/
theorem stored_of_holds {t : PartTable} (ht : st.Holds g ps q t)
    (hmem : g.prepared q = true → q ∈ st.targets) :
    ∀ part ∈ st.dv.parts, part.pid = q →
      t.available part.resid = some (slice st.content part.offset part.size) := by
  rintro part hp rfl
  have hstored := st.stored part hp
  unfold Plan.Holds at ht
  by_cases hprep : g.prepared part.pid = true
  · rw [if_pos hprep] at ht
    obtain ⟨whole, rfl, -⟩ := ht
    have hne : part.resid ≠ st.partKey part.pid := by
      intro he
      rw [he, st.fresh _ (hmem hprep)] at hstored
      cases hstored
    exact available_of_message ((PartialMap.set_of_ne _ _ hne).trans hstored)
  · rw [if_neg hprep] at ht
    rw [ht]
    exact available_of_message hstored

theorem prefetch_at_head (h : st.At codec g [] st.target s) (hphase : s.phase = .receiving)
    (hp : g.prepared st.target = false) (hg : g.gathered = false) (src : Int) :
    ∃ s', step codec (.message src (.prefetch st.prefetch)) s =
        (.responseCode src st.resFutureKey ::
          st.targetSlaves.map (fun pid => .actorMessage pid (.prefetch st.prefetch)),
        .ok ((), s')) ∧
      st.At codec { g with prepared := Function.update g.prepared st.target true } [] st.target
        s' := by
  obtain ⟨t, hrep, ht⟩ := h.parts
  unfold Plan.Holds at ht
  rw [if_neg (by simp [hp])] at ht
  subst ht
  have hcomm := (st.comm_at h).trans (st.target_comm _ st.target_mem)
  have hzero : st.targets.idxOf st.target = 0 := List.idxOf_cons_self
  have hkey : s.futureKeyManager.takeKey.2.takeKey.1 = st.partKey st.target := by
    rw [h.manager hp, Plan.partKey, if_pos rfl]
  have hres : s.futureKeyManager.takeKey.1 = st.resFutureKey := by
    rw [h.manager hp]
    rfl
  obtain ⟨ds, heq, hds⟩ := handlePrefetchMessage_of_head src st.prefetch hcomm
    hzero ((st.pids_at h).trans (st.target_pids _ st.target_mem)) (st.free_at h) hrep
    (hkey ▸ st.fresh _ st.target_mem)
  rw [hkey, hres] at heq
  rw [hkey, show st.prefetch.dvSize = st.content.length from rfl, st.preparedSize_eq st.target_mem]
    at hds
  refine ⟨_, (step_message hphase (st.running_at h) _ _).trans heq, h.core_eq, ?_, ?_, ?_, ?_, ?_⟩
  · intro hcon
    simp at hcon
  · simp [Plan.phaseOf, hg]
  · refine ⟨_, hds, ?_⟩
    unfold Plan.Holds
    rw [if_pos (by simp)]
    exact ⟨_, rfl, rfl, rfl, (Nat.sub_zero _).symm⟩
  · intro hq
    exact ⟨(h.source hq).known, (h.source hq).unknown, (h.source hq).asked⟩
  · intro hq
    exact ⟨(h.target hq).known, (h.target hq).unknown⟩

theorem prefetch_at_slave (h : st.At codec g [] q s) (hphase : s.phase = .receiving)
    (hq : q ∈ st.targetSlaves) (hp : g.prepared q = false) (src : Int) :
    ∃ s', step codec (.message src (.prefetch st.prefetch)) s =
        ([.gatherKey (st.partKey q)], .ok ((), s')) ∧
      st.At codec { g with prepared := Function.update g.prepared q true } [] q s' := by
  obtain ⟨t, hrep, ht⟩ := h.parts
  unfold Plan.Holds at ht
  rw [if_neg (by simp [hp])] at ht
  subst ht
  have hmem : q ∈ st.targets := List.mem_cons_of_mem _ hq
  have hne : q ≠ st.target := st.ne_target hq
  have hcomm := (st.comm_at h).trans (st.target_comm _ hmem)
  have hrank : st.targets.idxOf q ≠ 0 := by
    rw [Plan.targets, List.idxOf_cons_ne _ hne.symm]
    exact Nat.succ_ne_zero _
  have hkey : s.futureKeyManager.takeKey.1 = st.partKey q := by
    rw [h.manager hp, Plan.partKey, if_neg hne]
  obtain ⟨ds, heq, hds⟩ := handlePrefetchMessage_of_slave src st.prefetch hcomm hrank (st.free_at h)
    hrep (hkey ▸ st.fresh _ hmem)
  rw [hkey] at heq
  rw [hkey, show st.prefetch.dvSize = st.content.length from rfl, st.preparedSize_eq hmem] at hds
  refine ⟨_, (step_message hphase (st.running_at h) _ _).trans heq, h.core_eq, ?_, ?_, ?_, ?_, ?_⟩
  · intro hcon
    simp at hcon
  · show s.phase = _
    rw [h.phase_eq]
    simp only [Plan.phaseOf, hne, false_and, if_false]
  · refine ⟨_, hds, ?_⟩
    unfold Plan.Holds
    rw [if_pos (by simp)]
    exact ⟨_, rfl, rfl, rfl, (Nat.sub_zero _).symm⟩
  · intro hs
    exact ⟨(h.source hs).known, (h.source hs).unknown, (h.source hs).asked⟩
  · intro ht
    exact absurd ht hne

theorem gather_at_head (h : st.At codec g ps st.target s) (hp : g.prepared st.target = true)
    (hg : g.gathered = false) :
    ∃ s' data, ∃ pids : List Int, step codec (.gatheredKeys (st.targetSlaves.map st.partKey)) s =
        (.actorMessage st.source (.fetch st.fetch) :: pids.map (fun pid => .futureData pid data),
        .ok ((), s')) ∧
      st.At codec { g with gathered := true } ps st.target s' := by
  have hcomm := (st.comm_at h).trans (st.target_comm _ st.target_mem)
  have hphase : s.phase = .gatheringKeys ⟨st.prefetch, st.resFutureKey, st.partKey st.target⟩ := by
    rw [h.phase_eq, Plan.phaseOf, if_pos ⟨rfl, hp, hg⟩]
  obtain ⟨-, hdelete, hasked⟩ := (h.target rfl).unknown hg
  have hmsg : (⟨s.pids, st.partKey st.target :: st.targetSlaves.map st.partKey, st.futureKey,
      st.resFutureKey, st.content.length⟩ : FetchMessage) = st.fetch := by
    rw [st.pids_at h, st.target_pids _ st.target_mem]
    rfl
  have heq : step codec (.gatheredKeys (st.targetSlaves.map st.partKey)) s =
      resumePrefetch codec ⟨st.prefetch, st.resFutureKey, st.partKey st.target⟩
        (st.targetSlaves.map st.partKey) s := by
    simp only [step, Act.get_bind, hphase]
  rw [resumePrefetch_eq hcomm hmsg hasked hdelete] at heq
  refine ⟨_, _, _, heq, h.core_eq, h.manager, ?_, ?_, ?_, ?_⟩
  · show Phase.receiving = _
    have hsource : st.target ∉ st.sourceSlaves := fun hs => st.ne_target_of_source hs rfl
    simp [Plan.phaseOf, hsource]
  · exact h.parts
  · intro hq
    have hne := st.keys_apart hq
    have hfut := h.source hq
    constructor
    · intro hr
      exact (registered_stored_of_ne hne.symm).trans (hfut.known hr)
    · intro hr
      refine ⟨(registered_stored_of_ne hne.symm).trans (hfut.unknown hr).1, ?_⟩
      exact (Function.update_of_ne hne.symm _ _).trans (hfut.unknown hr).2
    · exact (PartialMap.erase_of_ne _ hne.symm).trans hfut.asked
  · intro _
    constructor
    · intro _
      exact registered_stored.trans (if_neg (Bool.eq_false_iff.mp hdelete))
    · intro hcon
      cases hcon

/-- A piece that fits beside those that came before. -/
theorem piece_at_target {p : Piece} (h : st.At codec g ps q s) (hphase : s.phase = .receiving)
    (hq : q ∈ st.targets) (hp : g.prepared q = true)
    (hfit : PiecesFit (st.partKey q) (st.lenOf q) (ps ++ [p])) :
    ∃ s', step codec p.input s = ([], .ok ((), s')) ∧ st.At codec g (ps ++ [p]) q s' := by
  obtain ⟨t, hrep, ht⟩ := h.parts
  unfold Plan.Holds at ht
  rw [if_pos hp] at ht
  obtain ⟨part, rfl, hw⟩ := ht
  have hlen : part.data.length = st.lenOf q := by
    rw [hw.data, length_applyWrites, Part.prepared, List.length_replicate]
    intro w hwm
    obtain ⟨p', hp', rfl⟩ := List.mem_map.mp hwm
    rw [Part.prepared, List.length_replicate]
    exact hfit.left.bounded p' hp'
  have hkey : p.2.resId = st.partKey q := hfit.key_eq p (by simp)
  have htotal := hfit.total
  rw [List.map_append, List.sum_append, List.map_singleton, List.sum_singleton] at htotal
  have hbound : p.2.offset + p.size ≤ st.lenOf q := hfit.bounded p (by simp)
  have hpos : 0 < st.lenOf q := hfit.nonempty (by simp)
  have hfits : part.Fits p.2.data p.2.offset := by
    refine ⟨hlen ▸ hbound, ?_⟩
    have hrem : part.remaining = st.lenOf q - (ps.map Piece.size).sum := hw.remaining
    show p.size ≤ part.remaining
    omega
  have hbuf : part.buffer = some part.data :=
    (Part.buffer_eq_some_iff part).mpr fun _ => List.ne_nil_of_length_pos (hlen ▸ hpos)
  have hsmall : part.data.length < 2 ^ 64 := by
    rw [hlen]
    exact st.lenOf_lt hq
  have hnone : s.parked p.2.resId = [] := by
    rw [hkey, st.parked_at h, st.unasked q hq]
  obtain ⟨ds, heq, hds⟩ := handleStoreResultPartMessage_adds (st.free_at h) hrep
    (show _ = some part by rw [hkey]; exact PartialMap.set_self _ _ _) hbuf hfits hsmall
    (by rw [hnone]; exact List.forall_mem_nil _)
  rw [hnone, List.map_nil, ite_self] at heq
  rw [hkey, PartialMap.set_set] at hds
  refine ⟨_, (step_message hphase (st.running_at h) _ _).trans heq, h.core_eq, h.manager,
    h.phase_eq, ⟨_, hds, ?_⟩, fun he => ⟨(h.source he).known, (h.source he).unknown,
      (h.source he).asked⟩, fun he => ⟨(h.target he).known, (h.target he).unknown⟩⟩
  unfold Plan.Holds
  rw [if_pos hp]
  exact ⟨_, rfl, hw.append hfits⟩

theorem fetchParts_sends {t : PartTable} (hpid : s.pid = q) (hl : s.resultStoreLock = false)
    (hrep : s.dataStore.Represents t) (ht : st.Holds g ps q t)
    (hmem : g.prepared q = true → q ∈ st.targets) :
    fetchParts st.fetch st.dv s = (pieces (st.tables q) q st.fetch st.dv, .ok ((), s)) := by
  have hstored := st.stored_of_holds ht hmem
  have hserv : AllServable t q st.fetch st.dv := st.sourceActor.allServable st.targetActor
    fun part hp hpid _ => hstored part hp hpid
  rw [fetchParts_of_servable (hpid.symm ▸ hserv) hl hrep, hpid,
    pieces_congr fun part hp hpid => ?_]
  rw [hstored part hp hpid]
  exact (available_of_message (hpid ▸ st.stored part hp)).symm

theorem source_head {s : ActorServer}
    (hc : s.intraActorComm = (st.servers st.source).intraActorComm) : Head s :=
  ⟨_, hc.trans (st.source_comm _ st.source_mem), List.idxOf_cons_self⟩

/-- The head of the source actor runs `fetchDv`. -/
theorem fetchDv_sends (hloads : st.Loads) {t : PartTable} (hpid : s.pid = st.source)
    (hpids : s.pids = (st.servers st.source).pids)
    (hc : s.intraActorComm = (st.servers st.source).intraActorComm)
    (hl : s.resultStoreLock = false) (hrep : s.dataStore.Represents t)
    (ht : st.Holds g ps st.source t) (hmem : g.prepared st.source = true → st.source ∈ st.targets)
    (hdata : s.futureDataStore st.futureKey = some st.future) :
    fetchDv codec st.fetch s = (st.headSends, .ok ((), s)) := by
  rw [fetchDv_of_head (st.source_head hc) hdata,
    show codec.deserializeAll st.future = _ from hloads]
  simp only [st.fetchParts_sends hpid hl hrep ht hmem, fetchAnnouncement, hpids,
    st.source_pids _ st.source_mem]
  rfl

theorem fetch_at_head (hloads : st.Loads) (h : st.At codec g ps st.source s)
    (hphase : s.phase = .receiving) (hmem : g.prepared st.source = true → st.source ∈ st.targets)
    (hr : g.registered = true) (ha : g.asked st.source = false) (src : Int) :
    step codec (.message src (.fetch st.fetch)) s = (st.headSends, .ok ((), s)) ∧
      st.At codec { g with
        asked := Function.update g.asked st.source true
        ran := Function.update g.ran st.source true } ps st.source s := by
  obtain ⟨t, hrep, ht⟩ := h.parts
  have hfut := h.source rfl
  have hknown := hfut.known hr
  constructor
  · rw [step_message hphase (st.running_at h)]
    show handleFetchMessage codec st.fetch s = _
    rw [handleFetchMessage_of_stored (st.source_head (st.comm_at h)) hknown,
      st.fetchDv_sends hloads (st.pid_at h) (st.pids_at h) (st.comm_at h) (st.free_at h) hrep ht
        hmem hknown]
  · refine ⟨h.core_eq, h.manager, ?_, ⟨t, hrep, ht⟩, ?_,
      fun he => ⟨(h.target he).known, (h.target he).unknown⟩⟩
    · rw [h.phase_eq]
      have hsource : st.source ∉ st.sourceSlaves := fun hs => st.ne_source hs rfl
      simp [Plan.phaseOf, hsource]
    · intro _
      refine ⟨hfut.known, hfut.unknown, ?_⟩
      rw [hfut.asked, if_neg (by simp [ha]), if_neg (by simp)]

private theorem at_registered {ran : Int → Bool} (h : st.At codec g ps st.source s)
    (hr : g.registered = false) (hdone : ¬ (g.asked st.source = true ∧ ran st.source = false)) :
    st.At codec { g with registered := true, ran := ran } ps st.source
      (s.registered st.futureKey st.future) := by
  have hfut := h.source rfl
  obtain ⟨-, hdelete⟩ := hfut.unknown hr
  refine ⟨h.core_eq, h.manager, ?_, h.parts, ?_, ?_⟩
  · show s.phase = _
    rw [h.phase_eq]
    have hsource : st.source ∉ st.sourceSlaves := fun hs => st.ne_source hs rfl
    simp [Plan.phaseOf, hsource]
  · intro _
    refine ⟨fun _ => ?_, (fun hcon => by cases hcon), ?_⟩
    · exact registered_stored.trans (if_neg (Bool.eq_false_iff.mp hdelete))
    · rw [if_neg hdone]
      exact registered_askedFetch
  · intro he
    have htarget := h.target he
    have hne := st.keys_apart he.symm
    constructor
    · intro hg
      exact (registered_stored_of_ne hne).trans (htarget.known hg)
    · intro hg
      obtain ⟨hnone, hdel, hask⟩ := htarget.unknown hg
      refine ⟨(registered_stored_of_ne hne).trans hnone, ?_, ?_⟩
      · exact (Function.update_of_ne hne _ _).trans hdel
      · exact (PartialMap.erase_of_ne _ hne).trans hask

/-- The future of the vector is registered before anybody asks for it. -/
theorem register_at_head (h : st.At codec g ps st.source s) (hphase : s.phase = .receiving)
    (hr : g.registered = false) (ha : g.asked st.source = false) (src : Int) :
    ∃ s', ∃ pids : List Int,
      step codec (.message src (.registerFutureData st.futureKey st.future)) s =
        (pids.map (fun pid => .futureData pid st.future), .ok ((), s')) ∧
      st.At codec { g with registered := true } ps st.source s' := by
  have hfut := h.source rfl
  obtain ⟨-, hdelete⟩ := hfut.unknown hr
  have hasked : s.askedFetch st.futureKey = none := by
    rw [hfut.asked, if_neg (by simp [ha])]
  have heq : step codec (.message src (.registerFutureData st.futureKey st.future)) s =
      registerFuture codec st.futureKey st.future s := step_message hphase (st.running_at h) _ _
  rw [registerFuture_serves hasked (by simp [hdelete])] at heq
  exact ⟨_, _, heq, st.at_registered h hr (by simp [ha])⟩

/-- The future that somebody waits for is fetched at once. -/
theorem awaited_register_at_head (hloads : st.Loads) (h : st.At codec g ps st.source s)
    (hphase : s.phase = .receiving) (hmem : g.prepared st.source = true → st.source ∈ st.targets)
    (hr : g.registered = false) (ha : g.asked st.source = true) (hran : g.ran st.source = false)
    (src : Int) :
    ∃ s', ∃ pids : List Int,
      step codec (.message src (.registerFutureData st.futureKey st.future)) s =
        (st.headSends ++ pids.map (fun pid => .futureData pid st.future), .ok ((), s')) ∧
      st.At codec { g with
        registered := true
        ran := Function.update g.ran st.source true } ps st.source s' := by
  have hfut := h.source rfl
  obtain ⟨-, hdelete⟩ := hfut.unknown hr
  obtain ⟨t, hrep, ht⟩ := h.parts
  have hasked : s.askedFetch st.futureKey = some st.fetch := by
    rw [hfut.asked, if_pos ⟨ha, hran⟩]
  have hpid := st.pid_at h
  have hpids := st.pids_at h
  have hcomm := st.comm_at h
  have hfree := st.free_at h
  have hcheck := checkFutureRequired_of_some (s := { s with
    futureDataStore := s.futureDataStore.set st.futureKey st.future }) hasked
    (st.fetchDv_sends hloads hpid hpids hcomm hfree hrep ht hmem (PartialMap.set_self _ _ _))
  have heq : step codec (.message src (.registerFutureData st.futureKey st.future)) s =
      registerFuture codec st.futureKey st.future s := step_message hphase (st.running_at h) _ _
  rw [registerFuture_of_checked (by simp [hdelete]) hcheck] at heq
  exact ⟨_, _, heq, st.at_registered h hr (by simp)⟩

/-- A request for the future before it is there. -/
theorem early_fetch_at_head (h : st.At codec g ps st.source s) (hphase : s.phase = .receiving)
    (hr : g.registered = false) (ha : g.asked st.source = false)
    (hran : g.ran st.source = false) (src : Int) :
    ∃ s', step codec (.message src (.fetch st.fetch)) s = ([], .ok ((), s')) ∧
      st.At codec { g with asked := Function.update g.asked st.source true } ps st.source s' := by
  have hfut := h.source rfl
  obtain ⟨hnone, hdelete⟩ := hfut.unknown hr
  have hasked : s.askedFetch st.fetch.reqFutureKey = none := by
    show s.askedFetch st.futureKey = none
    rw [hfut.asked, if_neg (by simp [ha])]
  have heq : step codec (.message src (.fetch st.fetch)) s = handleFetchMessage codec st.fetch s :=
    step_message hphase (st.running_at h) _ _
  rw [handleFetchMessage_waits (st.source_head (st.comm_at h)) hnone hasked] at heq
  refine ⟨_, heq, h.core_eq, h.manager, ?_, h.parts, ?_, ?_⟩
  · show s.phase = _
    rw [h.phase_eq]
    have hsource : st.source ∉ st.sourceSlaves := fun hs => st.ne_source hs rfl
    simp [Plan.phaseOf, hsource]
  · intro _
    refine ⟨hfut.known, hfut.unknown, ?_⟩
    rw [if_pos (by simp [hran])]
    exact PartialMap.set_self _ _ _
  · intro ht
    have htarget := h.target ht
    refine ⟨htarget.known, fun hg => ⟨(htarget.unknown hg).1, (htarget.unknown hg).2.1, ?_⟩⟩
    exact (PartialMap.set_of_ne _ _ (st.keys_apart ht.symm)).trans (htarget.unknown hg).2.2

theorem fetch_at_slave (h : st.At codec g ps q s) (hphase : s.phase = .receiving)
    (hq : q ∈ st.sourceSlaves) (hran : g.ran q = false) (src : Int) :
    ∃ s', step codec (.message src (.fetch st.fetch)) s = ([], .ok ((), s')) ∧
      st.At codec { g with asked := Function.update g.asked q true } ps q s' := by
  have hne : q ≠ st.source := st.ne_source hq
  have hcomm := (st.comm_at h).trans (st.source_comm _ (List.mem_cons_of_mem _ hq))
  have hrank : st.sources.idxOf q ≠ 0 := by
    rw [Plan.sources, List.idxOf_cons_ne _ hne.symm]
    exact Nat.succ_ne_zero _
  have heq : step codec (.message src (.fetch st.fetch)) s = handleFetchMessage codec st.fetch s :=
    step_message hphase (st.running_at h) _ _
  have hslave : handleFetchMessage codec st.fetch s = fetchDv codec st.fetch s := by
    unfold handleFetchMessage
    rw [Act.bind_of_ok (isHead_of_some hcomm), beq_false_of_ne hrank]
    rfl
  rw [hslave, fetchDv_of_slave hcomm hrank] at heq
  refine ⟨_, heq, h.core_eq, h.manager, ?_, h.parts, fun hs => absurd hs hne,
    fun he => ⟨(h.target he).known, (h.target he).unknown⟩⟩
  show Phase.awaitingVd st.fetch = _
  simp [Plan.phaseOf, st.ne_target_of_source hq, hq, hran]

/-- A slave has the distribution. -/
theorem broadcast_at_slave (h : st.At codec g ps q s) (hq : q ∈ st.sourceSlaves)
    (hmem : g.prepared q = true → q ∈ st.targets) (ha : g.asked q = true) (hran : g.ran q = false) :
    ∃ s', step codec (.broadcastVd st.dv) s =
        (pieces (st.tables q) q st.fetch st.dv, .ok ((), s')) ∧
      st.At codec { g with ran := Function.update g.ran q true } ps q s' := by
  obtain ⟨t, hrep, ht⟩ := h.parts
  have hphase : s.phase = .awaitingVd st.fetch := by
    rw [h.phase_eq]
    simp [Plan.phaseOf, st.ne_target_of_source hq, hq, ha, hran]
  have heq : step codec (.broadcastVd st.dv) s = resumeFetchDv st.fetch st.dv s := by
    simp only [step, Act.get_bind, hphase]
  have hpid := st.pid_at h
  have hfree := st.free_at h
  rw [resumeFetchDv, Act.modify_bind, st.fetchParts_sends (s := { s with phase := .receiving })
    hpid hfree hrep ht hmem] at heq
  refine ⟨_, heq, h.core_eq, h.manager, ?_, ⟨t, hrep, ht⟩,
    fun hs => absurd hs (st.ne_source hq),
    fun he => ⟨(h.target he).known, (h.target he).unknown⟩⟩
  show Phase.receiving = _
  simp [Plan.phaseOf, st.ne_target_of_source hq]

end Setup

end ActiveBsp.Prefetch
