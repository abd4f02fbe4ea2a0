import ActiveBsp.Library.Lists
import ActiveBsp.Management.PieceDelivery

/-!
# A prefetch between two actors

The processes of a source actor keep a vector, the processes of a target actor
have prepared one buffer each. What the source processes send when they run
`fetchDv`, and what of it every target process receives.
-/
namespace ActiveBsp

open Library Library.Buffer Library.Tiling Distributions.BlockDistribution ActorServer

set_option autoImplicit false

namespace FetchMessage

variable (msg : FetchMessage)

def pid (i : Nat) : Int := msg.pids.getD i 0
def key (i : Nat) : Int := msg.keys.getD i 0

/-- Where the part of target process `i` begins, and how long it is. -/
def bound (i : Nat) : Nat := blockBound msg.dvSize msg.npids i
def blockLen (i : Nat) : Nat := msg.bound (i + 1) - msg.bound i

end FetchMessage

theorem FetchMessage.zip_getElem? {msg : FetchMessage} (hk : msg.keys.length = msg.npids)
    {i : Nat} {p : Int × Int} :
    (msg.pids.zip msg.keys)[i]? = some p ↔ i < msg.npids ∧ p = (msg.pid i, msg.key i) := by
  unfold FetchMessage.npids at *
  rw [List.getElem?_zip_eq_some]
  constructor
  · rintro ⟨h1, h2⟩
    obtain ⟨hi, hp1⟩ := List.getElem?_eq_some_iff.mp h1
    refine ⟨hi, Prod.ext ?_ ?_⟩
    · rw [FetchMessage.pid, List.getD_eq_getElem?_getD, h1, Option.getD_some]
    · rw [FetchMessage.key, List.getD_eq_getElem?_getD, h2, Option.getD_some]
  · rintro ⟨hi, rfl⟩
    have hi' : i < msg.keys.length := hk ▸ hi
    simp [FetchMessage.pid, FetchMessage.key, hi, hi']

theorem FetchMessage.pid_inj {msg : FetchMessage} (hnodup : msg.pids.Nodup) {i j : Nat}
    (hi : i < msg.npids) (hj : j < msg.npids) (h : msg.pid i = msg.pid j) : i = j := by
  unfold FetchMessage.npids at *
  unfold FetchMessage.pid at h
  rw [List.getD_eq_getElem?_getD, List.getD_eq_getElem?_getD, List.getElem?_eq_getElem hi,
    List.getElem?_eq_getElem hj, Option.getD_some, Option.getD_some] at h
  exact (hnodup.getElem_inj_iff).mp h

namespace Prefetch

/-- The process is about to run the loop of `fetchDv` on `dv`: the head reads it from the
future, a slave waits for the head. -/
def Fetching (codec : Codec) (msg : FetchMessage) (dv : VectorDistribution) (s : ActorServer) :
    Prop :=
  (s.phase = .receiving ∧ s.qrun = true ∧ Head s ∧ ∃ dvFuture,
      s.futureDataStore msg.reqFutureKey = some dvFuture ∧
      codec.deserializeAll dvFuture = some dv) ∨
    s.phase = .awaitingVd msg

/-- What starts that loop. -/
def fetchInput (sender : Int) (msg : FetchMessage) (dv : VectorDistribution) (s : ActorServer) :
    Input :=
  match s.phase with
  | .awaitingVd _ => .broadcastVd dv
  | _ => .message sender (.fetch msg)

/-- A source actor: its processes store a vector whose parts tile it. -/
structure Source (codec : Codec) (msg : FetchMessage) where
  content : Bytes
  dv : VectorDistribution
  pids : List Int
  state : Int → ActorServer
  small : content.length < 2 ^ 31
  dvSize_eq : msg.dvSize = content.length
  tiles : Tiles dv.spans content.length
  nodup : pids.Nodup
  owned : ∀ part ∈ dv.parts, part.pid ∈ pids
  pid_eq : ∀ q ∈ pids, (state q).pid = q
  free : ∀ q ∈ pids, (state q).resultStoreLock = false
  fetching : ∀ q ∈ pids, Fetching codec msg dv (state q)
  stored : ∀ q ∈ pids, ∃ t, (state q).dataStore.Represents t ∧
    ∀ part ∈ dv.parts, part.pid = q → part.offset < content.length →
      t.available part.resid = some (slice content part.offset part.size)

/-- A target actor: every process has prepared its part, and whoever waits for a part asked
for bytes inside it. -/
structure Target (msg : FetchMessage) where
  state : Int → ActorServer
  pos : 0 < msg.npids
  small : msg.npids < 2 ^ 31
  keys_length : msg.keys.length = msg.npids
  nodup : msg.pids.Nodup
  ready : ∀ i < msg.npids, Ready (state (msg.pid i))
  prepared : ∀ i < msg.npids, ∃ t, (state (msg.pid i)).dataStore.Represents t ∧
    t (msg.key i) = some (.prepared (msg.blockLen i))
  waiting : ∀ i < msg.npids, RequestsFit (msg.blockLen i) ((state (msg.pid i)).parked (msg.key i))

/-- A piece on its way from process `sender`. -/
def delivery (sender : Int) : Output → Option (Int × Input)
  | .actorMessage dst (.storeResultPart msg) =>
    some (dst, .message sender (.storeResultPart msg))
  | _ => none

/-- The pieces that the run of `fetchDv` at one process sends. -/
def sentBy (codec : Codec) (sender : Int) (msg : FetchMessage) (dv : VectorDistribution)
    (s : ActorServer) : List (Int × Input) :=
  (step codec (fetchInput sender msg dv s) s).1.filterMap (delivery s.pid)

namespace Source

variable {codec : Codec} {msg : FetchMessage}

/-- All the pieces that the source processes send. -/
def deliveries (src : Source codec msg) (sender : Int) : List (Int × Input) :=
  src.pids.flatMap fun q => sentBy codec sender msg src.dv (src.state q)

/-- The piece that a source part becomes for the window `[a, b)`: as many bytes as they
share, from the start of the part, for the start of the target. -/
def pieceOf (src : Source codec msg) (i : Nat) (part : VectorDistributionPart) : Piece :=
  (part.pid, ⟨msg.key i, (slice src.content part.offset part.size).take
    (part.span.overlap (msg.bound i) (msg.bound (i + 1))), 0, msg.dvSize⟩)

/-- The source parts that share bytes with the part of target process `i`. -/
def meeting (src : Source codec msg) (i : Nat) : List VectorDistributionPart :=
  src.dv.parts.filter fun part => part.span.Meets (msg.bound i) (msg.bound (i + 1))

/-- The pieces for target process `i`. -/
def piecesFor (src : Source codec msg) (i : Nat) : List Piece :=
  (src.meeting i).map (src.pieceOf i)

variable (src : Source codec msg)

theorem part_le {part : VectorDistributionPart} (hp : part ∈ src.dv.parts) :
    part.offset + part.size ≤ src.content.length :=
  src.tiles.bounded part.span (List.mem_map_of_mem hp)

theorem part_lt {part : VectorDistributionPart} (hp : part ∈ src.dv.parts) :
    part.offset + part.size < 2 ^ 64 :=
  (src.part_le hp).trans_lt (src.small.trans (by norm_num))

theorem length_part {part : VectorDistributionPart} (hp : part ∈ src.dv.parts) :
    (slice src.content part.offset part.size).length = part.size :=
  length_slice_of_le (src.part_le hp)

theorem bound_le (dst : Target msg) {i : Nat} (hi : i ≤ msg.npids) :
    msg.bound i ≤ src.content.length := by
  rw [← src.dvSize_eq]
  exact blockBound_le dst.pos hi

theorem bound_mono {i j : Nat} (h : i ≤ j) : msg.bound i ≤ msg.bound j :=
  blockBound_mono msg.dvSize msg.npids h

theorem divRange_eq_bound (src : Source codec msg) (dst : Target msg) {i : Nat} (hi : i < msg.npids) :
    divRange msg.dvSize i msg.npids = (msg.bound i, msg.bound (i + 1)) :=
  divRange_eq (src.dvSize_eq ▸ src.small) hi dst.small

/-- A selected part is there, and the window of it that is sent is their overlap. -/
theorem selected (dst : Target msg) {t : PartTable} {q : Int} {i : Nat}
    {part : VectorDistributionPart} (hi : i < msg.npids) (hp : part ∈ src.dv.parts)
    (ht : ∀ part ∈ src.dv.parts, part.pid = q → part.offset < src.content.length →
      t.available part.resid = some (slice src.content part.offset part.size))
    (hs : Selects q part (msg.bound i) (msg.bound (i + 1))) :
    t.available part.resid = some (slice src.content part.offset part.size) ∧
      (subPart part (msg.bound i) (msg.bound (i + 1))).2 =
        part.span.overlap (msg.bound i) (msg.bound (i + 1)) := by
  obtain ⟨hq, hm⟩ := (selects_iff (src.part_lt hp)).mp hs
  have hb : msg.bound (i + 1) ≤ src.content.length := src.bound_le dst hi
  have hoff : part.offset < src.content.length := lt_of_lt_of_le hm.2 hb
  refine ⟨ht part hp hq.symm hoff, ?_⟩
  rw [subPart_of_meets hm (bound_mono (Nat.le_succ i))
    (hb.trans_lt (src.small.trans (by norm_num)))]

theorem allServable (dst : Target msg) {t : PartTable} {q : Int}
    (ht : ∀ part ∈ src.dv.parts, part.pid = q → part.offset < src.content.length →
      t.available part.resid = some (slice src.content part.offset part.size)) :
    AllServable t q msg src.dv := by
  intro i hi part hp hs
  rw [src.divRange_eq_bound dst hi] at hs ⊢
  obtain ⟨hav, hsub⟩ := src.selected dst hi hp ht hs
  refine ⟨_, hav, ?_⟩
  rw [hsub, src.length_part hp]
  exact Span.overlap_le_len _ _ _

/-- What one process sends for one part and one target process. -/
theorem delivered_piece (dst : Target msg) {t : PartTable} {q pid key : Int} {i : Nat}
    {part : VectorDistributionPart} (hi : i < msg.npids) (hkey : key = msg.key i)
    (hp : part ∈ src.dv.parts)
    (ht : ∀ part ∈ src.dv.parts, part.pid = q → part.offset < src.content.length →
      t.available part.resid = some (slice src.content part.offset part.size)) :
    (piece t q pid key msg.dvSize (msg.bound i) (msg.bound (i + 1)) part).filterMap (delivery q) =
      if part.span.Meets (msg.bound i) (msg.bound (i + 1)) ∧ part.pid = q then
        [(pid, (src.pieceOf i part).input)] else [] := by
  by_cases hs : Selects q part (msg.bound i) (msg.bound (i + 1))
  · obtain ⟨hav, hsub⟩ := src.selected dst hi hp ht hs
    obtain ⟨hq, hm⟩ := (selects_iff (src.part_lt hp)).mp hs
    rw [piece, if_pos hs, if_pos ⟨hm, hq.symm⟩, hav, hsub, hkey]
    subst hq
    rfl
  · have hn := mt (selects_iff (src.part_lt hp)).mpr hs
    rw [piece, if_neg hs, if_neg fun h => hn ⟨h.2.symm, h.1⟩]
    rfl

/-- The run of `fetchDv` sends its pieces, whether the process is the head or a slave. -/
theorem sentBy_eq {t : PartTable} {dv : VectorDistribution} {s : ActorServer} (sender : Int)
    (hf : Fetching codec msg dv s) (hl : s.resultStoreLock = false)
    (ht : s.dataStore.Represents t) (hserv : AllServable t s.pid msg dv) :
    sentBy codec sender msg dv s = (pieces t s.pid msg dv).filterMap (delivery s.pid) := by
  rcases hf with ⟨hphase, hq, hh, dvFuture, hd, hdv⟩ | hphase
  · have hstep : (step codec (fetchInput sender msg dv s) s).1 =
        fetchAnnouncement s msg dvFuture ++ .broadcastVd dv :: pieces t s.pid msg dv := by
      unfold fetchInput
      rw [hphase]
      rw [step_message hphase hq]
      show (handleFetchMessage codec msg s).1 = _
      rw [handleFetchMessage_of_stored hh hd, fetchDv_of_head hh hd, hdv]
      simp only [fetchParts_of_servable hserv hl ht]
    have hsilent : (fetchAnnouncement s msg dvFuture).filterMap (delivery s.pid) = [] := by
      rw [List.filterMap_eq_nil_iff]
      intro o ho
      rcases List.mem_append.mp ho with ho | ho
      · obtain ⟨pid, -, rfl⟩ := List.mem_map.mp ho
        rfl
      · rw [List.mem_singleton.mp ho]
        rfl
    rw [sentBy, hstep, List.filterMap_append, hsilent, List.nil_append]
    rfl
  · have hstep : step codec (fetchInput sender msg dv s) s = resumeFetchDv msg dv s := by
      unfold fetchInput
      rw [hphase]
      simp only [step, Act.get_bind, hphase]
    rw [sentBy, hstep, resumeFetchDv, Act.modify_bind,
      fetchParts_of_servable (s := { s with phase := .receiving }) hserv hl ht]

/-- What one process sends to one target process. -/
theorem sent_range (dst : Target msg) {t : PartTable} {q pid key : Int} {i : Nat}
    (hi : i < msg.npids) (hkey : key = msg.key i)
    (ht : ∀ part ∈ src.dv.parts, part.pid = q → part.offset < src.content.length →
      t.available part.resid = some (slice src.content part.offset part.size)) :
    (rangePieces t q msg src.dv i pid key).filterMap (delivery q) =
      (((src.meeting i).filter fun part => part.pid = q).map fun part =>
        (src.pieceOf i part).input).map (Prod.mk pid) := by
  unfold rangePieces
  rw [src.divRange_eq_bound dst hi, List.filterMap_flatMap]
  rw [List.flatMap_congr fun part hp => src.delivered_piece dst hi hkey hp ht,
    Lists.flatMap_ite, meeting, List.filter_filter, List.map_map]
  simp only [Bool.decide_and, Bool.and_comm]
  rfl

/-- What reaches target process `i` from process `q`. -/
theorem inputsTo_sentBy (dst : Target msg) {q : Int} {i : Nat} (sender : Int) (hq : q ∈ src.pids)
    (hi : i < msg.npids) :
    Act.inputsTo (msg.pid i) (sentBy codec sender msg src.dv (src.state q)) =
      ((src.meeting i).filter fun part => part.pid = q).map fun part =>
        (src.pieceOf i part).input := by
  obtain ⟨t, hrep, ht⟩ := src.stored q hq
  have hpid := src.pid_eq q hq
  rw [sentBy_eq sender (src.fetching q hq) (src.free q hq) hrep
    (hpid.symm ▸ src.allServable dst ht), hpid, pieces, List.filterMap_flatMap,
    Act.inputsTo_flatMap]
  have hget : ∀ j (hj : j < (msg.pids.zip msg.keys).zipIdx.length),
      j < msg.npids ∧ (msg.pids.zip msg.keys).zipIdx[j] = ((msg.pid j, msg.key j), j) := by
    intro j hj
    rw [List.length_zipIdx] at hj
    obtain ⟨hjn, h⟩ :=
      (FetchMessage.zip_getElem? dst.keys_length).mp (List.getElem?_eq_getElem hj)
    exact ⟨hjn, by rw [List.getElem_zipIdx, Nat.zero_add, h]⟩
  have hlen : i < (msg.pids.zip msg.keys).zipIdx.length := by
    rw [List.length_zipIdx, List.length_zip, dst.keys_length]
    exact (Nat.min_self _).symm ▸ hi
  rw [Lists.flatMap_of_unique hlen]
  · rw [(hget i hlen).2, src.sent_range dst hi rfl ht, Act.inputsTo_map_self]
  · intro j hj hji
    obtain ⟨hjn, h⟩ := hget j hj
    rw [h, src.sent_range dst hjn rfl ht, Act.inputsTo_map_of_ne]
    exact fun he => hji (FetchMessage.pid_inj dst.nodup hjn hi he)

/-- Target process `i` gets one piece for every source part that meets its own part. -/
theorem inputsTo_deliveries (dst : Target msg) (sender : Int) {i : Nat} (hi : i < msg.npids) :
    (Act.inputsTo (msg.pid i) (src.deliveries sender)).Perm
      ((src.piecesFor i).map Piece.input) := by
  have hown : ∀ part ∈ src.meeting i, part.pid ∈ src.pids := fun part hp =>
    src.owned part (List.mem_filter.mp hp).1
  unfold deliveries
  rw [Act.inputsTo_flatMap,
    List.flatMap_congr fun q hq => src.inputsTo_sentBy dst sender hq hi, ← List.map_flatMap,
    piecesFor, List.map_map]
  exact (Lists.flatMap_filter_perm _ src.nodup hown).map _

/-- A process without a part of the target gets nothing. -/
theorem inputsTo_deliveries_of_not_mem (dst : Target msg) (sender : Int) {d : Int}
    (hd : ∀ i < msg.npids, msg.pid i ≠ d) : Act.inputsTo d (src.deliveries sender) = [] := by
  unfold deliveries
  rw [Act.inputsTo_flatMap]
  refine Lists.flatMap_eq_nil fun q hq => ?_
  obtain ⟨t, hrep, ht⟩ := src.stored q hq
  have hpid := src.pid_eq q hq
  rw [sentBy_eq sender (src.fetching q hq) (src.free q hq) hrep
    (hpid.symm ▸ src.allServable dst ht), hpid, pieces, List.filterMap_flatMap,
    Act.inputsTo_flatMap]
  refine Lists.flatMap_eq_nil fun p hp => ?_
  obtain ⟨hj, hget⟩ := (FetchMessage.zip_getElem? dst.keys_length).mp
    (List.mem_zipIdx_iff_getElem?.mp hp)
  rw [src.sent_range dst hj (by rw [hget]) ht, Act.inputsTo_map_of_ne]
  rw [hget]
  exact hd _ hj

theorem size_pieceOf {part : VectorDistributionPart} (hp : part ∈ src.dv.parts) (i : Nat) :
    (src.pieceOf i part).size = part.span.overlap (msg.bound i) (msg.bound (i + 1)) := by
  show ((slice src.content part.offset part.size).take _).length = _
  rw [List.length_take, src.length_part hp]
  exact Nat.min_eq_left (Span.overlap_le_len _ _ _)

/-- The pieces of a target part are together as long as it is. -/
theorem sum_piecesFor (dst : Target msg) {i : Nat} (hi : i < msg.npids) :
    ((src.piecesFor i).map Piece.size).sum = msg.blockLen i := by
  have hsize : ((src.meeting i).map fun part => (src.pieceOf i part).size) =
      (src.meeting i).map fun part => part.span.overlap (msg.bound i) (msg.bound (i + 1)) :=
    List.map_congr_left fun part hp => src.size_pieceOf (List.mem_filter.mp hp).1 i
  have hsum := src.tiles.sum_overlap (a := msg.bound i) (src.bound_le dst (i := i + 1) hi)
  rw [VectorDistribution.spans, List.map_map] at hsum
  rw [piecesFor, List.map_map]
  show ((src.meeting i).map fun part => (src.pieceOf i part).size).sum = _
  rw [hsize, meeting, Lists.sum_map_filter fun part _ h => Span.overlap_of_not_meets h]
  exact hsum

theorem piecesFit (dst : Target msg) {i : Nat} (hi : i < msg.npids) :
    PiecesFit (msg.key i) (msg.blockLen i) (src.piecesFor i) where
  key_eq p hp := by
    obtain ⟨part, -, rfl⟩ := List.mem_map.mp hp
    rfl
  bounded p hp := by
    obtain ⟨part, hpart, rfl⟩ := List.mem_map.mp hp
    rw [src.size_pieceOf (List.mem_filter.mp hpart).1]
    show 0 + _ ≤ msg.bound (i + 1) - msg.bound i
    rw [Nat.zero_add]
    exact Span.overlap_le_window _ _ _
  total := (src.sum_piecesFor dst hi).le
  nonempty h := by
    -- an empty part of the target sits at the end of the vector, where no source part reaches
    by_contra hempty
    obtain ⟨p, hp⟩ := List.exists_mem_of_ne_nil _ h
    obtain ⟨part, hpart, -⟩ := List.mem_map.mp hp
    obtain ⟨hmem, hmeets⟩ := List.mem_filter.mp hpart
    have hm : part.span.Meets (msg.bound i) (msg.bound (i + 1)) := of_decide_eq_true hmeets
    have hend : msg.bound i = msg.dvSize := blockBound_eq_of_empty (by
      unfold FetchMessage.blockLen FetchMessage.bound at hempty
      omega)
    have hstop : msg.bound i < part.offset + part.size := hm.1
    have hle := src.part_le hmem
    rw [hend, src.dvSize_eq] at hstop
    omega

end Source

end Prefetch

end ActiveBsp
