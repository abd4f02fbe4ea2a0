import ActiveBsp.Management.PrefetchContent
import ActiveBsp.Management.PrefetchRun

/-!
# The bookkeeping of a prefetch

Every target process, the head of the target actor and every source process
compute the blocks of the vector on their own. In every state of every run their
sizes agree, and so do the bytes that a part waits for and the pieces that are
still to come.
-/
namespace ActiveBsp.Prefetch

open Library Library.Buffer Library.Tiling Distributions.BlockDistribution ActorServer Serialization
  Serialization.ArchiveFormat

set_option autoImplicit false

/-- The process has a buffer of `size` bytes for the part `key`. -/
def HasPart (s : ActorServer) (key : Int) (size : Nat) : Prop :=
  ∃ part, s.dataStore.dvParts key = some part ∧ part.location = .vectorStore ∧ part.size = size

/-- What `addData` asserts of a piece. -/
def Accepts (s : ActorServer) (piece : StoreResultPartMessage) : Prop :=
  ∃ part, s.dataStore.dvParts piece.resId = some part ∧
    piece.offset + piece.data.length ≤ part.size ∧ piece.data.length ≤ part.remainingBytes

def IsReadable (s : ActorServer) (key : Int) : Prop :=
  ∃ data size, s.dataStore.getPartData key = .ok (some data, size)

def pieceBytes : ActorMessage → Nat
  | .storeResultPart piece => piece.data.length
  | _ => 0

/-- The bytes in all pieces that one process has sent to another. -/
def bytesSent (net : Network) (src dst : Int) : Nat :=
  ((net.takenFrom src dst ++ net.mail src dst).map pieceBytes).sum

/-- What is true of the network at any time. -/
structure AddsUp (codec : Codec) (p : Plan) (net : Network) : Prop where
  /-- What the prefetch registers is a vector of the same length. -/
  tiles : Tiles p.distribution.spans p.content.length
  /-- Its parts are those that the processes have prepared. -/
  registered : ∀ data, (net.servers p.target).futureDataStore p.resFutureKey = some data →
    data = codec.serializeAll p.distribution ∧
      ∀ i (hi : i < p.targets.length), ∃ part, p.distribution.parts[i]? = some part ∧
        part.pid = p.targets[i] ∧ HasPart (net.servers part.pid) part.resid part.size
  /-- A piece under way finds its part prepared, with room for it. -/
  awaited : ∀ src dst piece, .storeResultPart piece ∈ net.mail src dst →
    HasPart (net.servers dst) piece.resId (p.lenOf dst) ∧ Accepts (net.servers dst) piece
  /-- The pieces for a part are together as long as it is. -/
  lengths : (∀ q ∈ p.sources, q ∈ net.fetched) → ∀ dst ∈ p.targets,
    (p.sources.map fun q => bytesSent net q dst).sum = p.lenOf dst
  /-- A part that is not empty is there when no piece with bytes for it is still to come. -/
  readable : ∀ dst ∈ p.targets, 0 < p.lenOf dst →
    (IsReadable (net.servers dst) (p.partKey dst) ↔
      ∀ src ∈ p.sources, ∀ piece, .storeResultPart piece ∈ p.piecesTo src dst → piece.data ≠ [] →
        src ∈ net.fetched ∧ .storeResultPart piece ∉ net.mail src dst)
  /-- No move runs into a fault. -/
  sound : ∀ move e, (Network.step codec move net).2 = .error e → e = .blocked

/-- A piece of 2 ^ 31 - 36 bytes or more cannot be sent. -/
theorem Setup.unsendable_piece {codec : Codec} (st : Setup codec)
    {part : VectorDistributionPart} {i : Nat} (hp : part ∈ st.dv.parts) (hi : i < st.targets.length)
    (hlarge : 2 ^ 31 ≤ 36 + part.span.overlap (st.fetch.bound i) (st.fetch.bound (i + 1))) :
    ∃ o ∈ pieces (st.tables part.pid) part.pid st.fetch st.dv, ¬ Network.Sendable o := by
  have hmeets : part.span.Meets (st.fetch.bound i) (st.fetch.bound (i + 1)) := by
    by_contra hnot
    rw [Span.overlap_of_not_meets hnot] at hlarge
    omega
  have hmem : part ∈ (st.sourceActor.meeting i).filter fun part' => part'.pid = part.pid :=
    List.mem_filter.mpr ⟨List.mem_filter.mpr ⟨hp, decide_eq_true hmeets⟩, decide_eq_true rfl⟩
  have hsent : .storeResultPart (st.sourceActor.pieceOf i part).2 ∈
      st.piecesTo part.pid (st.fetch.pid i) := by
    rw [st.piecesTo_eq (st.owned part hp) hi]
    exact List.mem_map.mpr ⟨part, hmem, rfl⟩
  obtain ⟨o, ho, hmsg⟩ := List.mem_filterMap.mp hsent
  refine ⟨o, ho, fun hsendable => ?_⟩
  obtain ⟨dst, msg, rfl⟩ := isPiece_of_mem ho
  rw [Network.messageTo_actorMessage] at hmsg
  split_ifs at hmsg
  cases hmsg
  have hsize := hsendable _ rfl
  have hlen : (st.sourceActor.pieceOf i part).2.data.length = _ := st.sourceActor.size_pieceOf hp i
  simp only [Actormsg.Envelope.size, hlen] at hsize
  omega

namespace Start

variable {codec : Codec} (st : Start codec) {g : Progress} {net : Network}

/-- What the source processes send for a part is together as long as it is. -/
theorem sum_sources {dst : Int} (hdst : dst ∈ st.targets) :
    (st.sources.map fun q => ((st.piecesTo q dst).map pieceBytes).sum).sum = st.lenOf dst := by
  have hi : st.targets.idxOf dst < st.targets.length := List.idxOf_lt_length_of_mem hdst
  have howned : ∀ part ∈ st.sourceActor.meeting (st.targets.idxOf dst), part.pid ∈ st.sources :=
    fun part hp => st.owned part (List.mem_filter.mp hp).1
  have hperm := Lists.flatMap_filter_perm VectorDistributionPart.pid st.sources_nodup howned
  have hsum := (hperm.map fun part =>
    (st.sourceActor.pieceOf (st.targets.idxOf dst) part).size).sum_eq
  have htotal := st.sourceActor.sum_piecesFor st.targetActor hi
  rw [Source.piecesFor, List.map_map] at htotal
  rw [List.map_flatMap, List.flatMap_def, List.sum_flatten, List.map_map] at hsum
  calc (st.sources.map fun q => ((st.piecesTo q dst).map pieceBytes).sum).sum
      = _ := ?_
    _ = _ := hsum
    _ = st.lenOf dst := htotal
  congr 1
  apply List.map_congr_left
  intro q hq
  have heq := st.piecesTo_eq hq hi
  rw [st.pid_idxOf hdst] at heq
  rw [heq, List.map_map]
  rfl

section Invariant

variable (h : st.Follows codec g net)

include h

theorem ran_iff {q : Int} : g.ran q = true ↔ q ∈ net.fetched := by
  rw [← h.progress_eq]
  exact decide_eq_true_iff

theorem taken_fit {q : Int} (hq : q ∈ st.targets) :
    PiecesFit (st.partKey q) (st.lenOf q) (net.piecesTaken q) := by
  have hi : st.targets.idxOf q < st.targets.length := List.idxOf_lt_length_of_mem hq
  obtain ⟨rest, hperm⟩ := st.pieces_taken h hi
  have hfit := ((st.sourceActor.piecesFit st.targetActor hi).perm hperm).left
  rw [st.key_fetch hi, st.pid_idxOf hq] at hfit
  exact hfit

/-- A prepared part, filled by the pieces that its process took. -/
theorem part_at {q : Int} (hq : q ∈ st.targets) (hp : g.prepared q = true) :
    ∃ t part, (net.servers q).dataStore.Represents t ∧ t (st.partKey q) = some part ∧
      part.location = .vectorStore ∧ part.data.length = st.lenOf q ∧
      part.remaining = st.lenOf q - ((net.piecesTaken q).map Piece.size).sum := by
  obtain ⟨t, hrep, ht⟩ := (h.servers q).parts
  unfold Plan.Holds at ht
  rw [if_pos hp] at ht
  obtain ⟨part, rfl, hw⟩ := ht
  refine ⟨_, part, hrep, PartialMap.set_self _ _ _, hw.location, ?_, hw.remaining⟩
  rw [hw.data, length_applyWrites, Part.prepared, List.length_replicate]
  intro w hwm
  obtain ⟨p, hp, rfl⟩ := List.mem_map.mp hwm
  rw [Part.prepared, List.length_replicate]
  exact (st.taken_fit h hq).bounded p hp

theorem hasPart {q : Int} (hq : q ∈ st.targets) (hp : g.prepared q = true) :
    HasPart (net.servers q) (st.partKey q) (st.lenOf q) := by
  obtain ⟨t, part, hrep, hk, hloc, hlen, -⟩ := st.part_at h hq hp
  refine ⟨⟨st.partKey q, part.data.length, part.location, part.remaining⟩, ?_, hloc, hlen⟩
  rw [hrep.dvParts, hk]
  rfl

theorem accepts {src dst : Int} {piece : StoreResultPartMessage}
    (hm : .storeResultPart piece ∈ net.mail src dst) :
    HasPart (net.servers dst) piece.resId (st.lenOf dst) ∧ Accepts (net.servers dst) piece := by
  obtain ⟨hdst, hp⟩ := st.piece_prepared h (st.mem_sent_of_mail h hm)
  have hfit := st.pieces_fit h hdst hm
  have hkey : piece.resId = st.partKey dst := hfit.key_eq (src, piece) (by simp)
  have hbound : piece.offset + piece.data.length ≤ st.lenOf dst :=
    hfit.bounded (src, piece) (by simp)
  have htotal := hfit.total
  rw [List.map_append, List.sum_append, List.map_singleton, List.sum_singleton] at htotal
  have hsize : Piece.size (src, piece) = piece.data.length := rfl
  obtain ⟨t, part, hrep, hk, -, hlen, hrem⟩ := st.part_at h hdst hp
  constructor
  · rw [hkey]
    exact st.hasPart h hdst hp
  · refine ⟨⟨st.partKey dst, part.data.length, part.location, part.remaining⟩, ?_, ?_, ?_⟩
    · rw [hkey, hrep.dvParts, hk]
      rfl
    · exact hlen ▸ hbound
    · show piece.data.length ≤ part.remaining
      omega

theorem registered_parts {data : Bytes}
    (hdata : (net.servers st.target).futureDataStore st.resFutureKey = some data) :
    data = codec.serializeAll st.distribution ∧
      ∀ i (hi : i < st.targets.length), ∃ part, st.distribution.parts[i]? = some part ∧
        part.pid = st.targets[i] ∧ HasPart (net.servers part.pid) part.resid part.size := by
  have htarget := (h.servers st.target).target rfl
  have hg : g.gathered = true := by
    by_contra hg
    rw [(htarget.unknown (by simpa using hg)).1] at hdata
    cases hdata
  constructor
  · exact (Option.some.inj ((htarget.known hg).symm.trans hdata)).symm
  · intro i hi
    have hparts : st.distribution.parts[i]? =
        some ⟨st.fetch.pid i, st.fetch.key i, st.fetch.blockLen i, st.fetch.bound i⟩ := by
      rw [show st.distribution.parts = _ from
        parts_prefetchedDistribution st.sourceActor st.targetActor, List.getElem?_map,
        List.getElem?_range (show i < st.fetch.npids from hi)]
      rfl
    have hmem : st.fetch.pid i ∈ st.targets := by
      rw [st.pid_fetch hi]
      exact List.getElem_mem hi
    refine ⟨_, hparts, st.pid_fetch hi, ?_⟩
    have hpart := st.hasPart h hmem (h.ordered.gathered_all hg _ hmem)
    rw [Plan.lenOf, st.idxOf_pid hi, ← st.key_fetch hi] at hpart
    exact hpart

/-- The bytes of a process are sent when it goes through the loop of `fetchDv`. -/
theorem bytesSent_eq {q : Int} (hq : q ∈ net.fetched) (dst : Int) :
    bytesSent net q dst = ((st.piecesTo q dst).map pieceBytes).sum := by
  have hsum := ((h.ledger q dst).map pieceBytes).sum_eq
  have hcontrol : ((st.registrations q dst ++ st.prefetches g q dst ++ st.fetches g q dst).map
      pieceBytes).sum = 0 := by
    rw [List.sum_eq_zero_iff]
    intro n hn
    obtain ⟨m, hm, rfl⟩ := List.mem_map.mp hn
    simp only [Plan.registrations, Plan.prefetches, Plan.fetches, List.mem_append,
      List.mem_ite_nil_right, List.mem_singleton] at hm
    rcases hm with (⟨-, rfl⟩ | ⟨-, rfl⟩) | ⟨-, rfl⟩ <;> rfl
  rw [bytesSent, hsum, Plan.sent, List.map_append, List.sum_append, hcontrol, Nat.zero_add,
    Plan.piecesSent, if_pos ((st.ran_iff h).mpr hq)]

/-- What is still to come for a part. -/
theorem rest_count {i : Nat} (hi : i < st.targets.length) {rest : List Piece}
    (hperm : (st.sourceActor.piecesFor i).Perm (net.piecesTaken (st.fetch.pid i) ++ rest))
    {src : Int} (hsrc : src ∈ st.sources) (piece : StoreResultPartMessage) :
    (src, piece) ∉ rest ↔ (.storeResultPart piece ∈ st.piecesTo src (st.fetch.pid i) →
      src ∈ net.fetched ∧ .storeResultPart piece ∉ net.mail src (st.fetch.pid i)) := by
  have hcount := hperm.count_eq (src, piece)
  have hledger := st.count_ledger h src (st.fetch.pid i) piece
  rw [List.count_append, ← st.count_piecesTo hsrc hi] at hcount
  rw [← List.count_eq_zero, ← List.count_pos_iff, ← List.count_eq_zero, ← st.ran_iff h]
  by_cases hran : g.ran src = true
  · rw [if_pos hran] at hledger
    simp only [hran, true_and]
    omega
  · rw [if_neg hran] at hledger
    constructor
    · intro hzero hmem
      omega
    · intro hall
      by_contra hne
      exact hran (hall (by omega)).1

/-- Nothing with bytes is still to come exactly when the pieces that came fill the part. -/
theorem filled_iff {dst : Int} (hdst : dst ∈ st.targets) :
    ((net.piecesTaken dst).map Piece.size).sum = st.lenOf dst ↔
      ∀ src ∈ st.sources, ∀ piece, .storeResultPart piece ∈ st.piecesTo src dst → piece.data ≠ [] →
        src ∈ net.fetched ∧ .storeResultPart piece ∉ net.mail src dst := by
  have hi : st.targets.idxOf dst < st.targets.length := List.idxOf_lt_length_of_mem hdst
  have hpid := st.pid_idxOf hdst
  obtain ⟨rest, hperm⟩ := st.pieces_taken h hi
  have htotal : _ = st.lenOf dst := st.sourceActor.sum_piecesFor st.targetActor hi
  rw [(hperm.map Piece.size).sum_eq, List.map_append, List.sum_append, hpid] at htotal
  have hrest := fun (src : Int) (hsrc : src ∈ st.sources) => st.rest_count h hi hperm hsrc
  rw [hpid] at hrest
  constructor
  · intro hsum src hsrc piece hmem hdata
    refine (hrest src hsrc piece).mp (fun hin => hdata ?_) hmem
    have hzero : (rest.map Piece.size).sum = 0 := by omega
    exact List.eq_nil_of_length_eq_zero
      (List.sum_eq_zero_iff.mp hzero _ (List.mem_map_of_mem hin))
  · intro hall
    have hzero : (rest.map Piece.size).sum = 0 := by
      rw [List.sum_eq_zero_iff]
      intro n hn
      obtain ⟨⟨src, piece⟩, hin, rfl⟩ := List.mem_map.mp hn
      obtain ⟨part, hpart, he⟩ := List.mem_map.mp (hperm.mem_iff.mpr (List.mem_append_right _ hin))
      have hsrc : src ∈ st.sources := by
        have howned := st.owned part (List.mem_filter.mp hpart).1
        rwa [show part.pid = src from congrArg Prod.fst he] at howned
      by_contra hsize
      have hdata : piece.data ≠ [] := by
        intro hnil
        exact hsize (congrArg List.length hnil)
      exact (hrest src hsrc piece).mpr (fun hmem => hall src hsrc piece hmem hdata) hin
    omega

theorem isReadable_iff {dst : Int} (hdst : dst ∈ st.targets) (hpos : 0 < st.lenOf dst) :
    IsReadable (net.servers dst) (st.partKey dst) ↔
      ((net.piecesTaken dst).map Piece.size).sum = st.lenOf dst := by
  by_cases hp : g.prepared dst = true
  · obtain ⟨t, part, hrep, hk, hloc, hlen, hrem⟩ := st.part_at h hdst hp
    have hget : (net.servers dst).dataStore.getPartData (st.partKey dst) =
        .ok (if 0 < part.remaining then (none, 0) else (part.buffer, part.data.length)) := by
      rw [DataStore.getPartData_of_represents hrep, PartTable.get, hk]
    have hbuf : part.buffer = some part.data :=
      (Part.buffer_eq_some_iff part).mpr fun _ => List.ne_nil_of_length_pos (hlen ▸ hpos)
    have hle := (st.taken_fit h hdst).total
    unfold IsReadable
    rw [hget, hbuf]
    split_ifs with hr
    · constructor
      · rintro ⟨data, size, he⟩
        cases he
      · intro hsum
        omega
    · constructor
      · intro _
        omega
      · intro _
        exact ⟨_, _, rfl⟩
  · have hnil := st.piecesTaken_eq_nil h (Bool.eq_false_iff.mpr hp)
    obtain ⟨t, hrep, ht⟩ := (h.servers dst).parts
    unfold Plan.Holds at ht
    rw [if_neg hp] at ht
    have hget : (net.servers dst).dataStore.getPartData (st.partKey dst) = .ok (none, 0) := by
      rw [DataStore.getPartData_of_represents hrep, PartTable.get, ht, st.fresh dst hdst]
    unfold IsReadable
    rw [hget, hnil]
    constructor
    · rintro ⟨data, size, he⟩
      cases he
    · intro hsum
      rw [← hsum] at hpos
      cases hpos

theorem addsUp : AddsUp codec st.toPlan net where
  tiles := spans_prefetchedDistribution st.sourceActor st.targetActor
  registered _ hdata := st.registered_parts h hdata
  awaited _ _ _ hm := st.accepts h hm
  lengths hran dst hdst := by
    rw [← st.sum_sources hdst]
    congr 1
    exact List.map_congr_left fun q hq => st.bytesSent_eq h (hran q hq) dst
  readable dst hdst hpos := (st.isReadable_iff h hdst hpos).trans (st.filled_iff h hdst)
  sound move e he := by
    rcases st.move_advances move h with ⟨out, net', g', hstep, -⟩ | hblocked
    · rw [hstep] at he
      cases he
    · rw [hblocked] at he
      exact (Except.error.inj he).symm

end Invariant

/-- Along a run the prefetch comes further and further. -/
theorem follows_run {moves : List Network.Move} {outs : List (List Output)} {net' : Network}
    (h : st.Follows codec g net)
    (hrun : Act.trace (Network.step codec) moves net = (outs, .ok net')) :
    ∃ g', st.Follows codec g' net' := by
  induction moves generalizing g net outs with
  | nil =>
    cases hrun
    exact ⟨g, h⟩
  | cons move moves ih =>
    obtain ⟨out, net₁, outs', hstep, hrun', -⟩ := Act.trace_cons_inv hrun
    rcases st.move_advances move h with ⟨out', net₂, g', hstep', h'⟩ | hblocked
    · rw [hstep] at hstep'
      cases hstep'
      exact ih h' hrun'
    · rw [hstep] at hblocked
      cases hblocked

end Start

/-- The bookkeeping of a prefetch adds up in every state of every run, provided that its future
can be read and its messages can be sent. -/
theorem prefetch_adds_up {codec : Codec} (st : Setup codec) (hloads : st.Loads) (hsmall : st.Small)
    {moves : List Network.Move} {outs : List (List Output)} {net : Network}
    (hrun : Act.trace (Network.step codec) moves st.network = (outs, .ok net)) :
    AddsUp codec st.toPlan net := by
  obtain ⟨g, h⟩ := Start.follows_run ⟨st, hloads, hsmall⟩ (Start.follows_network _) hrun
  exact Start.addsUp _ h

def fourBytes : Bytes := [10, 11, 12, 13]

/-- Three bytes at process 1, one at process 4. -/
def fourDistribution : VectorDistribution := ⟨[⟨1, 3, 3, 0⟩, ⟨4, 3, 1, 3⟩]⟩

def fourServer (q : Int) : ActorServer :=
  { pid := q
    pids := if q = 1 ∨ q = 4 then [1, 4] else [2, 3]
    intraActorComm := some ⟨if q = 1 ∨ q = 2 then 0 else 1, 2⟩
    dataStore :=
      .single 3 (.ofMessage (if q = 1 then slice fourBytes 0 3 else slice fourBytes 3 1)) }

/-- The future of the vector is not registered yet. -/
def fourPlan : Plan where
  content := fourBytes
  dv := fourDistribution
  target := 2
  targetSlaves := [3]
  source := 1
  sourceSlaves := [4]
  client := 8
  registered := false
  registrar := 7
  futureKey := 5
  future := sampleFormat.codec.serializeAll fourDistribution
  servers := fourServer
  tables q := PartialMap.empty.set 3
    (.ofMessage (if q = 1 then slice fourBytes 0 3 else slice fourBytes 3 1))
  mail _ _ := []

theorem valid_fourDistribution : Valid fourDistribution where
  parts := by
    intro part hpart
    rcases List.mem_pair.mp hpart with rfl | rfl <;>
      exact ⟨by decide, by decide, by decide, by decide⟩
  size := by decide

def fourStart : Start sampleFormat.codec where
  toPlan := { fourPlan with mail := fourPlan.sent fourPlan.initial }
  small := by decide
  tiles := by
    constructor
    · decide
    · decide
  few := by decide
  targets_nodup := by decide
  sources_nodup := by decide
  owned := by decide
  stored := by
    intro part hpart
    rcases List.mem_pair.mp hpart with rfl | rfl <;> rfl
  loads := deserializeAll_serializeAll valid_fourDistribution
  sizes := ⟨by decide, by decide⟩
  pid_eq _ := rfl
  ready _ := ⟨rfl, rfl, rfl⟩
  represented _ := DataStore.single_represents _ _
  target_pids := by
    intro q hq
    rcases List.mem_pair.mp hq with rfl | rfl <;> rfl
  target_comm := by
    intro q hq
    rcases List.mem_pair.mp hq with rfl | rfl <;> rfl
  source_pids := by
    intro q hq
    rcases List.mem_pair.mp hq with rfl | rfl <;> rfl
  source_comm := by
    intro q hq
    rcases List.mem_pair.mp hq with rfl | rfl <;> rfl
  fresh := by
    intro q hq
    rcases List.mem_pair.mp hq with rfl | rfl <;> rfl
  unasked _ _ := rfl
  sourceFuture := ⟨fun h => (by cases h), fun _ => ⟨rfl, rfl⟩, rfl⟩
  targetFuture := ⟨fun h => (by cases h), fun _ => ⟨rfl, rfl, rfl⟩⟩
  keys_apart h := by cases h
  mail_eq _ _ := List.Perm.refl _

/-- The request for the vector comes before the vector. -/
def fourMoves : List Network.Move :=
  [.deliver 8 2, .deliver 2 3, .gather 2, .deliver 2 1, .deliver 7 1, .deliver 1 4, .broadcast 4,
    .deliver 4 3, .deliver 1 2, .deliver 1 3]

theorem prefetch_adds_up_four : ∃ outs net,
    Act.trace (Network.step sampleFormat.codec) fourMoves fourStart.network = (outs, .ok net) ∧
      AddsUp sampleFormat.codec fourStart.toPlan net := by
  have hends : (Act.trace (Network.step sampleFormat.codec) fourMoves
      fourStart.network).2.toOption.isSome = true := by decide +kernel
  rcases hrun : Act.trace (Network.step sampleFormat.codec) fourMoves fourStart.network with
    ⟨outs, e | net⟩
  · rw [hrun] at hends
    cases hends
  · exact ⟨outs, net, rfl, prefetch_adds_up fourStart.toSetup fourStart.loads fourStart.sizes hrun⟩

/-- `n` bytes at process 1, for the actor of process 2. -/
def wideDistribution (n : Nat) : VectorDistribution := ⟨[⟨1, 3, n, 0⟩]⟩

def wideServer (n : Nat) (future : Bytes) (q : Int) : ActorServer :=
  { pid := q
    pids := [q]
    intraActorComm := some ⟨0, 1⟩
    dataStore := .single 3 (.ofMessage (List.replicate n 0))
    futureDataStore := if q = 1 then PartialMap.empty.set 5 future else .empty }

def widePlan (n : Nat) (future : Bytes) : Plan where
  content := List.replicate n 0
  dv := wideDistribution n
  target := 2
  targetSlaves := []
  source := 1
  sourceSlaves := []
  client := 8
  registered := true
  registrar := 7
  futureKey := 5
  future := future
  servers := wideServer n future
  tables _ := PartialMap.empty.set 3 (.ofMessage (List.replicate n 0))
  mail _ _ := []

def wideSetup (n : Nat) (hn : n < 2 ^ 31) (future : Bytes) : Setup sampleFormat.codec where
  toPlan := { widePlan n future with mail := (widePlan n future).sent (widePlan n future).initial }
  small := by
    show (List.replicate n (0 : UInt8)).length < 2 ^ 31
    rwa [List.length_replicate]
  tiles := by
    show Tiles [⟨0, n⟩] (List.replicate n (0 : UInt8)).length
    rw [List.length_replicate]
    constructor
    · intro r hr
      rw [List.mem_singleton.mp hr]
      simp [Span.stop]
    · intro x hx
      simp [Span.Covers, Span.stop, hx]
  few := Nat.one_lt_two_pow (by decide)
  targets_nodup := List.nodup_singleton _
  sources_nodup := List.nodup_singleton _
  owned := by
    intro part hpart
    rw [List.mem_singleton.mp hpart]
    exact List.mem_singleton_self _
  stored := by
    intro part hpart
    rw [List.mem_singleton.mp hpart]
    show some (Part.ofMessage (List.replicate n 0)) =
      some (.ofMessage (slice (List.replicate n 0) 0 n))
    simp [slice]
  pid_eq _ := rfl
  ready _ := ⟨rfl, rfl, rfl⟩
  represented _ := DataStore.single_represents _ _
  target_pids := by
    intro q hq
    rw [List.mem_singleton.mp hq]
    rfl
  target_comm := by
    intro q hq
    rw [List.mem_singleton.mp hq]
    rfl
  source_pids := by
    intro q hq
    rw [List.mem_singleton.mp hq]
    rfl
  source_comm := by
    intro q hq
    rw [List.mem_singleton.mp hq]
    rfl
  fresh := by
    intro q hq
    rw [List.mem_singleton.mp hq]
    rfl
  unasked _ _ := rfl
  sourceFuture := ⟨fun _ => rfl, fun h => (by cases h), rfl⟩
  targetFuture := ⟨fun h => (by cases h), fun _ => ⟨rfl, rfl, rfl⟩⟩
  keys_apart h := by cases h
  mail_eq _ _ := List.Perm.refl _

/-- The head of the target actor has asked for its piece. -/
theorem wide_run {n : Nat} (hn : n < 2 ^ 31) (future : Bytes) : ∃ outs net,
    Act.trace (Network.step sampleFormat.codec) [.deliver 8 2, .gather 2]
      (wideSetup n hn future).network = (outs, .ok net) ∧
    net.mail 2 1 = [.fetch (widePlan n future).fetch] ∧ net.servers 1 = wideServer n future 1 :=
  ⟨_, _, rfl, rfl, rfl⟩

section Wide

variable {n : Nat} {future : Bytes} {net : Network}

/-- A future that cannot be read. -/
theorem wide_unread (hmail : net.mail 2 1 = [.fetch (widePlan n future).fetch])
    (hserver : net.servers 1 = wideServer n future 1)
    (hnone : sampleFormat.codec.deserializeAll future = none) :
    (Network.step sampleFormat.codec (.deliver 2 1) net).2 = .error .exception := by
  have hhead : Head (wideServer n future 1) := ⟨_, rfl, rfl⟩
  have hstep : step sampleFormat.codec (.message 2 (.fetch (widePlan n future).fetch))
      (wideServer n future 1) =
      handleFetchMessage sampleFormat.codec (widePlan n future).fetch (wideServer n future 1) := rfl
  have hfuture : (wideServer n future 1).futureDataStore 5 = some future := rfl
  rw [handleFetchMessage_of_stored hhead hfuture, fetchDv_of_head hhead hfuture, hnone] at hstep
  simp only [Network.step, hmail, Network.handle, Network.take, hserver, hstep]

/-- A piece that is too large. -/
theorem wide_oversized {hn : n < 2 ^ 31}
    (hmail : net.mail 2 1 = [.fetch (widePlan n future).fetch])
    (hserver : net.servers 1 = wideServer n future 1) (hloads : (wideSetup n hn future).Loads)
    (hlarge : 2 ^ 31 ≤ 36 + n) :
    (Network.step sampleFormat.codec (.deliver 2 1) net).2 = .error .undefined := by
  obtain ⟨hstep, -⟩ := (wideSetup n hn future).fetch_at_head hloads
    ((wideSetup n hn future).at_initial 1) rfl (fun h => by cases h) rfl rfl 2
  have hhigh : (wideSetup n hn future).fetch.bound 1 = n := by
    show blockBound (List.replicate n (0 : UInt8)).length 1 1 = n
    rw [blockBound_last Nat.one_pos, List.length_replicate]
  have hoverlap : 2 ^ 31 ≤ 36 + Span.overlap ⟨0, n⟩ ((wideSetup n hn future).fetch.bound 0)
      ((wideSetup n hn future).fetch.bound 1) := by
    rw [hhigh]
    show 2 ^ 31 ≤ 36 + (min (0 + n) n - max 0 (blockBound _ _ 0))
    rw [blockBound_zero]
    omega
  obtain ⟨o, ho, hsize⟩ := (wideSetup n hn future).unsendable_piece (List.mem_singleton_self _)
    Nat.one_pos hoverlap
  have hout : ∃ o ∈ (wideSetup n hn future).headSends, ¬ Network.Sendable o :=
    ⟨o, List.mem_append_right _ (List.mem_cons_of_mem _ ho), hsize⟩
  have hserved : step sampleFormat.codec (.message 2 (.fetch (widePlan n future).fetch))
      ((net.take 2 1 (.fetch (widePlan n future).fetch) []).servers 1) =
        ((wideSetup n hn future).headSends, .ok ((), wideServer n future 1)) := by
    rw [show (net.take _ _ _ _).servers 1 = _ from hserver]
    exact hstep
  simp only [Network.step, hmail]
  rw [Network.handle_of_unsendable hserved hout]

end Wide

/-- The bytes of a typed future cannot be read, and a part of 2 ^ 31 - 36 bytes cannot be sent. -/
theorem prefetch_not_adding_up :
    (∃ hn outs net, Act.trace (Network.step sampleFormat.codec) [.deliver 8 2, .gather 2]
        (wideSetup 1 hn (sampleFormat.serializeDerived (wideDistribution 1))).network =
          (outs, .ok net) ∧
      ¬ AddsUp sampleFormat.codec
        (wideSetup 1 hn (sampleFormat.serializeDerived (wideDistribution 1))).toPlan net) ∧
    ∃ hn outs net, Act.trace (Network.step sampleFormat.codec) [.deliver 8 2, .gather 2]
        (wideSetup (2 ^ 31 - 36) hn
          (sampleFormat.codec.serializeAll (wideDistribution (2 ^ 31 - 36)))).network =
            (outs, .ok net) ∧
      ¬ AddsUp sampleFormat.codec (wideSetup (2 ^ 31 - 36) hn
        (sampleFormat.codec.serializeAll (wideDistribution (2 ^ 31 - 36)))).toPlan net := by
  constructor
  · have hn : 1 < 2 ^ 31 := by norm_num
    obtain ⟨outs, net, hrun, hmail, hserver⟩ :=
      wide_run hn (sampleFormat.serializeDerived (wideDistribution 1))
    refine ⟨hn, outs, net, hrun, fun hadds => ?_⟩
    have hnone : sampleFormat.deserializeBase
        (sampleFormat.serializeDerived (wideDistribution 1)) = none :=
      deserializeBase_serializeDerived (by decide) (by decide)
    cases hadds.sound _ _ (wide_unread hmail hserver hnone)
  · have hn : 2 ^ 31 - 36 < 2 ^ 31 := by norm_num
    have hvalid : Valid (wideDistribution (2 ^ 31 - 36)) := by
      refine ⟨?_, by decide⟩
      intro part hpart
      rw [List.mem_singleton.mp hpart]
      exact ⟨by decide, by decide, by decide, by decide⟩
    obtain ⟨outs, net, hrun, hmail, hserver⟩ :=
      wide_run hn (sampleFormat.codec.serializeAll (wideDistribution (2 ^ 31 - 36)))
    refine ⟨hn, outs, net, hrun, fun hadds => ?_⟩
    have hloads : (wideSetup (2 ^ 31 - 36) hn (sampleFormat.codec.serializeAll
        (wideDistribution (2 ^ 31 - 36)))).Loads := deserializeAll_serializeAll hvalid
    cases hadds.sound _ _ (wide_oversized hmail hserver hloads (by norm_num))

end ActiveBsp.Prefetch
