import ActiveBsp.Management.PrefetchRelease
import ActiveBsp.Mpi.Reads

/-!
# The bytes of a prefetched distribution

Every piece is cut from the start of its source part and written to the start
of its target part. The target parts hold the right bytes, whatever the order
of the pieces, exactly when the pieces happen to agree with them there.
-/
namespace ActiveBsp.Prefetch

open Library Library.Buffer Library.Tiling ActorServer MPIActorCommunicator
  Distributions.BlockDistribution

set_option autoImplicit false

/-- The first bytes of every source part that meets the window `[a, b)` are those of the
window, as many as they share, and the window is zero behind the longest of them. -/
structure PiecesAgree (content : Bytes) (dv : VectorDistribution) (a b : Nat) : Prop where
  agree : ∀ part ∈ dv.parts, part.span.Meets a b →
    slice content part.offset (part.span.overlap a b) = slice content a (part.span.overlap a b)
  rest : ∀ x, a ≤ x → x < b →
    (∀ part ∈ dv.parts, part.span.Meets a b → a + part.span.overlap a b ≤ x) →
      content[x]? = some 0

variable {codec : Codec} {msg : FetchMessage}

namespace Source

variable (src : Source codec msg)

theorem data_pieceOf (i : Nat) (part : VectorDistributionPart) :
    (src.pieceOf i part).2.data = slice src.content part.offset
      (part.span.overlap (msg.bound i) (msg.bound (i + 1))) :=
  take_slice _ (Span.overlap_le_len _ _ _)

/-- What a target part holds after its pieces. -/
def written (msg : FetchMessage) (i : Nat) (ps : List Piece) : Bytes :=
  applyWrites (List.replicate (msg.blockLen i) 0) (ps.map Piece.write)

theorem written_concat (i : Nat) (ps : List Piece) (p : Piece) :
    written msg i (ps ++ [p]) = splice (written msg i ps) p.2.offset p.2.data := by
  rw [written, List.map_append, applyWrites_append]
  rfl

theorem length_written {i : Nat} {ps : List Piece}
    (h : ∀ p ∈ ps, p.write.stop ≤ msg.blockLen i) : (written msg i ps).length = msg.blockLen i := by
  rw [written, length_applyWrites, List.length_replicate]
  intro w hw
  obtain ⟨p, hp, rfl⟩ := List.mem_map.mp hw
  rw [List.length_replicate]
  exact h p hp

theorem mem_piecesFor {i : Nat} {p : Piece} :
    p ∈ src.piecesFor i ↔ ∃ part ∈ src.dv.parts,
      part.span.Meets (msg.bound i) (msg.bound (i + 1)) ∧ src.pieceOf i part = p := by
  simp [piecesFor, meeting, and_assoc]

/-- Pieces that agree with the source leave its bytes, in any order. -/
theorem written_of_agree (dst : Target msg) {i : Nat} (hi : i < msg.npids) {ps : List Piece}
    (hps : ps.Perm (src.piecesFor i))
    (h : PiecesAgree src.content src.dv (msg.bound i) (msg.bound (i + 1))) :
    written msg i ps = slice src.content (msg.bound i) (msg.blockLen i) := by
  have hend : msg.bound i + msg.blockLen i = msg.bound (i + 1) :=
    Nat.add_sub_cancel' (bound_mono (Nat.le_succ i))
  have hlen : (slice src.content (msg.bound i) (msg.blockLen i)).length = msg.blockLen i :=
    length_slice_of_le (hend.symm ▸ src.bound_le dst hi)
  have hagree : ∀ w ∈ ps.map Piece.write,
      w.Agrees (slice src.content (msg.bound i) (msg.blockLen i)) := by
    intro w hw
    obtain ⟨p, hp, rfl⟩ := List.mem_map.mp hw
    obtain ⟨part, hpart, hm, rfl⟩ := src.mem_piecesFor.mp (hps.mem_iff.mp hp)
    have hsize : (src.pieceOf i part).2.data.length =
        part.span.overlap (msg.bound i) (msg.bound (i + 1)) := src.size_pieceOf hpart i
    have hle : part.span.overlap (msg.bound i) (msg.bound (i + 1)) ≤ msg.blockLen i :=
      Span.overlap_le_window _ _ _
    constructor
    · show 0 + (src.pieceOf i part).2.data.length ≤ _
      rw [hsize, hlen, Nat.zero_add]
      exact hle
    · show slice _ 0 (src.pieceOf i part).2.data.length = (src.pieceOf i part).2.data
      rw [hsize, src.data_pieceOf, slice_slice _ (by omega), Nat.add_zero, h.agree part hpart hm]
  apply List.ext_getElem?
  intro x
  rw [written, getElem?_applyWrites (by rw [List.length_replicate, hlen]) hagree]
  split_ifs with hreached
  · rfl
  · by_cases hx : x < msg.blockLen i
    · rw [List.getElem?_replicate, if_pos hx, getElem?_slice, if_pos hx]
      refine (h.rest (msg.bound i + x) (Nat.le_add_right _ _) (by omega) ?_).symm
      intro part hpart hm
      by_contra hlt
      refine hreached ⟨(src.pieceOf i part).write, ?_, Nat.zero_le x, ?_⟩
      · exact List.mem_map_of_mem (hps.mem_iff.mpr (src.mem_piecesFor.mpr ⟨part, hpart, hm, rfl⟩))
      · show x < 0 + (src.pieceOf i part).2.data.length
        rw [show (src.pieceOf i part).2.data.length = _ from src.size_pieceOf hpart i]
        omega
    · rw [List.getElem?_eq_none (by rw [List.length_replicate]; omega),
        List.getElem?_eq_none (by omega)]

/-- Pieces that leave the bytes of the source in every order agree with it. -/
theorem agree_of_written (dst : Target msg) {i : Nat} (hi : i < msg.npids)
    (h : ∀ ps : List Piece, ps.Perm (src.piecesFor i) →
      written msg i ps = slice src.content (msg.bound i) (msg.blockLen i)) :
    PiecesAgree src.content src.dv (msg.bound i) (msg.bound (i + 1)) := by
  have hstop : ∀ p ∈ src.piecesFor i, p.write.stop ≤ msg.blockLen i :=
    fun p hp => (src.piecesFit dst hi).bounded p hp
  constructor
  · intro part hpart hm
    have hmem : src.pieceOf i part ∈ src.piecesFor i := src.mem_piecesFor.mpr ⟨part, hpart, hm, rfl⟩
    have hsize : (src.pieceOf i part).2.data.length =
        part.span.overlap (msg.bound i) (msg.bound (i + 1)) := src.size_pieceOf hpart i
    -- the piece of the part comes last
    have hlast := h ((src.piecesFor i).erase (src.pieceOf i part) ++ [src.pieceOf i part])
      ((List.perm_append_singleton _ _).trans (List.perm_cons_erase hmem).symm)
    have hlen : (written msg i ((src.piecesFor i).erase (src.pieceOf i part))).length =
        msg.blockLen i := length_written fun p hp => hstop p (List.mem_of_mem_erase hp)
    rw [written_concat] at hlast
    have hfit : (src.pieceOf i part).2.offset + (src.pieceOf i part).2.data.length ≤
        (written msg i ((src.piecesFor i).erase (src.pieceOf i part))).length :=
      hlen.symm ▸ hstop _ hmem
    have hread := slice_splice hfit
    rw [hlast, hsize, src.data_pieceOf] at hread
    rw [← hread]
    show slice (slice _ _ _) 0 _ = _
    rw [slice_slice _ (by rw [Nat.zero_add]; exact Span.overlap_le_window _ _ _), Nat.add_zero]
  · intro x hx hlt hnone
    have hout : ∀ w ∈ (src.piecesFor i).map Piece.write,
        ¬ (w.pos ≤ x - msg.bound i ∧ x - msg.bound i < w.stop) := by
      intro w hw hreach
      obtain ⟨p, hp, rfl⟩ := List.mem_map.mp hw
      obtain ⟨part, hpart, hm, rfl⟩ := src.mem_piecesFor.mp hp
      have hsize : (src.pieceOf i part).2.data.length =
          part.span.overlap (msg.bound i) (msg.bound (i + 1)) := src.size_pieceOf hpart i
      have hle := hnone part hpart hm
      have hlt' : x - msg.bound i < 0 + (src.pieceOf i part).2.data.length := hreach.2
      omega
    have hfit : ∀ w ∈ (src.piecesFor i).map Piece.write,
        w.stop ≤ (List.replicate (msg.blockLen i) (0 : UInt8)).length := by
      intro w hw
      obtain ⟨p, hp, rfl⟩ := List.mem_map.mp hw
      rw [List.length_replicate]
      exact hstop p hp
    have hzero := getElem?_applyWrites_of_not_reached hfit hout
    have hinside : x - msg.bound i < msg.blockLen i := by
      unfold FetchMessage.blockLen
      omega
    have hx' : msg.bound i + (x - msg.bound i) = x := by omega
    have hall := h (src.piecesFor i) (List.Perm.refl _)
    rw [written] at hall
    rw [hall, getElem?_slice, if_pos hinside, hx', List.getElem?_replicate, if_pos hinside] at hzero
    exact hzero

/-- One target process: the pieces are handled, and the part holds what they wrote. -/
theorem pieces_handled (dst : Target msg) {i : Nat} (hi : i < msg.npids) {ps : List Piece}
    (hps : ps.Perm (src.piecesFor i)) :
    ∃ s' t part, Act.Ends (step codec) (ps.map Piece.input) (dst.state (msg.pid i)) s' ∧
      s'.resultStoreLock = false ∧ s'.dataStore.Represents t ∧ t (msg.key i) = some part ∧
      part.location = .vectorStore ∧ part.data = written msg i ps ∧ part.remaining = 0 := by
  obtain ⟨t, ht, hk⟩ := dst.prepared i hi
  have hb := src.bound_le dst (i := i + 1) hi
  have hsmall := src.small
  have h64 : msg.blockLen i < 2 ^ 64 := by
    unfold FetchMessage.blockLen
    omega
  obtain ⟨ds', part, hends, ht', hw⟩ := pieces_written codec (dst.ready i hi) ht hk
    ((src.piecesFit dst hi).perm hps.symm) h64 (dst.waiting i hi)
  have hsum : (ps.map Piece.size).sum = msg.blockLen i := by
    rw [(hps.map Piece.size).sum_eq, src.sum_piecesFor dst hi]
  refine ⟨_, _, part, hends, (dst.ready i hi).free, ht', PartialMap.set_self _ _ _, hw.location,
    hw.data, ?_⟩
  rw [hw.remaining, hsum]
  exact Nat.sub_self _

theorem readable : Readable src.content src.dv src.state where
  small := src.small
  tiles := src.tiles
  free part hp := src.free _ (src.owned part hp)
  stored part hp _ := src.stored _ (src.owned part hp)

end Source

/-- Every target part holds the bytes of the source in its range. -/
def Delivered (src : Source codec msg) (after : Int → ActorServer) : Prop :=
  ∀ i < msg.npids, (after (msg.pid i)).dataStore.resultVectorStore (msg.key i) =
    some (slice src.content (msg.bound i) (msg.blockLen i))

/-- Every read through the prefetched distribution is a read through the original one. -/
def SameReads (src : Source codec msg) (after : Int → ActorServer) : Prop :=
  ∀ (self : Int) (offset size : Nat) (buf : Bytes), offset + size ≤ src.content.length →
    buf.length = size →
      dvGetPart self after (prefetchedDistribution msg.npids msg) offset size buf =
        dvGetPart self src.state src.dv offset size buf

theorem parts_prefetchedDistribution (src : Source codec msg) (dst : Target msg) :
    (prefetchedDistribution msg.npids msg).parts = (List.range msg.npids).map fun i =>
      ⟨msg.pid i, msg.key i, msg.blockLen i, msg.bound i⟩ := by
  rw [prefetchedDistribution, VectorDistribution.registerPart_all]
  refine List.map_congr_left fun i hi => ?_
  have hi' : i < msg.npids := List.mem_range.mp hi
  have hb := src.bound_le dst (i := i + 1) hi'
  have hmono : msg.bound i ≤ msg.bound (i + 1) := Source.bound_mono (Nat.le_succ i)
  have hsmall := src.small
  simp only [src.divRange_eq_bound dst hi']
  rw [MachineInt.sub64_of_le hmono (by omega)]
  rfl

theorem spans_prefetchedDistribution (src : Source codec msg) (dst : Target msg) :
    Tiles (prefetchedDistribution msg.npids msg).spans src.content.length := by
  rw [VectorDistribution.spans, parts_prefetchedDistribution src dst, List.map_map,
    ← src.dvSize_eq]
  exact blocks_tile dst.pos

theorem part_of_mem (src : Source codec msg) (dst : Target msg) {part : VectorDistributionPart}
    (hp : part ∈ (prefetchedDistribution msg.npids msg).parts) :
    ∃ i < msg.npids, part = ⟨msg.pid i, msg.key i, msg.blockLen i, msg.bound i⟩ := by
  rw [parts_prefetchedDistribution src dst] at hp
  obtain ⟨i, hi, rfl⟩ := List.mem_map.mp hp
  exact ⟨i, List.mem_range.mp hi, rfl⟩

/-- What is known of a target process once its pieces are handled. -/
structure Filled (src : Source codec msg) (i : Nat) (s : ActorServer) : Prop where
  free : s.resultStoreLock = false
  stored : ∃ t part, s.dataStore.Represents t ∧ t (msg.key i) = some part ∧
    part.location = .vectorStore ∧ part.remaining = 0 ∧
    part.data = slice src.content (msg.bound i) (msg.blockLen i)

theorem Filled.delivered {src : Source codec msg} {i : Nat} {s : ActorServer} (h : Filled src i s) :
    s.dataStore.resultVectorStore (msg.key i) =
      some (slice src.content (msg.bound i) (msg.blockLen i)) := by
  obtain ⟨t, part, ht, hk, hloc, -, hdata⟩ := h.stored
  rw [ht.vectors, hk, Option.bind_some, if_pos hloc, hdata]

/-- Filled target processes can be read like the source. -/
theorem readable_of_filled (src : Source codec msg) (dst : Target msg) {after : Int → ActorServer}
    (h : ∀ i < msg.npids, Filled src i (after (msg.pid i))) :
    Readable src.content (prefetchedDistribution msg.npids msg) after where
  small := src.small
  tiles := spans_prefetchedDistribution src dst
  free part hp := by
    obtain ⟨i, hi, rfl⟩ := part_of_mem src dst hp
    exact (h i hi).free
  stored part hp hlt := by
    obtain ⟨i, hi, rfl⟩ := part_of_mem src dst hp
    obtain ⟨t, whole, ht, hk, -, hrem, hdata⟩ := (h i hi).stored
    refine ⟨t, ht, fun part' hp' hpid _ => ?_⟩
    obtain ⟨j, hj, rfl⟩ := part_of_mem src dst hp'
    obtain rfl := FetchMessage.pid_inj dst.nodup hj hi hpid
    have hne : whole.data ≠ [] := by
      intro hnil
      have hb := src.bound_le dst (i := j + 1) hj
      have hlen : (slice src.content (msg.bound j) (msg.blockLen j)).length = msg.blockLen j := by
        rw [length_slice, FetchMessage.blockLen]
        omega
      rw [← hdata, hnil, List.length_nil, FetchMessage.blockLen] at hlen
      have hend : msg.bound j = msg.dvSize :=
        blockBound_eq_of_empty (Nat.le_of_sub_eq_zero hlen.symm)
      have hlt' : msg.bound j < src.content.length := hlt
      rw [hend, src.dvSize_eq] at hlt'
      exact Nat.lt_irrefl _ hlt'
    rw [PartTable.available_of_whole hk hrem hne, hdata]

/-- A prefetch is transparent, whatever the order of its pieces, exactly when the source parts
agree with the target parts that they meet. -/
theorem prefetch_transparent_iff (src : Source codec msg) (dst : Target msg) (sender : Int) :
    (∀ order : List (Int × Input), order.Perm (src.deliveries sender) →
        ∃ after, Act.Ends (Act.side (step codec)) order dst.state after ∧
          Delivered src after ∧ SameReads src after) ↔
      ∀ i < msg.npids, PiecesAgree src.content src.dv (msg.bound i) (msg.bound (i + 1)) := by
  constructor
  · intro h i hi
    refine src.agree_of_written dst hi fun ps hps => ?_
    obtain ⟨order, horder, hown⟩ := Act.exists_perm_inputsTo
      ((hps.map Piece.input).trans (src.inputsTo_deliveries dst sender hi).symm)
    obtain ⟨after, hends, hdelivered, -⟩ := h order horder
    obtain ⟨s', t, part, hends', -, ht, hk, hloc, hdata, -⟩ := src.pieces_handled dst hi hps
    have hone := Act.ends_side_iff.mp hends (msg.pid i)
    rw [hown] at hone
    have hgot := hdelivered i hi
    rw [hone.unique hends', ht.vectors, hk, Option.bind_some, if_pos hloc, hdata,
      Option.some_inj] at hgot
    exact hgot
  · intro h order horder
    have heach : ∀ d, ∃ s', Act.Ends (step codec) (Act.inputsTo d order) (dst.state d) s' ∧
        ∀ i < msg.npids, msg.pid i = d → Filled src i s' := by
      intro d
      by_cases hd : ∃ i < msg.npids, msg.pid i = d
      · obtain ⟨i, hi, rfl⟩ := hd
        obtain ⟨ps, hps, hperm⟩ : Relation.Comp (· = List.map Piece.input ·) List.Perm
            (Act.inputsTo (msg.pid i) order) (src.piecesFor i) := by
          rw [List.eq_map_comp_perm]
          exact (Act.inputsTo_perm _ horder).trans (src.inputsTo_deliveries dst sender hi)
        obtain ⟨s', t, part, hends, hl, ht, hk, hloc, hdata, hrem⟩ :=
          src.pieces_handled dst hi hperm
        refine ⟨s', hps ▸ hends, fun j hj he => ?_⟩
        obtain rfl := FetchMessage.pid_inj dst.nodup hj hi he
        exact ⟨hl, t, part, ht, hk, hloc, hrem,
          hdata.trans (src.written_of_agree dst hi hperm (h j hj))⟩
      · have hne : ∀ i < msg.npids, msg.pid i ≠ d := fun i hi he => hd ⟨i, hi, he⟩
        have hperm := Act.inputsTo_perm d horder
        rw [src.inputsTo_deliveries_of_not_mem dst sender hne] at hperm
        refine ⟨dst.state d, ?_, fun i hi he => absurd he (hne i hi)⟩
        rw [hperm.eq_nil]
        exact Act.ends_nil.mpr rfl
    choose after hends hfilled using heach
    have hall : ∀ i < msg.npids, Filled src i (after (msg.pid i)) :=
      fun i hi => hfilled _ i hi rfl
    refine ⟨after, Act.ends_side_iff.mpr hends, fun i hi => (hall i hi).delivered, ?_⟩
    intro self offset size buf hin hbuf
    rw [dvGetPart_of_readable (readable_of_filled src dst hall) hin hbuf,
      dvGetPart_of_readable src.readable hin hbuf]

/-- Process 1 keeps the vector as one part, which does not agree with both halves. -/
theorem prefetch_transparent_sample :
    (∀ order : List (Int × Input), order.Perm (sampleSource.deliveries 2) →
        ∃ after, Act.Ends (Act.side (step Serialization.ArchiveFormat.sampleFormat.codec)) order
            sampleTarget.state after ∧
          Delivered sampleSource after ∧ SameReads sampleSource after) ↔
      ∀ i < samplePrefetch.npids, PiecesAgree sampleVector sampleSource.dv
        (samplePrefetch.bound i) (samplePrefetch.bound (i + 1)) :=
  prefetch_transparent_iff sampleSource sampleTarget 2

/-- The second target process gets the first twenty bytes instead of the last. -/
theorem prefetch_misplaces :
    ∃ after, Act.Ends (Act.side (step Serialization.ArchiveFormat.sampleFormat.codec))
        (sampleSource.deliveries 2) sampleTarget.state after ∧
      (after 3).dataStore.resultVectorStore 8 = some (slice sampleVector 0 20) ∧
      ¬ Delivered sampleSource after := by
  refine ⟨_, ⟨_, rfl⟩, rfl, fun h => ?_⟩
  have hsecond : some (slice sampleVector 0 20) = some (slice sampleVector 20 20) :=
    h 1 (by decide)
  exact absurd hsecond (by decide)

end ActiveBsp.Prefetch
