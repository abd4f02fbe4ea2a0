import ActiveBsp.Mpi.Requests
import ActiveBsp.Mpi.SharedReads

/-!
# Reads of a distributed vector

A read fills the client's buffer with pieces: each reply is what the vector has
at the place where the client puts it, and every position gets a reply.
-/
namespace ActiveBsp.MPIActorCommunicator

open Library Library.Buffer Library.MachineInt Library.Tiling ActorServer

set_option autoImplicit false

/-- The computation writes, for every request, what the target has there, and nothing else. -/
def Fills (target : Bytes) (reqs : List ResultReqPart) (x : Bytes → Except Fault Bytes) : Prop :=
  ∀ buf, buf.length = target.length → ∃ ws, x buf = .ok (applyWrites buf ws) ∧
    (∀ w ∈ ws, w.Agrees target) ∧ ∀ r ∈ reqs, ∃ w ∈ ws, w.pos = r.dst ∧ w.data.length = r.size

variable {target : Bytes}

theorem Fills.bind {reqs reqs' : List ResultReqPart} {x y : Bytes → Except Fault Bytes}
    (hx : Fills target reqs x) (hy : Fills target reqs' y) :
    Fills target (reqs ++ reqs') fun buf => x buf >>= y := by
  intro buf hbuf
  obtain ⟨ws, hws, hagree, hall⟩ := hx buf hbuf
  have hlen : (applyWrites buf ws).length = target.length := by
    rw [length_applyWrites fun w hw => hbuf.symm ▸ (hagree w hw).1, hbuf]
  obtain ⟨ws', hws', hagree', hall'⟩ := hy _ hlen
  refine ⟨ws ++ ws', ?_, ?_, ?_⟩
  · show x buf >>= y = _
    rw [hws, applyWrites_append]
    exact hws'
  · intro w hw
    rcases List.mem_append.mp hw with hw | hw
    · exact hagree w hw
    · exact hagree' w hw
  · intro r hr
    rcases List.mem_append.mp hr with hr | hr
    · obtain ⟨w, hw, h⟩ := hall r hr
      exact ⟨w, List.mem_append_left _ hw, h⟩
    · obtain ⟨w, hw, h⟩ := hall' r hr
      exact ⟨w, List.mem_append_right _ hw, h⟩

theorem Fills.foldlM {γ : Type} {f : Bytes → γ → Except Fault Bytes} {g : γ → List ResultReqPart}
    {xs : List γ} (h : ∀ x ∈ xs, Fills target (g x) fun buf => f buf x) :
    Fills target (xs.flatMap g) fun buf => xs.foldlM f buf := by
  induction xs with
  | nil => exact fun buf _ => ⟨[], rfl, by simp, by simp⟩
  | cons x xs ih =>
    have hrest := ih fun y hy => h y (List.mem_cons_of_mem x hy)
    simpa only [List.foldlM_cons, List.flatMap_cons] using (h x List.mem_cons_self).bind hrest

/-- Requests that reach every position leave the target. -/
theorem Fills.eq_target {reqs : List ResultReqPart} {x : Bytes → Except Fault Bytes} {buf : Bytes}
    (h : Fills target reqs x) (hbuf : buf.length = target.length)
    (hcover : ∀ i < target.length, ∃ r ∈ reqs, r.dst ≤ i ∧ i < r.dst + r.size) :
    x buf = .ok target := by
  obtain ⟨ws, hws, hagree, hall⟩ := h buf hbuf
  rw [hws, applyWrites_eq_of_cover hbuf hagree fun i hi => ?_]
  obtain ⟨r, hr, hle, hlt⟩ := hcover i hi
  obtain ⟨w, hw, hpos, hlen⟩ := hall r hr
  refine ⟨w, hw, hpos ▸ hle, ?_⟩
  rw [Write.stop, hpos, hlen]
  exact hlt

/-- Every process keeps its parts of the vector, and answers. -/
structure Readable (content : Bytes) (dv : VectorDistribution) (servers : Int → ActorServer) :
    Prop where
  small : content.length < 2 ^ 31
  tiles : Tiles dv.spans content.length
  free : ∀ part ∈ dv.parts, (servers part.pid).resultStoreLock = false
  stored : ∀ part ∈ dv.parts, part.offset < content.length →
    ∃ t, (servers part.pid).dataStore.Represents t ∧ ∀ part' ∈ dv.parts, part'.pid = part.pid →
      part'.offset < content.length →
        t.available part'.resid = some (slice content part'.offset part'.size)

namespace Readable

variable {content : Bytes} {dv : VectorDistribution} {servers : Int → ActorServer}
  {offset size : Nat} {part : VectorDistributionPart}

theorem part_le (h : Readable content dv servers) (hp : part ∈ dv.parts) :
    part.offset + part.size ≤ content.length :=
  h.tiles.bounded part.span (List.mem_map_of_mem hp)

theorem requests_iff (h : Readable content dv servers) (hp : part ∈ dv.parts) (reqEnd : Nat) :
    Requests part offset reqEnd ↔ part.span.Meets offset reqEnd :=
  meets_iff ((h.part_le hp).trans_lt (h.small.trans (by norm_num)))

/-- A request lies inside its part, and its bytes are those of the range at its place. -/
structure Placed (content : Bytes) (offset size : Nat) (part : VectorDistributionPart)
    (r : ResultReqPart) : Prop where
  resid : r.resid = part.resid
  inside : r.offset + r.size ≤ part.size
  placed : r.dst + r.size ≤ size
  aligned : part.offset + r.offset = offset + r.dst
  small : part.size < 2 ^ 31
  stored : part.offset < content.length
  dst_eq : r.dst = max part.offset offset - offset
  size_eq : r.size = part.span.overlap offset (offset + size)

theorem placed (h : Readable content dv servers) (hin : offset + size ≤ content.length)
    (hp : part ∈ dv.parts) (hr : Requests part offset (offset + size)) :
    Placed content offset size part (reqPart part offset (offset + size)) := by
  have hsmall := h.small
  have hle := h.part_le hp
  have hstored : part.offset < offset + size := ((h.requests_iff hp _).mp hr).2
  obtain ⟨hresid, hinside, hplaced, haligned, hdst, hsize⟩ :=
    exact_of_requests (by omega) (by omega) hr
  exact ⟨hresid, hinside, hplaced, haligned, by omega, by omega, hdst, hsize⟩

/-- What the owner of the part sends for the request is what the range has there. -/
theorem Placed.slice_eq {r : ResultReqPart} (h : Placed content offset size part r) :
    slice (slice content part.offset part.size) r.offset r.size =
      slice (slice content offset size) r.dst r.size := by
  rw [slice_slice content h.inside, slice_slice content h.placed, h.aligned]

theorem Placed.agrees {r : ResultReqPart} (h : Placed content offset size part r)
    (hin : offset + size ≤ content.length) :
    (Write.mk r.dst (slice (slice content offset size) r.dst r.size)).Agrees
        (slice content offset size) ∧
      (slice (slice content offset size) r.dst r.size).length = r.size := by
  have hlen : (slice content offset size).length = size := length_slice_of_le hin
  have hdata : (slice (slice content offset size) r.dst r.size).length = r.size :=
    length_slice_of_le (hlen.symm ▸ h.placed)
  refine ⟨⟨?_, ?_⟩, hdata⟩
  · rw [Write.stop, hdata, hlen]
    exact h.placed
  · rw [hdata]

/-- A part of this process is copied. -/
theorem readLocal_fills {ds : DataStore} {t : PartTable} {r : ResultReqPart}
    (hin : offset + size ≤ content.length) (hr : Placed content offset size part r)
    (ht : ds.Represents t)
    (hav : t.available part.resid = some (slice content part.offset part.size))
    (hlen : (slice content part.offset part.size).length = part.size) :
    Fills (slice content offset size) [r] fun buf => readLocal ds buf r := by
  intro buf hbuf
  obtain ⟨hagree, hdata⟩ := hr.agrees hin
  have hsize : r.size < 2 ^ 31 := by
    have := hr.inside
    have := hr.small
    omega
  have hread : readLocal ds buf r =
      .ok (splice buf r.dst (slice (slice content offset size) r.dst r.size)) := by
    have hget : ds.getPartData r.resid = .ok (some (slice content part.offset part.size),
        (slice content part.offset part.size).length) := by
      rw [DataStore.getPartData_of_represents ht, hr.resid, PartTable.get_of_available hav]
    have hsmall := hr.small
    have hinside := hr.inside
    rw [readLocal_of_withinInt hget (by omega) (by omega) hsize (Or.inr (Or.inl (by omega))),
      hr.slice_eq]
  refine ⟨[⟨r.dst, slice (slice content offset size) r.dst r.size⟩], hread, ?_, ?_⟩
  · intro w hw
    rw [List.mem_singleton.mp hw]
    exact hagree
  · intro r' hr'
    rw [List.mem_singleton.mp hr']
    exact ⟨_, List.mem_singleton_self _, rfl, hdata⟩

/-- A part of another process is requested, and its reply received. -/
theorem readRemote_fills {self : Int} {e : Int × List ResultReqPart} {t : PartTable}
    (hin : offset + size ≤ content.length) (hl : (servers e.1).resultStoreLock = false)
    (ht : (servers e.1).dataStore.Represents t)
    (hreq : ∀ r ∈ e.2, ∃ part, Placed content offset size part r ∧
      t.available part.resid = some (slice content part.offset part.size) ∧
      (slice content part.offset part.size).length = part.size) :
    Fills (slice content offset size) e.2 fun buf => readRemote self servers buf e := by
  intro buf hbuf
  have hrange : ∀ r ∈ e.2, InRange t r := by
    intro r hr
    obtain ⟨part, hp, hav, hlen⟩ := hreq r hr
    have h1 := hp.inside
    have h2 := hp.small
    refine ⟨by omega, fun data hdata => ?_⟩
    rw [hp.resid, hav, Option.some_inj] at hdata
    rw [← hdata, hlen]
    omega
  have hreplies : e.2.filterMap (answer t self) = e.2.map fun r =>
      .resultPart self (slice (slice content offset size) r.dst r.size) := by
    rw [← List.filterMap_eq_map]
    refine List.filterMap_congr fun r hr => ?_
    obtain ⟨part, hp, hav, -⟩ := hreq r hr
    rw [answer, hp.resid, hav, Option.map_some, hp.slice_eq]
    rfl
  have hdata : repliesTo self ((e.2.map fun r =>
      Output.resultPart self (slice (slice content offset size) r.dst r.size))) =
      e.2.map fun r => slice (slice content offset size) r.dst r.size := by
    rw [repliesTo, List.filterMap_map, ← List.filterMap_eq_map]
    refine List.filterMap_congr fun r _ => ?_
    simp [replyTo]
  have hread : readRemote self servers buf e = .ok (receiveParts buf e.2
      (e.2.map fun r => slice (slice content offset size) r.dst r.size)) := by
    unfold readRemote
    rw [handleGetResultPartsMessage_eq hl ht hrange]
    simp only [hreplies, hdata, List.length_map, Nat.lt_irrefl, if_false]
  refine ⟨e.2.map fun r => ⟨r.dst, slice (slice content offset size) r.dst r.size⟩, ?_, ?_, ?_⟩
  · show readRemote self servers buf e = _
    rw [hread, receiveParts, ← List.map_prod_left_eq_zip, List.map_map]
    rfl
  · intro w hw
    obtain ⟨r, hr, rfl⟩ := List.mem_map.mp hw
    obtain ⟨part, hp, -, -⟩ := hreq r hr
    exact (hp.agrees hin).1
  · intro r hr
    obtain ⟨part, hp, -, -⟩ := hreq r hr
    exact ⟨_, List.mem_map_of_mem hr, rfl, (hp.agrees hin).2⟩

/-- Every position of the range is in a request. -/
theorem covered (h : Readable content dv servers) (hin : offset + size ≤ content.length) {i : Nat}
    (hi : i < size) : ∃ part ∈ dv.parts, Requests part offset (offset + size) ∧
      max part.offset offset - offset ≤ i ∧
      i < max part.offset offset - offset + part.span.overlap offset (offset + size) := by
  obtain ⟨r, hr, hc⟩ := h.tiles.exists_covers (x := offset + i) (by omega)
  obtain ⟨part, hp, rfl⟩ := List.mem_map.mp hr
  have hlo : part.offset ≤ offset + i := hc.1
  have hhi : offset + i < part.offset + part.size := hc.2
  have hov : part.span.overlap offset (offset + size) =
      min (part.offset + part.size) (offset + size) - max part.offset offset := rfl
  refine ⟨part, hp, (h.requests_iff hp _).mpr (hc.meets (by omega) (by omega)), ?_, ?_⟩
  · omega
  · omega

end Readable

/-- A read of a range of a stored vector fills the buffer with that range. -/
theorem dvGetPart_of_readable {content : Bytes} {dv : VectorDistribution}
    {servers : Int → ActorServer} (h : Readable content dv servers) {self : Int}
    {offset size : Nat} {buf : Bytes} (hin : offset + size ≤ content.length)
    (hbuf : buf.length = size) :
    dvGetPart self servers dv offset size buf = .ok (slice content offset size) := by
  have hlen : (slice content offset size).length = size := length_slice_of_le hin
  have hend : add64 offset size = offset + size :=
    add64_of_lt (hin.trans_lt (h.small.trans (by norm_num)))
  have hpart : ∀ part ∈ dv.parts, Requests part offset (offset + size) →
      Readable.Placed content offset size part (reqPart part offset (offset + size)) ∧
        (slice content part.offset part.size).length = part.size := fun part hp hr =>
    ⟨h.placed hin hp hr, length_slice_of_le (h.part_le hp)⟩
  have hlocal : Fills (slice content offset size)
      ((partRequests self dv offset size).localReads.flatMap fun r => [r])
      fun buf => (partRequests self dv offset size).localReads.foldlM
        (readLocal (servers self).dataStore) buf := by
    refine Fills.foldlM fun r hr => ?_
    obtain ⟨part, hp, hreq, hself, rfl⟩ := mem_localReads.mp hr
    rw [hend] at hreq ⊢
    obtain ⟨hplaced, hsize⟩ := hpart part hp hreq
    obtain ⟨t, ht, hav⟩ := h.stored part hp hplaced.stored
    rw [hself] at ht
    exact Readable.readLocal_fills hin hplaced ht (hav part hp rfl hplaced.stored) hsize
  have hremote : Fills (slice content offset size)
      ((partRequests self dv offset size).reqs.flatMap Prod.snd)
      fun buf => (partRequests self dv offset size).reqs.foldlM (readRemote self servers) buf := by
    refine Fills.foldlM fun e he => ?_
    have hreq : ∀ r ∈ e.2, ∃ part ∈ dv.parts, part.pid = e.1 ∧
        Readable.Placed content offset size part r ∧
        (slice content part.offset part.size).length = part.size := by
      intro r hr
      obtain ⟨part, hp, hreq, -, hpid, rfl⟩ := mem_reqs.mp ⟨e, he, rfl, hr⟩
      rw [hend] at hreq ⊢
      obtain ⟨hplaced, hsize⟩ := hpart part hp hreq
      exact ⟨part, hp, hpid, hplaced, hsize⟩
    rcases List.eq_nil_or_concat e.2 with hnil | ⟨rs, r, hrs⟩
    · exact absurd hnil (reqs_ne_nil he)
    · obtain ⟨part, hp, hpid, hplaced, -⟩ := hreq r (by simp [hrs])
      obtain ⟨t, ht, hav⟩ := h.stored part hp hplaced.stored
      have hl := h.free part hp
      rw [hpid] at ht hl hav
      refine Readable.readRemote_fills hin hl ht fun r hr => ?_
      obtain ⟨part', hp', hpid', hplaced', hsize'⟩ := hreq r hr
      exact ⟨part', hplaced', hav part' hp' hpid' hplaced'.stored, hsize'⟩
  refine (hlocal.bind hremote).eq_target (hbuf.trans hlen.symm) fun i hi => ?_
  rw [hlen] at hi
  obtain ⟨part, hp, hreq, hle, hlt⟩ := h.covered hin hi
  obtain ⟨hplaced, -⟩ := hpart part hp hreq
  refine ⟨reqPart part offset (offset + size), ?_, ?_, ?_⟩
  · by_cases hself : part.pid = self
    · refine List.mem_append_left _ (List.mem_flatMap.mpr ⟨_, mem_localReads.mpr
        ⟨part, hp, ?_, hself, ?_⟩, List.mem_singleton_self _⟩)
      · rw [hend]
        exact hreq
      · rw [hend]
    · obtain ⟨e, he, -, hmem⟩ := mem_reqs.mpr
        ⟨part, hp, by rw [hend]; exact hreq, hself, rfl, rfl⟩
      rw [hend] at hmem
      exact List.mem_append_right _ (List.mem_flatMap.mpr ⟨e, he, hmem⟩)
  · rw [hplaced.dst_eq]
    exact hle
  · rw [hplaced.dst_eq, hplaced.size_eq]
    exact hlt

end ActiveBsp.MPIActorCommunicator
