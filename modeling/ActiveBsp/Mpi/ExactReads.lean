import ActiveBsp.Mpi.Requests

/-!
# How a read is split

The copies of a read lie one beside the other in the client's buffer, each from
the right place of its part, and the receives for one process stand in the order
in which its message lists them. The wait at the end takes the address of the
first request, also when there is none.
-/
namespace ActiveBsp.MPIActorCommunicator

open Library Library.MachineInt Library.Tiling ActorServer

set_option autoImplicit false

variable {self : Int} {dv : VectorDistribution} {offset size : Nat}

/-- Parts whose ranges share no byte, around all of the range to read; no end wraps. -/
structure Splittable (dv : VectorDistribution) (offset size : Nat) : Prop where
  apart : Apart dv.spans
  ends : ∀ part ∈ dv.parts, part.offset + part.size < 2 ^ 64
  reqEnd : offset + size < 2 ^ 64
  covers : ∀ x, offset ≤ x → x < offset + size → ∃ r ∈ dv.spans, r.Covers x

/-- None of the subtractions in `size_t` or from the destination falls below zero. The one from
`offset` stands behind its own test. -/
structure NoWrap (part : VectorDistributionPart) (offset reqEnd : Nat) : Prop where
  rest : part.offset ≤ reqEnd
  size : (subPart part offset reqEnd).1 ≤ min part.size (reqEnd - part.offset)
  dst : offset ≤ (subPart part offset reqEnd).1 + part.offset

/-- The messages that go to a process. -/
def sentTo (s : Int) (calls : List Posted) : List GetResultPartsMessage :=
  calls.filterMap fun
    | .isend dst msg _ => if dst = s then some msg else none
    | _ => none

/-- Destination and count of the receives from a process. -/
def receivesFrom (s : Int) (calls : List Posted) : List (Nat × Int) :=
  calls.filterMap fun
    | .irecv dst count src _ => if src = s then some (dst, count) else none
    | _ => none

/-- A read is split exactly: each byte of the buffer is in one copy and none beside it; a copy
takes the bytes of one part that the range has there; each place in `_reqs_buf` exists; and the
receives from a process are those that its one message lists, in its order. -/
structure SplitsExactly (self : Int) (dv : VectorDistribution) (offset size : Nat) : Prop where
  once : ∀ x < size, (subCopies self (partRequests self dv offset size)).countP
    (fun copy => decide (copy.2.dst ≤ x ∧ x < copy.2.dst + copy.2.size)) = 1
  inside : ∀ copy ∈ subCopies self (partRequests self dv offset size),
    copy.2.dst + copy.2.size ≤ size
  source : ∀ copy ∈ subCopies self (partRequests self dv offset size), ∃ part ∈ dv.parts,
    part.pid = copy.1 ∧ part.resid = copy.2.resid ∧ copy.2.offset + copy.2.size ≤ part.size ∧
      part.offset + copy.2.offset = offset + copy.2.dst
  noWrap : ∀ part ∈ dv.parts, Requests part offset (add64 offset size) →
    NoWrap part offset (add64 offset size)
  indexed : ∀ call ∈ posted self (partRequests self dv offset size).reqs,
    call.ireq < reqsBufSize self dv offset size
  /-- The counters are `int`s, like the size of the distribution's buffer. -/
  counted : Serialization.getBufSize dv < 2 ^ 31 → reqsBufSize self dv offset size < 2 ^ 31
  ordered : ∀ s, (sentTo s (posted self (partRequests self dv offset size).reqs)).length ≤ 1 ∧
    receivesFrom s (posted self (partRequests self dv offset size).reqs) =
      (sentTo s (posted self (partRequests self dv offset size).reqs)).flatMap fun msg =>
        msg.parts.map fun r => (r.dst, toInt32 r.size)

namespace Splittable

variable (h : Splittable dv offset size)
include h

theorem add64_eq : add64 offset size = offset + size := add64_of_lt h.reqEnd

theorem exact_copy {copy : Int × ResultReqPart}
    (hc : copy ∈ subCopies self (partRequests self dv offset size)) :
    ∃ part ∈ dv.parts, part.pid = copy.1 ∧ Exact offset size part copy.2 := by
  have hmem := (subCopies_perm self dv offset size).mem_iff.mp hc
  obtain ⟨part, hfilter, rfl⟩ := List.mem_map.mp hmem
  obtain ⟨hp, hr⟩ := List.mem_filter.mp hfilter
  rw [h.add64_eq] at hr
  refine ⟨part, hp, rfl, ?_⟩
  show Exact offset size part (reqPart part offset (add64 offset size))
  rw [h.add64_eq]
  exact exact_of_requests (h.ends part hp) h.reqEnd (of_decide_eq_true hr)

/-- A position of the buffer is in the copy of a part exactly when the part has the byte. -/
theorem covers_iff {part : VectorDistributionPart} (hp : part ∈ dv.parts) {x : Nat} (hx : x < size) :
    (Requests part offset (offset + size) ∧
      (reqPart part offset (offset + size)).dst ≤ x ∧
        x < (reqPart part offset (offset + size)).dst + (reqPart part offset (offset + size)).size) ↔
      part.span.Covers (offset + x) := by
  have hmeets : Requests part offset (offset + size) ↔ part.span.Meets offset (offset + size) :=
    meets_iff (h.ends part hp)
  have hcovers : part.span.Covers (offset + x) ↔
      part.offset ≤ offset + x ∧ offset + x < part.offset + part.size := Iff.rfl
  constructor
  · rintro ⟨hr, hle, hlt⟩
    have hexact := exact_of_requests (h.ends part hp) h.reqEnd hr
    have hinside := hexact.inside
    have haligned := hexact.aligned
    rw [hcovers]
    omega
  · intro hc
    have hr : Requests part offset (offset + size) :=
      hmeets.mpr (hc.meets (by omega) (by omega))
    have hexact := exact_of_requests (h.ends part hp) h.reqEnd hr
    have hov : part.span.overlap offset (offset + size) =
        min (part.offset + part.size) (offset + size) - max part.offset offset := rfl
    rw [hcovers] at hc
    refine ⟨hr, ?_, ?_⟩
    · rw [hexact.dst_eq]
      omega
    · rw [hexact.dst_eq, hexact.size_eq]
      omega

/-- Every position of the buffer is in exactly one copy. -/
theorem once {x : Nat} (hx : x < size) :
    (subCopies self (partRequests self dv offset size)).countP
      (fun copy => decide (copy.2.dst ≤ x ∧ x < copy.2.dst + copy.2.size)) = 1 := by
  have hspans : dv.parts.countP (fun part => decide (part.span.Covers (offset + x))) = 1 := by
    have hapart := h.apart.countP (offset + x)
    rw [if_pos (h.covers (offset + x) (by omega) (by omega)), VectorDistribution.spans,
      List.countP_map] at hapart
    exact hapart
  rw [(subCopies_perm self dv offset size).countP_eq, h.add64_eq, List.countP_map, List.countP_filter,
    ← hspans]
  refine List.countP_congr fun part hp => ?_
  have hiff := h.covers_iff hp hx
  simp only [Function.comp_apply, Bool.and_eq_true, decide_eq_true_eq]
  exact and_comm.trans hiff

theorem noWrap {part : VectorDistributionPart} (hp : part ∈ dv.parts)
    (hr : Requests part offset (add64 offset size)) : NoWrap part offset (add64 offset size) := by
  rw [h.add64_eq] at hr ⊢
  have hm := (meets_iff (h.ends part hp)).mp hr
  have hsub := subPart_of_meets hm (Nat.le_add_right offset size) h.reqEnd
  obtain ⟨h1, h2⟩ := hm
  have hstop : offset < part.offset + part.size := h1
  have hoff : part.offset < offset + size := h2
  refine ⟨by omega, ?_, ?_⟩
  · rw [hsub]
    dsimp only
    omega
  · rw [hsub]
    dsimp only
    omega

end Splittable

theorem length_pushBack (pid : Int) (r : ResultReqPart) (reqs : List (Int × List ResultReqPart)) :
    ((pushBack pid r reqs).flatMap Prod.snd).length = (reqs.flatMap Prod.snd).length + 1 := by
  have hlen : ∀ reqs : List (Int × List ResultReqPart),
      (reqs.flatMap fun e => e.2.map fun r => (e.1, r)).length = (reqs.flatMap Prod.snd).length := by
    intro reqs
    simp only [List.length_flatMap, List.length_map]
  rw [← hlen, ← hlen, (flatMap_pushBack pid r reqs).length_eq, List.length_cons]

/-- The counter counts the requests. -/
theorem reqsBufSize_eq (self : Int) (dv : VectorDistribution) (offset size : Nat) :
    reqsBufSize self dv offset size =
      (partRequests self dv offset size).reqs.length +
        ((partRequests self dv offset size).reqs.flatMap Prod.snd).length := by
  have hfold : ∀ (parts : List VectorDistributionPart) (acc : PartRequests),
      parts.foldl (countRequest self offset (add64 offset size)) (acc.reqs.flatMap Prod.snd).length =
        ((parts.foldl (selectPart self offset (add64 offset size)) acc).reqs.flatMap Prod.snd).length := by
    intro parts
    induction parts with
    | nil => exact fun _ => rfl
    | cons part parts ih =>
      intro acc
      rw [List.foldl_cons, List.foldl_cons, ← ih]
      congr 1
      unfold countRequest selectPart
      by_cases hr : Requests part offset (add64 offset size)
      · rw [if_neg (not_not.mpr hr), if_neg (not_not.mpr hr)]
        by_cases hself : part.pid = self
        · rw [if_pos hself, if_pos hself]
        · rw [if_neg hself, if_neg hself]
          exact (length_pushBack _ _ _).symm
      · rw [if_pos hr, if_pos hr]
  rw [reqsBufSize, Nat.add_comm]
  congr 1
  exact hfold dv.parts {}

/-- There are at most two places for each part. -/
theorem reqsBufSize_le (self : Int) (dv : VectorDistribution) (offset size : Nat) :
    reqsBufSize self dv offset size ≤ 2 * dv.nparts := by
  have hcount : ∀ (parts : List VectorDistributionPart) (n : Nat),
      parts.foldl (countRequest self offset (add64 offset size)) n ≤ n + parts.length := by
    intro parts
    induction parts with
    | nil => exact fun n => le_refl n
    | cons part parts ih =>
      intro n
      have hstep : countRequest self offset (add64 offset size) n part ≤ n + 1 := by
        unfold countRequest
        split_ifs <;> omega
      have hrest := ih (countRequest self offset (add64 offset size) n part)
      rw [List.foldl_cons, List.length_cons]
      omega
  have hlength : ∀ reqs : List (Int × List ResultReqPart), (∀ e ∈ reqs, e.2 ≠ []) →
      reqs.length ≤ (reqs.flatMap Prod.snd).length := by
    intro reqs hne
    induction reqs with
    | nil => exact le_refl 0
    | cons e reqs ih =>
      have hfirst := List.length_pos_iff.mpr (hne e List.mem_cons_self)
      have hrest := ih fun e' he' => hne e' (List.mem_cons_of_mem e he')
      rw [List.flatMap_cons, List.length_append, List.length_cons]
      omega
  have hall : dv.parts.foldl (countRequest self offset (add64 offset size)) 0 ≤ dv.nparts := by
    simpa [VectorDistribution.nparts] using hcount dv.parts 0
  have hreqs := hlength (partRequests self dv offset size).reqs fun e he => reqs_ne_nil he
  have htotal := reqsBufSize_eq self dv offset size
  rw [reqsBufSize] at htotal ⊢
  omega

theorem ireq_postSends {self : Int} {reqs : List (Int × List ResultReqPart)} {ireqs : Nat}
    {call : Posted} (hc : call ∈ postSends self ireqs reqs) : call.ireq < ireqs + reqs.length := by
  induction reqs generalizing ireqs with
  | nil => cases hc
  | cons e reqs ih =>
    rw [List.length_cons]
    rcases List.mem_cons.mp hc with rfl | hrest
    · show ireqs < ireqs + (reqs.length + 1)
      omega
    · have := ih hrest
      omega

theorem ireq_postReceivesFrom {s : Int} {parts : List ResultReqPart} {ireqs : Nat} {call : Posted}
    (hc : call ∈ postReceivesFrom s ireqs parts) : call.ireq < ireqs + parts.length := by
  induction parts generalizing ireqs with
  | nil => cases hc
  | cons part parts ih =>
    rw [List.length_cons]
    rcases List.mem_cons.mp hc with rfl | hrest
    · show ireqs < ireqs + (parts.length + 1)
      omega
    · have := ih hrest
      omega

theorem ireq_postReceives {reqs : List (Int × List ResultReqPart)} {ireqs : Nat} {call : Posted}
    (hc : call ∈ postReceives ireqs reqs) :
    call.ireq < ireqs + (reqs.flatMap Prod.snd).length := by
  induction reqs generalizing ireqs with
  | nil => cases hc
  | cons e reqs ih =>
    rw [List.flatMap_cons, List.length_append]
    rcases List.mem_append.mp hc with hfirst | hrest
    · have := ireq_postReceivesFrom hfirst
      omega
    · have := ih hrest
      omega

/-- Every place exists, but for the one that the wait names when there is no request at all. -/
theorem indexed_iff (self : Int) (dv : VectorDistribution) (offset size : Nat) :
    (∀ call ∈ posted self (partRequests self dv offset size).reqs,
        call.ireq < reqsBufSize self dv offset size) ↔
      ∃ part ∈ dv.parts, Requests part offset (add64 offset size) ∧ part.pid ≠ self := by
  have hremote : (partRequests self dv offset size).reqs ≠ [] ↔
      ∃ part ∈ dv.parts, Requests part offset (add64 offset size) ∧ part.pid ≠ self := by
    constructor
    · intro hne
      obtain ⟨e, he⟩ := List.exists_mem_of_ne_nil _ hne
      obtain ⟨r, hr⟩ := List.exists_mem_of_ne_nil _ (reqs_ne_nil he)
      obtain ⟨part, hp, hreq, hself, -⟩ := mem_reqs.mp ⟨e, he, rfl, hr⟩
      exact ⟨part, hp, hreq, hself⟩
    · rintro ⟨part, hp, hreq, hself⟩
      obtain ⟨e, he, -⟩ := mem_reqs.mpr ⟨part, hp, hreq, hself, rfl, rfl⟩
      exact List.ne_nil_of_mem he
  rw [← hremote, reqsBufSize_eq, ← List.length_pos_iff]
  constructor
  · intro hall
    have hwait := hall _ (List.mem_append_right _ (List.mem_singleton_self _))
    by_contra hnone
    have hnil : (partRequests self dv offset size).reqs = [] :=
      List.eq_nil_of_length_eq_zero (by omega)
    rw [hnil] at hwait
    exact absurd hwait (Nat.lt_irrefl 0)
  · intro hpos call hc
    rcases List.mem_append.mp hc with hposted | hwait
    · rcases List.mem_append.mp hposted with hsend | hrecv
      · have := ireq_postSends hsend
        omega
      · have := ireq_postReceives hrecv
        omega
    · rw [List.mem_singleton.mp hwait]
      show 0 < _
      omega

theorem keys_pushBack {pid : Int} {r : ResultReqPart} {reqs : List (Int × List ResultReqPart)}
    {key : Int} (hk : key ∈ (pushBack pid r reqs).map Prod.fst) :
    key = pid ∨ key ∈ reqs.map Prod.fst := by
  induction reqs with
  | nil => exact Or.inl (List.mem_singleton.mp hk)
  | cons e reqs ih =>
    obtain ⟨key', parts⟩ := e
    unfold pushBack at hk
    split_ifs at hk with hlt heq
    · exact List.mem_cons.mp hk
    · exact Or.inr hk
    · rcases List.mem_cons.mp hk with rfl | hrest
      · exact Or.inr List.mem_cons_self
      · exact (ih hrest).imp_right (List.mem_cons_of_mem key')

theorem sorted_pushBack {pid : Int} {r : ResultReqPart} {reqs : List (Int × List ResultReqPart)}
    (h : (reqs.map Prod.fst).Pairwise (· < ·)) :
    ((pushBack pid r reqs).map Prod.fst).Pairwise (· < ·) := by
  induction reqs with
  | nil => exact List.pairwise_singleton _ _
  | cons e reqs ih =>
    obtain ⟨key, parts⟩ := e
    obtain ⟨hfirst, hrest⟩ := List.pairwise_cons.mp h
    unfold pushBack
    split_ifs with hlt heq
    · refine List.pairwise_cons.mpr ⟨fun k hk => ?_, h⟩
      rcases List.mem_cons.mp hk with rfl | hmem
      · exact hlt
      · exact lt_trans hlt (hfirst k hmem)
    · exact h
    · refine List.pairwise_cons.mpr ⟨fun k hk => ?_, ih hrest⟩
      rcases keys_pushBack hk with rfl | hmem
      · show key < k
        omega
      · exact hfirst k hmem

/-- Each process gets one message at most. -/
theorem sorted_reqs (self : Int) (dv : VectorDistribution) (offset size : Nat) :
    ((partRequests self dv offset size).reqs.map Prod.fst).Pairwise (· < ·) := by
  have hfold : ∀ (parts : List VectorDistributionPart) (acc : PartRequests),
      (acc.reqs.map Prod.fst).Pairwise (· < ·) →
        ((parts.foldl (selectPart self offset (add64 offset size)) acc).reqs.map
          Prod.fst).Pairwise (· < ·) := by
    intro parts
    induction parts with
    | nil => exact fun _ h => h
    | cons part parts ih =>
      intro acc h
      refine ih _ ?_
      unfold selectPart
      split_ifs
      · exact h
      · exact sorted_pushBack h
      · exact h
  exact hfold dv.parts {} List.Pairwise.nil

section Calls

variable (s : Int)

theorem sentTo_append (calls calls' : List Posted) :
    sentTo s (calls ++ calls') = sentTo s calls ++ sentTo s calls' := List.filterMap_append

theorem receivesFrom_append (calls calls' : List Posted) :
    receivesFrom s (calls ++ calls') = receivesFrom s calls ++ receivesFrom s calls' :=
  List.filterMap_append

theorem sentTo_postSends (self : Int) (reqs : List (Int × List ResultReqPart)) (ireqs : Nat) :
    sentTo s (postSends self ireqs reqs) =
      (reqs.filter fun e => e.1 = s).map fun e => ⟨self, e.2⟩ := by
  induction reqs generalizing ireqs with
  | nil => rfl
  | cons e reqs ih =>
    by_cases hs : e.1 = s
    · rw [List.filter_cons, if_pos (decide_eq_true hs), List.map_cons, ← ih (ireqs + 1)]
      simp [sentTo, postSends, hs]
    · rw [List.filter_cons, if_neg (by simpa using hs), ← ih (ireqs + 1)]
      simp [sentTo, postSends, hs]

theorem receivesFrom_postSends (self : Int) (reqs : List (Int × List ResultReqPart)) (ireqs : Nat) :
    receivesFrom s (postSends self ireqs reqs) = [] := by
  induction reqs generalizing ireqs with
  | nil => rfl
  | cons e reqs ih => exact ih (ireqs + 1)

theorem sentTo_postReceivesFrom (src : Int) (parts : List ResultReqPart) (ireqs : Nat) :
    sentTo s (postReceivesFrom src ireqs parts) = [] := by
  induction parts generalizing ireqs with
  | nil => rfl
  | cons part parts ih => exact ih (ireqs + 1)

theorem receivesFrom_postReceivesFrom (src : Int) (parts : List ResultReqPart) (ireqs : Nat) :
    receivesFrom s (postReceivesFrom src ireqs parts) =
      if src = s then parts.map (fun r => (r.dst, toInt32 r.size)) else [] := by
  induction parts generalizing ireqs with
  | nil => exact (ite_self _).symm
  | cons part parts ih =>
    have hrest := ih (ireqs + 1)
    by_cases hs : src = s
    · rw [if_pos hs] at hrest ⊢
      rw [List.map_cons, ← hrest]
      simp [receivesFrom, postReceivesFrom, hs]
    · rw [if_neg hs] at hrest ⊢
      rw [← hrest]
      simp [receivesFrom, postReceivesFrom, hs]

theorem sentTo_postReceives (reqs : List (Int × List ResultReqPart)) (ireqs : Nat) :
    sentTo s (postReceives ireqs reqs) = [] := by
  induction reqs generalizing ireqs with
  | nil => rfl
  | cons e reqs ih =>
    rw [postReceives, sentTo_append, sentTo_postReceivesFrom, ih, List.nil_append]

theorem receivesFrom_postReceives (reqs : List (Int × List ResultReqPart)) (ireqs : Nat) :
    receivesFrom s (postReceives ireqs reqs) =
      (reqs.filter fun e => e.1 = s).flatMap fun e => e.2.map fun r => (r.dst, toInt32 r.size) := by
  induction reqs generalizing ireqs with
  | nil => rfl
  | cons e reqs ih =>
    rw [postReceives, receivesFrom_append, receivesFrom_postReceivesFrom, ih, List.filter_cons]
    by_cases hs : e.1 = s
    · rw [if_pos hs, if_pos (decide_eq_true hs), List.flatMap_cons]
    · rw [if_neg hs, if_neg (by simpa using hs), List.nil_append]

/-- The receives from a process are those that its message lists, in the order of the message. -/
theorem receives_match (self : Int) {reqs : List (Int × List ResultReqPart)}
    (h : (reqs.map Prod.fst).Pairwise (· < ·)) :
    (sentTo s (posted self reqs)).length ≤ 1 ∧
      receivesFrom s (posted self reqs) = (sentTo s (posted self reqs)).flatMap fun msg =>
        msg.parts.map fun r => (r.dst, toInt32 r.size) := by
  have hsent : sentTo s (posted self reqs) =
      (reqs.filter fun e => e.1 = s).map fun e => ⟨self, e.2⟩ := by
    rw [posted, sentTo_append, sentTo_append, sentTo_postSends, sentTo_postReceives]
    simp [sentTo]
  have hreceived : receivesFrom s (posted self reqs) =
      (reqs.filter fun e => e.1 = s).flatMap fun e => e.2.map fun r => (r.dst, toInt32 r.size) := by
    rw [posted, receivesFrom_append, receivesFrom_append, receivesFrom_postSends,
      receivesFrom_postReceives]
    simp [receivesFrom]
  constructor
  · have hnodup : (reqs.map Prod.fst).Nodup := h.imp ne_of_lt
    have hcount := List.nodup_iff_count_le_one.mp hnodup s
    rw [List.count, List.countP_map, List.countP_eq_length_filter] at hcount
    rw [hsent, List.length_map]
    refine le_trans (le_of_eq ?_) hcount
    congr 1
  · rw [hsent, hreceived, List.flatMap_map]

end Calls

/-- A read is split exactly when one of the parts that meet the range is with another process:
without one, the wait takes the address of the first element of an empty `_reqs_buf`. All the rest
holds of every read. -/
theorem splitsExactly_iff (self : Int) (h : Splittable dv offset size) :
    SplitsExactly self dv offset size ↔
      ∃ part ∈ dv.parts, Requests part offset (add64 offset size) ∧ part.pid ≠ self := by
  rw [← indexed_iff]
  constructor
  · rintro ⟨_, _, _, _, hindexed, _, _⟩
    exact hindexed
  · intro hindexed
    refine ⟨fun x hx => h.once hx, ?_, ?_, fun part hp => h.noWrap hp, hindexed, ?_, fun s => ?_⟩
    · intro copy hc
      obtain ⟨part, _, _, hexact⟩ := h.exact_copy hc
      exact hexact.placed
    · intro copy hc
      obtain ⟨part, hp, hpid, hexact⟩ := h.exact_copy hc
      exact ⟨part, hp, hpid, hexact.resid.symm, hexact.inside, hexact.aligned⟩
    · intro hsize
      have hle := reqsBufSize_le self dv offset size
      unfold Serialization.getBufSize at hsize
      omega
    · exact receives_match s self (sorted_reqs self dv offset size)

/-- Two parts of process 0, an empty part between them and a part of process 3. -/
def sampleParts : VectorDistribution := ⟨[⟨3, 5, 4, 6⟩, ⟨0, 1, 4, 0⟩, ⟨2, 8, 0, 5⟩, ⟨0, 2, 2, 4⟩]⟩

theorem splittable_sampleParts {offset size : Nat} (h : offset + size ≤ 10) :
    Splittable sampleParts offset size where
  apart := by
    unfold Apart VectorDistribution.spans sampleParts
    simp only [List.map_cons, List.map_nil, VectorDistributionPart.span, List.pairwise_cons,
      List.mem_cons, List.not_mem_nil, or_false, forall_eq_or_imp, forall_eq, Span.Covers, Span.stop]
    refine ⟨⟨?_, ?_, ?_⟩, ⟨?_, ?_⟩, ?_, ?_, List.Pairwise.nil⟩
    all_goals first | omega | (intro x; omega) | (intro x hx; cases hx)
  ends := by decide
  reqEnd := by omega
  covers := by
    intro x hx hlt
    unfold VectorDistribution.spans sampleParts
    simp only [List.map_cons, List.map_nil, VectorDistributionPart.span, List.mem_cons,
      List.not_mem_nil, or_false, exists_eq_or_imp, exists_eq_left, Span.Covers, Span.stop]
    omega

theorem splitsExactly_iff_sample :
    SplitsExactly 0 sampleParts 2 6 ↔ ∃ part ∈ sampleParts.parts,
      Requests part 2 (add64 2 6) ∧ part.pid ≠ 0 :=
  splitsExactly_iff 0 (splittable_sampleParts (by decide))

/-- A read of own bytes only takes the address of an element that `_reqs_buf` does not have. -/
theorem local_read_not_indexed :
    Splittable sampleParts 0 4 ∧ ¬ SplitsExactly 0 sampleParts 0 4 := by
  refine ⟨splittable_sampleParts (by decide), ?_⟩
  rintro ⟨_, _, _, _, hindexed, _, _⟩
  have hwait := hindexed (.waitAll 0 0) (by decide)
  have hsize : reqsBufSize 0 sampleParts 0 4 = 0 := by decide
  rw [hsize] at hwait
  exact absurd hwait (Nat.lt_irrefl 0)

end ActiveBsp.MPIActorCommunicator
