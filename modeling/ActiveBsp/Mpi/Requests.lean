import ActiveBsp.Management.Parts
import ActiveBsp.Mpi.MPIActorCommunicator

/-!
# The requests of a read

A read of a range is split into one copy for each part that meets it: at once
for the parts of the process itself, in one list of requests for each other one.
-/
namespace ActiveBsp.MPIActorCommunicator

open Library Library.MachineInt Library.Tiling ActorServer

set_option autoImplicit false

theorem mem_pushBack {pid q : Int} {req r : ResultReqPart}
    {reqs : List (Int × List ResultReqPart)} :
    (∃ e ∈ pushBack pid req reqs, e.1 = q ∧ r ∈ e.2) ↔
      (q = pid ∧ r = req) ∨ ∃ e ∈ reqs, e.1 = q ∧ r ∈ e.2 := by
  induction reqs with
  | nil =>
    have hcomm : pid = q ↔ q = pid := eq_comm
    simp [pushBack, hcomm]
  | cons e reqs ih =>
    obtain ⟨key, parts⟩ := e
    unfold pushBack
    by_cases hlt : pid < key
    · rw [if_pos hlt]
      simp only [List.mem_cons, exists_eq_or_imp, List.not_mem_nil, or_false]
      grind
    · rw [if_neg hlt]
      by_cases heq : pid = key
      · rw [if_pos heq]
        simp only [List.mem_cons, exists_eq_or_imp, List.mem_append, List.not_mem_nil, or_false]
        grind
      · rw [if_neg heq]
        simp only [List.mem_cons, exists_eq_or_imp, ih]
        grind

private theorem mem_localReads_foldl {self : Int} {offset reqEnd : Nat} {r : ResultReqPart}
    (parts : List VectorDistributionPart) (acc : PartRequests) :
    r ∈ (parts.foldl (selectPart self offset reqEnd) acc).localReads ↔
      r ∈ acc.localReads ∨ ∃ part ∈ parts, Requests part offset reqEnd ∧ part.pid = self ∧
        r = reqPart part offset reqEnd := by
  induction parts generalizing acc with
  | nil => simp
  | cons part parts ih =>
    rw [List.foldl_cons, ih]
    unfold selectPart
    by_cases hr : Requests part offset reqEnd
    · by_cases hs : part.pid = self
      · simp [hr, hs, or_assoc]
      · simp [hr, hs]
    · simp [hr]

private theorem mem_reqs_foldl {self pid : Int} {offset reqEnd : Nat} {r : ResultReqPart}
    (parts : List VectorDistributionPart) (acc : PartRequests) :
    (∃ e ∈ (parts.foldl (selectPart self offset reqEnd) acc).reqs, e.1 = pid ∧ r ∈ e.2) ↔
      (∃ e ∈ acc.reqs, e.1 = pid ∧ r ∈ e.2) ∨
        ∃ part ∈ parts, Requests part offset reqEnd ∧ part.pid ≠ self ∧ part.pid = pid ∧
          r = reqPart part offset reqEnd := by
  induction parts generalizing acc with
  | nil => simp
  | cons part parts ih =>
    rw [List.foldl_cons, ih]
    unfold selectPart
    by_cases hr : Requests part offset reqEnd
    · by_cases hs : part.pid = self
      · simp [hr, hs]
      · simp only [hr, hs, not_true_eq_false, if_false, mem_pushBack, List.mem_cons,
          exists_eq_or_imp, ne_eq, not_false_eq_true, true_and]
        grind
    · simp [hr]

/-- A part of this process is read at once. -/
theorem mem_localReads {self : Int} {dv : VectorDistribution} {offset size : Nat}
    {r : ResultReqPart} :
    r ∈ (partRequests self dv offset size).localReads ↔
      ∃ part ∈ dv.parts, Requests part offset (add64 offset size) ∧ part.pid = self ∧
        r = reqPart part offset (add64 offset size) := by
  rw [partRequests, mem_localReads_foldl]
  simp

/-- A part of another process is requested from it. -/
theorem mem_reqs {self pid : Int} {dv : VectorDistribution} {offset size : Nat}
    {r : ResultReqPart} :
    (∃ e ∈ (partRequests self dv offset size).reqs, e.1 = pid ∧ r ∈ e.2) ↔
      ∃ part ∈ dv.parts, Requests part offset (add64 offset size) ∧ part.pid ≠ self ∧
        part.pid = pid ∧ r = reqPart part offset (add64 offset size) := by
  rw [partRequests, mem_reqs_foldl]
  simp

theorem pushBack_ne_nil {pid : Int} {req : ResultReqPart} {reqs : List (Int × List ResultReqPart)}
    (h : ∀ e ∈ reqs, e.2 ≠ []) : ∀ e ∈ pushBack pid req reqs, e.2 ≠ [] := by
  induction reqs with
  | nil => simp [pushBack]
  | cons e reqs ih =>
    have hrest := ih fun e' he' => h e' (List.mem_cons_of_mem e he')
    unfold pushBack
    split_ifs with hlt heq
    · simpa using h
    · simpa using fun a b hab => h (a, b) (List.mem_cons_of_mem e hab)
    · simpa using ⟨h e List.mem_cons_self, fun a b hab => hrest (a, b) hab⟩

/-- A process is only asked when it keeps something of the range. -/
theorem reqs_ne_nil {self : Int} {dv : VectorDistribution} {offset size : Nat}
    {e : Int × List ResultReqPart} (he : e ∈ (partRequests self dv offset size).reqs) :
    e.2 ≠ [] := by
  have hfold : ∀ (parts : List VectorDistributionPart) (acc : PartRequests),
      (∀ e ∈ acc.reqs, e.2 ≠ []) →
        ∀ e ∈ (parts.foldl (selectPart self offset (add64 offset size)) acc).reqs, e.2 ≠ [] := by
    intro parts
    induction parts with
    | nil => exact fun _ h => h
    | cons part parts ih =>
      intro acc h
      refine ih _ ?_
      unfold selectPart
      split_ifs
      · exact h
      · exact pushBack_ne_nil h
      · exact h
  exact hfold dv.parts {} (by simp) e he

/-- The copies that a read is split into, with the process that keeps their bytes: first those
of its own parts, then those requested from others. -/
def subCopies (self : Int) (reqs : PartRequests) : List (Int × ResultReqPart) :=
  reqs.localReads.map (fun r => (self, r)) ++ reqs.reqs.flatMap fun e => e.2.map fun r => (e.1, r)

/-- The copy that a part is read by. -/
def copyOf (offset reqEnd : Nat) (part : VectorDistributionPart) : Int × ResultReqPart :=
  (part.pid, reqPart part offset reqEnd)

theorem flatMap_pushBack (pid : Int) (r : ResultReqPart) (reqs : List (Int × List ResultReqPart)) :
    ((pushBack pid r reqs).flatMap fun e => e.2.map fun r => (e.1, r)).Perm
      ((pid, r) :: reqs.flatMap fun e => e.2.map fun r => (e.1, r)) := by
  induction reqs with
  | nil => exact List.Perm.refl _
  | cons e reqs ih =>
    obtain ⟨key, parts⟩ := e
    unfold pushBack
    by_cases hlt : pid < key
    · rw [if_pos hlt]
      exact List.Perm.refl _
    · rw [if_neg hlt]
      by_cases heq : pid = key
      · rw [if_pos heq, heq]
        simp only [List.flatMap_cons, List.map_append, List.map_cons, List.map_nil,
          List.append_assoc, List.singleton_append]
        exact List.perm_middle
      · rw [if_neg heq]
        simp only [List.flatMap_cons]
        exact (ih.append_left _).trans List.perm_middle

/-- One part adds its copy, when it meets the range. -/
theorem subCopies_selectPart (self : Int) (offset reqEnd : Nat) (acc : PartRequests)
    (part : VectorDistributionPart) :
    (subCopies self (selectPart self offset reqEnd acc part)).Perm
      (if Requests part offset reqEnd then copyOf offset reqEnd part :: subCopies self acc
        else subCopies self acc) := by
  unfold selectPart
  by_cases hr : Requests part offset reqEnd
  · rw [if_neg (not_not.mpr hr), if_pos hr]
    by_cases hself : part.pid = self
    · rw [if_pos hself]
      unfold subCopies copyOf
      simp only [List.map_append, List.map_cons, List.map_nil, List.append_assoc,
        List.singleton_append, hself]
      exact List.perm_middle
    · rw [if_neg hself]
      unfold subCopies copyOf
      exact ((flatMap_pushBack _ _ _).append_left _).trans List.perm_middle
  · rw [if_pos hr, if_neg hr]

/-- The copies are those of the parts that meet the range. -/
theorem subCopies_perm (self : Int) (dv : VectorDistribution) (offset size : Nat) :
    (subCopies self (partRequests self dv offset size)).Perm
      ((dv.parts.filter fun part => Requests part offset (add64 offset size)).map
        (copyOf offset (add64 offset size))) := by
  have hfold : ∀ (parts : List VectorDistributionPart) (acc : PartRequests),
      (subCopies self (parts.foldl (selectPart self offset (add64 offset size)) acc)).Perm
        ((parts.filter fun part => Requests part offset (add64 offset size)).map
          (copyOf offset (add64 offset size)) ++ subCopies self acc) := by
    intro parts
    induction parts with
    | nil => exact fun acc => List.Perm.refl _
    | cons part parts ih =>
      intro acc
      refine (ih _).trans (((subCopies_selectPart self offset _ acc part).append_left _).trans ?_)
      by_cases hr : Requests part offset (add64 offset size)
      · rw [if_pos hr, List.filter_cons, if_pos (decide_eq_true hr)]
        exact List.perm_middle
      · rw [if_neg hr, List.filter_cons, if_neg (by simpa using hr)]
  have h := hfold dv.parts {}
  rwa [show subCopies self {} = [] from rfl, List.append_nil] at h

/-- A copy of a range `[offset, offset + size)` takes what the part has of it, to where the range
has it. -/
structure Exact (offset size : Nat) (part : VectorDistributionPart) (r : ResultReqPart) : Prop where
  resid : r.resid = part.resid
  inside : r.offset + r.size ≤ part.size
  placed : r.dst + r.size ≤ size
  aligned : part.offset + r.offset = offset + r.dst
  dst_eq : r.dst = max part.offset offset - offset
  size_eq : r.size = part.span.overlap offset (offset + size)

theorem exact_of_requests {part : VectorDistributionPart} {offset size : Nat}
    (hpart : part.offset + part.size < 2 ^ 64) (hend : offset + size < 2 ^ 64)
    (hr : Requests part offset (offset + size)) :
    Exact offset size part (reqPart part offset (offset + size)) := by
  have hm := (meets_iff hpart).mp hr
  have hsub := subPart_of_meets hm (Nat.le_add_right offset size) hend
  obtain ⟨h1, h2⟩ := hm
  have hstop : offset < part.offset + part.size := h1
  have hoff : part.offset < offset + size := h2
  have hov : part.span.overlap offset (offset + size) =
      min (part.offset + part.size) (offset + size) - max part.offset offset := rfl
  have hdst : max part.offset offset - part.offset + part.offset - offset =
      max part.offset offset - offset := by omega
  unfold reqPart
  rw [hsub]
  dsimp only
  rw [hdst]
  refine ⟨rfl, ?_, ?_, ?_, rfl, rfl⟩
  · show max part.offset offset - part.offset + part.span.overlap offset (offset + size) ≤ part.size
    omega
  · show max part.offset offset - offset + part.span.overlap offset (offset + size) ≤ size
    omega
  · show part.offset + (max part.offset offset - part.offset) =
      offset + (max part.offset offset - offset)
    omega

end ActiveBsp.MPIActorCommunicator
