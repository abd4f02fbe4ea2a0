import ActiveBsp.Library.Layout
import ActiveBsp.Library.Lists
import ActiveBsp.Serialization.DistributionBuffer
import Mathlib.Tactic.Ring

/-!
# Distributed results

Each process of an actor registers its parts of a result in its own buffer, and
one of them fetches the parts of all. The window that is fetched starts behind
the number of parts, where the buffer has padding; the parts start behind it.
-/
namespace ActiveBsp.Actor

open Library Library.Buffer Library.Lists Library.MachineInt Serialization

set_option autoImplicit false

/-- A call of `register_part` on the distribution that `prepare_distr_result` returns. -/
structure Registration where
  ipart : Nat
  part : VectorDistributionPart

/-- `register_result_part` registers under the process's own identifier. -/
def registerResultPart (pid : Int) (ipart : Nat) (resid : Int) (size offset : Nat) : Registration :=
  ⟨ipart, ⟨pid, resid, size, offset⟩⟩

/-- `prepare_distr_result(nparts)`: the memory that the other processes may read. -/
def prepareDistrResult (nparts : Int) : Except Fault Bytes := newBuf nparts

/-- A process's buffer after `prepare_distr_result` and its registrations. -/
def distrResult (nparts : Int) (calls : List Registration) : Except Fault Bytes := do
  let buf ← prepareDistrResult nparts
  calls.foldlM (fun buf call => registerPartBytes buf call.ipart call.part) buf

/-- `vector_distribution_base::parts_offset`. -/
def partsOffset : Nat := 4

/-- `vector_distribution_base::parts_size`. -/
def partsSize : Nat := 24

/-- `bsp_get` with the synchronisation behind it, from the registered memory `src`. -/
def bspGet (src : Bytes) (offset : Nat) (dst : Bytes) (pos n : Nat) : Except Fault Bytes :=
  if offset + n ≤ src.length ∧ pos + n ≤ dst.length then
    .ok (splice dst pos (slice src offset n))
  else .error .undefined

/-- `gather_distr_parts` of the process with the buffer `own`, over those of all processes. -/
def gatherDistrParts (bufs : List Bytes) (own : Bytes) : Except Fault Bytes :=
  let nparts := intOfBytes (own.take 4)
  let total := nparts * bufs.length
  -- a product of two `int`s
  if total < -2 ^ 31 ∨ 2 ^ 31 ≤ total then .error .undefined
  else do
    let dst ← newBuf total
    let partSize := mul64 (toUInt64 nparts) partsSize
    bufs.zipIdx.foldlM (fun dst process =>
      bspGet process.1 partsOffset dst (partsOffset + mul64 process.2 partSize) partSize) dst

/-- The last part registered under an index. -/
def lastRegistered (calls : List Registration) (i : Nat) : Option VectorDistributionPart :=
  (calls.reverse.find? fun call => call.ipart = i).map Registration.part

structure Process where
  calls : List Registration
  buf : Bytes

/-- The process prepared `n` parts and registered all of them. -/
structure Process.Prepared (n : Nat) (process : Process) : Prop where
  run : distrResult n process.calls = .ok process.buf
  registered : ∀ i < n, (lastRegistered process.calls i).isSome
  inRange : ∀ call ∈ process.calls, InRange call.part

/-- The parts of all processes in order of the processes, as each registered them. -/
structure Concatenates (n : Nat) (processes : List Process) (dv : VectorDistribution) : Prop where
  nparts : dv.nparts = processes.length * n
  parts : ∀ (s : Nat) (process : Process), processes[s]? = some process → ∀ i < n,
    dv.parts[s * n + i]? = lastRegistered process.calls i

def registerAll (dv : VectorDistribution) (calls : List Registration) : VectorDistribution :=
  calls.foldl (fun dv call => dv.registerPart call.ipart call.part) dv

theorem nparts_registerPart (dv : VectorDistribution) (i : Nat) (part : VectorDistributionPart) :
    (dv.registerPart i part).nparts = dv.nparts := List.length_set

theorem nparts_registerAll (dv : VectorDistribution) (calls : List Registration) :
    (registerAll dv calls).nparts = dv.nparts := by
  induction calls generalizing dv with
  | nil => rfl
  | cons call calls ih => exact (ih _).trans (nparts_registerPart dv call.ipart call.part)

/-- The registrations on the bytes are those on the distribution. -/
theorem registrations_inv {dv : VectorDistribution} {calls : List Registration} {buf : Bytes}
    (h : calls.foldlM (fun buf call => registerPartBytes buf call.ipart call.part) (getBuf dv) =
      .ok buf) :
    (∀ call ∈ calls, call.ipart < dv.nparts) ∧ buf = getBuf (registerAll dv calls) := by
  induction calls generalizing dv with
  | nil =>
    cases h
    refine ⟨fun call hc => ?_, rfl⟩
    cases hc
  | cons call calls ih =>
    rw [List.foldlM_cons] at h
    cases hfirst : registerPartBytes (getBuf dv) call.ipart call.part with
    | error fault =>
      rw [hfirst] at h
      cases h
    | ok next =>
      obtain ⟨hi, rfl⟩ := registerPartBytes_inv hfirst
      rw [hfirst] at h
      obtain ⟨hrest, hbuf⟩ := ih h
      refine ⟨fun c hc => ?_, hbuf⟩
      rcases List.mem_cons.mp hc with rfl | hmem
      · exact hi
      · have := hrest c hmem
        rwa [nparts_registerPart] at this

theorem registerAll_snoc (dv : VectorDistribution) (calls : List Registration)
    (call : Registration) :
    registerAll dv (calls ++ [call]) = (registerAll dv calls).registerPart call.ipart call.part :=
  List.foldl_append

theorem lastRegistered_snoc (calls : List Registration) (call : Registration) (i : Nat) :
    lastRegistered (calls ++ [call]) i =
      if call.ipart = i then some call.part else lastRegistered calls i := by
  unfold lastRegistered
  rw [List.reverse_append, List.reverse_singleton, List.singleton_append, List.find?_cons]
  by_cases hcall : call.ipart = i
  · simp [hcall]
  · simp [hcall]

/-- A part is the last one registered under its index. -/
theorem getElem?_registerAll {dv : VectorDistribution} {i : Nat} (hi : i < dv.nparts)
    {calls : List Registration} {part : VectorDistributionPart}
    (h : lastRegistered calls i = some part) : (registerAll dv calls).parts[i]? = some part := by
  induction calls using List.reverseRecOn with
  | nil => cases h
  | append_singleton calls call ih =>
    have hlen : i < (registerAll dv calls).parts.length := by
      have := nparts_registerAll dv calls
      unfold VectorDistribution.nparts at this hi
      omega
    rw [lastRegistered_snoc] at h
    rw [registerAll_snoc, VectorDistribution.parts_registerPart, List.getElem?_set]
    by_cases hcall : call.ipart = i
    · rw [if_pos hcall] at h ⊢
      rw [if_pos (hcall ▸ hlen)]
      exact h
    · rw [if_neg hcall] at h ⊢
      exact ih h

theorem mem_of_lastRegistered {calls : List Registration} {i : Nat} {part : VectorDistributionPart}
    (h : lastRegistered calls i = some part) : ∃ call ∈ calls, call.ipart = i ∧ call.part = part := by
  obtain ⟨call, hfind, hpart⟩ := Option.map_eq_some_iff.mp h
  have hmem := List.mem_of_find?_eq_some hfind
  have hindex := List.find?_some hfind
  exact ⟨call, List.mem_reverse.mp hmem, of_decide_eq_true hindex, hpart⟩

/-- Every registration has room in the buffer. -/
theorem registrations_fit {calls : List Registration} {start buf : Bytes}
    (h : calls.foldlM (fun buf call => registerPartBytes buf call.ipart call.part) start =
      .ok buf) :
    ∀ call ∈ calls, 8 + 24 * call.ipart + 24 ≤ start.length := by
  induction calls generalizing start with
  | nil =>
    intro call hc
    cases hc
  | cons call calls ih =>
    rw [List.foldlM_cons] at h
    unfold registerPartBytes at h
    by_cases hfit : 8 + 24 * call.ipart + 24 ≤ start.length
    · rw [if_pos hfit] at h
      have hlen : (splice start (8 + 24 * call.ipart) (partBytes call.part)).length =
          start.length := length_splice (by rw [length_partBytes]; exact hfit)
      intro c hc
      rcases List.mem_cons.mp hc with rfl | hmem
      · exact hfit
      · rw [← hlen]
        exact ih h c hmem
    · rw [if_neg hfit] at h
      cases h

/-- What a process that registered all its parts has in its buffer. -/
structure Registered (n : Nat) (process : Process) (parts : List VectorDistributionPart) : Prop where
  small : 8 + 24 * n < 2 ^ 31
  buf : process.buf = getBuf ⟨parts⟩
  length : parts.length = n
  registered : ∀ i < n, parts[i]? = lastRegistered process.calls i
  inRange : ∀ part ∈ parts, InRange part

theorem Process.Prepared.exists_registered {n : Nat} (hn : 1 ≤ n) {process : Process}
    (h : process.Prepared n) : ∃ parts, Registered n process parts := by
  obtain ⟨hrun, hall, hrange⟩ := h
  unfold distrResult prepareDistrResult at hrun
  cases hnew : newBuf n with
  | error fault =>
    rw [hnew] at hrun
    cases hrun
  | ok start =>
    rw [hnew] at hrun
    -- the last index was registered, so the size did not wrap
    have hsmall : 8 + 24 * n < 2 ^ 31 := by
      obtain ⟨part, hpart⟩ := Option.isSome_iff_exists.mp (hall (n - 1) (by omega))
      obtain ⟨call, hc, hindex, _⟩ := mem_of_lastRegistered hpart
      have hfit := registrations_fit hrun call hc
      have hlen := length_of_newBuf hnew
      omega
    rw [newBuf_of_small hsmall] at hnew
    cases hnew
    obtain ⟨hindexes, hbuf⟩ := registrations_inv hrun
    have hnparts := nparts_new n
    have hparts : ∀ i < n, (registerAll (VectorDistribution.new n) process.calls).parts[i]? =
        lastRegistered process.calls i := by
      intro i hi
      obtain ⟨part, hpart⟩ := Option.isSome_iff_exists.mp (hall i hi)
      rw [hpart]
      exact getElem?_registerAll (by omega) hpart
    have hlength : (registerAll (VectorDistribution.new n) process.calls).parts.length = n :=
      (nparts_registerAll _ _).trans hnparts
    refine ⟨(registerAll (VectorDistribution.new n) process.calls).parts, hsmall, hbuf, hlength,
      hparts, fun part hmem => ?_⟩
    obtain ⟨i, hi, rfl⟩ := List.mem_iff_getElem.mp hmem
    have hget := hparts i (by omega)
    rw [List.getElem?_eq_getElem hi] at hget
    obtain ⟨call, hc, _, hpart⟩ := mem_of_lastRegistered hget.symm
    exact hpart ▸ hrange call hc

/-- A part without the upper half of its offset. -/
def halved (part : VectorDistributionPart) : VectorDistributionPart :=
  { part with offset := part.offset % 2 ^ 32 }

/-- The last part of a process loses the upper half of its offset. -/
def halveLast (parts : List VectorDistributionPart) : List VectorDistributionPart :=
  parts.dropLast ++ parts.getLast?.toList.map halved

theorem partBytes_eq (part : VectorDistributionPart) :
    partBytes part = (intBytes part.pid ++ (intBytes part.resid ++
      LittleEndian.encode 8 part.size)) ++ LittleEndian.encode 8 part.offset := by
  simp only [partBytes, List.append_assoc]

theorem partBytes_halved (part : VectorDistributionPart) :
    partBytes (halved part) = (partBytes part).take 20 ++ List.replicate 4 0 := by
  have hpos : 20 = (intBytes part.pid ++ (intBytes part.resid ++
      LittleEndian.encode 8 part.size)).length + 4 := by
    simp
  have hoffset : LittleEndian.encode 8 (halved part).offset =
      LittleEndian.encode 4 part.offset ++ List.replicate 4 0 :=
    LittleEndian.encode_mod 4 4 part.offset
  rw [partBytes_eq, partBytes_eq, hoffset, hpos, List.take_length_add_append,
    LittleEndian.take_encode part.offset (by omega), List.append_assoc]
  rfl

theorem flatMap_halveLast {parts : List VectorDistributionPart} (h : parts ≠ []) :
    (halveLast parts).flatMap partBytes =
      (parts.flatMap partBytes).take (24 * parts.length - 4) ++ List.replicate 4 0 := by
  obtain ⟨first, last, rfl⟩ : ∃ first last, parts = first ++ [last] :=
    ⟨parts.dropLast, parts.getLast h, (List.dropLast_append_getLast h).symm⟩
  have hlen : (first.flatMap partBytes).length = 24 * first.length :=
    Layout.length_flatMap fun part _ => length_partBytes part
  have hpos : 24 * (first ++ [last]).length - 4 = (first.flatMap partBytes).length + 20 := by
    rw [hlen, List.length_append, List.length_singleton]
    omega
  have hhalved : halveLast (first ++ [last]) = first ++ [halved last] := by
    simp [halveLast]
  rw [hhalved, List.flatMap_append, List.flatMap_append, List.flatMap_singleton,
    List.flatMap_singleton, hpos, List.take_length_add_append, partBytes_halved, List.append_assoc]

/-- The fetched window, with the zeros that the next window or the end puts behind it. -/
theorem window_halveLast {parts : List VectorDistributionPart} (h : parts ≠ []) :
    slice (getBuf ⟨parts⟩) partsOffset (24 * parts.length) ++ List.replicate 4 0 =
      List.replicate 4 0 ++ (halveLast parts).flatMap partBytes := by
  have hpos : 0 < parts.length := List.length_pos_of_ne_nil h
  have hsize : 24 * parts.length = (List.replicate 4 (0 : UInt8)).length +
      (24 * parts.length - 4) := by
    rw [List.length_replicate]
    omega
  rw [flatMap_halveLast h, slice, getBuf, partsOffset, List.drop_left' (length_intBytes _)]
  rw [hsize, List.take_length_add_append, ← hsize, List.append_assoc]

theorem bspGet_of_room {src : Bytes} {offset n : Nat} (hsrc : offset + n ≤ src.length)
    (pre room rest : Bytes) (hroom : room.length = n) :
    bspGet src offset (pre ++ (room ++ rest)) pre.length n =
      .ok (pre ++ (slice src offset n ++ rest)) := by
  have hdst : pre.length + n ≤ (pre ++ (room ++ rest)).length := by
    rw [List.length_append, List.length_append, hroom]
    omega
  rw [bspGet, if_pos ⟨hsrc, hdst⟩]
  have h := splice_append pre (room ++ rest) 0 (slice src offset n)
  rw [Nat.add_zero] at h
  rw [h, splice, List.take_zero, List.nil_append, Nat.zero_add, length_slice_of_le hsrc,
    List.drop_left' hroom]

/-- The windows come one behind the other. -/
theorem gather_windows {n : Nat} {bufs : List Bytes} {s : Nat} {pre : Bytes}
    (hbufs : ∀ buf ∈ bufs, buf.length = 8 + 24 * n) (hpre : pre.length = 4 + s * (24 * n)) 
    (hsmall : (s + bufs.length) * (24 * n) < 2 ^ 64) :
    (bufs.zipIdx s).foldlM (fun dst process =>
      bspGet process.1 partsOffset dst (partsOffset + mul64 process.2 (24 * n)) (24 * n))
      (pre ++ List.replicate (bufs.length * (24 * n) + 4) 0) =
    .ok (pre ++ (bufs.flatMap (fun buf => slice buf partsOffset (24 * n)) ++
      List.replicate 4 0)) := by
  induction bufs generalizing s pre with
  | nil => simp [pure, Except.pure]
  | cons buf bufs ih =>
    have hlen := hbufs buf List.mem_cons_self
    have hsrc : partsOffset + 24 * n ≤ buf.length := by
      rw [hlen, partsOffset]
      omega
    have hcount : (s + 1 + bufs.length) * (24 * n) = (s + (buf :: bufs).length) * (24 * n) := by
      rw [List.length_cons]
      congr 1
      omega
    have hle : s * (24 * n) ≤ (s + (buf :: bufs).length) * (24 * n) :=
      Nat.mul_le_mul_right _ (Nat.le_add_right s _)
    have hpos : partsOffset + mul64 s (24 * n) = pre.length := by
      rw [mul64_of_lt (by omega), hpre, partsOffset]
    have hroom : List.replicate ((buf :: bufs).length * (24 * n) + 4) (0 : UInt8) =
        List.replicate (24 * n) 0 ++ List.replicate (bufs.length * (24 * n) + 4) 0 := by
      rw [List.replicate_append_replicate, List.length_cons, Nat.add_mul bufs.length 1, Nat.one_mul]
      congr 1
      omega
    have hnext : (pre ++ slice buf partsOffset (24 * n)).length = 4 + (s + 1) * (24 * n) := by
      rw [List.length_append, length_slice_of_le hsrc, hpre, Nat.add_mul s 1, Nat.one_mul]
      omega
    rw [List.zipIdx_cons, List.foldlM_cons, hroom, hpos,
      bspGet_of_room hsrc pre _ _ List.length_replicate]
    have hrest := ih (fun b hb => hbufs b (List.mem_cons_of_mem buf hb)) hnext (by omega)
    rw [List.append_assoc] at hrest
    rw [List.flatMap_cons, List.append_assoc]
    refine hrest.trans ?_
    rw [List.append_assoc]

theorem length_halveLast (parts : List VectorDistributionPart) :
    (halveLast parts).length = parts.length := by
  rcases List.eq_nil_or_concat parts with rfl | ⟨first, last, rfl⟩
  · rfl
  · simp [halveLast]

/-- What `gather_distr_parts` returns when the size of the whole is an `int`. -/
theorem gatherDistrParts_of_small {n : Nat} (hn : 1 ≤ n) {processes : List Process}
    {self : Process} (hself : self ∈ processes) {partsOf : Process → List VectorDistributionPart}
    (h : ∀ process ∈ processes, Registered n process (partsOf process))
    (hsmall : 8 + 24 * (n * processes.length) < 2 ^ 31) :
    gatherDistrParts (processes.map Process.buf) self.buf =
      .ok (getBuf ⟨processes.flatMap fun process => halveLast (partsOf process)⟩) := by
  have hown : intOfBytes (self.buf.take 4) = n := by
    have hreg := h self hself
    rw [hreg.buf, getBuf, List.take_left' (length_intBytes _), VectorDistribution.nparts,
      hreg.length, intOfBytes_intBytes (by omega) (by have := hreg.small; omega)]
  have htotal : (n : Int) * (processes.map Process.buf).length = ((n * processes.length : Nat) : Int) := by
    rw [List.length_map]
    push_cast
    rfl
  have hlength : (processes.flatMap fun process => halveLast (partsOf process)).length =
      n * processes.length :=
    Layout.length_flatMap fun process hp => by rw [length_halveLast, (h process hp).length]
  have hsizes : ∀ buf ∈ processes.map Process.buf, buf.length = 8 + 24 * n := by
    intro buf hbuf
    obtain ⟨process, hp, rfl⟩ := List.mem_map.mp hbuf
    rw [(h process hp).buf, length_getBuf, getBufSize, VectorDistribution.nparts, (h process hp).length]
  have hwindows : (processes.map Process.buf).flatMap (fun buf => slice buf partsOffset (24 * n)) ++
      List.replicate 4 0 = List.replicate 4 0 ++
        (processes.flatMap fun process => halveLast (partsOf process)).flatMap partBytes := by
    rw [List.flatMap_map, List.flatMap_assoc]
    refine flatMap_append_of_shift fun process hp => ?_
    have hreg := h process hp
    have hne : partsOf process ≠ [] := List.ne_nil_of_length_pos (by rw [hreg.length]; omega)
    rw [hreg.buf, ← hreg.length]
    exact window_halveLast hne
  have hpre : (intBytes ((n * processes.length : Nat) : Int)).length = 4 + 0 * (24 * n) := by
    rw [length_intBytes]
    omega
  have hroom : 24 * (n * processes.length) = (processes.map Process.buf).length * (24 * n) := by
    rw [List.length_map]
    ring
  have hcount : (0 + (processes.map Process.buf).length) * (24 * n) < 2 ^ 64 := by
    rw [Nat.zero_add, ← hroom]
    omega
  have hown_small := (h self hself).small
  have hpart : mul64 (toUInt64 (n : Int)) partsSize = 24 * n := by
    rw [toUInt64_natCast (by omega), mul64_of_lt (by unfold partsSize; omega), partsSize]
    omega
  unfold gatherDistrParts
  dsimp only
  rw [hown, htotal, if_neg (by omega), newBuf_of_small hsmall, hpart, getBuf_new, hroom]
  refine (gather_windows hsizes hpre hcount).trans ?_
  rw [hwindows, getBuf, VectorDistribution.nparts, hlength]

/-- The size of a gathered distribution is an `int`. -/
theorem length_of_gatherDistrParts {bufs : List Bytes} {own buf : Bytes}
    (h : gatherDistrParts bufs own = .ok buf) : buf.length < 2 ^ 31 := by
  have hkeeps : ∀ (pieces : List (Bytes × Nat)) (size : Nat) (start final : Bytes),
      pieces.foldlM (fun dst process => bspGet process.1 partsOffset dst
        (partsOffset + mul64 process.2 size) size) start = .ok final →
      final.length = start.length := by
    intro pieces size
    induction pieces with
    | nil =>
      intro start final hrun
      cases hrun
      rfl
    | cons piece pieces ih =>
      intro start final hrun
      rw [List.foldlM_cons] at hrun
      unfold bspGet at hrun
      by_cases hroom : partsOffset + size ≤ piece.1.length ∧
          partsOffset + mul64 piece.2 size + size ≤ start.length
      · rw [if_pos hroom] at hrun
        rw [ih _ _ hrun]
        exact length_splice (by rw [length_slice_of_le hroom.1]; exact hroom.2)
      · rw [if_neg hroom] at hrun
        cases hrun
  unfold gatherDistrParts at h
  dsimp only at h
  split_ifs at h with hwrap
  cases hnew : newBuf (intOfBytes (own.take 4) * bufs.length) with
  | error fault =>
    rw [hnew] at h
    cases h
  | ok start =>
    rw [hnew] at h
    rw [hkeeps _ _ _ _ h]
    exact length_of_newBuf hnew

theorem halveLast_eq_iff {parts : List VectorDistributionPart} :
    halveLast parts = parts ↔ ∀ part, parts.getLast? = some part → part.offset < 2 ^ 32 := by
  rcases List.eq_nil_or_concat parts with rfl | ⟨first, last, rfl⟩
  · simp [halveLast]
  · have hhalved : halveLast (first ++ [last]) = first ++ [halved last] := by
      simp [halveLast]
    have hlast : halved last = last ↔ last.offset % 2 ^ 32 = last.offset := by
      constructor
      · exact congrArg VectorDistributionPart.offset
      · intro hoffset
        unfold halved
        rw [hoffset]
    rw [List.concat_eq_append, hhalved, List.append_cancel_left_eq, List.cons.injEq, hlast,
      List.getLast?_concat]
    simp only [and_true, Option.some.injEq, forall_eq']
    omega

theorem halveLast_inRange {parts : List VectorDistributionPart}
    (h : ∀ part ∈ parts, InRange part) : ∀ part ∈ halveLast parts, InRange part := by
  intro part hmem
  rcases List.mem_append.mp hmem with hfirst | hlast
  · exact h part (List.mem_of_mem_dropLast hfirst)
  · obtain ⟨last, hmem', rfl⟩ := List.mem_map.mp hlast
    obtain ⟨hpid, hresid, hsize, hoffset⟩ :=
      h last (List.mem_of_getLast? (Option.mem_toList.mp hmem'))
    exact ⟨hpid, hresid, hsize, Nat.lt_of_le_of_lt (Nat.mod_le last.offset (2 ^ 32)) hoffset⟩

theorem concatenates_iff {n : Nat} {processes : List Process}
    {partsOf : Process → List VectorDistributionPart}
    (h : ∀ process ∈ processes, Registered n process (partsOf process)) :
    Concatenates n processes ⟨processes.flatMap fun process => halveLast (partsOf process)⟩ ↔
      ∀ process ∈ processes, halveLast (partsOf process) = partsOf process := by
  have hlengths : ∀ process ∈ processes, (halveLast (partsOf process)).length = n := by
    intro process hp
    rw [length_halveLast, (h process hp).length]
  have hplace : ∀ (s : Nat) (process : Process), processes[s]? = some process → ∀ i < n,
      (processes.flatMap fun process => halveLast (partsOf process))[s * n + i]? =
        (halveLast (partsOf process))[i]? :=
    fun s process hs i hi => getElem?_flatMap_of_length hlengths hs hi
  constructor
  · rintro ⟨_, hparts⟩ process hp
    obtain ⟨s, hs⟩ := List.mem_iff_getElem?.mp hp
    have hreg := h process hp
    apply List.ext_getElem?
    intro i
    by_cases hi : i < n
    · rw [← hplace s process hs i hi, hparts s process hs i hi, hreg.registered i hi]
    · rw [List.getElem?_eq_none (by rw [length_halveLast, hreg.length]; omega),
        List.getElem?_eq_none (by rw [hreg.length]; omega)]
  · intro heq
    refine ⟨?_, fun s process hs i hi => ?_⟩
    · rw [VectorDistribution.nparts, Layout.length_flatMap hlengths, Nat.mul_comm]
    · have hp := List.mem_of_getElem? hs
      rw [hplace s process hs i hi, heq process hp, (h process hp).registered i hi]

/-- A gathered distribution is the processes' parts in turn exactly when its buffer is not
longer than an `int` can say and each process's last part starts within the first four
gigabytes: the window ends four bytes before that part does. -/
theorem gathered_iff {n : Nat} (hn : 1 ≤ n) {processes : List Process} {self : Process}
    (hself : self ∈ processes) (h : ∀ process ∈ processes, process.Prepared n) :
    (∃ buf dv, gatherDistrParts (processes.map Process.buf) self.buf = .ok buf ∧
        ofBuf buf = some dv ∧ Concatenates n processes dv) ↔
      8 + 24 * (n * processes.length) < 2 ^ 31 ∧
        ∀ process ∈ processes, ∀ part, lastRegistered process.calls (n - 1) = some part →
          part.offset < 2 ^ 32 := by
  have hexists : ∀ process, ∃ parts, process ∈ processes → Registered n process parts := by
    intro process
    by_cases hp : process ∈ processes
    · obtain ⟨parts, hparts⟩ := (h process hp).exists_registered hn
      exact ⟨parts, fun _ => hparts⟩
    · exact ⟨[], fun hp' => absurd hp' hp⟩
  choose partsOf hregistered using hexists
  have hlast : ∀ process ∈ processes, (partsOf process).getLast? =
      lastRegistered process.calls (n - 1) := by
    intro process hp
    have hreg := hregistered process hp
    rw [List.getLast?_eq_getElem?, hreg.length, hreg.registered (n - 1) (by omega)]
  have hwhole : (∀ process ∈ processes, halveLast (partsOf process) = partsOf process) ↔
      ∀ process ∈ processes, ∀ part, lastRegistered process.calls (n - 1) = some part →
        part.offset < 2 ^ 32 := by
    constructor
    · intro heq process hp part hpart
      exact halveLast_eq_iff.mp (heq process hp) part ((hlast process hp).trans hpart)
    · intro hoffsets process hp
      refine halveLast_eq_iff.mpr fun part hpart => ?_
      exact hoffsets process hp part ((hlast process hp).symm.trans hpart)
  by_cases hsmall : 8 + 24 * (n * processes.length) < 2 ^ 31
  · have hgather := gatherDistrParts_of_small hn hself hregistered hsmall
    have hlength : (processes.flatMap fun process => halveLast (partsOf process)).length =
        n * processes.length :=
      Layout.length_flatMap fun process hp => by
        rw [length_halveLast, (hregistered process hp).length]
    have hvalid : Valid ⟨processes.flatMap fun process => halveLast (partsOf process)⟩ := by
      refine ⟨fun part hmem => ?_, ?_⟩
      · obtain ⟨process, hp, hpart⟩ := List.mem_flatMap.mp hmem
        exact halveLast_inRange (hregistered process hp).inRange part hpart
      · rw [getBufSize, VectorDistribution.nparts, hlength]
        exact hsmall
    constructor
    · rintro ⟨buf, dv, hbuf, hdv, hconcat⟩
      rw [hgather] at hbuf
      cases hbuf
      rw [ofBuf_getBuf hvalid] at hdv
      cases hdv
      exact ⟨hsmall, hwhole.mp ((concatenates_iff hregistered).mp hconcat)⟩
    · rintro ⟨_, hoffsets⟩
      exact ⟨_, _, hgather, ofBuf_getBuf hvalid,
        (concatenates_iff hregistered).mpr (hwhole.mpr hoffsets)⟩
  · constructor
    · rintro ⟨buf, dv, hbuf, hdv, hconcat⟩
      -- a buffer for all parts would be too long
      have hlen := length_of_gatherDistrParts hbuf
      have hsize := getBufSize_le_of_ofBuf hdv
      rw [getBufSize, hconcat.nparts, Nat.mul_comm processes.length n] at hsize
      omega
    · rintro ⟨hsize, _⟩
      exact absurd hsize hsmall

def sampleProcess (offset : Nat) : Process where
  calls := [registerResultPart 3 0 7 40 offset]
  buf := getBuf ⟨[⟨3, 7, 40, offset⟩]⟩

theorem prepared_sampleProcess {offset : Nat} (h : offset < 2 ^ 64) :
    (sampleProcess offset).Prepared 1 where
  run := rfl
  registered := by
    intro i hi
    obtain rfl : i = 0 := by omega
    rfl
  inRange := by
    intro call hc
    obtain rfl := List.mem_singleton.mp hc
    exact ⟨show -2 ^ 31 ≤ (3 : Int) ∧ (3 : Int) < 2 ^ 31 by decide,
      show -2 ^ 31 ≤ (7 : Int) ∧ (7 : Int) < 2 ^ 31 by decide, show 40 < 2 ^ 64 by decide, h⟩

theorem gathered_iff_sample :
    (∃ buf dv, gatherDistrParts [(sampleProcess 80).buf, (sampleProcess 0).buf]
        (sampleProcess 80).buf = .ok buf ∧
      ofBuf buf = some dv ∧ Concatenates 1 [sampleProcess 80, sampleProcess 0] dv) ↔
      8 + 24 * (1 * 2) < 2 ^ 31 ∧ ∀ process ∈ [sampleProcess 80, sampleProcess 0],
        ∀ part, lastRegistered process.calls (1 - 1) = some part → part.offset < 2 ^ 32 := by
  refine @gathered_iff 1 (by decide) [sampleProcess 80, sampleProcess 0] (sampleProcess 80)
    List.mem_cons_self fun process hp => ?_
  rcases List.mem_cons.mp hp with rfl | hp
  · exact prepared_sampleProcess (by decide)
  · rw [List.mem_singleton.mp hp]
    exact prepared_sampleProcess (by decide)

/-- A part from four gigabytes on comes back as a part from zero on. -/
theorem gathered_offset_lost :
    (sampleProcess (2 ^ 32)).Prepared 1 ∧
      ¬ ∃ buf dv, gatherDistrParts [(sampleProcess (2 ^ 32)).buf] (sampleProcess (2 ^ 32)).buf =
          .ok buf ∧
        ofBuf buf = some dv ∧ Concatenates 1 [sampleProcess (2 ^ 32)] dv := by
  refine ⟨prepared_sampleProcess (by decide), ?_⟩
  rintro ⟨buf, dv, hbuf, hdv, hconcat⟩
  have hgather : gatherDistrParts [(sampleProcess (2 ^ 32)).buf] (sampleProcess (2 ^ 32)).buf =
      .ok (getBuf ⟨[⟨3, 7, 40, 0⟩]⟩) := by decide +kernel
  have hread : ofBuf (getBuf ⟨[⟨3, 7, 40, 0⟩]⟩) = some ⟨[⟨3, 7, 40, 0⟩]⟩ := by decide +kernel
  rw [hgather] at hbuf
  cases hbuf
  rw [hread] at hdv
  cases hdv
  have hpart := hconcat.parts 0 (sampleProcess (2 ^ 32)) rfl 0 (by decide)
  cases hpart

end ActiveBsp.Actor
