import ActiveBsp.Serialization.DistributionBuffer

/-!
# The transports of a distribution

The bytes of a distribution travel in one message, whose length tells the
receiver how many parts there are; in a broadcast, which announces the number of
parts; or in an archive, behind their own length.
-/
namespace ActiveBsp.Serialization

open Library Library.Buffer Library.MachineInt

set_option autoImplicit false

/-- `register_part` for one index after the other. -/
def registerParts (regs : List (Nat × VectorDistributionPart)) (buf : Bytes) :
    Except Fault Bytes :=
  regs.foldlM (fun buf r => registerPartBytes buf r.1 r.2) buf

/-- `vector_distribution_base(n)`, and then the parts. -/
def build (n : Nat) (regs : List (Nat × VectorDistributionPart)) : Except Fault Bytes :=
  newBuf n >>= registerParts regs

/-- What was registered last for an index. -/
def RegisteredLast (regs : List (Nat × VectorDistributionPart)) (i : Nat)
    (part : VectorDistributionPart) : Prop :=
  ∃ before after, regs = before ++ (i, part) :: after ∧ ∀ r ∈ after, r.1 ≠ i

/-- The count that a size in bytes becomes as an argument of MPI, which refuses negative ones. -/
def mpiCount (size : Nat) : Except Fault Nat :=
  if toInt32 size < 0 then .error .undefined else .ok (toInt32 size).toNat

/-- `sendDistrVector`: the message on the wire. -/
def sendDistrVector (buf : Bytes) : Except Fault Bytes := do
  let count ← mpiCount buf.length
  return buf.take count

def partsOffset : Int := 4

def partsSize : Int := 24

/-- `receiveDistrVector`: the buffer of the distribution that it returns. -/
def receiveDistrVector (msg : Bytes) : Except Fault Bytes := do
  let rcvCount ← mpiCount msg.length
  let buf ← newBuf (Int.tdiv ((rcvCount : Int) - partsOffset) partsSize)
  if rcvCount ≤ buf.length then .ok (splice buf 0 msg) else .error .undefined

/-- `resize`: the vector is cut or filled up with zeros. -/
def resizeBuf (buf : Bytes) (elems : Nat) : Except Fault Bytes :=
  let size := toUInt64 (sizeForElems (toInt32 elems))
  -- no vector is that long
  if 2 ^ 63 ≤ size then .error .exception
  else .ok (buf.take size ++ List.replicate (size - buf.length) 0)

/-- `nparts`, read from the buffer. -/
def npartsOf (buf : Bytes) : Except Fault Int :=
  if buf.length < 4 then .error .undefined else .ok (intOfBytes (buf.take 4))

/-- `MPI_Bcast` of bytes, for which root and receiver must have buffers of one size. -/
def bcast (root receiver : Bytes) : Except Fault Bytes := do
  let count ← mpiCount root.length
  let count' ← mpiCount receiver.length
  if count = count' then .ok (splice receiver 0 (root.take count)) else .error .undefined

/-- `broadcastVd`: what becomes of the buffer of a receiver. -/
def broadcastVd (root receiver : Bytes) : Except Fault Bytes := do
  let nparts ← npartsOf root
  let receiver ← resizeBuf receiver (toUInt64 nparts)
  bcast root receiver

/-- `save`: the bytes of a distribution in an archive, behind the header of the class. -/
def saveBuf (fmt : ArchiveFormat) (buf : Bytes) : Bytes :=
  fmt.saveClassHeader ++ (LittleEndian.encode 8 buf.length ++ buf)

/-- The distribution that the buffer holds. -/
def built (n : Nat) (regs : List (Nat × VectorDistributionPart)) : VectorDistribution :=
  regs.foldl (fun dv r => dv.registerPart r.1 r.2) (.new n)

theorem nparts_registerPart (dv : VectorDistribution) (i : Nat) (part : VectorDistributionPart) :
    (dv.registerPart i part).nparts = dv.nparts := List.length_set

theorem registerParts_getBuf {regs : List (Nat × VectorDistributionPart)} :
    ∀ {dv : VectorDistribution}, (∀ r ∈ regs, r.1 < dv.nparts) →
      registerParts regs (getBuf dv) =
        .ok (getBuf (regs.foldl (fun dv r => dv.registerPart r.1 r.2) dv)) := by
  induction regs with
  | nil => exact fun _ => rfl
  | cons r regs ih =>
    intro dv h
    have hr := h r List.mem_cons_self
    have hlen := length_getBuf dv
    unfold getBufSize at hlen
    have hone : registerPartBytes (getBuf dv) r.1 r.2 = .ok (getBuf (dv.registerPart r.1 r.2)) := by
      rw [registerPartBytes, if_pos (by omega), registerPart_getBuf hr]
    rw [registerParts, List.foldlM_cons, hone]
    refine ih fun r' hr' => ?_
    rw [nparts_registerPart]
    exact h r' (List.mem_cons_of_mem r hr')

theorem nparts_foldl (regs : List (Nat × VectorDistributionPart)) (dv : VectorDistribution) :
    (regs.foldl (fun dv r => dv.registerPart r.1 r.2) dv).nparts = dv.nparts := by
  induction regs generalizing dv with
  | nil => rfl
  | cons r regs ih => rw [List.foldl_cons, ih, nparts_registerPart]

theorem nparts_built (n : Nat) (regs : List (Nat × VectorDistributionPart)) :
    (built n regs).nparts = n := by
  rw [built, nparts_foldl, nparts_new]

/-- Building in the buffer. -/
theorem build_eq {n : Nat} {regs : List (Nat × VectorDistributionPart)}
    (hn : 8 + 24 * n < 2 ^ 31) (hregs : ∀ r ∈ regs, r.1 < n) :
    build n regs = .ok (getBuf (built n regs)) := by
  rw [build, newBuf_of_small hn]
  exact registerParts_getBuf fun r hr => by
    rw [nparts_new]
    exact hregs r hr

theorem parts_foldl_of_ne {regs : List (Nat × VectorDistributionPart)} {i : Nat}
    (h : ∀ r ∈ regs, r.1 ≠ i) (dv : VectorDistribution) :
    (regs.foldl (fun dv r => dv.registerPart r.1 r.2) dv).parts[i]? = dv.parts[i]? := by
  induction regs generalizing dv with
  | nil => rfl
  | cons r regs ih =>
    rw [List.foldl_cons, ih (fun r' hr' => h r' (List.mem_cons_of_mem r hr')),
      VectorDistribution.parts_registerPart, List.getElem?_set_ne (h r List.mem_cons_self)]

/-- Every part is what was registered last. -/
theorem parts_built {n : Nat} {regs : List (Nat × VectorDistributionPart)} {i : Nat}
    {part : VectorDistributionPart} (hi : i < n) (h : RegisteredLast regs i part) :
    (built n regs).parts[i]? = some part := by
  obtain ⟨before, after, rfl, hafter⟩ := h
  have hlen : i < (before.foldl (fun dv r => dv.registerPart r.1 r.2)
      (VectorDistribution.new n)).parts.length := by
    have := nparts_built n before
    unfold built VectorDistribution.nparts at this
    omega
  rw [built, List.foldl_append, List.foldl_cons, parts_foldl_of_ne hafter,
    VectorDistribution.parts_registerPart, List.getElem?_set_self hlen]

theorem inRange_zero : InRange ⟨0, 0, 0, 0⟩ := by
  constructor <;> decide

theorem valid_foldl {regs : List (Nat × VectorDistributionPart)}
    (hregs : ∀ r ∈ regs, InRange r.2) :
    ∀ {dv : VectorDistribution}, (∀ part ∈ dv.parts, InRange part) →
      ∀ part ∈ (regs.foldl (fun dv r => dv.registerPart r.1 r.2) dv).parts, InRange part := by
  induction regs with
  | nil => exact fun h => h
  | cons r regs ih =>
    intro dv h
    refine ih (fun r' hr' => hregs r' (List.mem_cons_of_mem r hr')) fun part hpart => ?_
    rcases List.mem_or_eq_of_mem_set hpart with hpart | rfl
    · exact h part hpart
    · exact hregs r List.mem_cons_self

/-- What is built has fields of their types and a size that is an `int`. -/
theorem valid_built {n : Nat} {regs : List (Nat × VectorDistributionPart)}
    (hn : 8 + 24 * n < 2 ^ 31) (hregs : ∀ r ∈ regs, InRange r.2) : Valid (built n regs) where
  parts := valid_foldl hregs fun part hpart => by
    rw [(List.mem_replicate.mp hpart).2]
    exact inRange_zero
  size := by
    rw [getBufSize, nparts_built]
    exact hn

variable {dv : VectorDistribution}

theorem mpiCount_of_small {n : Nat} (h : n < 2 ^ 31) : mpiCount n = .ok n := by
  rw [mpiCount, toInt32_natCast h, if_neg (by omega), Int.toNat_natCast]

/-- The division loses the four bytes of the header that the offset does not count. -/
theorem tdiv_partsSize (n : Nat) :
    Int.tdiv (((8 + 24 * n : Nat) : Int) - partsOffset) partsSize = n := by
  rw [partsOffset, partsSize, Int.tdiv_eq_ediv_of_nonneg (by omega)]
  omega

theorem receive_send (h : getBufSize dv < 2 ^ 31) :
    (sendDistrVector (getBuf dv) >>= receiveDistrVector) = .ok (getBuf dv) := by
  have hlen := length_getBuf dv
  have hcount : mpiCount (getBuf dv).length = .ok (getBuf dv).length :=
    mpiCount_of_small (by omega)
  have hnew : newBuf (dv.nparts : Int) = .ok (getBuf (.new dv.nparts)) := newBuf_of_small h
  have hnewlen : (getBuf dv).length = (getBuf (.new dv.nparts)).length := by
    rw [hlen, length_getBuf, getBufSize, getBufSize, nparts_new]
  have hsend : sendDistrVector (getBuf dv) = .ok (getBuf dv) := by
    rw [sendDistrVector, hcount, ok_bind, List.take_length]
    rfl
  rw [hsend, ok_bind, receiveDistrVector, hcount, ok_bind, hlen, getBufSize, tdiv_partsSize, hnew,
    ok_bind, ← getBufSize, ← hlen, if_pos (Nat.le_of_eq hnewlen), splice_all hnewlen]

/-- The buffer of a receiver has the size of what comes, whatever it was before. -/
theorem resizeBuf_length {n : Nat} (h : 8 + 24 * n < 2 ^ 31) (receiver : Bytes) :
    ∃ buf, resizeBuf receiver (toUInt64 n) = .ok buf ∧ buf.length = 8 + 24 * n := by
  have helems : toInt32 (toUInt64 (n : Int)) = n := by
    rw [toUInt64_natCast (by omega), toInt32_natCast (by omega)]
  have hsize : toUInt64 (sizeForElems (toInt32 (toUInt64 (n : Int)))) = 8 + 24 * n := by
    rw [helems, sizeForElems_of_small h, toUInt64_natCast (by omega)]
  refine ⟨receiver.take (8 + 24 * n) ++ List.replicate (8 + 24 * n - receiver.length) 0, ?_, ?_⟩
  · rw [resizeBuf, hsize, if_neg (by omega)]
  · rw [List.length_append, List.length_take, List.length_replicate]
    omega

theorem broadcast_eq (h : getBufSize dv < 2 ^ 31) (receiver : Bytes) :
    broadcastVd (getBuf dv) receiver = .ok (getBuf dv) := by
  have hlen := length_getBuf dv
  have hsmall := h
  unfold getBufSize at hlen hsmall
  have hnparts : npartsOf (getBuf dv) = .ok dv.nparts := by
    have htake : (getBuf dv).take 4 = intBytes dv.nparts := List.take_left' (length_intBytes _)
    rw [npartsOf, if_neg (by omega), htake, intOfBytes_intBytes (by omega) (by omega)]
  obtain ⟨buf, hresize, hbuf⟩ := resizeBuf_length hsmall receiver
  have hcount : mpiCount (8 + 24 * dv.nparts) = .ok (8 + 24 * dv.nparts) :=
    mpiCount_of_small hsmall
  rw [broadcastVd, hnparts, ok_bind, hresize, ok_bind, bcast, hlen, hbuf, hcount, ok_bind, ok_bind,
    if_pos rfl, ← hlen, List.take_length, splice_all (hlen.trans hbuf.symm)]

/-- The archive has the size of the buffer. -/
theorem load_save (fmt : ArchiveFormat) (h : Valid dv) :
    fmt.loadBase (saveBuf fmt (getBuf dv)) = some (getBuf dv, []) := by
  rw [saveBuf, length_getBuf]
  exact ArchiveFormat.loadBase_saveBase h

/-- A distribution whose size is an `int`, built in any way: its buffer holds what was registered
last for every index, and each transport delivers this buffer. -/
theorem transports_preserve (n : Nat) (regs : List (Nat × VectorDistributionPart))
    (hn : 8 + 24 * n < 2 ^ 31) (hindex : ∀ r ∈ regs, r.1 < n) (hfields : ∀ r ∈ regs, InRange r.2) :
    ∃ buf dv, build n regs = .ok buf ∧ ofBuf buf = some dv ∧ dv.nparts = n ∧
      (∀ i part, i < n → RegisteredLast regs i part → dv.parts[i]? = some part) ∧
      (sendDistrVector buf >>= receiveDistrVector) = .ok buf ∧
      (∀ receiver, broadcastVd buf receiver = .ok buf) ∧
      ∀ fmt : ArchiveFormat, fmt.loadBase (saveBuf fmt buf) = some (buf, []) := by
  have hvalid := valid_built hn hfields
  refine ⟨getBuf (built n regs), built n regs, build_eq hn hindex, ofBuf_getBuf hvalid,
    nparts_built n regs, fun i part => parts_built, receive_send hvalid.size,
    broadcast_eq hvalid.size, fun fmt => load_save fmt hvalid⟩

/-- Two parts, the first of which is registered twice. -/
theorem transports_preserve_sample :
    ∃ buf dv, build 2 [(0, ⟨7, 7, 7, 7⟩), (1, ⟨2, -5, 3, 4⟩), (0, ⟨1, 6, 4, 0⟩)] = .ok buf ∧
      ofBuf buf = some dv ∧ dv.nparts = 2 ∧
      (∀ i part, i < 2 → RegisteredLast [(0, ⟨7, 7, 7, 7⟩), (1, ⟨2, -5, 3, 4⟩), (0, ⟨1, 6, 4, 0⟩)]
        i part → dv.parts[i]? = some part) ∧
      (sendDistrVector buf >>= receiveDistrVector) = .ok buf ∧
      (∀ receiver, broadcastVd buf receiver = .ok buf) ∧
      ∀ fmt : ArchiveFormat, fmt.loadBase (saveBuf fmt buf) = some (buf, []) := by
  apply transports_preserve
  · decide
  · decide
  · intro r hr
    simp only [List.mem_cons, List.not_mem_nil, or_false] at hr
    rcases hr with rfl | rfl | rfl <;> constructor <;> decide

end ActiveBsp.Serialization
