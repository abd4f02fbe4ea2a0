import ActiveBsp.Actormsg.EnvelopeRoundTrip
import ActiveBsp.Library.PendingSends
import ActiveBsp.Mpi.ExactReads

/-!
# Messages sent asynchronously

`dv_get_part`, `block_distribute` and `dv_release` post one `MPI_Isend` for each
message and wait for all of them. The first two keep their messages in a
`std::list` that outlives the wait; the message of `dv_release` is local to its
loop, so that its buffer is deleted while the send is pending. What is received
in between uses no memory of the messages and is left out.
-/
namespace ActiveBsp.AsyncMessages

open Library Library.Buffer Library.MachineInt Library.PendingSends Actormsg
open MPIActorCommunicator

set_option autoImplicit false

/-- A message object as `sendAsyncActorMessage` sees it: its buffer, as the constructor filled it,
and `_buf_size`, which is an `int`. -/
def message (memory : Nat → UInt8) (send : Int × Envelope) : Message Int UInt8 :=
  ⟨send.1, send.2.construct memory, toInt32 send.2.size⟩

/-- The message objects of a loop, each in memory of its own. -/
def messages (memory : Nat → Nat → UInt8) (sends : List (Int × Envelope)) :
    List (Message Int UInt8) := sends.mapIdx fun i send => message (memory i) send

/-- The messages of `dv_release`. -/
def releaseMessages (dv : VectorDistribution) : List (Int × Envelope) :=
  dv.parts.map fun part => (part.pid, .releaseResultPart part.resid)

/-- The messages of `block_distribute`, of the parts of the distribution that the head returned. -/
def storeMessages (v : Bytes) (dv : VectorDistribution) : List (Int × Envelope) :=
  dv.parts.map fun part =>
    (part.pid, .storeResult part.resid (.data (slice v part.offset part.size)))

/-- A sub-request as it is copied into its message. -/
def ReqPart.memory (padding : ResultReqPart → List.Vector UInt8 4) (part : ResultReqPart) :
    ReqPartMemory := ⟨part, (padding part).toList, (padding part).toList_length⟩

/-- The messages of `dv_get_part`. -/
def requestMessages (padding : ResultReqPart → List.Vector UInt8 4) (self : Int)
    (reqs : PartRequests) : List (Int × Envelope) :=
  reqs.reqs.map fun req => (req.1, .getResultParts self (req.2.map (ReqPart.memory padding)))

/-- `dv_release`: the message is destroyed at the end of each turn. -/
def dvRelease (memory : Nat → Nat → UInt8) (dv : VectorDistribution) :
    List (Command Int UInt8) := sendFromLoop (messages memory (releaseMessages dv))

/-- The end of `block_distribute`. -/
def blockDistribute (memory : Nat → Nat → UInt8) (v : Bytes) (dv : VectorDistribution) :
    List (Command Int UInt8) := sendFromList (messages memory (storeMessages v dv))

/-- The second half of `dv_get_part`. -/
def dvGetPart (memory : Nat → Nat → UInt8) (padding : ResultReqPart → List.Vector UInt8 4)
    (self : Int) (dv : VectorDistribution) (offset size : Nat) : List (Command Int UInt8) :=
  sendFromList
    (messages memory (requestMessages padding self (partRequests self dv offset size)))

/-- What the receiver reads of a message that these functions send. -/
def wire : ActorMessage → Option WireMessage
  | .releaseResult resid => some (.releaseResultPart resid)
  | .storeResult msg => some (.storeResult msg.resId (.data msg.data))
  | .getResultParts msg => some (.getResultParts msg.forwardTo msg.parts)
  | _ => none

/-- The buffers are those of the messages that the managers are to handle. -/
theorem fields_messages (v : Bytes) (dv : VectorDistribution)
    (padding : ResultReqPart → List.Vector UInt8 4) (self : Int) (reqs : PartRequests) :
    (releaseMessages dv).map (fun send => (send.1, some send.2.fields)) =
        (MPIActorCommunicator.dvRelease dv).map (fun m => (m.1, wire m.2)) ∧
      (storeMessages v dv).map (fun send => (send.1, some send.2.fields)) =
        (MPIActorCommunicator.storeMessages v dv).map (fun m => (m.1, wire m.2)) ∧
      (requestMessages padding self reqs).map (fun send => (send.1, some send.2.fields)) =
        (MPIActorCommunicator.requestMessages self reqs).map (fun m => (m.1, wire m.2)) := by
  refine ⟨?_, ?_, ?_⟩
  · simp only [releaseMessages, MPIActorCommunicator.dvRelease, List.map_map]
    rfl
  · simp only [storeMessages, MPIActorCommunicator.storeMessages, List.map_map]
    rfl
  · simp only [requestMessages, MPIActorCommunicator.requestMessages, List.map_map]
    apply List.map_congr_left
    intro req _
    have hparts : (req.2.map (ReqPart.memory padding)).map ReqPartMemory.part = req.2 := by
      rw [List.map_map]
      exact List.map_id _
    simp only [Function.comp_apply, Envelope.fields, wire, hparts]

/-- Whatever memory held, the buffers as they were built are delivered, each once, and each is
read as the message that it was built from. -/
def Arrives (program : (Nat → Nat → UInt8) → List (Command Int UInt8))
    (sends : List (Int × Envelope)) : Prop :=
  ∀ memory, Delivers (program memory) ((messages memory sends).map Message.built) ∧
    ((messages memory sends).map Message.built).map (fun d => (d.1, createMessage d.2)) =
      sends.map fun send => (send.1, some send.2.fields)

/-- Every part's owner gets one `ReleaseResultPart` with the part's resid. -/
def ReleaseArrives (dv : VectorDistribution) : Prop :=
  Arrives (fun memory => dvRelease memory dv) (releaseMessages dv)

/-- Every part's owner gets one `StoreResult` with the part's key and slice. -/
def DistributeArrives (v : Bytes) (dv : VectorDistribution) : Prop :=
  Arrives (fun memory => blockDistribute memory v dv) (storeMessages v dv)

/-- Every process that is asked gets one `GetResultParts`, with its own sub-requests. -/
def GetPartArrives (padding : ResultReqPart → List.Vector UInt8 4) (self : Int)
    (dv : VectorDistribution) (offset size : Nat) : Prop :=
  ((partRequests self dv offset size).reqs.map Prod.fst).Nodup ∧
    Arrives (fun memory => dvGetPart memory padding self dv offset size)
      (requestMessages padding self (partRequests self dv offset size))

theorem construct_of_inRange {m : Envelope} (hm : m.InRange) (memory : Nat → UInt8) :
    ∃ block, m.construct memory = some block ∧ block.length = m.size := by
  have hfit : ∀ w ∈ m.writes, w.stop ≤ (allocate memory m.size).length := by
    intro w hw
    rw [length_allocate]
    exact Envelope.writes_inside hm w hw
  refine ⟨_, Layout.storeAll_eq hfit, ?_⟩
  rw [length_applyWrites hfit, length_allocate]

theorem toInt32_lt (n : Nat) : toInt32 (n : Int) < 2 ^ 31 := by
  unfold toInt32
  rw [Int.bmod_def]
  omega

/-- A size survives its way through `int` when it is less than 2^31 … -/
theorem toInt32_eq_iff (n : Nat) : toInt32 (n : Int) = n ↔ n < 2 ^ 31 := by
  refine ⟨fun h => ?_, toInt32_natCast⟩
  have hlt := toInt32_lt n
  rw [h] at hlt
  omega

/-- … and falls otherwise. -/
theorem toInt32_le (n : Nat) : toInt32 (n : Int) ≤ n := by
  have hlt := toInt32_lt n
  by_cases hn : n < 2 ^ 31
  · rw [toInt32_natCast hn]
  · omega

theorem count_message (memory : Nat → UInt8) (send : Int × Envelope) :
    (message memory send).count = toInt32 send.2.size := by
  rw [message]

theorem message_fits {send : Int × Envelope} (h : send.2.InRange) (memory : Nat → UInt8) :
    (message memory send).Fits ∧ ((message memory send).block.getD []).length = send.2.size := by
  obtain ⟨block, hblock, hlen⟩ := construct_of_inRange h memory
  refine ⟨⟨block, hblock, ?_⟩, ?_⟩
  · rw [count_message, hlen]
    exact toInt32_le _
  · rw [message, hblock]
    exact hlen

theorem mem_messages {memory : Nat → Nat → UInt8} {sends : List (Int × Envelope)}
    {m : Message Int UInt8} (hm : m ∈ messages memory sends) :
    ∃ i, ∃ send ∈ sends, m = message (memory i) send := by
  obtain ⟨i, hi, rfl⟩ := List.mem_mapIdx.mp hm
  exact ⟨i, sends[i], List.getElem_mem hi, rfl⟩

/-- Messages that fit into an `int` are read as what they were built from. -/
theorem read_built {sends : List (Int × Envelope)} (h : ∀ send ∈ sends, send.2.Valid)
    (memory : Nat → Nat → UInt8) :
    ((messages memory sends).map Message.built).map (fun d => (d.1, createMessage d.2)) =
      sends.map fun send => (send.1, some send.2.fields) := by
  apply List.ext_getElem
  · simp [messages]
  · intro i hi hi'
    rw [List.length_map] at hi'
    have hsend := h sends[i] (List.getElem_mem hi')
    have hroom : sends[i].2.size ≤ (allocate (memory i) sends[i].2.size).length :=
      (length_allocate _ _).ge
    obtain ⟨block, hblock, -, -, hread, -⟩ := storeAll_writes hsend hroom
    have hconstruct : sends[i].2.construct (memory i) = some block := hblock
    simp only [messages, List.getElem_map, List.getElem_mapIdx, Message.built, message,
      hconstruct, Option.getD_some, hread]

/-- From a list, everything arrives exactly when every size fits into an `int`. -/
theorem arrives_fromList_iff {sends : List (Int × Envelope)}
    (h : ∀ send ∈ sends, send.2.InRange) :
    Arrives (fun memory => sendFromList (messages memory sends)) sends ↔
      ∀ send ∈ sends, send.2.size < 2 ^ 31 := by
  have hfits : ∀ memory, ∀ m ∈ messages memory sends, m.Fits := by
    intro memory m hm
    obtain ⟨i, send, hsend, rfl⟩ := mem_messages hm
    exact (message_fits (h send hsend) _).1
  constructor
  · intro harrives send hsend
    obtain ⟨hdelivers, -⟩ := harrives fun _ _ => 0
    rw [sendFromList_delivers_iff (hfits _)] at hdelivers
    obtain ⟨i, hi, rfl⟩ := List.getElem_of_mem hsend
    have hcount := hdelivers (message (fun _ => 0) sends[i])
      (List.mem_mapIdx.mpr ⟨i, hi, rfl⟩)
    rw [count_message, (message_fits (h _ (List.getElem_mem hi)) _).2] at hcount
    exact (toInt32_eq_iff _).mp hcount
  · intro hsize memory
    refine ⟨(sendFromList_delivers_iff (hfits memory)).mpr ?_,
      read_built (fun send hsend => ⟨h send hsend, hsize send hsend⟩) memory⟩
    intro m hm
    obtain ⟨i, send, hsend, rfl⟩ := mem_messages hm
    rw [count_message, (message_fits (h send hsend) _).2]
    exact (toInt32_eq_iff _).mpr (hsize send hsend)

theorem arrives_fromLoop_iff {sends : List (Int × Envelope)} :
    Arrives (fun memory => sendFromLoop (messages memory sends)) sends ↔ sends = [] := by
  constructor
  · intro harrives
    obtain ⟨hdelivers, -⟩ := harrives fun _ _ => 0
    have hnil := sendFromLoop_delivers_iff.mp hdelivers
    exact List.mapIdx_eq_nil_iff.mp hnil
  · rintro rfl memory
    exact ⟨sendFromLoop_delivers_iff.mpr rfl, rfl⟩

/-- The fields of a part are values of their types. -/
def InTypes (part : VectorDistributionPart) : Prop :=
  IsInt part.pid ∧ IsInt part.resid ∧ IsSize part.size ∧ IsSize part.offset

variable {v : Bytes} {dv : VectorDistribution} {self : Int} {offset size : Nat}

theorem releaseArrives_iff : ReleaseArrives dv ↔ dv.parts = [] := by
  refine arrives_fromLoop_iff.trans ?_
  rw [releaseMessages, List.map_eq_nil_iff]

theorem distributeArrives_iff (hdv : ∀ part ∈ dv.parts, InTypes part)
    (hin : ∀ part ∈ dv.parts, part.offset + part.size ≤ v.length) :
    DistributeArrives v dv ↔ ∀ part ∈ dv.parts, 28 + part.size < 2 ^ 31 := by
  have hrange : ∀ send ∈ storeMessages v dv, send.2.InRange := by
    intro send hsend
    obtain ⟨part, hpart, rfl⟩ := List.mem_map.mp hsend
    exact ⟨(hdv part hpart).2.1, trivial⟩
  refine (arrives_fromList_iff hrange).trans ?_
  rw [storeMessages, List.forall_mem_map]
  apply forall₂_congr
  intro part hpart
  have hlen : (slice v part.offset part.size).length = part.size :=
    length_slice_of_le (hin part hpart)
  simp only [Envelope.size, ResultContent.onlyAddress, ResultContent.size, hlen,
    Bool.false_eq_true, if_false]

theorem reqPart_inTypes {part : VectorDistributionPart} (hpart : InTypes part)
    (hoffset : IsSize offset) (reqEnd : Nat) :
    IsInt (reqPart part offset reqEnd).resid ∧ IsSize (reqPart part offset reqEnd).offset ∧
      IsSize (reqPart part offset reqEnd).size ∧ IsSize (reqPart part offset reqEnd).dst := by
  obtain ⟨-, hresid, -, hoff⟩ := hpart
  unfold IsSize at *
  refine ⟨hresid, ?_, ?_, ?_⟩
  · simp only [reqPart, ActorServer.subPart]
    split_ifs <;> omega
  · exact toUInt64_lt _
  · simp only [reqPart, ActorServer.subPart]
    split_ifs <;> omega

theorem getPartArrives_iff (padding : ResultReqPart → List.Vector UInt8 4) (hself : IsInt self)
    (hdv : ∀ part ∈ dv.parts, InTypes part) (hoffset : IsSize offset) :
    GetPartArrives padding self dv offset size ↔
      ∀ req ∈ (partRequests self dv offset size).reqs, 12 + 32 * req.2.length < 2 ^ 31 := by
  have hrange : ∀ send ∈ requestMessages padding self (partRequests self dv offset size),
      send.2.InRange := by
    intro send hsend
    obtain ⟨req, hreq, rfl⟩ := List.mem_map.mp hsend
    refine ⟨hself, fun p hp => ?_⟩
    obtain ⟨r, hr, rfl⟩ := List.mem_map.mp hp
    obtain ⟨part, hpart, -, -, -, rfl⟩ := mem_reqs.mp ⟨req, hreq, rfl, hr⟩
    exact reqPart_inTypes (hdv part hpart) hoffset _
  have hnodup : ((partRequests self dv offset size).reqs.map Prod.fst).Nodup :=
    (sorted_reqs self dv offset size).imp fun h => ne_of_lt h
  refine (and_iff_right hnodup).trans ((arrives_fromList_iff hrange).trans ?_)
  rw [requestMessages, List.forall_mem_map]
  apply forall₂_congr
  intro req hreq
  simp only [Envelope.size, List.length_map]

/-- Messages that a list keeps arrive when their sizes fit into an `int`; those of `dv_release`
arrive only where there are none. -/
theorem async_sends_arrive_iff (v : Bytes) (dv : VectorDistribution) (self : Int)
    (offset size : Nat) (padding : ResultReqPart → List.Vector UInt8 4) (hself : IsInt self)
    (hdv : ∀ part ∈ dv.parts, InTypes part) (hoffset : IsSize offset) :
    (ReleaseArrives dv ↔ dv.parts = []) ∧
      ((∀ part ∈ dv.parts, part.offset + part.size ≤ v.length) →
        (DistributeArrives v dv ↔ ∀ part ∈ dv.parts, 28 + part.size < 2 ^ 31)) ∧
      (GetPartArrives padding self dv offset size ↔
        ∀ req ∈ (partRequests self dv offset size).reqs, 12 + 32 * req.2.length < 2 ^ 31) :=
  ⟨releaseArrives_iff, distributeArrives_iff hdv, getPartArrives_iff padding hself hdv hoffset⟩

/-- Two parts of four bytes at two processes. -/
def twoParts : VectorDistribution := ⟨[⟨1, 7, 4, 0⟩, ⟨2, 8, 4, 4⟩]⟩

theorem async_sends_arrive_iff_two :
    (ReleaseArrives twoParts ↔ twoParts.parts = []) ∧
      ((∀ part ∈ twoParts.parts, part.offset + part.size ≤ [1, 2, 3, 4, 5, 6, 7, 8].length) →
        (DistributeArrives [1, 2, 3, 4, 5, 6, 7, 8] twoParts ↔
          ∀ part ∈ twoParts.parts, 28 + part.size < 2 ^ 31)) ∧
      (GetPartArrives (fun _ => .replicate 4 0) 0 twoParts 2 4 ↔
        ∀ req ∈ (partRequests 0 twoParts 2 4).reqs, 12 + 32 * req.2.length < 2 ^ 31) := by
  apply async_sends_arrive_iff [1, 2, 3, 4, 5, 6, 7, 8] twoParts 0 2 4
  · exact ⟨by decide, by decide⟩
  · simp [twoParts, InTypes, IsInt, IsSize]
  · unfold IsSize
    decide

/-- The first of two releases is delivered with the resid of the second. -/
theorem release_crosses : ¬ ReleaseArrives twoParts ∧
    ∃ moves s data, run growingAllocator moves
        (start ∅ (dvRelease (fun _ _ => 0) twoParts)) = some s ∧
      s.delivered = [(1, data)] ∧ createMessage data = some (.releaseResultPart 8) := by
  constructor
  · intro h
    have hnil := releaseArrives_iff.mp h
    cases hnil
  · have hfirst : (Envelope.releaseResultPart 7).construct (fun _ => 0) =
        some [10, 0, 0, 0, 7, 0, 0, 0] := by decide
    have hsecond : (Envelope.releaseResultPart 8).construct (fun _ => 0) =
        some [10, 0, 0, 0, 8, 0, 0, 0] := by decide
    have hcount : ∀ resid, toInt32 ((Envelope.releaseResultPart resid).size : Nat) = 8 :=
      fun _ => toInt32_natCast (n := 8) (by decide)
    have hmessages : messages (fun _ _ => 0) (releaseMessages twoParts) =
        [⟨1, some [10, 0, 0, 0, 7, 0, 0, 0], 8⟩, ⟨2, some [10, 0, 0, 0, 8, 0, 0, 0], 8⟩] := by
      simp [messages, releaseMessages, twoParts, message, hfirst, hsecond, hcount]
    have hcross : ∃ moves s, run growingAllocator moves (start ∅ (sendFromLoop
        ([⟨1, some [10, 0, 0, 0, 7, 0, 0, 0], 8⟩, ⟨2, some [10, 0, 0, 0, 8, 0, 0, 0], 8⟩] :
          List (Message Int UInt8)))) = some s ∧
        s.delivered = [(1, [10, 0, 0, 0, 8, 0, 0, 0])] :=
      loop_crosses growingAllocator ⟨1, some [10, 0, 0, 0, 7, 0, 0, 0], 8⟩
        ⟨2, some [10, 0, 0, 0, 8, 0, 0, 0], 8⟩ rfl rfl (by decide) (by decide) (by decide) []
    obtain ⟨moves, s, hrun, hdelivered⟩ := hcross
    refine ⟨moves, s, [10, 0, 0, 0, 8, 0, 0, 0], ?_, hdelivered, by decide⟩
    rw [dvRelease, hmessages]
    exact hrun

end ActiveBsp.AsyncMessages
