import ActiveBsp.Actormsg.Envelopes

/-!
# Reading the envelopes back

The writes of a constructor lie inside the size it asked for and meet nowhere, so
all of them are in the buffer afterwards, and a getter that reads where a field
was written gets that field. What follows the message in a larger buffer is
neither written nor read.
-/
namespace ActiveBsp.Actormsg

open Library Library.Buffer Library.Layout Serialization

set_option autoImplicit false

/-- `new char[size]`, with whatever the memory holds. -/
def allocate (memory : Nat → UInt8) (size : Nat) : Bytes := (List.range size).map memory

@[simp] theorem length_allocate (memory : Nat → UInt8) (size : Nat) :
    (allocate memory size).length = size := by simp [allocate]

/-- A constructor that allocates its own buffer; none when it writes outside it. -/
def Envelope.construct (memory : Nat → UInt8) (m : Envelope) : Option Bytes :=
  storeAll (allocate memory m.size) m.writes

/-- The constructors that are given the send buffer. -/
inductive Reuse where
  | callActor (functionName : Bytes) (futureKey : Int) (args : Arguments)
  | storeResult (resid : Int) (content : ResultContent)
  | storeResultPart (resid : Int) (data : Bytes) (offset fullSize : Nat)

namespace Reuse

def envelope : Reuse → Envelope
  | callActor functionName futureKey args => .callActor functionName futureKey args
  | storeResult resid content => .storeResult resid content
  | storeResultPart resid data offset fullSize => .storeResultPart resid data offset fullSize

/-- A call is sent with its own size, a result with the size of the buffer. -/
def sent (written : Bytes) : Reuse → Bytes
  | callActor functionName futureKey args =>
    written.take (Envelope.callActor functionName futureKey args).size
  | storeResult _ _ => written
  | storeResultPart .. => written

end Reuse

/-- The send buffer when the constructor starts to write and when it is done, and what is sent. -/
structure SendStep where
  reserved : Bytes
  written : Bytes
  sent : Bytes

/-- A buffer that is too small is replaced, any other one is kept. -/
def enforceBufferSize (memory : Nat → UInt8) (buf : Bytes) (size : Nat) : Bytes :=
  if buf.length < size then allocate memory size else buf

/-- The buffer that a constructor writes to. That of `StoreResultPart` does not pass the buffer
that it is given to `ActorMessage`, and so always allocates one. -/
def Reuse.reserve (memory : Nat → UInt8) (buf : Bytes) (r : Reuse) : Bytes :=
  match r with
  | storeResultPart .. => allocate memory r.envelope.size
  | _ => enforceBufferSize memory buf r.envelope.size

def Reuse.send (memory : Nat → UInt8) (buf : Bytes) (r : Reuse) : Option SendStep := do
  let reserved := r.reserve memory buf
  let written ← storeAll reserved r.envelope.writes
  pure ⟨reserved, written, r.sent written⟩

/-- One message after another through the same send buffer. -/
def sendAll : Bytes → List ((Nat → UInt8) × Reuse) → Option (List SendStep)
  | _, [] => some []
  | buf, r :: rs => do
    let step ← r.2.send r.1 buf
    let steps ← sendAll step.written rs
    pure (step :: steps)

namespace ContiguousUnit

theorem length_elems {elemSize : Nat} (elems : List (List.Vector UInt8 elemSize)) :
    (elems.flatMap List.Vector.toList).length = elems.length * elemSize := by
  rw [length_flatMap fun x _ => x.toList_length, Nat.mul_comm]

theorem length_bytes (unit : ContiguousUnit) : unit.bytes.length = unit.predictSize := by
  cases unit with
  | object memory => rfl
  | vector elemSize elems =>
    rw [bytes, List.length_append, LittleEndian.length_encode, length_elems, predictSize]

theorem dataOf_writes (unit : ContiguousUnit) (pos : Nat) : dataOf (unit.writes pos) = unit.bytes := by
  cases unit with
  | object memory => exact List.append_nil memory
  | vector elemSize elems => simp [writes, dataOf, bytes]

theorem consecutive_writes (unit : ContiguousUnit) (pos : Nat) :
    Consecutive pos (unit.writes pos) := by
  cases unit with
  | object memory => exact ⟨rfl, trivial⟩
  | vector elemSize elems =>
    refine ⟨rfl, ?_, trivial⟩
    show pos + 8 = pos + (LittleEndian.encode 8 elems.length).length
    rw [LittleEndian.length_encode]

end ContiguousUnit

namespace Arguments

theorem length_bytes (args : Arguments) : args.bytes.length = args.predictSize := by
  cases args with
  | ready args => rfl
  | boost archive => rfl
  | contiguous units =>
    induction units with
    | nil => rfl
    | cons unit units ih =>
      simp only [bytes, predictSize] at ih ⊢
      rw [List.flatMap_cons, List.length_append, ih, unit.length_bytes, List.map_cons,
        List.sum_cons]

theorem dataOf_writesContiguous (pos : Nat) (units : List ContiguousUnit) :
    dataOf (writesContiguous pos units) = units.flatMap ContiguousUnit.bytes := by
  induction units generalizing pos with
  | nil => rfl
  | cons unit units ih =>
    rw [writesContiguous, dataOf_append, unit.dataOf_writes, ih, List.flatMap_cons]

theorem dataOf_writes (args : Arguments) (pos : Nat) : dataOf (args.writes pos) = args.bytes := by
  cases args with
  | ready args => exact List.append_nil args
  | boost archive => exact List.append_nil archive
  | contiguous units => exact dataOf_writesContiguous pos units

theorem consecutive_writesContiguous (pos : Nat) (units : List ContiguousUnit) :
    Consecutive pos (writesContiguous pos units) := by
  induction units generalizing pos with
  | nil => trivial
  | cons unit units ih =>
    refine (unit.consecutive_writes pos).append ?_
    rw [unit.dataOf_writes, unit.length_bytes]
    exact ih _

theorem consecutive_writes (args : Arguments) (pos : Nat) : Consecutive pos (args.writes pos) := by
  cases args with
  | ready args => exact ⟨rfl, trivial⟩
  | boost archive => exact ⟨rfl, trivial⟩
  | contiguous units => exact consecutive_writesContiguous pos units

theorem writes_inside {args : Arguments} {pos : Nat} {w : Write UInt8} (hw : w ∈ args.writes pos) :
    pos ≤ w.pos ∧ w.stop ≤ pos + args.predictSize := by
  have := (args.consecutive_writes pos).inside hw
  rwa [dataOf_writes, length_bytes] at this

end Arguments

@[simp] theorem ReqPartMemory.length_bytes (p : ReqPartMemory) : p.bytes.length = 32 := by
  simp [bytes, p.length_padding]

namespace Envelope

theorem length_content (content : ResultContent) :
    content.bytes.length = if content.onlyAddress then 8 else content.size := by
  cases content with
  | data content => rfl
  | address addr size => exact LittleEndian.length_encode 8 addr

section Fields

variable (pos : Nat)

@[simp] theorem pos_writeInt (x : Int) : (writeInt pos x).pos = pos := rfl
@[simp] theorem pos_writeSize (n : Nat) : (writeSize pos n).pos = pos := rfl
@[simp] theorem pos_writeBool (b : Bool) : (writeBool pos b).pos = pos := rfl

@[simp] theorem stop_writeInt (x : Int) : (writeInt pos x).stop = pos + 4 := by
  rw [Write.stop, writeInt, length_intBytes]

@[simp] theorem stop_writeSize (n : Nat) : (writeSize pos n).stop = pos + 8 := by
  rw [Write.stop, writeSize, LittleEndian.length_encode]

@[simp] theorem stop_writeBool (b : Bool) : (writeBool pos b).stop = pos + 1 := rfl

@[simp] theorem stop_copy (data : Bytes) : (Write.mk pos data).stop = pos + data.length := rfl

end Fields

/-- The instruction stands before everything else, and nothing is behind the size. -/
theorem body_inside {m : Envelope} (hm : m.InRange) : ∀ w ∈ m.body, 4 ≤ w.pos ∧ w.stop ≤ m.size := by
  cases m with
  | callActor functionName futureKey args =>
    intro w hw
    rcases List.mem_append.mp hw with hhead | hargs
    · simp only [List.mem_cons, List.not_mem_nil, or_false] at hhead
      rcases hhead with rfl | rfl | rfl | rfl | rfl <;> simp [size] <;> omega
    · have := Arguments.writes_inside hargs
      simp only [size]
      omega
  | fetch pids keys reqFutureKey resFutureKey dvSize =>
    have hkeys : keys.length = pids.length := hm.1
    simp [body, size]
    omega
  | _ => simp [body, size, length_content] <;> omega

theorem body_apart (m : Envelope) : m.body.Pairwise Apart := by
  cases m with
  | callActor functionName futureKey args =>
    refine List.pairwise_append.mpr ⟨?_, (args.consecutive_writes _).apart, ?_⟩
    · simp [Apart]
    · intro w hw v hv
      have := Arguments.writes_inside hv
      left
      simp only [List.mem_cons, List.not_mem_nil, or_false] at hw
      rcases hw with rfl | rfl | rfl | rfl | rfl <;> simp <;> omega
  | _ => simp [body, Apart] <;> omega

theorem writes_inside {m : Envelope} (hm : m.InRange) : ∀ w ∈ m.writes, w.stop ≤ m.size := by
  intro w hw
  rcases List.mem_cons.mp hw with rfl | hbody
  · rw [stop_writeInt]
    cases m <;> simp only [size] <;> omega
  · exact (body_inside hm w hbody).2

theorem writes_apart {m : Envelope} (hm : m.InRange) : m.writes.Pairwise Apart := by
  refine List.pairwise_cons.mpr ⟨fun w hw => ?_, m.body_apart⟩
  left
  rw [stop_writeInt]
  exact (body_inside hm w hw).1

end Envelope

namespace Getters

variable {buf : Bytes} {pos : Nat}

theorem envelopeOffset_natCast (data n : Nat) : envelopeOffset data n = some (data + n) := rfl

theorem readInt_of_holds {x : Int} (hx : IsInt x) (h : Holds buf pos (intBytes x)) :
    readInt buf pos = some x := by
  have hload : load buf pos 4 = some (intBytes x) := by
    rw [← load_of_holds h, length_intBytes]
  rw [readInt, hload, Option.map_some, intOfBytes_intBytes hx.1 hx.2]

theorem readNat_of_holds {n : Nat} (hn : n < 2 ^ 31) (h : Holds buf pos (intBytes n)) :
    readInt buf pos = some (n : Int) :=
  readInt_of_holds ⟨by omega, by omega⟩ h

theorem readSize_of_holds {n : Nat} (hn : IsSize n) (h : Holds buf pos (LittleEndian.encode 8 n)) :
    readSize buf pos = some n := by
  have hload : load buf pos 8 = some (LittleEndian.encode 8 n) := by
    rw [← load_of_holds h, LittleEndian.length_encode]
  have hlt : n < 256 ^ 8 := hn
  rw [readSize, hload, Option.map_some, LittleEndian.decode_encode_of_lt hlt]

theorem readBool_of_holds {b : Bool} (h : Holds buf pos [if b then 1 else 0]) :
    readBool buf pos = some b := by
  have hload : load buf pos 1 = some [if b then 1 else 0] := load_of_holds h
  rw [readBool, hload]
  cases b <;> rfl

theorem readInts_of_holds {xs : List Int} (hxs : ∀ x ∈ xs, IsInt x)
    (h : Holds buf pos (xs.flatMap intBytes)) : readInts buf xs.length pos = some xs := by
  have heach : loadEach (readInt buf) 4 xs.length pos = some (xs.map id) :=
    loadEach_of_holds (fun x _ => length_intBytes x) (fun x hx _ => readInt_of_holds (hxs x hx)) h
  rw [List.map_id] at heach
  exact heach

theorem readVchar_of_holds {data : Bytes} (h : Holds buf pos data) :
    readVchar buf data.length pos = some data := load_of_holds h

theorem readPart_of_holds {p : ReqPartMemory} (hresid : IsInt p.part.resid)
    (hoffset : IsSize p.part.offset) (hsize : IsSize p.part.size) (hdst : IsSize p.part.dst)
    (h : Holds buf pos p.bytes) : readPart buf pos = some p.part := by
  obtain ⟨hr, h⟩ := holds_append.mp h
  obtain ⟨_, h⟩ := holds_append.mp h
  obtain ⟨ho, h⟩ := holds_append.mp h
  obtain ⟨hs, hd⟩ := holds_append.mp h
  simp only [length_intBytes, p.length_padding, LittleEndian.length_encode, Nat.add_assoc] at ho hs hd
  rw [readPart, readInt_of_holds hresid hr]
  simp only [Option.bind_eq_bind, Option.bind_some, readSize_of_holds hoffset ho,
    readSize_of_holds hsize hs, readSize_of_holds hdst hd]
  rfl

end Getters

/-- What a constructor wrote is in the buffer. -/
def Written (buf : Bytes) (m : Envelope) : Prop := ∀ w ∈ m.body, Holds buf w.pos w.data

section Messages

variable {buf : Bytes}

open Getters

theorem createActor_of_written {actorName : Bytes} {pids : List Int}
    (hm : (Envelope.createActor actorName pids).Valid)
    (h : Written buf (.createActor actorName pids)) :
    createActor buf = some (.createActor actorName pids) := by
  obtain ⟨⟨hzero, hpids⟩, hsize⟩ := hm
  simp only [Envelope.size] at hsize
  simp only [Written, Envelope.body, List.forall_mem_cons] at h
  obtain ⟨hnameOffset, hpidsOffset, hpidsLength, hname, hbehind, _⟩ := h
  have r4 : readInt buf 4 = some ((0 : Nat) : Int) := readNat_of_holds (by omega) hnameOffset
  have r8 : readInt buf 8 = some ((actorName.length + 1 : Nat) : Int) :=
    readNat_of_holds (by omega) hpidsOffset
  have r12 : readInt buf 12 = some (pids.length : Int) := readNat_of_holds (by omega) hpidsLength
  have hread : readName buf 16 = some actorName := terminated_of_holds hname hzero
  have hints : readInts buf pids.length (16 + (actorName.length + 1)) = some pids :=
    readInts_of_holds hpids hbehind
  simp only [createActor, r4, r8, r12, Option.bind_eq_bind, Option.bind_some, envelopeOffset_natCast,
    Nat.add_zero, hread, hints]
  rfl

theorem callActor_of_written {functionName : Bytes} {futureKey : Int} {args : Arguments}
    (hm : (Envelope.callActor functionName futureKey args).Valid)
    (h : Written buf (.callActor functionName futureKey args)) :
    callActor buf = some (.callActor functionName args.bytes futureKey) := by
  obtain ⟨⟨hzero, hkey⟩, hsize⟩ := hm
  simp only [Envelope.size] at hsize
  simp only [Written, Envelope.body, List.forall_mem_append, List.forall_mem_cons] at h
  obtain ⟨⟨hfutureKey, hargsSize, hnameOffset, hargsOffset, hname, _⟩, hargs⟩ := h
  have r4 : readInt buf 4 = some ((0 : Nat) : Int) := readNat_of_holds (by omega) hnameOffset
  have r8 : readInt buf 8 = some futureKey := readInt_of_holds hkey hfutureKey
  have r12 : readInt buf 12 = some ((functionName.length + 1 : Nat) : Int) :=
    readNat_of_holds (by omega) hargsOffset
  have r16 : readInt buf 16 = some (args.bytes.length : Int) := by
    rw [args.length_bytes]
    exact readNat_of_holds (by omega) hargsSize
  have hread : readName buf 20 = some functionName := terminated_of_holds hname hzero
  have hbytes : Holds buf (20 + (functionName.length + 1)) args.bytes := by
    have hroom : 20 + (functionName.length + 1) ≤ buf.length := by
      have := hname.1
      rwa [List.length_append, List.length_singleton] at this
    have := (args.consecutive_writes _).holds hroom hargs
    rwa [args.dataOf_writes] at this
  have hvchar : readVchar buf args.bytes.length (20 + (functionName.length + 1)) =
      some args.bytes := readVchar_of_holds hbytes
  simp only [callActor, r4, r8, r12, r16, Option.bind_eq_bind, Option.bind_some,
    envelopeOffset_natCast, Nat.add_zero, hread, hvchar]
  rfl

theorem registerFuture_of_written {futureKey : Int} {futureData : Bytes}
    (hm : (Envelope.registerFuture futureKey futureData).Valid)
    (h : Written buf (.registerFuture futureKey futureData)) :
    registerFuture buf = some (.registerFuture futureKey futureData) := by
  obtain ⟨hkey, hsize⟩ := hm
  simp only [Envelope.size] at hsize
  simp only [Written, Envelope.body, List.forall_mem_cons] at h
  obtain ⟨hfutureKey, hdataSize, hdataOffset, hdata, _⟩ := h
  have r4 : readInt buf 4 = some futureKey := readInt_of_holds hkey hfutureKey
  have r12 : readInt buf 12 = some (futureData.length : Int) :=
    readNat_of_holds (by omega) hdataSize
  have r8 : readInt buf 8 = some ((0 : Nat) : Int) := readNat_of_holds (by omega) hdataOffset
  have hvchar : readVchar buf futureData.length 16 = some futureData := readVchar_of_holds hdata
  simp only [registerFuture, r4, r8, r12, Option.bind_eq_bind, Option.bind_some,
    envelopeOffset_natCast, Nat.add_zero, hvchar]
  rfl

theorem storeResult_of_written {resid : Int} {content : ResultContent}
    (hm : (Envelope.storeResult resid content).Valid)
    (h : Written buf (.storeResult resid content)) :
    storeResult buf = some (.storeResult resid content) := by
  obtain ⟨⟨hrange, hcontent⟩, hsize⟩ := hm
  simp only [Envelope.size] at hsize
  simp only [Written, Envelope.body, List.forall_mem_cons] at h
  obtain ⟨hresid, hdataSize, hisAddr, hdata, _⟩ := h
  have r4 : readInt buf 4 = some resid := readInt_of_holds hrange hresid
  have r20 : readBool buf 20 = some content.onlyAddress := readBool_of_holds hisAddr
  cases content with
  | data content =>
    have hlen : IsSize content.length := by
      simp only [ResultContent.onlyAddress, ResultContent.size, Bool.false_eq_true,
        if_false] at hsize
      unfold IsSize
      omega
    have r12 : readSize buf 12 = some content.length := readSize_of_holds hlen hdataSize
    have hload : load buf 21 content.length = some content := load_of_holds hdata
    simp only [storeResult, r4, r12, r20, Option.bind_eq_bind, Option.bind_some,
      ResultContent.onlyAddress, hload]
    rfl
  | address addr size =>
    have r12 : readSize buf 12 = some size := readSize_of_holds hcontent.2 hdataSize
    have r21 : readSize buf 21 = some addr := readSize_of_holds hcontent.1 hdata
    simp only [storeResult, r4, r12, r20, r21, Option.bind_eq_bind, Option.bind_some,
      ResultContent.onlyAddress]
    rfl

theorem storeResultPart_of_written {resid : Int} {data : Bytes} {offset fullSize : Nat}
    (hm : (Envelope.storeResultPart resid data offset fullSize).Valid)
    (h : Written buf (.storeResultPart resid data offset fullSize)) :
    storeResultPart buf = some (.storeResultPart resid data offset) := by
  obtain ⟨⟨hrange, hoffset, _⟩, hsize⟩ := hm
  simp only [Envelope.size] at hsize
  simp only [Written, Envelope.body, List.forall_mem_cons] at h
  obtain ⟨hresid, hdataSize, _, hdataOffset, hdata, _⟩ := h
  have hlen : IsSize data.length := by
    unfold IsSize
    omega
  have r4 : readInt buf 4 = some resid := readInt_of_holds hrange hresid
  have r12 : readSize buf 12 = some data.length := readSize_of_holds hlen hdataSize
  have r20 : readSize buf 20 = some offset := readSize_of_holds hoffset hdataOffset
  have hload : load buf 36 data.length = some data := load_of_holds hdata
  simp only [storeResultPart, r4, r12, r20, Option.bind_eq_bind, Option.bind_some, hload]
  rfl

theorem getResultParts_of_written {forwardTo : Int} {parts : List ReqPartMemory}
    (hm : (Envelope.getResultParts forwardTo parts).Valid)
    (h : Written buf (.getResultParts forwardTo parts)) :
    getResultParts buf = some (.getResultParts forwardTo (parts.map ReqPartMemory.part)) := by
  obtain ⟨⟨hrange, hfields⟩, hsize⟩ := hm
  simp only [Envelope.size] at hsize
  simp only [Written, Envelope.body, List.forall_mem_cons] at h
  obtain ⟨hnparts, hforwardTo, hparts, _⟩ := h
  have r4 : readInt buf 4 = some (parts.length : Int) := readNat_of_holds (by omega) hnparts
  have r8 : readInt buf 8 = some forwardTo := readInt_of_holds hrange hforwardTo
  have heach : loadEach (readPart buf) 32 parts.length 12 = some (parts.map ReqPartMemory.part) :=
    loadEach_of_holds (fun p _ => p.length_bytes)
      (fun p hp _ hholds =>
        have hp := hfields p hp
        readPart_of_holds hp.1 hp.2.1 hp.2.2.1 hp.2.2.2 hholds) hparts
  have hcount : Int.toNat? (parts.length : Int) = some parts.length := rfl
  simp only [getResultParts, r4, r8, Option.bind_eq_bind, Option.bind_some, hcount, heach]
  rfl

theorem distributeVector_of_written {type : DistrType} {n elemSize : Nat}
    (hm : (Envelope.distributeVector type n elemSize).Valid)
    (h : Written buf (.distributeVector type n elemSize)) :
    distributeVector buf = some (.distributeVector type n elemSize) := by
  obtain ⟨⟨hn, helemSize⟩, _⟩ := hm
  simp only [Written, Envelope.body, List.forall_mem_cons] at h
  obtain ⟨hdistr, hargs, hsizes, _⟩ := h
  have hcode : IsInt type.code := by
    cases type
    exact ⟨by decide, by decide⟩
  have htype : DistrType.ofCode type.code = some type := by
    cases type
    rfl
  have r4 : readInt buf 4 = some type.code := readInt_of_holds hcode hdistr
  have r8 : readSize buf 8 = some n := readSize_of_holds hn hargs
  have r16 : readSize buf 16 = some elemSize := readSize_of_holds helemSize hsizes
  simp only [distributeVector, r4, r8, r16, Option.bind_eq_bind, Option.bind_some, htype]
  rfl

theorem prefetch_of_written {futurePid futureKey : Int} {dvSize : Nat}
    (hm : (Envelope.prefetch futurePid futureKey dvSize).Valid)
    (h : Written buf (.prefetch futurePid futureKey dvSize)) :
    prefetch buf = some (.prefetch futurePid futureKey dvSize) := by
  obtain ⟨⟨hpid, hkey, hdv⟩, _⟩ := hm
  simp only [Written, Envelope.body, List.forall_mem_cons] at h
  obtain ⟨hfuturePid, hfutureKey, hdvSize, _⟩ := h
  have r4 : readInt buf 4 = some futurePid := readInt_of_holds hpid hfuturePid
  have r8 : readInt buf 8 = some futureKey := readInt_of_holds hkey hfutureKey
  have r12 : readSize buf 12 = some dvSize := readSize_of_holds hdv hdvSize
  simp only [prefetch, r4, r8, r12, Option.bind_eq_bind, Option.bind_some]
  rfl

theorem fetch_of_written {pids keys : List Int} {reqFutureKey resFutureKey : Int} {dvSize : Nat}
    (hm : (Envelope.fetch pids keys reqFutureKey resFutureKey dvSize).Valid)
    (h : Written buf (.fetch pids keys reqFutureKey resFutureKey dvSize)) :
    fetch buf = some (.fetch pids keys reqFutureKey resFutureKey dvSize) := by
  obtain ⟨⟨hlen, hpids, hkeys, hreq, hres, hdv⟩, hsize⟩ := hm
  simp only [Envelope.size] at hsize
  simp only [Written, Envelope.body, List.forall_mem_cons] at h
  obtain ⟨hnpids, hreqKey, hresKey, hdvSize, hpidsAt, hkeysAt, _⟩ := h
  have r20 : readInt buf 20 = some (pids.length : Int) := readNat_of_holds (by omega) hnpids
  have r12 : readInt buf 12 = some reqFutureKey := readInt_of_holds hreq hreqKey
  have r16 : readInt buf 16 = some resFutureKey := readInt_of_holds hres hresKey
  have r4 : readSize buf 4 = some dvSize := readSize_of_holds hdv hdvSize
  have hreadPids : readInts buf pids.length 24 = some pids := readInts_of_holds hpids hpidsAt
  have hreadKeys : readInts buf pids.length (24 + 4 * pids.length) = some keys := by
    rw [← hlen] at hkeysAt ⊢
    exact readInts_of_holds hkeys hkeysAt
  have hoffset : envelopeOffset 24 (4 * (pids.length : Int)) = some (24 + 4 * pids.length) :=
    envelopeOffset_natCast 24 (4 * pids.length)
  simp only [fetch, r20, r12, r16, r4, Option.bind_eq_bind, Option.bind_some, hreadPids, hoffset,
    hreadKeys]
  rfl

/-- In a buffer that holds what a constructor wrote, the getters find the original fields. -/
theorem readMessage_of_written {m : Envelope} (hm : m.Valid) (h : Written buf m) :
    readMessage buf m.instruction = some m.fields := by
  cases m with
  | createActor actorName pids => exact createActor_of_written hm h
  | callActor functionName futureKey args => exact callActor_of_written hm h
  | registerFuture futureKey futureData => exact registerFuture_of_written hm h
  | storeResult resid content => exact storeResult_of_written hm h
  | storeResultPart resid data offset fullSize => exact storeResultPart_of_written hm h
  | getResultParts forwardTo parts => exact getResultParts_of_written hm h
  | distributeVector type n elemSize => exact distributeVector_of_written hm h
  | prefetch futurePid futureKey dvSize => exact prefetch_of_written hm h
  | fetch pids keys reqFutureKey resFutureKey dvSize => exact fetch_of_written hm h
  | getFutureData futureKey =>
    have r4 : readInt buf 4 = some futureKey := readInt_of_holds hm.fields (h _ List.mem_cons_self)
    simp only [readMessage, Envelope.instruction, r4]
    rfl
  | releaseFuture futureKey =>
    have r4 : readInt buf 4 = some futureKey := readInt_of_holds hm.fields (h _ List.mem_cons_self)
    simp only [readMessage, Envelope.instruction, r4]
    rfl
  | releaseResultPart resid =>
    have r4 : readInt buf 4 = some resid := readInt_of_holds hm.fields (h _ List.mem_cons_self)
    simp only [readMessage, Envelope.instruction, r4]
    rfl
  | stopActor askAnswer =>
    have r4 : readBool buf 4 = some askAnswer := readBool_of_holds (h _ List.mem_cons_self)
    simp only [readMessage, Envelope.instruction, r4]
    rfl
  | stopActorProcess => rfl

end Messages

theorem createMessage_of_holds {m : Envelope} (hm : m.Valid) {buf : Bytes}
    (h : ∀ w ∈ m.writes, Holds buf w.pos w.data) : createMessage buf = some m.fields := by
  have hcode : IsInt m.instruction.code := by
    cases m.instruction <;> exact ⟨by decide, by decide⟩
  have r0 : Getters.readInt buf 0 = some m.instruction.code :=
    Getters.readInt_of_holds hcode (h _ List.mem_cons_self)
  have hbody : Written buf m := fun w hw => h w (List.mem_cons_of_mem _ hw)
  simp only [createMessage, r0, Option.bind_eq_bind, Option.bind_some, Instruction.ofCode_code]
  exact readMessage_of_written hm hbody

/-- A constructor given any buffer of its size or more leaves the message at its start and
everything behind it alone, and the message is read without what is behind it. -/
theorem storeAll_writes {m : Envelope} (hm : m.Valid) {buf : Bytes} (hbuf : m.size ≤ buf.length) :
    ∃ written, storeAll buf m.writes = some written ∧ written.length = buf.length ∧
      written.drop m.size = buf.drop m.size ∧ createMessage written = some m.fields ∧
      createMessage (written.take m.size) = some m.fields := by
  have hinside := Envelope.writes_inside hm.fields
  have hfit : ∀ w ∈ m.writes, w.stop ≤ buf.length := fun w hw =>
    Nat.le_trans (hinside w hw) hbuf
  have hholds : ∀ w ∈ m.writes, Holds (applyWrites buf m.writes) w.pos w.data := fun w hw =>
    holds_applyWrites hfit (Envelope.writes_apart hm.fields) hw
  refine ⟨applyWrites buf m.writes, storeAll_eq hfit, length_applyWrites hfit,
    drop_applyWrites hinside hbuf, createMessage_of_holds hm hholds,
    createMessage_of_holds hm fun w hw => ?_⟩
  exact (hholds w hw).take (hinside w hw)

/-- One constructor in the send buffer: it wrote inside its own message only, and the receiver of
the bytes sent reads its fields, whether or not it looks at what is behind the message. -/
structure SendStep.Carries (r : Reuse) (step : SendStep) : Prop where
  inside : r.envelope.size ≤ step.reserved.length
  behind : step.written.drop r.envelope.size = step.reserved.drop r.envelope.size
  whole : createMessage step.sent = some r.envelope.fields
  alone : createMessage (step.sent.take r.envelope.size) = some r.envelope.fields

theorem length_reserve (memory : Nat → UInt8) (buf : Bytes) (r : Reuse) :
    r.envelope.size ≤ (r.reserve memory buf).length := by
  have henforced : r.envelope.size ≤ (enforceBufferSize memory buf r.envelope.size).length := by
    unfold enforceBufferSize
    split_ifs with h
    · rw [length_allocate]
    · omega
  cases r with
  | callActor | storeResult => exact henforced
  | storeResultPart => exact (length_allocate memory _).ge

theorem send_carries (memory : Nat → UInt8) (buf : Bytes) {r : Reuse} (hr : r.envelope.Valid) :
    ∃ step, r.send memory buf = some step ∧ step.Carries r := by
  obtain ⟨written, hstore, _, hbehind, hwhole, halone⟩ :=
    storeAll_writes hr (length_reserve memory buf r)
  refine ⟨⟨_, written, r.sent written⟩, ?_, length_reserve memory buf r, hbehind, ?_, ?_⟩
  · simp only [Reuse.send, hstore, Option.bind_eq_bind, Option.bind_some]
    rfl
  · cases r with
    | callActor functionName futureKey args => exact halone
    | storeResult resid content => exact hwhole
    | storeResultPart resid data offset fullSize => exact hwhole
  · cases r with
    | callActor functionName futureKey args =>
      exact (congrArg createMessage (List.take_of_length_le (List.length_take_le _ _))).trans halone
    | storeResult resid content => exact halone
    | storeResultPart resid data offset fullSize => exact halone

theorem sendAll_carries (buf : Bytes) {rs : List ((Nat → UInt8) × Reuse)}
    (hrs : ∀ r ∈ rs, r.2.envelope.Valid) :
    ∃ steps, sendAll buf rs = some steps ∧
      List.Forall₂ (fun r step => SendStep.Carries r.2 step) rs steps := by
  induction rs generalizing buf with
  | nil => exact ⟨[], rfl, List.Forall₂.nil⟩
  | cons r rs ih =>
    obtain ⟨step, hstep, hcarries⟩ := send_carries r.1 buf (hrs r List.mem_cons_self)
    obtain ⟨steps, hsteps, hall⟩ := ih step.written fun v hv => hrs v (List.mem_cons_of_mem r hv)
    refine ⟨step :: steps, ?_, List.Forall₂.cons hcarries hall⟩
    simp only [sendAll, hstep, hsteps, Option.bind_eq_bind, Option.bind_some]
    rfl

/-- Whatever a constructor puts into its own buffer, and whatever constructors put into the one
send buffer after each other, is read back as the fields it was given. -/
theorem createMessage_construct {m : Envelope} (hm : m.Valid) (memory : Nat → UInt8)
    {rs : List ((Nat → UInt8) × Reuse)} (hrs : ∀ r ∈ rs, r.2.envelope.Valid) (buf : Bytes) :
    (∃ sent, m.construct memory = some sent ∧ sent.length = m.size ∧
      createMessage sent = some m.fields) ∧
    ∃ steps, sendAll buf rs = some steps ∧
      List.Forall₂ (fun r step => SendStep.Carries r.2 step) rs steps := by
  refine ⟨?_, sendAll_carries buf hrs⟩
  have hroom : m.size ≤ (allocate memory m.size).length := (length_allocate memory m.size).ge
  obtain ⟨sent, hstore, hlen, _, hread, _⟩ := storeAll_writes hm hroom
  exact ⟨sent, hstore, by rw [hlen, length_allocate], hread⟩

/-- A call, and a shorter result written over it. -/
def sampleSends : List ((Nat → UInt8) × Reuse) :=
  [(fun _ => 170, .callActor [102] 0 (.ready [1, 2, 3, 4, 5, 6, 7, 8, 9])),
    (fun _ => 170, .storeResult 5 (.data [9]))]

theorem createMessage_construct_sample :
    (∃ sent, (Envelope.createActor [65, 66] [3, -1]).construct (fun _ => 170) = some sent ∧
      sent.length = (Envelope.createActor [65, 66] [3, -1]).size ∧
      createMessage sent = some (.createActor [65, 66] [3, -1])) ∧
    ∃ steps, sendAll [] sampleSends = some steps ∧
      List.Forall₂ (fun r step => SendStep.Carries r.2 step) sampleSends steps := by
  refine createMessage_construct (m := .createActor [65, 66] [3, -1]) ⟨⟨by decide, ?_⟩, by decide⟩
    (fun _ => 170) ?_ []
  · simp [IsInt]
  · simp only [sampleSends, List.forall_mem_cons, List.not_mem_nil, false_imp_iff, implies_true,
      and_true]
    exact ⟨⟨⟨by decide, by simp [IsInt]⟩, by decide⟩, ⟨⟨by simp [IsInt], trivial⟩, by decide⟩⟩

end ActiveBsp.Actormsg
