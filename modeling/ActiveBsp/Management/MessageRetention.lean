import ActiveBsp.Management.MessageMemory

/-!
# Kept messages stay as they were received

The receive buffer and every map and queue that keeps messages or vectors are
places, and the places own their blocks: each block that one of them refers to is
allocated, starts with what was received, and is referred to from nowhere else.
Every handler keeps this. So a message that is received later is written into a
buffer that nothing kept refers to.
-/
namespace ActiveBsp.MessageMemory

open Library Library.Buffer Library.MachineInt Actormsg

set_option autoImplicit false

/-- Where a block is referred to from. -/
inductive Place where
  | recvBuf
  | current
  | part (key : Int)
  | vector (key : Int)
  | fetch (key : Int)
  | future (key : Int)
  | call (i : Nat)
  deriving DecidableEq, Repr

namespace MessageObject

def held (msg : MessageObject) : Heap.Held UInt8 := ⟨msg.buf, msg.bufSize, msg.received⟩

end MessageObject

namespace VectorObject

def held (v : VectorObject) : Heap.Held UInt8 := ⟨v.data, v.size, v.contents⟩

end VectorObject

namespace Memory

def holding (m : Memory) : Place → Option (Heap.Held UInt8)
  | .recvBuf => m.recvBuf.map fun a => ⟨a, m.recvBufSize, m.received⟩
  | .current => m.current.map MessageObject.held
  | .part key => (m.resultMsgStore key).map MessageObject.held
  | .vector key => (m.resultVectorStore key).map VectorObject.held
  | .fetch key => (m.askedFetch key).map MessageObject.held
  | .future key => (m.futureDataStore key).map VectorObject.held
  | .call i => m.queue[i]?.map MessageObject.held

variable (m : Memory)

section Update

open Function

theorem holding_recvBuf (a size : Nat) (received : Bytes) :
    holding { m with recvBuf := some a, recvBufSize := size, received := received } =
      update m.holding .recvBuf (some ⟨a, size, received⟩) := by
  funext p
  cases p <;> rfl

theorem holding_current (msg : Option MessageObject) :
    holding { m with current := msg } =
      update m.holding .current (msg.map MessageObject.held) := by
  funext p
  cases p <;> rfl

section Maps

variable {m} {key : Int}

/-- The places of one map, when it changes at one key. -/
private theorem update_place {f g : Place → Option (Heap.Held UInt8)} {p : Place}
    {x : Option (Heap.Held UInt8)} (hp : g p = x) (h : ∀ q, q ≠ p → g q = f q) :
    g = update f p x := by
  funext q
  by_cases hq : q = p
  · subst hq
    rw [update_self, hp]
  · rw [update_of_ne hq, h q hq]

theorem holding_part {store : PartialMap Int MessageObject} {msg : Option MessageObject}
    (h : ∀ k, store k = if k = key then msg else m.resultMsgStore k) :
    holding { m with resultMsgStore := store } =
      update m.holding (.part key) (msg.map MessageObject.held) := by
  refine update_place ?_ fun q hq => ?_
  · simp only [holding, h, if_true]
  cases q with
  | part k =>
    have hk : k ≠ key := fun he => hq (he ▸ rfl)
    simp only [holding, h, if_neg hk]
  | _ => rfl

theorem holding_vector {store : PartialMap Int VectorObject} {v : Option VectorObject}
    (h : ∀ k, store k = if k = key then v else m.resultVectorStore k) :
    holding { m with resultVectorStore := store } =
      update m.holding (.vector key) (v.map VectorObject.held) := by
  refine update_place ?_ fun q hq => ?_
  · simp only [holding, h, if_true]
  cases q with
  | vector k =>
    have hk : k ≠ key := fun he => hq (he ▸ rfl)
    simp only [holding, h, if_neg hk]
  | _ => rfl

theorem holding_fetch {store : PartialMap Int MessageObject} {msg : Option MessageObject}
    (h : ∀ k, store k = if k = key then msg else m.askedFetch k) :
    holding { m with askedFetch := store } =
      update m.holding (.fetch key) (msg.map MessageObject.held) := by
  refine update_place ?_ fun q hq => ?_
  · simp only [holding, h, if_true]
  cases q with
  | fetch k =>
    have hk : k ≠ key := fun he => hq (he ▸ rfl)
    simp only [holding, h, if_neg hk]
  | _ => rfl

theorem holding_future {store : PartialMap Int VectorObject} {v : Option VectorObject}
    (h : ∀ k, store k = if k = key then v else m.futureDataStore k) :
    holding { m with futureDataStore := store } =
      update m.holding (.future key) (v.map VectorObject.held) := by
  refine update_place ?_ fun q hq => ?_
  · simp only [holding, h, if_true]
  cases q with
  | future k =>
    have hk : k ≠ key := fun he => hq (he ▸ rfl)
    simp only [holding, h, if_neg hk]
  | _ => rfl

end Maps

/-- A message that is queued takes the next place of the queue. -/
theorem holding_queue (msg : MessageObject) :
    holding { m with queue := m.queue ++ [msg] } =
      update m.holding (.call m.queue.length) (some msg.held) := by
  refine update_place ?_ fun q hq => ?_
  · simp [holding]
  · cases q with
    | call i =>
      have hi : i ≠ m.queue.length := fun he => hq (he ▸ rfl)
      simp only [holding]
      by_cases hlt : i < m.queue.length
      · rw [List.getElem?_append_left hlt]
      · rw [List.getElem?_eq_none (by rw [List.length_append, List.length_singleton]; omega),
          List.getElem?_eq_none (by omega)]
    | _ => rfl

/-- The place of a queued message before the queue moved up. -/
def shift : Place → Place
  | .call i => .call (i + 1)
  | p => p

theorem shift_injective : Injective shift := by
  intro p q h
  cases p <;> cases q <;> simp_all [shift]

theorem holding_tail :
    holding { m with queue := m.queue.tail } = fun p => m.holding (shift p) := by
  funext p
  cases p with
  | call i => simp [holding, shift]
  | _ => rfl

end Update

end Memory

/-- A message that some event received. -/
def Received (events : List Event) (bytes : Bytes) : Prop :=
  ∃ thread memory src, Event.message thread memory src bytes ∈ events

/-- What a message registered as the data of a future, or the manager itself did. -/
def Registered (events : List Event) (key : Int) (data : Bytes) : Prop :=
  (∃ bytes, Received events bytes ∧ createMessage bytes = some (.registerFuture key data)) ∨
    ∃ thread, Event.gathered thread key data ∈ events

/-- What a place holds its block for. -/
def Known (events : List Event) : Place → Heap.Held UInt8 → Prop
  | .recvBuf, _ => True
  | .vector _, x => x.contents = []
  | .future key, x => x.contents.length = x.size ∧ Registered events key x.contents
  | .current, x => x.contents.length = x.size ∧ Received events x.contents
  | .part _, x => x.contents.length = x.size ∧ Received events x.contents
  | .fetch _, x => x.contents.length = x.size ∧ Received events x.contents
  | .call _, x => x.contents.length = x.size ∧ Received events x.contents

structure Kept (events : List Event) (heap : Heap UInt8)
    (hold : Place → Option (Heap.Held UInt8)) : Prop where
  owned : Heap.Owned heap hold
  known : ∀ p x, hold p = some x → Known events p x

section Kept

variable {events : List Event} {heap : Heap UInt8} {hold : Place → Option (Heap.Held UInt8)}
  {p q : Place} {x : Heap.Held UInt8}

theorem known_update {y : Option (Heap.Held UInt8)} (h : ∀ p x, hold p = some x → Known events p x)
    (hy : ∀ x, y = some x → Known events p x) :
    ∀ q x, Function.update hold p y q = some x → Known events q x := by
  intro q x hq
  by_cases hqp : q = p
  · subst hqp
    rw [Function.update_self] at hq
    exact hy x hq
  · rw [Function.update_of_ne hqp] at hq
    exact h q x hq

namespace Kept

theorem drop (h : Kept events heap hold) (p : Place) :
    Kept events heap (Function.update hold p none) :=
  ⟨h.owned.drop p, known_update h.known fun x hx => by cases hx⟩

theorem delete (h : Kept events heap hold) (hp : hold p = some x) :
    heap.delete x.addr = some (heap.erase x.addr) ∧
      Kept events (heap.erase x.addr) (Function.update hold p none) := by
  obtain ⟨hdelete, howned⟩ := h.owned.delete hp
  exact ⟨hdelete, howned, (h.drop p).known⟩

theorem alloc (h : Kept events heap hold) (al : Allocator) (p : Place) (block contents : Bytes)
    {size : Nat} (hsize : size ≤ block.length) (hcontents : Layout.Holds block 0 contents)
    (hknown : Known events p ⟨(heap.alloc al block).1, size, contents⟩) :
    Kept events (heap.alloc al block).2
      (Function.update hold p (some ⟨(heap.alloc al block).1, size, contents⟩)) :=
  ⟨h.owned.alloc al p hsize hcontents, known_update h.known fun x hx => by
    cases hx
    exact hknown⟩

theorem rewrite (h : Kept events heap hold) (hp : hold p = some x) {block contents : Bytes}
    {size : Nat} (hsize : size ≤ block.length) (hcontents : Layout.Holds block 0 contents)
    (hknown : Known events p ⟨x.addr, size, contents⟩) :
    Kept events (heap.insert x.addr block)
      (Function.update hold p (some ⟨x.addr, size, contents⟩)) :=
  ⟨h.owned.rewrite (y := ⟨x.addr, size, contents⟩) hp hsize rfl hcontents,
    known_update h.known fun x hx => by
      cases hx
      exact hknown⟩

theorem move (h : Kept events heap hold) (hp : hold p = some x) {y : Heap.Held UInt8}
    (haddr : y.addr = x.addr) (hy : Heap.Backs heap y) (hknown : Known events q y) :
    Kept events heap (Function.update (Function.update hold p none) q (some y)) :=
  ⟨h.owned.move hp haddr hy, known_update (h.drop p).known fun z hz => by
    cases hz
    exact hknown⟩

end Kept

end Kept

/-- A part that is kept in its message is complete, and the message owns its buffer. -/
structure Coherent (store : PartialMap Int MessageObject) (dvParts : PartialMap Int DvPart) :
    Prop where
  parts : ∀ key msg, store key = some msg → msg.qowned = true ∧
    ∃ part, dvParts key = some part ∧ part.location = .messageStore
  complete : ∀ key part, dvParts key = some part → part.location = .messageStore →
    part.remainingBytes = 0

namespace Coherent

variable {store : PartialMap Int MessageObject} {dvParts : PartialMap Int DvPart} {key : Int}

theorem storeMessage (h : Coherent store dvParts) {msg : MessageObject}
    (howned : msg.qowned = true) (size : Nat) :
    Coherent (store.set key msg) (dvParts.set key ⟨key, size, .messageStore, 0⟩) := by
  refine ⟨fun k old hk => ?_, fun k part hk hlocation => ?_⟩
  · by_cases hkey : k = key
    · subst hkey
      rw [PartialMap.set_self] at hk ⊢
      cases hk
      exact ⟨howned, _, rfl, rfl⟩
    · rw [PartialMap.set_of_ne _ _ hkey] at hk ⊢
      exact h.parts k old hk
  · by_cases hkey : k = key
    · subst hkey
      rw [PartialMap.set_self] at hk
      cases hk
      rfl
    · rw [PartialMap.set_of_ne _ _ hkey] at hk
      exact h.complete k part hk hlocation

/-- The record of a part changes, but not where it is kept. -/
theorem setPart (h : Coherent store dvParts) {part : DvPart}
    (hparts : store key ≠ none → part.location = .messageStore)
    (hcomplete : part.location = .messageStore → part.remainingBytes = 0) :
    Coherent store (dvParts.set key part) := by
  refine ⟨fun k msg hk => ?_, fun k old hk hlocation => ?_⟩
  · by_cases hkey : k = key
    · subst hkey
      rw [PartialMap.set_self]
      exact ⟨(h.parts k msg hk).1, part, rfl, hparts (by rw [hk]; simp)⟩
    · rw [PartialMap.set_of_ne _ _ hkey]
      exact h.parts k msg hk
  · by_cases hkey : k = key
    · subst hkey
      rw [PartialMap.set_self] at hk
      cases hk
      exact hcomplete hlocation
    · rw [PartialMap.set_of_ne _ _ hkey] at hk
      exact h.complete k old hk hlocation

theorem erase (h : Coherent store dvParts) : Coherent (store.erase key) (dvParts.erase key) := by
  refine ⟨fun k msg hk => ?_, fun k part hk hlocation => ?_⟩
  · by_cases hkey : k = key
    · subst hkey
      rw [PartialMap.erase_self] at hk
      cases hk
    · rw [PartialMap.erase_of_ne _ hkey] at hk ⊢
      exact h.parts k msg hk
  · by_cases hkey : k = key
    · subst hkey
      rw [PartialMap.erase_self] at hk
      cases hk
    · rw [PartialMap.erase_of_ne _ hkey] at hk
      exact h.complete k part hk hlocation

end Coherent

structure Inv (events : List Event) (m : Memory) : Prop where
  kept : Kept events m.heap m.holding
  coherent : Coherent m.resultMsgStore m.dvParts

/-- No block is misused, and only the receive buffer is handed over. -/
def Sound (e : MemoryFault) : Prop := e ≠ .badBlock ∧ e ≠ .notReceiveBuffer

theorem sound_other (fault : Fault) : Sound (.other fault) := ⟨by simp, by simp⟩

section Blocks

variable {m : Memory} {β : Type}

theorem newBlock_run (al : Allocator) (block : Bytes) (m : Memory) :
    newBlock al block m =
      ([], .ok ((m.heap.alloc al block).1, { m with heap := (m.heap.alloc al block).2 })) := rfl

theorem newBlock_bind (al : Allocator) (block : Bytes) (f : Nat → MemAct β) (m : Memory) :
    (newBlock al block >>= f) m =
      f (m.heap.alloc al block).1 { m with heap := (m.heap.alloc al block).2 } := by
  rw [Act.bind_of_ok (newBlock_run al block m)]
  rfl

theorem deleteBlock_run {a : Nat} {heap : Heap UInt8} (h : m.heap.delete a = some heap) :
    deleteBlock a m = ([], .ok ((), { m with heap := heap })) := by
  simp only [deleteBlock, Act.lift_apply, h]
  rfl

theorem writeBlock_run {a pos : Nat} {data : Bytes} {heap : Heap UInt8}
    (h : m.heap.write a ⟨pos, data⟩ = some heap) :
    writeBlock a pos data m = ([], .ok ((), { m with heap := heap })) := by
  simp only [writeBlock, Act.lift_apply, h]
  rfl

theorem readBlock_run {a n : Nat} {data : Bytes} (h : m.heap.read a 0 n = some data) :
    readBlock a n m = ([], .ok (data, m)) := by
  simp only [readBlock, Act.lift_apply, h]
  rfl

end Blocks

section Receiving

variable {events : List Event}

theorem holding_recvBuf_of {m : Memory} {a : Nat} (h : m.recvBuf = some a) :
    m.holding .recvBuf = some ⟨a, m.recvBufSize, m.received⟩ := by
  rw [Memory.holding, h, Option.map_some]

/-- With the old receive buffer gone, a new one. -/
theorem newRecvBuf_spec (al : Allocator) (block : Bytes) :
    Act.Triple Sound
      (fun m => Kept events m.heap (Function.update m.holding .recvBuf none) ∧
        Coherent m.resultMsgStore m.dvParts)
      (newBlock al block >>= fun a => Act.modify fun m =>
        { m with recvBuf := some a, recvBufSize := block.length, received := [] })
      (fun _ m => Inv events m ∧ m.recvBufSize = block.length) := by
  rintro m ⟨hkept, hcoherent⟩
  rw [newBlock_bind]
  have halloc := hkept.alloc al .recvBuf block [] (Nat.le_refl block.length)
    (Layout.holds_nil (Nat.zero_le _)) trivial
  rw [Function.update_idem] at halloc
  refine ⟨⟨?_, hcoherent⟩, rfl⟩
  rw [Memory.holding_recvBuf]
  exact halloc

theorem growRecvBuf_spec (al : Allocator) (memory : Nat → UInt8) (bufSize : Nat) :
    Act.Triple Sound (Inv events) (growRecvBuf al memory bufSize)
      (fun _ m => Inv events m ∧ m.recvBufSize = bufSize) := by
  have hnew := @newRecvBuf_spec events al (allocate memory bufSize)
  rw [length_allocate] at hnew
  refine Act.Triple.intro fun m hm => Act.Triple.step (Act.get_apply m) ?_
  cases hbuf : m.recvBuf with
  | none =>
    refine hnew.pre fun t ht => ?_
    subst ht
    exact ⟨hm.kept.drop .recvBuf, hm.coherent⟩
  | some a =>
    obtain ⟨hdelete, hkept⟩ := hm.kept.delete (holding_recvBuf_of hbuf)
    refine Act.Triple.step (Act.emit_apply _ m) (Act.Triple.step (deleteBlock_run hdelete) ?_)
    refine hnew.pre fun t ht => ?_
    subst ht
    exact ⟨hkept, hm.coherent⟩

/-- The message object that a turn works on: a call has a buffer of its own, every other message
the receive buffer. -/
structure Handled (events : List Event) (bytes : Bytes) (msg : MessageObject) (m : Memory) :
    Prop where
  received : msg.received = bytes
  bufSize : msg.bufSize = bytes.length
  from_event : Received events bytes
  place : (m.current = some msg ∧
      ((Getters.readInt bytes 0).bind Instruction.ofCode = some .callActor)) ∨
    (m.recvBuf = some msg.buf ∧ m.received = bytes ∧ bytes.length ≤ m.recvBufSize ∧
      (Getters.readInt bytes 0).bind Instruction.ofCode ≠ some .callActor)

/-- What the factory leaves: a null message, or one to handle. -/
def Made (events : List Event) (bytes : Bytes) : Option MessageObject → Memory → Prop
  | none, m => Inv events m
  | some msg, m => Inv events m ∧ Handled events bytes msg m

/-- The getters see the bytes that were received. -/
theorem Handled.view {bytes : Bytes} {msg : MessageObject} {m : Memory} (hm : Inv events m)
    (h : Handled events bytes msg m) : m.heap.read msg.buf 0 msg.bufSize = some bytes := by
  rw [h.bufSize]
  rcases h.place with ⟨hcurrent, -⟩ | ⟨hbuf, hreceived, -, -⟩
  · have hhold : m.holding .current = some msg.held := by
      rw [Memory.holding, hcurrent, Option.map_some]
    have hread := (hm.kept.owned.backs _ _ hhold).read
    rw [MessageObject.held, h.received] at hread
    exact hread
  · have hread := (hm.kept.owned.backs _ _ (holding_recvBuf_of hbuf)).read
    rw [hreceived] at hread
    exact hread

theorem createObject_spec (al : Allocator) (src : Int) (buf : Nat) {bytes : Bytes}
    (hevent : Received events bytes) :
    Act.Triple Sound
      (fun m => Inv events m ∧ m.recvBuf = some buf ∧ m.received = bytes ∧
        bytes.length ≤ m.recvBufSize)
      (createObject al src buf bytes)
      (Made events bytes) := by
  refine Act.Triple.intro fun m ⟨hm, hbuf, hreceived, hsize⟩ => ?_
  have hread : m.heap.read buf 0 bytes.length = some bytes := by
    have hread := (hm.kept.owned.backs _ _ (holding_recvBuf_of hbuf)).read
    rwa [hreceived] at hread
  refine Act.Triple.step (readBlock_run hread) ?_
  cases hcode : Getters.readInt bytes 0 with
  | none => exact Act.Triple.fail fun _ _ => sound_other _
  | some code =>
    cases hinstr : Instruction.ofCode code with
    | none =>
      simp only [hinstr]
      exact Act.Triple.of_run (Act.pure_apply none m) hm
    | some instruction =>
      by_cases hcall : instruction = .callActor
      · subst hcall
        simp only [hinstr]
        refine Act.Triple.step (newBlock_run al bytes m) ?_
        refine Act.Triple.step (Act.modify_apply _ _) ?_
        have halloc := hm.kept.alloc al .current bytes bytes (Nat.le_refl bytes.length)
          (Layout.holds_self bytes) ⟨rfl, hevent⟩
        refine Act.Triple.of_run (Act.pure_apply _ _) ⟨⟨?_, hm.coherent⟩, rfl, rfl, hevent,
          .inl ⟨rfl, by rw [hcode]; exact hinstr⟩⟩
        rw [Memory.holding_current]
        exact halloc
      · have hhandled : Handled events bytes ⟨src, buf, bytes.length, false, bytes⟩ m := by
          refine ⟨rfl, rfl, hevent, .inr ⟨hbuf, hreceived, hsize, ?_⟩⟩
          rw [hcode, Option.bind_some, hinstr]
          exact fun he => hcall (Option.some.inj he)
        have hmade : Made events bytes (some ⟨src, buf, bytes.length, false, bytes⟩) m :=
          ⟨hm, hhandled⟩
        cases instruction <;> simp only [hinstr] <;> first
          | exact absurd rfl hcall
          | exact Act.Triple.of_run (Act.pure_apply _ m) hmade

theorem fillRecvBuf_spec (al : Allocator) (src : Int) {bytes : Bytes}
    (hevent : Received events bytes) :
    Act.Triple Sound (fun m => Inv events m ∧ bytes.length ≤ m.recvBufSize)
      (fillRecvBuf al src bytes) (Made events bytes) := by
  refine Act.Triple.intro fun m ⟨hm, hsize⟩ => Act.Triple.step (Act.get_apply m) ?_
  cases hbuf : m.recvBuf with
  | none => exact Act.Triple.fail fun _ _ => sound_other _
  | some a =>
    have hhold := holding_recvBuf_of hbuf
    obtain ⟨block, hwrite, hlen, hcontents⟩ :=
      Heap.write_of_backs (hm.kept.owned.backs _ _ hhold) ((Nat.zero_add _).le.trans hsize)
    have hkept := hm.kept.rewrite hhold hlen hcontents trivial
    refine Act.Triple.step (Act.emit_apply _ m) (Act.Triple.step (writeBlock_run hwrite)
      (Act.Triple.step (Act.modify_apply _ _) ?_))
    refine (createObject_spec al src a hevent).pre fun t ht => ?_
    subst ht
    refine ⟨⟨?_, hm.coherent⟩, hbuf, rfl, hsize⟩
    have hholding := Memory.holding_recvBuf { m with heap := m.heap.insert a block } a
      m.recvBufSize bytes
    rw [← hbuf] at hholding
    rw [hholding]
    exact hkept

theorem receiveActorMessage_spec (al : Allocator) (memory : Nat → UInt8) (src : Int)
    {bytes : Bytes} (hevent : Received events bytes) :
    Act.Triple Sound (Inv events) (receiveActorMessage al memory src bytes)
      (Made events bytes) := by
  refine Act.Triple.intro fun m hm => Act.Triple.step (Act.get_apply m) ?_
  by_cases hgrow : m.recvBufSize < bytes.length
  · rw [if_pos hgrow]
    refine ((growRecvBuf_spec al memory bytes.length).pre fun t ht => ?_).bind fun _ =>
      (fillRecvBuf_spec al src hevent).pre fun t ht => ⟨ht.1, Nat.le_of_eq ht.2.symm⟩
    subst ht
    exact hm
  · rw [if_neg hgrow]
    refine (fillRecvBuf_spec al src hevent).pre fun t ht => ?_
    subst ht
    exact ⟨hm, Nat.le_of_not_lt hgrow⟩

end Receiving

section Handlers

variable {events : List Event}

/-- Destroying what a place refers to leaves the other places alone. -/
theorem destroyMessage_run {m : Memory} (hm : Inv events m) {p : Place} {msg : MessageObject}
    (hp : m.holding p = some msg.held) :
    ∃ heap, destroyMessage msg m = ([], .ok ((), { m with heap := heap })) ∧
      Kept events heap (Function.update m.holding p none) := by
  unfold destroyMessage
  by_cases howned : msg.qowned
  · obtain ⟨hdelete, hkept⟩ := hm.kept.delete hp
    rw [if_pos howned]
    exact ⟨_, deleteBlock_run hdelete, hkept⟩
  · rw [if_neg howned]
    exact ⟨m.heap, rfl, hm.kept.drop p⟩

theorem releaseMessage_spec :
    Act.Triple Sound (Inv events) releaseMessage (fun _ => Inv events) := by
  refine Act.Triple.intro fun m hm => Act.Triple.step (Act.get_apply m) ?_
  cases hcurrent : m.current with
  | none => exact Act.Triple.of_run (Act.pure_apply _ m) hm
  | some msg =>
    have hhold : m.holding .current = some msg.held := by
      rw [Memory.holding, hcurrent, Option.map_some]
    obtain ⟨heap, hrun, hkept⟩ := destroyMessage_run hm hhold
    refine Act.Triple.step hrun (Act.Triple.of_run (Act.modify_apply _ _) ⟨?_, hm.coherent⟩)
    rw [Memory.holding_current]
    exact hkept

/-- A message other than a call is handled in the receive buffer. -/
theorem Handled.in_recvBuf {bytes : Bytes} {msg : MessageObject} {m : Memory}
    (h : Handled events bytes msg m)
    (hcall : (Getters.readInt bytes 0).bind Instruction.ofCode ≠ some .callActor) :
    m.recvBuf = some msg.buf ∧ m.received = bytes ∧ bytes.length ≤ m.recvBufSize := by
  rcases h.place with ⟨-, hc⟩ | ⟨hbuf, hreceived, hsize, -⟩
  · exact absurd hc hcall
  · exact ⟨hbuf, hreceived, hsize⟩

theorem giveBufferOwnershipTo_spec (al : Allocator) (msg : MessageObject) {bytes : Bytes}
    (hcall : (Getters.readInt bytes 0).bind Instruction.ofCode ≠ some .callActor) :
    Act.Triple Sound (fun m => Inv events m ∧ Handled events bytes msg m)
      (giveBufferOwnershipTo al msg)
      (fun owner m => Inv events m ∧ m.current = some owner ∧
        owner = { msg with qowned := true }) := by
  refine Act.Triple.intro fun m ⟨hm, hmsg⟩ => Act.Triple.step (Act.get_apply m) ?_
  obtain ⟨hbuf, hreceived, hsize⟩ := hmsg.in_recvBuf hcall
  rw [if_pos hbuf]
  refine Act.Triple.step (Act.emit_apply _ m) ?_
  refine Act.Triple.step (Act.modify_apply _ _) ?_
  refine Act.Triple.step (newBlock_run al _ _) ?_
  refine Act.Triple.step (Act.modify_apply _ _) ?_
  have howner : Heap.Backs m.heap (MessageObject.held { msg with qowned := true }) := by
    obtain ⟨block, hlookup, hlen, hholds⟩ := hm.kept.owned.backs _ _ (holding_recvBuf_of hbuf)
    dsimp only at hlen hholds
    refine ⟨block, hlookup, ?_, ?_⟩
    · show msg.bufSize ≤ block.length
      rw [hmsg.bufSize]
      omega
    · show Layout.Holds block 0 msg.received
      rwa [hmsg.received, ← hreceived]
  have hknown : Known events .current (MessageObject.held { msg with qowned := true }) := by
    refine ⟨?_, ?_⟩
    · show msg.received.length = msg.bufSize
      rw [hmsg.received, hmsg.bufSize]
    · show Received events msg.received
      rw [hmsg.received]
      exact hmsg.from_event
  have hmove := hm.kept.move (q := .current) (y := MessageObject.held { msg with qowned := true })
    (holding_recvBuf_of hbuf) rfl howner hknown
  have halloc := hmove.alloc al .recvBuf (List.replicate m.recvBufSize 0) []
    (List.length_replicate ..).ge (Layout.holds_nil (Nat.zero_le _)) trivial
  refine Act.Triple.of_run (Act.pure_apply _ _) ⟨⟨?_, hm.coherent⟩, rfl, rfl⟩
  convert halloc using 1
  funext p
  cases p <;> rfl

theorem assertThat_run {site : Assertion} {cond : Prop} [Decidable cond] (h : cond) (m : Memory) :
    assertThat site cond m = ([], .ok ((), m)) := by
  rw [assertThat, if_pos h]
  rfl

/-- What follows a fault does not matter. -/
theorem fails_bind {α β : Type} {P : Memory → Prop} {f : α → MemAct β} {Q : β → Memory → Prop}
    (fault : Fault) : Act.Triple Sound P (Act.fail (.other fault) >>= f) Q :=
  (Act.Triple.fail (Q := fun _ _ => False) fun _ _ => sound_other fault).bind
    fun _ _ hfalse => hfalse.elim

/-- What follows an assertion may use it. -/
theorem assertThat_step {β : Type} {site : Assertion} {cond : Prop} [Decidable cond] {m : Memory}
    {f : Unit → MemAct β} {Q : β → Memory → Prop}
    (hf : cond → Act.Triple Sound (· = m) (f ()) Q) :
    Act.Triple Sound (· = m) (assertThat site cond >>= f) Q := by
  by_cases h : cond
  · exact Act.Triple.step (assertThat_run h m) (hf h)
  · have hfail : assertThat site cond = Act.fail (.other (.assertion site)) := if_neg h
    rw [hfail]
    exact fails_bind _

theorem storePartMessage_spec (key : Int) (msg : MessageObject) (dataSize : Nat)
    (howned : msg.qowned = true) :
    Act.Triple Sound (fun m => Inv events m ∧ m.current = some msg)
      (storePartMessage key msg dataSize)
      (fun _ m => Inv events m ∧ m.resultMsgStore key = some msg) := by
  refine Act.Triple.intro fun m ⟨hm, hcurrent⟩ => Act.Triple.step (Act.modify_apply _ m) ?_
  refine Act.Triple.step (Act.get_apply _) (assertThat_step fun hpart => ?_)
  by_cases hstore : m.resultMsgStore key = none
  · rw [if_pos hstore] at hpart ⊢
    have hhold : m.holding .current = some msg.held := by
      rw [Memory.holding, hcurrent, Option.map_some]
    have hmove := hm.kept.move (q := .part key) hhold rfl (hm.kept.owned.backs _ _ hhold)
      (hm.kept.known .current _ hhold)
    refine Act.Triple.of_run (Act.modify_apply _ _)
      ⟨⟨?_, hm.coherent.storeMessage howned dataSize⟩, PartialMap.set_self _ _ _⟩
    have hholding := @Memory.holding_part { m with current := none } key
      (m.resultMsgStore.set key msg) (some msg) fun k => rfl
    rw [Memory.holding_current] at hholding
    convert hmove using 1
    exact hholding
  · rw [if_neg hstore] at hpart
    obtain ⟨old, hold⟩ := Option.ne_none_iff_exists'.mp hstore
    obtain ⟨-, part, hdv, -⟩ := hm.coherent.parts key old hold
    rw [hdv] at hpart
    cases hpart

/-- The message that is given the receive buffer ends up in the store with it. -/
theorem handleStoreResultMessage_spec (al : Allocator) (msg : MessageObject) (resid : Int)
    (dataSize : Nat) {bytes : Bytes}
    (hcall : (Getters.readInt bytes 0).bind Instruction.ofCode ≠ some .callActor) :
    Act.Triple Sound (fun m => Inv events m ∧ Handled events bytes msg m)
      (handleStoreResultMessage al msg resid dataSize)
      (fun _ m => Inv events m ∧ m.resultMsgStore resid = some { msg with qowned := true }) := by
  refine (giveBufferOwnershipTo_spec al msg hcall).bind fun owner => ?_
  refine Act.Triple.intro fun m ⟨hm, hcurrent, howner⟩ => ?_
  subst howner
  refine (storePartMessage_spec resid _ dataSize rfl).pre fun t ht => ?_
  subst ht
  exact ⟨hm, hcurrent⟩

theorem preparePartVector_spec (al : Allocator) (key : Int) (size : Nat) :
    Act.Triple Sound (Inv events) (preparePartVector al key size) (fun _ => Inv events) := by
  refine Act.Triple.intro fun m hm => Act.Triple.step (Act.get_apply m) ?_
  refine assertThat_step fun hpart => Act.Triple.step (Act.get_apply m) ?_
  refine assertThat_step fun _ => Act.Triple.step (newBlock_run al _ m) ?_
  have halloc := hm.kept.alloc al (.vector key) (List.replicate size 0) []
    (List.length_replicate ..).ge (Layout.holds_nil (Nat.zero_le _)) rfl
  have hnone : m.resultMsgStore key = none := by
    by_contra hstore
    obtain ⟨msg, hmsg⟩ := Option.ne_none_iff_exists'.mp hstore
    obtain ⟨-, part, hdv, -⟩ := hm.coherent.parts key msg hmsg
    rw [hdv] at hpart
    cases hpart
  refine Act.Triple.of_run (Act.modify_apply _ _) ⟨?_, hm.coherent.setPart ?_ ?_⟩
  · convert halloc using 1
    exact Memory.holding_vector fun k => rfl
  · exact fun hstore => absurd hnone hstore
  · exact fun hlocation => by cases hlocation

theorem findDataBuf_spec (part : DvPart) (key : Int) (m : Memory) :
    Act.Triple Sound (· = m) (findDataBuf part key) (fun r t => t = m ∧
      (part.location = .messageStore ∨
        ∃ v, m.resultVectorStore key = some v ∧ r = (v.data, 0, v.size))) := by
  unfold findDataBuf
  cases hlocation : part.location with
  | vectorStore =>
    refine Act.Triple.step (Act.get_apply m) ?_
    cases hv : m.resultVectorStore key with
    | none => exact Act.Triple.fail fun _ _ => sound_other _
    | some v =>
      by_cases hsize : v.size = 0
      · simp only [if_pos hsize]
        exact Act.Triple.fail fun _ _ => sound_other _
      · simp only [if_neg hsize]
        exact Act.Triple.of_run (Act.pure_apply _ m) ⟨rfl, .inr ⟨v, rfl, rfl⟩⟩
  | messageStore =>
    refine Act.Triple.step (Act.get_apply m) ?_
    cases hmsg : m.resultMsgStore key with
    | none => exact Act.Triple.fail fun _ _ => sound_other _
    | some msg => exact Act.Triple.of_run (Act.pure_apply _ m) ⟨rfl, .inl rfl⟩

/-- Data is added to vectors only: nothing is missing from a part that is kept in its message. -/
theorem addData_spec (key : Int) (data : Bytes) (offset : Nat) :
    Act.Triple Sound (Inv events) (addData key data offset) (fun _ => Inv events) := by
  refine Act.Triple.intro fun m hm => Act.Triple.step (Act.get_apply m) ?_
  cases hdv : m.dvParts key with
  | none => exact Act.Triple.fail fun _ _ => sound_other _
  | some part =>
    refine (findDataBuf_spec part key m).bind fun r => Act.Triple.intro fun t ⟨ht, hbuf⟩ => ?_
    subst ht
    obtain ⟨block, start, room⟩ := r
    refine assertThat_step fun _ => assertThat_step fun hremaining => ?_
    have hcoherent : Coherent t.resultMsgStore (t.dvParts.set key
        { part with remainingBytes := part.remainingBytes - data.length }) := by
      refine hm.coherent.setPart (fun hstore => ?_) fun hlocation => ?_
      · obtain ⟨msg, hmsg⟩ := Option.ne_none_iff_exists'.mp hstore
        obtain ⟨-, old, hold, hlocation⟩ := hm.coherent.parts key msg hmsg
        rw [hdv] at hold
        cases hold
        exact hlocation
      · have := hm.coherent.complete key part hdv hlocation
        show part.remainingBytes - data.length = 0
        omega
    by_cases hdata : data = []
    · simp only [hdata, ne_eq, not_true_eq_false, if_false]
      rw [hdata] at hcoherent
      exact Act.Triple.of_run (Act.modify_apply _ t) ⟨hm.kept, hcoherent⟩
    · simp only [ne_eq, hdata, not_false_eq_true, if_true]
      rcases hbuf with hlocation | ⟨v, hv, hr⟩
      · have := hm.coherent.complete key part hdv hlocation
        exact absurd (List.length_eq_zero_iff.mp (by omega)) hdata
      · cases hr
        by_cases hroom : v.size < offset + data.length
        · simp only [if_pos hroom]
          exact fails_bind _
        · simp only [if_neg hroom]
          have hhold : t.holding (.vector key) = some v.held := by
            rw [Memory.holding, hv, Option.map_some]
          have hempty : v.contents = [] := hm.kept.known _ _ hhold
          obtain ⟨block, hwrite, hlen, -⟩ := Heap.write_of_backs
            (hm.kept.owned.backs _ _ hhold) (show 0 + offset + data.length ≤ v.size by omega)
          have hcontents : Layout.Holds block 0 v.held.contents := by
            rw [show v.held.contents = [] from hempty]
            exact Layout.holds_nil (Nat.zero_le _)
          have hkept : Kept events _ (Function.update t.holding (.vector key) (some v.held)) :=
            hm.kept.rewrite hhold hlen hcontents hempty
          have hsame : Function.update t.holding (.vector key) (some v.held) = t.holding :=
            Function.update_eq_self_iff.mpr hhold.symm
          refine Act.Triple.step (writeBlock_run hwrite)
            (Act.Triple.of_run (Act.modify_apply _ _) ⟨?_, hcoherent⟩)
          rw [hsame] at hkept
          exact hkept

theorem removePart_spec (key : Int) :
    Act.Triple Sound (Inv events) (removePart key) (fun _ => Inv events) := by
  refine Act.Triple.intro fun m hm => Act.Triple.step (Act.get_apply m) ?_
  cases hdv : m.dvParts key with
  | none => exact Act.Triple.fail fun _ _ => sound_other _
  | some part =>
    cases hlocation : part.location with
    | messageStore =>
      simp only [hlocation]
      refine Act.Triple.step (Act.get_apply m) ?_
      cases hmsg : m.resultMsgStore key with
      | none => exact Act.Triple.fail fun _ _ => sound_other _
      | some msg =>
        have hhold : m.holding (.part key) = some msg.held := by
          rw [Memory.holding, hmsg, Option.map_some]
        obtain ⟨heap, hrun, hkept⟩ := destroyMessage_run hm hhold
        refine Act.Triple.step hrun (Act.Triple.step (Act.modify_apply _ _)
          (Act.Triple.of_run (Act.modify_apply _ _) ⟨?_, hm.coherent.erase⟩))
        convert hkept using 1
        exact @Memory.holding_part m key (m.resultMsgStore.erase key) none fun k => rfl
    | vectorStore =>
      simp only [hlocation]
      refine Act.Triple.step (Act.get_apply m) ?_
      cases hv : m.resultVectorStore key with
      | none => exact Act.Triple.fail fun _ _ => sound_other _
      | some v =>
        have hhold : m.holding (.vector key) = some v.held := by
          rw [Memory.holding, hv, Option.map_some]
        have hnone : m.resultMsgStore key = none := by
          by_contra hstore
          obtain ⟨msg, hmsg⟩ := Option.ne_none_iff_exists'.mp hstore
          obtain ⟨-, old, hold, hmessage⟩ := hm.coherent.parts key msg hmsg
          rw [hdv] at hold
          cases hold
          rw [hlocation] at hmessage
          cases hmessage
        obtain ⟨hdelete, hkept⟩ := hm.kept.delete hhold
        have hcoherent : Coherent (m.resultMsgStore.erase key) (m.dvParts.erase key) :=
          hm.coherent.erase
        rw [PartialMap.erase_of_none hnone] at hcoherent
        refine Act.Triple.step (deleteBlock_run hdelete) (Act.Triple.step (Act.modify_apply _ _)
          (Act.Triple.of_run (Act.modify_apply _ _) ⟨?_, hcoherent⟩))
        convert hkept using 1
        exact @Memory.holding_vector m key (m.resultVectorStore.erase key) none fun k => rfl

theorem registerFutureData_spec (al : Allocator) {key : Int} {data : Bytes}
    (hdata : Registered events key data) :
    Act.Triple Sound (Inv events) (registerFutureData al key data) (fun _ => Inv events) := by
  have hnew : Act.Triple Sound
      (fun m => Kept events m.heap (Function.update m.holding (.future key) none) ∧
        Coherent m.resultMsgStore m.dvParts)
      (newBlock al data >>= fun a => Act.modify fun m => { m with
        futureDataStore := m.futureDataStore.set key ⟨a, data.length, data⟩ })
      (fun _ => Inv events) := by
    refine Act.Triple.intro fun m ⟨hkept, hcoherent⟩ => Act.Triple.step (newBlock_run al data m) ?_
    have halloc := hkept.alloc al (.future key) data data (Nat.le_refl data.length)
      (Layout.holds_self data) ⟨rfl, hdata⟩
    rw [Function.update_idem] at halloc
    refine Act.Triple.of_run (Act.modify_apply _ _) ⟨?_, hcoherent⟩
    convert halloc using 1
    exact Memory.holding_future fun k => rfl
  refine Act.Triple.intro fun m hm => Act.Triple.step (Act.get_apply m) ?_
  cases hold : m.futureDataStore key with
  | none =>
    refine hnew.pre fun t ht => ?_
    subst ht
    exact ⟨hm.kept.drop (.future key), hm.coherent⟩
  | some old =>
    have hhold : m.holding (.future key) = some old.held := by
      rw [Memory.holding, hold, Option.map_some]
    obtain ⟨hdelete, hkept⟩ := hm.kept.delete hhold
    refine Act.Triple.step (deleteBlock_run hdelete) (hnew.pre fun t ht => ?_)
    subst ht
    exact ⟨hkept, hm.coherent⟩

theorem removeFutureData_spec (key : Int) :
    Act.Triple Sound (Inv events) (removeFutureData key) (fun _ => Inv events) := by
  refine Act.Triple.intro fun m hm => Act.Triple.step (Act.get_apply m) ?_
  cases hold : m.futureDataStore key with
  | none => exact Act.Triple.of_run (Act.pure_apply _ m) hm
  | some v =>
    have hhold : m.holding (.future key) = some v.held := by
      rw [Memory.holding, hold, Option.map_some]
    obtain ⟨hdelete, hkept⟩ := hm.kept.delete hhold
    refine Act.Triple.step (deleteBlock_run hdelete)
      (Act.Triple.of_run (Act.modify_apply _ _) ⟨?_, hm.coherent⟩)
    convert hkept using 1
    exact Memory.holding_future fun k => rfl

theorem checkFutureRequired_spec (key : Int) :
    Act.Triple Sound (Inv events) (checkFutureRequired key) (fun _ => Inv events) := by
  refine Act.Triple.intro fun m hm => Act.Triple.step (Act.get_apply m) ?_
  cases hold : m.askedFetch key with
  | none => exact Act.Triple.of_run (Act.pure_apply _ m) hm
  | some msg =>
    have hhold : m.holding (.fetch key) = some msg.held := by
      rw [Memory.holding, hold, Option.map_some]
    obtain ⟨heap, hrun, hkept⟩ := destroyMessage_run hm hhold
    refine Act.Triple.step hrun (Act.Triple.of_run (Act.modify_apply _ _) ⟨?_, hm.coherent⟩)
    convert hkept using 1
    exact Memory.holding_fetch fun k => rfl

theorem registerFuture_spec (al : Allocator) (thread : ActorServer) {key : Int} {data : Bytes}
    (hdata : Registered events key data) :
    Act.Triple Sound (Inv events) (registerFuture al thread key data) (fun _ => Inv events) := by
  unfold registerFuture
  by_cases hasked : thread.pendingFutureRequests key = none ∧ thread.askedFutureDelete key = true
  · rw [if_pos hasked]
    exact Act.Triple.pure fun _ hm => hm
  · rw [if_neg hasked]
    refine (registerFutureData_spec al hdata).bind fun _ =>
      (checkFutureRequired_spec key).bind fun _ => ?_
    by_cases hdelete : thread.askedFutureDelete key = true
    · rw [if_pos hdelete]
      exact removeFutureData_spec key
    · rw [if_neg hdelete]
      exact Act.Triple.pure fun _ hm => hm

theorem handleCallActorMessage_spec (thread : ActorServer) (msg : MessageObject) :
    Act.Triple Sound (fun m => Inv events m ∧ m.current = some msg)
      (handleCallActorMessage thread msg) (fun _ => Inv events) := by
  refine Act.Triple.intro fun m ⟨hm, hcurrent⟩ => ?_
  unfold handleCallActorMessage
  by_cases hproxy : thread.actorWorkerProxy = true
  · rw [if_pos hproxy]
    have hhold : m.holding .current = some msg.held := by
      rw [Memory.holding, hcurrent, Option.map_some]
    have hmove := hm.kept.move (q := .call m.queue.length) hhold rfl
      (hm.kept.owned.backs _ _ hhold) (hm.kept.known .current _ hhold)
    refine Act.Triple.of_run (Act.modify_apply _ _) ⟨?_, hm.coherent⟩
    have hholding := Memory.holding_queue { m with current := none } msg
    rw [Memory.holding_current] at hholding
    convert hmove using 1
    exact hholding
  · rw [if_neg hproxy]
    exact Act.Triple.fail fun _ _ => sound_other _

theorem handlePrefetchMessage_spec (al : Allocator) (thread : ActorServer) (dvSize : Nat) :
    Act.Triple Sound (Inv events) (handlePrefetchMessage al thread dvSize)
      (fun _ => Inv events) := by
  unfold handlePrefetchMessage
  cases thread.intraActorComm with
  | none => exact Act.Triple.fail fun _ _ => sound_other _
  | some comm => exact preparePartVector_spec al _ _

theorem handleFetchMessage_spec (al : Allocator) (thread : ActorServer) (msg : MessageObject)
    (reqFutureKey : Int) (bytes : Bytes) :
    Act.Triple Sound (fun m => Inv events m ∧ Handled events bytes msg m)
      (handleFetchMessage al thread msg reqFutureKey) (fun _ => Inv events) := by
  unfold handleFetchMessage
  cases thread.intraActorComm with
  | none => exact Act.Triple.fail fun _ _ => sound_other _
  | some comm =>
    refine Act.Triple.intro fun m ⟨hm, hmsg⟩ => Act.Triple.step (Act.get_apply m) ?_
    by_cases hdefer : comm.pid = 0 ∧ (m.futureDataStore reqFutureKey).isNone = true
    · rw [if_pos hdefer]
      refine Act.Triple.step (readBlock_run (hmsg.view hm)) (Act.Triple.step (Act.get_apply m) ?_)
      refine assertThat_step fun _ => Act.Triple.step (newBlock_run al bytes m) ?_
      have hknown : Known events (.fetch reqFutureKey)
          ⟨(m.heap.alloc al bytes).1, msg.bufSize, msg.received⟩ := by
        rw [hmsg.bufSize, hmsg.received]
        exact ⟨rfl, hmsg.from_event⟩
      have hholds : Layout.Holds bytes 0 msg.received := by
        rw [hmsg.received]
        exact Layout.holds_self bytes
      have halloc := hm.kept.alloc al (.fetch reqFutureKey) bytes msg.received
        hmsg.bufSize.le hholds hknown
      refine Act.Triple.of_run (Act.modify_apply _ _) ⟨?_, hm.coherent⟩
      convert halloc using 1
      exact Memory.holding_fetch fun k => rfl
    · rw [if_neg hdefer]
      exact Act.Triple.of_run (Act.pure_apply _ m) hm

end Handlers

section Loop

variable {events : List Event}

/-- The instruction of the envelope that a message was read from. -/
def instructionOf : WireMessage → Instruction
  | .createActor .. => .createActor
  | .callActor .. => .callActor
  | .registerFuture .. => .registerFutureData
  | .getFutureData .. => .getFutureData
  | .releaseFuture .. => .releaseFuture
  | .storeResult .. => .storeResult
  | .storeResultPart .. => .storeResultPart
  | .releaseResultPart .. => .releaseResult
  | .getResultParts .. => .getResultParts
  | .distributeVector .. => .distributeVector
  | .prefetch .. => .prefetch
  | .fetch .. => .fetch
  | .stopActor .. => .destroyActor
  | .stopActorProcess => .stop

theorem instructionOf_readMessage {buf : Bytes} {i : Instruction} {wire : WireMessage}
    (h : readMessage buf i = some wire) : instructionOf wire = i := by
  cases i <;> simp only [readMessage, Getters.createActor, Getters.callActor,
    Getters.registerFuture, Getters.getResultParts, Getters.storeResult, Getters.distributeVector,
    Getters.prefetch, Getters.fetch, Getters.storeResultPart, Option.bind_eq_bind,
    Option.bind_eq_some_iff, Option.pure_def, Option.some.injEq] at h
  case storeResult =>
    obtain ⟨resid, -, dataSize, -, isAddr, -, h⟩ := h
    cases isAddr
    · simp only [Bool.false_eq_true, if_false, Option.bind_eq_some_iff, Option.some.injEq] at h
      obtain ⟨data, -, rfl⟩ := h
      rfl
    · simp only [if_true, Option.bind_eq_some_iff, Option.some.injEq] at h
      obtain ⟨addr, -, rfl⟩ := h
      rfl
  all_goals grind [instructionOf]

theorem instruction_of_createMessage {buf : Bytes} {wire : WireMessage}
    (h : createMessage buf = some wire) :
    (Getters.readInt buf 0).bind Instruction.ofCode = some (instructionOf wire) := by
  simp only [createMessage, Option.bind_eq_bind, Option.bind_eq_some_iff] at h
  obtain ⟨code, hcode, i, hi, hread⟩ := h
  rw [hcode, Option.bind_some, hi, instructionOf_readMessage hread]

theorem routeHandleMessage_spec (al : Allocator) (thread : ActorServer) (msg : MessageObject)
    {bytes : Bytes} {wire : WireMessage} (hevent : Received events bytes)
    (hwire : createMessage bytes = some wire) :
    Act.Triple Sound (fun m => Inv events m ∧ Handled events bytes msg m)
      (routeHandleMessage al thread msg wire) (fun _ => Inv events) := by
  have hinstr := instruction_of_createMessage hwire
  cases wire with
  | storeResult resid content =>
    have hcall : (Getters.readInt bytes 0).bind Instruction.ofCode ≠ some .callActor := by
      rw [hinstr]
      simp [instructionOf]
    exact (handleStoreResultMessage_spec al msg resid content.size hcall).post fun _ _ hm => hm.1
  | callActor functionName args futureKey =>
    refine (handleCallActorMessage_spec thread msg).pre fun m ⟨hm, hmsg⟩ => ⟨hm, ?_⟩
    rcases hmsg.place with ⟨hcurrent, -⟩ | ⟨-, -, -, hcall⟩
    · exact hcurrent
    · exact absurd hinstr hcall
  | fetch pids keys reqFutureKey resFutureKey dvSize =>
    exact handleFetchMessage_spec al thread msg reqFutureKey bytes
  | registerFuture futureKey futureData =>
    exact (registerFuture_spec al thread (.inl ⟨bytes, hevent, hwire⟩)).pre fun _ hm => hm.1
  | storeResultPart resid data offset => exact (addData_spec resid data offset).pre fun _ hm => hm.1
  | releaseResultPart resid => exact (removePart_spec resid).pre fun _ hm => hm.1
  | releaseFuture futureKey => exact (removeFutureData_spec futureKey).pre fun _ hm => hm.1
  | prefetch futurePid futureKey dvSize =>
    exact (handlePrefetchMessage_spec al thread dvSize).pre fun _ hm => hm.1
  | _ => exact Act.Triple.pure fun _ hm => hm.1

theorem step_spec (al : Allocator) {event : Event} (hevent : event ∈ events) :
    Act.Triple Sound (Inv events) (step al event) (fun _ => Inv events) := by
  cases event with
  | message thread memory src bytes =>
    have hreceived : Received events bytes := ⟨thread, memory, src, hevent⟩
    refine (receiveActorMessage_spec al memory src hreceived).bind fun made => ?_
    cases made with
    | none => exact Act.Triple.pure fun _ hm => hm
    | some msg =>
      refine Act.Triple.intro fun m ⟨hm, hmsg⟩ => Act.Triple.step (readBlock_run (hmsg.view hm)) ?_
      cases hwire : createMessage bytes with
      | none => exact Act.Triple.fail fun _ _ => sound_other _
      | some wire =>
        refine Act.Triple.bind (Q := fun _ => Inv events) ?_ fun _ => releaseMessage_spec
        refine (routeHandleMessage_spec al thread msg hreceived hwire).pre fun t ht => ?_
        subst ht
        exact ⟨hm, hmsg⟩
  | gathered thread futureKey data =>
    exact registerFuture_spec al thread (.inr ⟨thread, hevent⟩)
  | callDone =>
    refine Act.Triple.modify_apply fun m hm => ⟨?_, hm.coherent⟩
    rw [Memory.holding_tail]
    refine ⟨hm.kept.owned.rename Memory.shift_injective, fun p x hp => ?_⟩
    have hknown := hm.kept.known _ _ hp
    cases p <;> exact hknown

end Loop

section Kept

variable {events : List Event} {m : Memory}

theorem Inv.apart_recvBuf (hm : Inv events m) {a : Nat} (ha : m.recvBuf = some a) {p : Place}
    {x : Heap.Held UInt8} (hp : p ≠ .recvBuf) (hx : m.holding p = some x) : x.addr ≠ a :=
  fun he => hp (hm.kept.owned.apart p .recvBuf x _ hx (holding_recvBuf_of ha) he)

theorem createObject_quiet (al : Allocator) (src : Int) (buf : Nat) (bytes : Bytes) :
    Act.Quiet (createObject al src buf bytes) := by
  refine (Act.Quiet.lift _).bind fun view => ?_
  cases Getters.readInt view 0 with
  | none => exact Act.Quiet.fail _
  | some code =>
    cases hinstr : Instruction.ofCode code with
    | none =>
      simp only [hinstr]
      exact Act.Quiet.pure _
    | some instruction =>
      have hcopy : ∀ {β : Type} (f : Nat → MemAct β), (∀ a, Act.Quiet (f a)) →
          Act.Quiet (newBlock al view >>= f) := fun f hf => (Act.Quiet.lift _).bind hf
      cases instruction <;> simp only [hinstr] <;> first
        | exact Act.Quiet.pure _
        | exact hcopy _ fun a => (Act.Quiet.modify _).bind fun _ => Act.Quiet.pure _

/-- Growing leaves every other place as it is, and deletes nothing but the receive buffer. -/
theorem growRecvBuf_run (hm : Inv events m) (al : Allocator) (memory : Nat → UInt8) (n : Nat) :
    ∃ out m', growRecvBuf al memory n m = (out, .ok ((), m')) ∧
      (∀ o ∈ out, ∃ a, o = .deleted a ∧ m.recvBuf = some a) ∧
      ∀ p, p ≠ .recvBuf → m'.holding p = m.holding p := by
  unfold growRecvBuf
  rw [Act.get_bind]
  cases hbuf : m.recvBuf with
  | none =>
    refine ⟨[], _, rfl, by simp, fun p hp => ?_⟩
    cases p <;> first | exact absurd rfl hp | rfl
  | some a =>
    obtain ⟨hdelete, -⟩ := hm.kept.delete (holding_recvBuf_of hbuf)
    simp only [Act.emit_bind, Act.bind_of_ok (deleteBlock_run hdelete), newBlock_bind]
    refine ⟨[.deleted a], _, rfl, by simp, fun p hp => ?_⟩
    cases p <;> first | exact absurd rfl hp | rfl

theorem fillRecvBuf_touches (al : Allocator) (src : Int) (bytes : Bytes) {o : MemoryEvent}
    (ho : o ∈ (fillRecvBuf al src bytes m).1) : ∃ a, o = .wrote a ∧ m.recvBuf = some a := by
  unfold fillRecvBuf at ho
  rw [Act.get_bind] at ho
  cases hbuf : m.recvBuf with
  | none =>
    rw [hbuf] at ho
    cases ho
  | some a =>
    rw [hbuf] at ho
    dsimp only at ho
    rw [Act.emit_bind] at ho
    have hquiet : Act.Quiet (writeBlock a 0 bytes >>= fun _ => Act.modify
        (fun m : Memory => { m with received := bytes }) >>= fun _ =>
          createObject al src a bytes) :=
      Act.Quiet.bind (Act.Quiet.lift _) fun _ => (Act.Quiet.modify _).bind fun _ =>
        createObject_quiet al src a bytes
    rcases List.mem_cons.mp ho with rfl | hrest
    · exact ⟨a, rfl, rfl⟩
    · rw [hquiet m] at hrest
      cases hrest

/-- Receiving deletes and writes no buffer that anything kept refers to. -/
theorem receiveActorMessage_touches (hm : Inv events m) (al : Allocator) (memory : Nat → UInt8)
    (src : Int) (bytes : Bytes) {a : Nat}
    (ha : .deleted a ∈ (receiveActorMessage al memory src bytes m).1 ∨
      .wrote a ∈ (receiveActorMessage al memory src bytes m).1)
    {p : Place} {x : Heap.Held UInt8} (hp : p ≠ .recvBuf) (hx : m.holding p = some x) :
    x.addr ≠ a := by
  have hfill : ∀ t : Memory, Inv events t → t.holding p = some x →
      .deleted a ∈ (fillRecvBuf al src bytes t).1 ∨ .wrote a ∈ (fillRecvBuf al src bytes t).1 →
      x.addr ≠ a := by
    intro t ht hxt hmem
    rcases hmem with hmem | hmem
    · obtain ⟨b, hb, -⟩ := fillRecvBuf_touches al src bytes hmem
      cases hb
    · obtain ⟨b, hb, hbuf⟩ := fillRecvBuf_touches al src bytes hmem
      cases hb
      exact ht.apart_recvBuf hbuf hp hxt
  unfold receiveActorMessage at ha
  rw [Act.get_bind] at ha
  by_cases hgrow : m.recvBufSize < bytes.length
  · rw [if_pos hgrow] at ha
    obtain ⟨out, m', hrun, hdeleted, hsame⟩ := growRecvBuf_run hm al memory bytes.length
    have hm' := @growRecvBuf_spec events al memory bytes.length m hm
    rw [hrun] at hm'
    rw [Act.bind_of_ok hrun] at ha
    have hx' : m'.holding p = some x := by rw [hsame p hp, hx]
    rcases ha with ha | ha
    · rcases List.mem_append.mp ha with hout | hrest
      · obtain ⟨b, hb, hbuf⟩ := hdeleted _ hout
        cases hb
        exact hm.apart_recvBuf hbuf hp hx
      · exact hfill m' hm'.1 hx' (.inl hrest)
    · rcases List.mem_append.mp ha with hout | hrest
      · obtain ⟨b, hb, -⟩ := hdeleted _ hout
        cases hb
      · exact hfill m' hm'.1 hx' (.inr hrest)
  · rw [if_neg hgrow] at ha
    exact hfill m hm hx ha

theorem Received.mono {events' : List Event} (h : ∀ e ∈ events, e ∈ events') {bytes : Bytes}
    (hr : Received events bytes) : Received events' bytes := by
  obtain ⟨thread, memory, src, hmem⟩ := hr
  exact ⟨thread, memory, src, h _ hmem⟩

theorem Known.mono {events' : List Event} (h : ∀ e ∈ events, e ∈ events') {p : Place}
    {x : Heap.Held UInt8} (hx : Known events p x) : Known events' p x := by
  cases p with
  | recvBuf => trivial
  | vector key => exact hx
  | future key =>
    refine ⟨hx.1, ?_⟩
    rcases hx.2 with ⟨bytes, hr, hcreate⟩ | ⟨thread, hmem⟩
    · exact .inl ⟨bytes, hr.mono h, hcreate⟩
    · exact .inr ⟨thread, h _ hmem⟩
  | _ => exact ⟨hx.1, hx.2.mono h⟩

theorem Inv.mono {events' : List Event} (h : ∀ e ∈ events, e ∈ events') (hm : Inv events m) :
    Inv events' m :=
  ⟨⟨hm.kept.owned, fun p x hp => (hm.kept.known p x hp).mono h⟩, hm.coherent⟩

/-- What is kept is what was received, in a buffer of its own that the next message, of whatever
size, neither deletes nor writes; a buffer that is handed over belongs to one message. -/
structure Retained (al : Allocator) (events : List Event) (m : Memory) : Prop where
  contents : ∀ p x, p ≠ .recvBuf → m.holding p = some x →
    Known events p x ∧ m.heap.read x.addr 0 x.contents.length = some x.contents
  apart : ∀ p q x y, m.holding p = some x → m.holding q = some y → x.addr = y.addr → p = q
  untouched : ∀ memory src bytes a,
    (.deleted a ∈ (receiveActorMessage al memory src bytes m).1 ∨
      .wrote a ∈ (receiveActorMessage al memory src bytes m).1) →
    ∀ p x, p ≠ .recvBuf → m.holding p = some x → x.addr ≠ a
  handedOver : ∀ memory src bytes out msg m₁,
    receiveActorMessage al memory src bytes m = (out, .ok (some msg, m₁)) →
    ∀ resid content, createMessage bytes = some (.storeResult resid content) →
    ∀ out' m₂, handleStoreResultMessage al msg resid content.size m₁ = (out', .ok ((), m₂)) →
      m₁.recvBuf = some msg.buf ∧ m₂.resultMsgStore resid = some { msg with qowned := true } ∧
        ∀ p y, m₂.holding p = some y → y.addr = msg.buf → p = .part resid

theorem Inv.retained (hm : Inv events m) (al : Allocator) : Retained al events m where
  contents p x _ hx := ⟨hm.kept.known p x hx, (hm.kept.owned.backs p x hx).read⟩
  apart := hm.kept.owned.apart
  untouched memory src bytes _ ha _ _ hp hx :=
    receiveActorMessage_touches hm al memory src bytes ha hp hx
  handedOver := by
    intro memory src bytes out msg m₁ hreceive resid content hwire out' m₂ hstore
    have hcall : (Getters.readInt bytes 0).bind Instruction.ofCode ≠ some .callActor := by
      rw [instruction_of_createMessage hwire]
      simp [instructionOf]
    let next := Event.message { pid := 0 } memory src bytes :: events
    have hlater : ∀ e ∈ events, e ∈ next := fun e he => List.mem_cons_of_mem _ he
    have hevent : Received next bytes := ⟨_, memory, src, List.mem_cons_self⟩
    have hmade := receiveActorMessage_spec al memory src hevent m (hm.mono hlater)
    rw [hreceive] at hmade
    obtain ⟨hm₁, hmsg⟩ : Inv next m₁ ∧ Handled next bytes msg m₁ := hmade
    have hend := handleStoreResultMessage_spec al msg resid content.size hcall m₁ ⟨hm₁, hmsg⟩
    rw [hstore] at hend
    obtain ⟨hm₂, hstored⟩ := hend
    refine ⟨(hmsg.in_recvBuf hcall).1, hstored, fun p y hy haddr => ?_⟩
    have hhold : m₂.holding (.part resid) =
        some (MessageObject.held { msg with qowned := true }) := by
      rw [Memory.holding, hstored, Option.map_some]
    exact hm₂.kept.owned.apart p _ y _ hy hhold haddr

theorem inv_start (events : List Event) : Inv events {} := by
  have hnone : ∀ p, Memory.holding {} p = none := fun p => by cases p <;> rfl
  refine ⟨⟨⟨fun p x hp => ?_, fun p q x y hp => ?_⟩, fun p x hp => ?_⟩, ⟨fun key msg h => ?_,
    fun key part h => ?_⟩⟩
  · rw [hnone] at hp
    cases hp
  · rw [hnone] at hp
    cases hp
  · rw [hnone] at hp
    cases hp
  · cases h
  · cases h

/-- Whatever messages come, of whatever kinds and sizes and in whatever order. -/
theorem messages_retained (al : Allocator) (events : List Event) :
    match (Act.trace (step al) events {}).2 with
    | .error e => Sound e
    | .ok m => Retained al events m := by
  have hrun := Act.Triple.trace (fun event hevent => step_spec al hevent) (inv_start events)
  rcases hend : (Act.trace (step al) events {}).2 with e | m
  · rw [hend] at hrun
    exact hrun
  · rw [hend] at hrun
    exact hrun.retained al

/-- Two results, the second one larger than the receive buffer, a call and a release. -/
def sampleEvents : List Event :=
  let thread : ActorServer := { pid := 0, actorWorkerProxy := true }
  [Envelope.storeResult 5 (.data [1, 2, 3]), .storeResult 6 (.data [4, 5, 6, 7, 8]),
    .callActor [65] 0 (.ready [9]), .releaseResultPart 5].filterMap fun m =>
      (m.construct fun _ => 170).map (Event.message thread (fun _ => 0) 3)

example : (match (Act.trace (step growingAllocator) sampleEvents {}).2 with
    | .error _ => false
    | .ok m => (m.resultMsgStore 5).isNone && (m.resultMsgStore 6).isSome && m.queue.length == 1) =
      true := by decide +kernel

end Kept

end ActiveBsp.MessageMemory
