import ActiveBsp.Actormsg.EnvelopeRoundTrip
import ActiveBsp.Fault
import ActiveBsp.Library.Act
import ActiveBsp.Library.Heap
import ActiveBsp.Library.PartialMap

/-!
# The send buffers of proxies

A proxy builds the messages of its calls in one buffer, which it keeps and lets
the constructor of the message replace by a larger one. Its destructor deletes
the buffer, and copies of a proxy are made member by member.
-/
namespace ActiveBsp.ProxyBuffers

open Library Library.Buffer Library.Layout Library.MachineInt Actormsg Serialization

set_option autoImplicit false

/-- `ProxyBase`. The communicator has no part in what happens to the buffer. -/
structure Proxy where
  dst : Int
  sendBuf : Option Nat
  sendBufSize : Nat
  deriving DecidableEq, Repr

/-- The buffers of the proxies, and the proxies that live. -/
structure Memory where
  heap : Heap UInt8
  proxies : PartialMap Nat Proxy

inductive Event where
  | allocated (a : Nat)
  | deleted (a : Nat)
  /-- `std::bad_array_new_length`. -/
  | threw
  deriving DecidableEq, Repr

/-- An operation on proxies, with the names of those it works on. -/
inductive Op where
  | construct (p : Nat) (dst : Int)
  /-- `ProxyBase()`, which leaves `_dst` as the memory was. -/
  | constructDefault (p : Nat) (dst : Int)
  | copyConstruct (p q : Nat)
  | copyAssign (p q : Nat)
  | activeCall (p : Nat) (functionName args : Bytes)
  | load (p : Nat) (dst : Int)
  | destroy (p : Nat)
  deriving DecidableEq, Repr

/-- The bytes of a call. -/
def callMessage (functionName args : Bytes) : Bytes :=
  intBytes 4 ++ intBytes 0 ++ intBytes 0 ++ intBytes (functionName.length + 1) ++
    intBytes args.length ++ functionName ++ [0] ++ args

/-- `_buf_size` of the message, an `int`. -/
def bufSize (functionName args : Bytes) : Int := toInt32 (callMessage functionName args).length

/-- `delete[] *buf`. -/
def deleteBuf (x : Proxy) (h : Heap UInt8) : Except Fault (List Event × Heap UInt8) :=
  match x.sendBuf with
  | none => .ok ([], h)
  | some a => (orUndefined (h.delete a)).map fun h => ([.deleted a], h)

/-- A buffer of size zero is not deleted. -/
def deleteOldBuf (x : Proxy) (h : Heap UInt8) : Except Fault (List Event × Heap UInt8) :=
  if 0 < x.sendBufSize then deleteBuf x h else .ok ([], h)

/-- `*buf = new char[_buf_size]`, for which a negative size is no size. -/
def newBuf (al : Allocator) (memory : Nat → UInt8) (size : Int) (x : Proxy) (h : Heap UInt8) :
    Option (Proxy × Heap UInt8) :=
  if size < 0 then none
  else some ({ x with
      sendBuf := some (h.alloc al (allocate memory size.toNat)).1, sendBufSize := toUInt64 size },
    (h.alloc al (allocate memory size.toNat)).2)

/-- The message is written into the buffer. -/
def writeMessage (msg : Bytes) (x : Proxy) (h : Heap UInt8) : Except Fault (Heap UInt8) :=
  orUndefined (x.sendBuf.bind fun a => h.write a ⟨0, msg⟩)

/-- A message of a size goes into the buffer of the proxy, or into a larger one. When `new`
throws, the proxy is as it was. -/
def placeMessage (al : Allocator) (memory : Nat → UInt8) (size : Int) (msg : Bytes)
    (x : Proxy) (h : Heap UInt8) : Except Fault (List Event × Proxy × Heap UInt8) :=
  if x.sendBufSize < toUInt64 size then
    match deleteOldBuf x h with
    | .error e => .error e
    | .ok (out, h) =>
      match newBuf al memory size x h with
      | none => .ok (out ++ [.threw], x, h)
      | some (x, h) =>
        (writeMessage msg x h).map fun h => (out ++ x.sendBuf.toList.map .allocated, x, h)
  else (writeMessage msg x h).map fun h => ([], x, h)

/-- The same with the buffer of a proxy that lives. -/
def placeIn (al : Allocator) (memory : Nat → UInt8) (size : Int) (msg : Bytes) (p : Nat) :
    Act Memory Event Fault Unit := fun m =>
  match m.proxies p with
  | none => ([], .error .blocked)
  | some x =>
    match placeMessage al memory size msg x m.heap with
    | .error e => ([], .error e)
    | .ok (out, x, heap) => (out, .ok ((), ⟨heap, m.proxies.set p x⟩))

/-- `active_call`: the constructor of `CallActorMessage` gets the buffer of the proxy. -/
def activeCall (al : Allocator) (memory : Nat → UInt8) (p : Nat) (functionName args : Bytes) :
    Act Memory Event Fault Unit :=
  placeIn al memory (bufSize functionName args) (callMessage functionName args) p

variable (al : Allocator) (memory : Nat → UInt8)

/-- An operation works on proxies that live, and makes one under a name that is free. -/
def step : Op → Act Memory Event Fault Unit
  | .construct p dst | .constructDefault p dst => fun m =>
    match m.proxies p with
    | some _ => ([], .error .blocked)
    | none => ([], .ok ((), { m with proxies := m.proxies.set p ⟨dst, none, 0⟩ }))
  | .copyConstruct p q => fun m =>
    match m.proxies p, m.proxies q with
    | some x, none => ([], .ok ((), { m with proxies := m.proxies.set q x }))
    | _, _ => ([], .error .blocked)
  | .copyAssign p q => fun m =>
    match m.proxies p, m.proxies q with
    | some x, some _ => ([], .ok ((), { m with proxies := m.proxies.set q x }))
    | _, _ => ([], .error .blocked)
  | .activeCall p functionName args => activeCall al memory p functionName args
  | .load p dst => fun m =>
    match m.proxies p with
    | none => ([], .error .blocked)
    | some x => ([], .ok ((), { m with proxies := m.proxies.set p { x with dst := dst } }))
  | .destroy p => fun m =>
    match m.proxies p with
    | none => ([], .error .blocked)
    | some x =>
      match deleteBuf x m.heap with
      | .error e => ([], .error e)
      | .ok (out, heap) => (out, .ok ((), ⟨heap, m.proxies.erase p⟩))

/-- The buffer of a proxy, as a block that the proxy holds. -/
def Proxy.held (x : Proxy) : Option (Heap.Held UInt8) :=
  x.sendBuf.map fun a => ⟨a, x.sendBufSize, []⟩

/-- What the proxies hold. -/
def Memory.hold (m : Memory) (p : Nat) : Option (Heap.Held UInt8) :=
  (m.proxies p).bind Proxy.held

/-- No two proxies hold the same buffer, every buffer held is allocated and has the size that the
proxy has on record, and every buffer that is allocated is held, so that it will be deleted. -/
structure OneOwner (m : Memory) : Prop where
  owned : Heap.Owned m.heap m.hold
  exact : ∀ p x a block, m.proxies p = some x → x.sendBuf = some a → m.heap.lookup a = some block →
    block.length = x.sendBufSize
  held : ∀ a ∈ m.heap, ∃ p x, m.proxies p = some x ∧ x.sendBuf = some a

/-- The action neither deletes nor writes what is not allocated, and leaves every buffer with one
owner. -/
def Keeps (act : Act Memory Event Fault Unit) (m : Memory) : Prop :=
  (∀ out m', act m = (out, .ok ((), m')) → OneOwner m') ∧
    ∀ out e, act m = (out, .error e) → e = .blocked

def KeepsOwners (m : Memory) (op : Op) : Prop := Keeps (step al memory op) m

/-- A proxy is copied only while it has no buffer, into a new proxy, over another one without a
buffer, or over itself; and the size of a call is an `int`, or is cut to a negative one and the
proxy has no buffer. -/
def Harmless (m : Memory) : Op → Prop
  | .copyConstruct p q => ∀ x, m.proxies p = some x → m.proxies q = none → x.sendBuf = none
  | .copyAssign p q => ∀ x y, m.proxies p = some x → m.proxies q = some y →
      p = q ∨ x.sendBuf = none ∧ y.sendBuf = none
  | .activeCall p functionName args => ∀ x, m.proxies p = some x →
      (callMessage functionName args).length < 2 ^ 31 ∨
        x.sendBuf = none ∧ bufSize functionName args < 0
  | _ => True

/-- A proxy without a buffer has the size zero on record, and one with a buffer a size that is a
positive `int`. -/
def Proxy.Sized (x : Proxy) : Prop :=
  x.sendBufSize < 2 ^ 31 ∧ (x.sendBuf = none ↔ x.sendBufSize = 0)

def Sized (m : Memory) : Prop := ∀ p x, m.proxies p = some x → x.Sized

@[simp] theorem hold_set (m : Memory) (heap : Heap UInt8) (p : Nat) (x : Proxy) :
    Memory.hold ⟨heap, m.proxies.set p x⟩ = Function.update m.hold p x.held := by
  funext q
  by_cases hq : q = p
  · subst hq
    show (m.proxies.set q x q).bind Proxy.held = _
    rw [Function.update_self, PartialMap.set_self, Option.bind_some]
  · show (m.proxies.set p x q).bind Proxy.held = _
    rw [Function.update_of_ne hq, PartialMap.set_of_ne _ _ hq]
    rfl

@[simp] theorem hold_erase (m : Memory) (heap : Heap UInt8) (p : Nat) :
    Memory.hold ⟨heap, m.proxies.erase p⟩ = Function.update m.hold p none := by
  funext q
  by_cases hq : q = p
  · subst hq
    show (m.proxies.erase q q).bind Proxy.held = _
    rw [Function.update_self, PartialMap.erase_self, Option.bind_none]
  · show (m.proxies.erase p q).bind Proxy.held = _
    rw [Function.update_of_ne hq, PartialMap.erase_of_ne _ hq]
    rfl

theorem hold_of_live {m : Memory} {p : Nat} {x : Proxy} (hp : m.proxies p = some x) :
    m.hold p = x.held := by
  rw [Memory.hold, hp, Option.bind_some]

theorem held_of_buf {x : Proxy} {a : Nat} (h : x.sendBuf = some a) :
    x.held = some ⟨a, x.sendBufSize, []⟩ := by
  rw [Proxy.held, h, Option.map_some]

theorem held_of_null {x : Proxy} (h : x.sendBuf = none) : x.held = none := by
  rw [Proxy.held, h, Option.map_none]

theorem length_callMessage (functionName args : Bytes) :
    (callMessage functionName args).length =
      (Envelope.callActor functionName 0 (.ready args)).size := by
  simp only [callMessage, List.length_append, length_intBytes, List.length_singleton,
    Envelope.size, Arguments.predictSize]
  omega

namespace OneOwner

variable {m : Memory} {p : Nat} {x y : Proxy} {a : Nat}

theorem lookup (ho : OneOwner m) (hp : m.proxies p = some x) (hx : x.sendBuf = some a) :
    ∃ block, m.heap.lookup a = some block ∧ block.length = x.sendBufSize := by
  obtain ⟨block, hlookup, -⟩ := ho.owned.backs p _ ((hold_of_live hp).trans (held_of_buf hx))
  exact ⟨block, hlookup, ho.exact p x a block hp hx hlookup⟩

/-- Two proxies with one buffer are one. -/
theorem same (ho : OneOwner m) {q : Nat} (hp : m.proxies p = some x) (hq : m.proxies q = some y)
    (hx : x.sendBuf = some a) (hy : y.sendBuf = some a) : p = q :=
  ho.owned.apart p q _ _ ((hold_of_live hp).trans (held_of_buf hx))
    ((hold_of_live hq).trans (held_of_buf hy)) rfl

/-- A proxy without a buffer comes, or takes the place of another one. -/
theorem set_null (ho : OneOwner m) (hy : y.sendBuf = none)
    (hp : ∀ x, m.proxies p = some x → x.sendBuf = none) :
    OneOwner { m with proxies := m.proxies.set p y } := by
  refine ⟨?_, fun q x a block (hq : m.proxies.set p y q = some x) hx hlookup => ?_,
    fun a ha => ?_⟩
  · rw [hold_set, held_of_null hy]
    exact ho.owned.drop p
  · by_cases hqp : q = p
    · rw [hqp, PartialMap.set_self] at hq
      cases hq
      rw [hy] at hx
      cases hx
    · rw [PartialMap.set_of_ne _ _ hqp] at hq
      exact ho.exact q x a block hq hx hlookup
  · obtain ⟨q, x, hq, hx⟩ := ho.held a ha
    have hqp : q ≠ p := by
      rintro rfl
      rw [hp x hq] at hx
      cases hx
    exact ⟨q, x, (PartialMap.set_of_ne _ _ hqp).trans hq, hx⟩

/-- A proxy without a buffer goes. -/
theorem erase_null (ho : OneOwner m) (hp : m.proxies p = some x) (hx : x.sendBuf = none) :
    OneOwner { m with proxies := m.proxies.erase p } := by
  refine ⟨?_, fun q z a block (hq : m.proxies.erase p q = some z) hz hlookup => ?_,
    fun a ha => ?_⟩
  · rw [hold_erase]
    exact ho.owned.drop p
  · by_cases hqp : q = p
    · rw [hqp, PartialMap.erase_self] at hq
      cases hq
    · rw [PartialMap.erase_of_ne _ hqp] at hq
      exact ho.exact q z a block hq hz hlookup
  · obtain ⟨q, z, hq, hz⟩ := ho.held a ha
    have hqp : q ≠ p := by
      rintro rfl
      rw [hp] at hq
      cases hq
      rw [hx] at hz
      cases hz
    exact ⟨q, z, (PartialMap.erase_of_ne _ hqp).trans hq, hz⟩

/-- A proxy gets other fields with the same buffer. -/
theorem set_same (ho : OneOwner m) (hp : m.proxies p = some x) (hbuf : y.sendBuf = x.sendBuf)
    (hsize : y.sendBufSize = x.sendBufSize) :
    OneOwner { m with proxies := m.proxies.set p y } := by
  refine ⟨?_, fun q z a block (hq : m.proxies.set p y q = some z) hz hlookup => ?_,
    fun a ha => ?_⟩
  · have hheld : y.held = m.hold p := by rw [hold_of_live hp, Proxy.held, Proxy.held, hbuf, hsize]
    rw [hold_set, hheld, Function.update_eq_self]
    exact ho.owned
  · by_cases hqp : q = p
    · rw [hqp, PartialMap.set_self] at hq
      cases hq
      rw [hsize]
      exact ho.exact p x a block hp (hbuf ▸ hz) hlookup
    · rw [PartialMap.set_of_ne _ _ hqp] at hq
      exact ho.exact q z a block hq hz hlookup
  · obtain ⟨q, z, hq, hz⟩ := ho.held a ha
    by_cases hqp : q = p
    · subst hqp
      rw [hp] at hq
      cases hq
      exact ⟨q, y, PartialMap.set_self _ _ _, hbuf.trans hz⟩
    · exact ⟨q, z, (PartialMap.set_of_ne _ _ hqp).trans hq, hz⟩

/-- The buffer of a proxy is deleted, and the proxy has none or is gone. -/
theorem delete (ho : OneOwner m) (hp : m.proxies p = some x) (hx : x.sendBuf = some a)
    {proxies : PartialMap Nat Proxy} (hothers : ∀ q, q ≠ p → proxies q = m.proxies q)
    (hself : ∀ z, proxies p = some z → z.sendBuf = none) :
    deleteBuf x m.heap = .ok ([.deleted a], m.heap.erase a) ∧
      OneOwner ⟨m.heap.erase a, proxies⟩ := by
  have hdelete := ho.owned.delete ((hold_of_live hp).trans (held_of_buf hx))
  refine ⟨?_, ?_, fun q z b block hq hz hlookup => ?_, fun b hb => ?_⟩
  · rw [deleteBuf, hx]
    dsimp only
    rw [hdelete.1]
    rfl
  · have hhold : Memory.hold ⟨m.heap.erase a, proxies⟩ = Function.update m.hold p none := by
      funext q
      show (proxies q).bind Proxy.held = _
      by_cases hqp : q = p
      · subst hqp
        rw [Function.update_self]
        cases hz : proxies q with
        | none => rw [Option.bind_none]
        | some z => rw [Option.bind_some, held_of_null (hself z hz)]
      · rw [Function.update_of_ne hqp, hothers q hqp]
        rfl
    rw [hhold]
    exact hdelete.2
  · have hqp : q ≠ p := by
      rintro rfl
      rw [hself z hq] at hz
      cases hz
    have hne : b ≠ a := by
      rintro rfl
      exact hqp (ho.same ((hothers q hqp).symm.trans hq) hp hz hx)
    rw [Finmap.lookup_erase_ne hne] at hlookup
    exact ho.exact q z b block ((hothers q hqp).symm.trans hq) hz hlookup
  · rw [Finmap.mem_erase] at hb
    obtain ⟨q, z, hq, hz⟩ := ho.held b hb.2
    have hqp : q ≠ p := by
      rintro rfl
      rw [hp] at hq
      cases hq
      exact hb.1 (Option.some.inj (hz.symm.trans hx))
    exact ⟨q, z, (hothers q hqp).trans hq, hz⟩

/-- A proxy without a buffer gets a new one. -/
theorem alloc (ho : OneOwner m) (hp : m.proxies p = some x) (hx : x.sendBuf = none)
    (al : Allocator) (block : Bytes) (hy : y.sendBuf = some (m.heap.alloc al block).1)
    (hsize : y.sendBufSize = block.length) :
    OneOwner ⟨(m.heap.alloc al block).2, m.proxies.set p y⟩ := by
  have hnew : ∀ q z b, m.proxies q = some z → z.sendBuf = some b → b ≠ al.new m.heap.keys := by
    rintro q z b hq hz rfl
    obtain ⟨block', hlookup, -⟩ := ho.lookup hq hz
    exact Heap.new_notMem al m.heap (Finmap.mem_of_lookup_eq_some hlookup)
  refine ⟨?_, fun q z b block' (hq : m.proxies.set p y q = some z) hz hlookup => ?_,
    fun b hb => ?_⟩
  · rw [hold_set, held_of_buf hy]
    exact ho.owned.alloc al p (Nat.le_of_eq hsize) (holds_nil (Nat.zero_le _))
  · by_cases hqp : q = p
    · rw [hqp, PartialMap.set_self] at hq
      cases hq
      rw [hy] at hz
      cases hz
      rw [Heap.alloc, Finmap.lookup_insert] at hlookup
      cases hlookup
      exact hsize.symm
    · rw [PartialMap.set_of_ne _ _ hqp] at hq
      rw [Heap.alloc, Finmap.lookup_insert_of_ne _ (hnew q z b hq hz)] at hlookup
      exact ho.exact q z b block' hq hz hlookup
  · rw [Heap.alloc, Finmap.mem_insert] at hb
    rcases hb with rfl | hb
    · exact ⟨p, y, PartialMap.set_self _ _ _, hy⟩
    · obtain ⟨q, z, hq, hz⟩ := ho.held b hb
      have hqp : q ≠ p := by
        rintro rfl
        rw [hp] at hq
        cases hq
        rw [hx] at hz
        cases hz
      exact ⟨q, z, (PartialMap.set_of_ne _ _ hqp).trans hq, hz⟩

/-- A message that fits is written. -/
theorem write (ho : OneOwner m) (hp : m.proxies p = some x) (hx : x.sendBuf = some a)
    {msg : Bytes} (hmsg : msg.length ≤ x.sendBufSize) :
    ∃ heap, writeMessage msg x m.heap = .ok heap ∧ OneOwner { m with heap := heap } := by
  obtain ⟨block, hlookup, hblock⟩ := ho.lookup hp hx
  have hstop : (Write.mk 0 msg).stop ≤ block.length := by
    show 0 + msg.length ≤ block.length
    omega
  have hlen : (splice block 0 msg).length = block.length := length_splice hstop
  have hwrite : writeMessage msg x m.heap = .ok (m.heap.insert a (splice block 0 msg)) := by
    rw [writeMessage, hx, Option.bind_some, Heap.write, hlookup, Option.bind_some, store,
      if_pos hstop]
    rfl
  refine ⟨_, hwrite, ?_, fun q z b block' hq hz hlookup' => ?_, fun b hb => ?_⟩
  · have hhold := (hold_of_live hp).trans (held_of_buf hx)
    have hrewrite : Heap.Owned (m.heap.insert a (splice block 0 msg))
        (Function.update m.hold p (some ⟨a, x.sendBufSize, []⟩)) :=
      ho.owned.rewrite hhold (Nat.le_of_eq (hlen.trans hblock).symm) rfl
        (holds_nil (Nat.zero_le _))
    rwa [← hhold, Function.update_eq_self] at hrewrite
  · by_cases hb : b = a
    · subst hb
      rw [Finmap.lookup_insert] at hlookup'
      cases hlookup'
      rw [hlen]
      exact ho.exact q z b block hq hz hlookup
    · rw [Finmap.lookup_insert_of_ne _ hb] at hlookup'
      exact ho.exact q z b block' hq hz hlookup'
  · rw [Finmap.mem_insert] at hb
    rcases hb with rfl | hb
    · exact ⟨p, x, hp, hx⟩
    · exact ho.held b hb

end OneOwner

theorem writeMessage_of_short {x : Proxy} {h : Heap UInt8} {msg : Bytes}
    (hshort : ∀ a block, x.sendBuf = some a → h.lookup a = some block →
      block.length < msg.length) : writeMessage msg x h = .error .undefined := by
  unfold writeMessage
  cases hx : x.sendBuf with
  | none => rfl
  | some a =>
    rw [Option.bind_some, Heap.write]
    cases hlookup : h.lookup a with
    | none => rfl
    | some block =>
      have hstop : ¬ (Write.mk 0 msg).stop ≤ block.length := by
        show ¬ 0 + msg.length ≤ block.length
        have := hshort a block hx hlookup
        omega
      rw [Option.bind_some, store, if_neg hstop]
      rfl

theorem bufSize_lt (functionName args : Bytes) : bufSize functionName args < 2 ^ 31 := by
  unfold bufSize toInt32
  rw [Int.bmod_def]
  omega

theorem bufSize_ge (functionName args : Bytes) : -2 ^ 31 ≤ bufSize functionName args := by
  unfold bufSize toInt32
  rw [Int.bmod_def]
  omega

theorem callMessage_pos (functionName args : Bytes) :
    0 < (callMessage functionName args).length := by
  rw [length_callMessage, Envelope.size]
  omega

variable {al memory} {m : Memory} {p : Nat} {x : Proxy} {size : Int} {msg : Bytes}

theorem placeMessage_of_grow {out : List Event} {h h₁ : Heap UInt8}
    (hgrow : x.sendBufSize < toUInt64 size) (hdelete : deleteOldBuf x h = .ok (out, h₁)) :
    placeMessage al memory size msg x h =
      match newBuf al memory size x h₁ with
      | none => .ok (out ++ [.threw], x, h₁)
      | some (y, h₂) => (writeMessage msg y h₂).map fun h₃ =>
          (out ++ y.sendBuf.toList.map .allocated, y, h₃) := by
  rw [placeMessage, if_pos hgrow, hdelete]

/-- The old buffer is deleted when there is one. -/
theorem deleteOldBuf_ok (ho : OneOwner m) (hs : Sized m) (hp : m.proxies p = some x) :
    ∃ out h, deleteOldBuf x m.heap = .ok (out, h) ∧
      OneOwner ⟨h, m.proxies.set p { x with sendBuf := none, sendBufSize := 0 }⟩ := by
  cases hx : x.sendBuf with
  | none =>
    have hzero : ¬ 0 < x.sendBufSize := Nat.not_lt.mpr (Nat.le_of_eq ((hs p x hp).2.mp hx))
    refine ⟨[], m.heap, if_neg hzero, ho.set_null rfl fun y hy => ?_⟩
    rw [hp] at hy
    cases hy
    exact hx
  | some a =>
    have hpos : 0 < x.sendBufSize := by
      apply Nat.pos_of_ne_zero
      intro hzero
      rw [(hs p x hp).2.mpr hzero] at hx
      cases hx
    obtain ⟨hdelete, ho'⟩ := ho.delete hp hx
      (fun q hq => PartialMap.set_of_ne m.proxies { x with sendBuf := none, sendBufSize := 0 } hq)
      fun z hz => by
        rw [PartialMap.set_self] at hz
        cases hz
        rfl
    exact ⟨_, _, (if_pos hpos).trans hdelete, ho'⟩

/-- The new buffer of the size of the message. -/
theorem newBuf_ok (hsize : size = (msg.length : Int)) (hlt : msg.length < 2 ^ 31)
    (h : Heap UInt8) :
    newBuf al memory size x h = some ({ x with
      sendBuf := some (h.alloc al (allocate memory msg.length)).1, sendBufSize := msg.length },
      (h.alloc al (allocate memory msg.length)).2) := by
  rw [newBuf, hsize, if_neg (by omega), toUInt64_natCast (by omega), Int.toNat_natCast]

/-- A message whose size is an `int`. -/
theorem placeMessage_ok (ho : OneOwner m) (hs : Sized m) (hp : m.proxies p = some x)
    (hpos : 0 < msg.length) (hsize : size = (msg.length : Int)) (hlt : msg.length < 2 ^ 31) :
    ∃ out y h, placeMessage al memory size msg x m.heap = .ok (out, y, h) ∧
      OneOwner ⟨h, m.proxies.set p y⟩ := by
  have hsize64 : toUInt64 size = msg.length := by
    rw [hsize]
    exact toUInt64_natCast (by omega)
  by_cases hgrow : x.sendBufSize < toUInt64 size
  · obtain ⟨out, h, hdelete, ho'⟩ := deleteOldBuf_ok ho hs hp
    have hnew := ho'.alloc (PartialMap.set_self _ _ _) rfl al (allocate memory msg.length)
      (y := ⟨x.dst, some (h.alloc al (allocate memory msg.length)).1, msg.length⟩) rfl
      (length_allocate memory msg.length).symm
    rw [PartialMap.set_set] at hnew
    obtain ⟨h', hwrite, hdone⟩ := hnew.write (PartialMap.set_self _ _ _) rfl (Nat.le_refl _)
    refine ⟨out ++ [.allocated (h.alloc al (allocate memory msg.length)).1], _, h', ?_, hdone⟩
    rw [placeMessage_of_grow hgrow hdelete, newBuf_ok hsize hlt]
    dsimp only
    rw [hwrite]
    rfl
  · have hx : ∃ a, x.sendBuf = some a := by
      apply Option.ne_none_iff_exists'.mp
      intro hnull
      have hzero := (hs p x hp).2.mp hnull
      omega
    obtain ⟨a, hx⟩ := hx
    obtain ⟨h, hwrite, hdone⟩ := ho.write hp hx (show msg.length ≤ _ by omega)
    refine ⟨[], x, h, ?_, ?_⟩
    · rw [placeMessage, if_neg hgrow, hwrite]
      rfl
    · rwa [PartialMap.set_eq_self hp]

variable (al memory msg) in
/-- No size: a proxy without a buffer stays so, and one with a buffer keeps what it deleted. -/
theorem placeMessage_of_neg (ho : OneOwner m) (hs : Sized m) (hp : m.proxies p = some x)
    (hneg : size < 0) (hlow : -2 ^ 31 ≤ size) :
    placeMessage al memory size msg x m.heap = match x.sendBuf with
      | none => .ok ([.threw], x, m.heap)
      | some a => .ok ([.deleted a, .threw], x, m.heap.erase a) := by
  have hgrow : x.sendBufSize < toUInt64 size := by
    have := (hs p x hp).1
    unfold toUInt64
    omega
  cases hx : x.sendBuf with
  | none =>
    have hzero : ¬ 0 < x.sendBufSize := Nat.not_lt.mpr (Nat.le_of_eq ((hs p x hp).2.mp hx))
    rw [placeMessage_of_grow hgrow (if_neg hzero), newBuf, if_pos hneg]
    rfl
  | some a =>
    have hpos : 0 < x.sendBufSize := by
      apply Nat.pos_of_ne_zero
      intro hzero
      rw [(hs p x hp).2.mpr hzero] at hx
      cases hx
    obtain ⟨hdelete, -⟩ := ho.delete hp hx (fun q hq => PartialMap.erase_of_ne m.proxies hq)
      fun z hz => by
        rw [PartialMap.erase_self] at hz
        cases hz
    rw [placeMessage_of_grow hgrow ((if_pos hpos).trans hdelete), newBuf, if_pos hneg]
    rfl

/-- A message whose size was cut does not fit into any buffer of a proxy. -/
theorem placeMessage_of_cut (ho : OneOwner m) (hs : Sized m) (hp : m.proxies p = some x)
    (hnonneg : 0 ≤ size) (hlt : size < 2 ^ 31) (hmsg : 2 ^ 31 ≤ msg.length) :
    placeMessage al memory size msg x m.heap = .error .undefined := by
  by_cases hgrow : x.sendBufSize < toUInt64 size
  · obtain ⟨out, h, hdelete, -⟩ := deleteOldBuf_ok ho hs hp
    rw [placeMessage_of_grow hgrow hdelete, newBuf, if_neg (Int.not_lt.mpr hnonneg)]
    dsimp only
    rw [writeMessage_of_short]
    · rfl
    · intro a block ha hlookup
      cases ha
      rw [Heap.alloc, Finmap.lookup_insert] at hlookup
      cases hlookup
      rw [length_allocate]
      omega
  · rw [placeMessage, if_neg hgrow, writeMessage_of_short]
    · rfl
    · intro a block ha hlookup
      rw [ho.exact p x a block hp ha hlookup]
      exact Nat.lt_of_lt_of_le (hs p x hp).1 hmsg

theorem placeMessage_sized {y : Proxy} {h h' : Heap UInt8} {out : List Event} (hx : x.Sized)
    (hlt : size < 2 ^ 31) (hplace : placeMessage al memory size msg x h = .ok (out, y, h')) :
    y.Sized := by
  by_cases hgrow : x.sendBufSize < toUInt64 size
  · cases hdelete : deleteOldBuf x h with
    | error e =>
      rw [placeMessage, if_pos hgrow, hdelete] at hplace
      cases hplace
    | ok r =>
      obtain ⟨out', h₁⟩ := r
      rw [placeMessage_of_grow hgrow hdelete, newBuf] at hplace
      by_cases hneg : size < 0
      · rw [if_pos hneg] at hplace
        cases hplace
        exact hx
      · rw [if_neg hneg] at hplace
        dsimp only at hplace
        generalize writeMessage msg _ _ = w at hplace
        cases w with
        | error e => cases hplace
        | ok h₃ =>
          cases hplace
          have hsize : toUInt64 size = size.toNat := by
            unfold toUInt64
            omega
          refine ⟨?_, fun hnone => (by cases hnone), fun hzero => ?_⟩
          · show toUInt64 size < 2 ^ 31
            omega
          · have hzero' : toUInt64 size = 0 := hzero
            omega
  · rw [placeMessage, if_neg hgrow] at hplace
    generalize writeMessage msg x h = w at hplace
    cases w with
    | error e => cases hplace
    | ok h₃ =>
      cases hplace
      exact hx

theorem Sized.set (hs : Sized m) (hx : x.Sized) (h : Heap UInt8) :
    Sized ⟨h, m.proxies.set p x⟩ := by
  intro q y (hq : m.proxies.set p x q = some y)
  by_cases hqp : q = p
  · rw [hqp, PartialMap.set_self] at hq
    cases hq
    exact hx
  · rw [PartialMap.set_of_ne _ _ hqp] at hq
    exact hs q y hq

theorem sized_null {dst : Int} : (Proxy.mk dst none 0).Sized := by
  refine ⟨?_, iff_of_true rfl rfl⟩
  show 0 < 2 ^ 31
  decide

theorem placeIn_sized {m' : Memory} {out : List Event} (hs : Sized m) (hlt : size < 2 ^ 31)
    (h : placeIn al memory size msg p m = (out, .ok ((), m'))) : Sized m' := by
  unfold placeIn at h
  split at h
  · cases h
  · split at h
    · cases h
    · cases h
      exact hs.set (placeMessage_sized (hs p _ ‹_›) hlt ‹_›) _

theorem sized_step {op : Op} {m' : Memory} {out : List Event} (hs : Sized m)
    (h : step al memory op m = (out, .ok ((), m'))) : Sized m' := by
  cases op with
  | construct p dst | constructDefault p dst =>
    rw [step] at h
    cases hp : m.proxies p with
    | some x => simp only [hp] at h; cases h
    | none =>
      simp only [hp] at h
      cases h
      exact hs.set sized_null m.heap
  | copyConstruct p q =>
    rw [step] at h
    dsimp only at h
    split at h
    · cases h
      exact hs.set (hs p _ ‹_›) m.heap
    · cases h
  | copyAssign p q =>
    rw [step] at h
    dsimp only at h
    split at h
    · cases h
      exact hs.set (hs p _ ‹_›) m.heap
    · cases h
  | activeCall p functionName args =>
    rw [step, activeCall] at h
    exact placeIn_sized hs (bufSize_lt functionName args) h
  | load p dst =>
    rw [step] at h
    dsimp only at h
    split at h
    · cases h
    · rename_i x hp
      cases h
      have hx : ({ x with dst := dst } : Proxy).Sized := hs p x hp
      exact hs.set hx m.heap
  | destroy p =>
    rw [step] at h
    dsimp only at h
    split at h
    · cases h
    · split at h
      · cases h
      · cases h
        intro q y (hq : m.proxies.erase p q = some y)
        by_cases hqp : q = p
        · rw [hqp, PartialMap.erase_self] at hq
          cases hq
        · rw [PartialMap.erase_of_ne _ hqp] at hq
          exact hs q y hq

theorem keeps_of_ok {act : Act Memory Event Fault Unit} {m' : Memory} {out : List Event}
    (h : act m = (out, .ok ((), m'))) : Keeps act m ↔ OneOwner m' := by
  constructor
  · exact fun hk => hk.1 out m' h
  · intro ho
    refine ⟨fun out' m'' h' => ?_, fun out' e h' => ?_⟩
    · rw [h] at h'
      cases h'
      exact ho
    · rw [h] at h'
      cases h'

theorem keeps_of_error {act : Act Memory Event Fault Unit} {e : Fault} {out : List Event}
    (h : act m = (out, .error e)) : Keeps act m ↔ e = .blocked := by
  constructor
  · exact fun hk => hk.2 out e h
  · intro he
    refine ⟨fun out' m'' h' => ?_, fun out' e' h' => ?_⟩
    · rw [h] at h'
      cases h'
    · rw [h] at h'
      cases h'
      exact he

/-- Two proxies that live and hold one buffer. -/
theorem not_oneOwner {m : Memory} {q : Nat} {y : Proxy} {a : Nat} (hp : m.proxies p = some x)
    (hq : m.proxies q = some y) (hx : x.sendBuf = some a) (hy : y.sendBuf = some a)
    (hne : p ≠ q) : ¬ OneOwner m := fun ho => hne (ho.same hp hq hx hy)

theorem keepsOwners_copyConstruct (ho : OneOwner m) {q : Nat} (hp : m.proxies p = some x)
    (hq : m.proxies q = none) :
    KeepsOwners al memory m (.copyConstruct p q) ↔ x.sendBuf = none := by
  have hstep : step al memory (.copyConstruct p q) m =
      ([], .ok ((), { m with proxies := m.proxies.set q x })) := by
    rw [step]
    simp only [hp, hq]
  rw [KeepsOwners, keeps_of_ok hstep]
  constructor
  · intro ho'
    by_contra hx
    obtain ⟨a, hx⟩ := Option.ne_none_iff_exists'.mp hx
    have hpq : p ≠ q := by
      rintro rfl
      rw [hp] at hq
      cases hq
    exact not_oneOwner (m := { m with proxies := m.proxies.set q x })
      ((PartialMap.set_of_ne _ _ hpq).trans hp) (PartialMap.set_self _ _ _) hx hx hpq ho'
  · intro hx
    exact ho.set_null hx fun y hy => by
      rw [hq] at hy
      cases hy

theorem keepsOwners_copyAssign (ho : OneOwner m) {q : Nat} {y : Proxy}
    (hp : m.proxies p = some x) (hq : m.proxies q = some y) :
    KeepsOwners al memory m (.copyAssign p q) ↔
      p = q ∨ x.sendBuf = none ∧ y.sendBuf = none := by
  have hstep : step al memory (.copyAssign p q) m =
      ([], .ok ((), { m with proxies := m.proxies.set q x })) := by
    rw [step]
    simp only [hp, hq]
  rw [KeepsOwners, keeps_of_ok hstep]
  by_cases hpq : p = q
  · subst hpq
    rw [PartialMap.set_eq_self hp]
    exact iff_of_true ho (.inl rfl)
  · constructor
    · intro ho'
      refine .inr ⟨?_, ?_⟩
      · by_contra hx
        obtain ⟨a, hx⟩ := Option.ne_none_iff_exists'.mp hx
        exact not_oneOwner (m := { m with proxies := m.proxies.set q x })
          ((PartialMap.set_of_ne _ _ hpq).trans hp) (PartialMap.set_self _ _ _) hx hx hpq ho'
      · -- the buffer of the proxy that is overwritten has no owner any more
        by_contra hy
        obtain ⟨a, hy⟩ := Option.ne_none_iff_exists'.mp hy
        obtain ⟨block, hlookup, -⟩ := ho.lookup hq hy
        obtain ⟨r, z, (hr : m.proxies.set q x r = some z), hz⟩ :=
          ho'.held a (Finmap.mem_of_lookup_eq_some hlookup)
        by_cases hrq : r = q
        · rw [hrq, PartialMap.set_self] at hr
          cases hr
          exact hpq (ho.same hp hq hz hy)
        · rw [PartialMap.set_of_ne _ _ hrq] at hr
          exact hrq (ho.same hr hq hz hy)
    · rintro (hpq' | ⟨hx, hy⟩)
      · exact absurd hpq' hpq
      · exact ho.set_null hx fun z hz => by
          rw [hq] at hz
          cases hz
          exact hy

/-- A call, whose size may be cut. -/
theorem keeps_placeIn (ho : OneOwner m) (hs : Sized m) (hp : m.proxies p = some x)
    (hpos : 0 < msg.length) (hsize : msg.length < 2 ^ 31 → size = (msg.length : Int))
    (hlow : -2 ^ 31 ≤ size) (hlt : size < 2 ^ 31) :
    Keeps (placeIn al memory size msg p) m ↔
      msg.length < 2 ^ 31 ∨ x.sendBuf = none ∧ size < 0 := by
  by_cases hfit : msg.length < 2 ^ 31
  · obtain ⟨out, y, h, hplace, hdone⟩ :
        ∃ out y h, placeMessage al memory size msg x m.heap = .ok (out, y, h) ∧
          OneOwner ⟨h, m.proxies.set p y⟩ := placeMessage_ok ho hs hp hpos (hsize hfit) hfit
    have hstep : placeIn al memory size msg p m = (out, .ok ((), ⟨h, m.proxies.set p y⟩)) := by
      simp only [placeIn, hp, hplace]
    rw [keeps_of_ok hstep]
    exact iff_of_true hdone (.inl hfit)
  · by_cases hneg : size < 0
    · have hplace := placeMessage_of_neg al memory msg ho hs hp hneg hlow
      cases hx : x.sendBuf with
      | none =>
        rw [hx] at hplace
        have hstep : placeIn al memory size msg p m =
            ([.threw], .ok ((), ⟨m.heap, m.proxies.set p x⟩)) := by
          simp only [placeIn, hp, hplace]
        rw [keeps_of_ok hstep, PartialMap.set_eq_self hp]
        exact iff_of_true ho (.inr ⟨rfl, hneg⟩)
      | some a =>
        rw [hx] at hplace
        have hstep : placeIn al memory size msg p m =
            ([.deleted a, .threw], .ok ((), ⟨m.heap.erase a, m.proxies.set p x⟩)) := by
          simp only [placeIn, hp, hplace]
        rw [keeps_of_ok hstep]
        refine iff_of_false (fun ho' => ?_) ?_
        · -- the proxy still refers to the buffer that was deleted
          obtain ⟨block, hlookup, -⟩ := ho'.lookup (PartialMap.set_self _ _ _) hx
          have hmem := Finmap.mem_of_lookup_eq_some hlookup
          exact (Finmap.mem_erase.mp hmem).1 rfl
        · rintro (hfit' | ⟨hnone, -⟩)
          · exact hfit hfit'
          · cases hnone
    · have hplace : placeMessage al memory size msg x m.heap = .error .undefined :=
        placeMessage_of_cut ho hs hp (Int.not_lt.mp hneg) hlt (Nat.not_lt.mp hfit)
      have hstep : placeIn al memory size msg p m = ([], .error .undefined) := by
        simp only [placeIn, hp, hplace]
      rw [keeps_of_error hstep]
      refine iff_of_false (by decide) ?_
      rintro (hfit' | ⟨-, hneg'⟩)
      · exact hfit hfit'
      · exact hneg hneg'

theorem keepsOwners_activeCall (ho : OneOwner m) (hs : Sized m) (hp : m.proxies p = some x)
    (functionName args : Bytes) :
    KeepsOwners al memory m (.activeCall p functionName args) ↔
      (callMessage functionName args).length < 2 ^ 31 ∨
        x.sendBuf = none ∧ bufSize functionName args < 0 := by
  rw [KeepsOwners, step, activeCall]
  exact keeps_placeIn ho hs hp (callMessage_pos functionName args) toInt32_natCast
    (bufSize_ge functionName args) (bufSize_lt functionName args)

/-- In a state in which every buffer has one owner, exactly the harmless operations keep it so. -/
theorem keepsOwners_iff {op : Op} (ho : OneOwner m) (hs : Sized m) :
    KeepsOwners al memory m op ↔ Harmless m op := by
  have hblocked : ∀ {op : Op}, step al memory op m = ([], .error .blocked) →
      KeepsOwners al memory m op := fun h => (keeps_of_error h).mpr rfl
  cases op with
  | construct p dst | constructDefault p dst =>
    refine iff_of_true ?_ trivial
    cases hp : m.proxies p with
    | some x => exact hblocked (by simp only [step, hp])
    | none =>
      rw [KeepsOwners, keeps_of_ok (show _ = ([], _) by simp only [step, hp]; rfl)]
      exact ho.set_null rfl fun x hx => by
        rw [hp] at hx
        cases hx
  | copyConstruct p q =>
    cases hp : m.proxies p with
    | none =>
      refine iff_of_true (hblocked (by simp only [step, hp])) fun x hx => ?_
      rw [hp] at hx
      cases hx
    | some x =>
      cases hq : m.proxies q with
      | some y =>
        refine iff_of_true (hblocked (by simp only [step, hp, hq])) fun _ _ hnone => ?_
        rw [hq] at hnone
        cases hnone
      | none =>
        rw [keepsOwners_copyConstruct ho hp hq]
        constructor
        · intro hx z hz _
          rw [hp] at hz
          cases hz
          exact hx
        · exact fun h => h x hp hq
  | copyAssign p q =>
    cases hp : m.proxies p with
    | none =>
      refine iff_of_true (hblocked (by simp only [step, hp])) fun x y hx => ?_
      rw [hp] at hx
      cases hx
    | some x =>
      cases hq : m.proxies q with
      | none =>
        refine iff_of_true (hblocked (by simp only [step, hp, hq])) fun _ y _ hy => ?_
        rw [hq] at hy
        cases hy
      | some y =>
        rw [keepsOwners_copyAssign ho hp hq]
        constructor
        · intro h x' y' hx' hy'
          rw [hp] at hx'
          rw [hq] at hy'
          cases hx'
          cases hy'
          exact h
        · exact fun h => h x y hp hq
  | activeCall p functionName args =>
    cases hp : m.proxies p with
    | none =>
      refine iff_of_true (hblocked (by simp only [step, activeCall, placeIn, hp])) fun x hx => ?_
      rw [hp] at hx
      cases hx
    | some x =>
      rw [keepsOwners_activeCall ho hs hp]
      constructor
      · intro h x' hx'
        rw [hp] at hx'
        cases hx'
        exact h
      · exact fun h => h x hp
  | load p dst =>
    refine iff_of_true ?_ trivial
    cases hp : m.proxies p with
    | none => exact hblocked (by simp only [step, hp])
    | some x =>
      rw [KeepsOwners, keeps_of_ok (show _ = ([], _) by simp only [step, hp]; rfl)]
      exact ho.set_same hp rfl rfl
  | destroy p =>
    refine iff_of_true ?_ trivial
    cases hp : m.proxies p with
    | none => exact hblocked (by simp only [step, hp])
    | some x =>
      cases hx : x.sendBuf with
      | none =>
        have hstep : step al memory (.destroy p) m = ([], .ok ((), ⟨m.heap, m.proxies.erase p⟩)) := by
          simp only [step, hp, deleteBuf, hx]
        rw [KeepsOwners, keeps_of_ok hstep]
        exact ho.erase_null hp hx
      | some a =>
        obtain ⟨hdelete, hdone⟩ := ho.delete hp hx
          (fun q hq => PartialMap.erase_of_ne m.proxies hq) fun z hz => by
            rw [PartialMap.erase_self] at hz
            cases hz
        have hstep : step al memory (.destroy p) m =
            ([.deleted a], .ok ((), ⟨m.heap.erase a, m.proxies.erase p⟩)) := by
          simp only [step, hp, hdelete]
        rw [KeepsOwners, keeps_of_ok hstep]
        exact hdone

/-- Nothing is allocated, and no proxy lives. -/
def Memory.start : Memory := ⟨∅, PartialMap.empty⟩

theorem oneOwner_start : OneOwner Memory.start where
  owned := ⟨nofun, nofun⟩
  exact := nofun
  held _ ha := absurd ha Finmap.notMem_empty

theorem sized_start : Sized Memory.start := nofun

/-- In a run every buffer has one owner, and is deleted once, exactly when all operations are
harmless. -/
theorem one_owner_iff (al : Allocator) (memory : Nat → UInt8) (ops : List Op) :
    Act.Along (step al memory) (KeepsOwners al memory) ops .start ↔
      Act.Along (step al memory) Harmless ops .start :=
  Act.Along.congr
    (fun _ _ out m' (hm : OneOwner _ ∧ Sized _) _ hk h => ⟨hk.1 out m' h, sized_step hm.2 h⟩)
    (fun _ _ hm _ => keepsOwners_iff hm.1 hm.2) ⟨oneOwner_start, sized_start⟩
    (Act.Along.of_forall (fun _ _ => trivial) ops _)

/-- A proxy is copied after its first call: two proxies hold the buffer, and the second of them to
go deletes it again. -/
theorem copied_after_call : ¬ Act.Along (step growingAllocator fun _ => 0)
    (KeepsOwners growingAllocator fun _ => 0)
    [.construct 0 1, .activeCall 0 [102] [], .copyConstruct 0 1] .start := by
  intro h
  have hcopy := ((h.2 _ _ rfl).2 _ _ rfl).1
  have hone := hcopy.1 _ _ rfl
  have hsame := hone.same (p := 0) (q := 1) rfl rfl rfl rfl
  exact absurd hsame (by decide)

end ActiveBsp.ProxyBuffers
