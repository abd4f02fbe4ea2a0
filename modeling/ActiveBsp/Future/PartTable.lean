import ActiveBsp.Future.DataStore

/-!
# What the store of parts is for

A part is a buffer of which some bytes may still be missing; a table maps keys
to parts. The three dictionaries of `DataStore` represent a table, and every
operation of the store does to the table what its abstract counterpart does,
including the assertion it stops at.
-/
namespace ActiveBsp

open Library Library.Buffer Library.MachineInt

set_option autoImplicit false

/-- A buffer with the number of bytes that it still waits for. Messages arrive whole. -/
structure Part where
  location : PartLocation
  data : Bytes
  remaining : Nat
  remaining_le : remaining ≤ data.length
  message_whole : location = .messageStore → remaining = 0

namespace Part

def ofMessage (data : Bytes) : Part := ⟨.messageStore, data, 0, Nat.zero_le _, fun _ => rfl⟩

def ofVector (data : Bytes) : Part := ⟨.vectorStore, data, 0, Nat.zero_le _, fun h => nomatch h⟩

def prepared (size : Nat) : Part :=
  ⟨.vectorStore, List.replicate size 0, size, by simp, fun h => nomatch h⟩

/-- The address of the buffer, null for an empty vector. -/
def buffer (part : Part) : Option Bytes :=
  match part.location with
  | .vectorStore => DataStore.vectorData part.data
  | .messageStore => some part.data

theorem buffer_eq_some {part : Part} {buf : Bytes} (h : part.buffer = some buf) :
    buf = part.data := by
  unfold buffer DataStore.vectorData at h
  cases hl : part.location with
  | vectorStore =>
    rw [hl] at h
    by_cases he : part.data.isEmpty
    · simp [he] at h
    · simpa [he, eq_comm] using h
  | messageStore =>
    rw [hl] at h
    simpa [eq_comm] using h

def Fits (part : Part) (data : Bytes) (offset : Nat) : Prop :=
  offset + data.length ≤ part.data.length ∧ data.length ≤ part.remaining

instance (part : Part) (data : Bytes) (offset : Nat) : Decidable (part.Fits data offset) :=
  inferInstanceAs (Decidable (_ ∧ _))

/-- Write a piece that fits. -/
def write (part : Part) (data : Bytes) (offset : Nat) (h : part.Fits data offset) : Part where
  location := part.location
  data := splice part.data offset data
  remaining := part.remaining - data.length
  remaining_le := by
    rw [length_splice h.1]
    have := part.remaining_le
    omega
  message_whole hm := by
    rw [part.message_whole hm, Nat.zero_sub]

@[simp] theorem write_location (part : Part) (data : Bytes) (offset : Nat)
    (h : part.Fits data offset) : (part.write data offset h).location = part.location := rfl

@[simp] theorem write_data (part : Part) (data : Bytes) (offset : Nat)
    (h : part.Fits data offset) : (part.write data offset h).data = splice part.data offset data :=
  rfl

@[simp] theorem write_remaining (part : Part) (data : Bytes) (offset : Nat)
    (h : part.Fits data offset) :
    (part.write data offset h).remaining = part.remaining - data.length := rfl

/-- Only an empty vector has no address. -/
theorem buffer_eq_some_iff (part : Part) :
    part.buffer = some part.data ↔ (part.location = .vectorStore → part.data ≠ []) := by
  unfold buffer DataStore.vectorData
  cases part.location with
  | vectorStore => cases part.data <;> simp
  | messageStore => simp

theorem write_buffer {part : Part} {data : Bytes} {offset : Nat} (h : part.Fits data offset)
    (hb : part.buffer = some part.data) :
    (part.write data offset h).buffer = some (splice part.data offset data) := by
  rw [buffer_eq_some_iff] at hb
  refine (buffer_eq_some_iff _).mpr fun hl hnil => ?_
  have hlen : (splice part.data offset data).length = part.data.length := length_splice h.1
  rw [write_data] at hnil
  rw [hnil, List.length_nil] at hlen
  exact hb hl (List.eq_nil_of_length_eq_zero hlen.symm)

end Part

abbrev PartTable : Type := PartialMap Int Part

namespace PartTable

/-- Keep a new part. -/
def store (t : PartTable) (site : Assertion) (key : Int) (part : Part) : Except Fault PartTable :=
  if t key = none then .ok (t.set key part) else .error (.assertion site)

def add (t : PartTable) (key : Int) (data : Bytes) (offset : Nat) :
    Except Fault (Nat × PartTable) :=
  match t key with
  | none => .error (.assertion .addDataPart)
  | some part =>
    if part.buffer = none then .error (.assertion .addDataBuf)
    else if ¬ add64 offset data.length ≤ part.data.length then .error (.assertion .addDataRange)
    else if ¬ data.length ≤ part.remaining then .error (.assertion .addDataRemaining)
    else if h : part.Fits data offset then
      .ok (part.remaining - data.length, t.set key (part.write data offset h))
    else .error .undefined

def remove (t : PartTable) (key : Int) : Except Fault PartTable :=
  if t key = none then .error (.assertion .removePart) else .ok (t.erase key)

def get (t : PartTable) (key : Int) : Option Bytes × Nat :=
  match t key with
  | none => (none, 0)
  | some part => if 0 < part.remaining then (none, 0) else (part.buffer, part.data.length)

/-- The bytes that a reader of the part gets, when it gets any. -/
def available (t : PartTable) (key : Int) : Option Bytes := (t.get key).1

theorem add_of_fits {t : PartTable} {key : Int} {part : Part} {data : Bytes} {offset : Nat}
    (hk : t key = some part) (hb : part.buffer = some part.data) (h : part.Fits data offset)
    (h64 : part.data.length < 2 ^ 64) :
    t.add key data offset =
      .ok (part.remaining - data.length, t.set key (part.write data offset h)) := by
  have hsum : add64 offset data.length = offset + data.length := add64_of_lt (h.1.trans_lt h64)
  simp only [PartTable.add, hk]
  rw [if_neg (by rw [hb]; exact Option.some_ne_none _), if_neg (not_not.mpr (hsum ▸ h.1)),
    if_neg (not_not.mpr h.2), dif_pos h]

/-- A piece that was added had a part to fit into. -/
theorem add_inv {t t' : PartTable} {key : Int} {data : Bytes} {offset remaining : Nat}
    (h : t.add key data offset = .ok (remaining, t')) :
    ∃ part hfits, t key = some part ∧ part.buffer = some part.data ∧
      remaining = part.remaining - data.length ∧ t' = t.set key (part.write data offset hfits) := by
  unfold add at h
  cases hk : t key with
  | none =>
    rw [hk] at h
    cases h
  | some part =>
    rw [hk] at h
    dsimp only at h
    split_ifs at h with hb hrange hrem hfits
    obtain ⟨buf, hbuf⟩ := Option.ne_none_iff_exists'.mp hb
    obtain ⟨rfl, rfl⟩ := Prod.mk.inj (Except.ok.inj h)
    exact ⟨part, hfits, rfl, by rw [hbuf, Part.buffer_eq_some hbuf], rfl, rfl⟩

theorem store_inv {t t' : PartTable} {site : Assertion} {key : Int} {part : Part}
    (h : t.store site key part = .ok t') : t key = none ∧ t' = t.set key part := by
  unfold store at h
  split_ifs at h with hk
  exact ⟨hk, (Except.ok.inj h).symm⟩

theorem get_of_available {t : PartTable} {key : Int} {data : Bytes}
    (h : t.available key = some data) : t.get key = (some data, data.length) := by
  unfold available get at h
  unfold get
  cases hk : t key with
  | none =>
    rw [hk] at h
    cases h
  | some part =>
    rw [hk] at h
    by_cases hr : 0 < part.remaining
    · simp only [if_pos hr] at h
      cases h
    · simp only [if_neg hr] at h ⊢
      rw [h, Part.buffer_eq_some h]

/-- A part that waits for nothing, and is not empty, can be read. -/
theorem available_of_whole {t : PartTable} {key : Int} {part : Part} (hk : t key = some part)
    (hr : part.remaining = 0) (hne : part.data ≠ []) : t.available key = some part.data := by
  unfold available get
  rw [hk]
  simp only [hr, Nat.lt_irrefl, if_false]
  exact (Part.buffer_eq_some_iff part).mpr fun _ => hne

theorem available_set (t : PartTable) (key : Int) (part : Part) :
    PartTable.available (t.set key part) key = if 0 < part.remaining then none else part.buffer := by
  unfold available get
  rw [PartialMap.set_self]
  by_cases h : 0 < part.remaining
  · simp only [if_pos h]
  · simp only [if_neg h]

theorem available_set_of_ne {t : PartTable} {key k : Int} {part : Part} (hk : key ≠ k) :
    PartTable.available (t.set k part) key = t.available key := by
  simp only [available, get, PartialMap.set_of_ne t part hk]

/-- An empty buffer is complete for no reader. -/
theorem available_prepared {t : PartTable} {key : Int} (size : Nat) (k : Int)
    (h : t.available k = none) :
    PartTable.available (t.set key (.prepared size)) k = none := by
  by_cases hk : k = key
  · subst hk
    rw [available_set]
    cases size with
    | zero => rfl
    | succ size => exact if_pos (Nat.succ_pos size)
  · rw [available_set_of_ne hk, h]

theorem available_erase {t : PartTable} (key : Int) {k : Int} (h : t.available k = none) :
    PartTable.available (t.erase key) k = none := by
  by_cases hk : k = key
  · simp [available, get, hk]
  · rw [← h]
    simp [available, get, hk]

end PartTable

namespace DataStore

/-- The three dictionaries hold exactly the parts of the table. -/
structure Represents (ds : DataStore) (t : PartTable) : Prop where
  dvParts : ∀ key, ds.dvParts key =
    (t key).map (fun part => ⟨key, part.data.length, part.location, part.remaining⟩)
  vectors : ∀ key, ds.resultVectorStore key =
    (t key).bind (fun part => if part.location = .vectorStore then some part.data else none)
  messages : ∀ key, ds.resultMsgStore key =
    (t key).bind (fun part =>
      if part.location = .messageStore then some ⟨key, part.data⟩ else none)

/-- Both computations return related values, or stop with the same fault. -/
def Refines {α β : Type} (R : α → β → Prop) : Except Fault α → Except Fault β → Prop
  | .ok a, .ok b => R a b
  | .error e, .error e' => e = e'
  | _, _ => False

theorem Refines.ok_inv {α β : Type} {R : α → β → Prop} {x : Except Fault α} {y : Except Fault β}
    {a : α} (h : Refines R x y) (hx : x = .ok a) : ∃ b, y = .ok b ∧ R a b := by
  subst hx
  cases y with
  | ok b => exact ⟨b, rfl, h⟩
  | error e => cases h

theorem Refines.of_ok {α β : Type} {R : α → β → Prop} {x : Except Fault α} {y : Except Fault β}
    {b : β} (h : Refines R x y) (hy : y = .ok b) : ∃ a, x = .ok a ∧ R a b := by
  subst hy
  cases x with
  | ok a => exact ⟨a, rfl, h⟩
  | error e => cases h

theorem Refines.of_error {α β : Type} {R : α → β → Prop} {x : Except Fault α}
    {y : Except Fault β} {e : Fault} (h : Refines R x y) (hy : y = .error e) : x = .error e := by
  subst hy
  cases x with
  | ok a => cases h
  | error e' => rw [show e' = e from h]

/-- A store with one part. -/
def single (key : Int) (part : Part) : DataStore where
  resultVectorStore k := if k = key ∧ part.location = .vectorStore then some part.data else none
  resultMsgStore k := if k = key ∧ part.location = .messageStore then some ⟨key, part.data⟩ else none
  dvParts k :=
    if k = key then some ⟨key, part.data.length, part.location, part.remaining⟩ else none

theorem single_represents (key : Int) (part : Part) :
    (single key part).Represents (PartialMap.empty.set key part) := by
  constructor
  · intro k
    by_cases hk : k = key <;> simp [single, hk, PartialMap.empty]
  · intro k
    by_cases hk : k = key <;> simp [single, hk, PartialMap.empty]
  · intro k
    by_cases hk : k = key <;> simp [single, hk, PartialMap.empty]

theorem empty_represents : Represents .empty .empty := ⟨fun _ => rfl, fun _ => rfl, fun _ => rfl⟩

variable {ds : DataStore} {t : PartTable}

theorem Represents.dvParts_eq_none_iff (h : Represents ds t) (key : Int) :
    ds.dvParts key = none ↔ t key = none := by
  rw [h.dvParts]
  exact Option.map_eq_none_iff

private theorem Represents.set (h : Represents ds t) (key : Int) (part : Part)
    (vectors : PartialMap Int Bytes) (messages : PartialMap Int StoreResultMessage)
    (hv : ∀ k, vectors k = if k = key
      then (if part.location = .vectorStore then some part.data else none)
      else ds.resultVectorStore k)
    (hm : ∀ k, messages k = if k = key
      then (if part.location = .messageStore then some ⟨key, part.data⟩ else none)
      else ds.resultMsgStore k) :
    Represents ⟨vectors, messages, ds.dvParts.set key
      ⟨key, part.data.length, part.location, part.remaining⟩⟩ (t.set key part) := by
  constructor
  · intro k
    by_cases hk : k = key
    · subst hk
      simp
    · simp only [PartialMap.set_of_ne _ _ hk, h.dvParts k]
  · intro k
    by_cases hk : k = key
    · subst hk
      simp [hv]
    · simp only [PartialMap.set_of_ne _ _ hk, hv k, if_neg hk, h.vectors k]
  · intro k
    by_cases hk : k = key
    · subst hk
      simp [hm]
    · simp only [PartialMap.set_of_ne _ _ hk, hm k, if_neg hk, h.messages k]

private theorem Represents.erase (h : Represents ds t) (key : Int)
    (vectors : PartialMap Int Bytes) (messages : PartialMap Int StoreResultMessage)
    (hv : ∀ k, vectors k = if k = key then none else ds.resultVectorStore k)
    (hm : ∀ k, messages k = if k = key then none else ds.resultMsgStore k) :
    Represents ⟨vectors, messages, ds.dvParts.erase key⟩ (t.erase key) := by
  constructor
  · intro k
    by_cases hk : k = key
    · subst hk
      simp
    · simp only [PartialMap.erase_of_ne _ hk, h.dvParts k]
  · intro k
    by_cases hk : k = key
    · subst hk
      simp [hv]
    · simp only [PartialMap.erase_of_ne _ hk, hv k, if_neg hk, h.vectors k]
  · intro k
    by_cases hk : k = key
    · subst hk
      simp [hm]
    · simp only [PartialMap.erase_of_ne _ hk, hm k, if_neg hk, h.messages k]

theorem Represents.absent (h : Represents ds t) {key : Int} (hk : t key = none) :
    ds.dvParts key = none ∧ ds.resultVectorStore key = none ∧ ds.resultMsgStore key = none := by
  refine ⟨(h.dvParts_eq_none_iff key).mpr hk, ?_, ?_⟩
  · rw [h.vectors, hk]
    rfl
  · rw [h.messages, hk]
    rfl

theorem storePartMessage_refines (h : Represents ds t) (msg : StoreResultMessage) :
    Refines Represents (ds.storePartMessage msg.resId msg)
      (t.store .storePartMessage msg.resId (.ofMessage msg.data)) := by
  by_cases hk : t msg.resId = none
  · obtain ⟨hd, hvec, hmsg⟩ := h.absent hk
    have hrep := h.set msg.resId (.ofMessage msg.data) ds.resultVectorStore
      (ds.resultMsgStore.set msg.resId msg)
      (by intro k; by_cases hkk : k = msg.resId <;> simp [hkk, hvec, Part.ofMessage])
      (by intro k; by_cases hkk : k = msg.resId <;> simp [hkk, Part.ofMessage])
    rw [PartTable.store, if_pos hk]
    simp only [storePartMessage, assert, hd, if_true, PartialMap.insert_of_none hmsg]
    exact hrep
  · have hd : ¬ ds.dvParts msg.resId = none := fun hd => hk ((h.dvParts_eq_none_iff _).mp hd)
    rw [PartTable.store, if_neg hk]
    simp only [storePartMessage, assert, hd, if_false]
    rfl

theorem storePartVector_refines (h : Represents ds t) (key : Int) (v : Bytes) :
    Refines Represents (ds.storePartVector key v)
      (t.store .storePartVector key (.ofVector v)) := by
  by_cases hk : t key = none
  · obtain ⟨hd, hvec, hmsg⟩ := h.absent hk
    have hrep := h.set key (.ofVector v) (ds.resultVectorStore.set key v) ds.resultMsgStore
      (by intro k; by_cases hkk : k = key <;> simp [hkk, Part.ofVector])
      (by intro k; by_cases hkk : k = key <;> simp [hkk, hmsg, Part.ofVector])
    rw [PartTable.store, if_pos hk]
    simp only [storePartVector, assert, hd, hvec, if_true]
    exact hrep
  · have hd : ¬ ds.dvParts key = none := fun hd => hk ((h.dvParts_eq_none_iff _).mp hd)
    rw [PartTable.store, if_neg hk]
    by_cases hvec : ds.resultVectorStore key = none
    · simp only [storePartVector, assert, hd, hvec, if_true, if_false]
      rfl
    · simp only [storePartVector, assert, hvec, if_false]
      rfl

theorem preparePartVector_refines (h : Represents ds t) (key : Int) (size : Nat) :
    Refines Represents (ds.preparePartVector key size)
      (t.store .preparePartVector key (.prepared size)) := by
  by_cases hk : t key = none
  · obtain ⟨hd, hvec, hmsg⟩ := h.absent hk
    have hrep := h.set key (.prepared size)
      (ds.resultVectorStore.set key (List.replicate size 0)) ds.resultMsgStore
      (by intro k; by_cases hkk : k = key <;> simp [hkk, Part.prepared])
      (by intro k; by_cases hkk : k = key <;> simp [hkk, hmsg, Part.prepared])
    rw [PartTable.store, if_pos hk]
    simp only [preparePartVector, assert, hd, hvec, if_true]
    exact hrep
  · have hd : ¬ ds.dvParts key = none := fun hd => hk ((h.dvParts_eq_none_iff _).mp hd)
    rw [PartTable.store, if_neg hk]
    simp only [preparePartVector, assert, hd, if_false]
    rfl

/-- In a represented store the inner assertions of `findDataBuf` hold. -/
theorem findDataBuf_of_represents (h : Represents ds t) {key : Int} {part : Part}
    (hk : t key = some part) : ds.findDataBuf key = .ok part.buffer := by
  have hv := h.vectors key
  have hm := h.messages key
  rw [hk, Option.bind_some] at hv hm
  unfold findDataBuf
  rw [h.dvParts, hk]
  cases hl : part.location with
  | vectorStore =>
    rw [if_pos hl] at hv
    simp only [Option.map_some, hl, hv, Part.buffer]
  | messageStore =>
    rw [if_pos hl] at hm
    simp only [Option.map_some, hl, hm, Part.buffer]

private theorem Represents.writeDataBuf (h : Represents ds t) {key : Int} {part : Part}
    (hk : t key = some part) {data : Bytes} {offset : Nat} (hfit : part.Fits data offset) :
    ∃ ds', ds.writeDataBuf key ⟨key, part.data.length, part.location, part.remaining⟩ part.data
        data offset = .ok ds' ∧
      Represents ⟨ds'.resultVectorStore, ds'.resultMsgStore, ds'.dvParts.set key
          ⟨key, part.data.length, part.location, part.remaining - data.length⟩⟩
        (t.set key (part.write data offset hfit)) := by
  have hv := h.vectors key
  have hm := h.messages key
  rw [hk, Option.bind_some] at hv hm
  have hlen : (splice part.data offset data).length = part.data.length := length_splice hfit.1
  have hshort : ¬ part.data.length < offset + data.length := by
    have := hfit.1
    omega
  unfold DataStore.writeDataBuf
  rw [if_neg hshort]
  cases hl : part.location with
  | vectorStore =>
    rw [hl] at hv hm
    have hrep := h.set key (part.write data offset hfit)
      (ds.resultVectorStore.set key (splice part.data offset data)) ds.resultMsgStore
      (by intro k; by_cases hkk : k = key <;> simp [hkk, hl])
      (by intro k; by_cases hkk : k = key <;> simp [hkk, hl, hm])
    refine ⟨_, rfl, ?_⟩
    simpa only [Part.write_data, Part.write_location, Part.write_remaining, hlen, hl] using hrep
  | messageStore =>
    rw [hl] at hv hm
    have hrep := h.set key (part.write data offset hfit) ds.resultVectorStore
      (ds.resultMsgStore.set key ⟨key, splice part.data offset data⟩)
      (by intro k; by_cases hkk : k = key <;> simp [hkk, hl, hv])
      (by intro k; by_cases hkk : k = key <;> simp [hkk, hl])
    refine ⟨_, rfl, ?_⟩
    simpa only [Part.write_data, Part.write_location, Part.write_remaining, hlen, hl] using hrep

theorem addData_refines (h : Represents ds t) (key : Int) (data : Bytes) (offset : Nat) :
    Refines (fun r r' => r.1 = r'.1 ∧ Represents r.2 r'.2) (ds.addData key data offset)
      (t.add key data offset) := by
  cases hk : t key with
  | none =>
    simp only [addData, PartTable.add, (h.dvParts_eq_none_iff key).mpr hk, hk]
    rfl
  | some part =>
    have hd : ds.dvParts key =
        some ⟨key, part.data.length, part.location, part.remaining⟩ := by
      rw [h.dvParts, hk]
      rfl
    simp only [addData, PartTable.add, hd, hk, findDataBuf_of_represents h hk]
    cases hb : part.buffer with
    | none => exact rfl
    | some buf =>
      obtain rfl := Part.buffer_eq_some hb
      rw [if_neg (by simp)]
      by_cases hrange : add64 offset data.length ≤ part.data.length
      · by_cases hrem : data.length ≤ part.remaining
        · rw [if_neg (by simpa using hrange), if_neg (by simpa using hrem)]
          by_cases hfit : part.Fits data offset
          · rw [dif_pos hfit]
            obtain ⟨ds', hw, hrep⟩ := h.writeDataBuf hk hfit
            simp only [bind, Except.bind, assert, if_pos hrange, if_pos hrem, hw]
            exact ⟨rfl, hrep⟩
          · have hlong : part.data.length < offset + data.length := by
              unfold Part.Fits at hfit
              omega
            rw [dif_neg hfit]
            simp only [bind, Except.bind, assert, if_pos hrange, if_pos hrem, writeDataBuf,
              if_pos hlong]
            exact rfl
        · rw [if_neg (by simpa using hrange), if_pos (by simpa using hrem)]
          simp only [bind, Except.bind, assert, if_pos hrange, if_neg hrem]
          exact rfl
      · rw [if_pos (by simpa using hrange)]
        simp only [bind, Except.bind, assert, if_neg hrange]
        exact rfl

theorem removePart_refines (h : Represents ds t) (key : Int) :
    Refines Represents (ds.removePart key) (t.remove key) := by
  cases hk : t key with
  | none =>
    simp only [removePart, PartTable.remove, (h.dvParts_eq_none_iff key).mpr hk, hk, if_true]
    rfl
  | some part =>
    have hd : ds.dvParts key =
        some ⟨key, part.data.length, part.location, part.remaining⟩ := by
      rw [h.dvParts, hk]
      rfl
    have hv := h.vectors key
    have hm := h.messages key
    rw [hk, Option.bind_some] at hv hm
    rw [PartTable.remove, if_neg (by simp [hk])]
    cases hl : part.location with
    | vectorStore =>
      rw [hl] at hv hm hd
      have hrep := h.erase key (ds.resultVectorStore.erase key) ds.resultMsgStore
        (fun k => PartialMap.erase_apply _ _ _)
        (by intro k; by_cases hkk : k = key <;> simp [hkk, hm])
      simp only [removePart, hd, hv, assert, if_true, Option.isSome_some]
      exact hrep
    | messageStore =>
      rw [hl] at hv hm hd
      have hrep := h.erase key ds.resultVectorStore (ds.resultMsgStore.erase key)
        (by intro k; by_cases hkk : k = key <;> simp [hkk, hv])
        (fun k => PartialMap.erase_apply _ _ _)
      simp only [removePart, hd, hm, assert, if_true, Option.isSome_some]
      exact hrep

/-- Looking a part up never fails. -/
theorem getPartData_of_represents (h : Represents ds t) (key : Int) :
    ds.getPartData key = .ok (t.get key) := by
  cases hk : t key with
  | none => simp only [getPartData, PartTable.get, (h.dvParts_eq_none_iff key).mpr hk, hk]
  | some part =>
    have hd : ds.dvParts key =
        some ⟨key, part.data.length, part.location, part.remaining⟩ := by
      rw [h.dvParts, hk]
      rfl
    simp only [getPartData, PartTable.get, hd, hk]
    by_cases hr : 0 < part.remaining
    · simp only [hr, if_true]
    · simp only [hr, if_false, findDataBuf_of_represents h hk]
      rfl

end DataStore

end ActiveBsp
