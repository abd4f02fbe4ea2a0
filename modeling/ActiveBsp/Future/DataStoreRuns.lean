import ActiveBsp.Future.DataStore

/-!
# The three dictionaries of the store agree in every run

What `_dv_parts` and the two stores say about one key is an entry. Every call
rewrites the entry of its own key only, and keeps it in order: either nothing
is known of the key, or exactly the store that the location names has a buffer
of the recorded size.
-/
namespace ActiveBsp

open Library Library.Buffer Library.MachineInt

set_option autoImplicit false

/-- What the three dictionaries say about one key. -/
structure Entry where
  part : Option DvPart
  vector : Option Bytes
  message : Option StoreResultMessage
  deriving DecidableEq, Repr

namespace Entry

def absent : Entry := ⟨none, none, none⟩

/-- The entry is in order. -/
inductive Kept : Entry → Prop
  | absent : Kept .absent
  | vector {part : DvPart} {v : Bytes} (location_eq : part.location = .vectorStore)
      (size_eq : part.size = v.length) (remaining_le : part.remainingBytes ≤ part.size) :
      Kept ⟨some part, some v, none⟩
  | message {part : DvPart} {msg : StoreResultMessage}
      (location_eq : part.location = .messageStore) (size_eq : part.size = msg.dataSize)
      (remaining_le : part.remainingBytes ≤ part.size) : Kept ⟨some part, none, some msg⟩

end Entry

/-- The six calls of the store. -/
inductive DataStoreCall where
  | storePartMessage (key : Int) (msg : StoreResultMessage)
  | storePartVector (key : Int) (v : Bytes)
  | preparePartVector (key : Int) (size : Nat)
  | addData (key : Int) (data : Bytes) (offset : Nat)
  | removePart (key : Int)
  | getPartData (key : Int)
  deriving DecidableEq, Repr

namespace DataStoreCall

def key : DataStoreCall → Int
  | storePartMessage key _ | storePartVector key _ | preparePartVector key _ | addData key _ _
  | removePart key | getPartData key => key

def perform : DataStoreCall → DataStore → Except Fault DataStore
  | storePartMessage key msg, ds => ds.storePartMessage key msg
  | storePartVector key v, ds => ds.storePartVector key v
  | preparePartVector key size, ds => ds.preparePartVector key size
  | addData key data offset, ds => do return (← ds.addData key data offset).2
  | removePart key, ds => ds.removePart key
  | getPartData key, ds => do
    let _ ← ds.getPartData key
    return ds

/-- A run ends at the first call that fails. -/
def performAll : List DataStoreCall → DataStore → Except Fault DataStore
  | [], ds => .ok ds
  | call :: calls, ds => do performAll calls (← call.perform ds)

end DataStoreCall

namespace DataStore

def entry (ds : DataStore) (key : Int) : Entry :=
  ⟨ds.dvParts key, ds.resultVectorStore key, ds.resultMsgStore key⟩

/-- The bytes of a key in the store that the location names. -/
def storedBytes (ds : DataStore) (location : PartLocation) (key : Int) : Option Bytes :=
  match location with
  | .vectorStore => ds.resultVectorStore key
  | .messageStore => (ds.resultMsgStore key).map (·.data)

def Consistent (ds : DataStore) : Prop := ∀ key, (ds.entry key).Kept

/-- `ds'` is `ds` with a new entry for `key`. -/
def Sets (ds ds' : DataStore) (key : Int) (e : Entry) : Prop :=
  ∀ k, ds'.entry k = if k = key then e else ds.entry k

variable {ds ds' : DataStore} {key : Int} {e : Entry}

theorem empty_consistent : Consistent .empty := fun _ => .absent

theorem Sets.self (h : Sets ds ds' key e) : ds'.entry key = e := (h key).trans (if_pos rfl)

theorem Sets.of_ne (h : Sets ds ds' key e) {k : Int} (hk : k ≠ key) : ds'.entry k = ds.entry k :=
  (h k).trans (if_neg hk)

theorem Sets.consistent (h : Sets ds ds' key e) (hds : Consistent ds) (he : e.Kept) :
    Consistent ds' := by
  intro k
  by_cases hk : k = key
  · subst hk
    rw [h.self]
    exact he
  · rw [h.of_ne hk]
    exact hds k

theorem sets_entry (ds : DataStore) (key : Int) : Sets ds ds key (ds.entry key) := by
  intro k
  split_ifs with hk
  · rw [hk]
  · rfl

theorem entry_eq_iff : ds.entry key = e ↔ ds.dvParts key = e.part ∧
    ds.resultVectorStore key = e.vector ∧ ds.resultMsgStore key = e.message := by
  rw [entry, Entry.mk.injEq]

theorem entry_absent_iff : ds.entry key = .absent ↔
    ds.dvParts key = none ∧ ds.resultVectorStore key = none ∧ ds.resultMsgStore key = none :=
  entry_eq_iff

/-- In a consistent store a key without a description has no buffer either. -/
theorem Consistent.absent (h : Consistent ds) (hd : ds.dvParts key = none) :
    ds.entry key = .absent := by
  have hk := h key
  generalize he : ds.entry key = e at hk
  cases hk with
  | absent => rfl
  | vector _ _ _ => cases hd.symm.trans (entry_eq_iff.mp he).1
  | message _ _ _ => cases hd.symm.trans (entry_eq_iff.mp he).1

theorem storePartMessage_of_absent (h : ds.entry key = .absent) (msg : StoreResultMessage) :
    ∃ ds', ds.storePartMessage key msg = .ok ds' ∧
      Sets ds ds' key ⟨some ⟨msg.resId, msg.dataSize, .messageStore, 0⟩, none, some msg⟩ := by
  obtain ⟨hd, hv, hm⟩ := entry_absent_iff.mp h
  refine ⟨⟨ds.resultVectorStore, ds.resultMsgStore.set key msg, ds.dvParts.set key
    ⟨msg.resId, msg.dataSize, .messageStore, 0⟩⟩, ?_, ?_⟩
  · rw [storePartMessage, PartialMap.insert_of_none hm, assert, if_pos hd]
    rfl
  · intro k
    by_cases hk : k = key <;> simp [entry, hk, hv]

theorem storePartVector_of_absent (h : ds.entry key = .absent) (v : Bytes) :
    ∃ ds', ds.storePartVector key v = .ok ds' ∧
      Sets ds ds' key ⟨some ⟨key, v.length, .vectorStore, 0⟩, some v, none⟩ := by
  obtain ⟨hd, hv, hm⟩ := entry_absent_iff.mp h
  refine ⟨⟨ds.resultVectorStore.set key v, ds.resultMsgStore, ds.dvParts.set key
    ⟨key, v.length, .vectorStore, 0⟩⟩, ?_, ?_⟩
  · rw [storePartVector, assert, assert, if_pos hd, if_pos hv]
    rfl
  · intro k
    by_cases hk : k = key <;> simp [entry, hk, hm]

theorem preparePartVector_of_absent (h : ds.entry key = .absent) (size : Nat) :
    ∃ ds', ds.preparePartVector key size = .ok ds' ∧
      Sets ds ds' key
        ⟨some ⟨key, size, .vectorStore, size⟩, some (List.replicate size 0), none⟩ := by
  obtain ⟨hd, hv, hm⟩ := entry_absent_iff.mp h
  refine ⟨⟨ds.resultVectorStore.set key (List.replicate size 0), ds.resultMsgStore,
    ds.dvParts.set key ⟨key, size, .vectorStore, size⟩⟩, ?_, ?_⟩
  · rw [preparePartVector, assert, assert, if_pos hd, if_pos hv]
    simp only [List.length_replicate]
    rfl
  · intro k
    by_cases hk : k = key <;> simp [entry, hk, hm]

theorem dvParts_of_storePartMessage {msg : StoreResultMessage}
    (h : ds.storePartMessage key msg = .ok ds') : ds.dvParts key = none := by
  by_contra hd
  rw [storePartMessage, assert, if_neg hd] at h
  cases h

theorem dvParts_of_storePartVector {v : Bytes} (h : ds.storePartVector key v = .ok ds') :
    ds.dvParts key = none := by
  by_contra hd
  rw [storePartVector, assert, assert, if_neg hd] at h
  split_ifs at h <;> cases h

theorem dvParts_of_preparePartVector {size : Nat}
    (h : ds.preparePartVector key size = .ok ds') : ds.dvParts key = none := by
  by_contra hd
  rw [preparePartVector, assert, if_neg hd] at h
  cases h

/-- The buffer that the location of a known key names. -/
theorem Consistent.storedBytes (h : Consistent ds) {part : DvPart}
    (hd : ds.dvParts key = some part) : ∃ buf, ds.storedBytes part.location key = some buf ∧
      part.size = buf.length ∧ part.remainingBytes ≤ part.size := by
  have hk := h key
  generalize he : ds.entry key = e at hk
  obtain ⟨hp, hv, hm⟩ := entry_eq_iff.mp he
  cases hk with
  | absent => cases hd.symm.trans hp
  | vector hl hs hr =>
    obtain rfl := Option.some.inj (hd.symm.trans hp)
    exact ⟨_, by rw [hl]; exact hv, hs, hr⟩
  | message hl hs hr =>
    obtain rfl := Option.some.inj (hd.symm.trans hp)
    exact ⟨_, by rw [hl, DataStore.storedBytes, hm]; rfl, hs, hr⟩

theorem Consistent.findDataBuf (h : Consistent ds) {part : DvPart}
    (hd : ds.dvParts key = some part) :
    ∃ buf, ds.storedBytes part.location key = some buf ∧ ds.findDataBuf key =
      .ok (if part.location = .vectorStore then vectorData buf else some buf) := by
  obtain ⟨buf, hbuf, -⟩ := h.storedBytes hd
  refine ⟨buf, hbuf, ?_⟩
  unfold DataStore.findDataBuf
  rw [hd]
  cases hl : part.location with
  | vectorStore =>
    rw [hl] at hbuf
    simp only [show ds.resultVectorStore key = some buf from hbuf, hl, if_true]
  | messageStore =>
    rw [hl] at hbuf
    obtain ⟨msg, hmsg, rfl⟩ := Option.map_eq_some_iff.mp hbuf
    simp [hmsg, hl]

theorem Consistent.removePart (h : Consistent ds) {part : DvPart}
    (hd : ds.dvParts key = some part) :
    ∃ ds', ds.removePart key = .ok ds' ∧ Sets ds ds' key .absent := by
  have hk := h key
  generalize he : ds.entry key = e at hk
  obtain ⟨hp, hv, hm⟩ := entry_eq_iff.mp he
  cases hk with
  | absent => cases hd.symm.trans hp
  | vector hl _ _ =>
    refine ⟨{ ds with
      resultVectorStore := ds.resultVectorStore.erase key
      dvParts := ds.dvParts.erase key }, ?_, ?_⟩
    · simp only [DataStore.removePart, hp, hl, hv]
      rfl
    · intro k
      by_cases hkk : k = key
      · subst hkk
        simp [entry, Entry.absent, hm]
      · simp [entry, hkk]
  | message hl _ _ =>
    refine ⟨{ ds with
      resultMsgStore := ds.resultMsgStore.erase key
      dvParts := ds.dvParts.erase key }, ?_, ?_⟩
    · simp only [DataStore.removePart, hp, hl, hm]
      rfl
    · intro k
      by_cases hkk : k = key
      · subst hkk
        simp [entry, Entry.absent, hv]
      · simp [entry, hkk]

/-- What a reader gets depends on the entry of the key alone. -/
theorem getPartData_congr (h : ds'.entry key = ds.entry key) :
    ds'.getPartData key = ds.getPartData key := by
  obtain ⟨hd, hv, hm⟩ := entry_eq_iff.mp h
  simp only [entry] at hd hv hm
  simp only [getPartData, DataStore.findDataBuf, hd, hv, hm]

theorem Consistent.getPartData (h : Consistent ds) (key : Int) :
    ∃ r, ds.getPartData key = .ok r := by
  unfold DataStore.getPartData
  cases hd : ds.dvParts key with
  | none => exact ⟨_, rfl⟩
  | some part =>
    obtain ⟨buf, -, hfind⟩ := h.findDataBuf hd
    dsimp only
    split_ifs with hr
    · exact ⟨_, rfl⟩
    · rw [hfind]
      exact ⟨_, rfl⟩

theorem getPartData_of_message {part : DvPart} {msg : StoreResultMessage}
    {v : Option Bytes} (h : ds.entry key = ⟨some part, v, some msg⟩)
    (hl : part.location = .messageStore) (hr : part.remainingBytes = 0) :
    ds.getPartData key = .ok (some msg.data, part.size) := by
  obtain ⟨hd, -, hm⟩ := entry_eq_iff.mp h
  simp only [DataStore.getPartData, hd, hr, DataStore.findDataBuf, hl, hm]
  rfl

theorem getPartData_of_vector {part : DvPart} {v : Bytes} {msg : Option StoreResultMessage}
    (h : ds.entry key = ⟨some part, some v, msg⟩) (hl : part.location = .vectorStore)
    (hr : part.remainingBytes = 0) : ds.getPartData key = .ok (vectorData v, part.size) := by
  obtain ⟨hd, hv, -⟩ := entry_eq_iff.mp h
  simp only [DataStore.getPartData, hd, hr, DataStore.findDataBuf, hl, hv]
  rfl

theorem getPartData_of_missing {part : DvPart} (hd : ds.dvParts key = some part)
    (hr : 0 < part.remainingBytes) : ds.getPartData key = .ok (none, 0) := by
  simp only [DataStore.getPartData, hd, if_pos hr]

theorem addData_inv {data : Bytes} {offset remaining : Nat}
    (h : ds.addData key data offset = .ok (remaining, ds')) :
    ∃ part buf ds₁, ds.dvParts key = some part ∧ ds.findDataBuf key = .ok (some buf) ∧
      data.length ≤ part.remainingBytes ∧ ds.writeDataBuf key part buf data offset = .ok ds₁ ∧
      ds' = ⟨ds₁.resultVectorStore, ds₁.resultMsgStore, ds₁.dvParts.set key
        { part with remainingBytes := part.remainingBytes - data.length }⟩ := by
  unfold addData at h
  cases hd : ds.dvParts key with
  | none =>
    rw [hd] at h
    cases h
  | some part =>
    rw [hd] at h
    cases hf : ds.findDataBuf key with
    | error f =>
      rw [hf] at h
      cases h
    | ok res =>
      rw [hf] at h
      cases res with
      | none => cases h
      | some buf =>
        simp only [bind, Except.bind, assert] at h
        split_ifs at h with hrange hrem
        cases hw : ds.writeDataBuf key part buf data offset with
        | error f =>
          rw [hw] at h
          cases h
        | ok ds₁ =>
          rw [hw] at h
          obtain ⟨-, rfl⟩ := Prod.mk.inj (Except.ok.inj h)
          exact ⟨part, buf, ds₁, rfl, rfl, hrem, hw, rfl⟩

theorem writeDataBuf_inv {part : DvPart} {buf data : Bytes} {offset : Nat}
    (h : ds.writeDataBuf key part buf data offset = .ok ds') :
    offset + data.length ≤ buf.length ∧ ds'.dvParts = ds.dvParts ∧
      (part.location = .vectorStore ∧ ds'.resultMsgStore = ds.resultMsgStore ∧
          ds'.resultVectorStore = ds.resultVectorStore.set key (splice buf offset data) ∨
        part.location = .messageStore ∧ ds'.resultVectorStore = ds.resultVectorStore ∧
          ds'.resultMsgStore = ds.resultMsgStore.set key ⟨part.key, splice buf offset data⟩) := by
  unfold writeDataBuf at h
  split_ifs at h with hlen
  refine ⟨by omega, ?_⟩
  cases hl : part.location with
  | vectorStore =>
    rw [hl] at h
    obtain rfl := Except.ok.inj h
    exact ⟨rfl, Or.inl ⟨rfl, rfl, rfl⟩⟩
  | messageStore =>
    rw [hl] at h
    obtain rfl := Except.ok.inj h
    exact ⟨rfl, Or.inr ⟨rfl, rfl, rfl⟩⟩

/-- A write keeps the length of the buffer and lowers the missing bytes. -/
theorem Consistent.addData (hds : Consistent ds) {data : Bytes} {offset remaining : Nat}
    (h : ds.addData key data offset = .ok (remaining, ds')) : ∃ e, e.Kept ∧ Sets ds ds' key e := by
  obtain ⟨part, buf, ds₁, hd, hf, hrem, hw, rfl⟩ := addData_inv h
  obtain ⟨stored, hstored, hfind⟩ := hds.findDataBuf hd
  obtain ⟨hfit, hparts, hcase⟩ := writeDataBuf_inv hw
  have hlen : (splice buf offset data).length = buf.length := length_splice hfit
  have hk := hds key
  generalize he : ds.entry key = e at hk
  obtain ⟨hp, hv, hm⟩ := entry_eq_iff.mp he
  cases hk with
  | absent => cases hd.symm.trans hp
  | @vector part' v hl hs hr =>
    obtain rfl := Option.some.inj (hd.symm.trans hp)
    rcases hcase with ⟨-, hmsg, hvec⟩ | ⟨hloc, -⟩
    · rw [hl] at hstored hfind
      obtain rfl : v = stored := Option.some.inj (hv.symm.trans hstored)
      obtain rfl : buf = v := by
        have hb := Except.ok.inj (hf.symm.trans hfind)
        rw [if_pos rfl, vectorData] at hb
        split_ifs at hb
        exact Option.some.inj hb
      refine ⟨⟨some { part with remainingBytes := part.remainingBytes - data.length },
        some (splice buf offset data), none⟩, .vector hl (hs.trans hlen.symm) ?_, ?_⟩
      · exact (Nat.sub_le _ _).trans hr
      · intro k
        by_cases hkk : k = key
        · subst hkk
          simp [entry, hvec, hmsg, hm]
        · simp [entry, hvec, hmsg, hparts, hkk]
    · cases hl.symm.trans hloc
  | @message part' msg hl hs hr =>
    obtain rfl := Option.some.inj (hd.symm.trans hp)
    rcases hcase with ⟨hloc, -⟩ | ⟨-, hvec, hmsg⟩
    · cases hl.symm.trans hloc
    · rw [hl, DataStore.storedBytes, hm] at hstored
      obtain rfl : msg.data = stored := Option.some.inj hstored
      obtain rfl : buf = msg.data := by
        have hb := Except.ok.inj (hf.symm.trans hfind)
        rw [hl] at hb
        exact Option.some.inj hb
      refine ⟨⟨some { part with remainingBytes := part.remainingBytes - data.length }, none,
        some ⟨part.key, splice msg.data offset data⟩⟩, .message hl (hs.trans hlen.symm) ?_, ?_⟩
      · exact (Nat.sub_le _ _).trans hr
      · intro k
        by_cases hkk : k = key
        · subst hkk
          simp [entry, hvec, hmsg, hv]
        · simp [entry, hvec, hmsg, hparts, hkk]

/-- Past the assertions of `addData` only a range that wraps misses the buffer. -/
theorem Consistent.addData_stops (hds : Consistent ds) {data : Bytes} {offset : Nat} {f : Fault}
    (h : ds.addData key data offset = .error f) :
    (∃ site, f = .assertion site) ∨ f = .undefined ∧ 2 ^ 64 ≤ offset + data.length := by
  unfold DataStore.addData at h
  cases hd : ds.dvParts key with
  | none =>
    rw [hd] at h
    exact Or.inl ⟨_, (Except.error.inj h).symm⟩
  | some part =>
    obtain ⟨buf, hbuf, hfind⟩ := hds.findDataBuf hd
    obtain ⟨buf', hbuf', hsize, -⟩ := hds.storedBytes hd
    obtain rfl : buf = buf' := Option.some.inj (hbuf.symm.trans hbuf')
    rw [hd, hfind] at h
    have hnull : (if part.location = .vectorStore then vectorData buf else some buf) = none ∨
        (if part.location = .vectorStore then vectorData buf else some buf) = some buf := by
      unfold vectorData
      split_ifs
      · exact Or.inl rfl
      · exact Or.inr rfl
      · exact Or.inr rfl
    rcases hnull with hnone | hsome
    · rw [hnone] at h
      exact Or.inl ⟨_, (Except.error.inj h).symm⟩
    · rw [hsome] at h
      simp only [bind, Except.bind, assert] at h
      split_ifs at h with hrange hrem
      · unfold writeDataBuf at h
        split_ifs at h with hlen
        · refine Or.inr ⟨(Except.error.inj h).symm, ?_⟩
          by_contra hlt
          rw [add64_of_lt (by omega), hsize] at hrange
          omega
        · cases hl : part.location <;> rw [hl] at h <;> cases h
      · exact Or.inl ⟨_, (Except.error.inj h).symm⟩
      · exact Or.inl ⟨_, (Except.error.inj h).symm⟩
      · exact Or.inl ⟨_, (Except.error.inj h).symm⟩

end DataStore

namespace DataStoreCall

open DataStore

variable {ds ds' : DataStore} {call : DataStoreCall}

/-- Every call rewrites the entry of its own key, and keeps it in order. -/
theorem perform_sets (hds : Consistent ds) (h : call.perform ds = .ok ds') :
    ∃ e, e.Kept ∧ Sets ds ds' call.key e := by
  cases call with
  | storePartMessage key msg =>
    have hd : ds.dvParts key = none := dvParts_of_storePartMessage h
    obtain ⟨ds₁, h₁, hset⟩ := storePartMessage_of_absent (hds.absent hd) msg
    obtain rfl : ds₁ = ds' := Except.ok.inj (h₁.symm.trans h)
    exact ⟨_, .message rfl rfl (Nat.zero_le _), hset⟩
  | storePartVector key v =>
    have hd : ds.dvParts key = none := dvParts_of_storePartVector h
    obtain ⟨ds₁, h₁, hset⟩ := storePartVector_of_absent (hds.absent hd) v
    obtain rfl : ds₁ = ds' := Except.ok.inj (h₁.symm.trans h)
    exact ⟨_, .vector rfl rfl (Nat.zero_le _), hset⟩
  | preparePartVector key size =>
    have hd : ds.dvParts key = none := dvParts_of_preparePartVector h
    obtain ⟨ds₁, h₁, hset⟩ := preparePartVector_of_absent (hds.absent hd) size
    obtain rfl : ds₁ = ds' := Except.ok.inj (h₁.symm.trans h)
    exact ⟨_, .vector rfl List.length_replicate.symm (Nat.le_refl _), hset⟩
  | addData key data offset =>
    simp only [perform] at h
    cases hr : ds.addData key data offset with
    | error f =>
      rw [hr] at h
      cases h
    | ok r =>
      rw [hr] at h
      obtain rfl : r.2 = ds' := Except.ok.inj h
      exact hds.addData hr
  | removePart key =>
    cases hd : ds.dvParts key with
    | none =>
      simp only [perform, DataStore.removePart, hd] at h
      cases h
    | some part =>
      obtain ⟨ds₁, h₁, hset⟩ := hds.removePart hd
      obtain rfl : ds₁ = ds' := Except.ok.inj (h₁.symm.trans h)
      exact ⟨_, .absent, hset⟩
  | getPartData key =>
    simp only [perform] at h
    cases hr : ds.getPartData key with
    | error f =>
      rw [hr] at h
      cases h
    | ok r =>
      rw [hr] at h
      obtain rfl : ds = ds' := Except.ok.inj h
      exact ⟨_, hds key, sets_entry ds key⟩

theorem performAll_consistent {calls : List DataStoreCall} (hds : Consistent ds)
    (h : performAll calls ds = .ok ds') : Consistent ds' := by
  induction calls generalizing ds with
  | nil =>
    obtain rfl : ds = ds' := Except.ok.inj h
    exact hds
  | cons call calls ih =>
    simp only [performAll] at h
    cases hc : call.perform ds with
    | error f =>
      rw [hc] at h
      cases h
    | ok ds₁ =>
      rw [hc] at h
      obtain ⟨e, he, hset⟩ := perform_sets hds hc
      exact ih (hset.consistent hds he) h

/-- The calls that leave the language: an `addData` whose range runs past 2^64. -/
theorem perform_stops (hds : Consistent ds) {f : Fault} (h : call.perform ds = .error f) :
    (∃ site, f = .assertion site) ∨
      f = .undefined ∧ ∃ key data offset, call = .addData key data offset ∧
        2 ^ 64 ≤ offset + data.length := by
  cases call with
  | storePartMessage key msg =>
    simp only [perform, DataStore.storePartMessage, assert, bind, Except.bind] at h
    split_ifs at h
    · cases h
    · exact Or.inl ⟨_, (Except.error.inj h).symm⟩
  | storePartVector key v =>
    simp only [perform, DataStore.storePartVector, assert, bind, Except.bind] at h
    split_ifs at h
    · cases h
    · exact Or.inl ⟨_, (Except.error.inj h).symm⟩
    · exact Or.inl ⟨_, (Except.error.inj h).symm⟩
    · exact Or.inl ⟨_, (Except.error.inj h).symm⟩
  | preparePartVector key size =>
    simp only [perform, DataStore.preparePartVector, assert, bind, Except.bind] at h
    split_ifs at h
    · cases h
    · exact Or.inl ⟨_, (Except.error.inj h).symm⟩
    · exact Or.inl ⟨_, (Except.error.inj h).symm⟩
    · exact Or.inl ⟨_, (Except.error.inj h).symm⟩
  | addData key data offset =>
    cases hr : ds.addData key data offset with
    | ok r =>
      simp only [perform, hr] at h
      cases h
    | error f' =>
      simp only [perform, hr] at h
      obtain rfl := Except.error.inj h
      rcases hds.addData_stops hr with hsite | ⟨rfl, hwrap⟩
      · exact Or.inl hsite
      · exact Or.inr ⟨rfl, key, data, offset, rfl, hwrap⟩
  | removePart key =>
    cases hd : ds.dvParts key with
    | none =>
      simp only [perform, DataStore.removePart, hd] at h
      exact Or.inl ⟨_, (Except.error.inj h).symm⟩
    | some part =>
      obtain ⟨ds₁, h₁, -⟩ := hds.removePart hd
      cases h₁.symm.trans h
  | getPartData key =>
    obtain ⟨r, hr⟩ := hds.getPartData key
    simp only [perform, hr] at h
    cases h

end DataStoreCall

namespace DataStore

/-- What holds of a store that a run of calls has reached. -/
structure Sound (ds : DataStore) : Prop where
  known_iff : ∀ key, (ds.dvParts key).isSome =
    ((ds.resultVectorStore key).isSome ^^ (ds.resultMsgStore key).isSome)
  located : ∀ key part, ds.dvParts key = some part →
    ∃ buf, ds.storedBytes part.location key = some buf ∧ part.size = buf.length ∧
      part.remainingBytes ≤ part.size
  lookups : ∀ key part, ds.dvParts key = some part →
    (∃ buf, ds.findDataBuf key = .ok buf) ∧ (∃ r, ds.getPartData key = .ok r) ∧
      ∃ ds', ds.removePart key = .ok ds'
  frame : ∀ (call : DataStoreCall) (ds' : DataStore), call.perform ds = .ok ds' →
    ∀ key, key ≠ call.key → ds'.entry key = ds.entry key ∧
      ds'.getPartData key = ds.getPartData key
  restored : ∀ key ds₁, ds.removePart key = .ok ds₁ →
    (∀ msg, ∃ ds₂, ds₁.storePartMessage key msg = .ok ds₂ ∧
      ds₂.getPartData key = .ok (some msg.data, msg.dataSize)) ∧
    (∀ v, ∃ ds₂, ds₁.storePartVector key v = .ok ds₂ ∧
      ds₂.getPartData key = .ok (vectorData v, v.length)) ∧
    ∀ size, ∃ ds₂, ds₁.preparePartVector key size = .ok ds₂ ∧
      ds₂.storedBytes .vectorStore key = some (List.replicate size 0) ∧
      ds₂.getPartData key = .ok (none, 0)

theorem Consistent.known_iff {ds : DataStore} (h : Consistent ds) (key : Int) :
    (ds.dvParts key).isSome =
      ((ds.resultVectorStore key).isSome ^^ (ds.resultMsgStore key).isSome) := by
  have hk := h key
  generalize he : ds.entry key = e at hk
  obtain ⟨hp, hv, hm⟩ := entry_eq_iff.mp he
  rw [hp, hv, hm]
  cases hk with
  | absent => rfl
  | vector _ _ _ => rfl
  | message _ _ _ => rfl

theorem Consistent.restored {ds ds₁ : DataStore} (h : Consistent ds) {key : Int}
    (hr : ds.removePart key = .ok ds₁) : ds₁.entry key = .absent := by
  cases hd : ds.dvParts key with
  | none =>
    simp only [DataStore.removePart, hd] at hr
    cases hr
  | some part =>
    obtain ⟨ds₂, h₂, hset⟩ := h.removePart hd
    obtain rfl : ds₂ = ds₁ := Except.ok.inj (h₂.symm.trans hr)
    exact hset.self

theorem Consistent.sound {ds : DataStore} (h : Consistent ds) : Sound ds where
  known_iff := h.known_iff
  located _ _ hd := h.storedBytes hd
  lookups key part hd := by
    obtain ⟨_, _, hfind⟩ := h.findDataBuf hd
    obtain ⟨ds', hrem, -⟩ := h.removePart hd
    exact ⟨⟨_, hfind⟩, h.getPartData key, ds', hrem⟩
  frame call ds' hcall key hkey := by
    obtain ⟨e, -, hset⟩ := DataStoreCall.perform_sets h hcall
    exact ⟨hset.of_ne hkey, getPartData_congr (hset.of_ne hkey)⟩
  restored key ds₁ hr := by
    have habsent := h.restored hr
    refine ⟨?_, ?_, ?_⟩
    · intro msg
      obtain ⟨ds₂, h₂, hset⟩ := storePartMessage_of_absent habsent msg
      exact ⟨ds₂, h₂, getPartData_of_message hset.self rfl rfl⟩
    · intro v
      obtain ⟨ds₂, h₂, hset⟩ := storePartVector_of_absent habsent v
      exact ⟨ds₂, h₂, getPartData_of_vector hset.self rfl rfl⟩
    · intro size
      obtain ⟨ds₂, h₂, hset⟩ := preparePartVector_of_absent habsent size
      obtain ⟨hd, hv, -⟩ := entry_eq_iff.mp hset.self
      refine ⟨ds₂, h₂, hv, ?_⟩
      rcases Nat.eq_zero_or_pos size with rfl | hpos
      · exact getPartData_of_vector hset.self rfl rfl
      · exact getPartData_of_missing hd hpos

/-- Every store that any sequence of calls reaches is in order. -/
theorem reachable_sound (calls : List DataStoreCall) (ds : DataStore)
    (h : DataStoreCall.performAll calls .empty = .ok ds) : ds.Sound :=
  (DataStoreCall.performAll_consistent empty_consistent h).sound

/-- A prepared part is filled and removed, and its key is taken by a message. -/
theorem reachable_sound_reused : ∃ ds, DataStoreCall.performAll
    [.preparePartVector 1 2, .addData 1 [7] 1, .removePart 1, .storePartMessage 1 ⟨1, [8]⟩]
      .empty = .ok ds ∧ ds.Sound := by
  refine ⟨_, rfl, ?_⟩
  exact reachable_sound [.preparePartVector 1 2, .addData 1 [7] 1, .removePart 1,
    .storePartMessage 1 ⟨1, [8]⟩] _ rfl

end DataStore

end ActiveBsp
