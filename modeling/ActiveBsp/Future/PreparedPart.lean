import ActiveBsp.Library.Tiling
import ActiveBsp.Future.DataStoreRuns

/-!
# When a prepared part becomes readable

The pieces of a prepared part arrive in any order. The byte counter reaches zero
exactly when pieces that share no position cover the part. An empty part has no
piece to wait for, but its vector has no address either, and a null address is
how the store says that a part is not there yet.
-/
namespace ActiveBsp.DataStore

open Library Library.Buffer Library.MachineInt Library.Tiling

set_option autoImplicit false

/-- The range that a write covers. -/
def range (w : Write UInt8) : Span := ⟨w.pos, w.data.length⟩

/-- The `addData` calls that carry the writes. -/
def fills (key : Int) (ws : List (Write UInt8)) : List DataStoreCall :=
  ws.map (fun w => .addData key w.data w.pos)

/-- Every position of the part has been written. -/
def Complete (size : Nat) (ws : List (Write UInt8)) : Prop :=
  ∀ x < size, ∃ r ∈ ws.map range, r.Covers x

/-- What is promised of a part that was prepared in `ds` and filled by `ws`: all calls are
accepted, empty ones too, and a reader gets the part exactly when it is complete. -/
def ReadableWhenComplete (ds : DataStore) (key : Int) (size : Nat) (ws : List (Write UInt8)) :
    Prop :=
  ∃ ds', DataStoreCall.performAll (fills key ws) ds = .ok ds' ∧
    ((∃ data n, ds'.getPartData key = .ok (some data, n)) ↔ Complete size ws) ∧
    (∀ data n, ds'.getPartData key = .ok (some data, n) →
      n = size ∧ data.length = size ∧
        ∀ w ∈ ws, slice data w.pos w.data.length = w.data) ∧
    ∀ offset ≤ size, ∃ r, ds'.addData key [] offset = .ok r

variable {ds ds' : DataStore} {key : Int} {size remaining : Nat} {buf : Bytes}

/-- A part in the vector store: its buffer and the bytes that are missing. -/
structure Filling (ds : DataStore) (key : Int) (size remaining : Nat) (buf : Bytes) : Prop where
  part : ds.dvParts key = some ⟨key, size, .vectorStore, remaining⟩
  vector : ds.resultVectorStore key = some buf
  length_eq : buf.length = size

theorem filling_of_prepared (h : ds.preparePartVector key size = .ok ds') :
    Filling ds' key size size (List.replicate size 0) := by
  have hd := dvParts_of_preparePartVector h
  simp only [preparePartVector, assert, hd, if_true, bind, Except.bind] at h
  split_ifs at h
  obtain rfl := Except.ok.inj h
  constructor
  · simp
  · simp
  · exact List.length_replicate

theorem Filling.findDataBuf (h : Filling ds key size remaining buf) :
    ds.findDataBuf key = .ok (vectorData buf) := by
  simp only [DataStore.findDataBuf, h.part, h.vector]

theorem vectorData_of_pos (h : 0 < buf.length) : vectorData buf = some buf := by
  cases buf with
  | nil => cases h
  | cons b bs => rfl

/-- A write inside a part that is not empty is accepted. -/
theorem Filling.addData (h : Filling ds key size remaining buf) (hpos : 0 < size)
    (h64 : size < 2 ^ 64) {data : Bytes} {offset : Nat} (hin : offset + data.length ≤ size)
    (hrem : data.length ≤ remaining) :
    ∃ ds', ds.addData key data offset = .ok (remaining - data.length, ds') ∧
      Filling ds' key size (remaining - data.length) (splice buf offset data) := by
  have hlen : offset + data.length ≤ buf.length := by rw [h.length_eq]; exact hin
  have hbuf : vectorData buf = some buf := vectorData_of_pos (by rw [h.length_eq]; exact hpos)
  refine ⟨⟨ds.resultVectorStore.set key (splice buf offset data), ds.resultMsgStore,
    ds.dvParts.set key ⟨key, size, .vectorStore, remaining - data.length⟩⟩, ?_, ?_⟩
  · simp only [DataStore.addData, h.part, h.findDataBuf, hbuf, bind, Except.bind, assert,
      add64_of_lt (Nat.lt_of_le_of_lt hin h64), if_pos hin, if_pos hrem, writeDataBuf,
      if_neg (Nat.not_lt.mpr hlen)]
    rfl
  · constructor
    · exact PartialMap.set_self _ _ _
    · exact PartialMap.set_self _ _ _
    · rw [length_splice hlen, h.length_eq]

/-- All writes are accepted while they fit and are together no longer than what is missing. -/
theorem Filling.fills (h : Filling ds key size remaining buf) (hpos : 0 < size)
    (h64 : size < 2 ^ 64) {ws : List (Write UInt8)} (hin : ∀ w ∈ ws, w.stop ≤ size)
    (hsum : ((ws.map range).map Span.len).sum ≤ remaining) :
    ∃ ds', DataStoreCall.performAll (fills key ws) ds = .ok ds' ∧
      Filling ds' key size (remaining - ((ws.map range).map Span.len).sum)
        (applyWrites buf ws) := by
  induction ws generalizing ds remaining buf with
  | nil => exact ⟨ds, rfl, h⟩
  | cons w ws ih =>
    simp only [List.map_cons, List.sum_cons] at hsum ⊢
    obtain ⟨ds₁, h₁, hf₁⟩ := h.addData hpos h64 (hin w List.mem_cons_self)
      ((Nat.le_add_right _ _).trans hsum)
    obtain ⟨ds₂, h₂, hf₂⟩ := ih hf₁ (fun w' hw' => hin w' (List.mem_cons_of_mem w hw'))
      (Nat.le_sub_of_add_le' hsum)
    refine ⟨ds₂, ?_, ?_⟩
    · simp only [DataStore.fills, List.map_cons, DataStoreCall.performAll, DataStoreCall.perform,
        h₁]
      exact h₂
    · rw [Nat.sub_sub] at hf₂
      exact hf₂

theorem Filling.getPartData (h : Filling ds key size remaining buf) (hpos : 0 < size) :
    ds.getPartData key = .ok (if remaining = 0 then (some buf, size) else (none, 0)) := by
  have hbuf : vectorData buf = some buf := vectorData_of_pos (by rw [h.length_eq]; exact hpos)
  split_ifs with hr
  · simp only [DataStore.getPartData, h.part, hr, Nat.lt_irrefl, if_false, h.findDataBuf, hbuf]
    rfl
  · exact getPartData_of_missing h.part (Nat.pos_of_ne_zero hr)

/-- With room for at least one byte the promise holds. -/
theorem readable_of_pos {ds : DataStore} {ws : List (Write UInt8)}
    (h : Filling ds key size size (List.replicate size 0)) (hpos : 0 < size) (h64 : size < 2 ^ 64)
    (hin : ∀ w ∈ ws, w.stop ≤ size) (hapart : Apart (ws.map range)) :
    ReadableWhenComplete ds key size ws := by
  have hbound : ∀ r ∈ ws.map range, r.stop ≤ size := by
    intro r hr
    obtain ⟨w, hw, rfl⟩ := List.mem_map.mp hr
    exact hin w hw
  have hle := hapart.sum_len_le hbound
  have hall := hapart.sum_len_eq_iff hbound
  obtain ⟨ds', hrun, hf⟩ := h.fills hpos h64 hin hle
  have hget := hf.getPartData hpos
  refine ⟨ds', hrun, ?_, ?_, ?_⟩
  · rw [Complete, ← hall, hget]
    split_ifs with hr
    · exact iff_of_true ⟨_, _, rfl⟩ (by omega)
    · refine iff_of_false ?_ (by omega)
      rintro ⟨data, n, hcon⟩
      cases hcon
  · intro data n hdata
    rw [hget] at hdata
    split_ifs at hdata
    · obtain ⟨hd, rfl⟩ := Prod.mk.inj (Except.ok.inj hdata)
      obtain rfl := Option.some.inj hd
      refine ⟨rfl, hf.length_eq, ?_⟩
      intro w hw
      have hclear : ws.Pairwise Write.Clear := by
        rw [Apart, List.pairwise_map] at hapart
        exact hapart
      refine slice_applyWrites ?_ hclear hw
      intro w' hw'
      rw [List.length_replicate]
      exact hin w' hw'
    · cases hdata
  · intro offset hoffset
    obtain ⟨ds'', h'', -⟩ := @Filling.addData _ _ _ _ _ hf hpos h64 [] offset hoffset (Nat.zero_le _)
    exact ⟨_, h''⟩

/-- An empty part is never readable. -/
theorem not_readable_of_empty {ds : DataStore} {ws : List (Write UInt8)}
    (h : Filling ds key 0 0 []) : ¬ ReadableWhenComplete ds key 0 ws := by
  rintro ⟨ds', hrun, hiff, -, -⟩
  cases ws with
  | nil =>
    obtain rfl : ds = ds' := Except.ok.inj hrun
    obtain ⟨data, n, hget⟩ := hiff.mpr (fun x hx => absurd hx (Nat.not_lt_zero x))
    simp only [DataStore.getPartData, h.part, Nat.lt_irrefl, if_false, h.findDataBuf] at hget
    cases hget
  | cons w ws =>
    simp only [DataStore.fills, List.map_cons, DataStoreCall.performAll, DataStoreCall.perform,
      DataStore.addData, h.part, h.findDataBuf] at hrun
    cases hrun

/-- A prepared part is readable exactly when complete if and only if it is not empty. -/
theorem prepared_readable_iff {ds₀ ds : DataStore} {ws : List (Write UInt8)}
    (hprep : ds₀.preparePartVector key size = .ok ds) (h64 : size < 2 ^ 64)
    (hin : ∀ w ∈ ws, w.stop ≤ size) (hapart : Apart (ws.map range)) :
    ReadableWhenComplete ds key size ws ↔ 0 < size := by
  have hf := filling_of_prepared hprep
  constructor
  · intro h
    by_contra hzero
    obtain rfl : size = 0 := Nat.eq_zero_of_not_pos hzero
    exact not_readable_of_empty hf h
  · intro hpos
    exact readable_of_pos hf hpos h64 hin hapart

/-- Two pieces, the later one first. -/
theorem prepared_readable_iff_two : ∃ ds, DataStore.empty.preparePartVector 1 3 = .ok ds ∧
    (ReadableWhenComplete ds 1 3 [⟨1, [8, 9]⟩, ⟨0, [7]⟩] ↔ 0 < 3) := by
  refine ⟨_, rfl, ?_⟩
  apply prepared_readable_iff (show DataStore.empty.preparePartVector 1 3 = .ok _ from rfl)
    (by decide) (by decide)
  rw [Apart, List.map_cons, List.map_cons, List.map_nil, List.pairwise_pair]
  intro x hx hy
  have h1 : 1 ≤ x := hx.1
  have h2 : x < 0 + 1 := hy.2
  omega

/-- An empty part is complete, yet a reader finds nothing and an empty piece is refused. -/
theorem empty_part_unreadable : ∃ ds, DataStore.empty.preparePartVector 1 0 = .ok ds ∧
    ¬ ReadableWhenComplete ds 1 0 [] ∧ Complete 0 [] ∧ ds.getPartData 1 = .ok (none, 0) ∧
      ds.addData 1 [] 0 = .error (.assertion .addDataBuf) := by
  have hprep : DataStore.empty.preparePartVector 1 0 = .ok _ := rfl
  refine ⟨_, hprep, not_readable_of_empty (filling_of_prepared hprep), ?_, rfl, rfl⟩
  intro x hx
  exact absurd hx (Nat.not_lt_zero x)

end ActiveBsp.DataStore
