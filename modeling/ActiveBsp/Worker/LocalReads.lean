import ActiveBsp.Library.Monitor
import ActiveBsp.Future.PreparedPart
import ActiveBsp.Management.PartKeys
import ActiveBsp.Mpi.MPIActorCommunicator

/-!
# Local reads and their wake-ups

The worker reads a part of its own process under `_result_store_lock`, and
sleeps on `_result_store_cv` while the part is not there. The manager changes
the store in four sections under the same lock: two of them broadcast, the
preparation and the release of a part do not.
-/
namespace ActiveBsp.LocalReads

open Library Library.Buffer Library.MachineInt Library.Tiling MPIActorCommunicator

set_option autoImplicit false

/-- The sections of the manager that change the store. -/
inductive Section where
  | storeResult (msg : StoreResultMessage)
  | storeResultPart (msg : StoreResultPartMessage)
  | preparePart (key : Int) (size : Nat)
  | releaseResultPart (resId : Int)
  deriving DecidableEq, Repr

def Section.perform : Section → DataStore → Except Fault DataStore
  | .storeResult msg, ds => ds.storePartMessage msg.resId msg
  | .storeResultPart msg, ds => (ds.addData msg.resId msg.data msg.offset).map Prod.snd
  | .preparePart key size, ds => ds.preparePartVector key size
  | .releaseResultPart resId, ds => ds.removePart resId

/-- Whether the section ends with `pthread_cond_broadcast`. -/
def Section.broadcasts : Section → Bool
  | .storeResult _ | .storeResultPart _ => true
  | .preparePart _ _ | .releaseResultPart _ => false

/-- The arguments of `readStoredResult`, and the buffer around the place that it gets. -/
structure ReadCall where
  buf : Bytes
  dst : Nat
  key : Int
  offset : Int
  size : Int
  deriving DecidableEq, Repr

/-- One turn of the loop of `readStoredResult`, and the copy where it leaves the loop. -/
def attempt (call : ReadCall) (ds : DataStore) : Except Fault (Option Bytes) :=
  match readStoredResult ds call.buf call.dst call.key call.offset call.size with
  | .ok buf => .ok (some buf)
  | .error .blocked => .ok none
  | .error e => .error e

/-- The worker and the manager at `_result_store_lock`. -/
def monitor : Monitor DataStore Section ReadCall Bytes Fault :=
  ⟨Section.perform, Section.broadcasts, attempt⟩

abbrev Move : Type := Monitor.Move Section ReadCall

abbrev State : Type := Monitor.State DataStore ReadCall Bytes

/-- No part is there, and the worker is not in a call. -/
def start : State := ⟨.empty, .idle⟩

/-- The part is there, is not empty, and waits for no more bytes. -/
def Complete (ds : DataStore) (key : Int) : Prop :=
  ∃ part, ds.dvParts key = some part ∧ part.remainingBytes = 0 ∧ 0 < part.size

inductive Delivery where
  | whole (data : Bytes)
  /-- The pieces that came for a prepared part. -/
  | pieces (size : Nat) (ws : List (Write UInt8))

/-- Lengths of the pieces together. -/
def brought (ws : List (Write UInt8)) : Nat := ((ws.map DataStore.range).map Span.len).sum

/-- A whole part takes no bytes any more. -/
def Delivery.add (w : Write UInt8) : Delivery → Delivery
  | .whole data => .whole data
  | .pieces size ws => .pieces size (ws ++ [w])

/-- The deliveries by key, since the last release of each. -/
def deliver (h : PartialMap Int Delivery) : Section → PartialMap Int Delivery
  | .storeResult msg => h.set msg.resId (.whole msg.data)
  | .storeResultPart msg =>
    match h msg.resId with
    | none => h
    | some d => h.set msg.resId (d.add ⟨msg.offset, msg.data⟩)
  | .preparePart key size => h.set key (.pieces size [])
  | .releaseResultPart resId => h.erase resId

def deliveries (sections : List Section) : PartialMap Int Delivery :=
  sections.foldl deliver .empty

/-- `data` is all of what was to be brought. Pieces that share no position have each left its
bytes, and no position without. -/
def Delivery.Completes : Delivery → Bytes → Prop
  | .whole msgData, data => data = msgData
  | .pieces size ws, data => data.length = size ∧ brought ws = size ∧
      data = applyWrites (List.replicate size 0) ws ∧
      (Apart (ws.map DataStore.range) → DataStore.Complete size ws ∧
        ∀ w ∈ ws, slice data w.pos w.data.length = w.data)

/-- What a call leaves in its buffer when the bytes of the part are `data`: nothing new where the
range is refused, else the range. -/
def Copies (call : ReadCall) (data buf : Bytes) : Prop :=
  data.length < toUInt64 (toInt32 (call.offset + call.size)) ∧ buf = call.buf ∨
    toUInt64 call.offset + toUInt64 call.size ≤ data.length ∧
      buf = splice call.buf call.dst (slice data (toUInt64 call.offset) (toUInt64 call.size))

/-- The range lies in the part and in what `int` holds. -/
def InRange (call : ReadCall) (n : Nat) : Prop :=
  0 ≤ call.offset ∧ 0 ≤ call.size ∧ call.offset + call.size < 2 ^ 31 ∧
    call.offset + call.size ≤ n

instance (call : ReadCall) (n : Nat) : Decidable (InRange call n) :=
  inferInstanceAs (Decidable (_ ∧ _))

/-- What is promised after the manager ran `sections`: the worker does not sleep while its part is
complete, on its way to the lock it will find a complete part, and what it returns with is copied
from one. -/
structure Sound (sections : List Section) (s : State) : Prop where
  asleep : ∀ call, s.thread = .asleep call → ¬ Complete s.shared call.key
  finds : ∀ call part, s.thread = .locking call → Complete s.shared call.key →
    s.shared.dvParts call.key = some part → InRange call part.size →
    ∃ buf, monitor.step .attempt s = .ok ⟨s.shared, .returned call buf⟩
  copies : ∀ call s' buf, s.thread = .locking call → monitor.step .attempt s = .ok s' →
    s'.thread = .returned call buf →
    ∃ d data, deliveries sections call.key = some d ∧ d.Completes data ∧ Copies call data buf

variable {ds ds' : DataStore} {t : PartTable} {call : ReadCall}

theorem attempt_of_available {data : Bytes} (ht : ds.Represents t)
    (h : t.available call.key = some data) :
    attempt call ds =
      if data.length < toUInt64 (toInt32 (call.offset + call.size)) then .ok (some call.buf)
      else if data.length < toUInt64 call.offset + toUInt64 call.size then .error .undefined
      else .ok (some (splice call.buf call.dst
        (slice data (toUInt64 call.offset) (toUInt64 call.size)))) := by
  have hget : ds.getPartData call.key = .ok (some data, data.length) := by
    rw [DataStore.getPartData_of_represents ht, PartTable.get_of_available h]
  simp only [attempt, readStoredResult, hget, ok_bind]
  split_ifs <;> rfl

theorem attempt_of_unavailable (ht : ds.Represents t) (h : t.available call.key = none) :
    attempt call ds = .ok none := by
  have hget : ds.getPartData call.key = .ok (none, (t.get call.key).2) := by
    rw [DataStore.getPartData_of_represents ht]
    exact congrArg Except.ok (Prod.ext h rfl)
  simp only [attempt, readStoredResult, hget, ok_bind]

/-- The worker has to sleep exactly while the part is not available. -/
theorem attempt_eq_none_iff (ht : ds.Represents t) :
    attempt call ds = .ok none ↔ t.available call.key = none := by
  refine ⟨fun h => ?_, attempt_of_unavailable ht⟩
  cases hav : t.available call.key with
  | none => rfl
  | some data =>
    rw [attempt_of_available ht hav] at h
    split_ifs at h <;> cases h

theorem attempt_copies {buf : Bytes} (ht : ds.Represents t)
    (h : attempt call ds = .ok (some buf)) :
    ∃ data, t.available call.key = some data ∧ Copies call data buf := by
  cases hav : t.available call.key with
  | none =>
    rw [attempt_of_unavailable ht hav] at h
    cases h
  | some data =>
    refine ⟨data, rfl, ?_⟩
    rw [attempt_of_available ht hav] at h
    split_ifs at h with hrefused hout
    · cases h
      exact .inl ⟨hrefused, rfl⟩
    · cases h
      exact .inr ⟨Nat.not_lt.mp hout, rfl⟩

theorem attempt_of_inRange {data : Bytes} (ht : ds.Represents t)
    (h : t.available call.key = some data) (hin : InRange call data.length) :
    ∃ buf, attempt call ds = .ok (some buf) := by
  obtain ⟨hoffset, hsize, hint, hend⟩ := hin
  obtain ⟨offset, ho⟩ := Int.eq_ofNat_of_zero_le hoffset
  obtain ⟨size, hs⟩ := Int.eq_ofNat_of_zero_le hsize
  rw [attempt_of_available ht h, ho, hs]
  rw [ho, hs] at hint hend
  have hsum : toInt32 ((offset : Int) + size) = (offset + size : Nat) := by
    rw [← Nat.cast_add]
    exact toInt32_natCast (by omega)
  rw [hsum, toUInt64_natCast (n := offset + size) (by omega), toUInt64_natCast (n := offset)
    (by omega), toUInt64_natCast (n := size) (by omega), if_neg (by omega), if_neg (by omega)]
  exact ⟨_, rfl⟩

theorem available_of_complete {key : Int} (ht : ds.Represents t) (h : Complete ds key) :
    ∃ data, t.available key = some data ∧
      ∀ part, ds.dvParts key = some part → part.size = data.length := by
  obtain ⟨part, hd, hr, hpos⟩ := h
  have hrep := ht.dvParts key
  rw [hd] at hrep
  obtain ⟨p, hp, rfl⟩ := Option.map_eq_some_iff.mp hrep.symm
  refine ⟨p.data, PartTable.available_of_whole hp hr (List.ne_nil_of_length_pos hpos), ?_⟩
  intro part' hd'
  cases hd.symm.trans hd'
  rfl

section Handlers

open ActorServer PartKeys

variable {codec : Codec} {s s' : ActorServer} {out : List Output}

/-- The section is the one that the handler of the message runs. -/
def Section.Serves : Section → ActorMessage → Prop
  | .storeResult msg, .storeResult msg' => msg = msg'
  | .storeResultPart msg, .storeResultPart msg' => msg = msg'
  | .preparePart _ _, .prefetch _ => True
  | .releaseResultPart resId, .releaseResult resId' => resId = resId'
  | _, _ => False

theorem updateDataStore_inv {α : Type} {a : α} {f : DataStore → Except Fault (α × DataStore)}
    (h : updateDataStore f s = (out, .ok (a, s'))) : f s.dataStore = .ok (a, s'.dataStore) := by
  simp only [updateDataStore, Act.lift_apply] at h
  obtain ⟨r, hr, hs⟩ := Monitor.map_ok_inv (Prod.mk.inj h).2
  obtain ⟨rfl, rfl⟩ := Prod.mk.inj hs
  exact hr

/-- The same, between lock and unlock and with more to do afterwards. -/
theorem locked_update_inv {α β : Type} {b : β} {f : DataStore → Except Fault (α × DataStore)}
    {g : α → Handler β}
    (h : (do lockResultStore
             let a ← updateDataStore f
             unlockResultStore
             g a) s = (out, .ok (b, s'))) :
    ∃ a s₁, f s.dataStore = .ok (a, s₁.dataStore) ∧ g a s₁ = (out, .ok (b, s')) := by
  have hl := free_of_locked h
  rw [locked_update hl] at h
  cases hf : f s.dataStore with
  | error e =>
    rw [hf] at h
    cases h
  | ok r =>
    rw [hf] at h
    exact ⟨r.1, { s with dataStore := r.2 }, rfl, h⟩

theorem preparePart_performs {msg : PrefetchMessage} {key : Int}
    (h : preparePart msg s = (out, .ok (key, s'))) :
    ∃ size, (Section.preparePart key size).perform s.dataStore = .ok s'.dataStore := by
  obtain ⟨out₁, comm, s₁, out₂, h₁, h₂, rfl⟩ := Act.bind_ok_inv h
  obtain ⟨-, rfl, rfl⟩ := getIntraActorComm_inv h₁
  obtain ⟨out₃, key', s₃, out₄, h₃, h₄, rfl⟩ := Act.bind_ok_inv h₂
  cases h₃
  obtain ⟨u, s₅, h₅, h₆⟩ := locked_update_inv h₄
  cases h₆
  obtain ⟨ds, hds, hpair⟩ := Monitor.map_ok_inv h₅
  obtain ⟨-, rfl⟩ := Prod.mk.inj hpair
  exact ⟨_, hds⟩

/-- A handler that returns has made one section of the store, and changed it nowhere else. -/
theorem step_performs {src : Int} {m : ActorMessage} {sec : Section} (hm : sec.Serves m)
    (ht : s.dataStore.Represents t)
    (h : ActorServer.step codec (.message src m) s = (out, .ok ((), s'))) :
    ∃ sec : Section, sec.Serves m ∧ sec.perform s.dataStore = .ok s'.dataStore := by
  obtain ⟨-, -, h⟩ := step_message_inv h
  cases m with
  | storeResult msg =>
    obtain ⟨u, s₁, h₁, h₂⟩ := locked_update_inv h
    obtain ⟨ds, hds, hpair⟩ := Monitor.map_ok_inv h₁
    obtain ⟨-, hds₁⟩ := Prod.mk.inj hpair
    obtain ⟨t', -, hrep⟩ := (DataStore.storePartMessage_refines ht msg).ok_inv hds
    rw [hds₁] at hds hrep
    obtain ⟨-, rfl⟩ := ReplyOrder.checkDvPartRequired_inv hrep h₂
    exact ⟨.storeResult msg, rfl, hds⟩
  | storeResultPart msg =>
    obtain ⟨remaining, s₁, h₁, h₂⟩ := locked_update_inv h
    obtain ⟨r, -, -, hrep⟩ :=
      (DataStore.addData_refines ht msg.resId msg.data msg.offset).ok_inv h₁
    have hperform : (Section.storeResultPart msg).perform s.dataStore = .ok s₁.dataStore := by
      rw [Section.perform, h₁]
      rfl
    split_ifs at h₂
    · obtain ⟨-, rfl⟩ := ReplyOrder.checkDvPartRequired_inv hrep h₂
      exact ⟨.storeResultPart msg, rfl, hperform⟩
    · cases h₂
      exact ⟨.storeResultPart msg, rfl, hperform⟩
  | releaseResult resId =>
    obtain ⟨hl, h⟩ := locked_inv h
    obtain ⟨out₁, u, s₁, out₂, h₁, h₂, rfl⟩ := Act.bind_ok_inv h
    cases h₂
    obtain ⟨ds, hds, hpair⟩ := Monitor.map_ok_inv (updateDataStore_inv h₁)
    obtain ⟨-, rfl⟩ := Prod.mk.inj hpair
    exact ⟨.releaseResultPart resId, rfl, hds⟩
  | prefetch msg =>
    obtain ⟨out₁, head, s₁, out₂, h₁, h₂, rfl⟩ := Act.bind_ok_inv h
    obtain ⟨-, rfl, rfl⟩ := isHead_inv h₁
    cases head with
    | false =>
      obtain ⟨out₃, key, s₃, out₄, h₃, h₄, rfl⟩ := Act.bind_ok_inv h₂
      cases h₄
      obtain ⟨size, hsec⟩ := preparePart_performs h₃
      exact ⟨.preparePart key size, trivial, hsec⟩
    | true =>
      obtain ⟨out₃, resKey, s₃, out₄, h₃, h₄, rfl⟩ := Act.bind_ok_inv h₂
      obtain ⟨-, rfl, -⟩ := announcePrefetch_inv h₃
      obtain ⟨out₅, key, s₅, out₆, h₅, h₆, rfl⟩ := Act.bind_ok_inv h₄
      cases h₆
      obtain ⟨size, hsec⟩ := preparePart_performs h₅
      exact ⟨.preparePart key size, trivial, hsec⟩
  | _ => cases sec <;> exact hm.elim

end Handlers

/-- The part holds the delivery. -/
def Delivery.Describes : Delivery → Part → Prop
  | .whole data, part => part = .ofMessage data
  | .pieces size ws, part => part.location = .vectorStore ∧
      part.data = applyWrites (List.replicate size 0) ws ∧ part.remaining + brought ws = size ∧
      ∀ w ∈ ws, w.stop ≤ size

def Tracks (h : PartialMap Int Delivery) (ds : DataStore) : Prop :=
  ∃ t, ds.Represents t ∧ ∀ key, Option.Rel Delivery.Describes (h key) (t key)

theorem empty_tracks : Tracks .empty .empty :=
  ⟨.empty, DataStore.empty_represents, fun _ => .none⟩

theorem rel_set {h : PartialMap Int Delivery} {k : Int} {d : Delivery} {part : Part}
    (hrel : ∀ key, Option.Rel Delivery.Describes (h key) (t key)) (hd : d.Describes part)
    (key : Int) : Option.Rel Delivery.Describes (h.set k d key) (t.set k part key) := by
  by_cases hk : key = k
  · rw [hk, PartialMap.set_self, PartialMap.set_self]
    exact .some hd
  · rw [PartialMap.set_of_ne _ _ hk, PartialMap.set_of_ne _ _ hk]
    exact hrel key

theorem brought_append (ws : List (Write UInt8)) (w : Write UInt8) :
    brought (ws ++ [w]) = brought ws + w.data.length := by
  simp [brought, DataStore.range]

theorem length_pieces {size : Nat} {ws : List (Write UInt8)} (h : ∀ w ∈ ws, w.stop ≤ size) :
    (applyWrites (List.replicate size (0 : UInt8)) ws).length = size := by
  rw [length_applyWrites, List.length_replicate]
  rw [List.length_replicate]
  exact h

/-- A piece that fits is one more piece of the delivery. -/
theorem Delivery.Describes.write {d : Delivery} {part : Part} (hd : d.Describes part)
    {data : Bytes} {offset : Nat} (hfits : part.Fits data offset) :
    (d.add ⟨offset, data⟩).Describes (part.write data offset hfits) := by
  cases d with
  | whole msgData =>
    obtain rfl : part = .ofMessage msgData := hd
    have hnil : data = [] := List.eq_nil_of_length_eq_zero (Nat.le_zero.mp hfits.2)
    subst hnil
    have hsame : splice (Part.ofMessage msgData).data offset [] = (Part.ofMessage msgData).data :=
      splice_nil _ _
    change Part.write _ _ _ _ = Part.ofMessage msgData
    simp only [Part.write, hsame, List.length_nil, Nat.sub_zero]
  | pieces size ws =>
    obtain ⟨hloc, hdata, hsum, hin⟩ := hd
    have hlen : part.data.length = size := by rw [hdata, length_pieces hin]
    refine ⟨hloc, ?_, ?_, ?_⟩
    · rw [Part.write_data, hdata, applyWrites_append]
      rfl
    · have hrem := hfits.2
      rw [Part.write_remaining, brought_append]
      dsimp only
      omega
    · intro w hw
      rcases List.mem_append.mp hw with hw | hw
      · exact hin w hw
      · obtain rfl := List.mem_singleton.mp hw
        rw [Write.stop, ← hlen]
        exact hfits.1

/-- Every section does to the store what the delivery says. -/
theorem deliver_tracks (sec : Section) (h : PartialMap Int Delivery) (ds ds' : DataStore)
    (htr : Tracks h ds) (hsec : sec.perform ds = .ok ds') : Tracks (deliver h sec) ds' := by
  obtain ⟨t, ht, hrel⟩ := htr
  cases sec with
  | storeResult msg =>
    obtain ⟨t', hstore, hrep⟩ := (DataStore.storePartMessage_refines ht msg).ok_inv hsec
    obtain ⟨-, rfl⟩ := PartTable.store_inv hstore
    exact ⟨_, hrep, rel_set hrel rfl⟩
  | storeResultPart msg =>
    obtain ⟨r, hadd, rfl⟩ := Monitor.map_ok_inv hsec
    obtain ⟨r', hadd', -, hrep⟩ :=
      (DataStore.addData_refines ht msg.resId msg.data msg.offset).ok_inv hadd
    obtain ⟨part, hfits, hpart, -, -, hset⟩ := PartTable.add_inv hadd'
    rw [hset] at hrep
    have hkey := hrel msg.resId
    rw [hpart] at hkey
    cases hd : h msg.resId with
    | none =>
      rw [hd] at hkey
      cases hkey
    | some d =>
      rw [hd] at hkey
      cases hkey with
      | some hdesc =>
        simp only [deliver, hd]
        exact ⟨_, hrep, rel_set hrel (hdesc.write hfits)⟩
  | preparePart key size =>
    obtain ⟨t', hstore, hrep⟩ := (DataStore.preparePartVector_refines ht key size).ok_inv hsec
    obtain ⟨-, rfl⟩ := PartTable.store_inv hstore
    apply Exists.intro _
    refine ⟨hrep, rel_set hrel ⟨rfl, rfl, Nat.add_zero _, List.forall_mem_nil _⟩⟩
  | releaseResultPart resId =>
    obtain ⟨t', hremove, hrep⟩ := (DataStore.removePart_refines ht resId).ok_inv hsec
    unfold PartTable.remove at hremove
    split_ifs at hremove
    cases hremove
    refine ⟨_, hrep, fun key => ?_⟩
    by_cases hk : key = resId
    · rw [hk, deliver, PartialMap.erase_self, PartialMap.erase_self]
      exact .none
    · rw [deliver, PartialMap.erase_of_ne _ hk, PartialMap.erase_of_ne _ hk]
      exact hrel key

/-- What can be read is a complete delivery. -/
theorem completes_of_available {h : PartialMap Int Delivery} {key : Int} {data : Bytes}
    (hrel : Option.Rel Delivery.Describes (h key) (t key)) (hav : t.available key = some data) :
    ∃ d, h key = some d ∧ d.Completes data := by
  unfold PartTable.available PartTable.get at hav
  cases hpart : t key with
  | none =>
    rw [hpart] at hav
    cases hav
  | some part =>
    rw [hpart] at hav hrel
    dsimp only at hav
    split_ifs at hav with hr
    obtain rfl := Part.buffer_eq_some hav
    cases hd : h key with
    | none =>
      rw [hd] at hrel
      cases hrel
    | some d =>
      rw [hd] at hrel
      cases hrel with
      | some hdesc =>
        refine ⟨d, rfl, ?_⟩
        cases d with
        | whole msgData =>
          obtain rfl : part = .ofMessage msgData := hdesc
          rfl
        | pieces size ws =>
          obtain ⟨-, hdata, hsum, hin⟩ := hdesc
          have hbrought : brought ws = size := by omega
          refine ⟨by rw [hdata, length_pieces hin], hbrought, hdata, fun hapart => ?_⟩
          have hbound : ∀ r ∈ ws.map DataStore.range, r.stop ≤ size := by
            intro r hr
            obtain ⟨w, hw, rfl⟩ := List.mem_map.mp hr
            exact hin w hw
          refine ⟨(hapart.sum_len_eq_iff hbound).mp hbrought, fun w hw => ?_⟩
          have hclear : ws.Pairwise Write.Clear := by
            rw [Apart, List.pairwise_map] at hapart
            exact hapart
          rw [hdata]
          apply slice_applyWrites _ hclear hw
          rw [List.length_replicate]
          exact hin

/-- Only the sections that broadcast make a part available. -/
theorem silent_keeps_blocked : monitor.SilentKeepsBlocked fun ds => ∃ h, Tracks h ds := by
  intro sec ds ds' call ⟨h, t, ht, _⟩ hsec hsilent hnone
  have hav := (attempt_eq_none_iff ht).mp hnone
  cases sec with
  | storeResult msg => cases hsilent
  | storeResultPart msg => cases hsilent
  | preparePart key size =>
    obtain ⟨t', hstore, hrep⟩ := (DataStore.preparePartVector_refines ht key size).ok_inv hsec
    obtain ⟨-, rfl⟩ := PartTable.store_inv hstore
    exact attempt_of_unavailable hrep (PartTable.available_prepared size call.key hav)
  | releaseResultPart resId =>
    obtain ⟨t', hremove, hrep⟩ := (DataStore.removePart_refines ht resId).ok_inv hsec
    unfold PartTable.remove at hremove
    split_ifs at hremove
    cases hremove
    exact attempt_of_unavailable hrep (PartTable.available_erase resId hav)

/-- For every order of the sections of the manager and the turns and wake-ups of the worker: the
worker sleeps only while its part is not complete, and copies from a complete part only. -/
theorem no_lost_wakeup (moves : List Move) (s : State) (h : monitor.run moves start = .ok s) :
    Sound (Monitor.entered moves) s := by
  have hsections := Monitor.run_shared h
  obtain ⟨t, ht, hrel⟩ : Tracks (deliveries (Monitor.entered moves)) s.shared :=
    Monitor.enterAll_simulates deliver deliver_tracks empty_tracks hsections
  have hblocked : monitor.Blocked s := by
    have hkeep : ∀ sec ds ds', (∃ h, Tracks h ds) → monitor.enter sec ds = .ok ds' →
        ∃ h, Tracks h ds' := fun sec ds ds' ⟨h, htr⟩ hsec => ⟨_, deliver_tracks sec h ds ds' htr hsec⟩
    apply Monitor.Blocked.run hkeep silent_keeps_blocked _ _ h
    · exact ⟨.empty, empty_tracks⟩
    · exact fun _ hasleep => nomatch hasleep
  constructor
  · intro call hasleep hcomplete
    obtain ⟨data, hav, -⟩ := available_of_complete ht hcomplete
    rw [(attempt_eq_none_iff ht).mp (hblocked call hasleep)] at hav
    cases hav
  · intro call part hlocking hcomplete hpart hin
    obtain ⟨data, hav, hsize⟩ := available_of_complete ht hcomplete
    rw [hsize part hpart] at hin
    obtain ⟨buf, hbuf⟩ := attempt_of_inRange ht hav hin
    exact ⟨buf, Monitor.step_attempt_of_some hlocking hbuf⟩
  · intro call s' buf hlocking hstep hreturned
    obtain ⟨data, hav, hcopies⟩ :=
      attempt_copies ht (Monitor.step_attempt_inv hlocking hstep hreturned)
    obtain ⟨d, hd, hcompletes⟩ := completes_of_available (hrel call.key) hav
    exact ⟨d, data, hd, hcompletes, hcopies⟩

/-- The worker sleeps before the part is prepared and again when half of it is there, and the
second piece wakes it. -/
theorem no_lost_wakeup_pieces : ∃ s, monitor.run [.call ⟨[0, 0], 0, 1, 0, 2⟩, .attempt,
    .enter (.preparePart 1 2), .enter (.storeResultPart ⟨1, [8], 1, 2⟩), .attempt,
    .enter (.storeResultPart ⟨1, [7], 0, 2⟩)] start = .ok s ∧
      s.thread = .locking ⟨[0, 0], 0, 1, 0, 2⟩ ∧
      Sound [.preparePart 1 2, .storeResultPart ⟨1, [8], 1, 2⟩,
        .storeResultPart ⟨1, [7], 0, 2⟩] s :=
  ⟨_, rfl, rfl, no_lost_wakeup [.call ⟨[0, 0], 0, 1, 0, 2⟩, .attempt,
    .enter (.preparePart 1 2), .enter (.storeResultPart ⟨1, [8], 1, 2⟩), .attempt,
    .enter (.storeResultPart ⟨1, [7], 0, 2⟩)] _ rfl⟩

end ActiveBsp.LocalReads
