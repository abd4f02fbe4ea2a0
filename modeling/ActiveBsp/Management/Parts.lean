import ActiveBsp.Management.Specs

/-!
# Results at the manager

The handlers that keep, complete, drop and answer for parts, over the table of
parts that the data store represents.
-/
namespace ActiveBsp.ActorServer

open Library Library.Buffer Library.MachineInt

set_option autoImplicit false

variable {codec : Codec} {s s' : ActorServer} {t : PartTable} {key : Int} {data : Bytes}

/-- The window test of the scans, without wrap-around. -/
theorem meets_iff {part : VectorDistributionPart} {a b : Nat}
    (h : part.offset + part.size < 2 ^ 64) :
    ¬ (add64 part.offset part.size ≤ a ∨ b ≤ part.offset) ↔ part.span.Meets a b := by
  rw [add64_of_lt h, not_or, Nat.not_le, Nat.not_le]
  rfl

theorem selects_iff {pid : Int} {part : VectorDistributionPart} {a b : Nat}
    (h : part.offset + part.size < 2 ^ 64) :
    Selects pid part a b ↔ pid = part.pid ∧ part.span.Meets a b := by
  rw [Selects, meets_iff h]

/-- The requested window is where the part and the range overlap. -/
theorem subPart_of_meets {part : VectorDistributionPart} {a b : Nat} (hm : part.span.Meets a b)
    (hab : a ≤ b) (hb : b < 2 ^ 64) :
    subPart part a b = (max part.offset a - part.offset, part.span.overlap a b) := by
  obtain ⟨h1, h2⟩ := hm
  have hoff : part.offset < b := h2
  have hstop : a < part.offset + part.size := h1
  have hreq : (if part.offset ≤ a then a - part.offset else 0) = max part.offset a - part.offset := by
    split_ifs <;> omega
  unfold subPart
  simp only [hreq]
  rw [sub64_of_le hoff.le hb, sub64_of_le (by omega) (by omega)]
  unfold Tiling.Span.overlap Tiling.Span.stop VectorDistributionPart.span
  simp only [Prod.mk.injEq, true_and]
  omega

theorem sendResultPart_fits {dst : Int} {offset size : Nat} (hfit : offset + size ≤ data.length)
    (hsize : size < 2 ^ 31) :
    sendResultPart dst data offset size s =
      ([.resultPart dst (slice data offset size)], .ok ((), s)) := by
  have hcount : toInt32 (size : Int) = size := toInt32_natCast hsize
  have hgood : ¬ ((size : Int) < 0 ∨ data.length < offset + size) := by omega
  simp only [sendResultPart, hcount, Int.toNat_natCast, if_neg hgood, Act.emit_apply]

/-- The reply to a parked request. -/
def reply (data : Bytes) (request : PendingResultRequest) : Output :=
  .resultPart request.dst (slice data request.offset request.size)

/-- The requests lie inside a part of `size` bytes, and their sizes are counts of `int`. -/
def RequestsFit (size : Nat) (requests : List PendingResultRequest) : Prop :=
  ∀ request ∈ requests, request.offset + request.size ≤ size ∧ request.size < 2 ^ 31

/-- The requests parked for a key. -/
def parked (s : ActorServer) (key : Int) : List PendingResultRequest :=
  (s.pendingResultRequests key).getD []

theorem getPartData_bind {β : Type} (ht : s.dataStore.Represents t)
    (f : Option Bytes × Nat → Handler β) : (getPartData key >>= f) s = f (t.get key) s := by
  rw [Act.bind_of_ok (getPartData_eq ht key)]
  rfl

theorem answerParked_replies {request : PendingResultRequest} (ht : s.dataStore.Represents t)
    (hdata : t.available key = some data) (hin : request.offset + request.size ≤ data.length)
    (hsize : request.size < 2 ^ 31) :
    answerParked key request s = ([reply data request], .ok ((), s)) := by
  have hget : (t.get key).1 = some data := hdata
  have hanswer : answerParked key request s =
      sendResultPart request.dst ((t.get key).1.getD []) request.offset request.size s :=
    getPartData_bind ht _
  rw [hanswer, hget]
  exact sendResultPart_fits hin hsize

/-- A part that is there is sent to everyone who waits for it; the requests stay in the map. -/
theorem checkDvPartRequired_replies (hl : s.resultStoreLock = false)
    (ht : s.dataStore.Represents t) (hdata : t.available key = some data)
    (hfit : RequestsFit data.length (s.parked key)) :
    checkDvPartRequired key s = ((s.parked key).map (reply data), .ok ((), s)) := by
  unfold checkDvPartRequired
  rw [Act.get_bind]
  cases hp : s.pendingResultRequests key with
  | none =>
    rw [parked, hp]
    rfl
  | some requests =>
    have hreq : s.parked key = requests := by rw [parked, hp]; rfl
    rw [hreq] at hfit ⊢
    have hbody : ∀ request ∈ requests, answerParked key request { s with resultStoreLock := true } =
        ([reply data request], .ok ((), { s with resultStoreLock := true })) := by
      intro request hr
      obtain ⟨hin, hsize⟩ := hfit request hr
      have ht' : ({ s with resultStoreLock := true } : ActorServer).dataStore.Represents t := ht
      exact answerParked_replies ht' hdata hin hsize
    dsimp only
    rw [Act.bind_of_ok (lockResultStore_of_free hl), Act.bind_of_ok (Act.forM_emitting hbody),
      unlockResultStore, Act.modify_apply, unlocked hl, List.map_eq_flatMap]
    simp

/-- The request lies inside its part, if that is there. -/
def InRange (t : PartTable) (part : ResultReqPart) : Prop :=
  part.size < 2 ^ 31 ∧ ∀ data, t.available part.resid = some data →
    part.offset + part.size ≤ data.length ∧ data.length < 2 ^ 64

/-- What is sent at once for a request. -/
def answer (t : PartTable) (dst : Int) (part : ResultReqPart) : Option Output :=
  (t.available part.resid).map fun data => .resultPart dst (slice data part.offset part.size)

/-- A request for a part that is not there waits. -/
def park (t : PartTable) (src : Int) (pending : PartialMap Int (List PendingResultRequest))
    (part : ResultReqPart) : PartialMap Int (List PendingResultRequest) :=
  if t.available part.resid = none then
    pending.set part.resid ((pending part.resid).getD [] ++ [⟨part.offset, part.size, src⟩])
  else pending

theorem answerParts_eq {src forwardTo : Int} {parts : List ResultReqPart}
    (ht : s.dataStore.Represents t) (hin : ∀ part ∈ parts, InRange t part) :
    answerParts src forwardTo parts s =
      (parts.filterMap (answer t forwardTo), .ok (true, { s with
        pendingResultRequests := parts.foldl (park t src) s.pendingResultRequests })) := by
  induction parts generalizing s with
  | nil => rfl
  | cons part parts ih =>
    have hrest : ∀ p ∈ parts, InRange t p := fun p hp => hin p (List.mem_cons_of_mem part hp)
    obtain ⟨hsize, hrange⟩ := hin part List.mem_cons_self
    unfold answerParts
    rw [getPartData_bind ht]
    cases hav : t.available part.resid with
    | none =>
      have hget : (t.get part.resid).1 = none := hav
      simp only [hget, Act.modify_bind]
      rw [ih (by exact ht) hrest, List.filterMap_cons_none (by rw [answer, hav]; rfl),
        List.foldl_cons, park, if_pos hav]
    | some data =>
      obtain ⟨hfit, h64⟩ := hrange data hav
      have hsum : add64 part.offset part.size = part.offset + part.size :=
        add64_of_lt (hfit.trans_lt h64)
      simp only [PartTable.get_of_available hav, hsum, if_neg (Nat.not_lt.mpr hfit)]
      rw [Act.bind_of_ok (sendResultPart_fits hfit hsize), ih ht hrest,
        List.filterMap_cons_some (by rw [answer, hav]; rfl), List.foldl_cons, park,
        if_neg (by rw [hav]; exact Option.some_ne_none data)]
      rfl

/-- Requests inside their parts are answered or parked, one by one. -/
theorem handleGetResultPartsMessage_eq {src forwardTo : Int} {parts : List ResultReqPart}
    (hl : s.resultStoreLock = false) (ht : s.dataStore.Represents t)
    (hin : ∀ part ∈ parts, InRange t part) :
    handleGetResultPartsMessage src ⟨forwardTo, parts⟩ s =
      (parts.filterMap (answer t forwardTo), .ok ((), { s with
        pendingResultRequests := parts.foldl (park t src) s.pendingResultRequests })) := by
  have ht' : ({ s with resultStoreLock := true } : ActorServer).dataStore.Represents t := ht
  unfold handleGetResultPartsMessage
  rw [Act.bind_of_ok (lockResultStore_of_free hl), Act.bind_of_ok (answerParts_eq ht' hin)]
  simp only [if_true, unlockResultStore, Act.modify_apply, List.nil_append, List.append_nil]
  rw [← hl]

theorem storePartMessage_map {ds : DataStore} (ht : ds.Represents t) (msg : StoreResultMessage) :
    (t msg.resId = none → ∃ ds', (ds.storePartMessage msg.resId msg).map (fun ds => ((), ds)) =
        .ok ((), ds') ∧ ds'.Represents (t.set msg.resId (.ofMessage msg.data))) ∧
      (t msg.resId ≠ none → (ds.storePartMessage msg.resId msg).map (fun ds => ((), ds)) =
        .error (.assertion .storePartMessage)) := by
  have href := DataStore.storePartMessage_refines ht msg
  constructor
  · intro hk
    rw [PartTable.store, if_pos hk] at href
    obtain ⟨ds', hds, hrep⟩ := href.of_ok rfl
    exact ⟨ds', by rw [hds]; rfl, hrep⟩
  · intro hk
    rw [PartTable.store, if_neg hk] at href
    rw [href.of_error rfl]
    rfl

/-- A new result is kept, and sent to everyone who waits for it. -/
theorem handleStoreResultMessage_stores {msg : StoreResultMessage} (hl : s.resultStoreLock = false)
    (ht : s.dataStore.Represents t) (hk : t msg.resId = none)
    (hfit : RequestsFit msg.data.length (s.parked msg.resId)) :
    ∃ ds', handleStoreResultMessage msg s =
        ((s.parked msg.resId).map (reply msg.data), .ok ((), { s with dataStore := ds' })) ∧
      ds'.Represents (t.set msg.resId (.ofMessage msg.data)) := by
  obtain ⟨ds', hds, hrep⟩ := (storePartMessage_map ht msg).1 hk
  refine ⟨ds', ?_, hrep⟩
  unfold handleStoreResultMessage
  rw [locked_update hl]
  simp only [hds]
  have hav : PartTable.available (t.set msg.resId (.ofMessage msg.data)) msg.resId =
      some msg.data := by
    rw [PartTable.available_set]
    rfl
  exact checkDvPartRequired_replies (s := { s with dataStore := ds' }) hl hrep hav hfit

/-- A piece that fits is written; the last one answers everyone who waits for the part. -/
theorem handleStoreResultPartMessage_adds {msg : StoreResultPartMessage} {part : Part}
    (hl : s.resultStoreLock = false) (ht : s.dataStore.Represents t)
    (hk : t msg.resId = some part) (hb : part.buffer = some part.data)
    (hfits : part.Fits msg.data msg.offset) (h64 : part.data.length < 2 ^ 64)
    (hpark : RequestsFit part.data.length (s.parked msg.resId)) :
    ∃ ds', handleStoreResultPartMessage msg s =
        (if part.remaining - msg.data.length = 0 then
            (s.parked msg.resId).map (reply (splice part.data msg.offset msg.data)) else [],
          .ok ((), { s with dataStore := ds' })) ∧
      ds'.Represents (t.set msg.resId (part.write msg.data msg.offset hfits)) := by
  have href := DataStore.addData_refines ht msg.resId msg.data msg.offset
  obtain ⟨⟨remaining, ds'⟩, hds, hrem, hrep⟩ := href.of_ok (PartTable.add_of_fits hk hb hfits h64)
  simp only at hrem hrep
  refine ⟨ds', ?_, hrep⟩
  unfold handleStoreResultPartMessage
  rw [locked_update hl]
  simp only [hds, hrem]
  by_cases hzero : part.remaining - msg.data.length = 0
  · have hlen : (splice part.data msg.offset msg.data).length = part.data.length :=
      length_splice hfits.1
    have hav : PartTable.available (t.set msg.resId (part.write msg.data msg.offset hfits))
        msg.resId = some (splice part.data msg.offset msg.data) := by
      rw [PartTable.available_set, Part.write_remaining, hzero, if_neg (Nat.lt_irrefl 0),
        Part.write_buffer hfits hb]
    rw [if_pos hzero, if_pos hzero]
    exact checkDvPartRequired_replies (s := { s with dataStore := ds' }) hl hrep hav
      (hlen ▸ hpark)
  · rw [if_neg hzero, if_neg hzero]
    rfl

/-- A piece of a part that is not there breaks the assertion of `addData`. -/
theorem handleStoreResultPartMessage_absent {msg : StoreResultPartMessage}
    (hl : s.resultStoreLock = false) (ht : s.dataStore.Represents t) (hk : t msg.resId = none) :
    handleStoreResultPartMessage msg s = ([], .error (.assertion .addDataPart)) := by
  have href := DataStore.addData_refines ht msg.resId msg.data msg.offset
  have hadd : t.add msg.resId msg.data msg.offset = .error (.assertion .addDataPart) := by
    simp only [PartTable.add, hk]
  unfold handleStoreResultPartMessage
  rw [locked_update hl]
  simp only [href.of_error hadd]

theorem handleReleaseResultPartMessage_removes (hl : s.resultStoreLock = false)
    (ht : s.dataStore.Represents t) (hk : t key ≠ none) :
    ∃ ds', handleReleaseResultPartMessage key s = ([], .ok ((), { s with dataStore := ds' })) ∧
      ds'.Represents (t.erase key) := by
  have href := DataStore.removePart_refines ht key
  obtain ⟨ds', hds, hrep⟩ := href.of_ok (by rw [PartTable.remove, if_neg hk])
  refine ⟨ds', ?_, hrep⟩
  unfold handleReleaseResultPartMessage
  rw [locked_update_last hl, hds]
  rfl

end ActiveBsp.ActorServer
