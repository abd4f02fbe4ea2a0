import ActiveBsp.Management.Frames
import ActiveBsp.Management.ReplyOrder
import ActiveBsp.Serialization.RoundTrip

/-!
# Requests that wait for a part

A request for a part that is not there is recorded, and answered when its part
becomes complete. The record is never cleared: a message that completes the
part again answers the same requests again.
-/
namespace ActiveBsp.ParkedRequests

open Library Library.Buffer Library.MachineInt ActorServer ReplyOrder

set_option autoImplicit false

variable {codec : Codec} {s s' : ActorServer} {t t' : PartTable} {key : Int} {i : Input}
  {out : List Output}

/-- The parts, and who waits for them. -/
def resultsView (s : ActorServer) :
    DataStore × PartialMap Int (List PendingResultRequest) :=
  (s.dataStore, s.pendingResultRequests)

def AvoidsResults : Input → Prop
  | .message _ (.storeResult _) | .message _ (.storeResultPart _) | .message _ (.releaseResult _)
  | .message _ (.getResultParts _) | .message _ (.prefetch _) => False
  | _ => True

abbrev LeavesResults {α : Type} (x : Handler α) : Prop :=
  Act.Guarantees (Act.Keeps resultsView fun o => ¬ IsResult o) x

theorem futures_leaves {α : Type} {x : Handler α} (hx : OnFutures x) : LeavesResults x :=
  hx.keeps_mono (fun s s' h =>
    (congrArg resultsView h : resultsView s'.futuresFrame = resultsView s.futuresFrame))
    fun o h hr => by cases o <;> first | exact h | exact hr

theorem takeKey_leaves : LeavesResults takeKey :=
  Act.keeps_lift fun _ _ _ h => by cases h; rfl

theorem lockResultStore_leaves : LeavesResults lockResultStore :=
  Act.keeps_lift fun s a s' h => by
    split_ifs at h
    cases h
    rfl

theorem announcePrefetch_leaves (src : Int) (msg : PrefetchMessage) :
    LeavesResults (announcePrefetch src msg) := by
  refine takeKey_leaves.keeps_bind fun key => ?_
  refine Act.Guarantees.keeps_bind (Act.keeps_emit fun h => h) fun _ => ?_
  refine Act.keeps_get.keeps_bind fun s => ?_
  cases s.pids with
  | nil => exact (Act.keeps_fail _).keeps_bind fun _ => Act.keeps_pure _
  | cons head slaves =>
    refine Act.Guarantees.keeps_bind ?_ fun _ => Act.keeps_pure _
    exact Act.Guarantees.forM (Act.keeps_composes _ _) fun pid _ => Act.keeps_emit fun h => h

theorem step_avoids_results (hi : AvoidsResults i) : LeavesResults (step codec i) := by
  refine (step_kind i).keeps_mono (fun s s' h => ?_) fun o ho hr => ?_
  · cases i with
    | message src msg =>
      cases msg <;>
        first | exact (congrArg resultsView h : resultsView (Kind.core _ s') = _) | cases hi
    | _ => exact (congrArg resultsView h : resultsView (Kind.core _ s') = _)
  · cases i with
    | message src msg => cases msg <;> cases o <;> first | exact ho | exact hr | exact hi
    | _ => cases o <;> first | exact ho | exact hr

/-- The bytes that a reader of the part gets, once the part is complete. -/
def readable (s : ActorServer) (key : Int) : Option Bytes :=
  match s.dataStore.getPartData key with
  | .ok (data, _) => data
  | .error _ => none

theorem readable_eq (ht : s.dataStore.Represents t) (key : Int) :
    readable s key = t.available key := by
  rw [readable, DataStore.getPartData_of_represents ht]
  rfl

/-- The check after which `handleGetResultPartsMessage` gives up. -/
def outOfRange (s : ActorServer) (r : ResultReqPart) : Bool :=
  match readable s r.resid with
  | none => false
  | some data => data.length < add64 r.offset r.size

/-- The requests of a message that its handler gets to. -/
def reached (s : ActorServer) (parts : List ResultReqPart) : List ResultReqPart :=
  parts.takeWhile fun r => !outOfRange s r

/-- The replies that a message gets at once. -/
def atOnce (s : ActorServer) : Input → List Output
  | .message _ (.getResultParts msg) =>
    (reached s msg.parts).filterMap fun r => (readable s r.resid).map fun data =>
      .resultPart msg.forwardTo (sent data r.offset r.size)
  | _ => []

/-- The requests of a message that wait for a part. -/
def newlyParked (s : ActorServer) (key : Int) : Input → List PendingResultRequest
  | .message src (.getResultParts msg) =>
    ((reached s msg.parts).filter fun r => readable s r.resid = none ∧ r.resid = key).map
      fun r => ⟨r.offset, r.size, src⟩
  | _ => []

/-- The message leaves the part under the key complete: a whole result, or the last bytes. -/
def Completes (s : ActorServer) (key : Int) : Input → Prop
  | .message _ (.storeResult msg) => msg.resId = key
  | .message _ (.storeResultPart msg) => msg.resId = key ∧
      (s.dataStore.dvParts key).map DvPart.remainingBytes = some msg.data.length
  | _ => False

instance (s : ActorServer) (key : Int) (i : Input) : Decidable (Completes s key i) := by
  unfold Completes
  split <;> infer_instance

/-- The part becomes complete. -/
def Became (s s' : ActorServer) (key : Int) : Prop :=
  readable s key = none ∧ readable s' key ≠ none

instance (s s' : ActorServer) (key : Int) : Decidable (Became s s' key) :=
  inferInstanceAs (Decidable (_ ∧ _))

/-- The key that a message is about. -/
def messageKey : Input → Option Int
  | .message _ (.storeResult msg) => some msg.resId
  | .message _ (.storeResultPart msg) => some msg.resId
  | _ => none

def results (out : List Output) : List Output := out.filter fun o => o matches .resultPart ..

theorem results_eq_nil (h : ∀ o ∈ out, ¬ IsResult o) : results out = [] := by
  refine List.filter_eq_nil_iff.mpr fun o ho => ?_
  have hno := h o ho
  cases o <;> first | exact absurd trivial hno | simp

theorem results_eq_self (h : ∀ o ∈ out, IsResult o) : results out = out := by
  refine List.filter_eq_self.mpr fun o ho => ?_
  have hyes := h o ho
  cases o <;> first | rfl | exact absurd hyes id

/-- What a step that returned did to the requests and to the complete parts. -/
structure Effect (s : ActorServer) (i : Input) (out : List Output) (s' : ActorServer) : Prop where
  represents : ∃ t', s'.dataStore.Represents t'
  parked : ∀ key, s'.parked key = s.parked key ++ newlyParked s key i
  replies : results out = atOnce s i ++
    match messageKey i with
    | none => []
    | some key => if Completes s key i then
        (s.parked key).map (replySent ((readable s' key).getD [])) else []
  completed : ∀ key, Completes s key i → readable s' key ≠ none
  became : ∀ key, Became s s' key → Completes s key i

theorem answerParts_reached {src forwardTo : Int} {parts : List ResultReqPart} {b : Bool}
    (ht : s.dataStore.Represents t)
    (h : answerParts src forwardTo parts s = (out, .ok (b, s'))) :
    out = ((reached s parts).filterMap fun r => (readable s r.resid).map fun data =>
        .resultPart forwardTo (sent data r.offset r.size)) ∧
      s' = { s with pendingResultRequests :=
        (reached s parts).foldl (park t src) s.pendingResultRequests } := by
  induction parts generalizing s out with
  | nil =>
    cases h
    exact ⟨rfl, rfl⟩
  | cons r parts ih =>
    unfold answerParts at h
    rw [getPartData_bind ht] at h
    have hread := readable_eq ht r.resid
    cases hav : t.available r.resid with
    | none =>
      have hget : (t.get r.resid).1 = none := hav
      rw [hav] at hread
      have hkeep : reached s (r :: parts) = r :: reached s parts :=
        List.takeWhile_cons_of_pos (by simp [outOfRange, hread])
      simp only [hget, Act.modify_bind] at h
      obtain ⟨hout, hs⟩ := ih (by exact ht) h
      refine ⟨?_, ?_⟩
      · rw [hout, hkeep, List.filterMap_cons_none (by rw [hread]; rfl)]
        rfl
      · rw [hs, hkeep, List.foldl_cons, park, if_pos hav]
        rfl
    | some data =>
      rw [hav] at hread
      by_cases hfar : data.length < add64 r.offset r.size
      · have hstop : reached s (r :: parts) = [] :=
          List.takeWhile_cons_of_neg (by simp [outOfRange, hread, hfar])
        simp only [PartTable.get_of_available hav, if_pos hfar] at h
        cases h
        rw [hstop]
        exact ⟨rfl, rfl⟩
      · have hkeep : reached s (r :: parts) = r :: reached s parts :=
          List.takeWhile_cons_of_pos (by simp [outOfRange, hread, hfar])
        simp only [PartTable.get_of_available hav, if_neg hfar] at h
        obtain ⟨out₁, u, s₁, out₂, h₁, h₂, rfl⟩ := Act.bind_ok_inv h
        obtain ⟨rfl, rfl⟩ := sendResultPart_inv h₁
        obtain ⟨hout, hs⟩ := ih ht h₂
        refine ⟨?_, ?_⟩
        · rw [hout, hkeep, List.filterMap_cons_some (by rw [hread]; rfl)]
          rfl
        · rw [hs, hkeep, List.foldl_cons, park,
            if_neg (by rw [hav]; exact Option.some_ne_none data)]

theorem parked_foldl (ht : s.dataStore.Represents t) (src : Int) (parts : List ResultReqPart)
    (key : Int) :
    (parts.foldl (park t src) s.pendingResultRequests key).getD [] = s.parked key ++
      (parts.filter fun r => readable s r.resid = none ∧ r.resid = key).map
        fun r => ⟨r.offset, r.size, src⟩ := by
  rw [foldl_park, late, List.filter_filter]
  congr 2
  refine List.filter_congr fun r _ => ?_
  rw [readable_eq ht, Bool.and_comm, ← Bool.decide_and]

/-- No key becomes complete when the parts stay as they are. -/
theorem not_became_of_readable (h : ∀ key, readable s' key = readable s key) (key : Int) :
    ¬ Became s s' key := by
  rintro ⟨hnone, hsome⟩
  exact hsome ((h key).trans hnone)

private theorem getResultParts_effect {src : Int} {msg : GetResultPartsMessage}
    (ht : s.dataStore.Represents t)
    (h : handleGetResultPartsMessage src msg s = (out, .ok ((), s'))) :
    Effect s (.message src (.getResultParts msg)) out s' := by
  obtain ⟨-, hbody⟩ := locked_inv h
  obtain ⟨out₁, b, s₁, out₂, h₁, h₂, rfl⟩ := Act.bind_ok_inv hbody
  obtain ⟨rfl, rfl⟩ := answerParts_reached (s := { s with resultStoreLock := true }) ht h₁
  have hs' : out₂ = [] ∧ s'.dataStore = s.dataStore ∧ s'.pendingResultRequests =
      (reached s msg.parts).foldl (park t src) s.pendingResultRequests := by
    cases b <;> cases h₂ <;> exact ⟨rfl, rfl, rfl⟩
  obtain ⟨rfl, hds, hpend⟩ := hs'
  have hread : ∀ key, readable s' key = readable s key := fun key => by rw [readable, hds]; rfl
  refine ⟨⟨t, hds ▸ ht⟩, fun key => ?_, ?_, fun _ hc => hc.elim,
    fun key hb => absurd hb (not_became_of_readable hread key)⟩
  · rw [parked, hpend]
    exact parked_foldl ht src _ key
  · rw [List.append_nil, results_eq_self]
    · exact (List.append_nil _).symm
    · intro o ho
      obtain ⟨r, -, hr⟩ := List.mem_filterMap.mp ho
      obtain ⟨data, -, rfl⟩ := Option.map_eq_some_iff.mp hr
      trivial

private theorem results_replies (key : Int) (requests : List PendingResultRequest) :
    results (requests.map (replySent (content t key))) = requests.map (replySent (content t key)) :=
  results_eq_self fun o ho => by
    obtain ⟨r, -, rfl⟩ := List.mem_map.mp ho
    trivial

/-- A key that became complete is the key that changed. -/
private theorem eq_of_became {k : Int} (ht : s.dataStore.Represents t)
    (ht' : s'.dataStore.Represents t')
    (hother : ∀ key, key ≠ k → t'.available key = t.available key) (hb : Became s s' key) :
    key = k := by
  obtain ⟨hnone, hsome⟩ := hb
  by_contra hne
  rw [readable_eq ht] at hnone
  rw [readable_eq ht', hother key hne] at hsome
  exact hsome hnone

private theorem storeResult_effect {src : Int} {msg : StoreResultMessage}
    (ht : s.dataStore.Represents t)
    (h : handleStoreResultMessage msg s = (out, .ok ((), s'))) :
    Effect s (.message src (.storeResult msg)) out s' := by
  have hl : s.resultStoreLock = false := (locked_inv h).1
  obtain ⟨t₁, ds, hap, hrep, rfl, rfl⟩ := handleStoreResultMessage_inv hl ht h
  obtain ⟨-, rfl⟩ := PartTable.store_inv hap
  have hread := readable_eq (s := { s with dataStore := ds }) hrep
  have hav : PartTable.available (t.set msg.resId (.ofMessage msg.data)) msg.resId =
      some msg.data := by
    rw [PartTable.available_set]
    rfl
  refine ⟨⟨_, hrep⟩, fun key => (List.append_nil _).symm, ?_, fun key hc => ?_, fun key hb => ?_⟩
  · rw [results_replies]
    simp only [atOnce, messageKey, Completes, if_true, List.nil_append, hread]
    rfl
  · obtain rfl : msg.resId = key := hc
    rw [hread, hav]
    exact Option.some_ne_none _
  · exact (eq_of_became ht hrep (fun _ hk => PartTable.available_set_of_ne hk) hb).symm

private theorem storeResultPart_effect {src : Int} {msg : StoreResultPartMessage}
    (ht : s.dataStore.Represents t)
    (h : handleStoreResultPartMessage msg s = (out, .ok ((), s'))) :
    Effect s (.message src (.storeResultPart msg)) out s' := by
  have hl : s.resultStoreLock = false := (locked_inv h).1
  obtain ⟨t₁, ds, hap, hrep, rfl, rfl⟩ := handleStoreResultPartMessage_inv hl ht h
  cases hadd : t.add msg.resId msg.data msg.offset with
  | error e =>
    rw [PartMessage.apply, hadd] at hap
    cases hap
  | ok r =>
    obtain ⟨remaining, t₂⟩ := r
    rw [PartMessage.apply, hadd] at hap
    cases hap
    obtain ⟨part, hfits, hk, hb, -, rfl⟩ := PartTable.add_inv hadd
    have hav := PartTable.available_set t msg.resId (part.write msg.data msg.offset hfits)
    rw [Part.write_remaining, Part.write_buffer hfits hb] at hav
    have hread := readable_eq (s := { s with dataStore := ds }) hrep
    have hle := hfits.2
    -- the piece is the last one when nothing is missing behind it
    have hlast : Completes s msg.resId (.message src (.storeResultPart msg)) ↔
        PartTable.available (t.set msg.resId (part.write msg.data msg.offset hfits)) msg.resId ≠
          none := by
      have hdv : (s.dataStore.dvParts msg.resId).map DvPart.remainingBytes = some part.remaining := by
        rw [ht.dvParts, hk]
        rfl
      simp only [Completes, true_and, hdv, Option.some_inj, hav]
      split_ifs with hpos
      · simp only [ne_eq, not_true_eq_false, iff_false]
        omega
      · simp only [ne_eq, reduceCtorEq, not_false_eq_true, iff_true]
        omega
    have hbecame : ∀ key, Became s { s with dataStore := ds } key → key = msg.resId := fun key hb =>
      eq_of_became ht hrep (fun _ hk => PartTable.available_set_of_ne hk) hb
    refine ⟨⟨_, hrep⟩, fun key => (List.append_nil _).symm, ?_, fun key hc => ?_, fun key hb => ?_⟩
    · simp only [atOnce, messageKey, List.nil_append, hread]
      by_cases hc : Completes s msg.resId (.message src (.storeResultPart msg))
      · rw [if_pos hc, if_neg (hlast.mp hc), results_replies]
        rfl
      · rw [if_neg hc, if_pos (not_not.mp fun hn => hc (hlast.mpr hn))]
        rfl
    · obtain rfl : msg.resId = key := hc.1
      rw [hread]
      exact hlast.mp hc
    · obtain rfl := hbecame key hb
      have hsome := hb.2
      rw [hread] at hsome
      exact hlast.mpr hsome

/-- Nobody is answered, nobody recorded, and no part becomes complete. -/
structure Quiet (s : ActorServer) (out : List Output) (s' : ActorServer) : Prop where
  pending : s'.pendingResultRequests = s.pendingResultRequests
  results : ∀ o ∈ out, ¬ IsResult o
  represents : ∀ t, s.dataStore.Represents t → ∃ t', s'.dataStore.Represents t' ∧
    ∀ key, t.available key = none → t'.available key = none

theorem quiet_composes : Act.Composes Quiet where
  nil _ := ⟨rfl, by simp, fun t ht => ⟨t, ht, fun _ h => h⟩⟩
  append h₁ h₂ := by
    refine ⟨h₂.pending.trans h₁.pending, fun o ho => ?_, fun t ht => ?_⟩
    · rcases List.mem_append.mp ho with ho | ho
      · exact h₁.results o ho
      · exact h₂.results o ho
    · obtain ⟨t₁, ht₁, hnone₁⟩ := h₁.represents t ht
      obtain ⟨t₂, ht₂, hnone₂⟩ := h₂.represents t₁ ht₁
      exact ⟨t₂, ht₂, fun key h => hnone₂ key (hnone₁ key h)⟩

theorem quiet_of_leaves {α : Type} {x : Handler α} (hx : LeavesResults x) :
    Act.Guarantees Quiet x := by
  intro s out a s' h
  obtain ⟨hview, hout⟩ := hx s out a s' h
  obtain ⟨hds, hpend⟩ := Prod.mk.inj hview
  exact ⟨hpend, hout, fun t ht => ⟨t, hds ▸ ht, fun _ h => h⟩⟩

theorem quiet_emit {o : Output} (ho : ¬ IsResult o) :
    Act.Guarantees Quiet (Act.emit o : Handler Unit) := quiet_of_leaves (Act.keeps_emit ho)

/-- An operation of the store that makes no part complete. -/
theorem quiet_updateDataStore {α : Type} {f : DataStore → Except Fault (α × DataStore)}
    (hf : ∀ ds t a ds', ds.Represents t → f ds = .ok (a, ds') → ∃ t', ds'.Represents t' ∧
      ∀ key, t.available key = none → t'.available key = none) :
    Act.Guarantees Quiet (updateDataStore f) := by
  intro s out a s' h
  obtain ⟨rfl, hs⟩ := Prod.mk.inj h
  dsimp only at hs
  cases hds : f s.dataStore with
  | error e =>
    rw [hds] at hs
    cases hs
  | ok r =>
    rw [hds] at hs
    cases hs
    exact ⟨rfl, by simp, fun t ht => hf s.dataStore t r.1 r.2 ht hds⟩

theorem preparePart_quiet (msg : PrefetchMessage) : Act.Guarantees Quiet (preparePart msg) := by
  have hbind := fun {α β : Type} {x : Handler α} {f : α → Handler β} =>
    Act.Guarantees.bind (x := x) (f := f) quiet_composes
  refine hbind (quiet_of_leaves (futures_leaves getIntraActorComm_onFutures)) fun comm =>
    hbind (quiet_of_leaves takeKey_leaves) fun key => ?_
  refine hbind (quiet_of_leaves lockResultStore_leaves) fun _ => hbind ?_ fun _ =>
    hbind (quiet_of_leaves (Act.keeps_modify fun _ => rfl)) fun _ =>
      quiet_of_leaves (Act.keeps_pure _)
  refine quiet_updateDataStore fun ds t a ds' ht h => ?_
  have href := DataStore.preparePartVector_refines ht key
    (sub64 (Distributions.BlockDistribution.divRange msg.dvSize comm.pid comm.nprocs).2
      (Distributions.BlockDistribution.divRange msg.dvSize comm.pid comm.nprocs).1)
  cases hds : ds.preparePartVector key
      (sub64 (Distributions.BlockDistribution.divRange msg.dvSize comm.pid comm.nprocs).2
        (Distributions.BlockDistribution.divRange msg.dvSize comm.pid comm.nprocs).1) with
  | error e =>
    rw [hds] at h
    cases h
  | ok ds₁ =>
    rw [hds] at h
    cases h
    obtain ⟨t', hstore, hrep⟩ := href.ok_inv hds
    obtain ⟨-, rfl⟩ := PartTable.store_inv hstore
    exact ⟨_, hrep, PartTable.available_prepared _⟩

theorem handlePrefetchMessage_quiet (src : Int) (msg : PrefetchMessage) :
    Act.Guarantees Quiet (handlePrefetchMessage src msg) := by
  have hbind := fun {α β : Type} {x : Handler α} {f : α → Handler β} =>
    Act.Guarantees.bind (x := x) (f := f) quiet_composes
  refine hbind (quiet_of_leaves (futures_leaves isHead_onFutures)) fun head => ?_
  cases head with
  | false => exact hbind (preparePart_quiet msg) fun _ => quiet_emit fun h => h
  | true =>
    exact hbind (quiet_of_leaves (announcePrefetch_leaves src msg)) fun _ =>
      hbind (preparePart_quiet msg) fun _ => quiet_of_leaves (Act.keeps_modify fun _ => rfl)

theorem handleReleaseResultPartMessage_quiet (resId : Int) :
    Act.Guarantees Quiet (handleReleaseResultPartMessage resId) := by
  refine (quiet_of_leaves lockResultStore_leaves).bind quiet_composes fun _ =>
    Act.Guarantees.bind quiet_composes ?_ fun _ => quiet_of_leaves (Act.keeps_modify fun _ => rfl)
  refine quiet_updateDataStore fun ds t a ds' ht h => ?_
  have href := DataStore.removePart_refines ht resId
  cases hds : ds.removePart resId with
  | error e =>
    rw [hds] at h
    cases h
  | ok ds₁ =>
    rw [hds] at h
    cases h
    obtain ⟨t', hremove, hrep⟩ := href.ok_inv hds
    unfold PartTable.remove at hremove
    split_ifs at hremove
    cases hremove
    exact ⟨_, hrep, fun key hnone => PartTable.available_erase resId hnone⟩

theorem Completes.messageKey_eq (h : Completes s key i) : messageKey i = some key := by
  unfold Completes at h
  split at h
  · exact congrArg some h
  · exact congrArg some h.1
  · exact h.elim

private theorem quiet_effect (ht : s.dataStore.Represents t) (hq : Quiet s out s')
    (hat : atOnce s i = []) (hpark : ∀ key, newlyParked s key i = []) (hkey : messageKey i = none) :
    Effect s i out s' := by
  obtain ⟨t', ht', hnone⟩ := hq.represents t ht
  have hno : ∀ key, ¬ Completes s key i := fun key hc => by
    rw [hc.messageKey_eq] at hkey
    cases hkey
  refine ⟨⟨t', ht'⟩, fun key => ?_, ?_, fun key hc => absurd hc (hno key), fun key hb => ?_⟩
  · rw [parked, hq.pending, hpark, List.append_nil]
    rfl
  · rw [results_eq_nil hq.results, hat, hkey]
    rfl
  · obtain ⟨hn, hsome⟩ := hb
    rw [readable_eq ht] at hn
    rw [readable_eq ht'] at hsome
    exact absurd (hnone key hn) hsome

theorem step_effect (ht : s.dataStore.Represents t) (h : step codec i s = (out, .ok ((), s'))) :
    Effect s i out s' := by
  by_cases hi : AvoidsResults i
  · refine quiet_effect ht (quiet_of_leaves (step_avoids_results hi) s out () s' h) ?_ ?_ ?_
    · unfold atOnce
      split <;> first | rfl | cases hi
    · intro key
      unfold newlyParked
      split <;> first | rfl | cases hi
    · unfold messageKey
      split <;> first | rfl | cases hi
  · cases i with
    | message src msg =>
      obtain ⟨-, -, hm⟩ := step_message_inv h
      cases msg with
      | storeResult msg => exact storeResult_effect ht hm
      | storeResultPart msg => exact storeResultPart_effect ht hm
      | getResultParts msg => exact getResultParts_effect ht hm
      | releaseResult resId =>
        exact quiet_effect ht (handleReleaseResultPartMessage_quiet resId s out () s' hm) rfl
          (fun _ => rfl) rfl
      | prefetch msg =>
        exact quiet_effect ht (handlePrefetchMessage_quiet src msg s out () s' hm) rfl
          (fun _ => rfl) rfl
      | _ => exact absurd trivial hi
    | _ => exact absurd trivial hi

/-- Who waits for a part, and who was answered since the run began. -/
structure Ledger where
  unanswered : Int → List PendingResultRequest
  answered : Int → List PendingResultRequest

/-- Nobody waits. -/
def Ledger.empty : Ledger := ⟨fun _ => [], fun _ => []⟩

/-- A part that becomes complete settles all who waited for it. -/
def Ledger.next (l : Ledger) (s : ActorServer) (i : Input) (s' : ActorServer) : Ledger where
  unanswered key := if Became s s' key then [] else l.unanswered key ++ newlyParked s key i
  answered key := if Became s s' key then l.answered key ++ l.unanswered key else l.answered key

/-- The replies that a step owes: those of the requests for complete parts, and one to each who
waits for the part that becomes complete. -/
def owed (l : Ledger) (s : ActorServer) (i : Input) (s' : ActorServer) : List Output :=
  atOnce s i ++
    match messageKey i with
    | none => []
    | some key => if Became s s' key then
        (l.unanswered key).map (replySent ((readable s' key).getD [])) else []

/-- Every step sends the replies that it owes and no others. -/
def AnsweredOnce (codec : Codec) : List Input → ActorServer → Ledger → Prop
  | [], _, _ => True
  | i :: is, s, l => ∀ out s', step codec i s = (out, .ok ((), s')) →
      (results out).Perm (owed l s i s') ∧ AnsweredOnce codec is s' (l.next s i s')

/-- No message completes the part of a key under which someone was answered after waiting. -/
def CompletedOnce (codec : Codec) : List Input → ActorServer → Ledger → Prop
  | [], _, _ => True
  | i :: is, s, l => ∀ out s', step codec i s = (out, .ok ((), s')) →
      (∀ key, Completes s key i → l.answered key = []) ∧ CompletedOnce codec is s' (l.next s i s')

/-- The server records everyone, answered or not. -/
def Ledger.Recorded (l : Ledger) (s : ActorServer) : Prop :=
  (∀ key, s.parked key = l.answered key ++ l.unanswered key) ∧
    ∀ key, readable s key ≠ none → l.unanswered key = []

theorem newlyParked_of_readable (h : readable s key ≠ none) : newlyParked s key i = [] := by
  unfold newlyParked
  split
  · refine List.map_eq_nil_iff.mpr (List.filter_eq_nil_iff.mpr fun r _ hr => ?_)
    obtain ⟨hnone, rfl⟩ := of_decide_eq_true hr
    exact h hnone
  · rfl

theorem Ledger.Recorded.step {l : Ledger} (hl : l.Recorded s) (he : Effect s i out s') :
    (l.next s i s').Recorded s' := by
  refine ⟨fun key => ?_, fun key hread => ?_⟩
  · rw [he.parked, hl.1, next]
    dsimp only
    split_ifs with hb
    · have hnone : newlyParked s key i = [] := by
        unfold newlyParked
        split
        · exact (he.became key hb).elim
        · rfl
      rw [hnone]
    · rw [List.append_assoc]
  · rw [next]
    dsimp only
    split_ifs with hb
    · rfl
    · have hbefore : readable s key ≠ none := fun hnone => hb ⟨hnone, hread⟩
      rw [hl.2 key hbefore, newlyParked_of_readable hbefore]
      rfl

theorem step_owed_iff {l : Ledger} (hl : l.Recorded s) (he : Effect s i out s') :
    (results out).Perm (owed l s i s') ↔ ∀ key, Completes s key i → l.answered key = [] := by
  rw [he.replies, owed, List.perm_append_left_iff]
  cases hk : messageKey i with
  | none =>
    refine ⟨fun _ key hc => ?_, fun _ => .refl _⟩
    rw [hc.messageKey_eq] at hk
    cases hk
  | some key =>
    have hkey : ∀ key', Completes s key' i → key' = key := fun key' hc => by
      rw [hc.messageKey_eq] at hk
      exact Option.some.inj hk
    have hall : (∀ key', Completes s key' i → l.answered key' = []) ↔
        (Completes s key i → l.answered key = []) :=
      ⟨fun h => h key, fun h key' hc => by
        obtain rfl := hkey key' hc
        exact h hc⟩
    have hanswered : ∀ f : PendingResultRequest → Output,
        ((s.parked key).map f).Perm ((l.unanswered key).map f) ↔ l.answered key = [] := by
      intro f
      rw [hl.1]
      constructor
      · intro hp
        have hlen := hp.length_eq
        rw [List.length_map, List.length_map, List.length_append] at hlen
        exact List.eq_nil_of_length_eq_zero (by omega)
      · intro hnil
        rw [hnil, List.nil_append]
    rw [hall]
    dsimp only
    by_cases hc : Completes s key i
    · rw [if_pos hc, ← hanswered (replySent ((readable s' key).getD []))]
      by_cases hb : Became s s' key
      · rw [if_pos hb]
        exact ⟨fun h _ => h, fun h => h hc⟩
      · have hread : readable s key ≠ none := fun hnone => hb ⟨hnone, he.completed key hc⟩
        rw [if_neg hb, hl.2 key hread]
        exact ⟨fun h _ => h, fun h => h hc⟩
    · rw [if_neg hc, if_neg fun hb => hc (he.became key hb)]
      exact ⟨fun _ h => absurd h hc, fun _ => .refl _⟩

/-- In a run whose handlers return, every request that waits for a part is answered exactly once,
when its part becomes complete, exactly when no message completes the part of a key under which
someone was answered after waiting. -/
theorem answered_once_iff {is : List Input} {l : Ledger} {outs : List (List Output)}
    (ht : s.dataStore.Represents t) (hl : l.Recorded s)
    (h : Act.trace (step codec) is s = (outs, .ok s')) :
    AnsweredOnce codec is s l ↔ CompletedOnce codec is s l := by
  induction is generalizing s t l outs with
  | nil => exact Iff.rfl
  | cons i is ih =>
    obtain ⟨out, s₁, outs', hi, hrun, rfl⟩ := Act.trace_cons_inv h
    have he := step_effect ht hi
    obtain ⟨t₁, ht₁⟩ := he.represents
    have hstep := step_owed_iff hl he
    have hrest := ih ht₁ (hl.step he) hrun
    have honly : ∀ out' s₂, step codec i s = (out', .ok ((), s₂)) → out' = out ∧ s₂ = s₁ := by
      intro out' s₂ h₂
      rw [hi] at h₂
      cases h₂
      exact ⟨rfl, rfl⟩
    constructor
    · intro hp out' s₂ h₂
      obtain ⟨rfl, rfl⟩ := honly out' s₂ h₂
      obtain ⟨hnow, hlater⟩ := hp out' s₂ hi
      exact ⟨hstep.mp hnow, hrest.mp hlater⟩
    · intro hp out' s₂ h₂
      obtain ⟨rfl, rfl⟩ := honly out' s₂ h₂
      obtain ⟨hnow, hlater⟩ := hp out' s₂ hi
      exact ⟨hstep.mpr hnow, hrest.mpr hlater⟩

section Twice

/-- Client 9 asks for the part of key 1, which process 4 sends and client 9 releases. -/
def sampleRun : List Input :=
  [.message 9 (.getResultParts ⟨9, [⟨1, 0, 1, 0⟩]⟩), .message 4 (.storeResult ⟨1, [10]⟩),
    .message 9 (.releaseResult 1)]

/-- The process after the first message, with the parts that it then keeps. -/
def sampleServer (ds : DataStore) : ActorServer :=
  { pid := 1, pendingResultRequests := PartialMap.empty.set 1 [⟨0, 1, 9⟩], dataStore := ds }

def storedOnce : DataStore :=
  ⟨.empty, PartialMap.empty.insert 1 ⟨1, [10]⟩, PartialMap.empty.set 1 ⟨1, 1, .messageStore, 0⟩⟩

def released : DataStore := ⟨.empty, storedOnce.resultMsgStore.erase 1, storedOnce.dvParts.erase 1⟩

def storedTwice : DataStore :=
  ⟨.empty, released.resultMsgStore.insert 1 ⟨1, [11]⟩,
    released.dvParts.set 1 ⟨1, 1, .messageStore, 0⟩⟩

variable (codec)

theorem sample_asked : step codec (.message 9 (.getResultParts ⟨9, [⟨1, 0, 1, 0⟩]⟩)) { pid := 1 } =
    ([], .ok ((), sampleServer .empty)) := rfl

theorem sample_stored : step codec (.message 4 (.storeResult ⟨1, [10]⟩)) (sampleServer .empty) =
    ([.resultPart 9 [10]], .ok ((), sampleServer storedOnce)) := rfl

theorem sample_released : step codec (.message 9 (.releaseResult 1)) (sampleServer storedOnce) =
    ([], .ok ((), sampleServer released)) := rfl

theorem sample_stored_again :
    step codec (.message 4 (.storeResult ⟨1, [11]⟩)) (sampleServer released) =
      ([.resultPart 9 [11]], .ok ((), sampleServer storedTwice)) := rfl

end Twice

/-- When process 4 sends the part again, client 9 gets a second reply to its one request. -/
theorem answered_twice :
    ¬ AnsweredOnce Serialization.ArchiveFormat.sampleFormat.codec
      (sampleRun ++ [.message 4 (.storeResult ⟨1, [11]⟩)]) { pid := 1 } .empty := by
  intro h
  obtain ⟨-, h⟩ := h _ _ (sample_asked _)
  obtain ⟨-, h⟩ := h _ _ (sample_stored _)
  obtain ⟨-, h⟩ := h _ _ (sample_released _)
  have hlen := (h _ _ (sample_stored_again _)).1.length_eq
  exact absurd hlen (by decide +kernel)

/-- Up to there it got one. -/
theorem answered_once_sample :
    AnsweredOnce Serialization.ArchiveFormat.sampleFormat.codec sampleRun { pid := 1 } .empty := by
  have hrun : Act.trace (step Serialization.ArchiveFormat.sampleFormat.codec) sampleRun
      { pid := 1 } = ([[], [.resultPart 9 [10]], []], .ok (sampleServer released)) := by
    rw [sampleRun, Act.trace_cons_of_ok (sample_asked _), Act.trace_cons_of_ok (sample_stored _),
      Act.trace_cons_of_ok (sample_released _), Act.trace_nil]
  refine (answered_once_iff (s := { pid := 1 }) DataStore.empty_represents
    ⟨fun _ => rfl, fun _ hread => absurd rfl hread⟩ hrun).mpr ?_
  intro out s₁ h₁
  rw [sample_asked] at h₁
  cases h₁
  refine ⟨fun _ hc => hc.elim, fun out s₂ h₂ => ?_⟩
  rw [sample_stored] at h₂
  cases h₂
  refine ⟨fun _ _ => rfl, fun out s₃ h₃ => ?_⟩
  exact ⟨fun _ hc => hc.elim, trivial⟩

end ActiveBsp.ParkedRequests
