import ActiveBsp.Management.BesideParked
import ActiveBsp.Management.PieceDelivery
import ActiveBsp.Management.ResultStoreLock

/-!
# What an invalid request for parts leaves behind

A request that its part refuses keeps the lock. One that waits for its part is
only looked at when the part is there, by a send that does not test the range:
the misfit then breaks the handler that brings the part.
-/
namespace ActiveBsp.ActorServer

open Library Library.Buffer Library.MachineInt

set_option autoImplicit false

variable {codec : Codec} {s s' s₁ : ActorServer} {out : List Output} {src forwardTo key : Int}

/-- The part is not there, so that the request waits for it. -/
def Waits (ds : DataStore) (part : ResultReqPart) : Prop :=
  ∃ size, ds.getPartData part.resid = .ok (none, size)

def Serves (ds : DataStore) (key : Int) (request : PendingResultRequest) : Prop :=
  match ds.getPartData key with
  | .error _ => False
  | .ok (data, _) => ¬ Unsendable (data.getD []) request.offset request.size

theorem serves_iff {request : PendingResultRequest} {ds : DataStore} {data : Option Bytes}
    {size : Nat} (h : ds.getPartData key = .ok (data, size)) :
    Serves ds key request ↔ ¬ Unsendable (data.getD []) request.offset request.size := by
  rw [Serves, h]

theorem getPartData_of_ok {r : Option Bytes × Nat} (h : s.dataStore.getPartData key = .ok r) :
    getPartData key s = ([], .ok (r, s)) := by
  simp only [getPartData, Act.lift_apply, h]
  rfl

theorem getPartData_inv {r : Option Bytes × Nat} (h : getPartData key s = (out, .ok (r, s'))) :
    out = [] ∧ s' = s ∧ s.dataStore.getPartData key = .ok r := by
  obtain ⟨rfl, hget⟩ := Prod.mk.inj h
  dsimp only at hget
  cases hds : s.dataStore.getPartData key with
  | error e =>
    rw [hds] at hget
    cases hget
  | ok r' =>
    rw [hds] at hget
    cases hget
    exact ⟨rfl, rfl, rfl⟩

theorem getPartData_bind_of_ok {β : Type} {r : Option Bytes × Nat}
    (h : s.dataStore.getPartData key = .ok r) (f : Option Bytes × Nat → Handler β) :
    (getPartData key >>= f) s = f r s := by
  rw [Act.bind_of_ok (getPartData_of_ok h)]
  rfl

theorem answerParked_eq {request : PendingResultRequest} {r : Option Bytes × Nat}
    (h : s.dataStore.getPartData key = .ok r) :
    answerParked key request s =
      sendResultPart request.dst (r.1.getD []) request.offset request.size s :=
  getPartData_bind_of_ok h _

theorem answerParked_of_serves {request : PendingResultRequest}
    (h : Serves s.dataStore key request) : (answerParked key request s).2 = .ok ((), s) := by
  cases hget : s.dataStore.getPartData key with
  | error e =>
    rw [Serves, hget] at h
    exact h.elim
  | ok r => rw [answerParked_eq hget, sendResultPart_eq, if_neg ((serves_iff hget).mp h)]

theorem serves_of_answerParked {request : PendingResultRequest} {u : Unit}
    (h : answerParked key request s = (out, .ok (u, s'))) :
    Serves s.dataStore key request ∧ s' = s := by
  cases hget : s.dataStore.getPartData key with
  | error e =>
    have hfail : getPartData key s = ([], .error e) := by
      simp only [getPartData, Act.lift_apply, hget]
      rfl
    cases (Act.bind_of_error hfail _).symm.trans h
  | ok r =>
    rw [answerParked_eq hget, sendResultPart_eq] at h
    rw [serves_iff hget]
    by_cases hbad : Unsendable (r.1.getD []) request.offset request.size
    · rw [if_pos hbad] at h
      cases h
    · rw [if_neg hbad] at h
      cases h
      exact ⟨hbad, rfl⟩

/-- The check returns when the store can serve all who wait for the part. -/
theorem checkDvPartRequired_of_serves (hl : Free s)
    (h : ∀ request ∈ s.parked key, Serves s.dataStore key request) :
    ∃ out, checkDvPartRequired key s = (out, .ok ((), s)) := by
  unfold checkDvPartRequired
  rw [Act.get_bind]
  cases hp : s.pendingResultRequests key with
  | none => exact ⟨[], rfl⟩
  | some requests =>
    have hbody : ∀ request ∈ requests, answerParked key request { s with resultStoreLock := true } =
        ((answerParked key request { s with resultStoreLock := true }).1,
          .ok ((), { s with resultStoreLock := true })) := by
      intro request hr
      have hserves : Serves s.dataStore key request := h request (by rw [parked, hp]; exact hr)
      exact Prod.ext rfl (answerParked_of_serves (s := { s with resultStoreLock := true }) hserves)
    dsimp only
    rw [Act.bind_of_ok (lockResultStore_of_free hl), Act.bind_of_ok (Act.forM_emitting hbody),
      unlockResultStore, Act.modify_apply, unlocked hl]
    exact ⟨_, rfl⟩

theorem serves_of_checkDvPartRequired (h : checkDvPartRequired key s = (out, .ok ((), s'))) :
    (∀ request ∈ s.parked key, Serves s.dataStore key request) ∧ s' = s := by
  unfold checkDvPartRequired at h
  rw [Act.get_bind] at h
  cases hp : s.pendingResultRequests key with
  | none =>
    rw [hp] at h
    cases h
    rw [parked, hp]
    exact ⟨by simp, rfl⟩
  | some requests =>
    rw [hp] at h
    dsimp only at h
    obtain ⟨hl, hbody⟩ := locked_inv h
    obtain ⟨out₁, u, s₁, out₂, hloop, hunlock, -⟩ := Act.bind_ok_inv hbody
    obtain ⟨rfl, hall⟩ :=
      Act.forM_returned (fun _ _ _ _ _ hr => (serves_of_answerParked hr).2) hloop
    cases hunlock
    refine ⟨fun request hr => ?_, unlocked hl⟩
    rw [parked, hp] at hr
    obtain ⟨out', hone⟩ := hall request hr
    exact (serves_of_answerParked hone).1

/-- The key whose part the input completes, and the store that its requests are answered from. -/
def arrival (s : ActorServer) : Input → Option (Int × DataStore)
  | .message _ (.storeResult msg) =>
    (s.dataStore.storePartMessage msg.resId msg).toOption.map fun ds => (msg.resId, ds)
  | .message _ (.storeResultPart msg) =>
    match s.dataStore.addData msg.resId msg.data msg.offset with
    | .ok (0, ds) => some (msg.resId, ds)
    | _ => none
  | _ => none

/-- An input that only writes the store, or checks who waits for the part that it completes. -/
inductive Delivers (codec : Codec) (s : ActorServer) (i : Input) : Prop
  | completes (free : Free s) (key : Int) (ds : DataStore)
      (arrival_eq : arrival s i = some (key, ds))
      (run : ∀ p, step codec i (withPending p s) =
        checkDvPartRequired key (withPending p { s with dataStore := ds }))
  | writes (ds : DataStore) (arrival_eq : arrival s i = none)
      (run : ∀ p, step codec i (withPending p s) =
        ([], .ok ((), withPending p { s with dataStore := ds })))

theorem storeResult_delivers {msg : StoreResultMessage}
    (h : step codec (.message src (.storeResult msg)) s = (out, .ok ((), s'))) :
    Delivers codec s (.message src (.storeResult msg)) := by
  obtain ⟨hp, hq, hrun⟩ := step_message_inv h
  have hl : Free s := (locked_inv hrun).1
  have hstep : ∀ p, step codec (.message src (.storeResult msg)) (withPending p s) =
      handleStoreResultMessage msg (withPending p s) := fun p =>
    step_message (s := withPending p s) hp hq src _
  have hstore : handleStoreResultMessage msg s = _ := locked_update hl
  cases hds : s.dataStore.storePartMessage msg.resId msg with
  | error e =>
    rw [hds] at hstore
    cases hstore.symm.trans hrun
  | ok ds =>
    refine .completes hl msg.resId ds (by rw [arrival, hds]; rfl) fun p => ?_
    rw [hstep]
    unfold handleStoreResultMessage
    rw [locked_update (s := withPending p s) hl]
    simp only [withPending, hds]
    rfl

theorem storeResultPart_delivers {msg : StoreResultPartMessage}
    (h : step codec (.message src (.storeResultPart msg)) s = (out, .ok ((), s'))) :
    Delivers codec s (.message src (.storeResultPart msg)) := by
  obtain ⟨hp, hq, hrun⟩ := step_message_inv h
  have hl : Free s := (locked_inv hrun).1
  have hstep : ∀ p, step codec (.message src (.storeResultPart msg)) (withPending p s) =
      handleStoreResultPartMessage msg (withPending p s) := fun p =>
    step_message (s := withPending p s) hp hq src _
  have hadd : handleStoreResultPartMessage msg s = _ := locked_update hl
  cases hds : s.dataStore.addData msg.resId msg.data msg.offset with
  | error e =>
    rw [hds] at hadd
    cases hadd.symm.trans hrun
  | ok r =>
    obtain ⟨remaining, ds⟩ := r
    have hrest : ∀ p, handleStoreResultPartMessage msg (withPending p s) =
        (if remaining = 0 then checkDvPartRequired msg.resId else pure ())
          (withPending p { s with dataStore := ds }) := by
      intro p
      unfold handleStoreResultPartMessage
      rw [locked_update (s := withPending p s) hl]
      simp only [withPending, hds]
    cases remaining with
    | zero =>
      exact .completes hl msg.resId ds (by simp only [arrival, hds]) fun p =>
        (hstep p).trans (hrest p)
    | succ remaining =>
      exact .writes ds (by simp only [arrival, hds]) fun p => (hstep p).trans (hrest p)

/-- More requests wait than the record of `s` says. -/
def Beyond (extra : Int → PendingResultRequest → Prop) (s : ActorServer)
    (p : PartialMap Int (List PendingResultRequest)) : Prop :=
  ∀ key request, request ∈ (p key).getD [] ↔ request ∈ s.parked key ∨ extra key request

def ServedBy (extra : Int → PendingResultRequest → Prop) (s : ActorServer) (i : Input) : Prop :=
  ∀ key ds, arrival s i = some (key, ds) → ∀ request, extra key request → Serves ds key request

variable {extra : Int → PendingResultRequest → Prop}
  {p : PartialMap Int (List PendingResultRequest)}

theorem mem_set_append {request new : PendingResultRequest} {resid : Int} :
    request ∈ ((p.set resid ((p resid).getD [] ++ [new])) key).getD [] ↔
      request ∈ (p key).getD [] ∨ resid = key ∧ request = new := by
  by_cases hk : key = resid
  · subst hk
    rw [PartialMap.set_self, Option.getD_some, List.mem_append, List.mem_singleton]
    simp
  · rw [PartialMap.set_of_ne _ _ hk]
    simp [Ne.symm hk]

theorem Beyond.park (h : Beyond extra s p) (resid : Int) (new : PendingResultRequest) :
    Beyond extra
      (withPending (s.pendingResultRequests.set resid (s.parked resid ++ [new])) s)
      (p.set resid ((p resid).getD [] ++ [new])) := by
  intro key request
  have hnew := @mem_set_append key s.pendingResultRequests request new resid
  rw [mem_set_append, h key request, or_right_comm]
  exact or_congr_left hnew.symm

/-- The loop answers and parks the same, whoever waits already. -/
theorem answerParts_beyond {parts : List ResultReqPart} {b : Bool} (h : Beyond extra s p)
    (hrun : answerParts src forwardTo parts s = (out, .ok (b, s₁))) :
    ∃ p₁, answerParts src forwardTo parts (withPending p s) = (out, .ok (b, withPending p₁ s₁)) ∧
      Beyond extra s₁ p₁ := by
  induction parts generalizing s p out with
  | nil =>
    cases hrun
    exact ⟨p, rfl, h⟩
  | cons part parts ih =>
    unfold answerParts at hrun ⊢
    obtain ⟨out₁, ⟨data, dataSize⟩, s₂, out₂, hread, hrest, rfl⟩ := Act.bind_ok_inv hrun
    obtain ⟨rfl, rfl, -⟩ := getPartData_inv hread
    rw [Act.bind_of_ok ((getPartData_beside part.resid).of_ok hread)]
    cases data with
    | none =>
      simp only [Act.modify_bind] at hrest ⊢
      obtain ⟨p₁, hsame, hbeyond⟩ := ih (h.park part.resid ⟨part.offset, part.size, src⟩) hrest
      exact ⟨p₁, hsame, hbeyond⟩
    | some data =>
      dsimp only at hrest ⊢
      by_cases htest : dataSize < add64 part.offset part.size
      · rw [if_pos htest] at hrest ⊢
        cases hrest
        exact ⟨p, rfl, h⟩
      · rw [if_neg htest] at hrest ⊢
        obtain ⟨out₃, u, s₃, out₄, hsend, hloop, rfl⟩ := Act.bind_ok_inv hrest
        obtain rfl := sendResultPart_keeps hsend
        obtain ⟨p₁, hsame, hbeyond⟩ := ih h hloop
        refine ⟨p₁, ?_, hbeyond⟩
        rw [Act.bind_of_ok ((sendResultPart_beside _ _ _ _).of_ok hsend), hsame]

theorem getResultParts_beyond {msg : GetResultPartsMessage} (h : Beyond extra s p)
    (hrun : handleGetResultPartsMessage src msg s = (out, .ok ((), s₁))) :
    ∃ p₁, handleGetResultPartsMessage src msg (withPending p s) =
        (out, .ok ((), withPending p₁ s₁)) ∧ Beyond extra s₁ p₁ := by
  obtain ⟨hl, hbody⟩ := locked_inv hrun
  obtain ⟨out₁, answered, s₂, out₂, hloop, hend, rfl⟩ := Act.bind_ok_inv hbody
  obtain ⟨p₁, hsame, hbeyond⟩ :=
    answerParts_beyond (s := { s with resultStoreLock := true }) h hloop
  have hlocked : handleGetResultPartsMessage src msg (withPending p s) =
      (answerParts src msg.forwardTo msg.parts >>= fun answered =>
        if answered = true then unlockResultStore else pure ())
          (withPending p { s with resultStoreLock := true }) :=
    Act.bind_of_ok (lockResultStore_of_free (s := withPending p s) hl) _
  rw [hlocked, Act.bind_of_ok hsame]
  cases answered with
  | true =>
    cases hend
    exact ⟨p₁, rfl, hbeyond⟩
  | false =>
    cases hend
    exact ⟨p₁, rfl, hbeyond⟩

theorem Delivers.step_beyond {i : Input} (hd : Delivers codec s i) (h : Beyond extra s p)
    (hrun : step codec i s = (out, .ok ((), s₁))) (hby : ServedBy extra s i) :
    ∃ out' p₁, step codec i (withPending p s) = (out', .ok ((), withPending p₁ s₁)) ∧
      Beyond extra s₁ p₁ := by
  cases hd with
  | completes free key ds arrival_eq run =>
    have hown : checkDvPartRequired key { s with dataStore := ds } = (out, .ok ((), s₁)) :=
      (run s.pendingResultRequests).symm.trans hrun
    obtain ⟨hserved, rfl⟩ := serves_of_checkDvPartRequired hown
    have hall : ∀ request ∈ (withPending p { s with dataStore := ds }).parked key,
        Serves ds key request := by
      intro request hr
      rcases (h key request).mp hr with hr | hr
      · exact hserved request hr
      · exact hby key ds arrival_eq request hr
    obtain ⟨out', hcheck⟩ :=
      checkDvPartRequired_of_serves (s := withPending p { s with dataStore := ds }) free hall
    exact ⟨out', p, (run p).trans hcheck, h⟩
  | writes ds arrival_eq run =>
    have hown := (run s.pendingResultRequests).symm.trans hrun
    cases hown
    exact ⟨[], p, run p, h⟩

theorem Delivers.servedBy {i : Input} {out' : List Output} {s₁' : ActorServer}
    (hd : Delivers codec s i) (h : Beyond extra s p)
    (hrun : step codec i (withPending p s) = (out', .ok ((), s₁'))) : ServedBy extra s i := by
  intro key ds harrival request hextra
  cases hd with
  | completes free key' ds' arrival_eq run =>
    rw [arrival_eq] at harrival
    cases harrival
    rw [run] at hrun
    exact (serves_of_checkDvPartRequired hrun).1 request ((h key request).mpr (.inr hextra))
  | writes ds' arrival_eq run =>
    rw [arrival_eq] at harrival
    cases harrival

/-- What is handled is handled beside more who wait, if what it brings serves them. -/
theorem Beyond.step {i : Input} (h : Beyond extra s p)
    (hrun : step codec i s = (out, .ok ((), s₁))) (hby : ServedBy extra s i) :
    ∃ out' p₁, step codec i (withPending p s) = (out', .ok ((), withPending p₁ s₁)) ∧
      Beyond extra s₁ p₁ := by
  by_cases hi : MeetsParked i
  · rcases i with ⟨src, msg⟩ | _ | _ | _ | _
    · cases msg with
      | storeResult msg => exact (storeResult_delivers hrun).step_beyond h hrun hby
      | storeResultPart msg => exact (storeResultPart_delivers hrun).step_beyond h hrun hby
      | getResultParts msg =>
        obtain ⟨hp, hq, hhandle⟩ := step_message_inv hrun
        obtain ⟨p₁, hsame, hbeyond⟩ := getResultParts_beyond h hhandle
        exact ⟨out, p₁, (step_message (s := withPending p s) hp hq src _).trans hsame, hbeyond⟩
      | _ => exact hi.elim
    all_goals exact hi.elim
  · refine ⟨out, p, (step_beside hi).of_ok hrun, fun key request => ?_⟩
    rw [parked, step_keeps_pending hi hrun]
    exact h key request

theorem servedBy_of_step {i : Input} {out' : List Output} {s₁' : ActorServer}
    (h : Beyond extra s p) (hrun : step codec i s = (out, .ok ((), s₁)))
    (hrun' : step codec i (withPending p s) = (out', .ok ((), s₁'))) : ServedBy extra s i := by
  by_cases hi : MeetsParked i
  · rcases i with ⟨src, msg⟩ | _ | _ | _ | _
    · cases msg with
      | storeResult msg => exact (storeResult_delivers hrun).servedBy h hrun'
      | storeResultPart msg => exact (storeResultPart_delivers hrun).servedBy h hrun'
      | getResultParts msg => exact fun _ _ harrival => by cases harrival
      | _ => exact hi.elim
    all_goals exact hi.elim
  · intro key ds harrival
    unfold arrival at harrival
    split at harrival <;> first | exact absurd trivial hi | cases harrival

/-- A run is handled beside more who wait, if all that it brings serves them. -/
theorem Beyond.run {is : List Input} {outs : List (List Output)} (h : Beyond extra s p)
    (hrun : Act.trace (ActorServer.step codec) is s = (outs, .ok s₁))
    (hby : Act.Along (ActorServer.step codec) (ServedBy extra) is s) :
    ∃ outs' p₁, Act.trace (ActorServer.step codec) is (withPending p s) =
      (outs', .ok (withPending p₁ s₁)) := by
  induction is generalizing s p outs with
  | nil =>
    cases hrun
    exact ⟨[], p, rfl⟩
  | cons i is ih =>
    obtain ⟨out, s₂, outs₂, hi, hrest, rfl⟩ := Act.trace_cons_inv hrun
    obtain ⟨out', p₂, hi', hbeyond⟩ := h.step hi hby.1
    obtain ⟨outs', p₁, hrest'⟩ := ih hbeyond hrest (hby.2 out s₂ hi)
    exact ⟨_, p₁, by rw [Act.trace_cons_of_ok hi', hrest']⟩

/-- And only then. -/
theorem Beyond.along {is : List Input} {outs outs' : List (List Output)} {s₁' : ActorServer}
    (h : Beyond extra s p) (hrun : Act.trace (ActorServer.step codec) is s = (outs, .ok s₁))
    (hrun' : Act.trace (ActorServer.step codec) is (withPending p s) = (outs', .ok s₁')) :
    Act.Along (ActorServer.step codec) (ServedBy extra) is s := by
  induction is generalizing s p outs outs' with
  | nil => trivial
  | cons i is ih =>
    obtain ⟨out, s₂, outs₂, hi, hrest, rfl⟩ := Act.trace_cons_inv hrun
    obtain ⟨out', s₂', outs₂', hi', hrest', rfl⟩ := Act.trace_cons_inv hrun'
    have hby := servedBy_of_step h hi hi'
    refine ⟨hby, fun out₃ s₃ h₃ => ?_⟩
    obtain ⟨out₄, p₂, hsame, hbeyond⟩ := h.step hi hby
    rw [hi] at h₃
    cases h₃
    rw [hi'] at hsame
    cases hsame
    exact ih hbeyond hrest hrest'

/-- Those of the requests that wait for their part. -/
def waiting (ds : DataStore) (src : Int) (parts : List ResultReqPart) (key : Int)
    (request : PendingResultRequest) : Prop :=
  ∃ part ∈ parts, Waits ds part ∧ part.resid = key ∧ request = ⟨part.offset, part.size, src⟩

/-- A loop that runs to its end has parked the requests for parts that are not there. -/
theorem answerParts_parks {parts : List ResultReqPart}
    (hrun : answerParts src forwardTo parts s = (out, .ok (true, s₁))) :
    ∃ p, s₁ = withPending p s ∧ Beyond (waiting s.dataStore src parts) s p := by
  induction parts generalizing s out with
  | nil =>
    cases hrun
    exact ⟨s₁.pendingResultRequests, rfl, fun key request => by simp [waiting, parked]⟩
  | cons part parts ih =>
    unfold answerParts at hrun
    obtain ⟨out₁, ⟨data, dataSize⟩, s₂, out₂, hread, hrest, rfl⟩ := Act.bind_ok_inv hrun
    obtain ⟨rfl, rfl, hget⟩ := getPartData_inv hread
    have hcons : ∀ key request, waiting s₂.dataStore src (part :: parts) key request ↔
        (Waits s₂.dataStore part ∧ part.resid = key ∧ request = ⟨part.offset, part.size, src⟩) ∨
          waiting s₂.dataStore src parts key request := fun key request => by
      simp [waiting]
    cases data with
    | none =>
      have hwaits : Waits s₂.dataStore part := ⟨dataSize, hget⟩
      simp only [Act.modify_bind] at hrest
      obtain ⟨p, rfl, hbeyond⟩ := ih hrest
      refine ⟨p, rfl, fun key request => ?_⟩
      rw [hbeyond key request, hcons, and_iff_right hwaits, ← or_assoc]
      exact or_congr_left (mem_set_append (p := s₂.pendingResultRequests))
    | some data =>
      have hwaits : ¬ Waits s₂.dataStore part := by
        rintro ⟨size, hnone⟩
        rw [hget] at hnone
        cases hnone
      dsimp only at hrest
      by_cases htest : dataSize < add64 part.offset part.size
      · rw [if_pos htest] at hrest
        cases hrest
      · rw [if_neg htest] at hrest
        obtain ⟨out₃, u, s₃, out₄, hsend, hloop, rfl⟩ := Act.bind_ok_inv hrest
        obtain rfl := sendResultPart_keeps hsend
        obtain ⟨p, rfl, hbeyond⟩ := ih hloop
        refine ⟨p, rfl, fun key request => ?_⟩
        rw [hbeyond key request, hcons, or_iff_right (a := Waits _ _ ∧ _) fun hw => hwaits hw.1]

/-- What is promised of a request for parts: the store and the futures are as before, the lock is
free, every read of the worker goes on, and all following inputs that the server would have
handled without the request it handles, and reads of the worker then give the same. -/
structure Intact (codec : Codec) (is : List Input) (s s' : ActorServer) : Prop where
  dataStore : s'.dataStore = s.dataStore
  futures : s'.futureDataStore = s.futureDataStore ∧
    s'.pendingFutureRequests = s.pendingFutureRequests ∧
    s'.askedFutureDelete = s.askedFutureDelete ∧ s'.askedFetch = s.askedFetch
  free : Free s'
  nextInput : ∀ i, (step codec i s').2 ≠ .error .deadlock
  nextRead : ∀ buf dst key offset size,
    (readStoredResult buf dst key offset size s').2 ≠ .error .deadlock
  following : ∀ outs s₁, Act.trace (step codec) is s = (outs, .ok s₁) →
    ∃ outs' s₁', Act.trace (step codec) is s' = (outs', .ok s₁') ∧
      ∀ buf dst key offset size, (readStoredResult buf dst key offset size s₁').2.map Prod.fst =
        (readStoredResult buf dst key offset size s₁).2.map Prod.fst

/-- After the request the server is intact, for whoever asked and whatever was sent. -/
def LeavesIntact (codec : Codec) (src : Int) (msg : GetResultPartsMessage) (is : List Input)
    (s : ActorServer) : Prop :=
  ∃ out s', handleGetResultPartsMessage src msg s = (out, .ok ((), s')) ∧ Intact codec is s s'

theorem readStoredResult_beside (buf : Bytes) (dst : Nat) (key offset size : Int) :
    Act.Commutes (withPending p) (readStoredResult buf dst key offset size) := by
  refine lockResultStore_beside.bind fun _ => Act.Commutes.bind (Act.Commutes.lift fun s => ?_)
    fun _ => unlockResultStore_beside.bind fun _ => Act.Commutes.pure _
  simp only [withPending]
  cases MPIActorCommunicator.readStoredResult s.dataStore buf dst key offset size <;> rfl

/-- A request for parts leaves the server intact exactly when no part that is there refuses it,
and no part that it waits for comes too short for it. -/
theorem leavesIntact_iff (msg : GetResultPartsMessage) (is : List Input) :
    LeavesIntact codec src msg is s ↔
      Free s ∧ (∀ part ∈ msg.parts, Passes s.dataStore part) ∧
        ∀ outs s₁, Act.trace (step codec) is s = (outs, .ok s₁) →
          Act.Along (step codec) (ServedBy (waiting s.dataStore src msg.parts)) is s := by
  constructor
  · rintro ⟨out, s', h, hintact⟩
    obtain ⟨hl, hrun⟩ := locked_inv h
    obtain ⟨out₁, answered, s₂, out₂, hloop, hend, -⟩ := Act.bind_ok_inv hrun
    cases answered with
    | true =>
      refine ⟨hl, (answerParts_ok_iff (s := { s with resultStoreLock := true })).mp ⟨_, _, hloop⟩,
        fun outs s₁ hfollow => ?_⟩
      obtain ⟨p, rfl, hbeyond⟩ := answerParts_parks hloop
      cases hend
      obtain ⟨outs', s₁', hrun', -⟩ := hintact.following outs s₁ hfollow
      refine @Beyond.along codec s s₁ _ p is outs outs' s₁' hbeyond hfollow ?_
      rw [← hrun', ← unlocked hl]
      rfl
    | false =>
      -- the early return: the lock that was taken is still held
      have hheld :=
        congrArg ActorServer.resultStoreLock (answerParts_keeps msg.parts _ _ _ _ hloop).1
      cases hend
      have hcontra : true = false := hheld.symm.trans hintact.free
      cases hcontra
  · rintro ⟨hl, hpass, hserved⟩
    obtain ⟨out, s₂, hloop⟩ : ∃ out s₂, answerParts src msg.forwardTo msg.parts
        { s with resultStoreLock := true } = (out, .ok (true, s₂)) := answerParts_ok_iff.mpr hpass
    obtain ⟨p, rfl, hbeyond⟩ := answerParts_parks hloop
    have hsame : ({ withPending p { s with resultStoreLock := true } with
        resultStoreLock := false } : ActorServer) = withPending p s :=
      congrArg (withPending p) (unlocked hl)
    have hrun : handleGetResultPartsMessage src msg s = (out, .ok ((), withPending p s)) := by
      unfold handleGetResultPartsMessage
      rw [Act.bind_of_ok (lockResultStore_of_free hl), Act.bind_of_ok hloop, ← hsame]
      simp [unlockResultStore]
    have hfree : Free (withPending p s) := hl
    refine ⟨out, _, hrun, ?_⟩
    constructor
    · rfl
    · exact ⟨rfl, rfl, rfl, rfl⟩
    · exact hfree
    · exact fun i => ne_deadlock_of_spares (step_spares i) hfree
    · exact fun buf dst key offset size =>
        ne_deadlock_of_spares (readStoredResult_releases buf dst key offset size) hfree
    · intro outs s₁ hrest
      have hwaiting : Beyond (waiting s.dataStore src msg.parts) s p := hbeyond
      obtain ⟨outs', p₁, hrest'⟩ := hwaiting.run hrest (hserved outs s₁ hrest)
      refine ⟨outs', _, hrest', fun buf dst key offset size => ?_⟩
      rw [readStoredResult_beside buf dst key offset size s₁]
      cases (readStoredResult buf dst key offset size s₁).2 <;> rfl

/-- The lock of the result store is given back on every path of every handler and of the
worker's read, except by a request for parts that is refused. -/
theorem resultStoreLock_released_iff (codec : Codec) (s : ActorServer) (src : Int)
    (msg : GetResultPartsMessage) (is : List Input) :
    (LeavesIntact codec src msg is s ↔
        Free s ∧ (∀ part ∈ msg.parts, Passes s.dataStore part) ∧
          ∀ outs s₁, Act.trace (step codec) is s = (outs, .ok s₁) →
            Act.Along (step codec) (ServedBy (waiting s.dataStore src msg.parts)) is s) ∧
      (∀ i, ¬ IsGetResultParts i → Releases (step codec i)) ∧
      ∀ buf dst key offset size, Releases (readStoredResult buf dst key offset size) :=
  ⟨leavesIntact_iff msg is, fun _ hi => step_releases hi, readStoredResult_releases⟩

/-- A part of one byte, of which two are asked: the lock stays taken, and the release of the
part then waits for ever. Where the part comes after the request, the lock is given back, and the
message that brings the part is not handled. -/
theorem refused_request_keeps_lock :
    (¬ LeavesIntact Serialization.ArchiveFormat.sampleFormat.codec 1 ⟨1, [⟨7, 0, 2, 0⟩]⟩ []
        { pid := 0, dataStore := .single 7 (.ofVector [5]) } ∧
      (Act.trace (step Serialization.ArchiveFormat.sampleFormat.codec)
        [.message 1 (.getResultParts ⟨1, [⟨7, 0, 2, 0⟩]⟩), .message 1 (.releaseResult 7)]
          { pid := 0, dataStore := .single 7 (.ofVector [5]) }).2 = .error .deadlock) ∧
    ¬ LeavesIntact Serialization.ArchiveFormat.sampleFormat.codec 1 ⟨1, [⟨7, 0, 2, 0⟩]⟩
        [.message 2 (.storeResult ⟨7, [5]⟩)] { pid := 0 } := by
  refine ⟨⟨?_, rfl⟩, ?_⟩
  · rintro ⟨out, s', h, hintact⟩
    obtain ⟨-, hs⟩ := Prod.mk.inj h
    obtain rfl := (Prod.mk.inj (Except.ok.inj hs)).2
    have hcontra : true = false := hintact.free
    cases hcontra
  · rintro ⟨out, s', h, hintact⟩
    obtain ⟨-, hs⟩ := Prod.mk.inj h
    obtain rfl := (Prod.mk.inj (Except.ok.inj hs)).2
    obtain ⟨outs', s₁', hrun, -⟩ := hintact.following _ _ rfl
    cases congrArg Prod.snd hrun

end ActiveBsp.ActorServer
