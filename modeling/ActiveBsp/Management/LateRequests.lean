import ActiveBsp.Management.IntactServer
import ActiveBsp.Management.ParkedRequests
import Mathlib.Data.List.TakeWhile

/-!
# A request before its part, and after it

A request that finds its part is answered from the loop of its handler, to the
process that the message names and after a test of its range. One that comes
too early is recorded with its sender, and answered without the test when the
part is there.
-/
namespace ActiveBsp.LateRequests

open Library Library.Buffer Library.MachineInt ActorServer ReplyOrder ParkedRequests

set_option autoImplicit false

variable {codec : Codec} {s s' : ActorServer} {t : PartTable} {key src who : Int}
  {data : Bytes} {msg : GetResultPartsMessage} {m : ActorMessage} {out : List Output}

def request (src : Int) (msg : GetResultPartsMessage) : Input := .message src (.getResultParts msg)

/-- The message with which the part under the key becomes available, as `data`: a whole result,
or the piece that a prepared part still waited for. -/
inductive Arrives (t : PartTable) (key : Int) (data : Bytes) : ActorMessage → Prop
  | whole (absent : t key = none) : Arrives t key data (.storeResult ⟨key, data⟩)
  | lastPiece {part : Part} {msg : StoreResultPartMessage} (resId_eq : msg.resId = key)
      (prepared : t key = some part) (buffer : part.buffer = some part.data)
      (fits : part.Fits msg.data msg.offset) (h64 : part.data.length < 2 ^ 64)
      (waiting : 0 < part.remaining) (last : part.remaining = msg.data.length)
      (data_eq : data = splice part.data msg.offset msg.data) :
      Arrives t key data (.storeResultPart msg)

theorem Arrives.unavailable (h : Arrives t key data m) : t.available key = none := by
  unfold PartTable.available PartTable.get
  cases h with
  | whole absent => rw [absent]
  | lastPiece _ prepared _ _ _ waiting _ _ =>
    rw [prepared]
    simp only [if_pos waiting]

theorem Arrives.run (h : Arrives t key data m) (hl : s.resultStoreLock = false)
    (ht : s.dataStore.Represents t) :
    ∃ ds' t', routeHandleMessage codec who m s =
        checkDvPartRequired key { s with dataStore := ds' } ∧
      ds'.Represents t' ∧ t'.available key = some data ∧
      ∀ k, k ≠ key → t'.available k = t.available k := by
  cases h with
  | whole absent =>
    obtain ⟨ds', hds, hrep⟩ := (storePartMessage_map ht ⟨key, data⟩).1 absent
    refine ⟨ds', _, ?_, hrep, PartTable.available_set _ _ _,
      fun k hk => PartTable.available_set_of_ne hk⟩
    show handleStoreResultMessage ⟨key, data⟩ s = _
    unfold handleStoreResultMessage
    rw [locked_update hl]
    simp only [hds]
  | @lastPiece part msg resId_eq prepared buffer fits h64 waiting last data_eq =>
    subst resId_eq
    have href := DataStore.addData_refines ht msg.resId msg.data msg.offset
    obtain ⟨⟨remaining, ds'⟩, hds, hrem, hrep⟩ :=
      href.of_ok (PartTable.add_of_fits prepared buffer fits h64)
    simp only at hrem hrep
    have hzero : part.remaining - msg.data.length = 0 := by omega
    refine ⟨ds', _, ?_, hrep, ?_, fun k hk => PartTable.available_set_of_ne hk⟩
    · show handleStoreResultPartMessage msg s = _
      unfold handleStoreResultPartMessage
      rw [locked_update hl]
      simp only [hds, hrem, if_pos hzero]
    · rw [PartTable.available_set, Part.write_remaining, hzero, if_neg (Nat.lt_irrefl 0),
        Part.write_buffer fits buffer, data_eq]

theorem arrival_runs (hs : Ready s) (ht : s.dataStore.Represents t) (ha : Arrives t key data m)
    (hsend : ∀ q ∈ s.parked key, ¬ Unsendable data q.offset q.size) :
    ∃ ds' t', step codec (.message who m) s =
        ((s.parked key).map (replySent data), .ok ((), { s with dataStore := ds' })) ∧
      ds'.Represents t' ∧ t'.available key = some data ∧
      ∀ k, k ≠ key → t'.available k = t.available k := by
  obtain ⟨ds', t', hrun, hrep, hav, hother⟩ := @Arrives.run codec s t key who data m ha hs.free ht
  refine ⟨ds', t', ?_, hrep, hav, hother⟩
  have hget : ds'.getPartData key = .ok (some data, data.length) := by
    rw [DataStore.getPartData_of_represents hrep, PartTable.get_of_available hav]
  have hserves : ∀ q ∈ ({ s with dataStore := ds' } : ActorServer).parked key,
      Serves ds' key q := fun q hq => (serves_iff hget).mpr (hsend q hq)
  obtain ⟨out, hcheck⟩ :=
    checkDvPartRequired_of_serves (s := { s with dataStore := ds' }) hs.free hserves
  obtain ⟨rfl, -⟩ := checkDvPartRequired_inv (s := { s with dataStore := ds' }) hrep hcheck
  rw [step_message hs.receiving hs.running, hrun, hcheck, content, hav]
  rfl

theorem arrival_serves (hs : Ready s) (ht : s.dataStore.Represents t) (ha : Arrives t key data m)
    (h : step codec (.message who m) s = (out, .ok ((), s'))) :
    ∀ q ∈ s.parked key, ¬ Unsendable data q.offset q.size := by
  obtain ⟨ds', t', hrun, hrep, hav, -⟩ := @Arrives.run codec s t key who data m ha hs.free ht
  have hget : ds'.getPartData key = .ok (some data, data.length) := by
    rw [DataStore.getPartData_of_represents hrep, PartTable.get_of_available hav]
  rw [step_message hs.receiving hs.running, hrun] at h
  exact fun q hq => (serves_iff hget).mp ((serves_of_checkDvPartRequired h).1 q hq)

/-- What is sent at once for a request. -/
def replied (t : PartTable) (dst : Int) (r : ResultReqPart) : Option Output :=
  (t.available r.resid).map fun data => .resultPart dst (sent data r.offset r.size)

theorem passes_iff {ds : DataStore} {r : ResultReqPart} (ht : ds.Represents t) :
    Passes ds r ↔ ∀ data, t.available r.resid = some data →
      ¬ data.length < add64 r.offset r.size ∧ ¬ Unsendable data r.offset r.size := by
  cases hav : t.available r.resid with
  | none =>
    have hget : t.get r.resid = (none, (t.get r.resid).2) := Prod.ext hav rfl
    unfold Passes
    rw [DataStore.getPartData_of_represents ht, hget]
    simp
  | some data =>
    unfold Passes
    rw [DataStore.getPartData_of_represents ht, PartTable.get_of_available hav]
    simp

/-- The server after a message whose requests all pass. -/
def recorded (t : PartTable) (src : Int) (msg : GetResultPartsMessage) (s : ActorServer) :
    ActorServer :=
  withPending (msg.parts.foldl (park t src) s.pendingResultRequests) s

def own (key : Int) (parts : List ResultReqPart) : List ResultReqPart :=
  parts.filter fun r => r.resid = key

theorem parked_recorded (ht : s.dataStore.Represents t) (hun : t.available key = none) :
    (recorded t src msg s).parked key =
      s.parked key ++ (own key msg.parts).map fun r => ⟨r.offset, r.size, src⟩ := by
  refine (parked_foldl ht src msg.parts key).trans ?_
  congr 2
  refine List.filter_congr fun r _ => ?_
  by_cases hk : r.resid = key
  · simp [hk, readable_eq ht, hun]
  · simp [hk]

theorem request_runs (hs : Ready s) (ht : s.dataStore.Represents t)
    (hpass : ∀ r ∈ msg.parts, Passes s.dataStore r) :
    step codec (request src msg) s =
      (msg.parts.filterMap (replied t msg.forwardTo), .ok ((), recorded t src msg s)) := by
  obtain ⟨out, s₁, hloop⟩ : ∃ out s₁, answerParts src msg.forwardTo msg.parts
      { s with resultStoreLock := true } = (out, .ok (true, s₁)) := answerParts_ok_iff.mpr hpass
  obtain ⟨rfl, rfl⟩ := answerParts_reached (s := { s with resultStoreLock := true }) ht hloop
  have hall : reached { s with resultStoreLock := true } msg.parts = msg.parts := by
    refine List.takeWhile_eq_self_iff.mpr fun r hr => ?_
    have hread := readable_eq (s := { s with resultStoreLock := true }) ht r.resid
    unfold outOfRange
    rw [hread]
    cases hav : t.available r.resid with
    | none => rfl
    | some data => simpa using ((passes_iff ht).mp (hpass r hr) data hav).1
  have hreplies : (msg.parts.filterMap fun r =>
      (readable { s with resultStoreLock := true } r.resid).map fun data =>
        Output.resultPart msg.forwardTo (sent data r.offset r.size)) =
      msg.parts.filterMap (replied t msg.forwardTo) := by
    refine List.filterMap_congr fun r _ => ?_
    rw [readable_eq (s := { s with resultStoreLock := true }) ht r.resid]
    rfl
  rw [hall, hreplies] at hloop
  rw [request, step_message hs.receiving hs.running]
  show handleGetResultPartsMessage src msg s = _
  unfold handleGetResultPartsMessage
  rw [Act.bind_of_ok (lockResultStore_of_free hs.free), Act.bind_of_ok hloop]
  simp only [if_true, unlockResultStore, Act.modify_apply, List.nil_append, List.append_nil]
  rw [recorded, withPending, ← hs.free]

/-- A message after which the lock is free had only requests that pass. -/
theorem passes_of_request {s₁ : ActorServer}
    (h : step codec (request src msg) s = (out, .ok ((), s₁))) (hl : s₁.resultStoreLock = false) :
    ∀ r ∈ msg.parts, Passes s.dataStore r := by
  obtain ⟨-, -, hrun⟩ := step_message_inv h
  obtain ⟨-, hbody⟩ := locked_inv hrun
  obtain ⟨out₁, answered, s₂, out₂, hloop, hend, -⟩ := Act.bind_ok_inv hbody
  cases answered with
  | true =>
    exact (answerParts_ok_iff (s := { s with resultStoreLock := true })).mp ⟨_, _, hloop⟩
  | false =>
    have hheld := congrArg ActorServer.resultStoreLock (answerParts_keeps msg.parts _ _ _ _ hloop).1
    cases hend
    cases hheld.symm.trans hl

def lateReply (data : Bytes) (src : Int) (r : ResultReqPart) : Output :=
  replySent data ⟨r.offset, r.size, src⟩

/-- The request comes, then the part. -/
def lateRun (codec : Codec) (src : Int) (msg : GetResultPartsMessage) (who : Int)
    (m : ActorMessage) (s : ActorServer) : List (List Output) × Except Fault ActorServer :=
  Act.trace (step codec) [request src msg, .message who m] s

/-- The part comes, then the request. -/
def earlyRun (codec : Codec) (src : Int) (msg : GetResultPartsMessage) (who : Int)
    (m : ActorMessage) (s : ActorServer) : List (List Output) × Except Fault ActorServer :=
  Act.trace (step codec) [.message who m, request src msg] s

/-- Late requests that the part can serve: they are recorded, and answered by the check. -/
theorem lateRun_replies (hs : Ready s) (ht : s.dataStore.Represents t)
    (ha : Arrives t key data m) (hpass : ∀ r ∈ msg.parts, Passes s.dataStore r)
    (hparked : ∀ q ∈ s.parked key, ¬ Unsendable data q.offset q.size)
    (hown : ∀ r ∈ own key msg.parts, ¬ Unsendable data r.offset r.size) :
    ∃ s', lateRun codec src msg who m s = ([msg.parts.filterMap (replied t msg.forwardTo),
      (s.parked key).map (replySent data) ++ (own key msg.parts).map (lateReply data src)],
        .ok s') := by
  have hrequest := @request_runs codec s t src msg hs ht hpass
  have hrecord := @parked_recorded s t key src msg ht ha.unavailable
  have hsend : ∀ q ∈ (recorded t src msg s).parked key, ¬ Unsendable data q.offset q.size := by
    intro q hq
    rw [hrecord] at hq
    rcases List.mem_append.mp hq with hq | hq
    · exact hparked q hq
    · obtain ⟨r, hr, rfl⟩ := List.mem_map.mp hq
      exact hown r hr
  obtain ⟨ds', t', harrive, -⟩ := @arrival_runs codec (recorded t src msg s) t key who data m
    ⟨hs.receiving, hs.running, hs.free⟩ ht ha hsend
  rw [hrecord, List.map_append, List.map_map] at harrive
  refine ⟨{ recorded t src msg s with dataStore := ds' }, ?_⟩
  rw [lateRun, Act.trace_cons_of_ok hrequest, Act.trace_cons_of_ok harrive]
  rfl

theorem lateRun_serves (hs : Ready s) (ht : s.dataStore.Represents t) (ha : Arrives t key data m)
    (h : (lateRun codec src msg who m s).2.isOk) :
    (∀ r ∈ msg.parts, Passes s.dataStore r) ∧
      (∀ q ∈ s.parked key, ¬ Unsendable data q.offset q.size) ∧
      ∀ r ∈ own key msg.parts, ¬ Unsendable data r.offset r.size := by
  rcases hrun : lateRun codec src msg who m s with ⟨outs, e | s'⟩
  · rw [hrun] at h
    cases h
  · obtain ⟨out, s₁, outs₁, hrequest, hrest, -⟩ := Act.trace_cons_inv hrun
    obtain ⟨out₂, s₂, -, harrive, -, -⟩ := Act.trace_cons_inv hrest
    have hfree : s₁.resultStoreLock = false := by
      obtain ⟨-, -, hhandle⟩ := step_message_inv harrive
      cases ha with
      | whole absent => exact (locked_inv hhandle).1
      | lastPiece => exact (locked_inv hhandle).1
    have hpass := passes_of_request hrequest hfree
    have hruns := hrequest.symm.trans (request_runs hs ht hpass)
    obtain rfl : s₁ = recorded t src msg s :=
      congrArg Prod.snd (Except.ok.inj (congrArg Prod.snd hruns))
    have hserves := arrival_serves (s := recorded t src msg s)
      ⟨hs.receiving, hs.running, hs.free⟩ ht ha harrive
    rw [parked_recorded ht ha.unavailable] at hserves
    refine ⟨hpass, fun q hq => hserves q (List.mem_append_left _ hq), fun r hr => ?_⟩
    exact hserves ⟨r.offset, r.size, src⟩
      (List.mem_append_right _ (List.mem_map.mpr ⟨r, hr, rfl⟩))

/-- Early requests: the arrival serves those who waited, and the handler answers. -/
theorem earlyRun_replies (hs : Ready s) (ht : s.dataStore.Represents t)
    (ha : Arrives t key data m) (hparked : ∀ q ∈ s.parked key, ¬ Unsendable data q.offset q.size)
    (hown : ∀ r ∈ own key msg.parts, ¬ data.length < add64 r.offset r.size ∧
      ¬ Unsendable data r.offset r.size)
    (hothers : ∀ r ∈ msg.parts, r.resid ≠ key → Passes s.dataStore r) :
    ∃ s', earlyRun codec src msg who m s = ([(s.parked key).map (replySent data),
      msg.parts.filterMap fun r => if r.resid = key then
        some (.resultPart msg.forwardTo (sent data r.offset r.size))
        else replied t msg.forwardTo r], .ok s') := by
  obtain ⟨ds', t', harrive, hrep, hav, hother⟩ :=
    @arrival_runs codec s t key who data m hs ht ha hparked
  have hpass : ∀ r ∈ msg.parts, Passes ds' r := by
    intro r hr
    rw [passes_iff hrep]
    intro data' hdata
    by_cases hk : r.resid = key
    · rw [hk, hav] at hdata
      cases hdata
      exact hown r (List.mem_filter.mpr ⟨hr, decide_eq_true hk⟩)
    · rw [hother r.resid hk] at hdata
      exact (passes_iff ht).mp (hothers r hr hk) data' hdata
  have hrequest :=
    @request_runs codec { s with dataStore := ds' } t' src msg (hs.update ds') hrep hpass
  have hreplies : msg.parts.filterMap (replied t' msg.forwardTo) =
      msg.parts.filterMap fun r => if r.resid = key then
        some (.resultPart msg.forwardTo (sent data r.offset r.size))
        else replied t msg.forwardTo r := by
    refine List.filterMap_congr fun r _ => ?_
    by_cases hk : r.resid = key
    · rw [if_pos hk, replied, hk, hav]
      rfl
    · rw [if_neg hk, replied, hother r.resid hk]
      rfl
  rw [hreplies] at hrequest
  refine ⟨recorded t' src msg { s with dataStore := ds' }, ?_⟩
  rw [earlyRun, Act.trace_cons_of_ok harrive, Act.trace_cons_of_ok hrequest]
  rfl

def withoutMisfits (key : Int) (len : Nat) (msg : GetResultPartsMessage) : GetResultPartsMessage :=
  { msg with parts := msg.parts.filter fun r => r.resid = key → r.offset + r.size ≤ len }

/-- What is promised of requests for a part of `len` bytes, whether they come before it or after
it: the server goes on, the same is sent to the same processes, and nothing is sent for a request
that reaches past the end of the part. -/
structure TreatedAlike (codec : Codec) (src : Int) (msg : GetResultPartsMessage) (key : Int)
    (len : Nat) (who : Int) (m : ActorMessage) (s : ActorServer) : Prop where
  lateGoesOn : (lateRun codec src msg who m s).2.isOk
  earlyGoesOn : (earlyRun codec src msg who m s).2.isOk
  sameReplies : (lateRun codec src msg who m s).1.flatten.Perm
    (earlyRun codec src msg who m s).1.flatten
  refused : (lateRun codec src msg who m s).1.flatten.Perm
    (lateRun codec src (withoutMisfits key len msg) who m s).1.flatten

theorem own_withoutMisfits (key : Int) (len : Nat) (msg : GetResultPartsMessage) :
    own key (withoutMisfits key len msg).parts =
      (own key msg.parts).filter fun r => r.offset + r.size ≤ len := by
  rw [own, own, withoutMisfits, List.filter_filter, List.filter_filter]
  refine List.filter_congr fun r _ => ?_
  by_cases hk : r.resid = key <;> simp [hk]

/-- The misfits get no reply at once, for their part is not there. -/
theorem replied_withoutMisfits (hun : t.available key = none) (len : Nat)
    (msg : GetResultPartsMessage) (dst : Int) :
    (withoutMisfits key len msg).parts.filterMap (replied t dst) =
      msg.parts.filterMap (replied t dst) := by
  refine Lists.filterMap_filter_of_none fun r _ hmisfit => ?_
  have hk : r.resid = key := by
    by_contra hk
    exact hmisfit fun h => absurd h hk
  rw [replied, hk, hun]
  rfl

theorem toInt32_toNat_le (n : Nat) : (toInt32 (n : Int)).toNat ≤ n := by
  unfold toInt32
  rw [Int.bmod_def]
  omega

/-- A request inside the part, whose size is a count, is served by both paths. -/
theorem served_of_inside {offset size : Nat} (h64 : data.length < 2 ^ 64)
    (hin : offset + size ≤ data.length) (hcount : 0 ≤ toInt32 size) :
    ¬ data.length < add64 offset size ∧ ¬ Unsendable data offset size := by
  have hle := toInt32_toNat_le size
  constructor
  · rw [add64_of_lt (by omega)]
    omega
  · rintro (hneg | hlong) <;> omega

def earlyReply (data : Bytes) (dst : Int) (r : ResultReqPart) : Output :=
  .resultPart dst (sent data r.offset r.size)

theorem runs_differ (hs : Ready s) (ht : s.dataStore.Represents t) (ha : Arrives t key data m)
    (hpass : ∀ r ∈ msg.parts, Passes s.dataStore r)
    (hparked : ∀ q ∈ s.parked key, ¬ Unsendable data q.offset q.size)
    (hown : ∀ r ∈ own key msg.parts, ¬ data.length < add64 r.offset r.size ∧
      ¬ Unsendable data r.offset r.size) :
    (lateRun codec src msg who m s).2.isOk ∧ (earlyRun codec src msg who m s).2.isOk ∧
      ((lateRun codec src msg who m s).1.flatten.Perm
          (earlyRun codec src msg who m s).1.flatten ↔
        ((own key msg.parts).map (lateReply data src)).Perm
          ((own key msg.parts).map (earlyReply data msg.forwardTo))) := by
  obtain ⟨s₁, hlate⟩ := @lateRun_replies codec s t key src who data msg m hs ht ha hpass hparked
    fun r hr => (hown r hr).2
  obtain ⟨s₂, hearly⟩ := @earlyRun_replies codec s t key src who data msg m hs ht ha hparked hown
    fun r hr _ => hpass r hr
  rw [hlate, hearly]
  refine ⟨rfl, rfl, ?_⟩
  have hsplit : (msg.parts.filterMap fun r => if r.resid = key then
      some (Output.resultPart msg.forwardTo (sent data r.offset r.size))
      else replied t msg.forwardTo r).Perm
      (msg.parts.filterMap (replied t msg.forwardTo) ++
        (own key msg.parts).map (earlyReply data msg.forwardTo)) := by
    refine Lists.filterMap_ite_perm (earlyReply data msg.forwardTo) fun r _ hk => ?_
    rw [replied, hk, ha.unavailable]
    rfl
  simp only [List.flatten_cons, List.flatten_nil, List.append_nil]
  have hearlier := (hsplit.append_left ((s.parked key).map (replySent data))).trans
    (List.perm_append_comm_assoc _ _ _)
  rw [hearlier.congr_right, List.perm_append_left_iff, List.perm_append_left_iff]

/-- Where a request reaches past its part and a late one is served, it is not refused. -/
theorem inside_of_refused (hs : Ready s) (ht : s.dataStore.Represents t) (ha : Arrives t key data m)
    (hpass : ∀ r ∈ msg.parts, Passes s.dataStore r)
    (hparked : ∀ q ∈ s.parked key, ¬ Unsendable data q.offset q.size)
    (hown : ∀ r ∈ own key msg.parts, ¬ Unsendable data r.offset r.size)
    (hrefused : (lateRun codec src msg who m s).1.flatten.Perm
      (lateRun codec src (withoutMisfits key data.length msg) who m s).1.flatten) :
    ∀ r ∈ own key msg.parts, r.offset + r.size ≤ data.length := by
  have hkept : ∀ r ∈ (withoutMisfits key data.length msg).parts, Passes s.dataStore r :=
    fun r hr => hpass r (List.mem_filter.mp hr).1
  have hownkept : ∀ r ∈ own key (withoutMisfits key data.length msg).parts,
      ¬ Unsendable data r.offset r.size := fun r hr => by
    rw [own_withoutMisfits] at hr
    exact hown r (List.mem_filter.mp hr).1
  obtain ⟨s₁, hlate⟩ :=
    @lateRun_replies codec s t key src who data msg m hs ht ha hpass hparked hown
  obtain ⟨s₂, hwithout⟩ := @lateRun_replies codec s t key src who data
    (withoutMisfits key data.length msg) m hs ht ha hkept hparked hownkept
  have hto : (withoutMisfits key data.length msg).forwardTo = msg.forwardTo := rfl
  have hlen := hrefused.length_eq
  rw [hlate, hwithout, own_withoutMisfits, hto,
    replied_withoutMisfits ha.unavailable data.length msg] at hlen
  simp only [List.flatten_cons, List.flatten_nil, List.length_append, List.length_map,
    List.length_nil] at hlen
  have hall : ((own key msg.parts).filter fun r => r.offset + r.size ≤ data.length).length =
      (own key msg.parts).length := by omega
  intro r hr
  simpa using List.length_filter_eq_length_iff.mp hall r hr

/-- Late requests are treated like early ones exactly when the part serves those who waited
already, every request for it lies inside it, asks for its sender and has a size that is a count,
and the requests for other parts pass. -/
theorem late_alike_iff (hs : Ready s) (ht : s.dataStore.Represents t) (ha : Arrives t key data m)
    (h64 : data.length < 2 ^ 64) :
    TreatedAlike codec src msg key data.length who m s ↔
      (∀ q ∈ s.parked key, ¬ Unsendable data q.offset q.size) ∧
        ∀ r ∈ msg.parts, if r.resid = key then
          r.offset + r.size ≤ data.length ∧ 0 ≤ toInt32 r.size ∧ msg.forwardTo = src
          else Passes s.dataStore r := by
  constructor
  · intro h
    obtain ⟨hpass, hparked, hsends⟩ := lateRun_serves hs ht ha h.lateGoesOn
    have hinside := inside_of_refused hs ht ha hpass hparked hsends h.refused
    have hcount : ∀ r ∈ own key msg.parts, 0 ≤ toInt32 r.size := fun r hr =>
      Int.not_lt.mp fun hneg => hsends r hr (.inl hneg)
    have hserved : ∀ r ∈ own key msg.parts, ¬ data.length < add64 r.offset r.size ∧
        ¬ Unsendable data r.offset r.size := fun r hr =>
      served_of_inside h64 (hinside r hr) (hcount r hr)
    obtain ⟨-, -, hsame⟩ :=
      @runs_differ codec s t key src who data msg m hs ht ha hpass hparked hserved
    refine ⟨hparked, fun r hr => ?_⟩
    by_cases hk : r.resid = key
    · have hr : r ∈ own key msg.parts := List.mem_filter.mpr ⟨hr, decide_eq_true hk⟩
      -- the late reply to its sender is among the early replies
      have hmem := (hsame.mp h.sameReplies).subset (List.mem_map_of_mem hr)
      obtain ⟨r', -, heq⟩ := List.mem_map.mp hmem
      rw [if_pos hk]
      exact ⟨hinside r hr, hcount r hr, (Output.resultPart.inj heq).1⟩
    · rw [if_neg hk]
      exact hpass r hr
  · rintro ⟨hparked, hall⟩
    have hown : ∀ r ∈ own key msg.parts,
        r.offset + r.size ≤ data.length ∧ 0 ≤ toInt32 r.size ∧ msg.forwardTo = src := by
      intro r hr
      obtain ⟨hr, hk⟩ := List.mem_filter.mp hr
      have hcase := hall r hr
      rwa [if_pos (of_decide_eq_true hk)] at hcase
    have hpass : ∀ r ∈ msg.parts, Passes s.dataStore r := by
      intro r hr
      by_cases hk : r.resid = key
      · rw [passes_iff ht]
        intro data' hav
        rw [hk, ha.unavailable] at hav
        cases hav
      · have hcase := hall r hr
        rwa [if_neg hk] at hcase
    obtain ⟨hlate, hearly, hsame⟩ := @runs_differ codec s t key src who data msg m hs ht ha hpass
      hparked fun r hr => served_of_inside h64 (hown r hr).1 (hown r hr).2.1
    refine ⟨hlate, hearly, hsame.mpr ?_, ?_⟩
    · have heq : (own key msg.parts).map (lateReply data src) =
          (own key msg.parts).map (earlyReply data msg.forwardTo) := by
        refine List.map_congr_left fun r hr => ?_
        rw [(hown r hr).2.2]
        rfl
      rw [heq]
    · have hnone : withoutMisfits key data.length msg = msg := by
        have hkeep : (msg.parts.filter fun r => r.resid = key → r.offset + r.size ≤ data.length) =
            msg.parts := by
          refine List.filter_eq_self.mpr fun r hr => decide_eq_true fun hk => ?_
          exact (hown r (List.mem_filter.mpr ⟨hr, decide_eq_true hk⟩)).1
        rw [withoutMisfits, hkeep]
      rw [hnone]

/-- Two requests of a process for itself, one for the part of a key for which another process
waits and one for a part that is there. -/
theorem late_alike_iff_sample :
    TreatedAlike Serialization.ArchiveFormat.sampleFormat.codec 3
        ⟨3, [⟨7, 1, 1, 0⟩, ⟨8, 0, 1, 1⟩]⟩ 7 2 2 (.storeResult ⟨7, [5, 6]⟩)
        { pid := 0, dataStore := .single 8 (.ofVector [9])
          pendingResultRequests := PartialMap.empty.set 7 [⟨0, 2, 4⟩] } ↔
      (∀ q ∈ [(⟨0, 2, 4⟩ : PendingResultRequest)], ¬ Unsendable [5, 6] q.offset q.size) ∧
        ∀ r ∈ [(⟨7, 1, 1, 0⟩ : ResultReqPart), ⟨8, 0, 1, 1⟩], if r.resid = 7 then
          r.offset + r.size ≤ 2 ∧ 0 ≤ toInt32 r.size ∧ (3 : Int) = 3
          else Passes (.single 8 (.ofVector [9])) r :=
  @late_alike_iff Serialization.ArchiveFormat.sampleFormat.codec
    { pid := 0, dataStore := .single 8 (.ofVector [9])
      pendingResultRequests := PartialMap.empty.set 7 [⟨0, 2, 4⟩] }
    _ 7 3 2 [5, 6] ⟨3, [⟨7, 1, 1, 0⟩, ⟨8, 0, 1, 1⟩]⟩ _ ⟨rfl, rfl, rfl⟩
    (DataStore.single_represents 8 (.ofVector [9])) (.whole rfl) (by decide)

/-- Process 3 asks on behalf of process 4: the late reply goes to process 3. A late request past
the end of the part is not refused. And a late request with another one that its part refuses is
not answered, for the lock is not given back. -/
theorem late_not_alike :
    ¬ TreatedAlike Serialization.ArchiveFormat.sampleFormat.codec 3 ⟨4, [⟨7, 1, 1, 0⟩]⟩ 7 2 2
        (.storeResult ⟨7, [5, 6]⟩) { pid := 0 } ∧
      ¬ TreatedAlike Serialization.ArchiveFormat.sampleFormat.codec 3 ⟨3, [⟨7, 1, 2, 0⟩]⟩ 7 2 2
        (.storeResult ⟨7, [5, 6]⟩) { pid := 0 } ∧
      ¬ TreatedAlike Serialization.ArchiveFormat.sampleFormat.codec 3
        ⟨3, [⟨7, 1, 1, 0⟩, ⟨8, 0, 2, 1⟩]⟩ 7 2 2 (.storeResult ⟨7, [5, 6]⟩)
        { pid := 0, dataStore := .single 8 (.ofVector [9]) } := by
  refine ⟨fun h => ?_, fun h => ?_, fun h => ?_⟩
  · have hsame := h.sameReplies
    revert hsame
    decide
  · have hgoes := h.lateGoesOn
    revert hgoes
    decide
  · have hgoes := h.lateGoesOn
    revert hgoes
    decide

end ActiveBsp.LateRequests
