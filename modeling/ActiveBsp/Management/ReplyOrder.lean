import ActiveBsp.Library.Family
import ActiveBsp.Library.Lists
import ActiveBsp.Management.PieceDelivery
import ActiveBsp.Mpi.MPIActorCommunicator

/-!
# The order of the replies to a read

A process answers the requests for parts that it has at once and parks the
others until their part is complete. The replies to one client come in the
order in which the parts become available, which the client takes for the order
of its requests.
-/
namespace ActiveBsp.ReplyOrder

open Library Library.Buffer Library.MachineInt ActorServer MPIActorCommunicator

set_option autoImplicit false

/-- A whole result or a piece of one. -/
inductive PartMessage where
  | whole (msg : StoreResultMessage)
  | piece (msg : StoreResultPartMessage)

namespace PartMessage

def key : PartMessage → Int
  | whole msg => msg.resId
  | piece msg => msg.resId

def message : PartMessage → ActorMessage
  | whole msg => .storeResult msg
  | piece msg => .storeResultPart msg

/-- What it does to the parts. -/
def apply (t : PartTable) : PartMessage → Except Fault PartTable
  | whole msg => t.store .storePartMessage msg.resId (.ofMessage msg.data)
  | piece msg => (t.add msg.resId msg.data msg.offset).map Prod.snd

end PartMessage

variable {codec : Codec} {s s' : ActorServer} {t t' : PartTable} {key client : Int} {data : Bytes}
  {out : List Output}

/-- The bytes of a reply: the size goes through an `int`. -/
def sent (data : Bytes) (offset size : Nat) : Bytes := slice data offset (toInt32 size).toNat

/-- The content of a part, once it is there. -/
def content (t : PartTable) (key : Int) : Bytes := (t.available key).getD []

def replySent (data : Bytes) (request : PendingResultRequest) : Output :=
  .resultPart request.dst (sent data request.offset request.size)

theorem sendResultPart_inv {dst : Int} {offset size : Nat} {u : Unit}
    (h : sendResultPart dst data offset size s = (out, .ok (u, s'))) :
    out = [.resultPart dst (sent data offset size)] ∧ s' = s := by
  unfold sendResultPart at h
  split_ifs at h with hbad
  · cases h
  · cases h
    exact ⟨rfl, rfl⟩

theorem answerParked_inv {request : PendingResultRequest} {u : Unit}
    (ht : s.dataStore.Represents t)
    (h : answerParked key request s = (out, .ok (u, s'))) :
    out = [replySent (content t key) request] ∧ s' = s := by
  have hsend : answerParked key request s =
      sendResultPart request.dst (content t key) request.offset request.size s :=
    getPartData_bind ht _
  rw [hsend] at h
  exact sendResultPart_inv h

/-- Everyone who waits for the part is answered, in the order of the queue. -/
theorem checkDvPartRequired_inv (ht : s.dataStore.Represents t)
    (h : checkDvPartRequired key s = (out, .ok ((), s'))) :
    out = (s.parked key).map (replySent (content t key)) ∧ s' = s := by
  unfold checkDvPartRequired at h
  rw [Act.get_bind] at h
  cases hp : s.pendingResultRequests key with
  | none =>
    rw [hp] at h
    cases h
    rw [parked, hp]
    exact ⟨rfl, rfl⟩
  | some requests =>
    rw [hp] at h
    dsimp only at h
    obtain ⟨hl, hbody⟩ := locked_inv h
    have hreq : s.parked key = requests := by rw [parked, hp]; rfl
    obtain ⟨out₁, u, s₁, out₂, h₁, h₂, rfl⟩ := Act.bind_ok_inv hbody
    have ht' : ({ s with resultStoreLock := true } : ActorServer).dataStore.Represents t := ht
    obtain ⟨rfl, rfl⟩ := Act.forM_emitting_inv (fun r _ o u s'' hr => answerParked_inv ht' hr) h₁
    cases h₂
    rw [hreq, List.map_eq_flatMap, List.append_nil]
    exact ⟨rfl, unlocked hl⟩

/-- The request lies inside its part, if that is there, and the part in memory. -/
def Inside (t : PartTable) (r : ResultReqPart) : Prop :=
  ∀ data, t.available r.resid = some data → r.offset + r.size ≤ data.length ∧ data.length < 2 ^ 64

/-- The requests of `parts` for a part that is not there. -/
def late (t : PartTable) (parts : List ResultReqPart) : List ResultReqPart :=
  parts.filter fun r => t.available r.resid = none

/-- The requests of `parts` for a part that is there. -/
def early (t : PartTable) (parts : List ResultReqPart) : List ResultReqPart :=
  parts.filter fun r => t.available r.resid ≠ none

theorem early_cons_of_none {r : ResultReqPart} {parts : List ResultReqPart}
    (h : t.available r.resid = none) : early t (r :: parts) = early t parts := by
  simp [early, h]

theorem early_cons_of_some {r : ResultReqPart} {parts : List ResultReqPart}
    (h : t.available r.resid = some data) : early t (r :: parts) = r :: early t parts := by
  simp [early, h]

theorem answerParts_inv {src forwardTo : Int} {parts : List ResultReqPart} {b : Bool}
    (ht : s.dataStore.Represents t) (hin : ∀ r ∈ parts, Inside t r)
    (h : answerParts src forwardTo parts s = (out, .ok (b, s'))) :
    b = true ∧
      out = (early t parts).map (fun r =>
        .resultPart forwardTo (sent (content t r.resid) r.offset r.size)) ∧
      s' = { s with pendingResultRequests := parts.foldl (park t src) s.pendingResultRequests } := by
  induction parts generalizing s out with
  | nil =>
    cases h
    exact ⟨rfl, rfl, rfl⟩
  | cons r parts ih =>
    have hrest : ∀ r' ∈ parts, Inside t r' := fun r' hr' => hin r' (List.mem_cons_of_mem r hr')
    unfold answerParts at h
    rw [getPartData_bind ht] at h
    cases hav : t.available r.resid with
    | none =>
      have hget : (t.get r.resid).1 = none := hav
      simp only [hget, Act.modify_bind] at h
      obtain ⟨hb, hout, hs⟩ := ih (by exact ht) hrest h
      refine ⟨hb, ?_, ?_⟩
      · rw [hout, early_cons_of_none hav]
      · rw [hs, List.foldl_cons, park, if_pos hav]
    | some data =>
      obtain ⟨hfit, h64⟩ := hin r List.mem_cons_self data hav
      have hsum : add64 r.offset r.size = r.offset + r.size := add64_of_lt (hfit.trans_lt h64)
      simp only [PartTable.get_of_available hav, hsum, if_neg (Nat.not_lt.mpr hfit)] at h
      obtain ⟨out₁, u, s₁, out₂, h₁, h₂, rfl⟩ := Act.bind_ok_inv h
      obtain ⟨rfl, rfl⟩ := sendResultPart_inv h₁
      obtain ⟨hb, hout, hs⟩ := ih ht hrest h₂
      refine ⟨hb, ?_, ?_⟩
      · rw [hout, early_cons_of_some hav, List.map_cons, content, hav]
        rfl
      · rw [hs, List.foldl_cons, park, if_neg (by rw [hav]; exact Option.some_ne_none data)]

/-- The request is answered as far as the parts are there, and parked otherwise. -/
theorem handleGetResultPartsMessage_inv {src forwardTo : Int} {parts : List ResultReqPart}
    (ht : s.dataStore.Represents t) (hin : ∀ r ∈ parts, Inside t r)
    (h : handleGetResultPartsMessage src ⟨forwardTo, parts⟩ s = (out, .ok ((), s'))) :
    out = (early t parts).map (fun r =>
        .resultPart forwardTo (sent (content t r.resid) r.offset r.size)) ∧
      s' = { s with pendingResultRequests := parts.foldl (park t src) s.pendingResultRequests } := by
  obtain ⟨hl, hbody⟩ := locked_inv h
  obtain ⟨out₁, b, s₁, out₂, h₁, h₂, rfl⟩ := Act.bind_ok_inv hbody
  have ht' : ({ s with resultStoreLock := true } : ActorServer).dataStore.Represents t := ht
  obtain ⟨rfl, rfl, rfl⟩ := answerParts_inv ht' hin h₁
  cases h₂
  refine ⟨List.append_nil _, ?_⟩
  rw [← hl]

/-- What is parked for a key afterwards. -/
theorem foldl_park (src : Int) (parts : List ResultReqPart)
    (pending : PartialMap Int (List PendingResultRequest)) (key : Int) :
    (parts.foldl (park t src) pending key).getD [] =
      (pending key).getD [] ++
        ((late t parts).filter fun r => r.resid = key).map fun r => ⟨r.offset, r.size, src⟩ := by
  induction parts generalizing pending with
  | nil => simp [late]
  | cons r parts ih =>
    rw [List.foldl_cons, ih, park]
    by_cases hav : t.available r.resid = none
    · have hlate : late t (r :: parts) = r :: late t parts := by simp [late, hav]
      rw [if_pos hav, hlate]
      by_cases hk : r.resid = key
      · subst hk
        simp
      · have hk' : key ≠ r.resid := Ne.symm hk
        simp [hk, hk']
    · have hlate : late t (r :: parts) = late t parts := by simp [late, hav]
      rw [if_neg hav, hlate]

theorem handleStoreResultMessage_inv {msg : StoreResultMessage} (hl : s.resultStoreLock = false)
    (ht : s.dataStore.Represents t)
    (h : handleStoreResultMessage msg s = (out, .ok ((), s'))) :
    ∃ t₁ ds, (PartMessage.whole msg).apply t = .ok t₁ ∧ ds.Represents t₁ ∧
      s' = { s with dataStore := ds } ∧
      out = (s.parked msg.resId).map (replySent (content t₁ msg.resId)) := by
  have href := DataStore.storePartMessage_refines ht msg
  unfold handleStoreResultMessage at h
  rw [locked_update hl] at h
  cases hds : s.dataStore.storePartMessage msg.resId msg with
  | error e =>
    rw [hds] at h
    cases h
  | ok ds =>
    obtain ⟨t₁, ht₁, hrep⟩ := href.ok_inv hds
    rw [hds] at h
    obtain ⟨rfl, rfl⟩ := checkDvPartRequired_inv (s := { s with dataStore := ds }) hrep h
    exact ⟨t₁, ds, ht₁, hrep, rfl, rfl⟩

theorem handleStoreResultPartMessage_inv {msg : StoreResultPartMessage}
    (hl : s.resultStoreLock = false) (ht : s.dataStore.Represents t)
    (h : handleStoreResultPartMessage msg s = (out, .ok ((), s'))) :
    ∃ t₁ ds, (PartMessage.piece msg).apply t = .ok t₁ ∧ ds.Represents t₁ ∧
      s' = { s with dataStore := ds } ∧
      out = if t₁.available msg.resId = none then []
        else (s.parked msg.resId).map (replySent (content t₁ msg.resId)) := by
  have href := DataStore.addData_refines ht msg.resId msg.data msg.offset
  unfold handleStoreResultPartMessage at h
  rw [locked_update hl] at h
  cases hds : s.dataStore.addData msg.resId msg.data msg.offset with
  | error e =>
    rw [hds] at h
    cases h
  | ok r =>
    obtain ⟨remaining, ds⟩ := r
    obtain ⟨⟨remaining', t₁⟩, hadd, heq, hrep⟩ := href.ok_inv hds
    obtain rfl : remaining = remaining' := heq
    rw [hds] at h
    dsimp only at h
    refine ⟨t₁, ds, by rw [PartMessage.apply, hadd]; rfl, hrep, ?_⟩
    obtain ⟨part, hfits, -, hb, rfl, rfl⟩ := PartTable.add_inv hadd
    have hav := PartTable.available_set t msg.resId (part.write msg.data msg.offset hfits)
    rw [Part.write_remaining, Part.write_buffer hfits hb] at hav
    by_cases hzero : part.remaining - msg.data.length = 0
    · rw [if_pos hzero] at h
      obtain ⟨rfl, rfl⟩ := checkDvPartRequired_inv (s := { s with dataStore := ds }) hrep h
      rw [hav, hzero, if_neg (Nat.lt_irrefl 0), if_neg (Option.some_ne_none _)]
      exact ⟨rfl, rfl⟩
    · rw [if_neg hzero] at h
      cases h
      rw [hav, if_pos (Nat.pos_of_ne_zero hzero), if_pos rfl]
      exact ⟨rfl, rfl⟩

/-- A message that leaves its part complete has everyone answered who waits for it. -/
theorem step_part_inv {src : Int} {m : PartMessage} (hs : Ready s) (ht : s.dataStore.Represents t)
    (h : step codec (.message src m.message) s = (out, .ok ((), s'))) :
    ∃ t₁, m.apply t = .ok t₁ ∧ s'.dataStore.Represents t₁ ∧ Ready s' ∧
      s'.pendingResultRequests = s.pendingResultRequests ∧
      out = if t₁.available m.key = none then []
        else (s.parked m.key).map (replySent (content t₁ m.key)) := by
  rw [step_message hs.receiving hs.running] at h
  cases m with
  | whole msg =>
    obtain ⟨t₁, ds, hap, hrep, rfl, rfl⟩ := handleStoreResultMessage_inv hs.free ht h
    obtain ⟨-, rfl⟩ := PartTable.store_inv hap
    refine ⟨_, hap, hrep, hs.update ds, rfl, ?_⟩
    have hav : PartTable.available (t.set msg.resId (.ofMessage msg.data)) msg.resId =
        some msg.data := by
      rw [PartTable.available_set]
      rfl
    rw [if_neg (by rw [PartMessage.key, hav]; exact Option.some_ne_none _)]
    rfl
  | piece msg =>
    obtain ⟨t₁, ds, hap, hrep, rfl, hout⟩ := handleStoreResultPartMessage_inv hs.free ht h
    exact ⟨t₁, hap, hrep, hs.update ds, rfl, hout⟩

/-- A message for one part leaves the others alone. -/
theorem apply_other {m : PartMessage} {t₁ : PartTable} (h : m.apply t = .ok t₁)
    (hkey : key ≠ m.key) : t₁.available key = t.available key := by
  cases m with
  | whole msg =>
    obtain ⟨-, rfl⟩ := PartTable.store_inv h
    exact PartTable.available_set_of_ne hkey
  | piece msg =>
    cases hadd : t.add msg.resId msg.data msg.offset with
    | error e =>
      rw [PartMessage.apply, hadd] at h
      cases h
    | ok r =>
      rw [PartMessage.apply, hadd] at h
      cases h
      obtain ⟨part, hfits, -, -, -, hset⟩ := PartTable.add_inv hadd
      rw [hset]
      exact PartTable.available_set_of_ne hkey

/-- Bytes that can be read stay as they are. -/
theorem apply_keeps {m : PartMessage} {t₁ : PartTable} (h : m.apply t = .ok t₁)
    (hav : t.available key = some data) : t₁.available key = some data := by
  cases m with
  | whole msg =>
    obtain ⟨hnone, rfl⟩ := PartTable.store_inv h
    rw [PartTable.available_set_of_ne, hav]
    rintro rfl
    rw [PartTable.available, PartTable.get, hnone] at hav
    cases hav
  | piece msg =>
    cases hadd : t.add msg.resId msg.data msg.offset with
    | error e =>
      rw [PartMessage.apply, hadd] at h
      cases h
    | ok r =>
      rw [PartMessage.apply, hadd] at h
      cases h
      obtain ⟨part, hfits, hk, hb, -, hset⟩ := PartTable.add_inv hadd
      rw [hset]
      by_cases hkey : key = msg.resId
      · -- a complete part takes empty pieces only
        subst hkey
        have hget := hav
        unfold PartTable.available PartTable.get at hget
        rw [hk] at hget
        dsimp only at hget
        split_ifs at hget with hrem
        have hnil : msg.data = [] := by
          have hle := hfits.2
          exact List.eq_nil_of_length_eq_zero (by omega)
        rw [PartTable.available_set, Part.write_remaining, if_neg (by omega),
          Part.write_buffer hfits hb, hnil, splice_nil, ← hb]
        exact hget
      · rw [PartTable.available_set_of_ne hkey, hav]

/-- The parts after the messages. -/
def after (t : PartTable) : List PartMessage → Except Fault PartTable
  | [] => .ok t
  | m :: ms => m.apply t >>= fun t₁ => after t₁ ms

/-- The keys of the parts that the messages leave complete, one after the other. -/
def completions (t : PartTable) : List PartMessage → List Int
  | [] => []
  | m :: ms =>
    match m.apply t with
    | .error _ => []
    | .ok t₁ =>
      if t₁.available m.key = none then completions t₁ ms else m.key :: completions t₁ ms

theorem after_keeps {ms : List PartMessage} (h : after t ms = .ok t')
    (hav : t.available key = some data) : t'.available key = some data := by
  induction ms generalizing t with
  | nil =>
    cases h
    exact hav
  | cons m ms ih =>
    unfold after at h
    cases hap : m.apply t with
    | error e =>
      rw [hap] at h
      cases h
    | ok t₁ =>
      rw [hap] at h
      exact ih h (apply_keeps hap hav)

/-- A part message from a process. -/
def partInput (m : Int × PartMessage) : Input := .message m.1 m.2.message

/-- The replies of a run: for every completion, all who wait for the part. -/
theorem run_parts_inv {ms : List (Int × PartMessage)} {outs : List (List Output)} (hs : Ready s)
    (ht : s.dataStore.Represents t)
    (h : Act.trace (step codec) (ms.map partInput) s = (outs, .ok s')) :
    ∃ t', after t (ms.map Prod.snd) = .ok t' ∧
      outs.flatten = (completions t (ms.map Prod.snd)).flatMap fun key =>
        (s.parked key).map (replySent (content t' key)) := by
  induction ms generalizing s t outs with
  | nil =>
    cases h
    exact ⟨t, rfl, rfl⟩
  | cons m ms ih =>
    obtain ⟨out, s₁, outs', h₁, h₂, rfl⟩ := Act.trace_cons_inv h
    obtain ⟨t₁, hap, hrep, hready, hpend, hout⟩ := step_part_inv hs ht h₁
    obtain ⟨t', hafter, houts⟩ := ih hready hrep h₂
    have hparked : s₁.parked = s.parked := by
      funext k
      rw [parked, parked, hpend]
    refine ⟨t', ?_, ?_⟩
    · rw [List.map_cons, after, hap]
      exact hafter
    · rw [List.flatten_cons, houts, hout, hparked, List.map_cons, completions, hap]
      dsimp only
      cases hav : t₁.available m.2.key with
      | none => simp
      | some data =>
        have hcontent : content t₁ m.2.key = content t' m.2.key := by
          rw [content, content, hav, after_keeps hafter hav]
        rw [if_neg (Option.some_ne_none data), if_neg (Option.some_ne_none data),
          List.flatMap_cons, hcontent]

/-- A range of bytes of a part. -/
structure Ask where
  key : Int
  offset : Nat
  size : Nat
  deriving DecidableEq, Repr

def ask (r : ResultReqPart) : Ask := ⟨r.resid, r.offset, r.size⟩

def parkedAsk (key : Int) (request : PendingResultRequest) : Ask :=
  ⟨key, request.offset, request.size⟩

/-- The bytes of an ask. -/
def askedBytes (t : PartTable) (a : Ask) : Bytes := slice (content t a.key) a.offset a.size

/-- The bytes that are sent for it. -/
def sentBytes (t : PartTable) (a : Ask) : Bytes := sent (content t a.key) a.offset a.size

/-- What a client has waited for at a key when its request is handled, and then waits for. -/
def waits (s : ActorServer) (t : PartTable) (client : Int) (requests : List ResultReqPart)
    (key : Int) : List Ask :=
  ((s.parked key).filter fun q => q.dst = client).map (parkedAsk key) ++
    ((late t requests).filter fun r => r.resid = key).map ask

/-- The asks in the order in which their parts become available: those that are there when the
request is handled, then for every completion those that wait for its part. -/
def inTurn (s : ActorServer) (t : PartTable) (client : Int) (requests : List ResultReqPart)
    (ms : List PartMessage) : List Ask :=
  (early t requests).map ask ++ (completions t ms).flatMap (waits s t client requests)

theorem repliesTo_append (out out' : List Output) :
    repliesTo client (out ++ out') = repliesTo client out ++ repliesTo client out' :=
  List.filterMap_append

theorem repliesTo_flatMap {α : Type} (f : α → List Output) (l : List α) :
    repliesTo client (l.flatMap f) = l.flatMap fun x => repliesTo client (f x) :=
  List.filterMap_flatMap

theorem repliesTo_parked (t : PartTable) (key : Int) (requests : List PendingResultRequest) :
    repliesTo client (requests.map (replySent (content t key))) =
      ((requests.filter fun q => q.dst = client).map (parkedAsk key)).map (sentBytes t) := by
  induction requests with
  | nil => rfl
  | cons q requests ih =>
    rw [repliesTo] at ih ⊢
    by_cases hq : q.dst = client
    · have hone : replyTo client (replySent (content t key) q) =
          some (sentBytes t (parkedAsk key q)) := if_pos hq
      rw [List.filter_cons_of_pos (by simpa using hq), List.map_cons, List.map_cons, List.map_cons,
        ← ih, List.filterMap_cons_some hone]
    · have hnone : replyTo client (replySent (content t key) q) = none := if_neg hq
      rw [List.filter_cons_of_neg (by simpa using hq), List.map_cons, ← ih,
        List.filterMap_cons_none hnone]

theorem repliesTo_map {α : Type} (f : α → Bytes) (l : List α) :
    repliesTo client (l.map fun x => .resultPart client (f x)) = l.map f := by
  have hone : ∀ x, replyTo client (.resultPart client (f x)) = some (f x) := fun _ => if_pos rfl
  rw [repliesTo, List.filterMap_map, ← List.filterMap_eq_map]
  exact List.filterMap_congr fun x _ => hone x

theorem repliesTo_early (t t' : PartTable) (requests : List ResultReqPart)
    (hsame : ∀ r ∈ early t requests, content t r.resid = content t' r.resid) :
    repliesTo client ((early t requests).map fun r =>
        .resultPart client (sent (content t r.resid) r.offset r.size)) =
      ((early t requests).map ask).map (sentBytes t') := by
  have hbytes : ∀ r ∈ early t requests,
      sent (content t r.resid) r.offset r.size = sentBytes t' (ask r) := by
    intro r hr
    rw [hsame r hr]
    rfl
  rw [repliesTo_map, List.map_map]
  refine List.map_congr_left fun r hr => ?_
  rw [hbytes r hr, Function.comp_apply]

/-- Behind what the client waited for come the requests for parts that are not there. -/
theorem waits_eq (s : ActorServer) (t : PartTable) (client : Int) (requests : List ResultReqPart)
    (key : Int) :
    waits s t client requests key =
      (((s.parked key) ++ ((late t requests).filter fun r => r.resid = key).map fun r =>
          (⟨r.offset, r.size, client⟩ : PendingResultRequest)).filter
        fun q => q.dst = client).map (parkedAsk key) := by
  have hown : ((late t requests).filter fun r => r.resid = key).map ask =
      (((late t requests).filter fun r => r.resid = key).map fun r =>
        (⟨r.offset, r.size, client⟩ : PendingResultRequest)).map (parkedAsk key) := by
    rw [List.map_map]
    refine List.map_congr_left fun r hr => ?_
    have hkey : r.resid = key := of_decide_eq_true (List.mem_filter.mp hr).2
    rw [ask, hkey]
    rfl
  have hall : (((late t requests).filter fun r => r.resid = key).map fun r =>
      (⟨r.offset, r.size, client⟩ : PendingResultRequest)).filter (fun q => q.dst = client) =
      ((late t requests).filter fun r => r.resid = key).map fun r =>
        (⟨r.offset, r.size, client⟩ : PendingResultRequest) := by
    refine List.filter_eq_self.mpr fun q hq => ?_
    obtain ⟨r, -, rfl⟩ := List.mem_map.mp hq
    exact decide_eq_true rfl
  rw [waits, hown, List.filter_append, hall, List.map_append]

/-- The replies to the client, byte for byte, are those of the asks in turn. -/
theorem replies_in_turn {requests : List ResultReqPart} {ms : List (Int × PartMessage)}
    {s₁ : ActorServer} {outs : List (List Output)} (hs : Ready s) (ht : s.dataStore.Represents t)
    (hin : ∀ r ∈ requests, Inside t r) (hafter : after t (ms.map Prod.snd) = .ok t')
    (hget : step codec (.message client (.getResultParts ⟨client, requests⟩)) s = (out, .ok ((), s₁)))
    (hrun : Act.trace (step codec) (ms.map partInput) s₁ = (outs, .ok s')) :
    repliesTo client (out ++ outs.flatten) =
      (inTurn s t client requests (ms.map Prod.snd)).map (sentBytes t') := by
  rw [step_message hs.receiving hs.running] at hget
  obtain ⟨rfl, rfl⟩ := handleGetResultPartsMessage_inv ht hin hget
  obtain ⟨t'', hafter', houts⟩ := run_parts_inv (s := { s with
    pendingResultRequests := requests.foldl (park t client) s.pendingResultRequests })
    ⟨hs.receiving, hs.running, hs.free⟩ ht hrun
  obtain rfl : t' = t'' := by
    rw [hafter] at hafter'
    exact Except.ok.inj hafter'
  have hsame : ∀ r ∈ early t requests, content t r.resid = content t' r.resid := by
    intro r hr
    obtain ⟨data, hav⟩ := Option.ne_none_iff_exists'.mp
      (of_decide_eq_true (List.mem_filter.mp hr).2)
    rw [content, content, hav, after_keeps hafter hav]
  rw [repliesTo_append, repliesTo_early t t' requests hsame, houts, repliesTo_flatMap, inTurn,
    List.map_append, List.map_flatMap]
  congr 1
  refine List.flatMap_congr fun key _ => ?_
  rw [repliesTo_parked, parked, foldl_park, waits_eq]
  rfl

end ActiveBsp.ReplyOrder
