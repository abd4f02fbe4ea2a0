import ActiveBsp.Library.Ranks
import ActiveBsp.Management.ReplyOrder
import ActiveBsp.Serialization.RoundTrip

/-!
# The place of a reply

One reply comes for each sub-request, and the client takes the first for the
first, the second for the second. The bytes are right when each sub-request asks
for the same bytes as the one in whose place it is answered, and the places
depend on nothing but when the parts are there.
-/
namespace ActiveBsp.ReplyOrder

open Library Library.Buffer Library.MachineInt Library.Ranks ActorServer MPIActorCommunicator

set_option autoImplicit false

variable {codec : Codec} {s s' : ActorServer} {t t' : PartTable} {key client : Int} {data : Bytes}
  {out : List Output} {requests : List ResultReqPart} {ms : List PartMessage}

/-- When the part of a sub-request is there: at once, or with which completion. -/
def turn (t : PartTable) (ms : List PartMessage) (r : ResultReqPart) : Nat :=
  if t.available r.resid = none then (completions t ms).idxOf r.resid + 1 else 0

/-- The sub-requests are answered once each, in places where the same bytes are expected. -/
structure InPlace (s : ActorServer) (t t' : PartTable) (client : Int)
    (requests : List ResultReqPart) (ms : List PartMessage) : Prop where
  /-- The size of a reply is an `int`. -/
  small : ∀ r ∈ requests, r.size < 2 ^ 31
  /-- The client waits for nothing else that comes meanwhile. -/
  quiet : ∀ key ∈ completions t ms, ∀ q ∈ s.parked key, q.dst ≠ client
  /-- No part that it waits for is completed a second time. -/
  once : ∀ r ∈ requests, t.available r.resid = none → (completions t ms).count r.resid = 1
  places : ∀ i r r', requests[i]? = some r →
    requests[rank (turn t ms) requests i r]? = some r' →
      askedBytes t' (ask r) = askedBytes t' (ask r')

/-- The completion that a sub-request waits for. -/
def awaited (t : PartTable) (r : ResultReqPart) : Option Int :=
  if t.available r.resid = none then some r.resid else none

def occasions (t : PartTable) (ms : List PartMessage) : List (Option Int) :=
  none :: (completions t ms).map some

theorem turn_eq (t : PartTable) (ms : List PartMessage) (r : ResultReqPart) :
    turn t ms r = (occasions t ms).idxOf (awaited t r) := by
  unfold turn awaited occasions
  by_cases hav : t.available r.resid = none
  · rw [if_pos hav, if_pos hav, List.idxOf_cons_ne _ (Option.some_ne_none _).symm]
    induction completions t ms with
    | nil => rfl
    | cons key keys ih =>
      rw [List.map_cons, List.idxOf_cons, List.idxOf_cons, ← Nat.succ_inj.mp ih]
      rfl
  · rw [if_neg hav, if_neg hav, List.idxOf_cons_self]

/-- A part that is not there and then is has been completed. -/
theorem mem_completions (hafter : after t ms = .ok t') (hnone : t.available key = none)
    (hav : t'.available key ≠ none) : key ∈ completions t ms := by
  induction ms generalizing t with
  | nil =>
    cases hafter
    exact absurd hnone hav
  | cons m ms ih =>
    unfold after at hafter
    cases hap : m.apply t with
    | error e =>
      rw [hap] at hafter
      cases hafter
    | ok t₁ =>
      rw [hap] at hafter
      rw [completions, hap]
      dsimp only
      by_cases hkey : key = m.key
      · subst hkey
        by_cases h₁ : t₁.available m.key = none
        · rw [if_pos h₁]
          exact ih hafter h₁
        · rw [if_neg h₁]
          exact List.mem_cons_self
      · have hmem := ih hafter ((apply_other hap hkey).trans hnone)
        split_ifs
        · exact hmem
        · exact List.mem_cons_of_mem _ hmem

theorem count_occasions {r : ResultReqPart} :
    (occasions t ms).count (awaited t r) =
      if t.available r.resid = none then (completions t ms).count r.resid else 1 := by
  unfold occasions awaited
  split_ifs with hav
  · rw [List.count_cons_of_ne (Option.some_ne_none _).symm,
      List.count_map_of_injective _ _ (Option.some_injective Int)]
  · rw [List.count_cons_self, List.count_eq_zero_of_not_mem (by simp)]

theorem count_occasions_pos {r : ResultReqPart} (hafter : after t ms = .ok t')
    (hav : t'.available r.resid ≠ none) : 0 < (occasions t ms).count (awaited t r) := by
  rw [count_occasions]
  split_ifs with hnone
  · exact List.count_pos_iff.mpr (mem_completions hafter hnone hav)
  · exact Nat.one_pos

theorem early_eq (t : PartTable) (requests : List ResultReqPart) :
    early t requests = requests.filter fun r => awaited t r = none := by
  refine List.filter_congr fun r _ => ?_
  by_cases hav : t.available r.resid = none <;> simp [awaited, hav]

theorem late_eq (t : PartTable) (requests : List ResultReqPart) (key : Int) :
    ((late t requests).filter fun r => r.resid = key) =
      requests.filter fun r => awaited t r = some key := by
  rw [late, List.filter_filter]
  refine List.filter_congr fun r _ => ?_
  by_cases hav : t.available r.resid = none <;> simp [awaited, hav]

/-- Besides what the client has waited for, sub-requests are answered on each of their occasions. -/
theorem length_inTurn (s : ActorServer) (t : PartTable) (client : Int)
    (requests : List ResultReqPart) (ms : List PartMessage) :
    (inTurn s t client requests ms).length =
      ((completions t ms).map fun key =>
        ((s.parked key).filter fun q => q.dst = client).length).sum +
      (requests.map fun r => (occasions t ms).count (awaited t r)).sum := by
  rw [inTurn, List.length_append, List.length_map, List.length_flatMap, ← Lists.sum_length_filter,
    occasions, List.map_cons, List.sum_cons, List.map_map, early_eq]
  have hwaits : (completions t ms).map (fun key => (waits s t client requests key).length) =
      (completions t ms).map fun key =>
        ((s.parked key).filter fun q => q.dst = client).length +
          (requests.filter fun r => awaited t r = some key).length := by
    refine List.map_congr_left fun key _ => ?_
    rw [waits, late_eq, List.length_append, List.length_map, List.length_map]
  rw [hwaits, List.sum_map_add]
  exact Nat.add_left_comm _ _ _

theorem inTurn_of_quiet (hquiet : ∀ key ∈ completions t ms, ∀ q ∈ s.parked key, q.dst ≠ client) :
    inTurn s t client requests ms =
      ((occasions t ms).flatMap fun k => requests.filter fun r => awaited t r = k).map ask := by
  have hwaits : ∀ key ∈ completions t ms, waits s t client requests key =
      (requests.filter fun r => awaited t r = some key).map ask := by
    intro key hkey
    have hnone : ((s.parked key).filter fun q => q.dst = client) = [] :=
      List.filter_eq_nil_iff.mpr fun q hq => by simpa using hquiet key hkey q hq
    rw [waits, hnone, late_eq, List.map_nil, List.nil_append]
  rw [inTurn, early_eq, List.flatMap_congr hwaits, occasions, List.flatMap_cons, List.flatMap_map,
    List.map_append, List.map_flatMap]

theorem inTurn_eq_byTurn (hquiet : ∀ key ∈ completions t ms, ∀ q ∈ s.parked key, q.dst ≠ client)
    (honce : ∀ r ∈ requests, t.available r.resid = none → (completions t ms).count r.resid = 1) :
    inTurn s t client requests ms =
      (byTurn (turn t ms) (occasions t ms).length requests).map ask := by
  have hcount : ∀ r ∈ requests, (occasions t ms).count (awaited t r) ≤ 1 := by
    intro r hr
    rw [count_occasions]
    split_ifs with hav
    · exact (honce r hr hav).le
    · exact le_refl 1
  rw [inTurn_of_quiet hquiet, flatMap_filter_eq_byTurn (awaited t) hcount]
  simp only [← turn_eq]

/-- As many replies as sub-requests: nothing else came, and each of them came once. -/
theorem answered_once_of_length (hafter : after t ms = .ok t')
    (hav : ∀ r ∈ requests, t'.available r.resid ≠ none)
    (hlen : (inTurn s t client requests ms).length = requests.length) :
    (∀ key ∈ completions t ms, ∀ q ∈ s.parked key, q.dst ≠ client) ∧
      ∀ r ∈ requests, t.available r.resid = none → (completions t ms).count r.resid = 1 := by
  rw [length_inTurn] at hlen
  have hone : (requests.map fun _ => 1).sum = requests.length := by simp
  have hpos : ∀ r ∈ requests, 1 ≤ (occasions t ms).count (awaited t r) :=
    fun r hr => count_occasions_pos hafter (hav r hr)
  have hlow : (requests.map fun _ => 1).sum ≤
      (requests.map fun r => (occasions t ms).count (awaited t r)).sum := List.sum_le_sum hpos
  constructor
  · intro key hkey q hq hdst
    have hnone : ∀ n ∈ (completions t ms).map fun key =>
        ((s.parked key).filter fun q => q.dst = client).length, n = 0 :=
      List.sum_eq_zero_iff.mp (by omega)
    have hempty := List.eq_nil_of_length_eq_zero (hnone _ (List.mem_map_of_mem hkey))
    exact List.filter_eq_nil_iff.mp hempty q hq (decide_eq_true hdst)
  · intro r hr hnone
    have hcount := Lists.eq_of_sum_le hpos (by omega) r hr
    rw [count_occasions, if_pos hnone] at hcount
    exact hcount.symm

theorem askedBytes_length {r : ResultReqPart} (hav : t.available r.resid = some data)
    (hfit : r.offset + r.size ≤ data.length) : (askedBytes t (ask r)).length = r.size := by
  have hcontent : content t r.resid = data := by rw [content, hav, Option.getD_some]
  exact length_slice_of_le (by rw [ask, hcontent]; exact hfit)

theorem sentBytes_length_le (t : PartTable) (a : Ask) :
    (sentBytes t a).length ≤ (toInt32 a.size).toNat := by
  rw [sentBytes, sent, length_slice]
  exact min_le_left _ _

theorem sentBytes_of_small {a : Ask} (h : a.size < 2 ^ 31) : sentBytes t a = askedBytes t a := by
  rw [sentBytes, sent, toInt32_natCast h, Int.toNat_natCast, askedBytes]

/-- As many bytes as asked for: no size was cut. -/
theorem small_of_length {n : Nat} (hin : ∀ r ∈ requests, ∃ data, t'.available r.resid = some data ∧
      r.offset + r.size ≤ data.length ∧ data.length < 2 ^ 64)
    (hturn : ∀ r ∈ requests, turn t ms r < n)
    (heq : ((byTurn (turn t ms) n requests).map ask).map (sentBytes t') =
      requests.map fun r => askedBytes t' (ask r)) : ∀ r ∈ requests, r.size < 2 ^ 31 := by
  have hcut : ∀ k : Nat, (toInt32 k).toNat ≤ k := by
    intro k
    unfold toInt32
    rw [Int.bmod_def]
    omega
  have hle : ∀ r ∈ requests, (sentBytes t' (ask r)).length ≤ r.size :=
    fun r _ => (sentBytes_length_le t' (ask r)).trans (hcut r.size)
  have htotal : (requests.map fun r => (sentBytes t' (ask r)).length).sum =
      (requests.map fun r => r.size).sum := by
    have hperm := ((byTurn_perm hturn).map fun r => (sentBytes t' (ask r)).length).sum_eq
    have hasked : (requests.map fun r => (askedBytes t' (ask r)).length) =
        requests.map fun r => r.size := by
      refine List.map_congr_left fun r hr => ?_
      obtain ⟨data, hav, hfit, -⟩ := hin r hr
      exact askedBytes_length hav hfit
    have hlen := congrArg (fun l : List Bytes => (l.map List.length).sum) heq
    simp only [List.map_map, Function.comp_def] at hlen
    rw [← hperm, hlen, hasked]
  intro r hr
  have hsent := Lists.eq_of_sum_le hle htotal.ge r hr
  have hle' := sentBytes_length_le t' (ask r)
  rw [hsent] at hle'
  by_contra hbig
  have hlt : (toInt32 r.size).toNat < r.size := by
    unfold toInt32
    rw [Int.bmod_def]
    omega
  exact absurd hle' (Nat.not_le.mpr hlt)

theorem turn_lt (hafter : after t ms = .ok t') {r : ResultReqPart}
    (hav : t'.available r.resid ≠ none) : turn t ms r < (occasions t ms).length := by
  rw [turn_eq]
  exact List.idxOf_lt_length_of_mem (List.count_pos_iff.mp (count_occasions_pos hafter hav))

/-- The asks in turn carry the bytes of the list exactly when every sub-request is in its place. -/
theorem inTurn_match_iff (hafter : after t ms = .ok t')
    (hin : ∀ r ∈ requests, ∃ data, t'.available r.resid = some data ∧
      r.offset + r.size ≤ data.length ∧ data.length < 2 ^ 64) :
    (inTurn s t client requests ms).map (sentBytes t') =
        requests.map (fun r => askedBytes t' (ask r)) ↔ InPlace s t t' client requests ms := by
  have hav : ∀ r ∈ requests, t'.available r.resid ≠ none := by
    intro r hr
    obtain ⟨data, hsome, -⟩ := hin r hr
    rw [hsome]
    exact Option.some_ne_none data
  have hturn : ∀ r ∈ requests, turn t ms r < (occasions t ms).length :=
    fun r hr => turn_lt hafter (hav r hr)
  have hsmall : (∀ r ∈ requests, r.size < 2 ^ 31) →
      (byTurn (turn t ms) (occasions t ms).length requests).map (fun r => sentBytes t' (ask r)) =
        (byTurn (turn t ms) (occasions t ms).length requests).map
          fun r => askedBytes t' (ask r) := by
    intro h
    refine List.map_congr_left fun r hr => sentBytes_of_small (h r ?_)
    exact (byTurn_perm hturn).mem_iff.mp hr
  constructor
  · intro heq
    have hlen : (inTurn s t client requests ms).length = requests.length := by
      simpa using congrArg List.length heq
    obtain ⟨hquiet, honce⟩ := answered_once_of_length hafter hav hlen
    rw [inTurn_eq_byTurn hquiet honce] at heq
    have hsizes := small_of_length hin hturn heq
    rw [List.map_map, Function.comp_def, hsmall hsizes, map_byTurn_eq_iff hturn] at heq
    exact ⟨hsizes, hquiet, honce, heq⟩
  · intro h
    rw [inTurn_eq_byTurn h.quiet h.once, List.map_map, Function.comp_def, hsmall h.small]
    exact (map_byTurn_eq_iff hturn _ _).mpr h.places

/-- Parts that become available in the order of the list, each once, for a client that waits for
nothing else. -/
theorem inPlace_of_list_order (hafter : after t ms = .ok t')
    (hav : ∀ r ∈ requests, t'.available r.resid ≠ none) (hsmall : ∀ r ∈ requests, r.size < 2 ^ 31)
    (hquiet : ∀ key ∈ completions t ms, ∀ q ∈ s.parked key, q.dst ≠ client)
    (honce : ∀ r ∈ requests, t.available r.resid = none → (completions t ms).count r.resid = 1)
    (horder : requests.Pairwise fun r r' => turn t ms r ≤ turn t ms r') :
    InPlace s t t' client requests ms := by
  have hturn : ∀ r ∈ requests, turn t ms r < (occasions t ms).length :=
    fun r hr => turn_lt hafter (hav r hr)
  refine ⟨hsmall, hquiet, honce, (map_byTurn_eq_iff hturn _ _).mp ?_⟩
  rw [byTurn_of_sorted hturn horder]

/-- Every reply carries the bytes of its own sub-request exactly when nothing else comes for the
client and each sub-request asks for the same bytes as the one in whose place it is answered. -/
theorem replies_match_iff {requests : List ResultReqPart} {ms : List (Int × PartMessage)}
    {s₁ : ActorServer} {outs : List (List Output)} (hs : Ready s) (ht : s.dataStore.Represents t)
    (hafter : after t (ms.map Prod.snd) = .ok t')
    (hin : ∀ r ∈ requests, ∃ data, t'.available r.resid = some data ∧
      r.offset + r.size ≤ data.length ∧ data.length < 2 ^ 64)
    (hget : step codec (.message client (.getResultParts ⟨client, requests⟩)) s =
      (out, .ok ((), s₁)))
    (hrun : Act.trace (step codec) (ms.map partInput) s₁ = (outs, .ok s')) :
    repliesTo client (out ++ outs.flatten) = requests.map (fun r => askedBytes t' (ask r)) ↔
      InPlace s t t' client requests (ms.map Prod.snd) := by
  have hinside : ∀ r ∈ requests, Inside t r := by
    intro r hr data hav
    obtain ⟨data', hav', hfit⟩ := hin r hr
    obtain rfl : data = data' := by
      rw [after_keeps hafter hav] at hav'
      exact Option.some.inj hav'
    exact hfit
  rw [replies_in_turn hs ht hinside hafter hget hrun]
  exact inTurn_match_iff hafter hin

/-- The part 2 is there, the part 1 is not. -/
def sampleServer : ActorServer :=
  { pid := 1, dataStore := .single 2 (.ofMessage [20]) }

def sampleArrival : List (Int × PartMessage) := [(4, .whole ⟨1, [10]⟩)]

/-- A read of the part 1 and the part 2, in this order, gets the bytes of the part 2 first. -/
theorem replies_swapped :
    ∃ out s₁ outs s' t', step Serialization.ArchiveFormat.sampleFormat.codec
        (.message 9 (.getResultParts ⟨9, [⟨1, 0, 1, 0⟩, ⟨2, 0, 1, 1⟩]⟩)) sampleServer =
          (out, .ok ((), s₁)) ∧
      Act.trace (step Serialization.ArchiveFormat.sampleFormat.codec)
        (sampleArrival.map partInput) s₁ = (outs, .ok s') ∧
      after (PartialMap.empty.set 2 (.ofMessage [20])) (sampleArrival.map Prod.snd) = .ok t' ∧
      repliesTo 9 (out ++ outs.flatten) = [[20], [10]] ∧
      [⟨1, 0, 1⟩, ⟨2, 0, 1⟩].map (askedBytes t') = [[10], [20]] :=
  ⟨_, _, _, _, _, rfl, rfl, rfl, rfl, rfl⟩

theorem replies_match_sample :
    ∃ out s₁ outs s', step Serialization.ArchiveFormat.sampleFormat.codec
        (.message 9 (.getResultParts ⟨9, [⟨2, 0, 1, 0⟩, ⟨1, 0, 1, 1⟩]⟩)) sampleServer =
          (out, .ok ((), s₁)) ∧
      Act.trace (step Serialization.ArchiveFormat.sampleFormat.codec)
        (sampleArrival.map partInput) s₁ = (outs, .ok s') ∧
      repliesTo 9 (out ++ outs.flatten) = [[20], [10]] := by
  refine ⟨_, _, _, _, rfl, rfl, ?_⟩
  have hiff := replies_match_iff (s := sampleServer) ⟨rfl, rfl, rfl⟩
    (DataStore.single_represents 2 (.ofMessage [20]))
    (show after _ (sampleArrival.map Prod.snd) = .ok _ from rfl)
    (by
      intro r hr
      rcases List.mem_cons.mp hr with rfl | hr
      · exact ⟨[20], rfl, by decide, by decide⟩
      · rw [List.mem_singleton.mp hr]
        exact ⟨[10], rfl, by decide, by decide⟩)
    (show step Serialization.ArchiveFormat.sampleFormat.codec
      (.message 9 (.getResultParts ⟨9, [⟨2, 0, 1, 0⟩, ⟨1, 0, 1, 1⟩]⟩)) _ = (_, .ok ((), _))
      from rfl)
    (show Act.trace _ _ _ = (_, .ok _) from rfl)
  refine hiff.mpr ⟨by decide, by decide, by decide, ?_⟩
  intro i r r' hi hr'
  match i with
  | 0 =>
    cases hi
    cases hr'
    rfl
  | 1 =>
    cases hi
    cases hr'
    rfl
  | i + 2 => cases hi

end ActiveBsp.ReplyOrder
