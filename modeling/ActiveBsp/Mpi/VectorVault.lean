import ActiveBsp.Library.Backlog
import ActiveBsp.Management.Distribute
import ActiveBsp.Management.PieceDelivery
import ActiveBsp.Mpi.ExactReads

/-!
# The parts of one client

What a process keeps for one client, and what the messages of that client make
of it. The manager serves each client as if the others were not there: the keys
of their parts are different.
-/
namespace ActiveBsp.VectorSessions

open Library Library.Buffer Library.MachineInt Library.Tiling ActorServer MPIActorCommunicator

set_option autoImplicit false

/-- The parts that one client keeps at one process. -/
abbrev Vault : Type := PartialMap Int Bytes

/-- The bytes that a request asks for, if the part is there and has them. -/
def Vault.read (vault : Vault) (r : ResultReqPart) : Option Bytes :=
  (vault r.resid).bind fun data =>
    if r.offset + r.size ≤ data.length ∧ data.length < 2 ^ 31 then some (slice data r.offset r.size)
    else none

/-- A message of the client, and the replies to it. -/
def serve (client : Int) (vault : Vault) : ActorMessage → Option (Vault × List Bytes)
  | .storeResult msg =>
    if vault msg.resId = none then some (vault.set msg.resId msg.data, []) else none
  | .releaseResult key => if vault key = none then none else some (vault.erase key, [])
  | .getResultParts msg =>
    if msg.forwardTo = client then (msg.parts.mapM vault.read).map fun replies => (vault, replies)
    else none
  | .distributeVector _ => some (vault, [])
  | _ => none

/-- The parts as the manager keeps them. -/
def Vault.table (vault : Vault) : PartTable := fun key => (vault key).map .ofMessage

theorem Vault.available_of_table {vault : Vault} {t : PartTable} {key : Int} {data : Bytes}
    (ht : t key = vault.table key) (h : vault key = some data) : t.available key = some data := by
  unfold PartTable.available PartTable.get
  rw [ht, Vault.table, h]
  rfl

theorem Vault.read_inv {vault : Vault} {r : ResultReqPart} {reply : Bytes}
    (h : vault.read r = some reply) : ∃ data, vault r.resid = some data ∧
      r.offset + r.size ≤ data.length ∧ data.length < 2 ^ 31 ∧ reply = slice data r.offset r.size := by
  obtain ⟨data, hdata, hread⟩ := Option.bind_eq_some_iff.mp h
  split_ifs at hread with hin
  exact ⟨data, hdata, hin.1, hin.2, (Option.some.inj hread).symm⟩

/-- What the manager sends for requests that the vault can answer, and that it parks none. -/
theorem answers (client src : Int) {vault : Vault} {t : PartTable}
    (ht : ∀ key data, vault key = some data → t.available key = some data)
    {parts : List ResultReqPart} {replies : List Bytes} (h : parts.mapM vault.read = some replies)
    (pending : PartialMap Int (List PendingResultRequest)) :
    (∀ r ∈ parts, InRange t r) ∧ parts.filterMap (answer t client) = replies.map (.resultPart client) ∧
      parts.foldl (park t src) pending = pending := by
  induction parts generalizing replies with
  | nil =>
    cases h
    exact ⟨List.forall_mem_nil _, rfl, rfl⟩
  | cons r parts ih =>
    rw [List.mapM_cons] at h
    obtain ⟨reply, hr, h⟩ := Option.bind_eq_some_iff.mp h
    obtain ⟨rest, hrest, h⟩ := Option.bind_eq_some_iff.mp h
    cases Option.some.inj h
    obtain ⟨data, hdata, hin, hsmall, rfl⟩ := Vault.read_inv hr
    obtain ⟨hranges, hanswers, hparked⟩ := ih hrest
    have hav := ht r.resid data hdata
    refine ⟨?_, ?_, ?_⟩
    · apply List.forall_mem_cons.mpr ⟨⟨by omega, fun data' hdata' => ?_⟩, hranges⟩
      rw [hav, Option.some_inj] at hdata'
      subst hdata'
      exact ⟨hin, by omega⟩
    · have hfirst : answer t client r = some (.resultPart client (slice data r.offset r.size)) := by
        rw [answer, hav]
        rfl
      rw [List.filterMap_cons_some hfirst, hanswers, List.map_cons]
    · rw [List.foldl_cons, park, if_neg (by rw [hav]; exact Option.some_ne_none data), hparked]

/-- What the manager keeps under a key: a part of the client that owns the key, if anyone does. -/
def holding (table : PartTable) (owner : Int → Option Int) (vault : Int → Vault) : PartTable :=
  fun key => match owner key with
    | none => table key
    | some client => (vault client).table key

/-- The manager that was in state `s₀` has come to state `s` by messages about parts of vectors. -/
structure Serves (table : PartTable) (owner : Int → Option Int) (vault : Int → Vault)
    (s₀ s : ActorServer) : Prop where
  core : { s with
    dataStore := s₀.dataStore
    nextResultStoreLocalKey := s₀.nextResultStoreLocalKey } = s₀
  parts : s.dataStore.Represents (holding table owner vault)

namespace Serves

variable {table : PartTable} {owner : Int → Option Int} {vault : Int → Vault}
  {s₀ s : ActorServer} {client : Int} {vault' : Vault} {replies : List Bytes}

theorem ready (h : Serves table owner vault s₀ s) (hready : Ready s₀) : Ready s where
  receiving := (congrArg ActorServer.phase h.core).trans hready.receiving
  running := (congrArg ActorServer.qrun h.core).trans hready.running
  free := (congrArg ActorServer.resultStoreLock h.core).trans hready.free

theorem pids (h : Serves table owner vault s₀ s) : s.pids = s₀.pids := by
  rw [← h.core]

theorem parked_eq (h : Serves table owner vault s₀ s) (key : Int) : s.parked key = s₀.parked key := by
  rw [← h.core]
  rfl

theorem update_parts {ds : DataStore} {owner' : Int → Option Int} {vault' : Int → Vault}
    (h : Serves table owner vault s₀ s) (hrep : ds.Represents (holding table owner' vault')) :
    Serves table owner' vault' s₀ { s with dataStore := ds } := ⟨h.core, hrep⟩

theorem holding_owned {key : Int} (h : owner key = some client) :
    holding table owner vault key = (vault client).table key := by
  rw [holding, h]

/-- The part of one client changes. -/
theorem holding_update {key : Int} (h : owner key = some client)
    (hsame : ∀ k ≠ key, vault' k = vault client k) :
    holding table owner (Function.update vault client vault') =
      fun k => if k = key then vault'.table key else holding table owner vault k := by
  funext k
  by_cases hk : k = key
  · subst hk
    simp only [holding, h, if_true, Function.update_self]
  · rw [if_neg hk]
    unfold holding
    cases howner : owner k with
    | none => rfl
    | some c =>
      by_cases hc : c = client
      · subst hc
        simp only [Function.update_self, Vault.table, hsame k hk]
      · simp only [Function.update_of_ne hc]

/-- A message of a client is handled as its vault says. -/
theorem handles (codec : Codec) {msg : ActorMessage} (h : Serves table owner vault s₀ s) (hready : Ready s₀)
    (hparked : ∀ key, s₀.parked key = [])
    (howned : ∀ key data, vault client key = some data → owner key = some client)
    (hmine : ∀ m, msg = .storeResult m → owner m.resId = some client)
    (hserve : serve client (vault client) msg = some (vault', replies))
    (hnew : ∀ m, msg ≠ .distributeVector m) :
    ∃ s', step codec (.message client msg) s = (replies.map (.resultPart client), .ok ((), s')) ∧
      Serves table owner (Function.update vault client vault') s₀ s' ∧
      s'.nextResultStoreLocalKey = s.nextResultStoreLocalKey := by
  obtain ⟨hphase, hrun, hfree⟩ := h.ready hready
  have hstep : ∀ msg, step codec (.message client msg) s = routeHandleMessage codec client msg s :=
    step_message hphase hrun client
  cases msg with
  | storeResult m =>
    simp only [serve] at hserve
    split_ifs at hserve with hnone
    cases Option.some.inj hserve
    have howner := hmine m rfl
    have hk : holding table owner vault m.resId = none := by
      rw [holding_owned howner, Vault.table, hnone]
      rfl
    have hpark : s.parked m.resId = [] := (h.parked_eq _).trans (hparked _)
    obtain ⟨ds, heq, hrep⟩ := handleStoreResultMessage_stores hfree h.parts hk
      (by rw [hpark]; exact List.forall_mem_nil _)
    rw [hpark] at heq
    refine ⟨_, (hstep _).trans heq, h.update_parts ?_, rfl⟩
    rw [holding_update howner fun k hk => PartialMap.set_of_ne _ _ hk]
    convert hrep using 1
    funext k
    simp [Vault.table, PartialMap.set_apply]
  | releaseResult key =>
    simp only [serve] at hserve
    split_ifs at hserve with hnone
    cases Option.some.inj hserve
    obtain ⟨data, hdata⟩ := Option.ne_none_iff_exists'.mp hnone
    have howner := howned key data hdata
    have hk : holding table owner vault key ≠ none := by
      rw [holding_owned howner, Vault.table, hdata]
      exact Option.some_ne_none _
    obtain ⟨ds, heq, hrep⟩ := handleReleaseResultPartMessage_removes hfree h.parts hk
    refine ⟨_, (hstep _).trans heq, h.update_parts ?_, rfl⟩
    rw [holding_update howner fun k hk => PartialMap.erase_of_ne _ hk]
    convert hrep using 1
    funext k
    simp [Vault.table, PartialMap.erase_apply]
  | getResultParts m =>
    obtain ⟨forwardTo, parts⟩ := m
    simp only [serve] at hserve
    split_ifs at hserve with hto
    subst hto
    obtain ⟨replies', hread, hpair⟩ := Option.map_eq_some_iff.mp hserve
    cases hpair
    have hav : ∀ key data, vault forwardTo key = some data →
        (holding table owner vault).available key = some data := fun key data hdata =>
      Vault.available_of_table (holding_owned (howned key data hdata)) hdata
    obtain ⟨hrange, hanswer, hpark⟩ := answers forwardTo forwardTo hav hread s.pendingResultRequests
    have heq : handleGetResultPartsMessage forwardTo ⟨forwardTo, parts⟩ s = _ :=
      handleGetResultPartsMessage_eq hfree h.parts hrange
    rw [hanswer, hpark] at heq
    refine ⟨_, (hstep _).trans heq, ?_, rfl⟩
    rw [Function.update_eq_self]
    exact h
  | distributeVector m => exact absurd rfl (hnew m)
  | _ => cases hserve

/-- Keys under which nothing is kept yet get an owner. -/
theorem own {owner' : Int → Option Int} (h : Serves table owner vault s₀ s)
    (hnew : ∀ key, owner' key = owner key ∨
      owner key = none ∧ table key = none ∧ ∀ c, vault c key = none) :
    Serves table owner' vault s₀ s where
  core := h.core
  parts := by
    have hsame : holding table owner' vault = holding table owner vault := by
      funext key
      rcases hnew key with heq | ⟨hnone, htable, hvault⟩
      · unfold holding
        rw [heq]
      · unfold holding
        rw [hnone]
        cases owner' key with
        | none => rfl
        | some c => simp only [Vault.table, hvault c, htable, Option.map_none]
    rw [hsame]
    exact h.parts

/-- A request for a distribution is answered with keys that the head gives next. -/
theorem distributes (codec : Codec) (client : Int) (msg : DistributeVectorMessage)
    (h : Serves table owner vault s₀ s) (hready : Ready s₀) :
    ∃ s', step codec (.message client (.distributeVector msg)) s =
        ([.distrVector client (distribution s₀.pids s.nextResultStoreLocalKey msg)],
          .ok ((), s')) ∧
      Serves table owner vault s₀ s' ∧
      s'.nextResultStoreLocalKey = localKey s.nextResultStoreLocalKey s₀.pids.length := by
  obtain ⟨hphase, hrun, -⟩ := h.ready hready
  have heq : step codec (.message client (.distributeVector msg)) s =
      handleDistributeVectorMessage client msg s := step_message hphase hrun client _
  rw [handleDistributeVectorMessage_eq] at heq
  refine ⟨{ s with
    nextResultStoreLocalKey := localKey s.nextResultStoreLocalKey s.pids.length }, ?_,
    ⟨h.core, h.parts⟩, ?_⟩
  · rw [heq, h.pids]
  · rw [h.pids]

end Serves

section Prompt

variable {client : Int} {prompt : Vault}

/-- The parts of a new vector. -/
theorem serveAll_stores (v : Bytes) {parts : List VectorDistributionPart}
    (hkeys : (parts.map VectorDistributionPart.resid).Nodup)
    (hnone : ∀ part ∈ parts, prompt part.resid = none) :
    ∃ prompt', serveAll (serve client) (parts.map fun part =>
        .storeResult ⟨part.resid, slice v part.offset part.size⟩) prompt = some (prompt', []) ∧
      ∀ key data, prompt' key = some data ↔ prompt key = some data ∨
        ∃ part ∈ parts, part.resid = key ∧ data = slice v part.offset part.size := by
  induction parts generalizing prompt with
  | nil => exact ⟨prompt, rfl, fun key data => by simp⟩
  | cons part parts ih =>
    obtain ⟨hfirst, hrest⟩ := List.nodup_cons.mp hkeys
    have hserve : serve client prompt (.storeResult ⟨part.resid, slice v part.offset part.size⟩) =
        some (prompt.set part.resid (slice v part.offset part.size), []) := by
      simp only [serve, hnone part List.mem_cons_self, if_true]
    have hnone' : ∀ p ∈ parts, prompt.set part.resid (slice v part.offset part.size) p.resid =
        none := by
      intro p hp
      have hne : p.resid ≠ part.resid := fun he => hfirst (he ▸ List.mem_map_of_mem hp)
      rw [PartialMap.set_of_ne _ _ hne]
      exact hnone p (List.mem_cons_of_mem _ hp)
    obtain ⟨prompt', hall, hkeeps⟩ := ih hrest hnone'
    refine ⟨prompt', serveAll_cons hserve hall, fun key data => ?_⟩
    rw [hkeeps, PartialMap.set_apply]
    by_cases hk : key = part.resid
    · subst hk
      simp [hnone part List.mem_cons_self, eq_comm]
    · simp [hk, Ne.symm hk]

/-- The parts of a vector that is given back. -/
theorem serveAll_releases {parts : List VectorDistributionPart}
    (hkeys : (parts.map VectorDistributionPart.resid).Nodup)
    (hsome : ∀ part ∈ parts, prompt part.resid ≠ none) :
    ∃ prompt', serveAll (serve client) (parts.map fun part => .releaseResult part.resid) prompt =
        some (prompt', []) ∧
      ∀ key data, prompt' key = some data ↔ prompt key = some data ∧
        ∀ part ∈ parts, part.resid ≠ key := by
  induction parts generalizing prompt with
  | nil => exact ⟨prompt, rfl, fun key data => by simp⟩
  | cons part parts ih =>
    obtain ⟨hfirst, hrest⟩ := List.nodup_cons.mp hkeys
    have hserve : serve client prompt (.releaseResult part.resid) =
        some (prompt.erase part.resid, []) := by
      simp only [serve, if_neg (hsome part List.mem_cons_self)]
    have hsome' : ∀ p ∈ parts, prompt.erase part.resid p.resid ≠ none := by
      intro p hp
      have hne : p.resid ≠ part.resid := fun he => hfirst (he ▸ List.mem_map_of_mem hp)
      rw [PartialMap.erase_of_ne _ hne]
      exact hsome p (List.mem_cons_of_mem _ hp)
    obtain ⟨prompt', hall, hkeeps⟩ := ih hrest hsome'
    refine ⟨prompt', serveAll_cons hserve hall, fun key data => ?_⟩
    rw [hkeeps, PartialMap.erase_apply]
    by_cases hk : key = part.resid
    · simp [hk]
    · simp [hk, Ne.symm hk]

/-- Requests that the vault can answer. -/
theorem serveAll_requests {reqs : List (Int × List ResultReqPart)}
    (hread : ∀ e ∈ reqs, ∃ replies, e.2.mapM prompt.read = some replies) :
    ∃ replies, serveAll (serve client) (reqs.map fun e => .getResultParts ⟨client, e.2⟩) prompt =
        some (prompt, replies) ∧ (reqs.flatMap Prod.snd).mapM prompt.read = some replies := by
  induction reqs with
  | nil => exact ⟨[], rfl, rfl⟩
  | cons e reqs ih =>
    obtain ⟨first, hfirst⟩ := hread e List.mem_cons_self
    obtain ⟨rest, hall, hrest⟩ := ih fun e' he' => hread e' (List.mem_cons_of_mem _ he')
    have hserve : serve client prompt (.getResultParts ⟨client, e.2⟩) = some (prompt, first) := by
      simp only [serve, if_true, hfirst, Option.map_some]
    refine ⟨first ++ rest, serveAll_cons hserve hall, ?_⟩
    rw [List.flatMap_cons, List.mapM_append, hfirst, hrest]
    rfl

end Prompt

end ActiveBsp.VectorSessions
