import ActiveBsp.Management.PartKeys
import ActiveBsp.Serialization.RoundTrip

/-!
# Keys of parts over whole runs

The processes side by side, and the parts that a head or a worker has numbered
and nobody has stored yet. Actors come and go, so one process can keep parts
that different heads numbered for it.
-/
namespace ActiveBsp.KeyReuse

open Library Library.MachineInt ActorServer PartKeys

set_option autoImplicit false

/-- The threads of a process that take keys. -/
inductive Thread where
  | management
  | worker
  deriving DecidableEq, Repr

/-- The processes, the numbered parts under way, who numbered the part that a process stored last
under a key, and what `FutureKeyManager::getInstance` finds: the processes that have a key
manager, and the threads that found none and are about to allocate one. -/
structure Processes where
  servers : Int → ActorServer
  mail : List Posted
  numberedBy : Int → Int → Option Origin
  allocated : Int → Bool
  allocating : Int → Thread → Bool

/-- A process gets an input, or a numbered part from its sender, or one of its threads is in
`getInstance`, which takes no lock between its check and its allocation. -/
inductive Move where
  | input (pid : Int) (i : Input)
  | store (src : Int) (posted : Posted) (data : Bytes)
  | findNone (pid : Int) (thread : Thread)
  | allocate (pid : Int) (thread : Thread)
  deriving DecidableEq, Repr

namespace Move

def pid : Move → Int
  | input pid _ | findNone pid _ | allocate pid _ => pid
  | store _ posted _ => posted.dst

def toInput : Move → Option Input
  | input _ i => some i
  | store src posted data => some (.message src (.storeResult ⟨posted.key, data⟩))
  | findNone .. | allocate .. => none

end Move

/-- The thread that an input occupies. -/
def threadOf : Input → Thread
  | .setIntraActorComm _ | .takeKey => .worker
  | _ => .management

namespace Processes

/-- A `StoreResult` comes for a part that was numbered, once; keys are taken from a key manager. -/
def Enabled (sys : Processes) : Move → Prop
  | .input _ (.message _ (.storeResult _)) => False
  | .input pid i => sys.allocating pid (threadOf i) = false ∧
      (keysTaken (sys.servers pid) i ≠ 0 → sys.allocated pid = true)
  | .store _ posted _ => sys.allocating posted.dst .management = false ∧ posted ∈ sys.mail
  | .findNone pid thread => sys.allocating pid thread = false ∧ sys.allocated pid = false
  | .allocate pid thread => sys.allocating pid thread = true

instance (sys : Processes) (move : Move) : Decidable (sys.Enabled move) := by
  unfold Enabled
  split <;> infer_instance

theorem Enabled.allocated {sys : Processes} {pid : Int} {i : Input}
    (h : sys.Enabled (.input pid i)) (ht : keysTaken (sys.servers pid) i ≠ 0) :
    sys.allocated pid = true := by
  unfold Enabled at h
  split at h
  · exact h.elim
  · rename_i heq
    cases heq
    exact h.2 ht
  all_goals rename_i heq; cases heq

def server (sys : Processes) (move : Move) : ActorServer := sys.servers move.pid

/-- The system after a move whose handler returned. -/
def next (sys : Processes) (move : Move) (out : List Output) (s' : ActorServer) : Processes :=
  { sys with
    servers := Function.update sys.servers move.pid s'
    mail := match move with
      | .store _ posted _ => sys.mail.erase posted
      | _ => sys.mail ++ out.flatMap (posts move.pid)
    numberedBy := match move with
      | .store _ posted _ => Function.update sys.numberedBy posted.dst
          (Function.update (sys.numberedBy posted.dst) posted.key (some posted.origin))
      | _ => sys.numberedBy }

def setAllocating (sys : Processes) (pid : Int) (thread : Thread) (b : Bool) : Processes :=
  { sys with
    allocating := Function.update sys.allocating pid
      (Function.update (sys.allocating pid) thread b) }

/-- `_instance = new FutureKeyManager()`, also where another thread has allocated one. -/
def allocate (sys : Processes) (pid : Int) : Processes :=
  { sys with
    servers := Function.update sys.servers pid { sys.servers pid with futureKeyManager := {} }
    allocated := Function.update sys.allocated pid true }

/-- A thread in `getInstance`. -/
def getInstance (sys : Processes) : Move → Processes
  | .findNone pid thread => sys.setAllocating pid thread true
  | .allocate pid thread => (sys.setAllocating pid thread false).allocate pid
  | _ => sys

def start : Processes :=
  ⟨fun pid => { pid := pid }, [], fun _ _ => none, fun _ => false, fun _ _ => false⟩

def step (codec : Codec) (move : Move) : Act Processes (Int × Output) Fault Unit := fun sys =>
  if sys.Enabled move then
    match move.toInput with
    | none => ([], .ok ((), sys.getInstance move))
    | some i =>
      match ActorServer.step codec i (sys.server move) with
      | (out, .error e) => (out.map (Prod.mk move.pid), .error e)
      | (out, .ok (_, s')) => (out.map (Prod.mk move.pid), .ok ((), sys.next move out s'))
  else ([], .error .blocked)

end Processes

variable {codec : Codec} {sys sys' : Processes} {move : Move} {moves : List Move}

theorem step_inv {out : List (Int × Output)}
    (h : Processes.step codec move sys = (out, .ok ((), sys'))) :
    sys.Enabled move ∧
      ((move.toInput = none ∧ sys' = sys.getInstance move) ∨
        ∃ i outs s', move.toInput = some i ∧
          ActorServer.step codec i (sys.server move) = (outs, .ok ((), s')) ∧
          sys' = sys.next move outs s') := by
  unfold Processes.step at h
  by_cases he : sys.Enabled move
  · rw [if_pos he] at h
    cases hi : move.toInput with
    | none =>
      rw [hi] at h
      cases h
      exact ⟨he, .inl ⟨rfl, rfl⟩⟩
    | some i =>
      rw [hi] at h
      dsimp only at h
      rcases hrun : ActorServer.step codec i (sys.server move) with ⟨outs, e | ⟨u, s'⟩⟩
      · rw [hrun] at h
        cases h
      · rw [hrun] at h
        cases h
        exact ⟨he, .inr ⟨i, outs, s', rfl, hrun, rfl⟩⟩
  · rw [if_neg he] at h
    cases h

/-- Neither counter of the process leaves its range. -/
def Fits (s : ActorServer) (i : Input) : Prop :=
  s.futureKeyManager.next + keysTaken s i < 2 ^ 31 ∧
    -2 ^ 31 ≤ s.nextResultStoreLocalKey - keysHanded s i

def CountersFit (sys : Processes) (move : Move) : Prop :=
  ∀ i ∈ move.toInput, Fits (sys.server move) i

/-- No thread allocates a key manager where there is one. -/
def AllocatesFirst (sys : Processes) : Move → Prop
  | .allocate pid _ => sys.allocated pid = false
  | _ => True

/-- The fault is not an insertion into the store that found its key in use. -/
def NotInsertion (e : Fault) : Prop :=
  e ≠ .assertion .storePartMessage ∧ e ≠ .assertion .preparePartVector

variable {s : ActorServer} {i : Input} {key : Int} {out : List Output} {e : Fault}

theorem findDataBuf_notInsertion {ds : DataStore} (h : ds.findDataBuf key = .error e) :
    NotInsertion e := by
  unfold DataStore.findDataBuf at h
  split at h
  · cases h
    exact ⟨by decide, by decide⟩
  · split at h <;> split at h <;> cases h <;> exact ⟨by decide, by decide⟩

theorem getPartData_notInsertion (key : Int) : Act.FaultsOnly NotInsertion (getPartData key) := by
  refine Act.FaultsOnly.lift fun s e h => ?_
  cases hg : s.dataStore.getPartData key with
  | ok r =>
    rw [hg] at h
    cases h
  | error e' =>
    rw [hg] at h
    cases h
    unfold DataStore.getPartData at hg
    split at hg
    · cases hg
    · split_ifs at hg
      · rename_i part _ _
        cases hf : s.dataStore.findDataBuf key with
        | error e' =>
          rw [hf] at hg
          cases hg
          exact findDataBuf_notInsertion hf
        | ok data =>
          rw [hf] at hg
          cases hg

theorem sendResultPart_notInsertion (dst : Int) (data : Bytes) (offset size : Nat) :
    Act.FaultsOnly NotInsertion (sendResultPart dst data offset size) := by
  unfold sendResultPart
  by_cases h : toInt32 size < 0 ∨ data.length < offset + (toInt32 size).toNat
  · simp only [if_pos h]
    exact Act.FaultsOnly.fail ⟨by decide, by decide⟩
  · simp only [if_neg h]
    exact Act.FaultsOnly.emit _

theorem lockResultStore_notInsertion : Act.FaultsOnly NotInsertion lockResultStore := by
  refine Act.FaultsOnly.lift fun s e h => ?_
  split_ifs at h
  cases h
  exact ⟨by decide, by decide⟩

theorem checkDvPartRequired_notInsertion (key : Int) :
    Act.FaultsOnly NotInsertion (checkDvPartRequired key) := by
  refine Act.FaultsOnly.get.bind fun s => ?_
  cases s.pendingResultRequests key with
  | none => exact Act.FaultsOnly.pure _
  | some requests =>
    refine lockResultStore_notInsertion.bind fun _ => ?_
    refine Act.FaultsOnly.bind ?_ fun _ => Act.FaultsOnly.modify _
    exact Act.FaultsOnly.forM fun request _ =>
      (getPartData_notInsertion key).bind fun r => sendResultPart_notInsertion _ _ _ _

theorem getIntraActorComm_notInsertion : Act.FaultsOnly NotInsertion getIntraActorComm := by
  refine Act.FaultsOnly.get.bind fun s => ?_
  cases s.intraActorComm with
  | none => exact Act.FaultsOnly.fail ⟨by decide, by decide⟩
  | some comm => exact Act.FaultsOnly.pure _

theorem announcePrefetch_notInsertion (src : Int) (msg : PrefetchMessage) :
    Act.FaultsOnly NotInsertion (announcePrefetch src msg) := by
  have htake : Act.FaultsOnly NotInsertion takeKey := Act.FaultsOnly.lift fun s e h => by cases h
  refine htake.bind fun key => (Act.FaultsOnly.emit _).bind fun _ =>
    Act.FaultsOnly.get.bind fun s => ?_
  cases s.pids with
  | nil =>
    have hfail : NotInsertion .undefined := ⟨by decide, by decide⟩
    exact (Act.FaultsOnly.fail hfail).bind fun _ => Act.FaultsOnly.pure _
  | cons head slaves =>
    refine Act.FaultsOnly.bind ?_ fun _ => Act.FaultsOnly.pure _
    exact Act.FaultsOnly.forM fun pid _ => Act.FaultsOnly.emit _

theorem handleStoreResultMessage_of_absent {msg : StoreResultMessage} (ha : Absent s msg.resId)
    (h : handleStoreResultMessage msg s = (out, .error e)) : NotInsertion e := by
  have hstore : s.dataStore.storePartMessage msg.resId msg = .ok
      { s.dataStore with
        resultMsgStore := s.dataStore.resultMsgStore.insert msg.resId msg
        dvParts := s.dataStore.dvParts.set msg.resId
          ⟨msg.resId, msg.dataSize, .messageStore, 0⟩ } := by
    rw [DataStore.storePartMessage, assert, if_pos ha.1]
    rfl
  by_cases hl : s.resultStoreLock = true
  · unfold handleStoreResultMessage at h
    rw [locked_update_of_held hl] at h
    cases h
    exact ⟨by decide, by decide⟩
  · unfold handleStoreResultMessage at h
    rw [locked_update (by simpa using hl), hstore] at h
    exact checkDvPartRequired_notInsertion _ _ _ _ h

theorem preparePartVector_of_absent (ha : Absent s key) (size : Nat) :
    ∃ ds, s.dataStore.preparePartVector key size = .ok ds := by
  rw [DataStore.preparePartVector, assert, if_pos ha.1, assert, if_pos ha.2.1]
  exact ⟨_, rfl⟩

theorem preparePart_of_absent {msg : PrefetchMessage} (ha : Absent s s.futureKeyManager.next)
    (h : preparePart msg s = (out, .error e)) : NotInsertion e := by
  rcases Act.bind_error_inv h with h₁ | ⟨out₁, comm, s₁, out₂, h₁, h₂, rfl⟩
  · exact getIntraActorComm_notInsertion s out e h₁
  obtain ⟨-, rfl, hs⟩ := getIntraActorComm_inv h₁
  obtain rfl := hs.symm
  rcases Act.bind_error_inv h₂ with h₃ | ⟨out₃, partKey, s₃, out₄, h₃, h₄, rfl⟩
  · cases h₃
  cases h₃
  by_cases hl : s.resultStoreLock = true
  · rw [locked_update_of_held (s := { s with futureKeyManager := s.futureKeyManager.takeKey.2 })
      hl] at h₄
    cases h₄
    exact ⟨by decide, by decide⟩
  · rw [locked_update (s := { s with futureKeyManager := s.futureKeyManager.takeKey.2 })
      (by simpa using hl)] at h₄
    obtain ⟨ds, hds⟩ := preparePartVector_of_absent ha
      (sub64 (Distributions.BlockDistribution.divRange msg.dvSize comm.pid comm.nprocs).2
        (Distributions.BlockDistribution.divRange msg.dvSize comm.pid comm.nprocs).1)
    simp only [FutureKeyManager.takeKey, hds] at h₄
    cases h₄

theorem handlePrefetchMessage_of_absent {src : Int} {msg : PrefetchMessage}
    (ha : Absent s (keyAfter s.futureKeyManager.next (if LeadsActor s then 1 else 0)))
    (h : handlePrefetchMessage src msg s = (out, .error e)) : NotInsertion e := by
  rcases Act.bind_error_inv h with h₁ | ⟨out₁, head, s₁, out₂, h₁, h₂, rfl⟩
  · have hhead : Act.FaultsOnly NotInsertion isHead :=
      getIntraActorComm_notInsertion.bind fun _ => Act.FaultsOnly.pure _
    exact hhead s out e h₁
  obtain ⟨hhead, rfl, hs⟩ := isHead_inv h₁
  obtain rfl := hs.symm
  cases head with
  | false =>
    rw [if_neg fun hl => Bool.false_ne_true (hhead.mpr hl)] at ha
    rcases Act.bind_error_inv h₂ with h₃ | ⟨out₃, partKey, s₃, out₄, h₃, h₄, rfl⟩
    · exact preparePart_of_absent ha h₃
    · cases h₄
  | true =>
    rw [if_pos (hhead.mp rfl)] at ha
    rcases Act.bind_error_inv h₂ with h₃ | ⟨out₃, resFutureKey, s₃, out₄, h₃, h₄, rfl⟩
    · exact announcePrefetch_notInsertion src msg s _ e h₃
    obtain ⟨-, rfl, -⟩ := announcePrefetch_inv h₃
    rcases Act.bind_error_inv h₄ with h₅ | ⟨out₅, partKey, s₅, out₆, h₅, h₆, rfl⟩
    · exact preparePart_of_absent
        (s := { s with futureKeyManager := s.futureKeyManager.takeKey.2 }) ha h₅
    · cases h₆

theorem step_message_error {src : Int} {msg : ActorMessage}
    (h : ActorServer.step codec (.message src msg) s = (out, .error e)) :
    e = .blocked ∨ routeHandleMessage codec src msg s = (out, .error e) := by
  simp only [ActorServer.step, Act.get_bind] at h
  cases hp : s.phase with
  | receiving =>
    rw [hp] at h
    by_cases hq : s.qrun = true
    · exact .inr (by simpa only [if_pos hq] using h)
    · simp only [if_neg hq] at h
      cases h
      exact .inl rfl
  | gatheringKeys prefetch =>
    rw [hp] at h
    cases h
    exact .inl rfl
  | awaitingVd msg =>
    rw [hp] at h
    cases h
    exact .inl rfl

/-- No assertion of the store stops the insertion of an absent key. -/
theorem step_of_absent (hk : insertedKey s i = some key) (ha : Absent s key)
    (h : ActorServer.step codec i s = (out, .error e)) : NotInsertion e := by
  unfold insertedKey at hk
  split at hk
  · cases hk
    rcases step_message_error h with rfl | h
    · exact ⟨by decide, by decide⟩
    · exact handleStoreResultMessage_of_absent ha h
  · cases hk
    rcases step_message_error h with rfl | h
    · exact ⟨by decide, by decide⟩
    · exact handlePrefetchMessage_of_absent ha h
  · cases hk

theorem keyAfter_eq {first : Int} {n : Nat} (hl : -2 ^ 31 ≤ first) (hu : first + n < 2 ^ 31) :
    keyAfter first n = first + n := by
  induction n with
  | zero => exact (Int.add_zero first).symm
  | succ n ih =>
    rw [keyAfter, ih (by omega), toInt32_of_range (by omega) (by omega)]
    omega

theorem localKey_eq {first : Int} {n : Nat} (hu : first < 2 ^ 31) (hl : -2 ^ 31 ≤ first - n) :
    localKey first n = first - n := by
  induction n with
  | zero => exact (Int.sub_zero first).symm
  | succ n ih =>
    rw [localKey, ih (by omega), toInt32_of_range (by omega) (by omega)]
    omega

/-- The key was numbered in the range of its origin. -/
def Numbered (sys : Processes) (dst key : Int) : Origin → Prop
  | .worker => 0 ≤ key ∧ key < (sys.servers dst).futureKeyManager.next
  | .head pid => (sys.servers pid).nextResultStoreLocalKey < key ∧ key < 0

/-- Where a part comes from that a process keeps: its number is not under way any more. -/
def KeptFrom (sys : Processes) (dst key : Int) (origin : Origin) : Prop :=
  Numbered sys dst key origin ∧ ⟨dst, key, origin⟩ ∉ sys.mail ∧
    ∀ pid, origin = .head pid → sys.numberedBy dst key = some origin

structure Numbering (sys : Processes) : Prop where
  represents : ∀ pid, ∃ t, (sys.servers pid).dataStore.Represents t
  own : ∀ pid, 0 ≤ (sys.servers pid).futureKeyManager.next
  handed : ∀ pid, (sys.servers pid).nextResultStoreLocalKey < 0
  mail : sys.mail.Nodup
  numbered : ∀ p ∈ sys.mail, Numbered sys p.dst p.key p.origin
  kept : ∀ pid key, Held (sys.servers pid) key → ∃ origin, KeptFrom sys pid key origin
  unallocated : ∀ pid, sys.allocated pid = false → (sys.servers pid).futureKeyManager.next = 0

theorem numbering_start : Numbering Processes.start where
  represents _ := ⟨.empty, DataStore.empty_represents⟩
  own _ := Int.le_refl 0
  handed _ := (by decide : (-1 : Int) < 0)
  mail := List.nodup_nil
  numbered p hp := by cases hp
  kept pid key hk := absurd rfl hk
  unallocated _ _ := rfl

/-- What a part number says about its origin. -/
theorem Numbered.same_kind {dst key : Int} {o o' : Origin} (h : Numbered sys dst key o)
    (h' : Numbered sys dst key o') : o = o' ∨ ∃ pid pid', o = .head pid ∧ o' = .head pid' := by
  cases o with
  | worker =>
    cases o' with
    | worker => exact .inl rfl
    | head pid => exact absurd h.1 (by have := h'.2; omega)
  | head pid =>
    cases o' with
    | worker => exact absurd h'.1 (by have := h.2; omega)
    | head pid' => exact .inr ⟨pid, pid', rfl, rfl⟩

/-- New numbers lie beyond those that were given before. -/
theorem posted_inv {pid : Int} {p : Posted} (hu : s.nextResultStoreLocalKey < 2 ^ 31)
    (hl : -2 ^ 31 ≤ s.nextResultStoreLocalKey - keysHanded s i) (hp : p ∈ posted s pid i) :
    (p = ⟨pid, s.futureKeyManager.next, .worker⟩ ∧ keysTaken s i = 1) ∨
      (p.origin = .head pid ∧ s.nextResultStoreLocalKey - keysHanded s i < p.key ∧
        p.key ≤ s.nextResultStoreLocalKey) := by
  unfold posted at hp
  split at hp
  · obtain ⟨n, hn, rfl⟩ := List.mem_map.mp hp
    have hn := List.mem_range.mp hn
    simp only [keysHanded] at hl ⊢
    refine .inr ⟨trivial, ?_, ?_⟩
    · rw [localKey_eq hu (by omega)]
      omega
    · rw [localKey_eq hu (by omega)]
      omega
  · exact .inl ⟨List.mem_singleton.mp hp, rfl⟩
  · cases hp

theorem posted_nodup {pid : Int} (hu : s.nextResultStoreLocalKey < 2 ^ 31)
    (hl : -2 ^ 31 ≤ s.nextResultStoreLocalKey - keysHanded s i) : (posted s pid i).Nodup := by
  unfold posted
  split
  · refine List.Nodup.map_on (fun n hn m hm h => ?_) List.nodup_range
    have hn := List.mem_range.mp hn
    have hm := List.mem_range.mp hm
    simp only [keysHanded] at hl
    have hkey := congrArg Posted.key h
    dsimp only at hkey
    rw [localKey_eq hu (by omega), localKey_eq hu (by omega)] at hkey
    omega
  · exact List.nodup_singleton _
  · exact List.nodup_nil

section Step

variable {outs : List Output} {s' : ActorServer}

/-- Both counters after an input. -/
structure Counters (s : ActorServer) (i : Input) (s' : ActorServer) : Prop where
  taken : s'.futureKeyManager.next = s.futureKeyManager.next + keysTaken s i
  handed : s'.nextResultStoreLocalKey = s.nextResultStoreLocalKey - keysHanded s i

theorem counters {pid : Int} (hn : Numbering sys) (hr : Fits (sys.servers pid) i)
    (he : KeyEffect (sys.servers pid) i outs s') : Counters (sys.servers pid) i s' := by
  have hown := hn.own pid
  have hhanded := hn.handed pid
  obtain ⟨hu, hl⟩ := hr
  refine ⟨?_, ?_⟩
  · rw [he.taken, keyAfter_eq (by omega) hu]
  · rw [he.handed, localKey_eq (by omega) hl]

/-- Numbers that were given stay given. -/
theorem Numbered.next {dst key : Int} {origin : Origin} (h : Numbered sys dst key origin)
    (hc : Counters (sys.server move) i s') : Numbered (sys.next move outs s') dst key origin := by
  have htaken := hc.taken
  have hhanded := hc.handed
  cases origin with
  | worker =>
    refine ⟨h.1, ?_⟩
    by_cases hd : dst = move.pid
    · subst hd
      have hlt := h.2
      change _ < ((Function.update sys.servers move.pid s') move.pid).futureKeyManager.next
      rw [Function.update_self]
      unfold Processes.server at htaken
      omega
    · change _ < ((Function.update sys.servers move.pid s') dst).futureKeyManager.next
      rw [Function.update_of_ne hd]
      exact h.2
  | head pid =>
    refine ⟨?_, h.2⟩
    by_cases hd : pid = move.pid
    · subst hd
      have hlt := h.1
      change ((Function.update sys.servers move.pid s') move.pid).nextResultStoreLocalKey < _
      rw [Function.update_self]
      unfold Processes.server at hhanded
      omega
    · change ((Function.update sys.servers move.pid s') pid).nextResultStoreLocalKey < _
      rw [Function.update_of_ne hd]
      exact h.1

variable {pid : Int}

/-- A number is new when it is given. -/
theorem not_numbered_of_posted {p : Posted} (hn : Numbering sys)
    (hr : Fits (sys.servers pid) i) (hp : p ∈ posted (sys.servers pid) pid i) :
    ¬ Numbered sys p.dst p.key p.origin := by
  have hhanded := hn.handed pid
  rcases posted_inv (s := sys.servers pid) (by omega) hr.2 hp with ⟨rfl, -⟩ | ⟨ho, -, hle⟩
  · intro h
    exact absurd h.2 (Int.lt_irrefl _)
  · intro h
    rw [ho] at h
    exact absurd h.1 (Int.not_lt.mpr hle)

theorem numbered_of_posted {p : Posted} (hn : Numbering sys)
    (hr : Fits (sys.servers pid) i) (hc : Counters (sys.servers pid) i s')
    (hp : p ∈ posted (sys.servers pid) pid i) :
    Numbered (sys.next (.input pid i) outs s') p.dst p.key p.origin := by
  have hhanded := hn.handed pid
  have hself : (sys.next (.input pid i) outs s').servers pid = s' := Function.update_self ..
  rcases posted_inv (s := sys.servers pid) (by omega) hr.2 hp with ⟨rfl, htaken⟩ | ⟨ho, hlt, hle⟩
  · refine ⟨hn.own pid, ?_⟩
    rw [hself, hc.taken, htaken]
    exact Int.lt_succ _
  · rw [ho]
    refine ⟨?_, by omega⟩
    rw [hself, hc.handed]
    exact hlt

/-- What was kept stays numbered, and its number does not go out again. -/
theorem KeptFrom.next_input {dst key : Int} {origin : Origin} (h : KeptFrom sys dst key origin)
    (hn : Numbering sys) (hr : Fits (sys.servers pid) i)
    (hc : Counters (sys.servers pid) i s')
    (hposts : outs.flatMap (posts pid) = posted (sys.servers pid) pid i) :
    KeptFrom (sys.next (.input pid i) outs s') dst key origin := by
  obtain ⟨hnum, hmail, hby⟩ := h
  refine ⟨hnum.next hc, fun hp => ?_, hby⟩
  rcases List.mem_append.mp hp with hp | hp
  · exact hmail hp
  · rw [Move.pid, hposts] at hp
    exact not_numbered_of_posted hn hr hp hnum

/-- A prefetch puts its part under a number that its own counter has just given. -/
theorem inserted_inv (he : sys.Enabled (.input pid i)) (hn : Numbering sys)
    (hr : Fits (sys.servers pid) i) (hk : insertedKey (sys.servers pid) i = some key) :
    (sys.servers pid).futureKeyManager.next ≤ key ∧
      key < (sys.servers pid).futureKeyManager.next + keysTaken (sys.servers pid) i ∧
      posted (sys.servers pid) pid i = [] := by
  have hown := hn.own pid
  unfold insertedKey at hk
  split at hk
  · exact he.elim
  · have hu := hr.1
    cases hk
    change (sys.servers pid).futureKeyManager.next +
      ((if LeadsActor (sys.servers pid) then 2 else 1 : Nat) : Int) < 2 ^ 31 at hu
    change _ ∧ _ < _ + ((if LeadsActor (sys.servers pid) then 2 else 1 : Nat) : Int) ∧ _
    by_cases hl : LeadsActor (sys.servers pid)
    · rw [if_pos hl] at hu ⊢
      rw [if_pos hl, keyAfter_eq (by omega) (by omega)]
      exact ⟨by omega, by omega, rfl⟩
    · rw [if_neg hl] at hu ⊢
      rw [if_neg hl, keyAfter_eq (by omega) (by omega)]
      exact ⟨by omega, by omega, rfl⟩
  · cases hk

private theorem numbering_input (hn : Numbering sys) (henabled : sys.Enabled (.input pid i))
    (hr : Fits (sys.servers pid) i)
    (hrun : ActorServer.step codec i (sys.servers pid) = (outs, .ok ((), s'))) :
    Numbering (sys.next (.input pid i) outs s') := by
  obtain ⟨t, ht⟩ := hn.represents pid
  have he := step_key_effect ht hrun
  have hc := counters hn hr he
  have hposts := he.posts pid
  have hself : (sys.next (.input pid i) outs s').servers pid = s' := Function.update_self ..
  have hother : ∀ q, q ≠ pid → (sys.next (.input pid i) outs s').servers q = sys.servers q :=
    fun q hq => Function.update_of_ne hq ..
  have hmail : (sys.next (.input pid i) outs s').mail =
      sys.mail ++ posted (sys.servers pid) pid i := congrArg (sys.mail ++ ·) hposts
  have htaken : s'.futureKeyManager.next =
    (sys.servers pid).futureKeyManager.next + keysTaken (sys.servers pid) i := hc.taken
  have hhanded : s'.nextResultStoreLocalKey =
    (sys.servers pid).nextResultStoreLocalKey - keysHanded (sys.servers pid) i := hc.handed
  have hown := hn.own pid
  have hneg := hn.handed pid
  refine ⟨fun q => ?_, fun q => ?_, fun q => ?_, ?_, fun p hp => ?_, fun q key hk => ?_,
    fun q hq => ?_⟩
  · by_cases hq : q = pid
    · rw [hq, hself]
      exact (ParkedRequests.step_effect ht hrun).represents
    · rw [hother q hq]
      exact hn.represents q
  · by_cases hq : q = pid
    · rw [hq, hself]
      omega
    · rw [hother q hq]
      exact hn.own q
  · by_cases hq : q = pid
    · rw [hq, hself]
      omega
    · rw [hother q hq]
      exact hn.handed q
  · rw [hmail]
    refine hn.mail.append (posted_nodup (by omega) hr.2) fun p hold hnew => ?_
    exact not_numbered_of_posted hn hr hnew (hn.numbered p hold)
  · rw [hmail] at hp
    rcases List.mem_append.mp hp with hp | hp
    · exact (hn.numbered p hp).next hc
    · exact numbered_of_posted hn hr hc hp
  · have hkept : Held (sys.servers q) key →
        ∃ origin, KeptFrom (sys.next (.input pid i) outs s') q key origin := fun hold => by
      obtain ⟨origin, h⟩ := hn.kept q key hold
      exact ⟨origin, h.next_input hn hr hc hposts⟩
    by_cases hq : q = pid
    · subst hq
      rw [hself] at hk
      rcases he.held key hk with hold | hins
      · exact hkept hold
      · obtain ⟨hle, hlt, hnone⟩ := inserted_inv henabled hn hr hins
        refine ⟨.worker, ⟨by omega, by rw [hself]; omega⟩, fun hp => ?_, fun pid hp => by cases hp⟩
        rw [hmail, hnone, List.append_nil] at hp
        have hold : key < (sys.servers q).futureKeyManager.next := (hn.numbered _ hp).2
        omega
    · rw [hother q hq] at hk
      exact hkept hk
  · by_cases hpid : q = pid
    · subst hpid
      have hnone : keysTaken (sys.servers q) i = 0 := by
        by_contra hne
        have hno : sys.allocated q = false := hq
        rw [henabled.allocated hne] at hno
        cases hno
      rw [hself, htaken, hnone, hn.unallocated q hq]
      rfl
    · rw [hother q hpid]
      exact hn.unallocated q hq

private theorem numbering_store {src : Int} {p : Posted} {data : Bytes} (hn : Numbering sys)
    (henabled : p ∈ sys.mail)
    (hrun : ActorServer.step codec (.message src (.storeResult ⟨p.key, data⟩)) (sys.servers p.dst) =
      (outs, .ok ((), s'))) : Numbering (sys.next (.store src p data) outs s') := by
  obtain ⟨t, ht⟩ := hn.represents p.dst
  have he := step_key_effect ht hrun
  have hself : (sys.next (.store src p data) outs s').servers p.dst = s' := Function.update_self ..
  have hother : ∀ q, q ≠ p.dst → (sys.next (.store src p data) outs s').servers q = sys.servers q :=
    fun q hq => Function.update_of_ne hq ..
  have hc : Counters (sys.servers p.dst) (.message src (.storeResult ⟨p.key, data⟩)) s' :=
    ⟨he.taken.trans (Int.add_zero _).symm, he.handed.trans (Int.sub_zero _).symm⟩
  have htaken : s'.futureKeyManager.next = (sys.servers p.dst).futureKeyManager.next := he.taken
  have hhanded : s'.nextResultStoreLocalKey = (sys.servers p.dst).nextResultStoreLocalKey :=
    he.handed
  -- the part is kept now, and its number is not under way any more
  have hstored : KeptFrom (sys.next (.store src p data) outs s') p.dst p.key p.origin := by
    refine ⟨(hn.numbered p henabled).next hc, ?_, fun _ _ => ?_⟩
    · exact fun hp => (List.Nodup.mem_erase_iff hn.mail).mp hp |>.1 rfl
    · change Function.update sys.numberedBy p.dst _ p.dst p.key = _
      rw [Function.update_self, Function.update_self]
  have hkept : ∀ q key, Held (sys.servers q) key →
      ∃ origin, KeptFrom (sys.next (.store src p data) outs s') q key origin := by
    intro q key hold
    by_cases hsame : q = p.dst ∧ key = p.key
    · obtain ⟨rfl, rfl⟩ := hsame
      exact ⟨p.origin, hstored⟩
    · obtain ⟨origin, hnum, hmail, hby⟩ := hn.kept q key hold
      refine ⟨origin, hnum.next hc, fun hp => hmail (List.mem_of_mem_erase hp), fun pid ho => ?_⟩
      rw [← hby pid ho]
      change Function.update sys.numberedBy p.dst _ q key = _
      by_cases hq : q = p.dst
      · subst hq
        rw [Function.update_self, Function.update_of_ne fun hkey => hsame ⟨rfl, hkey⟩]
      · rw [Function.update_of_ne hq]
  refine ⟨fun q => ?_, fun q => ?_, fun q => ?_, hn.mail.erase p, fun p' hp => ?_,
    fun q key hk => ?_, fun q hfree => ?_⟩
  · by_cases hq : q = p.dst
    · rw [hq, hself]
      exact (ParkedRequests.step_effect ht hrun).represents
    · rw [hother q hq]
      exact hn.represents q
  · by_cases hq : q = p.dst
    · rw [hq, hself, htaken]
      exact hn.own p.dst
    · rw [hother q hq]
      exact hn.own q
  · by_cases hq : q = p.dst
    · rw [hq, hself, hhanded]
      exact hn.handed p.dst
    · rw [hother q hq]
      exact hn.handed q
  · exact (hn.numbered p' (List.mem_of_mem_erase hp)).next hc
  · by_cases hq : q = p.dst
    · subst hq
      rw [hself] at hk
      rcases he.held key hk with hold | hins
      · exact hkept _ key hold
      · cases hins
        exact ⟨p.origin, hstored⟩
    · rw [hother q hq] at hk
      exact hkept q key hk
  · by_cases hq : q = p.dst
    · subst hq
      rw [hself, htaken]
      exact hn.unallocated _ hfree
    · rw [hother q hq]
      exact hn.unallocated q hfree

/-- A first key manager gives the keys that were expected. -/
theorem getInstance_servers (hn : Numbering sys) (hfirst : AllocatesFirst sys move) :
    (sys.getInstance move).servers = sys.servers := by
  cases move with
  | input | store | findNone => rfl
  | allocate pid thread =>
    have hnext := hn.unallocated pid hfirst
    have hmanager : (sys.servers pid).futureKeyManager = {} := congrArg FutureKeyManager.mk hnext
    change Function.update sys.servers pid { sys.servers pid with futureKeyManager := {} } = _
    rw [← hmanager]
    exact Function.update_eq_self pid sys.servers

private theorem numbering_getInstance (hn : Numbering sys) (hfirst : AllocatesFirst sys move) :
    Numbering (sys.getInstance move) := by
  have hservers := getInstance_servers hn hfirst
  have hmail : (sys.getInstance move).mail = sys.mail := by cases move <;> rfl
  have hby : (sys.getInstance move).numberedBy = sys.numberedBy := by cases move <;> rfl
  have hnumbered : ∀ {dst key origin}, Numbered (sys.getInstance move) dst key origin ↔
      Numbered sys dst key origin := by
    intro dst key origin
    cases origin <;> simp only [Numbered, hservers]
  refine ⟨?_, ?_, ?_, ?_, ?_, ?_, fun pid hfree => ?_⟩
  · simpa only [hservers] using hn.represents
  · simpa only [hservers] using hn.own
  · simpa only [hservers] using hn.handed
  · simpa only [hmail] using hn.mail
  · simpa only [hmail, hnumbered] using hn.numbered
  · simpa only [KeptFrom, hservers, hmail, hby, hnumbered] using hn.kept
  · rw [hservers]
    refine hn.unallocated pid ?_
    cases move with
    | input | store | findNone => exact hfree
    | allocate pid' thread =>
      change Function.update sys.allocated pid' true pid = false at hfree
      by_cases hpid : pid = pid'
      · rw [hpid, Function.update_self] at hfree
        cases hfree
      · rwa [Function.update_of_ne hpid] at hfree

theorem numbering_step {out : List (Int × Output)} {sys' : Processes} (hn : Numbering sys)
    (hr : CountersFit sys move) (hfirst : AllocatesFirst sys move)
    (h : Processes.step codec move sys = (out, .ok ((), sys'))) : Numbering sys' := by
  obtain ⟨he, ⟨-, rfl⟩ | ⟨i, outs, s', hi, hrun, rfl⟩⟩ := step_inv h
  · exact numbering_getInstance hn hfirst
  · cases move with
    | input pid i =>
      cases hi
      exact numbering_input hn he (hr i rfl) hrun
    | store src p data =>
      cases hi
      exact numbering_store hn he.2 hrun
    | findNone | allocate => cases hi

end Step

/-- A part with a key that comes to a process finds the key unused: nothing is replaced, and no
assertion of the store fails. -/
def Fresh (codec : Codec) (sys : Processes) (move : Move) : Prop :=
  sys.Enabled move → ∀ i ∈ move.toInput, ∀ key, insertedKey (sys.server move) i = some key →
    Absent (sys.server move) key ∧
      ∀ out e, ActorServer.step codec i (sys.server move) = (out, .error e) → NotInsertion e

/-- A distributed part comes to a process that keeps none which another head gave that number. -/
def OneHead (sys : Processes) (move : Move) : Prop :=
  sys.Enabled move → ∀ src dst key pid data, move = .store src ⟨dst, key, .head pid⟩ data →
    Held (sys.servers dst) key → ∀ pid', sys.numberedBy dst key = some (.head pid') → pid' = pid

theorem fresh_iff (hn : Numbering sys) (hr : CountersFit sys move) :
    Fresh codec sys move ↔ OneHead sys move := by
  refine forall_congr' fun he => ⟨?_, ?_⟩
  · rintro hfresh src dst key pid data rfl hheld
    obtain ⟨t, ht⟩ := hn.represents dst
    exact absurd hheld ((absent_iff ht key).mp (hfresh _ rfl key rfl).1)
  · intro hone i hi key hk
    have habsent : Absent (sys.server move) key := by
      obtain ⟨t, ht⟩ := hn.represents move.pid
      refine (absent_iff ht key).mpr fun hheld => ?_
      obtain ⟨origin, hnum, hmail, hby⟩ := hn.kept move.pid key hheld
      cases move with
      | input pid i =>
        cases hi
        have hown := hn.own pid
        obtain ⟨hle, -, -⟩ := inserted_inv he hn (hr i rfl) hk
        cases origin with
        | worker => exact absurd hnum.2 (Int.not_lt.mpr hle)
        | head pid' => exact absurd hnum.2 (by omega)
      | store src p data =>
        cases hi
        cases hk
        rcases hnum.same_kind (hn.numbered p he.2) with rfl | ⟨pid', pid, rfl, hp⟩
        · exact hmail he.2
        · obtain ⟨dst, key, origin⟩ := p
          obtain rfl : origin = .head pid := hp
          have hsame := hone src dst key pid data rfl hheld pid' (hby pid' rfl)
          rw [hsame] at hmail
          exact hmail he.2
      | findNone | allocate => cases hi
    exact ⟨habsent, fun out e h => step_of_absent hk habsent h⟩

/-- In a run in which no counter leaves its range and no key manager is allocated beside another,
every key that comes with a new part is unused where it comes, exactly when no part comes to a
process that keeps one to which another head gave the same number. -/
theorem keys_fresh_iff (hfit : Act.Along (Processes.step codec) CountersFit moves .start)
    (hfirst : Act.Along (Processes.step codec) AllocatesFirst moves .start) :
    Act.Along (Processes.step codec) (Fresh codec) moves .start ↔
      Act.Along (Processes.step codec) OneHead moves .start := by
  have hboth := hfit.and hfirst
  refine Act.Along.congr ?_ ?_ numbering_start hboth
  · intro sys move out sys' hn hr _ h
    exact numbering_step hn hr.1 hr.2 h
  · intro sys move hn hr
    exact fresh_iff hn hr.1

instance (s : ActorServer) (i : Input) : Decidable (Fits s i) :=
  inferInstanceAs (Decidable (_ ∧ _))

instance (sys : Processes) (move : Move) : Decidable (CountersFit sys move) :=
  inferInstanceAs (Decidable (∀ i ∈ move.toInput, Fits (sys.server move) i))

instance (sys : Processes) (move : Move) : Decidable (AllocatesFirst sys move) := by
  unfold AllocatesFirst
  split <;> infer_instance

/-- Client 0 runs an actor on 1 and 3, distributes two bytes and stores the parts. -/
def firstActor : List Move :=
  [.input 1 (.message 0 (.createActor ⟨"A", [1, 3]⟩)),
    .input 3 (.message 0 (.createActor ⟨"A", [1, 3]⟩)),
    .input 1 (.message 0 (.distributeVector ⟨2, 1⟩)),
    .store 0 ⟨1, -1, .head 1⟩ [10], .store 0 ⟨3, -2, .head 1⟩ [11]]

/-- Then it destroys the actor, and does the same with one on 2 and 3. -/
def secondActor : List Move :=
  [.input 1 (.message 0 (.destroyActor true)), .input 3 (.message 0 (.destroyActor false)),
    .input 2 (.message 0 (.createActor ⟨"B", [2, 3]⟩)),
    .input 3 (.message 0 (.createActor ⟨"B", [2, 3]⟩)),
    .input 2 (.message 0 (.distributeVector ⟨2, 1⟩)),
    .store 0 ⟨2, -1, .head 2⟩ [20], .store 0 ⟨3, -2, .head 2⟩ [21]]

/-- A head leads an actor on 1 and 2 through a prefetch. Meanwhile the worker at 2 stores its first
result: both of its threads have found no key manager, and each allocates one. -/
def twoManagers : List Move :=
  [.input 1 (.message 0 (.createActor ⟨"A", [1, 2]⟩)),
    .input 2 (.message 0 (.createActor ⟨"A", [1, 2]⟩)),
    .input 1 (.setIntraActorComm ⟨0, 2⟩), .input 2 (.setIntraActorComm ⟨1, 2⟩),
    .findNone 1 .management, .allocate 1 .management,
    .input 1 (.message 0 (.prefetch ⟨5, 9, 4⟩)),
    .findNone 2 .management, .findNone 2 .worker, .allocate 2 .management,
    .input 2 (.message 1 (.prefetch ⟨5, 9, 4⟩)),
    .allocate 2 .worker, .input 2 .takeKey, .store 2 ⟨2, 0, .worker⟩ [20]]

/-- A part that its sender may store comes under a key without a part. -/
def StoresUnused (sys : Processes) : Move → Prop
  | .store src p data => sys.Enabled (.store src p data) →
      (sys.servers p.dst).dataStore.dvParts p.key = none
  | _ => True

instance (sys : Processes) (move : Move) : Decidable (StoresUnused sys move) := by
  unfold StoresUnused
  split <;> infer_instance

theorem Fresh.storesUnused (h : Fresh codec sys move) : StoresUnused sys move := by
  cases move with
  | input | findNone | allocate => trivial
  | store src p data => exact fun hp => (h hp _ rfl p.key rfl).1.1

/-- The parts that a move brings were not numbered by a head. -/
def StoresResults : Move → Prop
  | .store _ ⟨_, _, .head _⟩ _ => False
  | _ => True

instance (move : Move) : Decidable (StoresResults move) := by
  unfold StoresResults
  split <;> infer_instance

theorem StoresResults.oneHead (h : StoresResults move) : OneHead sys move := by
  rintro - src dst key pid data rfl
  exact h.elim

/-- The second head numbers the part at 3 as the first one did, and 3 still keeps the old part; and
without any distributed part, the second key manager gives the worker at 2 the key of the part that
2 prefetches. -/
theorem keys_not_fresh :
    (Act.Along (Processes.step Serialization.ArchiveFormat.sampleFormat.codec) CountersFit
        (firstActor ++ secondActor) .start ∧
      Act.Along (Processes.step Serialization.ArchiveFormat.sampleFormat.codec) AllocatesFirst
        (firstActor ++ secondActor) .start ∧
      ¬ Act.Along (Processes.step Serialization.ArchiveFormat.sampleFormat.codec)
        (Fresh Serialization.ArchiveFormat.sampleFormat.codec) (firstActor ++ secondActor)
        .start) ∧
    Act.Along (Processes.step Serialization.ArchiveFormat.sampleFormat.codec) CountersFit
        twoManagers .start ∧
      Act.Along (Processes.step Serialization.ArchiveFormat.sampleFormat.codec) OneHead
        twoManagers .start ∧
      ¬ Act.Along (Processes.step Serialization.ArchiveFormat.sampleFormat.codec)
        (Fresh Serialization.ArchiveFormat.sampleFormat.codec) twoManagers .start := by
  refine ⟨⟨by decide +kernel, by decide +kernel, fun h => ?_⟩, by decide +kernel, ?_, fun h => ?_⟩
  · have hunused := h.mono fun _ _ hf => hf.storesUnused
    revert hunused
    decide +kernel
  · have hresults : Act.Along (Processes.step Serialization.ArchiveFormat.sampleFormat.codec)
        (fun _ move => StoresResults move) twoManagers .start := by decide +kernel
    exact hresults.mono fun _ _ h => h.oneHead
  · have hunused := h.mono fun _ _ hf => hf.storesUnused
    revert hunused
    decide +kernel

/-- With one actor the condition holds, and every key is fresh. -/
theorem keys_fresh_sample :
    Act.Along (Processes.step Serialization.ArchiveFormat.sampleFormat.codec)
      (Fresh Serialization.ArchiveFormat.sampleFormat.codec) firstActor .start ↔
    Act.Along (Processes.step Serialization.ArchiveFormat.sampleFormat.codec) OneHead
      firstActor .start := keys_fresh_iff (by decide +kernel) (by decide +kernel)

end ActiveBsp.KeyReuse
