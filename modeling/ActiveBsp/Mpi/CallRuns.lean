import ActiveBsp.Mpi.CallHandling
import ActiveBsp.Serialization.RoundTrip

/-!
# What callers may rely on

Clients call actors, copy the futures of their calls, pass them on, read and
release them, all at the same time. In whatever order the threads and the
messages go, the results are those of an object that serves the calls one after
the other, in an order that agrees with the order of the calls.
-/
namespace ActiveBsp.CallSessions

open Library Serialization FutureReads
open ActorWorker (Sequential registrations accepted returned)

set_option autoImplicit false

variable {Obj : Type} {codec : Codec} {st : CallCluster Obj} {net net' net₁ : CallSessions Obj}
  {b b' : Int → HeadBooks} {moves : List Move} {c pid : Int}

theorem balanced_start (st : CallCluster Obj) : Balanced st st.start fun _ => {} where
  heads := HeadKept.start st
  session _ _ := Line.ext rfl rfl rfl rfl (funext fun _ => rfl)
  known _ _ := rfl
  mail _ _ := List.forall_mem_nil _
  releases _ _ := .kept List.not_mem_nil

/-- What a move of a run may fail with: it has to wait, or a method has thrown. -/
def Waits (e : Fault) : Prop := e = .blocked ∨ e = .exception

theorem work_cases (h : Balanced st net b) (learnt : Bytes)
    (hbound : (net.servers pid).futureKeyManager.next + 1 < 2 ^ 31) :
    Keeping codec st net b (.work pid learnt) ∨
      ∃ e, step codec st.functions (.work pid learnt) net = ([], .error e) ∧ Waits e := by
  rcases (h.heads pid).kept.worker_goes_on (st.functions pid) with ⟨events, s, hstep⟩ |
    ⟨obj, hworker, hmessages⟩ | hlearns | ⟨task, hworker⟩ | ⟨obj, hworker⟩
  · exact .inl (work_keeps h hbound (hstep learnt))
  · refine .inr ⟨.blocked, ?_, .inl rfl⟩
    simp only [step, ActorWorker.workerTurn, hworker, hmessages]
  · obtain ⟨s, hstep⟩ := hlearns.turn (s := net.head pid) (st.functions pid) learnt
    exact .inl (work_keeps h hbound hstep)
  · refine .inr ⟨.exception, ?_, .inr rfl⟩
    simp only [step, ActorWorker.workerTurn, hworker]
  · refine .inr ⟨.blocked, ?_, .inl rfl⟩
    simp only [step, ActorWorker.workerTurn, hworker]

/-- A move succeeds and the books are kept, or it has to wait, or a method throws. -/
theorem step_keeps (h : Balanced st net b) {move : Move} (hp : st.Proper net move) :
    Keeping codec st net b move ∨
      ∃ e, step codec st.functions move net = ([], .error e) ∧ Waits e := by
  have hwait (hblocked : step codec st.functions move net = ([], .error .blocked)) :
      ∃ e, step codec st.functions move net = ([], .error e) ∧ Waits e :=
    ⟨.blocked, hblocked, .inl rfl⟩
  cases move with
  | call c var head f args =>
    cases hphase : net.phase c with
    | idle => exact .inl (call_keeps h hp hphase)
    | _ => exact .inr (hwait (by simp only [step, hphase]))
  | respond c =>
    cases hphase : net.phase c with
    | calling var head f args =>
      cases hcodes : net.codes head c with
      | nil => exact .inr (hwait (by simp only [step, hphase, hcodes]))
      | cons key rest => exact .inl (respond_keeps h hphase hcodes)
    | _ => exact .inr (hwait (by simp only [step, hphase]))
  | get c var =>
    cases hphase : net.phase c with
    | idle => exact .inl (get_keeps h hp hphase)
    | _ => exact .inr (hwait (by simp only [step, hphase]))
  | retrieve c =>
    cases hphase : net.phase c with
    | getting var pid key =>
      cases hdata : net.data pid c with
      | nil => exact .inr (hwait (by simp only [step, hphase, hdata]))
      | cons data rest => exact .inl (retrieve_keeps h hphase hdata)
    | _ => exact .inr (hwait (by simp only [step, hphase]))
  | copy c dst src =>
    cases hphase : net.phase c with
    | idle => exact .inl (copy_keeps h hphase dst src)
    | _ => exact .inr (hwait (by simp only [step, hphase]))
  | resetData c var =>
    cases hphase : net.phase c with
    | idle => exact .inl (resetData_keeps h hphase var)
    | _ => exact .inr (hwait (by simp only [step, hphase]))
  | release c var =>
    cases hphase : net.phase c with
    | idle => exact .inl (release_keeps h hp hphase)
    | _ => exact .inr (hwait (by simp only [step, hphase]))
  | share c var c' var' =>
    cases hphase : net.phase c with
    | idle =>
      cases hphase' : net.phase c' with
      | idle => exact .inl (share_keeps h hphase hphase' var var')
      | _ => exact .inr (hwait (by simp only [step, hphase, hphase']))
    | _ => exact .inr (hwait (by simp only [step, hphase]))
  | handle c pid =>
    cases hmail : net.mail c pid with
    | nil => exact .inr (hwait (by simp only [step, hmail]))
    | cons msg rest => exact .inl (handle_keeps h hmail hp)
  | handleOwn pid =>
    cases hown : net.own pid with
    | nil => exact .inr (hwait (by simp only [step, hown]))
    | cons msg rest => exact .inl (handleOwn_keeps h hown)
  | work pid learnt => exact work_cases h learnt hp

/-- What a run from here on has led to. -/
def Reached (st : CallCluster Obj) (net₁ : CallSessions Obj) (b₁ : Int → HeadBooks)
    (shown : List CallEvent) (net : CallSessions Obj) (b : Int → HeadBooks) : Prop :=
  Balanced st net b ∧ Grows b₁ b ∧ (∀ e ∈ shown, Right b e) ∧ Carries net₁ b₁ shown net b

theorem Reached.step {b₁ : Int → HeadBooks} {shown out : List CallEvent} {move : Move}
    (h : Reached st net₁ b₁ shown net b) (hp : st.Proper net move)
    (hstep : CallSessions.step codec st.functions move net = (out, .ok ((), net'))) :
    ∃ b', Reached st net₁ b₁ (shown ++ out) net' b' := by
  obtain ⟨hbalanced, hgrows, hright, hcarries⟩ := h
  have hcases : Keeping codec st net b move ∨ _ := step_keeps hbalanced hp
  rcases hcases with ⟨out', net'', b', hstep', hbalanced', hgrows', hright', hcarries'⟩ | ⟨e, he, -⟩
  · rw [hstep] at hstep'
    cases hstep'
    refine ⟨b', hbalanced', hgrows.trans hgrows', fun e he => ?_, fun c q before hbefore => ?_⟩
    · rcases List.mem_append.mp he with he | he
      · exact (hright e he).mono hgrows'
      · exact hright' e he
    · rw [calledKeys_append, ← List.append_assoc]
      exact hcarries' c q _ (hcarries c q before hbefore)
  · rw [hstep] at he
    cases he

theorem Balanced.run (h : Balanced st net₁ b) {outs : List (List CallEvent)}
    (hp : Act.Along (step codec st.functions) st.Proper moves net₁)
    (htrace : Act.trace (step codec st.functions) moves net₁ = (outs, .ok net)) :
    ∃ b', Reached st net₁ b outs.flatten net b' := by
  have hstep : ∀ (_ : List Move) shown net move out net',
      (∃ b', Reached st net₁ b shown net b') → st.Proper net move →
      step codec st.functions move net = (out, .ok ((), net')) →
      ∃ b', Reached st net₁ b (shown ++ out) net' b' := by
    rintro _ shown net move out net' ⟨b', h'⟩ hproper hstep
    exact h'.step hproper hstep
  refine Act.trace_history hstep ⟨b, h, Grows.refl b, List.forall_mem_nil _, ?_⟩ hp htrace
  exact .quiet rfl fun _ _ => rfl

/-- The calls of a client at an actor are those that have come back and those under way. -/
theorem acceptedKeys_of_run {outs : List (List CallEvent)}
    (h : Reached st st.start (fun _ => {}) outs.flatten net b) (c q : Int) :
    acceptedKeys c (b q).events = calledKeys c q outs.flatten ++ net.codes q c :=
  h.2.2.2 c q [] rfl

/-- A call has come back with this future. -/
def Comes (shown : List CallEvent) (pid key : Int) : Prop :=
  ∃ c f args, CallEvent.called c pid f args key ∈ shown

structure Named (shown : List CallEvent) (net : CallSessions Obj) : Prop where
  vars : ∀ c var pid key, (net.vars c var).dataRetriever = some (pid, key) → Comes shown pid key
  gots : ∀ c pid key data, .got c (some (pid, key)) data ∈ shown → Comes shown pid key
  released : ∀ pid key, (pid, key) ∈ net.released → Comes shown pid key

theorem Comes.mono {shown : List CallEvent} {pid key : Int} (h : Comes shown pid key)
    (out : List CallEvent) : Comes (shown ++ out) pid key := by
  obtain ⟨c, f, args, hmem⟩ := h
  exact ⟨c, f, args, List.mem_append_left _ hmem⟩

section Named

variable {shown out : List CallEvent} (h : Named shown net)
include h

/-- What has to be shown of a move: where the futures come from that it makes, reads and
releases. -/
theorem Named.step
    (hvars : ∀ c var pid key, (net'.vars c var).dataRetriever = some (pid, key) →
      Comes (shown ++ out) pid key ∨ ∃ c' var', (net.vars c' var').dataRetriever = some (pid, key))
    (hgots : ∀ c pid key data, .got c (some (pid, key)) data ∈ out →
      ∃ var, (net.vars c var).dataRetriever = some (pid, key))
    (hreleased : ∀ pid key, (pid, key) ∈ net'.released → (pid, key) ∈ net.released ∨
      ∃ c var, (net.vars c var).dataRetriever = some (pid, key)) :
    Named (shown ++ out) net' where
  vars c var pid key hkey := by
    rcases hvars c var pid key hkey with hcomes | ⟨c', var', hkey'⟩
    · exact hcomes
    · exact (h.vars c' var' pid key hkey').mono out
  gots c pid key data hmem := by
    rcases List.mem_append.mp hmem with hmem | hmem
    · exact (h.gots c pid key data hmem).mono out
    · obtain ⟨var, hkey⟩ := hgots c pid key data hmem
      exact (h.vars c var pid key hkey).mono out
  released pid key hmem := by
    rcases hreleased pid key hmem with hmem | ⟨c, var, hkey⟩
    · exact (h.released pid key hmem).mono out
    · exact (h.vars c var pid key hkey).mono out

/-- A move that changes one future of one client. -/
theorem Named.assign {var : Nat} {future : FutureBase}
    (hvars : net'.vars = (net.assign c var future).vars) (hreleased : net'.released = net.released)
    (hfuture : ∀ pid key, future.dataRetriever = some (pid, key) →
      Comes (shown ++ out) pid key ∨ ∃ c' var', (net.vars c' var').dataRetriever = some (pid, key))
    (hgots : ∀ c pid key data, .got c (some (pid, key)) data ∈ out →
      ∃ var, (net.vars c var).dataRetriever = some (pid, key)) :
    Named (shown ++ out) net' := by
  refine h.step (fun c' var' pid key hkey => ?_) hgots fun pid key hmem => .inl (hreleased ▸ hmem)
  rw [hvars, vars_assign] at hkey
  split_ifs at hkey
  · exact hfuture pid key hkey
  · exact .inr ⟨c', var', hkey⟩

/-- A move that is not about futures. -/
theorem Named.quiet (hvars : net'.vars = net.vars) (hreleased : net'.released = net.released) :
    Named (shown ++ []) net' :=
  h.step (fun c var _ _ hkey => .inr ⟨c, var, hvars ▸ hkey⟩)
    (fun _ _ _ _ hmem => absurd hmem List.not_mem_nil) fun _ _ hmem => .inl (hreleased ▸ hmem)

end Named

theorem named_step {shown out : List CallEvent} {move : Move} (h : Named shown net)
    (hstep : step codec st.functions move net = (out, .ok ((), net'))) :
    Named (shown ++ out) net' := by
  have hnone : ∀ c pid key data, CallEvent.got c (some (pid, key)) data ∈ ([] : List CallEvent) →
      ∃ var, (net.vars c var).dataRetriever = some (pid, key) :=
    fun _ _ _ _ hmem => absurd hmem List.not_mem_nil
  -- what is read is a future of the client
  have hone {c : Int} {var : Nat} {data : Bytes} : ∀ c' pid key data',
      CallEvent.got c' (some (pid, key)) data' ∈ [CallEvent.got c (net.vars c var).dataRetriever data] →
      ∃ var', (net.vars c' var').dataRetriever = some (pid, key) := by
    intro c' pid key data' hmem
    have heq := List.mem_singleton.mp hmem
    injection heq with hc hretriever hdata
    exact ⟨var, hc ▸ hretriever.symm⟩
  cases step_inversion hstep with
  | respond hphase hcodes =>
    refine h.assign rfl rfl (fun pid key hkey => ?_) fun _ _ _ _ hmem => ?_
    · cases hkey
      exact .inl ⟨_, _, _, List.mem_append_right _ List.mem_cons_self⟩
    · cases List.mem_singleton.mp hmem
  | got hphase hdata =>
    exact h.step (fun c var _ _ hkey => .inr ⟨c, var, hkey⟩) hone fun _ _ hmem => .inl hmem
  | retrieve hphase hdata => exact h.assign rfl rfl (fun _ _ hkey => .inr ⟨_, _, hkey⟩) hone
  | @copy c dst src hphase => exact h.assign rfl rfl (fun _ _ hkey => .inr ⟨c, src, hkey⟩) hnone
  | @resetData c var hphase => exact h.assign rfl rfl (fun _ _ hkey => .inr ⟨c, var, hkey⟩) hnone
  | @share c var c' var' hphase hphase' =>
    exact h.assign rfl rfl (fun _ _ hkey => .inr ⟨c, var, hkey⟩) hnone
  | @release c var pid key hphase hkey =>
    refine h.step (fun c var _ _ hkey => .inr ⟨c, var, hkey⟩) hnone fun pid' key' hmem => ?_
    rcases List.mem_append.mp hmem with hmem | hmem
    · exact .inl hmem
    · cases List.mem_singleton.mp hmem
      exact .inr ⟨c, var, hkey⟩
  | call | get | handle | handleOwn | work => exact h.quiet rfl rfl

theorem named_of_run {outs : List (List CallEvent)}
    (htrace : Act.trace (step codec st.functions) moves st.start = (outs, .ok net)) :
    Named outs.flatten net := by
  have hstart : Named [] st.start := by
    constructor
    · intro _ _ _ _ hkey
      cases hkey
    · exact fun _ _ _ _ hmem => absurd hmem List.not_mem_nil
    · exact fun _ _ hmem => absurd hmem List.not_mem_nil
  have hstep : ∀ (_ : List Move) shown net move out net', Named shown net → True →
      step codec st.functions move net = (out, .ok ((), net')) → Named (shown ++ out) net' :=
    fun _ _ _ _ _ _ h _ hs => named_step h hs
  exact Act.trace_history hstep hstart (.of_forall (fun _ _ => trivial) moves st.start) htrace

/-- The calls of an actor and their results, one after the other. -/
structure Linearizes (functions : ActorWorker.Functions Obj) (obj₀ : Obj) (head : Int)
    (shown : List CallEvent) (history : List (ActiveObjectRequest × Bytes)) : Prop where
  sequential : ∃ obj, Sequential functions obj₀ history obj
  rising : (history.map fun done => done.1.localkey).Pairwise (· < ·)
  /-- A call that has come back and is in the history is there with its arguments. -/
  called : ∀ c f args key, .called c head f args key ∈ shown → ∀ done ∈ history,
    done.1.localkey = key → done.1 = ⟨RequestIds.activeCall f args, c, key⟩
  /-- What is read of a future is the result that its call has in the history. -/
  got : ∀ c key data, .got c (some (head, key)) data ∈ shown →
    ∃ c' f args, .called c' head f args key ∈ shown ∧
      (⟨RequestIds.activeCall f args, c', key⟩, data) ∈ history

theorem HeadKept.called_eq {q : Int} {s : ActorServer} {threads : ActorWorker.Head Obj}
    {own : List ActorMessage} {bk : HeadBooks} (h : HeadKept st q s threads own bk)
    {req req' : ActiveObjectRequest} (hreq : req ∈ accepted bk.events)
    (hreq' : req' ∈ accepted bk.events) (hkey : req.localkey = req'.localkey) : req = req' :=
  List.inj_on_of_nodup_map h.accepted_nodup hreq hreq' hkey

theorem Reached.linearizes {b₁ : Int → HeadBooks} {shown : List CallEvent}
    (h : Reached st net₁ b₁ shown net b) (hnamed : Named shown net) (head : Int) :
    Linearizes (st.functions head) (st.objects head) head shown (returned (b head).events) := by
  obtain ⟨hbalanced, -, hright, -⟩ := h
  have hhead := hbalanced.heads head
  have hserved := hhead.returned_prefix
  refine ⟨hhead.object.sequential, ?_, ?_, ?_⟩
  · have hkeys := (hserved.map ActiveObjectRequest.localkey).sublist
    rw [List.map_map] at hkeys
    exact hhead.accepted_rising.sublist hkeys
  · intro c f args key hcalled done hdone hkey
    have haccepted := hright _ hcalled
    exact hhead.called_eq (hserved.subset (List.mem_map_of_mem hdone)) haccepted hkey
  · intro c key data hgot
    obtain ⟨c', f, args, hcalled⟩ := hnamed.gots c head key data hgot
    obtain ⟨req, hdone, hkey⟩ := hhead.returned_of_registration (hright _ hgot)
    have hreq := hhead.called_eq (hserved.subset (List.mem_map_of_mem hdone)) (hright _ hcalled) hkey
    exact ⟨c', f, args, hcalled, hreq ▸ hdone⟩

/-- Whoever reads a future, and however often it was copied and passed on, reads the result that the
call has when the calls of all clients are served one after the other. -/
theorem reads_sequential (st : CallCluster Obj) {outs : List (List CallEvent)}
    (hp : Act.Along (step codec st.functions) st.Proper moves st.start)
    (htrace : Act.trace (step codec st.functions) moves st.start = (outs, .ok net)) (head : Int) :
    ∃ history, Linearizes (st.functions head) (st.objects head) head outs.flatten history := by
  obtain ⟨b, hreached⟩ := (balanced_start st).run hp htrace
  exact ⟨_, hreached.linearizes (named_of_run htrace) head⟩

/-- The worker waits for calls. -/
def WaitsForCall (net : CallSessions Obj) (pid : Int) : Prop :=
  (∃ obj, net.workers pid = .looping obj) ∧ net.queues pid = []

instance : (worker : ActorWorker.Worker Obj) → Decidable (∃ obj, worker = .looping obj)
  | .looping obj => .isTrue ⟨obj, rfl⟩
  | .handling .. | .running .. | .takingKey .. | .storing .. | .reporting .. | .finished .. =>
    .isFalse nofun

instance (net : CallSessions Obj) (pid : Int) : Decidable (WaitsForCall net pid) :=
  inferInstanceAs (Decidable (_ ∧ _))

/-- A method that appends to the object of the actor, stores a part of a result and learns
something. -/
def appendFunctions : ActorWorker.Functions Bytes := fun name =>
  if name = "append" then
    some fun _ args obj => .storeResult args fun _ => .learn false fun learnt =>
      .done (obj ++ args ++ learnt) (obj ++ args)
  else none

def twoLogs : CallCluster Bytes where
  servers q := { pid := q, actorWorkerProxy := true }
  functions _ := appendFunctions
  objects _ := []
  heads := [1, 4]
  clients := [10, 11]
  fresh _ := ⟨rfl, rfl, fun _ => rfl, fun _ => rfl, fun _ => rfl, fun _ => rfl⟩
  free _ := rfl
  unasked _ _ := rfl
  proxy _ _ := rfl
  next_nonneg _ := le_refl _
  next_lt _ := by norm_num
  unused _ := ⟨.empty, DataStore.empty_represents, fun _ _ => rfl⟩

/-- Clients 10 and 11 call the same actor, and the call of client 11 is handled first. Client 11 gets
the future of client 10, reads it before it has a result, and releases it. -/
def firstCalls : List Move :=
  [.call 10 0 1 "append" [1], .call 11 0 1 "append" [2], .handle 11 1, .handle 10 1, .respond 10,
    .respond 11, .share 10 0 11 1, .get 11 1, .handle 11 1] ++
  List.replicate 20 (.work 1 [7]) ++ List.replicate 4 (.handleOwn 1) ++
  [.retrieve 11, .release 11 1, .handle 11 1, .call 10 2 4 "append" [3]]

theorem firstCalls_proper :
    Act.Along (step ArchiveFormat.sampleFormat.codec twoLogs.functions) twoLogs.Proper firstCalls
      twoLogs.start := by decide +kernel

theorem firstCalls_run : ∃ outs net,
    Act.trace (step ArchiveFormat.sampleFormat.codec twoLogs.functions) firstCalls twoLogs.start =
      (outs, .ok net) ∧
    outs.flatten = [.called 10 1 "append" [1] 1, .called 11 1 "append" [2] 0,
      .got 11 (some (1, 1)) [2, 1, 7]] ∧
    net.mail 10 1 = [] ∧ net.mail 11 1 = [] ∧ net.own 1 = [] ∧ WaitsForCall net 1 ∧
      net.mail 10 4 ≠ [] ∧ twoLogs.Proper net (.handle 10 4) := by
  have hends : (Act.trace (step ArchiveFormat.sampleFormat.codec twoLogs.functions) firstCalls
      twoLogs.start).2.toOption.any (fun net => net.mail 10 1 = [] ∧ net.mail 11 1 = [] ∧
        net.own 1 = [] ∧ WaitsForCall net 1 ∧ net.mail 10 4 ≠ [] ∧
        twoLogs.Proper net (.handle 10 4)) = true := by decide +kernel
  have houts : (Act.trace (step ArchiveFormat.sampleFormat.codec twoLogs.functions) firstCalls
      twoLogs.start).1.flatten = [.called 10 1 "append" [1] 1, .called 11 1 "append" [2] 0,
        .got 11 (some (1, 1)) [2, 1, 7]] := by decide +kernel
  rcases hrun : Act.trace (step ArchiveFormat.sampleFormat.codec twoLogs.functions) firstCalls
    twoLogs.start with ⟨outs, e | net⟩
  · rw [hrun] at hends
    cases hends
  · rw [hrun] at hends houts
    exact ⟨outs, net, rfl, houts, of_decide_eq_true hends⟩

theorem reads_sequential_logs : ∃ outs net,
    Act.trace (step ArchiveFormat.sampleFormat.codec twoLogs.functions) firstCalls twoLogs.start =
      (outs, .ok net) ∧ .got 11 (some (1, 1)) [2, 1, 7] ∈ outs.flatten ∧
    ∃ history, Linearizes (twoLogs.functions 1) (twoLogs.objects 1) 1 outs.flatten history := by
  obtain ⟨outs, net, hrun, houts, -⟩ := firstCalls_run
  exact ⟨outs, net, hrun, houts ▸ by decide,
    reads_sequential twoLogs firstCalls_proper hrun 1⟩

/-- The keys that clients have got for their calls to this actor. -/
def issuedKeys (head : Int) (shown : List CallEvent) : List Int :=
  shown.filterMap fun
    | .called _ head' _ _ key => if head' = head then some key else none
    | _ => none

theorem calledKeys_of_mem {shown : List CallEvent} {c q : Int} {f : String} {args : Bytes} {key : Int}
    (h : .called c q f args key ∈ shown) : key ∈ calledKeys c q shown :=
  List.mem_filterMap.mpr ⟨_, h, if_pos ⟨rfl, rfl⟩⟩

theorem issuedKeys_mem {shown : List CallEvent} {q key : Int} (h : key ∈ issuedKeys q shown) :
    ∃ c f args, .called c q f args key ∈ shown := by
  obtain ⟨e, hmem, he⟩ := List.mem_filterMap.mp h
  cases e with
  | called c head f args key' =>
    simp only at he
    split_ifs at he with hq
    cases he
    exact ⟨c, f, args, hq ▸ hmem⟩
  | got => cases he

/-- Keys are different when those of each client are and no two clients get the same one. -/
theorem issuedKeys_nodup {q : Int} : ∀ {shown : List CallEvent},
    (∀ c, (calledKeys c q shown).Nodup) →
    (∀ c c' f f' args args' key, .called c q f args key ∈ shown →
      .called c' q f' args' key ∈ shown → c = c') →
    (issuedKeys q shown).Nodup
  | [], _, _ => List.nodup_nil
  | e :: shown, hnodup, hone => by
    have htail : (issuedKeys q shown).Nodup := by
      refine issuedKeys_nodup (fun c => (hnodup c).sublist ?_)
        fun c c' f f' args args' key h h' => hone c c' f f' args args' key
          (List.mem_cons_of_mem e h) (List.mem_cons_of_mem e h')
      exact (List.sublist_cons_self e shown).filterMap _
    cases e with
    | got => exact htail
    | called c head f args key =>
      by_cases hq : head = q
      · subst hq
        have hcons : issuedKeys head (.called c head f args key :: shown) =
            key :: issuedKeys head shown := List.filterMap_cons_some (if_pos rfl)
        rw [hcons, List.nodup_cons]
        refine ⟨fun hmem => ?_, htail⟩
        obtain ⟨c', f', args', hcalled⟩ := issuedKeys_mem hmem
        obtain rfl := hone c c' f f' args args' key List.mem_cons_self
          (List.mem_cons_of_mem _ hcalled)
        have hown : calledKeys c head (.called c head f args key :: shown) =
            key :: calledKeys c head shown := List.filterMap_cons_some (if_pos ⟨rfl, rfl⟩)
        have hself := hnodup c
        rw [hown, List.nodup_cons] at hself
        exact hself.1 (calledKeys_of_mem hcalled)
      · have hskip : issuedKeys q (.called c head f args key :: shown) = issuedKeys q shown :=
          List.filterMap_cons_none (if_neg hq)
        rw [hskip]
        exact htail

theorem codes_of_idle (h : Balanced st net b) (hidle : net.phase c = .idle) (q : Int) :
    net.codes q c = [] := by
  have hsession := h.session c
  rw [hidle] at hsession
  exact congrArg Line.codes (hsession q)

/-- The keys that the clients get for their calls to one actor are different, and a call that comes
back before another one is made gets the smaller key: the order in which the calls are served is one
that the callers can see. -/
theorem calls_keep_order (st : CallCluster Obj) {moves₁ moves₂ : List Move}
    {outs₁ outs₂ : List (List CallEvent)}
    (hp₁ : Act.Along (step codec st.functions) st.Proper moves₁ st.start)
    (htrace₁ : Act.trace (step codec st.functions) moves₁ st.start = (outs₁, .ok net₁))
    (hp₂ : Act.Along (step codec st.functions) st.Proper moves₂ net₁)
    (htrace₂ : Act.trace (step codec st.functions) moves₂ net₁ = (outs₂, .ok net)) (head : Int) :
    (issuedKeys head (outs₁.flatten ++ outs₂.flatten)).Nodup ∧
    ∀ c c' f f' args args' key key', net₁.phase c' = .idle →
      .called c head f args key ∈ outs₁.flatten → .called c' head f' args' key' ∈ outs₂.flatten →
      key < key' := by
  obtain ⟨b₁, hreached₁⟩ := (balanced_start st).run hp₁ htrace₁
  have hkeys₁ := fun c => acceptedKeys_of_run hreached₁ c head
  obtain ⟨hbalanced₁, -, hright₁, -⟩ := hreached₁
  obtain ⟨b₂, hbalanced₂, hgrows, hright₂, hcarries⟩ := hbalanced₁.run hp₂ htrace₂
  have hrising := (hbalanced₂.heads head).accepted_rising
  have hright : ∀ e ∈ outs₁.flatten ++ outs₂.flatten, Right b₂ e := by
    intro e he
    rcases List.mem_append.mp he with he | he
    · exact (hright₁ e he).mono hgrows
    · exact hright₂ e he
  refine ⟨issuedKeys_nodup (fun c => ?_) ?_, ?_⟩
  · have hafter := hcarries c head _ (hkeys₁ c)
    rw [← calledKeys_append] at hafter
    have hnodup : (acceptedKeys c (b₂ head).events).Nodup :=
      (hbalanced₂.heads head).accepted_nodup.sublist (List.filter_sublist.map _)
    rw [hafter] at hnodup
    exact hnodup.of_append_left
  · intro c c' f f' args args' key hcalled hcalled'
    have hreq := (hbalanced₂.heads head).called_eq (hright _ hcalled) (hright _ hcalled') rfl
    exact congrArg ActiveObjectRequest.sender hreq
  · intro c c' f f' args args' key key' hidle hcalled hcalled'
    obtain ⟨later, hlater⟩ := (hgrows head).1
    have hbefore := hkeys₁ c'
    rw [codes_of_idle hbalanced₁ hidle] at hbefore
    have hafter := hcarries c' head (calledKeys c' head outs₁.flatten)
      (hbefore.trans (by rw [codes_of_idle hbalanced₁ hidle]))
    have hsplit : acceptedKeys c' (b₂ head).events = acceptedKeys c' (b₁ head).events ++
        (later.filter fun req => req.sender = c').map ActiveObjectRequest.localkey := by
      rw [acceptedKeys, ← hlater, List.filter_append, List.map_append]
      rfl
    rw [hsplit, hbefore, List.append_nil, List.append_assoc, List.append_cancel_left_eq] at hafter
    have hnew : key' ∈ later.map ActiveObjectRequest.localkey := by
      have hmem : key' ∈ (later.filter fun req => req.sender = c').map ActiveObjectRequest.localkey := by
        rw [hafter]
        exact List.mem_append_left _ (calledKeys_of_mem hcalled')
      exact (List.filter_sublist.map _).subset hmem
    rw [← hlater, List.map_append, List.pairwise_append] at hrising
    exact hrising.2.2 key (List.mem_map_of_mem (f := ActiveObjectRequest.localkey)
      (hright₁ _ hcalled)) key' hnew

/-- Client 11 calls again. -/
def laterCalls : List Move := [.call 11 2 1 "append" [5], .handle 11 1, .respond 11]

theorem calls_keep_order_logs : ∃ outs₁ net₁ outs₂ net,
    Act.trace (step ArchiveFormat.sampleFormat.codec twoLogs.functions) firstCalls twoLogs.start =
      (outs₁, .ok net₁) ∧
    Act.trace (step ArchiveFormat.sampleFormat.codec twoLogs.functions) laterCalls net₁ =
      (outs₂, .ok net) ∧ outs₂.flatten = [.called 11 1 "append" [5] 4] ∧
    (issuedKeys 1 (outs₁.flatten ++ outs₂.flatten)).Nodup ∧ (1 : Int) < 4 := by
  have hafter : (Act.trace (step ArchiveFormat.sampleFormat.codec twoLogs.functions) firstCalls
      twoLogs.start).2.toOption.any (fun net₁ => net₁.phase 11 = .idle ∧
        Act.Along (step ArchiveFormat.sampleFormat.codec twoLogs.functions) twoLogs.Proper
          laterCalls net₁ ∧
        (Act.trace (step ArchiveFormat.sampleFormat.codec twoLogs.functions) laterCalls
          net₁).2.toOption.isSome ∧
        (Act.trace (step ArchiveFormat.sampleFormat.codec twoLogs.functions) laterCalls
          net₁).1.flatten = [.called 11 1 "append" [5] 4]) = true := by decide +kernel
  obtain ⟨outs₁, net₁, hrun, houts, -⟩ := firstCalls_run
  rw [hrun] at hafter
  obtain ⟨hidle, hproper, hends, houts₂⟩ := of_decide_eq_true hafter
  rcases hlater : Act.trace (step ArchiveFormat.sampleFormat.codec twoLogs.functions) laterCalls
    net₁ with ⟨outs₂, e | net⟩
  · rw [hlater] at hends
    cases hends
  · rw [hlater] at houts₂
    obtain ⟨hnodup, horder⟩ :=
      calls_keep_order twoLogs firstCalls_proper hrun hproper hlater 1
    refine ⟨outs₁, net₁, outs₂, net, hrun, hlater, houts₂, hnodup, ?_⟩
    exact horder 10 11 _ _ _ _ 1 4 hidle (houts ▸ List.mem_cons_self) (houts₂ ▸ List.mem_cons_self)

theorem runs_keep (hp : Act.Along (step codec st.functions) st.Proper moves st.start) :
    (∃ net, (Act.trace (step codec st.functions) moves st.start).2 = .ok net) ∨
      ∃ e, (Act.trace (step codec st.functions) moves st.start).2 = .error e ∧ Waits e := by
  have hcases := (Act.trace_cases (fun net => ∃ b, Balanced st net b) (R := fun _ => True)
    (Q := Waits) ?_ ⟨_, balanced_start st⟩ hp).2
  · exact hcases.imp_left fun ⟨net, hnet, _⟩ => ⟨net, hnet⟩
  · rintro net move ⟨b, h⟩ hproper
    have hkeeps : Keeping codec st net b move ∨ _ := step_keeps h hproper
    rcases hkeeps with ⟨out, net', b', hstep, h', -⟩ | hwaits
    · exact .inl ⟨out, net', hstep, ⟨b', h'⟩, fun _ _ => trivial⟩
    · exact .inr hwaits

/-- A worker that waits has registered the results of all calls. -/
theorem registrations_of_waiting (h : Balanced st net b) (hown : net.own pid = [])
    (hworker : WaitsForCall net pid) :
    (returned (b pid).events).map Prod.fst = accepted (b pid).events ∧
      registrationsOf (b pid).history =
        (returned (b pid).events).map fun done => (done.1.localkey, done.2) := by
  obtain ⟨⟨obj, hlooping⟩, hqueue⟩ := hworker
  obtain ⟨hserved, hregistered⟩ := (h.heads pid).kept.balanced.waiting hlooping hqueue
  have hall := (h.heads pid).registered
  rw [hown, hregistered] at hall
  exact ⟨hserved, (hall.trans (List.append_nil _)).symm⟩

/-- Then the result of every call is there. -/
theorem registered_of_waiting (h : Balanced st net b) (hown : net.own pid = [])
    (hworker : WaitsForCall net pid) {req : ActiveObjectRequest}
    (hreq : req ∈ accepted (b pid).events) :
    ∃ data, (req, data) ∈ returned (b pid).events ∧
      FutureReads.registered req.localkey (b pid).history = some data := by
  obtain ⟨hserved, hregistered⟩ := registrations_of_waiting h hown hworker
  rw [← hserved] at hreq
  obtain ⟨⟨req', data⟩, hdone, rfl⟩ := List.mem_map.mp hreq
  refine ⟨data, hdone, (h.heads pid).registered_iff.mpr ?_⟩
  rw [hregistered]
  exact List.mem_map_of_mem hdone

theorem not_waiting (h : Balanced st net b) (hown : net.own pid = [])
    (hworker : WaitsForCall net pid) (c key : Int) : waiting c key (b pid).history = 0 := by
  by_contra hwaits
  have hparked : (line net b c pid).parked key ≠ 0 := hwaits
  rcases h.line_cases c pid with hempty | ⟨_, _, _, -, -, -, hawaits⟩ |
    ⟨var, key', hphase, -, -, hawaits⟩
  · rw [hempty] at hparked
    exact absurd rfl hparked
  · generalize line net b c pid = l at hparked hawaits
    cases hawaits <;> exact absurd rfl hparked
  · have hkey : key = key' := by
      generalize line net b c pid = l at hparked hawaits
      cases hawaits with
      | asked => exact absurd rfl hparked
      | parked =>
        by_contra hne
        have hzero : Function.update (fun _ : Int => 0) key' 1 key = 0 :=
          Function.update_of_ne hne _ _
        exact hparked hzero
      | answered => exact absurd rfl hparked
    subst hkey
    have hsession := h.session c
    rw [hphase] at hsession
    have hknown := h.known c var
    unfold Known at hknown
    rw [hsession.1.2.2] at hknown
    obtain ⟨⟨req, hreq, rfl⟩, -⟩ := hknown
    obtain ⟨data, -, hregistered⟩ := registered_of_waiting h hown hworker hreq
    unfold waiting at hwaits
    rw [hregistered, if_neg (Option.some_ne_none data)] at hwaits
    exact hwaits rfl

theorem respond_goes_on (h : Balanced st net b) {var : Nat} {head : Int} {f : String} {args : Bytes}
    (hphase : net.phase c = .calling var head f args) (hmail : net.mail c head = []) :
    ∃ out net', step codec st.functions (.respond c) net = (out, .ok ((), net')) := by
  have hsession := h.session c
  rw [hphase] at hsession
  obtain ⟨-, hawaits, -⟩ := hsession
  cases hcodes : net.codes head c with
  | nil =>
    generalize hl : line net b c head = l at hawaits
    cases hawaits with
    | asked =>
      have hcalls : callsIn (net.mail c head) = [RequestIds.activeCall f args] :=
        congrArg Line.calls hl
      rw [hmail] at hcalls
      cases hcalls
    | answered key hkey =>
      have hcode : net.codes head c = [key] := congrArg Line.codes hl
      rw [hcodes] at hcode
      cases hcode
  | cons key rest =>
    have hkeeps : Keeping codec st net b (.respond c) := respond_keeps h hphase hcodes
    obtain ⟨out, net', b', hstep, -⟩ := hkeeps
    exact ⟨out, net', hstep⟩

theorem retrieve_goes_on (h : Balanced st net b) {var : Nat} {key : Int}
    (hphase : net.phase c = .getting var pid key) (hmail : net.mail c pid = [])
    (hown : net.own pid = []) (hworker : WaitsForCall net pid) :
    ∃ out net', step codec st.functions (.retrieve c) net = (out, .ok ((), net')) := by
  have hsession := h.session c
  rw [hphase] at hsession
  obtain ⟨-, hawaits, -⟩ := hsession
  cases hdata : net.data pid c with
  | nil =>
    generalize hl : line net b c pid = l at hawaits
    cases hawaits with
    | asked =>
      have hgets : getsIn (net.mail c pid) = [key] := congrArg Line.gets hl
      rw [hmail] at hgets
      cases hgets
    | parked =>
      have hparked : waiting c key (b pid).history = Function.update (fun _ => 0) key 1 key :=
        congrFun (congrArg Line.parked hl) key
      rw [Function.update_self, not_waiting h hown hworker] at hparked
      cases hparked
    | answered data hmem =>
      have hcome : net.data pid c = [data] := congrArg Line.data hl
      rw [hdata] at hcome
      cases hcome
  | cons data rest =>
    have hkeeps : Keeping codec st net b (.retrieve c) := retrieve_keeps h hphase hdata
    obtain ⟨out, net', b', hstep, -⟩ := hkeeps
    exact ⟨out, net', hstep⟩

/-- Moves of managers and workers show nothing. -/
theorem shows_nothing {move : Move} {out : List CallEvent}
    (hmove : (∃ c, move = .handle c pid) ∨ move = .handleOwn pid ∨ ∃ learnt, move = .work pid learnt)
    (hstep : step codec st.functions move net = (out, .ok ((), net'))) : out = [] := by
  rcases hmove with ⟨c, rfl⟩ | rfl | ⟨learnt, rfl⟩
  all_goals
    simp only [step] at hstep
    split at hstep <;> (try split at hstep) <;> cases hstep
    rfl

theorem worker_goes_on (h : Balanced st net b) (pid : Int) :
    WaitsForCall net pid ∨ (net.workers pid).Learns ∨
      (∃ task, net.workers pid = .running task .throw) ∨
      ∃ net', ∀ learnt, step codec st.functions (.work pid learnt) net = ([], .ok ((), net')) := by
  rcases (h.heads pid).kept.worker_goes_on (st.functions pid) with ⟨events, s, hstep⟩ |
    ⟨obj, hworker, hmessages⟩ | hlearns | hthrows | ⟨obj, hworker⟩
  · refine .inr (.inr (.inr ⟨net.worked pid events s, fun learnt => ?_⟩))
    simp only [step, hstep learnt]
  · exact .inl ⟨⟨obj, hworker⟩, hmessages⟩
  · exact .inr (.inl hlearns)
  · exact .inr (.inr (.inl hthrows))
  · -- a worker that has left its loop has seen a stop request, and there was none
    have hstop := ((h.heads pid).kept.balanced.finished hworker).2.2
    rw [(h.heads pid).idle] at hstop
    cases hstop

/-- Proper moves meet no fault but that they have to wait or that a method throws. What has been sent
can be handled, a worker goes on by itself unless it waits for a call, its method throws or its
method waits to learn something, and then it goes on as soon as it has learnt it; a call comes back
when its message has been handled, and a read when the process has nothing left to do. -/
theorem callers_go_on (st : CallCluster Obj)
    (hp : Act.Along (step codec st.functions) st.Proper moves st.start) :
    (∀ outs e, Act.trace (step codec st.functions) moves st.start = (outs, .error e) → Waits e) ∧
    ∀ outs net, Act.trace (step codec st.functions) moves st.start = (outs, .ok net) → ∀ pid,
      (∀ c, net.mail c pid ≠ [] → st.Proper net (.handle c pid) → ∃ net',
        step codec st.functions (.handle c pid) net = ([], .ok ((), net'))) ∧
      (net.own pid ≠ [] → ∃ net',
        step codec st.functions (.handleOwn pid) net = ([], .ok ((), net'))) ∧
      (WaitsForCall net pid ∨ (net.workers pid).Learns ∨
        (∃ task, net.workers pid = .running task .throw) ∨ ∃ net', ∀ learnt,
          step codec st.functions (.work pid learnt) net = ([], .ok ((), net'))) ∧
      ((net.workers pid).Learns → ∀ learnt, ∃ net',
        step codec st.functions (.work pid learnt) net = ([], .ok ((), net'))) ∧
      (∀ c var f args, net.phase c = .calling var pid f args → net.mail c pid = [] → ∃ out net',
        step codec st.functions (.respond c) net = (out, .ok ((), net'))) ∧
      ∀ c var key, net.phase c = .getting var pid key → net.mail c pid = [] → net.own pid = [] →
        WaitsForCall net pid → ∃ out net',
          step codec st.functions (.retrieve c) net = (out, .ok ((), net')) := by
  refine ⟨fun outs e herror => ?_, fun outs net htrace pid => ?_⟩
  · rcases runs_keep hp with ⟨net, hnet⟩ | ⟨e', he', hwaits⟩
    · rw [herror] at hnet
      cases hnet
    · rw [herror] at he'
      cases he'
      exact hwaits
  · obtain ⟨b, h, -⟩ := (balanced_start st).run hp htrace
    refine ⟨fun c hmail hproper => ?_, fun hown => ?_, worker_goes_on h pid,
      fun hlearns learnt => ?_, fun c var f args => respond_goes_on h,
      fun c var key => retrieve_goes_on h⟩
    · obtain ⟨msg, rest, hcons⟩ := List.exists_cons_of_ne_nil hmail
      have hkeeps : Keeping codec st net b (.handle c pid) := handle_keeps h hcons hproper
      obtain ⟨out, net', b', hstep, -⟩ := hkeeps
      obtain rfl := shows_nothing (.inl ⟨c, rfl⟩) hstep
      exact ⟨net', hstep⟩
    · obtain ⟨msg, rest, hcons⟩ := List.exists_cons_of_ne_nil hown
      have hkeeps : Keeping codec st net b (.handleOwn pid) := handleOwn_keeps h hcons
      obtain ⟨out, net', b', hstep, -⟩ := hkeeps
      obtain rfl := shows_nothing (.inr (.inl rfl)) hstep
      exact ⟨net', hstep⟩
    · obtain ⟨s, hstep⟩ := hlearns.turn (s := net.head pid) (st.functions pid) learnt
      refine ⟨net.worked pid [] s, ?_⟩
      simp only [step, hstep]

theorem callers_go_on_logs : ∃ outs net,
    Act.trace (step ArchiveFormat.sampleFormat.codec twoLogs.functions) firstCalls twoLogs.start =
      (outs, .ok net) ∧ ∃ net', step ArchiveFormat.sampleFormat.codec twoLogs.functions
        (.handle 10 4) net = ([], .ok ((), net')) := by
  obtain ⟨outs, net, hrun, -, -, -, -, -, hunder, hproper⟩ := firstCalls_run
  exact ⟨outs, net, hrun,
    ((callers_go_on twoLogs firstCalls_proper).2 outs net hrun 4).1 10 hunder hproper⟩

/-- What has been said to the manager of the process has been handled, and its worker has nothing
left to do. -/
structure Settled (net : CallSessions Obj) (pid : Int) : Prop where
  mail : ∀ c, net.mail c pid = []
  own : net.own pid = []
  worker : WaitsForCall net pid

theorem released_of_settled (h : Balanced st net b) (hsettled : Settled net pid) (key : Int) :
    FutureReads.released key (b pid).history = true ↔ (pid, key) ∈ net.released := by
  rcases (h.releases pid key).inv with ⟨hkept, hms, -⟩ | ⟨-, -, c, hone⟩ | ⟨hmarked, hms, -⟩
  · rw [hms]
    exact iff_of_false Bool.false_ne_true hkept
  · have hcount := congrFun hone c
    simp only [Function.update_self, hsettled.mail c] at hcount
    cases hcount
  · exact iff_of_true hms hmarked

/-- A process that has nothing left to do keeps the results of the calls whose futures nobody has
released, no others, and no trace of reads and releases. -/
theorem results_kept (st : CallCluster Obj) {outs : List (List CallEvent)}
    (hp : Act.Along (step codec st.functions) st.Proper moves st.start)
    (htrace : Act.trace (step codec st.functions) moves st.start = (outs, .ok net))
    (hsettled : Settled net pid) :
    ∃ history, Linearizes (st.functions pid) (st.objects pid) pid outs.flatten history ∧
      (∀ c f args key, .called c pid f args key ∈ outs.flatten →
        ∃ data, (⟨RequestIds.activeCall f args, c, key⟩, data) ∈ history) ∧
      ∀ key, (∀ data, (net.servers pid).futureDataStore key = some data ↔
          (pid, key) ∉ net.released ∧ ∃ req, (req, data) ∈ history ∧ req.localkey = key) ∧
        (net.servers pid).pendingFutureRequests key = none ∧
        (net.servers pid).askedFutureDelete key = false := by
  obtain ⟨b, hreached⟩ := (balanced_start st).run hp htrace
  have hnamed := named_of_run htrace
  have hlinearizes := hreached.linearizes hnamed pid
  obtain ⟨h, -, hright, -⟩ := hreached
  have hall : ∀ req ∈ accepted (b pid).events, _ := fun req =>
    registered_of_waiting h hsettled.own hsettled.worker
  have hagrees := (h.heads pid).agrees
  refine ⟨returned (b pid).events, hlinearizes, ?_, fun key => ⟨fun data => ?_, ?_, ?_⟩⟩
  · intro c f args key hcalled
    obtain ⟨data, hdone, -⟩ := hall _ (hright _ hcalled)
    exact ⟨data, hdone⟩
  · have hreleased := released_of_settled h hsettled key
    rw [hagrees.stored]
    by_cases hmarked : (pid, key) ∈ net.released
    · rw [if_pos (hreleased.mpr hmarked)]
      exact iff_of_false (Option.some_ne_none data).symm fun hkept => hkept.1 hmarked
    · have hregistered := (registrations_of_waiting h hsettled.own hsettled.worker).2
      rw [if_neg fun hms => hmarked (hreleased.mp hms), (h.heads pid).registered_iff, hregistered,
        List.mem_map]
      constructor
      · rintro ⟨⟨req, data'⟩, hdone, he⟩
        cases he
        exact ⟨hmarked, req, hdone, rfl⟩
      · rintro ⟨-, req, hdone, rfl⟩
        exact ⟨(req, data), hdone, rfl⟩
  · rw [hagrees.pending, if_pos]
    by_cases hnone : FutureReads.registered key (b pid).history = none
    · right
      apply List.eq_nil_iff_forall_not_mem.mpr
      intro c hreader
      have hwaits := not_waiting h hsettled.own hsettled.worker c key
      unfold waiting at hwaits
      rw [if_pos hnone] at hwaits
      exact List.count_eq_zero.mp hwaits hreader
    · exact .inl hnone
  · rw [hagrees.askedDelete]
    by_cases hms : FutureReads.released key (b pid).history = true
    · obtain ⟨c, f, args, hcalled⟩ :=
        hnamed.released pid key ((released_of_settled h hsettled key).mp hms)
      obtain ⟨data, -, hregistered⟩ := hall _ (hright _ hcalled)
      rw [hregistered]
      exact Bool.and_false _
    · rw [Bool.eq_false_iff.mpr hms]
      rfl

/-- The client whose messages the move posts or takes. -/
def Move.client : Move → Option Int
  | .call c .. | .respond c | .get c _ | .retrieve c | .copy c .. | .resetData c _ | .release c _
  | .share c .. | .handle c _ => some c
  | .handleOwn _ | .work .. => none

/-- A client that makes no moves sends no messages. -/
theorem mail_of_absent {outs : List (List CallEvent)}
    (htrace : Act.trace (step codec st.functions) moves st.start = (outs, .ok net))
    (habsent : ∀ move ∈ moves, move.client ≠ some c) (q : Int) : net.mail c q = [] := by
  have hstep : ∀ (_ : List Move) (_ : List CallEvent) net move out net',
      net.mail c q = [] → move.client ≠ some c →
      step codec st.functions move net = (out, .ok ((), net')) → net'.mail c q = [] := by
    intro _ _ net move out net' hnone hc hstep
    refine Eq.trans ?_ hnone
    -- every move changes the mail of its own client only
    cases step_inversion hstep with
    | call | get | release | handle =>
      exact congrFun (Function.update_of_ne (fun he => hc (congrArg some he.symm)) _ _) q
    | _ => rfl
  have hothers : Act.Along (step codec st.functions) (fun _ move => move.client ≠ some c) moves
      st.start :=
    ((Act.Along.of_forall (fun _ _ => trivial) moves st.start).and_mem habsent).mono fun _ _ h => h.2
  exact Act.trace_history hstep rfl hothers htrace

theorem results_kept_logs : ∃ outs net history,
    Act.trace (step ArchiveFormat.sampleFormat.codec twoLogs.functions) firstCalls twoLogs.start =
      (outs, .ok net) ∧ Linearizes appendFunctions [] 1 outs.flatten history ∧
    ∀ key data, (net.servers 1).futureDataStore key = some data ↔
      (1, key) ∉ net.released ∧ ∃ req, (req, data) ∈ history ∧ req.localkey = key := by
  obtain ⟨outs, net, hrun, -, hten, heleven, hown, hworker, -⟩ := firstCalls_run
  have hmail (c : Int) : net.mail c 1 = [] := by
    by_cases hc : c = 10 ∨ c = 11
    · rcases hc with rfl | rfl
      · exact hten
      · exact heleven
    · apply mail_of_absent hrun
      intro move hmove hclient
      have hclients : ∀ move ∈ firstCalls, move.client = none ∨ move.client = some 10 ∨
          move.client = some 11 := by decide
      have hcases := hclients move hmove
      rw [hclient] at hcases
      simp only [reduceCtorEq, Option.some.injEq, false_or] at hcases
      exact hc hcases
  obtain ⟨history, hlinearizes, -, hkept⟩ :=
    results_kept twoLogs firstCalls_proper hrun ⟨hmail, hown, hworker⟩
  exact ⟨outs, net, history, hrun, hlinearizes, fun key => (hkept key).1⟩

theorem Balanced.answers (h : Balanced st net b) (c q : Int) :
    (net.codes q c).length + (net.data q c).length ≤ 1 ∧
    (net.codes q c ≠ [] → ∃ var f args, net.phase c = .calling var q f args) ∧
    (net.data q c ≠ [] → ∃ var key, net.phase c = .getting var q key) := by
  change (line net b c q).codes.length + (line net b c q).data.length ≤ 1 ∧
    ((line net b c q).codes ≠ [] → _) ∧ ((line net b c q).data ≠ [] → _)
  rcases h.line_cases c q with hline | ⟨var, f, args, hphase, -, -, hawaits⟩ |
    ⟨var, key, hphase, -, -, hawaits⟩
  · rw [hline]
    exact ⟨Nat.zero_le 1, fun hcodes => absurd rfl hcodes, fun hdata => absurd rfl hdata⟩
  · refine ⟨?_, fun _ => ⟨var, f, args, hphase⟩, fun hdata => ?_⟩
    all_goals generalize line net b c q = l at *
    · cases hawaits with
      | asked => exact Nat.zero_le 1
      | answered => exact Nat.le_refl 1
    · cases hawaits with
      | asked | answered => exact absurd rfl hdata
  · refine ⟨?_, fun hcodes => ?_, fun _ => ⟨var, key, hphase⟩⟩
    all_goals generalize line net b c q = l at *
    · cases hawaits with
      | asked | parked => exact Nat.zero_le 1
      | answered => exact Nat.le_refl 1
    · cases hawaits with
      | asked | parked | answered => exact absurd rfl hcodes

/-- Keys and data come to a client under one tag. They are not mixed up: at most one answer is under
way from a process to a client, and it is of the kind that the client waits for there. -/
theorem answers_expected (st : CallCluster Obj) {outs : List (List CallEvent)}
    (hp : Act.Along (step codec st.functions) st.Proper moves st.start)
    (htrace : Act.trace (step codec st.functions) moves st.start = (outs, .ok net)) (c q : Int) :
    (net.codes q c).length + (net.data q c).length ≤ 1 ∧
    (net.codes q c ≠ [] → ∃ var f args, net.phase c = .calling var q f args) ∧
    (net.data q c ≠ [] → ∃ var key, net.phase c = .getting var q key) := by
  obtain ⟨b, hreached⟩ := (balanced_start st).run hp htrace
  exact hreached.1.answers c q

theorem answers_expected_logs : ∃ outs net,
    Act.trace (step ArchiveFormat.sampleFormat.codec twoLogs.functions) firstCalls twoLogs.start =
      (outs, .ok net) ∧ (net.codes 1 11).length + (net.data 1 11).length ≤ 1 := by
  obtain ⟨outs, net, hrun, -⟩ := firstCalls_run
  exact ⟨outs, net, hrun, (answers_expected twoLogs firstCalls_proper hrun 11 1).1⟩

end ActiveBsp.CallSessions
