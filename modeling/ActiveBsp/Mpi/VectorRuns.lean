import ActiveBsp.Mpi.VectorSessionsDelivery
import ActiveBsp.Serialization.RoundTrip

/-!
# What clients may rely on

Clients distribute, read and give back vectors at the same time. Whatever the
order in which their messages are handled, a read brings the bytes of the
vector, nobody is stuck or meets a fault, and a process that has handled its
messages keeps the parts of the vectors that are in use and no other new ones.
-/
namespace ActiveBsp.VectorSessions

open Library Library.Buffer Library.Tiling Serialization ActorServer MPIActorCommunicator

set_option autoImplicit false

variable {codec : Codec} {net : VectorSessions} {b : Books}

theorem balanced_start (st : Cluster) : Balanced st st.start {} where
  servers q := by
    refine ⟨rfl, ?_⟩
    exact st.represented q
  lags _ _ := Lags.refl _ _
  vault_owned _ _ _ _ h := nomatch h
  prompt_owned _ _ _ _ h := nomatch h
  mail_owned _ _ _ h := nomatch h
  unheld _ _ _ h := nomatch h
  owner_new _ _ _ _ _ _ h := nomatch h
  next_le _ _ := le_refl _
  kept c q key data := by
    constructor
    · exact fun h => nomatch h
    · rintro ⟨handle, hh, -⟩
      cases hh
  names _ := List.nodup_nil
  usable _ _ h := nomatch h
  session _ := ⟨fun _ => ⟨rfl, rfl⟩, fun _ => rfl⟩

/-- A move succeeds and the books are kept, or it has to wait. -/
theorem step_keeps {st : Cluster} (h : Balanced st net b) {move : Move}
    (hp : st.Proper net move) :
    Keeping codec st net move ∨ step codec move net = ([], .error .blocked) := by
  cases move with
  | distribute c head v msg =>
    cases hphase : net.phase c with
    | idle => exact .inl (distribute_keeps h hp hphase)
    | _ => exact .inr (by simp only [step, hphase])
  | store c =>
    cases hphase : net.phase c with
    | distributing head v msg =>
      cases hvectors : net.vectors head c with
      | nil => exact .inr (by simp only [step, hphase, hvectors])
      | cons dv rest => exact .inl (store_keeps h hphase hvectors)
    | _ => exact .inr (by simp only [step, hphase])
  | read c handle offset size buf =>
    cases hphase : net.phase c with
    | idle => exact .inl (read_keeps h hp hphase)
    | _ => exact .inr (by simp only [step, hphase])
  | receive c =>
    cases hphase : net.phase c with
    | reading handle offset size buf =>
      by_cases hcome : ∀ e ∈ (partRequests c handle.dv offset size).reqs,
          e.2.length ≤ (net.parts e.1 c).length
      · exact .inl (receive_keeps h hphase hcome)
      · exact .inr (by simp only [step, hphase, if_neg hcome])
    | _ => exact .inr (by simp only [step, hphase])
  | release c handle read =>
    cases hphase : net.phase c with
    | idle => exact .inl (release_keeps h hp hphase)
    | _ => exact .inr (by simp only [step, hphase])
  | deliver c pid =>
    cases hmail : net.mail c pid with
    | nil => exact .inr (by simp only [step, hmail])
    | cons msg rest => exact .inl (deliver_keeps h hp hmail)

variable {moves : List Move}

/-- Every run of proper moves: its reads are right, and it keeps the books or has to wait. -/
theorem runs_keep {st : Cluster} (hp : Act.Along (step codec) st.Proper moves st.start) :
    (∀ read ∈ (Act.trace (step codec) moves st.start).1.flatten,
        read.bytes = slice read.handle.content read.offset read.size) ∧
      ((∃ net, (Act.trace (step codec) moves st.start).2 = .ok net ∧ ∃ b, Balanced st net b) ∨
        ∃ e, (Act.trace (step codec) moves st.start).2 = .error e ∧ e = .blocked) := by
  apply Act.trace_cases (fun net => ∃ b, Balanced st net b) ?_ ⟨_, balanced_start st⟩ hp
  rintro net move ⟨b, h⟩ hproper
  have hkeeps : Keeping codec st net move ∨ _ := step_keeps h hproper
  rcases hkeeps with ⟨out, net', b', hstep, h', hread⟩ | hblocked
  · exact .inl ⟨out, net', hstep, ⟨b', h'⟩, hread⟩
  · exact .inr ⟨_, hblocked, rfl⟩

theorem balanced_of_trace {st : Cluster} {outs : List (List VectorRead)}
    (hp : Act.Along (step codec) st.Proper moves st.start)
    (h : Act.trace (step codec) moves st.start = (outs, .ok net)) : ∃ b, Balanced st net b := by
  rcases (runs_keep hp).2 with ⟨net', hnet, hb⟩ | ⟨e, he, -⟩
  · rw [h] at hnet
    cases hnet
    exact hb
  · rw [h] at he
    cases he

/-- The client has distributed the vector. -/
def Given (moves : List Move) (c : Int) (v : Bytes) : Prop :=
  ∃ head msg, Move.distribute c head v msg ∈ moves

/-- The vector that the client is concerned with is one that it has distributed. -/
def ClientPhase.Given (moves : List Move) (c : Int) : ClientPhase → Prop
  | .idle => True
  | .distributing _ v _ => VectorSessions.Given moves c v
  | .reading handle _ _ _ => VectorSessions.Given moves c handle.content

/-- What the clients have in hand comes from the vectors that they have distributed. -/
structure Traced (moves : List Move) (net : VectorSessions) : Prop where
  handles : ∀ c, ∀ handle ∈ net.handles c, Given moves c handle.content
  phase : ∀ c, ClientPhase.Given moves c (net.phase c)

theorem Given.snoc {c : Int} {v : Bytes} (h : Given moves c v) (move : Move) :
    Given (moves ++ [move]) c v := by
  obtain ⟨head, msg, hmem⟩ := h
  exact ⟨head, msg, List.mem_append_left _ hmem⟩

theorem Traced.snoc (h : Traced moves net) (move : Move) : Traced (moves ++ [move]) net where
  handles c handle hh := (h.handles c handle hh).snoc move
  phase c := by
    have hphase := h.phase c
    cases hc : net.phase c with
    | idle => trivial
    | distributing head v msg =>
      rw [hc] at hphase
      exact Given.snoc hphase move
    | reading handle offset size buf =>
      rw [hc] at hphase
      exact Given.snoc hphase move

/-- What has to be shown of the client that moves. -/
theorem Traced.turn {net' : VectorSessions} {c : Int} {phase : ClientPhase} {handles : List Handle}
    (h : Traced moves net) (hphases : net'.phase = Function.update net.phase c phase)
    (hhandles : net'.handles = Function.update net.handles c handles)
    (hphase : ClientPhase.Given moves c phase)
    (hgiven : ∀ handle ∈ handles, Given moves c handle.content) : Traced moves net' where
  handles c' := by
    rw [hhandles]
    by_cases hc : c' = c
    · subst hc
      rw [Function.update_self]
      exact hgiven
    · rw [Function.update_of_ne hc]
      exact h.handles c'
  phase c' := by
    rw [hphases]
    by_cases hc : c' = c
    · subst hc
      rw [Function.update_self]
      exact hphase
    · rw [Function.update_of_ne hc]
      exact h.phase c'

/-- A run, and the reads in it. -/
def TracedReads (moves : List Move) (reads : List VectorRead) (net : VectorSessions) : Prop :=
  Traced moves net ∧ ∀ read ∈ reads, Given moves read.client read.handle.content

theorem traced_step {st : Cluster} {net' : VectorSessions} {move : Move} {out : List VectorRead}
    (h : Traced moves net) (hp : st.Proper net move)
    (hstep : step codec move net = (out, .ok ((), net'))) :
    Traced (moves ++ [move]) net' ∧
      ∀ read ∈ out, Given (moves ++ [move]) read.client read.handle.content := by
  have hmoves := h.snoc move
  cases move with
  | distribute c head v msg =>
    simp only [step] at hstep
    split at hstep
    · cases hstep
      refine ⟨hmoves.turn rfl rfl ?_ (hmoves.handles c), List.forall_mem_nil _⟩
      exact ⟨head, msg, List.mem_append_right _ List.mem_cons_self⟩
    · cases hstep
  | store c =>
    simp only [step] at hstep
    split at hstep
    · rename_i head v msg hphase
      split at hstep
      · cases hstep
      · cases hstep
        have hgiven := hmoves.phase c
        rw [hphase] at hgiven
        refine ⟨hmoves.turn rfl rfl trivial ?_, List.forall_mem_nil _⟩
        intro handle hh
        rcases List.mem_append.mp hh with hh | hh
        · exact hmoves.handles c handle hh
        · cases List.mem_singleton.mp hh
          exact hgiven
    · cases hstep
  | read c handle offset size buf =>
    simp only [step] at hstep
    split at hstep
    · split at hstep
      · cases hstep
        exact ⟨hmoves.turn rfl rfl (hmoves.handles c handle hp.1) (hmoves.handles c),
          List.forall_mem_nil _⟩
      · cases hstep
    · cases hstep
  | receive c =>
    simp only [step] at hstep
    split at hstep
    · rename_i handle offset size buf hphase
      split at hstep
      · cases hstep
        have hgiven := hmoves.phase c
        rw [hphase] at hgiven
        refine ⟨hmoves.turn rfl rfl trivial (hmoves.handles c), fun read hr => ?_⟩
        cases List.mem_singleton.mp hr
        exact hgiven
      · cases hstep
    · cases hstep
  | release c handle read =>
    simp only [step] at hstep
    split at hstep
    · cases hstep
      exact ⟨hmoves.turn rfl rfl trivial fun handle' hh =>
        hmoves.handles c handle' (List.mem_of_mem_erase hh), List.forall_mem_nil _⟩
    · cases hstep
  | deliver c pid =>
    simp only [step] at hstep
    split at hstep
    · cases hstep
    · split at hstep
      · cases hstep
      · cases hstep
        exact ⟨⟨hmoves.handles, hmoves.phase⟩, List.forall_mem_nil _⟩

/-- However far the processes lag behind, a read brings the bytes of a vector that the client has
distributed. -/
theorem reads_bring_content (st : Cluster) {outs : List (List VectorRead)}
    (hp : Act.Along (step codec) st.Proper moves st.start)
    (htrace : Act.trace (step codec) moves st.start = (outs, .ok net)) :
    ∀ read ∈ outs.flatten, Given moves read.client read.handle.content ∧
      read.bytes = slice read.handle.content read.offset read.size := by
  have hstart : Traced [] st.start := by
    constructor
    · exact fun _ _ hh => nomatch hh
    · exact fun _ => trivial
  have hhistory : TracedReads moves outs.flatten net := by
    have hstep : ∀ moves reads net move out net', TracedReads moves reads net →
        st.Proper net move → step codec move net = (out, .ok ((), net')) →
        TracedReads (moves ++ [move]) (reads ++ out) net' := by
      intro moves reads net move out net' hinv hproper hstep
      obtain ⟨htraced, hgiven⟩ := traced_step hinv.1 hproper hstep
      refine ⟨htraced, fun read hr => ?_⟩
      rcases List.mem_append.mp hr with hr | hr
      · exact (hinv.2 read hr).snoc move
      · exact hgiven read hr
    exact Act.trace_history hstep ⟨hstart, List.forall_mem_nil _⟩ hp htrace
  have hbytes := (runs_keep hp).1
  rw [htrace] at hbytes
  exact fun read hr => ⟨hhistory.2 read hr, hbytes read hr⟩

/-- Two actors, at processes 1 and 2 and at processes 4 and 5. -/
def twoActors : Cluster where
  servers q := { pid := q, pids := if q = 4 then [4, 5] else [1, 2] }
  tables _ := .empty
  heads := [1, 4]
  ready _ := ⟨rfl, rfl, rfl⟩
  unasked _ _ := rfl
  represented _ := DataStore.empty_represents
  nonempty := by decide
  few := by decide
  nodup := by decide
  apart := by decide
  fresh _ _ _ _ _ _ := rfl
  small := by decide

/-- The vector of client 10. -/
def shared : Handle := ⟨⟨[⟨1, -1, 2, 0⟩, ⟨2, -2, 2, 2⟩]⟩, [1, 2, 3, 4]⟩

/-- Clients 10 and 11 distribute vectors to the same actor. One reads from its vector before any
part has been stored, and gives it back; the other one distributes a vector to the other actor. -/
def sharedMoves : List Move :=
  [.distribute 10 1 [1, 2, 3, 4] ⟨4, 1⟩, .distribute 11 1 [8, 9] ⟨2, 1⟩, .deliver 10 1,
    .deliver 11 1, .store 10, .read 10 shared 1 2 [0, 0], .store 11, .deliver 10 2, .deliver 10 1,
    .deliver 11 2, .deliver 10 1, .deliver 10 2, .receive 10, .release 10 shared (dvRelease shared.dv),
    .distribute 11 4 [5, 6, 7] ⟨1, 3⟩, .deliver 10 2, .deliver 11 4, .store 11, .deliver 11 1,
    .deliver 10 1]

theorem sharedMoves_proper : Act.Along (step ArchiveFormat.sampleFormat.codec) twoActors.Proper
    sharedMoves twoActors.start := by decide +kernel

theorem sharedMoves_run : ∃ outs net,
    Act.trace (step ArchiveFormat.sampleFormat.codec) sharedMoves twoActors.start =
      (outs, .ok net) ∧ outs.flatten.length = 1 ∧ net.mail 10 1 = [] ∧ net.mail 11 1 = [] ∧
      net.handles 11 ≠ [] ∧ net.mail 11 4 ≠ [] ∧ twoActors.Proper net (.deliver 11 4) := by
  have hends : (Act.trace (step ArchiveFormat.sampleFormat.codec) sharedMoves
      twoActors.start).2.toOption.any (fun net => net.mail 10 1 = [] ∧ net.mail 11 1 = [] ∧
        net.handles 11 ≠ [] ∧ net.mail 11 4 ≠ [] ∧ twoActors.Proper net (.deliver 11 4)) = true := by decide +kernel
  have houts : (Act.trace (step ArchiveFormat.sampleFormat.codec) sharedMoves
      twoActors.start).1.flatten.length = 1 := by decide +kernel
  rcases hrun : Act.trace (step ArchiveFormat.sampleFormat.codec) sharedMoves
    twoActors.start with ⟨outs, e | net⟩
  · rw [hrun] at hends
    cases hends
  · rw [hrun] at hends houts
    exact ⟨outs, net, rfl, houts, of_decide_eq_true hends⟩

theorem reads_bring_content_shared : ∃ outs net,
    Act.trace (step ArchiveFormat.sampleFormat.codec) sharedMoves twoActors.start =
      (outs, .ok net) ∧ outs.flatten.length = 1 ∧
      ∀ read ∈ outs.flatten, Given sharedMoves read.client read.handle.content ∧
        read.bytes = slice read.handle.content read.offset read.size := by
  obtain ⟨outs, net, hrun, hone, -⟩ := sharedMoves_run
  exact ⟨outs, net, hrun, hone, reads_bring_content twoActors sharedMoves_proper hrun⟩

theorem vault_of_settled {st : Cluster} (h : Balanced st net b) {q : Int}
    (hquiet : ∀ c, net.mail c q = []) (c key : Int) (data : Bytes) :
    b.vault c q key = some data ↔ Keeps (net.handles c) q key data := by
  have hlags := h.lags c q
  rw [hquiet c] at hlags
  rw [hlags.settled.1]
  exact h.kept c q key data

/-- A process that has handled its messages keeps what it kept before any client came, and of every
vector that its client has not given back the parts that are there. -/
theorem stored_iff_in_use (st : Cluster)
    (hp : Act.Along (step codec) st.Proper moves st.start) {outs : List (List VectorRead)}
    (htrace : Act.trace (step codec) moves st.start = (outs, .ok net)) {q : Int}
    (hquiet : ∀ c, net.mail c q = []) :
    ∃ t, (net.servers q).dataStore.Represents t ∧ ∀ key part, t key = some part ↔
      st.tables q key = some part ∨
        ∃ c data, Keeps (net.handles c) q key data ∧ part = .ofMessage data := by
  obtain ⟨b, h⟩ := balanced_of_trace hp htrace
  refine ⟨_, (h.servers q).parts, fun key part => ?_⟩
  have hvault := fun c => vault_of_settled h hquiet c key
  cases howner : b.owner q key with
  | none =>
    rw [holding, howner]
    constructor
    · exact .inl
    · rintro (htable | ⟨c, data, hkeeps, -⟩)
      · exact htable
      · have hc := h.vault_owned c q key data ((hvault c data).mpr hkeeps)
        rw [howner] at hc
        cases hc
  | some c =>
    rw [Serves.holding_owned howner, Vault.table, Option.map_eq_some_iff]
    constructor
    · rintro ⟨data, hdata, rfl⟩
      exact .inr ⟨c, data, (hvault c data).mp hdata, rfl⟩
    · rintro (htable | ⟨c', data, hkeeps, rfl⟩)
      · rw [h.unheld q key c howner] at htable
        cases htable
      · have hdata := (hvault c' data).mpr hkeeps
        have hc := h.vault_owned c' q key data hdata
        rw [howner] at hc
        cases hc
        exact ⟨data, hdata, rfl⟩

def Move.client : Move → Int
  | .distribute c .. | .store c | .read c .. | .receive c | .release c .. | .deliver c _ => c

/-- A client that makes no moves sends no messages. -/
theorem mail_of_absent {st : Cluster} {outs : List (List VectorRead)}
    (htrace : Act.trace (step codec) moves st.start = (outs, .ok net)) {c : Int}
    (habsent : ∀ move ∈ moves, move.client ≠ c) (q : Int) : net.mail c q = [] := by
  have hstep : ∀ (_ : List Move) (_ : List VectorRead) net move out net',
      net.mail c q = [] → move.client ≠ c →
      step codec move net = (out, .ok ((), net')) → net'.mail c q = [] := by
    intro _ _ net move out net' hnone hc hstep
    refine Eq.trans ?_ hnone
    -- every move changes the mail of its own client only
    cases move <;> simp only [step] at hstep
    all_goals
      split at hstep <;> (try split at hstep) <;> cases hstep
      exact congrFun (Function.update_of_ne (Ne.symm hc) _ _) q
  have hothers : Act.Along (step codec) (fun _ move => move.client ≠ c) moves st.start :=
    ((Act.Along.of_forall (fun _ _ => trivial) moves st.start).and_mem habsent).mono fun _ _ h => h.2
  exact Act.trace_history hstep rfl hothers htrace

/-- Process 1 has handled its messages, though process 4 has not. -/
theorem stored_iff_in_use_shared : ∃ outs net,
    Act.trace (step ArchiveFormat.sampleFormat.codec) sharedMoves twoActors.start =
      (outs, .ok net) ∧ net.handles 11 ≠ [] ∧ net.mail 11 4 ≠ [] ∧
      ∃ t, (net.servers 1).dataStore.Represents t ∧ ∀ key part, t key = some part ↔
        twoActors.tables 1 key = some part ∨
          ∃ c data, Keeps (net.handles c) 1 key data ∧ part = .ofMessage data := by
  obtain ⟨outs, net, hrun, -, hten, heleven, hin, hunder, -⟩ := sharedMoves_run
  refine ⟨outs, net, hrun, hin, hunder, stored_iff_in_use twoActors sharedMoves_proper hrun ?_⟩
  intro c
  by_cases hc : c = 10 ∨ c = 11
  · rcases hc with rfl | rfl
    · exact hten
    · exact heleven
  · apply mail_of_absent hrun
    intro move hmove hclient
    have hclients : ∀ move ∈ sharedMoves, move.client = 10 ∨ move.client = 11 := by decide
    exact hc (hclient ▸ hclients move hmove)

end ActiveBsp.VectorSessions
