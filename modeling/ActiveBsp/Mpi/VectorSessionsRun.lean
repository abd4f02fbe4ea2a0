import ActiveBsp.Mpi.Reads
import ActiveBsp.Mpi.VectorSessions

/-!
# Runs of clients

Every move keeps the books. So a read brings the bytes of the vector, however
far the processes lag behind, and what is given back is not kept anywhere.
-/
namespace ActiveBsp.VectorSessions

open Library Library.Buffer Library.Tiling ActorServer MPIActorCommunicator

set_option autoImplicit false

theorem messagesTo_map {α : Type} (pid : Int) (g : α → Int) (f : α → ActorMessage) (l : List α) :
    messagesTo pid (l.map fun x => (g x, f x)) = (l.filter fun x => g x = pid).map f := by
  induction l with
  | nil => rfl
  | cons x l ih =>
    rw [messagesTo] at ih
    by_cases hx : g x = pid
    · simp only [messagesTo, List.map_cons, List.filterMap_cons, hx, if_true, ih, decide_true,
        List.filter_cons]
    · simp only [messagesTo, List.map_cons, List.filterMap_cons, hx, if_false, ih, decide_false,
        List.filter_cons, Bool.false_eq_true]

theorem messagesTo_storeMessages (pid : Int) (v : Bytes) (dv : VectorDistribution) :
    messagesTo pid (storeMessages v dv) = (dv.parts.filter fun part => part.pid = pid).map fun part =>
      .storeResult ⟨part.resid, slice v part.offset part.size⟩ :=
  messagesTo_map pid VectorDistributionPart.pid _ _

theorem messagesTo_dvRelease (pid : Int) (dv : VectorDistribution) :
    messagesTo pid (dvRelease dv) = (dv.parts.filter fun part => part.pid = pid).map fun part =>
      .releaseResult part.resid :=
  messagesTo_map pid VectorDistributionPart.pid _ _

theorem messagesTo_requestMessages (pid self : Int) (reqs : PartRequests) :
    messagesTo pid (requestMessages self reqs) = (reqs.reqs.filter fun e => e.1 = pid).map fun e =>
      .getResultParts ⟨self, e.2⟩ :=
  messagesTo_map pid Prod.fst _ _

theorem messagesTo_distribute (pid head : Int) (msg : DistributeVectorMessage) :
    messagesTo pid [(head, .distributeVector msg)] =
      if head = pid then [.distributeVector msg] else [] := by
  unfold messagesTo
  by_cases h : head = pid <;> simp [h]

/-- A data store with the parts of the vault and no others. -/
def Vault.store (vault : Vault) : DataStore where
  resultVectorStore := .empty
  resultMsgStore key := (vault key).map fun data => ⟨key, data⟩
  dvParts key := (vault key).map fun data => ⟨key, data.length, .messageStore, 0⟩

theorem Vault.store_represents (vault : Vault) : vault.store.Represents vault.table := by
  constructor
  · intro key
    show Option.map _ (vault key) = Option.map _ (Option.map _ (vault key))
    cases vault key <;> rfl
  · intro key
    show none = Option.bind (Option.map _ (vault key)) _
    cases vault key <;> rfl
  · intro key
    show Option.map _ (vault key) = Option.bind (Option.map _ (vault key)) _
    cases vault key <;> rfl

/-- Processes that keep what the vaults say. -/
def promptServers (prompt : Int → Vault) (q : Int) : ActorServer :=
  { pid := q, dataStore := (prompt q).store }

section Reads

variable {c : Int} {handle : Handle} {prompt : Int → Vault} {offset size : Nat} {buf : Bytes}

theorem readable_prompt (husable : Usable c handle)
    (hkept : ∀ part ∈ handle.dv.parts, prompt part.pid part.resid =
      some (slice handle.content part.offset part.size)) :
    Readable handle.content handle.dv (promptServers prompt) where
  small := husable.small
  tiles := husable.tiles
  free _ _ := rfl
  stored part _ _ := by
    refine ⟨_, (prompt part.pid).store_represents, fun part' hp' hpid _ => ?_⟩
    apply Vault.available_of_table rfl
    rw [← hpid]
    exact hkept part' hp'

theorem localReads_eq_nil (husable : Usable c handle) :
    (partRequests c handle.dv offset size).localReads = [] := by
  rw [List.eq_nil_iff_forall_not_mem]
  intro r hr
  obtain ⟨part, hp, -, hpid, -⟩ := mem_localReads.mp hr
  exact husable.apart part hp hpid

/-- Every request can be answered. -/
theorem read_some (husable : Usable c handle)
    (hkept : ∀ part ∈ handle.dv.parts, prompt part.pid part.resid =
      some (slice handle.content part.offset part.size))
    (hin : offset + size ≤ handle.content.length) {e : Int × List ResultReqPart}
    (he : e ∈ (partRequests c handle.dv offset size).reqs) :
    ∃ replies, e.2.mapM (prompt e.1).read = some replies := by
  have hreadable := readable_prompt husable hkept
  have hend : MachineInt.add64 offset size = offset + size :=
    MachineInt.add64_of_lt (hin.trans_lt (husable.small.trans (by norm_num)))
  have hread : ∀ r ∈ e.2, ∃ reply, (prompt e.1).read r = some reply := by
    intro r hr
    obtain ⟨part, hp, hreq, -, hpid, rfl⟩ := mem_reqs.mp ⟨e, he, rfl, hr⟩
    rw [hend] at hreq ⊢
    have hplaced := hreadable.placed hin hp hreq
    have hlen : (slice handle.content part.offset part.size).length = part.size :=
      length_slice_of_le (hreadable.part_le hp)
    refine ⟨slice (slice handle.content part.offset part.size)
      (reqPart part offset (offset + size)).offset (reqPart part offset (offset + size)).size, ?_⟩
    unfold Vault.read
    rw [hplaced.resid, ← hpid, hkept part hp, Option.bind_some, if_pos]
    rw [hlen]
    exact ⟨hplaced.inside, hplaced.small⟩
  choose! reply hreply using hread
  exact ⟨e.2.map reply, Lists.mapM_of_some hreply⟩

/-- What is put into the buffer when every process has answered. -/
theorem received_eq (husable : Usable c handle)
    (hkept : ∀ part ∈ handle.dv.parts, prompt part.pid part.resid =
      some (slice handle.content part.offset part.size))
    (hin : offset + size ≤ handle.content.length) (hbuf : buf.length = size) :
    (partRequests c handle.dv offset size).reqs.foldl (fun buf e =>
      receiveParts buf e.2 ((e.2.mapM (prompt e.1).read).getD [])) buf =
        slice handle.content offset size := by
  have hall : dvGetPart c (promptServers prompt) handle.dv offset size buf = _ :=
    dvGetPart_of_readable (readable_prompt husable hkept) hin hbuf
  have hremote : ∀ e ∈ (partRequests c handle.dv offset size).reqs, ∀ buf : Bytes,
      readRemote c (promptServers prompt) buf e =
        .ok (receiveParts buf e.2 ((e.2.mapM (prompt e.1).read).getD [])) := by
    intro e he buf
    obtain ⟨replies, hreplies⟩ := read_some husable hkept hin he
    have hav : ∀ key data, prompt e.1 key = some data →
        (prompt e.1).table.available key = some data :=
      fun key data hdata => Vault.available_of_table rfl hdata
    obtain ⟨hrange, hanswer, -⟩ := answers c c hav hreplies .empty
    have hsent : handleGetResultPartsMessage c ⟨c, e.2⟩ (promptServers prompt e.1) = _ :=
      handleGetResultPartsMessage_eq rfl (prompt e.1).store_represents hrange
    have hback : repliesTo c (replies.map (Output.resultPart c)) = replies := by
      rw [repliesTo, List.filterMap_map]
      simp [Function.comp_def, replyTo]
    unfold readRemote
    rw [hsent, hanswer]
    simp only [hback, Lists.length_of_mapM hreplies, Nat.lt_irrefl, if_false, hreplies,
      Option.getD_some]
  have hfold : ∀ (reqs : List (Int × List ResultReqPart)) (buf : Bytes),
      (∀ e ∈ reqs, e ∈ (partRequests c handle.dv offset size).reqs) →
        reqs.foldlM (readRemote c (promptServers prompt)) buf = .ok (reqs.foldl (fun buf e =>
          receiveParts buf e.2 ((e.2.mapM (prompt e.1).read).getD [])) buf) := by
    intro reqs
    induction reqs with
    | nil => exact fun _ _ => rfl
    | cons e reqs ih =>
      intro buf hmem
      rw [List.foldlM_cons, hremote e (hmem e List.mem_cons_self)]
      exact ih _ fun e' he' => hmem e' (List.mem_cons_of_mem _ he')
  unfold dvGetPart at hall
  simp only [localReads_eq_nil husable, List.foldlM_nil] at hall
  have hreqs := hfold _ buf fun e he => he
  exact Except.ok.inj (hreqs.symm.trans hall)

end Reads

/-- The move has nothing to do with the client. -/
structure SameFor (net net' : VectorSessions) (c : Int) : Prop where
  mail : ∀ q, net'.mail c q = net.mail c q
  vectors : ∀ q, net'.vectors q c = net.vectors q c
  parts : ∀ q, net'.parts q c = net.parts q c
  phase : net'.phase c = net.phase c
  handles : net'.handles c = net.handles c

/-- What a session is about is as before. -/
structure SameSession (net net' : VectorSessions) (c : Int) : Prop where
  asked : ∀ q, distributions (net'.mail c q) = distributions (net.mail c q)
  vectors : ∀ q, net'.vectors q c = net.vectors q c
  handles : net'.handles c = net.handles c

theorem SameFor.session {net net' : VectorSessions} {c : Int} (h : SameFor net net' c) :
    SameSession net net' c where
  asked q := congrArg distributions (h.mail q)
  vectors := h.vectors
  handles := h.handles

/-- The same of the books. More keys may have owners. -/
structure SameBooks (b b' : Books) (c : Int) : Prop where
  owner : ∀ q key c', b.owner q key = some c' → b'.owner q key = some c'
  prompt : ∀ q, b'.prompt c q = b.prompt c q
  expected : ∀ q, b'.expected q c = b.expected q c

variable {codec : Codec} {st : Cluster} {net net' : VectorSessions} {b b' : Books} {c : Int}

theorem NoVector.congr {q : Int} (h : NoVector net c q) (hnet : SameSession net net' c) :
    NoVector net' c q := by
  unfold NoVector
  rw [hnet.asked, hnet.vectors]
  exact h

theorem New.congr {v : Bytes} {dv : VectorDistribution} (h : New b c v dv)
    (hb : SameBooks b b' c) : New b' c v dv where
  usable := h.usable
  names := h.names
  owned part hp := hb.owner _ _ _ (h.owned part hp)
  unused part hp := by
    rw [hb.prompt]
    exact h.unused part hp

theorem Session.congr {phase : ClientPhase} (h : Session st net b c phase)
    (hnet : SameSession net net' c) (hb : SameBooks b b' c) : Session st net' b' c phase := by
  have hno : ∀ q, NoVector net c q → NoVector net' c q := fun q hq => hq.congr hnet
  cases phase with
  | idle =>
    refine ⟨fun q => hno q (h.1 q), fun q => ?_⟩
    rw [hb.expected, h.2 q]
  | distributing head v msg =>
    obtain ⟨hproper, hawaits, hothers, hexpected⟩ := h
    refine ⟨hproper, ?_, fun q hq => hno q (hothers q hq), fun q => ?_⟩
    · unfold Awaits
      rw [hnet.asked, hnet.vectors]
      rcases hawaits with hasked | ⟨hnone, dv, hdv, hnew⟩
      · exact .inl hasked
      · exact .inr ⟨hnone, dv, hdv, hnew.congr hb⟩
    · rw [hb.expected, hexpected q]
  | reading handle offset size buf =>
    obtain ⟨hproper, hnone, hreads⟩ := h
    refine ⟨?_, fun q => hno q (hnone q), fun q => ?_⟩
    · rw [hnet.handles]
      exact hproper
    · rw [hb.prompt, hb.expected]
      exact hreads q

/-- The books after a move of client `c`. -/
def Books.turn (b : Books) (c : Int) (prompt : Int → Vault) (expected : Int → List Bytes) : Books :=
  { b with
    prompt := Function.update b.prompt c prompt
    expected := fun q client => if client = c then expected q else b.expected q client }

@[simp] theorem Books.turn_owner (prompt : Int → Vault) (expected : Int → List Bytes) :
    (b.turn c prompt expected).owner = b.owner := rfl

@[simp] theorem Books.turn_vault (prompt : Int → Vault) (expected : Int → List Bytes) :
    (b.turn c prompt expected).vault = b.vault := rfl

@[simp] theorem Books.turn_prompt_self (prompt : Int → Vault) (expected : Int → List Bytes) :
    (b.turn c prompt expected).prompt c = prompt := Function.update_self _ _ _

@[simp] theorem Books.turn_expected_self (prompt : Int → Vault) (expected : Int → List Bytes)
    (q : Int) : (b.turn c prompt expected).expected q c = expected q := if_pos rfl

theorem Books.sameBooks_turn {c' : Int} (hc : c' ≠ c) (prompt : Int → Vault)
    (expected : Int → List Bytes) : SameBooks b (b.turn c prompt expected) c' where
  owner _ _ _ h := h
  prompt := congrFun (Function.update_of_ne hc _ _)
  expected _ := if_neg hc

/-- What has to be shown of a move of client `c`. -/
theorem balanced_turn (h : Balanced st net b) {prompt : Int → Vault} {expected : Int → List Bytes}
    (hservers : net'.servers = net.servers) (hothers : ∀ c' ≠ c, SameFor net net' c')
    (hlags : ∀ q, Lags (serve c) (b.vault c q) (net'.mail c q) (net'.parts q c) (prompt q)
      (expected q))
    (howned : ∀ q msg, .storeResult msg ∈ net'.mail c q → b.owner q msg.resId = some c)
    (hprompt : ∀ q key data, prompt q key = some data → b.owner q key = some c)
    (hkept : ∀ q key data, prompt q key = some data ↔ Keeps (net'.handles c) q key data)
    (hnames : (names (net'.handles c)).Nodup) (husable : ∀ handle ∈ net'.handles c, Usable c handle)
    (hsession : Session st net' (b.turn c prompt expected) c (net'.phase c)) :
    Balanced st net' (b.turn c prompt expected) where
  servers q := by
    rw [hservers]
    exact h.servers q
  lags c' q := by
    by_cases hc : c' = c
    · subst hc
      rw [Books.turn_prompt_self, Books.turn_expected_self]
      exact hlags q
    · have hsame := Books.sameBooks_turn hc prompt expected (b := b)
      rw [(hothers c' hc).mail, (hothers c' hc).parts, hsame.prompt, hsame.expected]
      exact h.lags c' q
  vault_owned := h.vault_owned
  prompt_owned c' q key data := by
    by_cases hc : c' = c
    · subst hc
      rw [Books.turn_prompt_self]
      exact hprompt q key data
    · rw [(Books.sameBooks_turn hc prompt expected).prompt]
      exact h.prompt_owned c' q key data
  mail_owned c' q msg := by
    by_cases hc : c' = c
    · subst hc
      exact howned q msg
    · rw [(hothers c' hc).mail]
      exact h.mail_owned c' q msg
  unheld := h.unheld
  owner_new head hhead q hq key c' ho := by
    rw [hservers]
    exact h.owner_new head hhead q hq key c' ho
  next_le head hhead := by
    rw [hservers]
    exact h.next_le head hhead
  kept c' q key data := by
    by_cases hc : c' = c
    · subst hc
      rw [Books.turn_prompt_self]
      exact hkept q key data
    · rw [(Books.sameBooks_turn hc prompt expected).prompt, (hothers c' hc).handles]
      exact h.kept c' q key data
  names c' := by
    by_cases hc : c' = c
    · subst hc
      exact hnames
    · rw [(hothers c' hc).handles]
      exact h.names c'
  usable c' := by
    by_cases hc : c' = c
    · subst hc
      exact husable
    · rw [(hothers c' hc).handles]
      exact h.usable c'
  session c' := by
    by_cases hc : c' = c
    · subst hc
      exact hsession
    · rw [(hothers c' hc).phase]
      exact (h.session c').congr (hothers c' hc).session (Books.sameBooks_turn hc prompt expected)

theorem sameFor_post (net : VectorSessions) {c' : Int} (hc : c' ≠ c)
    (msgs : List (Int × ActorMessage)) (phase : ClientPhase) (handles : List Handle) : SameFor net (net.post c msgs phase handles) c' where
  mail q := congrFun (Function.update_of_ne hc _ _) q
  vectors _ := rfl
  parts _ := rfl
  phase := Function.update_of_ne hc _ _
  handles := Function.update_of_ne hc _ _

theorem mail_post_self (msgs : List (Int × ActorMessage)) (phase : ClientPhase)
    (handles : List Handle) (q : Int) :
    (net.post c msgs phase handles).mail c q = net.mail c q ++ messagesTo q msgs :=
  congrFun (Function.update_self c _ net.mail) q

theorem distributions_append (msgs msgs' : List ActorMessage) :
    distributions (msgs ++ msgs') = distributions msgs ++ distributions msgs' :=
  List.filterMap_append

@[simp] theorem handles_post_self (msgs : List (Int × ActorMessage)) (phase : ClientPhase)
    (handles : List Handle) : (net.post c msgs phase handles).handles c = handles :=
  Function.update_self _ _ _

@[simp] theorem phase_post_self (msgs : List (Int × ActorMessage)) (phase : ClientPhase)
    (handles : List Handle) : (net.post c msgs phase handles).phase c = phase :=
  Function.update_self _ _ _

theorem names_append (handles handles' : List Handle) :
    names (handles ++ handles') = names handles ++ names handles' := List.flatMap_append

theorem mem_names {handles : List Handle} {q key : Int} :
    (q, key) ∈ names handles ↔ ∃ data, Keeps handles q key data := by
  constructor
  · intro hmem
    obtain ⟨handle, hh, hmem⟩ := List.mem_flatMap.mp hmem
    obtain ⟨part, hp, he⟩ := List.mem_map.mp hmem
    obtain ⟨hq, hk⟩ := Prod.mk.inj he
    exact ⟨_, handle, hh, part, hp, hq, hk, rfl⟩
  · rintro ⟨data, handle, hh, part, hp, rfl, rfl, -⟩
    exact List.mem_flatMap.mpr ⟨handle, hh, List.mem_map.mpr ⟨part, hp, rfl⟩⟩

/-- The parts of a vector at one process have different keys. -/
theorem resids_nodup {handle : Handle} (h : (names [handle]).Nodup) (q : Int) :
    ((handle.dv.parts.filter fun part => part.pid = q).map VectorDistributionPart.resid).Nodup := by
  unfold names at h
  rw [List.flatMap_singleton] at h
  apply List.Nodup.map_on
  · intro part hp part' hp' he
    obtain ⟨hmem, hpid⟩ := List.mem_filter.mp hp
    obtain ⟨hmem', hpid'⟩ := List.mem_filter.mp hp'
    apply List.inj_on_of_nodup_map h hmem hmem'
    rw [of_decide_eq_true hpid, of_decide_eq_true hpid', he]
  · exact (List.Nodup.of_map _ h).filter _

/-- The move succeeds, and the books are kept. -/
def Keeping (codec : Codec) (st : Cluster) (net : VectorSessions) (move : Move) : Prop :=
  ∃ out net' b', step codec move net = (out, .ok ((), net')) ∧ Balanced st net' b' ∧
    ∀ read ∈ out, read.bytes = slice read.handle.content read.offset read.size

section Moves

variable (h : Balanced st net b)

include h

theorem distribute_keeps {head : Int} {v : Bytes} {msg : DistributeVectorMessage}
    (hp : st.Proper net (.distribute c head v msg)) (hphase : net.phase c = .idle) :
    Keeping codec st net (.distribute c head v msg) := by
  have hsession := h.session c
  rw [hphase] at hsession
  obtain ⟨hnone, hexpected⟩ := hsession
  obtain ⟨houtside, hhead, hwhole, hsize⟩ := hp
  have hsmall : v.length < 2 ^ 31 := by omega
  have hstep : step codec (.distribute c head v msg) net = ([], .ok ((),
      net.post c [(head, .distributeVector msg)] (.distributing head v msg) (net.handles c))) := by
    simp only [step, hphase]
  refine ⟨_, _, b.turn c (b.prompt c) (fun q => b.expected q c), hstep, ?_, List.forall_mem_nil _⟩
  have hto : ∀ q, messagesTo q [(head, .distributeVector msg)] =
      if head = q then [.distributeVector msg] else [] := fun q => messagesTo_distribute q head msg
  apply balanced_turn h
  · rfl
  · exact fun c' hc => sameFor_post net hc _ _ _
  · intro q
    rw [mail_post_self, hto]
    by_cases hq : head = q
    · rw [if_pos hq]
      have hserve : serveAll (serve c) [.distributeVector msg] (b.prompt c q) =
          some (b.prompt c q, []) := serveAll_singleton rfl
      have hlags := (h.lags c q).post hserve
      rwa [List.append_nil] at hlags
    · rw [if_neg hq, List.append_nil]
      exact h.lags c q
  · intro q m hm
    rw [mail_post_self, hto] at hm
    rcases List.mem_append.mp hm with hm | hm
    · exact h.mail_owned c q m hm
    · split_ifs at hm
      · cases List.mem_singleton.mp hm
      · cases hm
  · exact h.prompt_owned c
  · intro q key data
    rw [h.kept c]
    simp [post]
  · simpa [post] using h.names c
  · simpa [post] using h.usable c
  · rw [show (net.post c [(head, .distributeVector msg)] (.distributing head v msg)
      (net.handles c)).phase c = .distributing head v msg from Function.update_self _ _ _]
    refine ⟨⟨houtside, hhead, hwhole, hsmall⟩, ?_, ?_, ?_⟩
    · left
      rw [mail_post_self, hto, if_pos rfl, distributions_append, (hnone head).1]
      exact ⟨rfl, (hnone head).2⟩
    · intro q hq
      unfold NoVector
      rw [mail_post_self, hto, if_neg (Ne.symm hq), List.append_nil]
      exact hnone q
    · intro q
      rw [Books.turn_expected_self, hexpected q]

theorem store_keeps {head : Int} {v : Bytes} {msg : DistributeVectorMessage}
    {dv : VectorDistribution} {rest : List VectorDistribution}
    (hphase : net.phase c = .distributing head v msg) (hvectors : net.vectors head c = dv :: rest) :
    Keeping codec st net (.store c) := by
  have hsession := h.session c
  rw [hphase] at hsession
  obtain ⟨-, hawaits, hothers, hexpected⟩ := hsession
  obtain ⟨hnone, dv', hdv, hnew⟩ : distributions (net.mail c head) = [] ∧
      ∃ dv', net.vectors head c = [dv'] ∧ New b c v dv' := by
    rcases hawaits with ⟨-, hempty⟩ | hanswered
    · rw [hvectors] at hempty
      cases hempty
    · exact hanswered
  rw [hvectors] at hdv
  obtain ⟨rfl, rfl⟩ := List.cons.inj hdv
  have hstep : step codec (.store c) net = ([], .ok ((),
      { net.post c (storeMessages v dv) .idle (net.handles c ++ [⟨dv, v⟩]) with
        vectors := Function.update net.vectors head (Function.update (net.vectors head) c []) })) := by
    simp only [step, hphase, hvectors]
  have hserve : ∀ q, ∃ prompt', serveAll (serve c) (messagesTo q (storeMessages v dv))
      (b.prompt c q) = some (prompt', []) ∧ ∀ key data, prompt' key = some data ↔
        b.prompt c q key = some data ∨ ∃ part ∈ dv.parts.filter (fun part => part.pid = q),
          part.resid = key ∧ data = slice v part.offset part.size := by
    intro q
    rw [messagesTo_storeMessages]
    apply serveAll_stores v (resids_nodup hnew.names q)
    intro part hp
    obtain ⟨hmem, hpid⟩ := List.mem_filter.mp hp
    rw [← of_decide_eq_true hpid]
    exact hnew.unused part hmem
  choose prompt hall hkeeps using hserve
  refine ⟨_, _, b.turn c prompt (fun q => b.expected q c), hstep, ?_, List.forall_mem_nil _⟩
  have hmail : ∀ q, (net.post c (storeMessages v dv) .idle (net.handles c ++ [⟨dv, v⟩])).mail c q =
      net.mail c q ++ messagesTo q (storeMessages v dv) := mail_post_self _ _ _
  have hkept : ∀ q key data, prompt q key = some data ↔
      Keeps (net.handles c ++ [⟨dv, v⟩]) q key data := by
    intro q key data
    rw [hkeeps, h.kept c]
    unfold Keeps
    simp only [List.mem_append, List.mem_singleton, List.mem_filter, decide_eq_true_eq]
    constructor
    · rintro (⟨handle, hh, hpart⟩ | ⟨part, ⟨hp, hpid⟩, hk, hd⟩)
      · exact ⟨handle, .inl hh, hpart⟩
      · exact ⟨_, .inr rfl, part, hp, hpid, hk, hd⟩
    · rintro ⟨handle, hh | rfl, hpart⟩
      · exact .inl ⟨handle, hh, hpart⟩
      · obtain ⟨part, hp, hpid, hk, hd⟩ := hpart
        exact .inr ⟨part, ⟨hp, hpid⟩, hk, hd⟩
  apply balanced_turn h
  · rfl
  · intro c' hc
    have hsame := sameFor_post net hc (storeMessages v dv) .idle
      (net.handles c ++ [⟨dv, v⟩])
    refine ⟨hsame.mail, fun q => ?_, hsame.parts, hsame.phase, hsame.handles⟩
    by_cases hq : q = head
    · subst hq
      show Function.update net.vectors q (Function.update (net.vectors q) c []) q c' = _
      rw [Function.update_self, Function.update_of_ne hc]
    · show Function.update net.vectors head _ q c' = _
      rw [Function.update_of_ne hq]
  · intro q
    have hlags := (h.lags c q).post (hall q)
    rw [List.append_nil] at hlags
    rw [show _ = _ from hmail q]
    exact hlags
  · intro q m hm
    rw [show _ = _ from hmail q, messagesTo_storeMessages] at hm
    rcases List.mem_append.mp hm with hm | hm
    · exact h.mail_owned c q m hm
    · obtain ⟨part, hp, he⟩ := List.mem_map.mp hm
      obtain ⟨hmem, hpid⟩ := List.mem_filter.mp hp
      cases he
      rw [← of_decide_eq_true hpid]
      exact hnew.owned part hmem
  · intro q key data hdata
    rcases (hkeeps q key data).mp hdata with hold | ⟨part, hp, rfl, -⟩
    · exact h.prompt_owned c q key data hold
    · obtain ⟨hmem, hpid⟩ := List.mem_filter.mp hp
      rw [← of_decide_eq_true hpid]
      exact hnew.owned part hmem
  · intro q key data
    rw [show _ = net.handles c ++ [⟨dv, v⟩] from handles_post_self _ _ _]
    exact hkept q key data
  · rw [show _ = net.handles c ++ [⟨dv, v⟩] from handles_post_self _ _ _, names_append]
    apply List.nodup_append'.mpr ⟨h.names c, hnew.names, ?_⟩
    rintro ⟨q, key⟩ hold hfresh
    obtain ⟨data, hdata⟩ := mem_names.mp hold
    obtain ⟨-, handle, hh, part, hp, rfl, rfl, -⟩ := mem_names.mp hfresh
    cases List.mem_singleton.mp hh
    have hsome := (h.kept c _ _ _).mpr hdata
    rw [hnew.unused part hp] at hsome
    cases hsome
  · rw [show _ = net.handles c ++ [⟨dv, v⟩] from handles_post_self _ _ _]
    intro handle hh
    rcases List.mem_append.mp hh with hh | hh
    · exact h.usable c handle hh
    · cases List.mem_singleton.mp hh
      exact hnew.usable
  · rw [show _ = ClientPhase.idle from phase_post_self _ _ _]
    refine ⟨fun q => ⟨?_, ?_⟩, fun q => ?_⟩
    · have hstores : distributions (messagesTo q (storeMessages v dv)) = [] := by
        rw [messagesTo_storeMessages]
        simp [distributions]
      have hold : distributions (net.mail c q) = [] := by
        by_cases hq : q = head
        · rw [hq, hnone]
        · exact (hothers q hq).1
      rw [show _ = _ from hmail q, distributions_append, hold, hstores]
      rfl
    · by_cases hq : q = head
      · subst hq
        show Function.update net.vectors q (Function.update (net.vectors q) c []) q c = _
        rw [Function.update_self, Function.update_self]
      · show Function.update net.vectors head _ q c = _
        rw [Function.update_of_ne hq]
        exact (hothers q hq).2
    · rw [Books.turn_expected_self, hexpected q]

/-- The parts of a vector that the client has, as the prompt processes keep them. -/
theorem kept_parts {handle : Handle} (hh : handle ∈ net.handles c) :
    ∀ part ∈ handle.dv.parts, b.prompt c part.pid part.resid =
      some (slice handle.content part.offset part.size) := by
  intro part hp
  exact (h.kept c _ _ _).mpr ⟨handle, hh, part, hp, rfl, rfl, rfl⟩

theorem read_keeps {handle : Handle} {offset size : Nat} {buf : Bytes}
    (hp : st.Proper net (.read c handle offset size buf)) (hphase : net.phase c = .idle) :
    Keeping codec st net (.read c handle offset size buf) := by
  have hsession := h.session c
  rw [hphase] at hsession
  obtain ⟨hnone, hexpected⟩ := hsession
  obtain ⟨hh, hin, hbuf⟩ := hp
  have husable := h.usable c handle hh
  have hstep : step codec (.read c handle offset size buf) net = ([], .ok ((),
      net.post c (requestMessages c (partRequests c handle.dv offset size))
        (.reading handle offset size buf) (net.handles c))) := by
    simp only [step, hphase, localReads_eq_nil husable, if_true]
  have hserve : ∀ q, ∃ replies, serveAll (serve c) (messagesTo q (requestMessages c
      (partRequests c handle.dv offset size))) (b.prompt c q) = some (b.prompt c q, replies) ∧
        (requestsTo q (partRequests c handle.dv offset size).reqs).mapM (b.prompt c q).read =
          some replies := by
    intro q
    rw [messagesTo_requestMessages]
    apply serveAll_requests
    intro e he
    obtain ⟨hmem, hpid⟩ := List.mem_filter.mp he
    rw [← of_decide_eq_true hpid]
    exact read_some husable (kept_parts h hh) hin hmem
  choose replies hall hreads using hserve
  refine ⟨_, _, b.turn c (b.prompt c) replies, hstep, ?_, List.forall_mem_nil _⟩
  apply balanced_turn h
  · rfl
  · exact fun c' hc => sameFor_post net hc _ _ _
  · intro q
    have hlags := (h.lags c q).post (hall q)
    rw [hexpected q, List.nil_append] at hlags
    rw [mail_post_self]
    exact hlags
  · intro q m hm
    rw [mail_post_self, messagesTo_requestMessages] at hm
    rcases List.mem_append.mp hm with hm | hm
    · exact h.mail_owned c q m hm
    · obtain ⟨e, -, he⟩ := List.mem_map.mp hm
      cases he
  · exact h.prompt_owned c
  · intro q key data
    rw [handles_post_self]
    exact h.kept c q key data
  · rw [handles_post_self]
    exact h.names c
  · rw [handles_post_self]
    exact h.usable c
  · rw [phase_post_self]
    refine ⟨⟨?_, hin, hbuf⟩, fun q => ⟨?_, (hnone q).2⟩, fun q => ?_⟩
    · rw [handles_post_self]
      exact hh
    · have hrequests : distributions (messagesTo q (requestMessages c
          (partRequests c handle.dv offset size))) = [] := by
        rw [messagesTo_requestMessages]
        simp [distributions]
      rw [mail_post_self, distributions_append, (hnone q).1, hrequests]
      rfl
    · rw [Books.turn_prompt_self, Books.turn_expected_self]
      exact hreads q

omit h in
theorem requestsTo_of_mem {self : Int} {dv : VectorDistribution} {offset size : Nat}
    {e : Int × List ResultReqPart} (he : e ∈ (partRequests self dv offset size).reqs) :
    requestsTo e.1 (partRequests self dv offset size).reqs = e.2 := by
  have hsorted := sorted_reqs self dv offset size
  have hnodup : ((partRequests self dv offset size).reqs.map Prod.fst).Nodup :=
    hsorted.imp fun hlt => ne_of_lt hlt
  have hfilter : ∀ reqs : List (Int × List ResultReqPart), (reqs.map Prod.fst).Nodup → e ∈ reqs →
      reqs.filter (fun e' => e'.1 = e.1) = [e] := by
    intro reqs
    induction reqs with
    | nil => exact fun _ hmem => nomatch hmem
    | cons e' reqs ih =>
      intro hn hmem
      obtain ⟨hfirst, hrest⟩ := List.nodup_cons.mp hn
      rcases List.mem_cons.mp hmem with rfl | hmem
      · have hnone : reqs.filter (fun e' => e'.1 = e.1) = [] := by
          rw [List.filter_eq_nil_iff]
          intro e' he' hk
          exact hfirst (of_decide_eq_true hk ▸ List.mem_map_of_mem he')
        rw [List.filter_cons, if_pos (decide_eq_true rfl), hnone]
      · have hne : e'.1 ≠ e.1 := fun hk => hfirst (hk ▸ List.mem_map_of_mem hmem)
        rw [List.filter_cons, if_neg (by simpa using hne), ih hrest hmem]
  rw [requestsTo, hfilter _ hnodup he, List.flatMap_singleton]

omit h in
theorem requestsTo_eq_nil {pid : Int} {reqs : List (Int × List ResultReqPart)}
    (hnone : ∀ e ∈ reqs, e.1 ≠ pid) : requestsTo pid reqs = [] := by
  rw [requestsTo, List.filter_eq_nil_iff.mpr fun e he hk => hnone e he (of_decide_eq_true hk)]
  rfl

theorem receive_keeps {handle : Handle} {offset size : Nat} {buf : Bytes}
    (hphase : net.phase c = .reading handle offset size buf)
    (hcome : ∀ e ∈ (partRequests c handle.dv offset size).reqs,
      e.2.length ≤ (net.parts e.1 c).length) : Keeping codec st net (.receive c) := by
  have hsession := h.session c
  rw [hphase] at hsession
  obtain ⟨⟨hh, hin, hbuf⟩, hnone, hreads⟩ := hsession
  have husable := h.usable c handle hh
  have hkept := kept_parts h hh
  have hstep : step codec (.receive c) net =
      ([⟨c, handle, offset, size, net.received c (partRequests c handle.dv offset size).reqs buf⟩],
        .ok ((), { net.post c [] .idle (net.handles c) with
          parts := fun pid client =>
            if client = c then (net.parts pid c).drop
              (requestsTo pid (partRequests c handle.dv offset size).reqs).length
            else net.parts pid client })) := by
    simp only [step, hphase, if_pos hcome]
  have hlength : ∀ q, (b.expected q c).length =
      (requestsTo q (partRequests c handle.dv offset size).reqs).length :=
    fun q => Lists.length_of_mapM (hreads q)
  have hall : ∀ q, (requestsTo q (partRequests c handle.dv offset size).reqs).length ≤
      (net.parts q c).length := by
    intro q
    by_cases hq : ∃ e ∈ (partRequests c handle.dv offset size).reqs, e.1 = q
    · obtain ⟨e, he, rfl⟩ := hq
      rw [requestsTo_of_mem he]
      exact hcome e he
    · rw [requestsTo_eq_nil fun e he hk => hq ⟨e, he, hk⟩]
      exact Nat.zero_le _
  refine ⟨_, _, b.turn c (b.prompt c) (fun _ => []), hstep, ?_, ?_⟩
  · have hmail : ∀ q, (net.post c [] .idle (net.handles c)).mail c q = net.mail c q := by
      intro q
      rw [mail_post_self]
      exact List.append_nil _
    apply balanced_turn h
    · rfl
    · intro c' hc
      have hsame := sameFor_post net hc [] .idle (net.handles c)
      exact ⟨hsame.mail, hsame.vectors, fun q => if_neg hc, hsame.phase, hsame.handles⟩
    · intro q
      have hlags := ((h.lags c q).receive (hall q)).2
      rw [List.drop_of_length_le (hlength q).le] at hlags
      rw [show _ = _ from hmail q]
      show Lags _ _ _ (if c = c then _ else _) _ _
      rw [if_pos rfl]
      exact hlags
    · intro q m hm
      rw [show _ = _ from hmail q] at hm
      exact h.mail_owned c q m hm
    · exact h.prompt_owned c
    · intro q key data
      rw [show _ = net.handles c from handles_post_self _ _ _]
      exact h.kept c q key data
    · rw [show _ = net.handles c from handles_post_self _ _ _]
      exact h.names c
    · rw [show _ = net.handles c from handles_post_self _ _ _]
      exact h.usable c
    · rw [show _ = ClientPhase.idle from phase_post_self _ _ _]
      refine ⟨fun q => ⟨?_, (hnone q).2⟩, fun q => ?_⟩
      · rw [show _ = _ from hmail q]
        exact (hnone q).1
      · rw [Books.turn_expected_self]
  · intro read hr
    obtain rfl := List.mem_singleton.mp hr
    show net.received c _ buf = slice handle.content offset size
    rw [← received_eq husable hkept hin hbuf]
    unfold received
    apply List.foldl_ext
    intro buf' e he
    have htake := ((h.lags c e.1).receive (hall e.1)).1
    have hread := hreads e.1
    rw [requestsTo_of_mem he] at htake hread
    have hlen := Lists.length_of_mapM hread
    rw [List.take_of_length_le hlen.le] at htake
    rw [htake, hread, Option.getD_some]

theorem release_keeps {handle : Handle} {read : List (Int × ActorMessage)}
    (hproper : st.Proper net (.release c handle read)) (hphase : net.phase c = .idle) :
    Keeping codec st net (.release c handle read) := by
  have hsession := h.session c
  rw [hphase] at hsession
  obtain ⟨hnone, hexpected⟩ := hsession
  obtain ⟨hh, rfl⟩ := hproper
  have hperm := List.perm_cons_erase hh
  have hnames : (names (handle :: (net.handles c).erase handle)).Nodup :=
    (hperm.flatMap_right _).nodup_iff.mp (h.names c)
  have hsplit : names (handle :: (net.handles c).erase handle) =
      names [handle] ++ names ((net.handles c).erase handle) := names_append [handle] _
  rw [hsplit] at hnames
  obtain ⟨hown, hrest, hapart⟩ := List.nodup_append'.mp hnames
  have hstep : step codec (.release c handle (dvRelease handle.dv)) net = ([], .ok ((),
      net.post c (dvRelease handle.dv) .idle ((net.handles c).erase handle))) := by
    simp only [step, hphase]
  have hserve : ∀ q, ∃ prompt', serveAll (serve c) (messagesTo q (dvRelease handle.dv))
      (b.prompt c q) = some (prompt', []) ∧ ∀ key data, prompt' key = some data ↔
        b.prompt c q key = some data ∧ ∀ part ∈ handle.dv.parts.filter (fun part => part.pid = q),
          part.resid ≠ key := by
    intro q
    rw [messagesTo_dvRelease]
    apply serveAll_releases (resids_nodup hown q)
    intro part hp
    obtain ⟨hmem, hpid⟩ := List.mem_filter.mp hp
    rw [← of_decide_eq_true hpid, kept_parts h hh part hmem]
    exact Option.some_ne_none _
  choose prompt hall hkeeps using hserve
  refine ⟨_, _, b.turn c prompt (fun q => b.expected q c), hstep, ?_, List.forall_mem_nil _⟩
  apply balanced_turn h
  · rfl
  · exact fun c' hc => sameFor_post net hc _ _ _
  · intro q
    have hlags := (h.lags c q).post (hall q)
    rw [List.append_nil] at hlags
    rw [mail_post_self]
    exact hlags
  · intro q m hm
    rw [mail_post_self, messagesTo_dvRelease] at hm
    rcases List.mem_append.mp hm with hm | hm
    · exact h.mail_owned c q m hm
    · obtain ⟨part, -, he⟩ := List.mem_map.mp hm
      cases he
  · intro q key data hdata
    exact h.prompt_owned c q key data ((hkeeps q key data).mp hdata).1
  · intro q key data
    rw [handles_post_self, hkeeps, h.kept c]
    constructor
    · rintro ⟨⟨handle', hh', part, hp, hpid, hk, hd⟩, hother⟩
      rcases List.mem_cons.mp (hperm.mem_iff.mp hh') with rfl | hmem
      · exact absurd hk (hother part (List.mem_filter.mpr ⟨hp, decide_eq_true hpid⟩))
      · exact ⟨handle', hmem, part, hp, hpid, hk, hd⟩
    · rintro ⟨handle', hh', part, hp, hpid, hk, hd⟩
      refine ⟨⟨handle', List.mem_of_mem_erase hh', part, hp, hpid, hk, hd⟩, ?_⟩
      intro part' hp' hk'
      obtain ⟨hmem, hpid'⟩ := List.mem_filter.mp hp'
      apply hapart (mem_names.mpr ⟨_, handle, List.mem_singleton_self _, part', hmem,
        of_decide_eq_true hpid', hk', rfl⟩)
      exact mem_names.mpr ⟨_, handle', hh', part, hp, hpid, hk, rfl⟩
  · rw [handles_post_self]
    exact hrest
  · rw [handles_post_self]
    exact fun handle' hh' => h.usable c handle' (List.mem_of_mem_erase hh')
  · rw [phase_post_self]
    refine ⟨fun q => ⟨?_, (hnone q).2⟩, fun q => ?_⟩
    · have hreleases : distributions (messagesTo q (dvRelease handle.dv)) = [] := by
        rw [messagesTo_dvRelease]
        simp [distributions]
      rw [mail_post_self, distributions_append, (hnone q).1, hreleases]
      rfl
    · rw [Books.turn_expected_self, hexpected q]

end Moves

end ActiveBsp.VectorSessions
