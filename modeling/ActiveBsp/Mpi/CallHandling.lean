import ActiveBsp.Mpi.CallMoves

/-!
# What the managers and the workers keep

A manager takes the next message of a client or of the worker beside it. What
was under way between a client and the process stays, or comes one stage
further: a call gets its key, a read gets its answer or waits for it.
-/
namespace ActiveBsp.CallSessions

open Library FutureReads
open ActorWorker (registrations accepted)

set_option autoImplicit false

variable {Obj : Type} {codec : Codec} {st : CallCluster Obj} {net net' : CallSessions Obj}
  {b : Int → HeadBooks} {bk : HeadBooks} {c pid key : Int} {msg : ActorMessage}
  {rest : List ActorMessage} {ms : List FutureMessage} {data : Bytes}

theorem waiting_get (c' k : Int) : waiting c' k (ms ++ [⟨c, key, .get⟩]) =
    waiting c' k ms + if FutureReads.registered key ms = none ∧ k = key ∧ c' = c then 1 else 0 := by
  have hreg : FutureReads.registered k (ms ++ [⟨c, key, .get⟩]) = FutureReads.registered k ms := by
    rw [registered_snoc]
    exact Option.or_none
  unfold waiting
  rw [hreg, readers_snoc]
  by_cases hnone : FutureReads.registered k ms = none
  · rw [if_pos hnone, if_pos hnone, List.count_append]
    congr 1
    by_cases hk : k = key
    · subst hk
      rw [if_pos ⟨rfl, rfl⟩]
      by_cases hc : c' = c
      · rw [if_pos ⟨hnone, rfl, hc⟩, hc]
        exact List.count_singleton_self
      · rw [if_neg fun hand => hc hand.2.2]
        exact List.count_eq_zero.mpr fun hmem => hc (List.mem_singleton.mp hmem)
    · rw [if_neg fun hget => hk hget.1.symm, if_neg fun hand => hk hand.2.1]
      rfl
  · rw [if_neg hnone, if_neg hnone, if_neg ?_]
    rintro ⟨hn, rfl, -⟩
    exact hnone hn

theorem waiting_release (c' k : Int) :
    waiting c' k (ms ++ [⟨c, key, .release⟩]) = waiting c' k ms := by
  have hreg : FutureReads.registered k (ms ++ [⟨c, key, .release⟩]) =
      FutureReads.registered k ms := by
    rw [registered_snoc]
    exact Option.or_none
  have hnot : ¬ FutureMessage.IsGet k ⟨c, key, .release⟩ := by
    rintro ⟨-, hop⟩
    cases hop
  have hread : readers k (ms ++ [⟨c, key, .release⟩]) = readers k ms := by
    rw [readers_snoc, if_neg hnot, List.append_nil]
  unfold waiting
  rw [hreg, hread]

theorem released_get (k : Int) : FutureReads.released k (ms ++ [⟨c, key, .get⟩]) =
    FutureReads.released k ms := by
  simp [released_snoc, FutureMessage.IsRelease]

theorem released_register (k : Int) : FutureReads.released k (ms ++ [⟨c, key, .register data⟩]) =
    FutureReads.released k ms := by
  simp [released_snoc, FutureMessage.IsRelease]

theorem waiting_register (hnone : FutureReads.registered key ms = none) (c' k : Int) :
    waiting c' k (ms ++ [⟨c, key, .register data⟩]) = if k = key then 0 else waiting c' k ms := by
  have hnot : ¬ FutureMessage.IsGet k ⟨c, key, .register data⟩ := by
    rintro ⟨-, hop⟩
    cases hop
  have hread : readers k (ms ++ [⟨c, key, .register data⟩]) = readers k ms := by
    rw [readers_snoc, if_neg hnot, List.append_nil]
  unfold waiting
  rw [hread, registered_snoc]
  by_cases hk : k = key
  · subst hk
    have hnow : FutureMessage.registers k ⟨c, k, .register data⟩ = some data := if_pos rfl
    rw [hnone, hnow, if_pos rfl]
    exact if_neg (Option.some_ne_none data)
  · have hnow : FutureMessage.registers k ⟨c, key, .register data⟩ = none := if_neg (Ne.symm hk)
    rw [hnow, Option.or_none, if_neg hk]

theorem dataTo_readers (c' : Int) (hnone : FutureReads.registered key ms = none) :
    ((readers key ms).map fun src => Output.futureData src data).filterMap (dataTo c') =
      List.replicate (waiting c' key ms) data := by
  unfold waiting
  rw [if_pos hnone]
  induction readers key ms with
  | nil => rfl
  | cons src srcs ih =>
    rw [List.map_cons, List.filterMap_cons]
    by_cases hsrc : src = c'
    · subst hsrc
      simp only [dataTo, if_true, List.count_cons_self, List.replicate_succ, ih]
    · simp only [dataTo, if_neg hsrc, List.count_cons_of_ne hsrc, ih]

/-- What a process may do with what is under way between it and a client. -/
inductive Answers (bk : HeadBooks) (c : Int) : Line → Line → Prop
  | same {line : Line} : Answers bk c line line
  | call {msg : CallActorMessage} (key : Int) (h : ⟨msg, c, key⟩ ∈ accepted bk.events) :
      Answers bk c { calls := [msg] } { codes := [key] }
  | park (key : Int) :
      Answers bk c { gets := [key] } { parked := Function.update (fun _ => 0) key 1 }
  | get {key : Int} (data : Bytes) (h : (key, data) ∈ registrations bk.events) :
      Answers bk c { gets := [key] } { data := [data] }
  | wake {key : Int} (data : Bytes) (h : (key, data) ∈ registrations bk.events) :
      Answers bk c { parked := Function.update (fun _ => 0) key 1 } { data := [data] }

theorem Answers.of_eq {line₁ line₁' line₂ line₂' : Line} (h : Answers bk c line₁ line₁')
    (hline : line₂ = line₁) (hline' : line₂' = line₁') : Answers bk c line₂ line₂' := by
  rw [hline, hline']
  exact h

theorem parked_ne_zero (key : Int) : (fun _ : Int => 0) ≠ Function.update (fun _ => 0) key 1 := by
  intro heq
  have hone := congrFun heq key
  rw [Function.update_self] at hone
  cases hone

theorem parked_inj {key key' : Int} (h : Function.update (fun _ : Int => 0) key 1 =
    Function.update (fun _ => 0) key' 1) : key = key' := by
  by_contra hne
  have hone := congrFun h key
  rw [Function.update_self, Function.update_of_ne hne] at hone
  cases hone

theorem Answers.nothing {line line' : Line} (h : Answers bk c line line') (hnone : line = {}) :
    line' = {} := by
  cases h with
  | same => exact hnone
  | wake => exact absurd (congrArg Line.parked hnone).symm (parked_ne_zero _)
  | _ => cases hnone

theorem Answers.awaitsKey {line line' : Line} {reqs : List ActiveObjectRequest}
    {call : CallActorMessage} (h : Answers bk c line line') (hawaits : AwaitsKey reqs c call line)
    (hsub : reqs ⊆ accepted bk.events) : AwaitsKey (accepted bk.events) c call line' := by
  cases h with
  | same => exact hawaits.mono hsub
  | call key hkey =>
    cases hawaits with
    | asked => exact .answered key hkey
  | park => cases hawaits
  | get => cases hawaits
  | wake =>
    generalize hl : (⟨[], [], [], [], Function.update (fun _ => 0) _ 1⟩ : Line) = l at hawaits
    cases hawaits with
    | asked => cases hl
    | answered => cases hl

theorem Answers.awaitsData {line line' : Line} {regs : List (Int × Bytes)}
    (h : Answers bk c line line') (hawaits : AwaitsData regs key line)
    (hsub : regs ⊆ registrations bk.events) :
    AwaitsData (registrations bk.events) key line' := by
  cases h with
  | same => exact hawaits.mono hsub
  | call => cases hawaits
  | park =>
    cases hawaits with
    | asked => exact .parked
  | get data hdata =>
    cases hawaits with
    | asked => exact .answered data hdata
  | wake data hdata =>
    generalize hl : (⟨[], [], [], [], Function.update (fun _ => 0) _ 1⟩ : Line) = l at hawaits
    cases hawaits with
    | asked => cases hl
    | parked => exact .answered data (parked_inj (congrArg Line.parked hl) ▸ hdata)
    | answered => cases hl

theorem line_parts {l : Line} (h : line net b c pid = l) :
    callsIn (net.mail c pid) = l.calls ∧ getsIn (net.mail c pid) = l.gets ∧
      net.codes pid c = l.codes ∧ net.data pid c = l.data ∧
      ∀ k, waiting c k (b pid).history = l.parked k := by
  subst h
  exact ⟨rfl, rfl, rfl, rfl, fun _ => rfl⟩

/-- Where what is under way between a client and this process can be. -/
theorem Balanced.line_cases (h : Balanced st net b) (c pid : Int) :
    line net b c pid = {} ∨
      (∃ var f args, net.phase c = .calling var pid f args ∧ 0 ≤ c ∧ pid ∈ st.heads ∧
        AwaitsKey (accepted (b pid).events) c (RequestIds.activeCall f args) (line net b c pid)) ∨
      ∃ var key, net.phase c = .getting var pid key ∧ c ∈ st.clients ∧ (pid, key) ∉ net.released ∧
        AwaitsData (registrations (b pid).events) key (line net b c pid) := by
  have hsession := h.session c
  cases hphase : net.phase c with
  | idle =>
    rw [hphase] at hsession
    exact .inl (hsession pid)
  | calling var head f args =>
    rw [hphase] at hsession
    obtain ⟨⟨hc, hhead⟩, hawaits, hothers⟩ := hsession
    by_cases hpid : pid = head
    · subst hpid
      exact .inr (.inl ⟨var, f, args, rfl, hc, hhead, hawaits⟩)
    · exact .inl (hothers pid hpid)
  | getting var q key =>
    rw [hphase] at hsession
    obtain ⟨⟨hc, hkept, -⟩, hawaits, hothers⟩ := hsession
    by_cases hpid : pid = q
    · subst hpid
      exact .inr (.inr ⟨var, key, rfl, hc, hkept, hawaits⟩)
    · exact .inl (hothers pid hpid)

theorem grows_update (h : accepted (b pid).events <+: accepted bk.events ∧
    registrations (b pid).events <+: registrations bk.events) :
    Grows b (Function.update b pid bk) := by
  intro q
  by_cases hq : q = pid
  · subst hq
    rw [Function.update_self]
    exact h
  · rw [Function.update_of_ne hq]
    exact Grows.refl b q

/-- One process has gone on. -/
theorem Balanced.processed (h : Balanced st net b)
    (hhead : HeadKept st pid (net'.servers pid) (net'.head pid) (net'.own pid) bk)
    (hothers : ∀ q, q ≠ pid → net'.servers q = net.servers q ∧ net'.head q = net.head q ∧
      net'.own q = net.own q ∧ ∀ c, line net' (Function.update b pid bk) c q = line net b c q ∧
        net'.mail c q = net.mail c q)
    (hclients : net'.phase = net.phase ∧ net'.vars = net.vars ∧ net'.released = net.released)
    (hgrows : accepted (b pid).events <+: accepted bk.events ∧
      registrations (b pid).events <+: registrations bk.events)
    (hlines : ∀ c, Answers bk c (line net b c pid) (line net' (Function.update b pid bk) c pid))
    (hmail : ∀ c, net'.mail c pid ⊆ net.mail c pid)
    (hreleases : ∀ key, ReleaseStage ((pid, key) ∈ net.released)
      (FutureReads.released key bk.history) fun c => (releasesIn (net'.mail c pid)).count key) :
    Balanced st net' (Function.update b pid bk) ∧ Grows b (Function.update b pid bk) := by
  have hgrow := grows_update hgrows
  obtain ⟨hphase, hvars, hreleased⟩ := hclients
  refine ⟨⟨fun q => ?_, fun c => ?_, fun c var => ?_, fun c q msg hmsg => ?_, fun q key => ?_⟩, hgrow⟩
  · by_cases hq : q = pid
    · subst hq
      rw [Function.update_self]
      exact hhead
    · obtain ⟨hserver, hthreads, hown, -⟩ := hothers q hq
      rw [Function.update_of_ne hq, hserver, hthreads, hown]
      exact h.heads q
  · have hnothing : ∀ q, line net b c q = {} → line net' (Function.update b pid bk) c q = {} := by
      intro q hnone
      by_cases hq : q = pid
      · subst hq
        exact (hlines c).nothing hnone
      · exact ((hothers q hq).2.2.2 c).1.trans hnone
    have hsession := h.session c
    rw [hphase]
    cases hc : net.phase c with
    | idle =>
      rw [hc] at hsession
      exact fun q => hnothing q (hsession q)
    | calling var head f args =>
      rw [hc] at hsession
      obtain ⟨hcall, hawaits, hnone⟩ := hsession
      refine ⟨hcall, ?_, fun q hq => hnothing q (hnone q hq)⟩
      by_cases hhead : head = pid
      · subst hhead
        rw [Function.update_self]
        exact (hlines c).awaitsKey hawaits hgrows.1.subset
      · rw [Function.update_of_ne hhead, ((hothers head hhead).2.2.2 c).1]
        exact hawaits
    | getting var head key =>
      rw [hc] at hsession
      obtain ⟨hget, hawaits, hnone⟩ := hsession
      refine ⟨?_, ?_, fun q hq => hnothing q (hnone q hq)⟩
      · rw [hvars, hreleased]
        exact hget
      · by_cases hhead : head = pid
        · subst hhead
          rw [Function.update_self]
          exact (hlines c).awaitsData hawaits hgrows.2.subset
        · rw [Function.update_of_ne hhead, ((hothers head hhead).2.2.2 c).1]
          exact hawaits
  · rw [hvars]
    exact (h.known c var).mono hgrow
  · by_cases hq : q = pid
    · subst hq
      exact h.mail c q msg (hmail c hmsg)
    · rw [((hothers q hq).2.2.2 c).2] at hmsg
      exact h.mail c q msg hmsg
  · rw [hreleased]
    by_cases hq : q = pid
    · subst hq
      rw [Function.update_self]
      exact hreleases key
    · have hsame : (fun c => (releasesIn (net'.mail c q)).count key) =
          fun c => (releasesIn (net.mail c q)).count key :=
        funext fun c => by rw [((hothers q hq).2.2.2 c).2]
      rw [Function.update_of_ne hq, hsame]
      exact h.releases q key

/-- A manager has handled a message. -/
theorem Balanced.answered (h : Balanced st net b) {out : List Output} {s : ActorServer}
    {mail' : Int → Int → List ActorMessage} {own' : Int → List ActorMessage}
    (hhead : HeadKept st pid s ⟨⟨[s.futureKeyManager], some 0⟩,
      net.queues pid ++ out.filterMap request, .idle, net.workers pid⟩ (own' pid) bk)
    (hothers : ∀ q, q ≠ pid → own' q = net.own q ∧ ∀ c, mail' c q = net.mail c q)
    (hgrows : accepted (b pid).events <+: accepted bk.events ∧
      registrations (b pid).events <+: registrations bk.events)
    (hlines : ∀ c, Answers bk c (line net b c pid) ⟨callsIn (mail' c pid), getsIn (mail' c pid),
      net.codes pid c ++ out.filterMap (codeTo c), net.data pid c ++ out.filterMap (dataTo c),
      fun key => waiting c key bk.history⟩)
    (hmail : ∀ c, mail' c pid ⊆ net.mail c pid)
    (hreleases : ∀ key, ReleaseStage ((pid, key) ∈ net.released)
      (FutureReads.released key bk.history) fun c => (releasesIn (mail' c pid)).count key) :
    Balanced st { net.handled pid out s with mail := mail', own := own' }
      (Function.update b pid bk) ∧ Grows b (Function.update b pid bk) := by
  refine h.processed ?_ (fun q hq => ⟨Function.update_of_ne hq _ _, ?_, (hothers q hq).1,
    fun c => ⟨?_, (hothers q hq).2 c⟩⟩) ⟨rfl, rfl, rfl⟩ hgrows (fun c => ?_) hmail hreleases
  · simp only [handled, head, Function.update_self]
    exact hhead
  · simp only [handled, head, Function.update_of_ne hq]
  · simp only [handled, line, Function.update_of_ne hq, (hothers q hq).2, if_neg hq, List.append_nil]
  · simp only [handled, line, Function.update_self, if_true]
    exact hlines c

/-- The calls that a manager has accepted are those that it has answered. -/
theorem carries_handled {out : List Output} {s : ActorServer}
    {mail' : Int → Int → List ActorMessage} {own' : Int → List ActorMessage}
    (hkeys : ∀ c, acceptedKeys c bk.events =
      acceptedKeys c (b pid).events ++ out.filterMap (codeTo c)) :
    Carries net b [] { net.handled pid out s with mail := mail', own := own' }
      (Function.update b pid bk) := by
  intro c q before hbefore
  show _ = before ++ [] ++ (net.codes q c ++ if q = pid then out.filterMap (codeTo c) else [])
  rw [List.append_nil, ← List.append_assoc, ← hbefore]
  by_cases hq : q = pid
  · subst hq
    rw [Function.update_self, if_pos rfl]
    exact hkeys c
  · rw [Function.update_of_ne hq, if_neg hq, List.append_nil]

theorem taken_self : Function.update net.mail c (Function.update (net.mail c) pid rest) c pid =
    rest := by
  rw [Function.update_self, Function.update_self]

theorem taken_of_ne {c' q : Int} (hne : c' ≠ c ∨ q ≠ pid) :
    Function.update net.mail c (Function.update (net.mail c) pid rest) c' q = net.mail c' q := by
  rw [update_update, if_neg]
  rintro ⟨hc, hq⟩
  exact hne.elim (fun hn => hn hc) fun hn => hn hq

section Mail

variable (h : Balanced st net b) (hmail : net.mail c pid = msg :: rest)

omit h in
include hmail in
theorem taken_subset (c' : Int) :
    Function.update net.mail c (Function.update (net.mail c) pid rest) c' pid ⊆
      net.mail c' pid := by
  by_cases hc : c' = c
  · subst hc
    rw [taken_self, hmail]
    exact List.subset_cons_self msg rest
  · rw [taken_of_ne (.inl hc)]
    exact List.Subset.refl _

include h hmail in
/-- A message that releases nothing. -/
theorem Balanced.releases_taken (hnone : releasesIn [msg] = []) (hms : ∀ key,
    FutureReads.released key bk.history = FutureReads.released key (b pid).history) (key : Int) :
    ReleaseStage ((pid, key) ∈ net.released) (FutureReads.released key bk.history) fun c' =>
      (releasesIn (Function.update net.mail c (Function.update (net.mail c) pid rest) c' pid)).count
        key := by
  have hsame : (fun c' =>
      (releasesIn (Function.update net.mail c (Function.update (net.mail c) pid rest) c' pid)).count
        key) = fun c' => (releasesIn (net.mail c' pid)).count key := by
    funext c'
    by_cases hc : c' = c
    · subst hc
      have hcons : releasesIn (msg :: rest) = releasesIn [msg] ++ releasesIn rest :=
        List.filterMap_append (l := [msg])
      rw [taken_self, hmail, hcons, hnone, List.nil_append]
    · rw [taken_of_ne (.inl hc)]
  rw [hms, hsame]
  exact h.releases pid key

end Mail

/-- A call is the one thing that is under way. -/
theorem Balanced.call_line (h : Balanced st net b) {call : CallActorMessage}
    (hmail : net.mail c pid = .callActor call :: rest) :
    0 ≤ c ∧ pid ∈ st.heads ∧ line net b c pid = { calls := [call] } := by
  have hcalls : (line net b c pid).calls = call :: callsIn rest := by
    show callsIn (net.mail c pid) = _
    rw [hmail]
    rfl
  rcases h.line_cases c pid with hnone | ⟨var, f, args, -, hc, hhead, hawaits⟩ |
    ⟨var, key, -, -, -, hawaits⟩
  · rw [hnone] at hcalls
    cases hcalls
  · generalize line net b c pid = l at hcalls hawaits
    cases hawaits with
    | asked =>
      obtain ⟨rfl, -⟩ := List.cons.inj hcalls
      exact ⟨hc, hhead, rfl⟩
    | answered => cases hcalls
  · generalize line net b c pid = l at hcalls hawaits
    cases hawaits <;> cases hcalls

theorem Balanced.get_line (h : Balanced st net b)
    (hmail : net.mail c pid = .getFutureData key :: rest) :
    (pid, key) ∉ net.released ∧ line net b c pid = { gets := [key] } := by
  have hgets : (line net b c pid).gets = key :: getsIn rest := by
    show getsIn (net.mail c pid) = _
    rw [hmail]
    rfl
  rcases h.line_cases c pid with hnone | ⟨var, f, args, -, -, -, hawaits⟩ |
    ⟨var, key', -, -, hkept, hawaits⟩
  · rw [hnone] at hgets
    cases hgets
  · generalize line net b c pid = l at hgets hawaits
    cases hawaits <;> cases hgets
  · generalize line net b c pid = l at hgets hawaits
    cases hawaits with
    | asked =>
      obtain ⟨rfl, -⟩ := List.cons.inj hgets
      exact ⟨hkept, rfl⟩
    | parked => cases hgets
    | answered => cases hgets

theorem keeping_handle {out : List Output} {s : ActorServer}
    (hmail : net.mail c pid = msg :: rest)
    (hstep : ActorServer.step codec (.message c msg) (net.servers pid) = (out, .ok ((), s)))
    (hkept : Balanced st { net.handled pid out s with
      mail := Function.update net.mail c (Function.update (net.mail c) pid rest)
      own := net.own } (Function.update b pid bk) ∧ Grows b (Function.update b pid bk))
    (hkeys : ∀ c', acceptedKeys c' bk.events =
      acceptedKeys c' (b pid).events ++ out.filterMap (codeTo c')) :
    Keeping codec st net b (.handle c pid) :=
  ⟨[], _, _, by simp only [step, hmail, hstep]; rfl, hkept.1, hkept.2, List.forall_mem_nil _,
    carries_handled hkeys⟩

theorem codes_call (req : ActiveObjectRequest) (src key c' : Int) :
    List.filterMap (codeTo c') [.callActor req, .responseCode src key] =
      if src = c' then [key] else [] := by
  rw [List.filterMap_cons, List.filterMap_cons, List.filterMap_nil]
  by_cases hsrc : src = c'
  · simp only [codeTo, if_pos hsrc]
  · simp only [codeTo, if_neg hsrc]

theorem handle_call_keeps (h : Balanced st net b) {call : CallActorMessage}
    (hmail : net.mail c pid = .callActor call :: rest)
    (hbound : (net.servers pid).futureKeyManager.next + 1 < 2 ^ 31) :
    Keeping codec st net b (.handle c pid) := by
  obtain ⟨hc, hpid, hline⟩ := h.call_line hmail
  obtain ⟨src, rfl⟩ := Int.eq_ofNat_of_zero_le hc
  obtain ⟨s', hstep, hhead⟩ := (h.heads pid).call codec hpid src call hbound rfl
  obtain ⟨hcall, hget, hcodes, hdata, hparked⟩ := line_parts hline
  rw [hmail] at hcall hget
  have hcalls : callsIn rest = [] := (List.cons.inj hcall).2
  have hgets : getsIn rest = [] := hget
  refine keeping_handle hmail hstep (h.answered hhead
    (fun q hq => ⟨rfl, fun c' => taken_of_ne (.inr hq)⟩) ?_ (fun c' => ?_) (taken_subset hmail)
    (h.releases_taken hmail rfl fun _ => rfl)) fun c' => ?_
  · constructor
    · rw [accepted, accepted, List.filterMap_append]
      exact List.prefix_append _ _
    · rw [registrations, registrations, List.filterMap_append]
      exact List.prefix_append _ _
  · rw [codes_call]
    by_cases hc : c' = src
    · subst hc
      rw [taken_self, hcalls, hgets, hcodes, hdata, if_pos rfl]
      refine (Answers.call _ ?_).of_eq hline (Line.ext rfl rfl rfl rfl (funext hparked))
      refine List.mem_filterMap.mpr ⟨.accepted _, ?_, rfl⟩
      exact List.mem_append_right _ (List.mem_cons_of_mem _ List.mem_cons_self)
    · rw [taken_of_ne (.inl hc), if_neg (Ne.symm hc), List.append_nil]
      exact Answers.same.of_eq rfl (Line.ext rfl rfl rfl (List.append_nil _) rfl)
  · rw [codes_call, acceptedKeys_append]
    congr 1
    show List.map _ (List.filter _ [_]) = _
    rw [List.filter_singleton]
    by_cases hsrc : (src : Int) = c'
    · simp only [hsrc, decide_true, if_true]
      rfl
    · simp only [hsrc, decide_false, if_false]
      rfl

/-- A manager that is told of a future sends nothing but data. -/
theorem answer_quiet (ms : List FutureMessage) (m : FutureMessage) :
    (answer ms m).filterMap request = [] ∧ ∀ c', (answer ms m).filterMap (codeTo c') = [] := by
  have hdata : ∀ o ∈ answer ms m, ∃ dst data, o = .futureData dst data := by
    intro o ho
    unfold answer at ho
    split at ho
    · obtain ⟨src, -, rfl⟩ := List.mem_map.mp ho
      exact ⟨_, _, rfl⟩
    · split at ho
      · exact ⟨_, _, List.mem_singleton.mp ho⟩
      · cases ho
    · cases ho
  refine ⟨List.filterMap_eq_nil_iff.mpr fun o ho => ?_,
    fun c' => List.filterMap_eq_nil_iff.mpr fun o ho => ?_⟩
  · obtain ⟨dst, data, rfl⟩ := hdata o ho
    rfl
  · obtain ⟨dst, data, rfl⟩ := hdata o ho
    rfl

/-- The threads, when the queue has not changed. -/
theorem HeadKept.relabel {s : ActorServer} {own : List ActorMessage} {out : List Output}
    (h : HeadKept st pid s (net.head pid) own bk) (hout : out.filterMap request = []) :
    HeadKept st pid s ⟨⟨[s.futureKeyManager], some 0⟩, net.queues pid ++ out.filterMap request,
      .idle, net.workers pid⟩ own bk := by
  rw [hout, List.append_nil, ← h.keys]
  exact h

theorem handle_get_keeps (h : Balanced st net b)
    (hmail : net.mail c pid = .getFutureData key :: rest) :
    Keeping codec st net b (.handle c pid) := by
  obtain ⟨hkept, hline⟩ := h.get_line hmail
  obtain ⟨hcall, hget, hcodes, hdata, hparked⟩ := line_parts hline
  rw [hmail] at hcall hget
  have hcalls : callsIn rest = [] := hcall
  have hgets : getsIn rest = [] := (List.cons.inj hget).2
  have hallowed : Allowed (b pid).history ⟨c, key, .get⟩ := by
    rcases (h.releases pid key).inv with ⟨-, hms, -⟩ | ⟨hmarked, -⟩ | ⟨hmarked, -⟩
    · exact .inr hms
    · exact absurd hmarked hkept
    · exact absurd hmarked hkept
  obtain ⟨s', hstep, hhead⟩ := (h.heads pid).future codec (net.own pid) hallowed rfl rfl
    fun _ hmsg => hmsg
  obtain ⟨hrequest, hcode⟩ := answer_quiet (b pid).history ⟨c, key, .get⟩
  refine keeping_handle hmail hstep (h.answered (hhead.relabel hrequest)
    (fun q hq => ⟨rfl, fun c' => taken_of_ne (.inr hq)⟩)
    ⟨List.prefix_rfl, List.prefix_rfl⟩ (fun c' => ?_) (taken_subset hmail)
    (h.releases_taken hmail rfl fun k => ?_)) fun c' => by rw [hcode, List.append_nil]
  · rw [hcode]
    by_cases hc : c' = c
    · subst hc
      rw [taken_self, hcalls, hgets, hcodes, hdata]
      cases hreg : FutureReads.registered key (b pid).history with
      | none =>
        have hans : answer (b pid).history ⟨c', key, .get⟩ = [] := by
          simp only [answer, hreg]
        rw [hans]
        refine (Answers.park key).of_eq hline (Line.ext rfl rfl rfl rfl (funext fun k => ?_))
        show waiting c' k ((b pid).history ++ [⟨c', key, .get⟩]) =
          Function.update (fun _ => 0) key 1 k
        rw [waiting_get, hparked, Function.update_apply]
        simp only [hreg, true_and, and_true]
        exact Nat.zero_add _
      | some data =>
        have hans : answer (b pid).history ⟨c', key, .get⟩ = [.futureData c' data] := by
          simp only [answer, hreg]
        have hcome : List.filterMap (dataTo c') [.futureData c' data] = [data] := by
          rw [List.filterMap_cons, List.filterMap_nil]
          simp only [dataTo, if_true]
        rw [hans, hcome]
        refine (Answers.get data ?_).of_eq hline (Line.ext rfl rfl rfl rfl (funext fun k => ?_))
        · rw [(h.heads pid).registered]
          exact List.mem_append_left _ (registered_eq_some hreg)
        · show waiting c' k ((b pid).history ++ [⟨c', key, .get⟩]) = _
          rw [waiting_get, hparked, hreg, if_neg fun hand => Option.some_ne_none data hand.1]
    · have hnone : (answer (b pid).history ⟨c, key, .get⟩).filterMap (dataTo c') = [] := by
        simp only [answer]
        split
        · simp only [List.filterMap_cons, dataTo, if_neg (Ne.symm hc), List.filterMap_nil]
        · rfl
      rw [taken_of_ne (.inl hc), hnone]
      refine Answers.same.of_eq rfl (Line.ext rfl rfl (List.append_nil _) (List.append_nil _)
        (funext fun k => ?_))
      show waiting c' k ((b pid).history ++ [⟨c, key, .get⟩]) = _
      rw [waiting_get, if_neg fun hand => hc hand.2.2]
      rfl
  · exact released_get k

theorem handle_release_keeps (h : Balanced st net b)
    (hmail : net.mail c pid = .releaseFuture key :: rest) :
    Keeping codec st net b (.handle c pid) := by
  have hcount : (releasesIn (net.mail c pid)).count key = (releasesIn rest).count key + 1 := by
    rw [hmail]
    exact List.count_cons_self
  -- the one message about the release of this future is the one that is handled
  have hstage : (pid, key) ∈ net.released ∧ FutureReads.released key (b pid).history = false ∧
      (fun c' => (releasesIn (net.mail c' pid)).count key) = Function.update (fun _ => 0) c 1 := by
    rcases (h.releases pid key).inv with ⟨-, -, hnone⟩ | ⟨hmarked, hms, c₀, hone⟩ | ⟨-, -, hnone⟩
    · have hzero := congrFun hnone c
      simp only [hcount] at hzero
      cases hzero
    · have hc : c = c₀ := by
        by_contra hne
        have hzero := congrFun hone c
        rw [Function.update_of_ne hne] at hzero
        simp only [hcount] at hzero
        cases hzero
      exact ⟨hmarked, hms, hc ▸ hone⟩
    · have hzero := congrFun hnone c
      simp only [hcount] at hzero
      cases hzero
  obtain ⟨hmarked, hms, hone⟩ := hstage
  obtain ⟨s', hstep, hhead⟩ := (h.heads pid).future codec (net.own pid)
    (m := ⟨c, key, .release⟩) hms rfl rfl fun _ hmsg => hmsg
  obtain ⟨hrequest, hcode⟩ := answer_quiet (b pid).history ⟨c, key, .release⟩
  refine keeping_handle hmail hstep (h.answered (hhead.relabel hrequest)
    (fun q hq => ⟨rfl, fun c' => taken_of_ne (.inr hq)⟩)
    ⟨List.prefix_rfl, List.prefix_rfl⟩ (fun c' => ?_) (taken_subset hmail) fun k => ?_)
    fun c' => by rw [hcode, List.append_nil]
  · refine Answers.same.of_eq rfl (Line.ext ?_ ?_ (List.append_nil _) (List.append_nil _)
      (funext fun k => waiting_release c' k))
    all_goals
      by_cases hc : c' = c
      · subst hc
        rw [taken_self]
        simp only [line, hmail]
        rfl
      · rw [taken_of_ne (.inl hc)]
        rfl
  · show ReleaseStage _ (FutureReads.released k ((b pid).history ++ [⟨c, key, .release⟩])) _
    rw [released_snoc]
    by_cases hk : k = key
    · subst hk
      have hnone : (fun c' => (releasesIn
          (Function.update net.mail c (Function.update (net.mail c) pid rest) c' pid)).count k) =
          fun _ => 0 := by
        funext c'
        have hbefore := congrFun hone c'
        by_cases hc : c' = c
        · subst hc
          rw [taken_self]
          simp only [hcount, Function.update_self] at hbefore
          exact Nat.succ_inj.mp hbefore
        · rw [taken_of_ne (.inl hc)]
          rw [Function.update_of_ne hc] at hbefore
          exact hbefore
      rw [hnone, decide_eq_true (show FutureMessage.IsRelease k ⟨c, k, .release⟩ from ⟨rfl, rfl⟩),
        Bool.or_true]
      exact .handled hmarked
    · have hnot : ¬ FutureMessage.IsRelease k ⟨c, key, .release⟩ := fun hrel => hk hrel.1.symm
      have hsame : (fun c' => (releasesIn
          (Function.update net.mail c (Function.update (net.mail c) pid rest) c' pid)).count k) =
          fun c' => (releasesIn (net.mail c' pid)).count k := by
        funext c'
        by_cases hc : c' = c
        · subst hc
          rw [taken_self, hmail]
          exact (List.count_cons_of_ne (Ne.symm hk)).symm
        · rw [taken_of_ne (.inl hc)]
      rw [decide_eq_false hnot, Bool.or_false, hsame]
      exact h.releases pid k

/-- The next message of a client. -/
theorem handle_keeps (h : Balanced st net b) (hmail : net.mail c pid = msg :: rest)
    (hbound : (net.servers pid).futureKeyManager.next + 1 < 2 ^ 31) :
    Keeping codec st net b (.handle c pid) := by
  have hclient := h.mail c pid msg (hmail ▸ List.mem_cons_self)
  cases msg with
  | callActor call => exact handle_call_keeps h hmail hbound
  | getFutureData key => exact handle_get_keeps h hmail
  | releaseFuture key => exact handle_release_keeps h hmail
  | _ => exact hclient.elim

theorem keeping_handleOwn {out : List Output} {s : ActorServer}
    (hown : net.own pid = msg :: rest)
    (hstep : ActorServer.step codec (.message pid msg) (net.servers pid) = (out, .ok ((), s)))
    (hkept : Balanced st { net.handled pid out s with
      mail := net.mail
      own := Function.update net.own pid rest } (Function.update b pid bk) ∧
        Grows b (Function.update b pid bk))
    (hkeys : ∀ c', acceptedKeys c' bk.events =
      acceptedKeys c' (b pid).events ++ out.filterMap (codeTo c')) :
    Keeping codec st net b (.handleOwn pid) :=
  ⟨[], _, _, by simp only [step, hown, hstep]; rfl, hkept.1, hkept.2, List.forall_mem_nil _,
    carries_handled hkeys⟩

theorem handleOwn_store_keeps (h : Balanced st net b) {m : StoreResultMessage}
    (hown : net.own pid = .storeResult m :: rest) : Keeping codec st net b (.handleOwn pid) := by
  obtain ⟨s', hstep, hhead⟩ := (h.heads pid).store codec hown
  refine keeping_handleOwn hown hstep (h.answered ?_
    (fun q hq => ⟨Function.update_of_ne hq _ _, fun _ => rfl⟩)
    ⟨List.prefix_rfl, List.prefix_rfl⟩ (fun c => ?_) (fun _ => List.Subset.refl _)
    (h.releases pid)) fun c' => (List.append_nil _).symm
  · rw [Function.update_self]
    exact hhead.relabel rfl
  · exact Answers.same.of_eq rfl (Line.ext rfl rfl (List.append_nil _) (List.append_nil _) rfl)

theorem handleOwn_register_keeps (h : Balanced st net b)
    (hown : net.own pid = .registerFutureData key data :: rest) :
    Keeping codec st net b (.handleOwn pid) := by
  have hregistered := (h.heads pid).registered
  have hfirst : registersIn (net.own pid) = (key, data) :: registersIn rest := by
    rw [hown]
    rfl
  rw [hfirst] at hregistered
  have hnone : FutureReads.registered key (b pid).history = none := by
    have hnodup := (h.heads pid).registrations_nodup
    rw [hregistered, List.map_append, List.map_cons] at hnodup
    apply registered_eq_none
    intro hmem
    exact (List.nodup_append'.mp hnodup).2.2 hmem List.mem_cons_self
  obtain ⟨s', hstep, hhead⟩ := (h.heads pid).future codec rest
    (m := ⟨pid, key, .register data⟩) hnone hfirst.symm (by rw [hown]; rfl)
    fun m hm => hown ▸ List.mem_cons_of_mem _ hm
  obtain ⟨hrequest, hcode⟩ := answer_quiet (b pid).history ⟨pid, key, .register data⟩
  have hhead' : HeadKept st pid s' ⟨⟨[s'.futureKeyManager], some 0⟩, net.queues pid ++
      (answer (b pid).history ⟨pid, key, .register data⟩).filterMap request, .idle,
      net.workers pid⟩ (Function.update net.own pid rest pid)
      { b pid with history := (b pid).history ++ [⟨pid, key, .register data⟩] } := by
    rw [Function.update_self]
    exact hhead.relabel hrequest
  refine keeping_handleOwn hown hstep (h.answered hhead'
    (fun q hq => ⟨Function.update_of_ne hq _ _, fun _ => rfl⟩)
    ⟨List.prefix_rfl, List.prefix_rfl⟩ (fun c => ?_) (fun _ => List.Subset.refl _) fun k => ?_)
    fun c' => by rw [hcode, List.append_nil]
  · have hdata : (answer (b pid).history ⟨pid, key, .register data⟩).filterMap (dataTo c) =
        List.replicate (waiting c key (b pid).history) data := dataTo_readers c hnone
    have hnow (k : Int) : waiting c k ((b pid).history ++ [⟨pid, key, .register data⟩]) =
        if k = key then 0 else waiting c k (b pid).history := waiting_register hnone c k
    rw [hcode, hdata]
    by_cases hwaits : waiting c key (b pid).history = 0
    · rw [hwaits]
      refine Answers.same.of_eq rfl (Line.ext rfl rfl (List.append_nil _) (List.append_nil _)
        (funext fun k => (hnow k).trans ?_))
      split_ifs with hk
      · exact hk ▸ hwaits.symm
      · rfl
    · -- the read of this client is the one that waits
      have hline : line net b c pid = { parked := Function.update (fun _ => 0) key 1 } := by
        have hparked : (line net b c pid).parked key ≠ 0 := hwaits
        rcases h.line_cases c pid with hempty | ⟨_, _, _, -, -, -, hawaits⟩ |
          ⟨_, key', -, -, -, hawaits⟩
        · rw [hempty] at hparked
          exact absurd rfl hparked
        · generalize line net b c pid = l at hparked hawaits ⊢
          cases hawaits <;> exact absurd rfl hparked
        · generalize line net b c pid = l at hparked hawaits ⊢
          cases hawaits with
          | asked => exact absurd rfl hparked
          | parked =>
            by_cases hkey : key = key'
            · rw [hkey]
            · have hzero : Function.update (fun _ : Int => 0) key' 1 key = 0 :=
                Function.update_of_ne hkey _ _
              exact absurd hzero hparked
          | answered => exact absurd rfl hparked
      obtain ⟨hcalls, hgets, hcodes, hnodata, hwaiting⟩ := line_parts hline
      have hparked (k : Int) : waiting c k (b pid).history =
          Function.update (fun _ => 0) key 1 k := hwaiting k
      rw [hcalls, hgets, hcodes, hnodata, hparked key, Function.update_self]
      refine (Answers.wake data ?_).of_eq hline (Line.ext rfl rfl rfl rfl
        (funext fun k => (hnow k).trans ?_))
      · rw [hregistered]
        exact List.mem_append_right _ List.mem_cons_self
      · split_ifs with hk
        · rfl
        · rw [hparked, Function.update_of_ne hk]
  · show ReleaseStage _ (FutureReads.released k ((b pid).history ++ [⟨pid, key, .register data⟩])) _
    rw [released_register]
    exact h.releases pid k

/-- The next message of the worker. -/
theorem handleOwn_keeps (h : Balanced st net b) (hown : net.own pid = msg :: rest) :
    Keeping codec st net b (.handleOwn pid) := by
  have hmine := (h.heads pid).own_mine msg (hown ▸ List.mem_cons_self)
  rcases hmine with ⟨key, data, rfl⟩ | ⟨m, rfl⟩
  · exact handleOwn_register_keeps h hown
  · exact handleOwn_store_keeps h hown

theorem work_keeps (h : Balanced st net b) {learnt : Bytes} {events : List ActorWorker.Event}
    {threads : ActorWorker.Head Obj} (hbound : (net.servers pid).futureKeyManager.next + 1 < 2 ^ 31)
    (hstep : ActorWorker.workerTurn (st.functions pid) learnt (net.head pid) =
      (events, .ok ((), threads))) : Keeping codec st net b (.work pid learnt) := by
  have hhead := (h.heads pid).work hbound hstep
  have hthreads : (⟨⟨[threads.keys.allocated.headD {}], some 0⟩, threads.messages, .idle,
      threads.worker⟩ : ActorWorker.Head Obj) = threads := by
    obtain ⟨keys, messages, manager, worker⟩ := threads
    have hkeys := hhead.keys
    have hidle := hhead.idle
    simp only at hkeys hidle
    rw [hidle, ← hkeys]
  have ht : ActorWorker.Turn (st.functions pid) (.worker learnt) (net.head pid) events threads :=
    ActorWorker.step_cases hstep
  have hquiet := ht.of_worker.1
  obtain ⟨bk, hinputs, hevents, hhistory⟩ : ∃ bk : HeadBooks,
      bk.inputs = (b pid).inputs ++ [.worker learnt] ∧ bk.events = (b pid).events ++ events ∧
        bk.history = (b pid).history := ⟨⟨_, _, _⟩, rfl, rfl, rfl⟩
  rw [← hinputs, ← hevents, ← hhistory] at hhead
  have hkept : Balanced st (net.worked pid events threads) (Function.update b pid bk) ∧
      Grows b (Function.update b pid bk) := by
    refine h.processed ?_ (fun q hq => ⟨Function.update_of_ne hq _ _, ?_,
      Function.update_of_ne hq _ _, fun c => ⟨?_, rfl⟩⟩) ⟨rfl, rfl, rfl⟩ ?_ (fun c => ?_)
      (fun _ => List.Subset.refl _) (hhistory ▸ h.releases pid)
    · simp only [worked, head, Function.update_self]
      rw [hthreads]
      exact hhead
    · simp only [worked, head, Function.update_of_ne hq]
    · simp only [worked, line, Function.update_of_ne hq]
    · rw [hevents]
      constructor
      · rw [accepted, accepted, List.filterMap_append]
        exact List.prefix_append _ _
      · rw [registrations, registrations, List.filterMap_append]
        exact List.prefix_append _ _
    · simp only [worked, line, Function.update_self, hhistory]
      exact Answers.same
  refine ⟨[], _, _, by simp only [step, hstep], hkept.1, hkept.2, List.forall_mem_nil _, ?_⟩
  intro c q before hbefore
  show _ = before ++ [] ++ net.codes q c
  rw [List.append_nil, ← hbefore]
  by_cases hq : q = pid
  · subst hq
    have hnone : acceptedKeys c events = [] := by
      rw [acceptedKeys, hquiet]
      rfl
    rw [Function.update_self, hevents, acceptedKeys_append, hnone, List.append_nil]
  · rw [Function.update_of_ne hq]

end ActiveBsp.CallSessions
