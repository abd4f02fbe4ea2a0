import ActiveBsp.Mpi.CallBooks

/-!
# What the moves of the clients keep

A client moves when it waits for nothing, or when what it waits for has come.
No move of a client changes anything at a process.
-/
namespace ActiveBsp.CallSessions

open Library FutureReads
open ActorWorker (registrations accepted)

set_option autoImplicit false

variable {Obj : Type} {codec : Codec} {st : CallCluster Obj} {net net' : CallSessions Obj}
  {b : Int → HeadBooks} {c pid key : Int} {var : Nat} {msg : ActorMessage} {future : FutureBase}

/-- The move succeeds, and what it shows is right. -/
def Keeping (codec : Codec) (st : CallCluster Obj) (net : CallSessions Obj) (b : Int → HeadBooks)
    (move : Move) : Prop :=
  ∃ out net' b', step codec st.functions move net = (out, .ok ((), net')) ∧ Balanced st net' b' ∧
    Grows b b' ∧ (∀ e ∈ out, Right b' e) ∧ Carries net b out net' b'

theorem mail_post (c' q : Int) : (net.post c pid msg).mail c' q =
    if c' = c ∧ q = pid then net.mail c pid ++ [msg] else net.mail c' q :=
  update_update net.mail c pid _ c' q

theorem vars_assign (c' : Int) (var' : Nat) : (net.assign c var future).vars c' var' =
    if c' = c ∧ var' = var then future else net.vars c' var' :=
  update_update net.vars c var _ c' var'

theorem vars_assign_of_ne {c' : Int} (hc : c' ≠ c) :
    (net.assign c var future).vars c' = net.vars c' := Function.update_of_ne hc _ _

theorem line_post (c' q : Int) : line (net.post c pid msg) b c' q =
    if c' = c ∧ q = pid then (line net b c' q).post msg else line net b c' q := by
  unfold line
  rw [mail_post]
  split_ifs with hcq
  · obtain ⟨rfl, rfl⟩ := hcq
    simp only [callsIn, getsIn, List.filterMap_append]
    rfl
  · rfl

theorem line_codes (rest : List Int) (c' q : Int) :
    line { net with codes := Function.update net.codes pid (Function.update (net.codes pid) c rest) }
        b c' q =
      if c' = c ∧ q = pid then { line net b c' q with codes := rest } else line net b c' q := by
  simp only [line, update_update]
  by_cases hcq : c' = c ∧ q = pid
  · rw [if_pos hcq, if_pos hcq.symm]
  · rw [if_neg hcq, if_neg fun hand => hcq hand.symm]

theorem line_data (rest : List Bytes) (c' q : Int) :
    line { net with data := Function.update net.data pid (Function.update (net.data pid) c rest) }
        b c' q =
      if c' = c ∧ q = pid then { line net b c' q with data := rest } else line net b c' q := by
  simp only [line, update_update]
  by_cases hcq : c' = c ∧ q = pid
  · rw [if_pos hcq, if_pos hcq.symm]
  · rw [if_neg hcq, if_neg fun hand => hcq hand.symm]

theorem releasesIn_post (c' q : Int) : releasesIn ((net.post c pid msg).mail c' q) =
    releasesIn (net.mail c' q) ++ if c' = c ∧ q = pid then releasesIn [msg] else [] := by
  rw [mail_post]
  split_ifs with hcq
  · obtain ⟨rfl, rfl⟩ := hcq
    exact List.filterMap_append
  · exact (List.append_nil _).symm

theorem ReleaseStage.inv {marked : Prop} {handled : Bool} {underway : Int → Nat}
    (h : ReleaseStage marked handled underway) :
    (¬ marked ∧ handled = false ∧ underway = fun _ => 0) ∨
      (marked ∧ handled = false ∧ ∃ c, underway = Function.update (fun _ => 0) c 1) ∨
      (marked ∧ handled = true ∧ underway = fun _ => 0) := by
  cases h with
  | kept h => exact .inl ⟨h, rfl, rfl⟩
  | underway h c => exact .inr (.inl ⟨h, rfl, c, rfl⟩)
  | handled h => exact .inr (.inr ⟨h, rfl, rfl⟩)

section Moves

variable (h : Balanced st net b)
include h

/-- The sessions of the clients that have not moved. -/
theorem Balanced.sessions
    (hphases : ∀ c', c' ≠ c → net'.phase c' = net.phase c')
    (hlines : ∀ c', c' ≠ c → ∀ q, line net' b c' q = line net b c' q)
    (hvars : ∀ c', c' ≠ c → net'.vars c' = net.vars c')
    (hreleased : ∀ c' ∈ st.clients, ∀ pid key, (net.phase c').Gets pid key →
      (pid, key) ∉ net.released → (pid, key) ∉ net'.released)
    (hself : Session st net' b c (net'.phase c)) (c' : Int) :
    Session st net' b c' (net'.phase c') := by
  by_cases hc : c' = c
  · exact hc ▸ hself
  · rw [hphases c' hc]
    exact (h.session c').congr (hlines c' hc) (Grows.refl b) (hvars c' hc)
      fun pid key hin => hreleased c' hin pid key

theorem Balanced.mail_post (hmsg : FromClient msg) (c' q : Int) :
    ∀ m ∈ (net.post c pid msg).mail c' q, FromClient m := by
  intro m hm
  rw [CallSessions.mail_post] at hm
  split_ifs at hm with hcq
  · rcases List.mem_append.mp hm with hm | hm
    · exact h.mail c pid m hm
    · exact List.mem_singleton.mp hm ▸ hmsg
  · exact h.mail c' q m hm

theorem Balanced.known_assign (hfuture : Known b future) (c' : Int) (var' : Nat) :
    Known b ((net.assign c var future).vars c' var') := by
  rw [vars_assign]
  split_ifs
  · exact hfuture
  · exact h.known c' var'

theorem Balanced.releases_post (hmsg : releasesIn [msg] = []) (q key : Int) :
    ReleaseStage ((q, key) ∈ net.released) (FutureReads.released key (b q).history)
      fun c' => (releasesIn ((net.post c pid msg).mail c' q)).count key := by
  have hsame (c' : Int) :
      releasesIn ((net.post c pid msg).mail c' q) = releasesIn (net.mail c' q) := by
    rw [releasesIn_post, hmsg, ite_self, List.append_nil]
  simp only [hsame]
  exact h.releases q key

theorem call_keeps {head : Int} {f : String} {args : Bytes}
    (hp : st.Proper net (.call c var head f args)) (hphase : net.phase c = .idle) :
    Keeping codec st net b (.call c var head f args) := by
  have hidle := h.session c
  rw [hphase] at hidle
  refine ⟨[], _, b, by simp only [step, hphase]; rfl, ?_, Grows.refl b, List.forall_mem_nil _,
    by exact .quiet rfl fun _ _ => rfl⟩
  refine ⟨h.heads, ?_, h.known, h.mail_post trivial, h.releases_post rfl⟩
  refine h.sessions (fun c' hc => Function.update_of_ne hc _ _) (fun c' hc q => ?_)
    (fun _ _ => rfl) (fun _ _ _ _ _ hkept => hkept) ?_
  · exact (line_post c' q).trans (if_neg fun hcq => hc hcq.1)
  · show Session st _ b c (Function.update net.phase c _ c)
    rw [Function.update_self]
    refine ⟨hp, ?_, fun q hq => ?_⟩
    · show AwaitsKey _ _ _ (line (net.post c head _) b c head)
      rw [line_post, if_pos ⟨rfl, rfl⟩, hidle]
      exact .asked
    · exact (line_post c q).trans ((if_neg fun hcq => hq hcq.2).trans (hidle q))

theorem respond_keeps {head : Int} {f : String} {args : Bytes} {rest : List Int}
    (hphase : net.phase c = .calling var head f args) (hcodes : net.codes head c = key :: rest) :
    Keeping codec st net b (.respond c) := by
  have hsession := h.session c
  rw [hphase] at hsession
  obtain ⟨-, hawaits, hothers⟩ := hsession
  have haccepted : ⟨RequestIds.activeCall f args, c, key⟩ ∈ accepted (b head).events ∧
      { line net b c head with codes := rest } = ({} : Line) := by
    generalize hl : line net b c head = l at hawaits
    have hcode : l.codes = key :: rest := by
      rw [← hl]
      exact hcodes
    cases hawaits with
    | asked => cases hcode
    | answered key' hkey =>
      cases hcode
      exact ⟨hkey, rfl⟩
  refine ⟨[.called c head f args key], _, b, by simp only [step, hphase, hcodes]; rfl, ?_,
    Grows.refl b, List.forall_mem_singleton.mpr haccepted.1, ?_⟩
  rotate_left
  · intro c' q before hbefore
    rw [hbefore]
    show _ = before ++ calledKeys c' q [.called c head f args key] ++
      Function.update net.codes head (Function.update (net.codes head) c rest) q c'
    rw [update_update, calledKeys_called]
    by_cases hcq : c = c' ∧ head = q
    · obtain ⟨rfl, rfl⟩ := hcq
      rw [hcodes, if_pos ⟨rfl, rfl⟩, if_pos ⟨rfl, rfl⟩]
      exact (List.append_assoc before [key] rest).symm
    · rw [if_neg hcq, if_neg fun hqc => hcq ⟨hqc.2.symm, hqc.1.symm⟩, List.append_nil]
  refine ⟨h.heads, ?_, h.known_assign ⟨⟨_, haccepted.1, rfl⟩, fun _ hdata => by cases hdata⟩, h.mail,
    h.releases⟩
  refine h.sessions (fun c' hc => Function.update_of_ne hc _ _) (fun c' hc q => ?_)
    (fun c' hc => vars_assign_of_ne hc) (fun _ _ _ _ _ hkept => hkept) ?_
  · exact (line_codes rest c' q).trans (if_neg fun hcq => hc hcq.1)
  · show Session st _ b c (Function.update net.phase c _ c)
    rw [Function.update_self]
    intro q
    refine (line_codes rest c q).trans ?_
    by_cases hq : q = head
    · subst hq
      rw [if_pos ⟨rfl, rfl⟩]
      exact haccepted.2
    · rw [if_neg fun hcq => hq hcq.2]
      exact hothers q hq

theorem get_keeps (hp : st.Proper net (.get c var)) (hphase : net.phase c = .idle) :
    Keeping codec st net b (.get c var) := by
  have hidle := h.session c
  rw [hphase] at hidle
  have hknown := h.known c var
  unfold Known at hknown
  cases hdata : (net.vars c var).data with
  | some data =>
    refine ⟨[.got c (net.vars c var).dataRetriever data], net, b,
      by simp only [step, hphase, hdata], h, Grows.refl b, List.forall_mem_singleton.mpr ?_,
      by exact .quiet rfl fun _ _ => rfl⟩
    cases hretriever : (net.vars c var).dataRetriever with
    | none =>
      rw [hretriever, hdata] at hknown
      cases hknown
    | some future =>
      rw [hretriever] at hknown
      exact hknown.2 data hdata
  | none =>
    obtain ⟨hc, hholds⟩ := hp
    have hkept := hholds hdata
    unfold CallCluster.Holds at hkept
    cases hretriever : (net.vars c var).dataRetriever with
    | none =>
      rw [hretriever] at hkept
      exact hkept.elim
    | some future =>
      obtain ⟨pid, key⟩ := future
      rw [hretriever] at hkept
      refine ⟨[], _, b, by simp only [step, hphase, hdata, hretriever]; rfl, ?_, Grows.refl b,
        List.forall_mem_nil _, by exact .quiet rfl fun _ _ => rfl⟩
      refine ⟨h.heads, ?_, h.known, h.mail_post trivial, h.releases_post rfl⟩
      refine h.sessions (fun c' hc => Function.update_of_ne hc _ _) (fun c' hc q => ?_)
        (fun _ _ => rfl) (fun _ _ _ _ _ hkept => hkept) ?_
      · exact (line_post c' q).trans (if_neg fun hcq => hc hcq.1)
      · show Session st _ b c (Function.update net.phase c _ c)
        rw [Function.update_self]
        refine ⟨⟨hc, hkept, hretriever⟩, ?_, fun q hq => ?_⟩
        · show AwaitsData _ _ (line (net.post c pid _) b c pid)
          rw [line_post, if_pos ⟨rfl, rfl⟩, hidle]
          exact .asked
        · exact (line_post c q).trans ((if_neg fun hcq => hq hcq.2).trans (hidle q))

theorem retrieve_keeps {data : Bytes} {rest : List Bytes}
    (hphase : net.phase c = .getting var pid key) (hdata : net.data pid c = data :: rest) :
    Keeping codec st net b (.retrieve c) := by
  have hsession := h.session c
  rw [hphase] at hsession
  obtain ⟨⟨-, -, hretriever⟩, hawaits, hothers⟩ := hsession
  have hregistered : (key, data) ∈ registrations (b pid).events ∧
      { line net b c pid with data := rest } = ({} : Line) := by
    generalize hl : line net b c pid = l at hawaits
    have hcome : l.data = data :: rest := by
      rw [← hl]
      exact hdata
    cases hawaits with
    | asked => cases hcome
    | parked => cases hcome
    | answered data' hmem =>
      cases hcome
      exact ⟨hmem, rfl⟩
  refine ⟨[.got c (net.vars c var).dataRetriever data], _, b, by simp only [step, hphase, hdata]; rfl,
    ?_, Grows.refl b, List.forall_mem_singleton.mpr ?_, by exact .quiet rfl fun _ _ => rfl⟩
  · have hknown : Known b { net.vars c var with data := some data } := by
      have hbefore := h.known c var
      unfold Known at hbefore ⊢
      rw [hretriever] at hbefore
      simp only [hretriever]
      refine ⟨hbefore.1, fun data' hd => ?_⟩
      cases hd
      exact hregistered.1
    refine ⟨h.heads, ?_, h.known_assign hknown, h.mail, h.releases⟩
    refine h.sessions (fun c' hc => Function.update_of_ne hc _ _) (fun c' hc q => ?_)
      (fun c' hc => vars_assign_of_ne hc) (fun _ _ _ _ _ hkept => hkept) ?_
    · exact (line_data rest c' q).trans (if_neg fun hcq => hc hcq.1)
    · show Session st _ b c (Function.update net.phase c _ c)
      rw [Function.update_self]
      intro q
      refine (line_data rest c q).trans ?_
      by_cases hq : q = pid
      · subst hq
        rw [if_pos ⟨rfl, rfl⟩]
        exact hregistered.2
      · rw [if_neg fun hcq => hq hcq.2]
        exact hothers q hq
  · rw [hretriever]
    exact hregistered.1

/-- A client that waits for nothing changes one of its futures. -/
theorem Balanced.assign (hphase : net.phase c = .idle) (hfuture : Known b future) :
    Balanced st (net.assign c var future) b := by
  refine ⟨h.heads, ?_, h.known_assign hfuture, h.mail, h.releases⟩
  refine h.sessions (fun _ _ => rfl) (fun _ _ _ => rfl) (fun c' hc => vars_assign_of_ne hc)
    (fun _ _ _ _ _ hkept => hkept) ?_
  have hidle := h.session c
  change Session st _ b c (net.phase c)
  rw [hphase] at hidle ⊢
  exact hidle

theorem copy_keeps (hphase : net.phase c = .idle) (dst src : Nat) :
    Keeping codec st net b (.copy c dst src) :=
  ⟨[], _, b, by simp only [step, hphase]; rfl, h.assign hphase (h.known c src),
    Grows.refl b, List.forall_mem_nil _, by exact .quiet rfl fun _ _ => rfl⟩

/-- A future without its data. -/
theorem Balanced.known_load (c : Int) (var : Nat) :
    Known b ⟨none, (net.vars c var).dataRetriever⟩ := by
  have hknown := h.known c var
  unfold Known at hknown ⊢
  cases hretriever : (net.vars c var).dataRetriever with
  | none => rfl
  | some future =>
    rw [hretriever] at hknown
    exact ⟨hknown.1, fun _ hdata => by cases hdata⟩

theorem resetData_keeps (hphase : net.phase c = .idle) (var : Nat) :
    Keeping codec st net b (.resetData c var) :=
  ⟨[], _, b, by simp only [step, hphase]; rfl, h.assign hphase (h.known_load c var),
    Grows.refl b, List.forall_mem_nil _, by exact .quiet rfl fun _ _ => rfl⟩

theorem share_keeps {c' : Int} (hphase : net.phase c = .idle) (hphase' : net.phase c' = .idle)
    (var var' : Nat) : Keeping codec st net b (.share c var c' var') :=
  ⟨[], _, b, by simp only [step, hphase, hphase']; rfl, h.assign hphase' (h.known_load c var),
    Grows.refl b, List.forall_mem_nil _, by exact .quiet rfl fun _ _ => rfl⟩

theorem release_keeps (hp : st.Proper net (.release c var)) (hphase : net.phase c = .idle) :
    Keeping codec st net b (.release c var) := by
  have hproper : CallCluster.Holds net c var _ := hp
  unfold CallCluster.Holds at hproper
  cases hretriever : (net.vars c var).dataRetriever with
  | none =>
    rw [hretriever] at hproper
    exact hproper.elim
  | some future =>
    obtain ⟨pid, key⟩ := future
    rw [hretriever] at hproper
    obtain ⟨hkept, hunread⟩ := hproper
    have hlines (c' q : Int) :
        line (net.post c pid (.releaseFuture key)) b c' q = line net b c' q := by
      rw [line_post]
      split_ifs
      · simp only [Line.post, callsIn, getsIn, List.filterMap_cons, List.filterMap_nil,
          List.append_nil]
      · rfl
    refine ⟨[], _, b, by simp only [step, hphase, hretriever]; rfl, ?_, Grows.refl b,
      List.forall_mem_nil _, by exact .quiet rfl fun _ _ => rfl⟩
    refine ⟨h.heads, ?_, h.known, h.mail_post trivial, fun q key' => ?_⟩
    · refine h.sessions (c := c) (fun _ _ => rfl) (fun c' _ q => hlines c' q) (fun _ _ => rfl) ?_ ?_
      · intro c' hc' pid' key' hgets hnot hmem
        rcases List.mem_append.mp hmem with hmem | hmem
        · exact hnot hmem
        · cases List.mem_singleton.mp hmem
          exact hunread c' hc' hgets
      · have hidle := h.session c
        change Session st _ b c (net.phase c)
        rw [hphase] at hidle ⊢
        exact fun q => (hlines c q).trans (hidle q)
    · have hstage := h.releases q key'
      show ReleaseStage ((q, key') ∈ net.released ++ [(pid, key)]) _
        fun c' => (releasesIn ((net.post c pid (.releaseFuture key)).mail c' q)).count key'
      by_cases hk : (q, key') = (pid, key)
      · obtain ⟨rfl, rfl⟩ := Prod.mk.inj hk
        rcases hstage.inv with ⟨-, hhistory, hcount⟩ | ⟨hmarked, -⟩ | ⟨hmarked, -⟩
        · have hnow : (fun c' => (releasesIn ((net.post c q (.releaseFuture key')).mail c' q)).count
              key') = Function.update (fun _ => 0) c 1 := by
            funext c'
            have hbefore := congrFun hcount c'
            rw [releasesIn_post, List.count_append, hbefore]
            by_cases hc : c' = c
            · subst hc
              simp [releasesIn]
            · simp [hc]
          rw [hhistory, hnow]
          exact .underway (List.mem_append_right _ List.mem_cons_self) c
        · exact absurd hmarked hkept
        · exact absurd hmarked hkept
      · have hmarked : ((q, key') ∈ net.released ++ [(pid, key)]) = ((q, key') ∈ net.released) := by
          simp only [List.mem_append, List.mem_singleton, hk, or_false]
        have hcount (c' : Int) : (releasesIn ((net.post c pid (.releaseFuture key)).mail c' q)).count
            key' = (releasesIn (net.mail c' q)).count key' := by
          rw [releasesIn_post, List.count_append]
          split_ifs with hcq
          · have hne : key ≠ key' := by
              rintro rfl
              exact hk (by rw [hcq.2])
            have hnone : (releasesIn [.releaseFuture key]).count key' = 0 :=
              List.count_eq_zero.mpr fun hmem => hne (List.mem_singleton.mp hmem).symm
            rw [hnone, Nat.add_zero]
          · rfl
        have hcounts := funext hcount
        rw [hmarked, hcounts]
        exact hstage

end Moves

end ActiveBsp.CallSessions
