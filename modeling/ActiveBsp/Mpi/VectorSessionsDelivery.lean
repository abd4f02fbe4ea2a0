import ActiveBsp.Mpi.VectorSessionsRun

/-!
# Messages of clients

A process takes the next message of a client. Whatever it is, the process can
handle it, and the books are kept.
-/
namespace ActiveBsp.VectorSessions

open Library Library.Buffer Library.Tiling ActorServer MPIActorCommunicator

set_option autoImplicit false

variable {codec : Codec} {st : Cluster} {net net' : VectorSessions} {b b' : Books} {c : Int}

section Moves

variable (h : Balanced st net b)

include h

omit h in
theorem repliesTo_resultPart (client : Int) (replies : List Bytes) :
    repliesTo client (replies.map (Output.resultPart c)) = if client = c then replies else [] := by
  rw [repliesTo, List.filterMap_map]
  by_cases hc : client = c
  · subst hc
    simp [Function.comp_def, replyTo]
  · have hne : ¬ c = client := Ne.symm hc
    simp [Function.comp_def, replyTo, hc, hne]

omit h in
theorem serve_owned {vault vault' : Vault} {msg : ActorMessage} {replies : List Bytes}
    {owner : Int → Option Int} (hserve : serve c vault msg = some (vault', replies))
    (howned : ∀ key data, vault key = some data → owner key = some c)
    (hmine : ∀ m, msg = .storeResult m → owner m.resId = some c) :
    ∀ key data, vault' key = some data → owner key = some c := by
  cases msg with
  | storeResult m =>
    simp only [serve] at hserve
    split_ifs at hserve
    cases Option.some.inj hserve
    intro key data hdata
    by_cases hk : key = m.resId
    · rw [hk]
      exact hmine m rfl
    · rw [PartialMap.set_of_ne _ _ hk] at hdata
      exact howned key data hdata
  | releaseResult k =>
    simp only [serve] at hserve
    split_ifs at hserve
    cases Option.some.inj hserve
    intro key data hdata
    by_cases hk : key = k
    · subst hk
      simp at hdata
    · rw [PartialMap.erase_of_ne _ hk] at hdata
      exact howned key data hdata
  | getResultParts m =>
    simp only [serve] at hserve
    split_ifs at hserve
    obtain ⟨_, -, hpair⟩ := Option.map_eq_some_iff.mp hserve
    cases hpair
    exact howned
  | distributeVector m =>
    cases Option.some.inj hserve
    exact howned
  | _ => cases hserve

omit h in
/-- A process has taken the next message of a client and answered it. -/
def answered (net : VectorSessions) (c pid : Int) (rest : List ActorMessage) (s : ActorServer)
    (dvs : List VectorDistribution) (replies : List Bytes) : VectorSessions :=
  { net with
    servers := Function.update net.servers pid s
    mail := Function.update net.mail c (Function.update (net.mail c) pid rest)
    vectors := fun q client => net.vectors q client ++ if q = pid ∧ client = c then dvs else []
    parts := fun q client => net.parts q client ++ if q = pid ∧ client = c then replies else [] }

section Answered

variable {pid : Int} {rest : List ActorMessage} {s : ActorServer} {dvs : List VectorDistribution}
  {replies : List Bytes}

omit h in
theorem mail_answered (c' q : Int) : (answered net c pid rest s dvs replies).mail c' q =
    if c' = c ∧ q = pid then rest else net.mail c' q := update_update net.mail c pid rest c' q

omit h in
theorem parts_answered (q c' : Int) : (answered net c pid rest s dvs replies).parts q c' =
    net.parts q c' ++ if q = pid ∧ c' = c then replies else [] := rfl

omit h in
theorem sameFor_answered {c' : Int} (hc : c' ≠ c) :
    SameFor net (answered net c pid rest s dvs replies) c' where
  mail q := by
    rw [mail_answered, if_neg fun hand => hc hand.1]
  vectors q := by
    show net.vectors q c' ++ _ = _
    rw [if_neg fun hand => hc hand.2, List.append_nil]
  parts q := by
    rw [parts_answered, if_neg fun hand => hc hand.2, List.append_nil]
  phase := rfl
  handles := rfl

/-- What has to be shown of a message that was taken. -/
theorem balanced_answered {msg : ActorMessage} (vault' : Vault) (owner' : Int → Int → Option Int)
    (hmail : net.mail c pid = msg :: rest)
    (hserves : ∀ q, Serves (st.tables q) (owner' q)
      (fun c' => if c' = c ∧ q = pid then vault' else b.vault c' q) (st.servers q)
      ((answered net c pid rest s dvs replies).servers q))
    (hlags : Lags (serve c) vault' rest (net.parts pid c ++ replies) (b.prompt c pid)
      (b.expected pid c))
    (hgrow : ∀ q key c', b.owner q key = some c' → owner' q key = some c')
    (howned : ∀ key data, vault' key = some data → owner' pid key = some c)
    (hunheld : ∀ q key c', owner' q key = some c' → st.tables q key = none)
    (hnew : ∀ head ∈ st.heads, ∀ q ∈ (st.servers head).pids, ∀ key c', owner' q key = some c' →
      ((answered net c pid rest s dvs replies).servers head).nextResultStoreLocalKey < key)
    (hle : s.nextResultStoreLocalKey ≤ (net.servers pid).nextResultStoreLocalKey)
    (hsession : ∀ b', SameBooks b b' c → b'.owner = owner' →
      Session st (answered net c pid rest s dvs replies) b' c (net.phase c)) :
    ∃ b', Balanced st (answered net c pid rest s dvs replies) b' := by
  refine ⟨{ b with
    owner := owner'
    vault := Function.update b.vault c (Function.update (b.vault c) pid vault') }, ?_⟩
  have hbooks : ∀ c', SameBooks b { b with
      owner := owner'
      vault := Function.update b.vault c (Function.update (b.vault c) pid vault') } c' :=
    fun _ => ⟨hgrow, fun _ => rfl, fun _ => rfl⟩
  constructor
  · intro q
    convert hserves q using 1
    funext c'
    exact update_update b.vault c pid vault' c' q
  · intro c' q
    show Lags _ (Function.update b.vault c (Function.update (b.vault c) pid vault') c' q) _ _ _ _
    rw [update_update, mail_answered, parts_answered]
    by_cases hcq : c' = c ∧ q = pid
    · obtain ⟨rfl, rfl⟩ := hcq
      simp only [and_self, if_true]
      exact hlags
    · have hqc : ¬ (q = pid ∧ c' = c) := fun hand => hcq hand.symm
      simp only [if_neg hcq, if_neg hqc, List.append_nil]
      exact h.lags c' q
  · intro c' q key data hdata
    change Function.update b.vault c (Function.update (b.vault c) pid vault') c' q key = some data
      at hdata
    rw [update_update] at hdata
    split_ifs at hdata with hcq
    · obtain ⟨rfl, rfl⟩ := hcq
      exact howned key data hdata
    · exact hgrow _ _ _ (h.vault_owned c' q key data hdata)
  · intro c' q key data hdata
    exact hgrow _ _ _ (h.prompt_owned c' q key data hdata)
  · intro c' q m hm
    rw [mail_answered] at hm
    split_ifs at hm with hcq
    · obtain ⟨rfl, rfl⟩ := hcq
      exact hgrow _ _ _ (h.mail_owned c' q m (by rw [hmail]; exact List.mem_cons_of_mem _ hm))
    · exact hgrow _ _ _ (h.mail_owned c' q m hm)
  · exact hunheld
  · exact hnew
  · intro head hhead
    by_cases hq : head = pid
    · subst hq
      rw [show (answered net c head rest s dvs replies).servers head = s from
        Function.update_self _ _ _]
      exact hle.trans (h.next_le head hhead)
    · rw [show (answered net c pid rest s dvs replies).servers head = net.servers head from
        Function.update_of_ne hq _ _]
      exact h.next_le head hhead
  · exact h.kept
  · exact h.names
  · exact h.usable
  · intro c'
    by_cases hc : c' = c
    · subst hc
      exact hsession _ (hbooks c') rfl
    · exact (h.session c').congr (sameFor_answered hc).session (hbooks c')

end Answered

theorem deliver_message_keeps {pid : Int} {msg : ActorMessage} {rest : List ActorMessage}
    (hmail : net.mail c pid = msg :: rest) (hnew : ∀ m, msg ≠ .distributeVector m) :
    Keeping codec st net (.deliver c pid) := by
  have hlags := h.lags c pid
  rw [hmail] at hlags
  obtain ⟨vault', replies, hserve, hlags'⟩ := hlags.take
  have hmine : ∀ m, msg = .storeResult m → b.owner pid m.resId = some c := by
    rintro m rfl
    exact h.mail_owned c pid m (by rw [hmail]; exact List.mem_cons_self)
  obtain ⟨s', hserver, hserves, hnext⟩ := (h.servers pid).handles codec (st.ready pid)
    (st.unasked pid) (h.vault_owned c pid) hmine hserve hnew
  have hvector : ∀ client, (replies.map (Output.resultPart c)).filterMap (vectorTo client) = [] := by
    intro client
    simp [List.filterMap_eq_nil_iff, vectorTo]
  have hstep : step codec (.deliver c pid) net =
      ([], .ok ((), answered net c pid rest s' [] replies)) := by
    simp only [step, hmail, hserver, hvector, repliesTo_resultPart, answered, ite_self, ite_and]
  have hbalanced : ∃ b', Balanced st (answered net c pid rest s' [] replies) b' := by
    apply balanced_answered h vault' b.owner hmail
    · intro q
      by_cases hq : q = pid
      · subst hq
        rw [show (answered net c q rest s' [] replies).servers q = s' from
          Function.update_self _ _ _]
        convert hserves using 1
        funext c'
        by_cases hc : c' = c
        · simp [hc]
        · simp [hc]
      · rw [show (answered net c pid rest s' [] replies).servers q = net.servers q from
          Function.update_of_ne hq _ _]
        simp only [hq, and_false, if_false]
        exact h.servers q
    · exact hlags'
    · exact fun _ _ _ howner => howner
    · exact serve_owned hserve (h.vault_owned c pid) hmine
    · exact h.unheld
    · intro head hhead q hq key c' howner
      have hold := h.owner_new head hhead q hq key c' howner
      by_cases he : head = pid
      · subst he
        rw [show (answered net c head rest s' [] replies).servers head = s' from
          Function.update_self _ _ _, hnext]
        exact hold
      · rw [show (answered net c pid rest s' [] replies).servers head = net.servers head from
          Function.update_of_ne he _ _]
        exact hold
    · exact hnext.le
    · intro b' hb' _
      apply (h.session c).congr _ hb'
      constructor
      · intro q
        rw [mail_answered]
        split_ifs with hcq
        · rw [hcq.2, hmail]
          cases msg with
          | distributeVector m => exact absurd rfl (hnew m)
          | _ => rfl
        · rfl
      · intro q
        show net.vectors q c ++ _ = _
        rw [ite_self, List.append_nil]
      · rfl
  obtain ⟨b', hb'⟩ := hbalanced
  exact ⟨_, _, b', hstep, hb', List.forall_mem_nil _⟩

omit h in
/-- The parts of a new distribution: their processes are those of the actor, their keys those that
the head gives next. -/
theorem mem_distribution {pids : List Int} {first : Int} {msg : DistributeVectorMessage}
    {part : VectorDistributionPart} (hu : first < 2 ^ 31) (hl : -2 ^ 31 ≤ first - pids.length)
    (hp : part ∈ (distribution pids first msg).parts) :
    part.pid ∈ pids ∧ first - pids.length < part.resid ∧ part.resid ≤ first := by
  obtain ⟨i, hi, rfl⟩ := List.mem_map.mp hp
  have hi := List.mem_range.mp hi
  refine ⟨?_, ?_⟩
  · show pids.getD i 0 ∈ pids
    have hpid : pids.getD i 0 = pids[i] := by simp [hi]
    rw [hpid]
    exact List.getElem_mem hi
  · have hkey : (distributedPart pids first msg i).resid = first - i :=
      KeyReuse.localKey_eq hu (by omega)
    rw [hkey]
    omega

omit h in
theorem names_distribution {pids : List Int} (hn : pids.Nodup) (first : Int)
    (msg : DistributeVectorMessage) (v : Bytes) :
    (names [⟨distribution pids first msg, v⟩]).Nodup := by
  apply List.Nodup.of_map Prod.fst
  have hpids : (names [⟨distribution pids first msg, v⟩]).map Prod.fst = pids := by
    unfold names distribution
    rw [List.flatMap_singleton, List.map_map, List.map_map]
    apply List.ext_getElem
    · simp
    · intro i h₁ h₂
      simp [distributedPart, h₂]
  rw [hpids]
  exact hn

/-- Who owns a key when client `c` has got the distribution. -/
def ownerWith (owner : Int → Int → Option Int) (c : Int) (dv : VectorDistribution) (q key : Int) :
    Option Int :=
  if ∃ part ∈ dv.parts, part.pid = q ∧ part.resid = key then some c else owner q key

omit h in
theorem ownerWith_of_mem {owner : Int → Int → Option Int} {dv : VectorDistribution}
    {part : VectorDistributionPart} (hp : part ∈ dv.parts) :
    ownerWith owner c dv part.pid part.resid = some c := if_pos ⟨part, hp, rfl, rfl⟩

omit h in
theorem ownerWith_inv {owner : Int → Int → Option Int} {dv : VectorDistribution} {q key c' : Int}
    (ho : ownerWith owner c dv q key = some c') :
    (c' = c ∧ ∃ part ∈ dv.parts, part.pid = q ∧ part.resid = key) ∨ owner q key = some c' := by
  unfold ownerWith at ho
  split_ifs at ho with hnew
  · exact .inl ⟨(Option.some.inj ho).symm, hnew⟩
  · exact .inr ho

/-- The client waits for the distribution that it has asked for. -/
theorem awaited {pid : Int} {msg : DistributeVectorMessage} {others : List DistributeVectorMessage}
    (hasked : distributions (net.mail c pid) = msg :: others) :
    ∃ v, net.phase c = .distributing pid v msg ∧
      (st.Outside c ∧ pid ∈ st.heads ∧ v.length = msg.n * msg.elemSize ∧ v.length < 2 ^ 31) ∧
      others = [] ∧ net.vectors pid c = [] ∧ (∀ q ≠ pid, NoVector net c q) ∧
      ∀ q, b.expected q c = [] := by
  have hsession := h.session c
  have hsome : ¬ NoVector net c pid := fun hno => by
    rw [NoVector, hasked] at hno
    cases hno.1
  cases hphase : net.phase c with
  | idle =>
    rw [hphase] at hsession
    exact absurd (hsession.1 pid) hsome
  | reading handle offset size buf =>
    rw [hphase] at hsession
    exact absurd (hsession.2.1 pid) hsome
  | distributing head v msg' =>
    rw [hphase] at hsession
    obtain ⟨hp, hawaits, hothers, hexpected⟩ := hsession
    by_cases hq : pid = head
    · subst hq
      rcases hawaits with ⟨hone, hnone⟩ | ⟨hnone, -⟩
      · rw [hasked] at hone
        obtain ⟨rfl, hrest⟩ := List.cons.inj hone
        exact ⟨v, rfl, hp, hrest, hnone, hothers, hexpected⟩
      · rw [hasked] at hnone
        cases hnone
    · exact absurd (hothers pid hq) hsome

theorem deliver_distribute_keeps {pid : Int} {msg : DistributeVectorMessage}
    {rest : List ActorMessage} (hproper : st.Proper net (.deliver c pid))
    (hmail : net.mail c pid = .distributeVector msg :: rest) :
    Keeping codec st net (.deliver c pid) := by
  have hlow : -2 ^ 31 ≤ (net.servers pid).nextResultStoreLocalKey -
      (st.servers pid).pids.length := hproper
  have hlags := h.lags c pid
  rw [hmail] at hlags
  obtain ⟨vault', replies, hserve, hlags'⟩ := hlags.take
  cases Option.some.inj hserve
  have hasked : distributions (net.mail c pid) = msg :: distributions rest := by
    rw [hmail]
    rfl
  obtain ⟨v, hphase, ⟨houtside, hhead, hsize, hsmall⟩, hrest, hvectors, hothers, hexpected⟩ :=
    awaited h hasked
  have hbound : (net.servers pid).nextResultStoreLocalKey < 2 ^ 31 :=
    (h.next_le pid hhead).trans_lt (st.small pid hhead)
  obtain ⟨s', hserver, hserves, hnext⟩ := (h.servers pid).distributes codec c msg (st.ready pid)
  generalize hdv : distribution (st.servers pid).pids (net.servers pid).nextResultStoreLocalKey msg =
    dv at hserver
  have hnext' : s'.nextResultStoreLocalKey = (net.servers pid).nextResultStoreLocalKey -
      (st.servers pid).pids.length := hnext.trans (KeyReuse.localKey_eq hbound hlow)
  have hkeys : ∀ part ∈ dv.parts, part.pid ∈ (st.servers pid).pids ∧
      s'.nextResultStoreLocalKey < part.resid ∧
      part.resid ≤ (net.servers pid).nextResultStoreLocalKey := by
    intro part hp
    rw [← hdv] at hp
    rw [hnext']
    exact mem_distribution hbound hlow hp
  have hunowned : ∀ part ∈ dv.parts, b.owner part.pid part.resid = none := by
    intro part hp
    obtain ⟨hpid, -, hle⟩ := hkeys part hp
    by_contra howner
    obtain ⟨c', hc'⟩ := Option.ne_none_iff_exists'.mp howner
    exact absurd (h.owner_new pid hhead _ hpid _ _ hc') (by omega)
  have hgrow : ∀ q key c', b.owner q key = some c' →
      ownerWith b.owner c dv q key = some c' := by
    intro q key c' hc'
    unfold ownerWith
    rw [if_neg]
    · exact hc'
    · rintro ⟨part, hp, rfl, rfl⟩
      rw [hunowned part hp] at hc'
      cases hc'
  have hfresh : ∀ q key, ownerWith b.owner c dv q key = b.owner q key ∨
      b.owner q key = none ∧ st.tables q key = none ∧ ∀ c', b.vault c' q key = none := by
    intro q key
    by_cases hpart : ∃ part ∈ dv.parts, part.pid = q ∧ part.resid = key
    · right
      obtain ⟨part, hp, rfl, rfl⟩ := hpart
      obtain ⟨hpid, -, hle⟩ := hkeys part hp
      refine ⟨hunowned part hp, st.fresh pid hhead _ hpid _ (hle.trans (h.next_le pid hhead)), ?_⟩
      intro c'
      rw [Option.eq_none_iff_forall_ne_some]
      intro data hdata
      have howner := h.vault_owned c' _ _ _ hdata
      rw [hunowned part hp] at howner
      cases howner
    · exact .inl (if_neg hpart)
  have hstep : step codec (.deliver c pid) net =
      ([], .ok ((), answered net c pid rest s' [dv] [])) := by
    have hone : ∀ client, [Output.distrVector c dv].filterMap (vectorTo client) =
        if client = c then [dv] else [] := by
      intro client
      by_cases hc : client = c
      · simp [vectorTo, hc]
      · simp [vectorTo, hc, Ne.symm hc]
    have hnone : ∀ client, repliesTo client [Output.distrVector c dv] = [] := fun _ => rfl
    simp only [step, hmail, hserver, hone, hnone, answered, ite_self, ite_and]
  have hbalanced : ∃ b', Balanced st (answered net c pid rest s' [dv] []) b' := by
    apply balanced_answered h (b.vault c pid) (ownerWith b.owner c dv) hmail
    · intro q
      have hsame : (fun c' => if c' = c ∧ q = pid then b.vault c pid else b.vault c' q) =
          fun c' => b.vault c' q := by
        funext c'
        split_ifs with hcq
        · rw [hcq.1, hcq.2]
        · rfl
      rw [hsame]
      by_cases hq : q = pid
      · subst hq
        rw [show (answered net c q rest s' [dv] []).servers q = s' from Function.update_self _ _ _]
        exact hserves.own (hfresh q)
      · rw [show (answered net c pid rest s' [dv] []).servers q = net.servers q from
          Function.update_of_ne hq _ _]
        exact (h.servers q).own (hfresh q)
    · exact hlags'
    · exact hgrow
    · exact fun key data hdata => hgrow _ _ _ (h.vault_owned c pid key data hdata)
    · intro q key c' howner
      rcases hfresh q key with heq | ⟨-, htable, -⟩
      · exact h.unheld q key c' (heq.symm.trans howner)
      · exact htable
    · intro head hhead' q hq key c' howner
      rcases ownerWith_inv howner with ⟨-, part, hp, rfl, rfl⟩ | hold
      · obtain ⟨hpid, hlt, -⟩ := hkeys part hp
        rw [st.apart head hhead' pid hhead _ hq hpid]
        rw [show (answered net c pid rest s' [dv] []).servers pid = s' from
          Function.update_self _ _ _]
        exact hlt
      · have hkey := h.owner_new head hhead' q hq key c' hold
        by_cases he : head = pid
        · subst he
          rw [show (answered net c head rest s' [dv] []).servers head = s' from
            Function.update_self _ _ _]
          omega
        · rw [show (answered net c pid rest s' [dv] []).servers head = net.servers head from
            Function.update_of_ne he _ _]
          exact hkey
    · omega
    · intro b' hb' hb'owner
      rw [hphase]
      have hfew : (st.servers pid).pids.length < 2 ^ 31 := by
        have hbuffer := st.few pid hhead
        omega
      have hnew : New b' c v dv := by
        constructor
        · constructor
          · exact hsmall
          · show Tiles dv.spans v.length
            rw [hsize, ← hdv]
            exact distribution_tiles (hsize ▸ hsmall) hfew
              (List.length_pos_iff.mpr (st.nonempty pid hhead))
          · intro part hp hpc
            exact houtside pid hhead (hpc ▸ (hkeys part hp).1)
        · rw [← hdv]
          exact names_distribution (st.nodup pid hhead) _ msg v
        · intro part hp
          rw [hb'owner]
          exact ownerWith_of_mem hp
        · intro part hp
          rw [hb'.prompt, Option.eq_none_iff_forall_ne_some]
          intro data hdata
          have howner := h.prompt_owned c _ _ _ hdata
          rw [hunowned part hp] at howner
          cases howner
      refine ⟨⟨houtside, hhead, hsize, hsmall⟩, .inr ⟨?_, dv, ?_, hnew⟩, ?_, fun q => ?_⟩
      · rw [mail_answered, if_pos ⟨rfl, rfl⟩]
        exact hrest
      · show net.vectors pid c ++ (if pid = pid ∧ c = c then [dv] else []) = [dv]
        rw [hvectors, if_pos ⟨rfl, rfl⟩, List.nil_append]
      · intro q hq
        refine ⟨?_, ?_⟩
        · rw [mail_answered, if_neg fun hand => hq hand.2]
          exact (hothers q hq).1
        · show net.vectors q c ++ _ = _
          rw [if_neg fun hand => hq hand.1, List.append_nil]
          exact (hothers q hq).2
      · rw [hb'.expected, hexpected q]
  obtain ⟨b', hb'⟩ := hbalanced
  exact ⟨_, _, b', hstep, hb', List.forall_mem_nil _⟩

theorem deliver_keeps {pid : Int} {msg : ActorMessage} {rest : List ActorMessage}
    (hproper : st.Proper net (.deliver c pid)) (hmail : net.mail c pid = msg :: rest) :
    Keeping codec st net (.deliver c pid) := by
  by_cases hnew : ∃ m, msg = .distributeVector m
  · obtain ⟨m, rfl⟩ := hnew
    exact deliver_distribute_keeps h hproper hmail
  · exact deliver_message_keeps h hmail fun m hm => hnew ⟨m, hm⟩

end Moves

end ActiveBsp.VectorSessions
