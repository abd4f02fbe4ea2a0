import ActiveBsp.Management.PrefetchBookkeeping

/-!
# The end of a prefetch

Every move of a prefetch is made exactly once, in whatever order: each process
prepares its part once, is asked for its pieces once, sends and takes each of
them once. So every run ends, and it does not end before all of them are made.
-/
namespace ActiveBsp.Network

open Library ActorServer

set_option autoImplicit false

variable {codec : Codec} {net net' : Network} {out : List Output}

/-- No process has anything to do. -/
def Quiet (codec : Codec) (net : Network) : Prop :=
  ∀ move, (step codec move net).2.toOption = none

theorem not_quiet {move : Move} (h : step codec move net = (out, .ok ((), net'))) :
    ¬ Quiet codec net := by
  intro hquiet
  have hnone := hquiet move
  rw [h] at hnone
  cases hnone

theorem handle_inv {pid : Int} {input : Input}
    (h : handle codec pid input net = (out, .ok ((), net'))) :
    ∃ s', ActorServer.step codec input (net.servers pid) = (out, .ok ((), s')) ∧
      net' = net.post pid input s' out := by
  unfold handle at h
  rcases hs : ActorServer.step codec input (net.servers pid) with ⟨out', e | ⟨⟨⟩, s'⟩⟩
  · rw [hs] at h
    cases h
  · rw [hs] at h
    dsimp only at h
    split_ifs at h
    · cases h
      exact ⟨s', rfl, rfl⟩
    · cases h

theorem deliver_inv {a b : Int} (h : step codec (.deliver a b) net = (out, .ok ((), net'))) :
    ∃ msg rest s', net.mail a b = msg :: rest ∧
      ActorServer.step codec (.message a msg) (net.servers b) = (out, .ok ((), s')) ∧
      net' = (net.take a b msg rest).post b (.message a msg) s' out := by
  cases hm : net.mail a b with
  | nil =>
    simp only [step, hm] at h
    cases h
  | cons msg rest =>
    simp only [step, hm] at h
    obtain ⟨s', hs, rfl⟩ := handle_inv h
    exact ⟨msg, rest, s', rfl, hs, rfl⟩

theorem gather_inv {b : Int} (h : step codec (.gather b) net = (out, .ok ((), net'))) :
    ∃ (net₁ : Network) (keys : List Int) (s' : ActorServer), net₁.taken = net.taken ∧
      net₁.fetched = net.fetched ∧
      net₁.gatherings = net.gatherings ++ [b] ∧
      ActorServer.step codec (.gatheredKeys keys) (net.servers b) = (out, .ok ((), s')) ∧
      net' = net₁.post b (.gatheredKeys keys) s' out := by
  simp only [step] at h
  split at h
  · cases h
  · obtain ⟨s', hs, rfl⟩ := handle_inv h
    exact ⟨{ net with
      gathered := fun q =>
        if q ∈ (net.servers b).pids.tail then (net.gathered q).tail else net.gathered q
      gatherings := net.gatherings ++ [b] }, _, s', rfl, rfl, rfl, hs, rfl⟩

theorem broadcast_inv {b : Int} (h : step codec (.broadcast b) net = (out, .ok ((), net'))) :
    ∃ (net₁ : Network) (dv : VectorDistribution) (s' : ActorServer), net₁.taken = net.taken ∧
      net₁.fetched = net.fetched ∧
      net₁.gatherings = net.gatherings ∧
      ActorServer.step codec (.broadcastVd dv) (net.servers b) = (out, .ok ((), s')) ∧
      net' = net₁.post b (.broadcastVd dv) s' out := by
  cases hb : net.broadcasts b with
  | nil =>
    simp only [step, hb] at h
    cases h
  | cons dv rest =>
    simp only [step, hb] at h
    obtain ⟨s', hs, rfl⟩ := handle_inv h
    exact ⟨{ net with broadcasts := Function.update net.broadcasts b rest }, dv, s', rfl, rfl, rfl,
      hs, rfl⟩

theorem piecesTaken_post_of_taken {net₁ : Network} {b : Int} {input : Input} {s' : ActorServer}
    (htaken : net₁.taken = net.taken) (q : Int) :
    (net₁.post b input s' out).piecesTaken q = net.piecesTaken q := by
  show (net₁.taken q).filterMap pieceOf = _
  rw [htaken]
  rfl

end ActiveBsp.Network

namespace ActiveBsp.Prefetch

open Library Library.Buffer Library.Tiling ActorServer MPIActorCommunicator Network
  Serialization Serialization.ArchiveFormat

set_option autoImplicit false

/-- How many of the processes have the mark. -/
def marked (f : Int → Bool) (qs : List Int) : Nat := (qs.map fun q => (f q).toNat).sum

theorem marked_succ {f g : Int → Bool} {qs : List Int} {b : Int} (hqs : qs.Nodup) (hb : b ∈ qs)
    (hf : f b = false) (hg : g b = true) (hrest : ∀ q ≠ b, g q = f q) :
    marked g qs = marked f qs + 1 := by
  apply Lists.sum_map_succ hqs hb
  · rw [hf, hg]
    rfl
  · intro q hq
    rw [hrest q hq]

theorem marked_congr {f g : Int → Bool} {qs : List Int} (h : ∀ q ∈ qs, g q = f q) :
    marked g qs = marked f qs := by
  unfold marked
  congr 1
  exact List.map_congr_left fun q hq => by rw [h q hq]

theorem marked_le (f : Int → Bool) (qs : List Int) : marked f qs ≤ qs.length := by
  induction qs with
  | nil => exact Nat.le_refl 0
  | cons q qs ih =>
    have hle := (f q).toNat_le
    simp only [marked, List.map_cons, List.sum_cons, List.length_cons] at ih ⊢
    omega

theorem marked_all {f : Int → Bool} {qs : List Int} (h : ∀ q ∈ qs, f q = true) :
    marked f qs = qs.length := by
  induction qs with
  | nil => rfl
  | cons q qs ih =>
    have hrest := ih fun x hx => h x (List.mem_cons_of_mem _ hx)
    simp only [marked, List.map_cons, List.sum_cons, List.length_cons] at hrest ⊢
    rw [h q List.mem_cons_self, hrest]
    exact Nat.add_comm _ _

namespace Plan

variable (p : Plan)

/-- The pieces that are sent for the part of process `q`. -/
def piecesOf (q : Int) : List ActorMessage := p.sources.flatMap fun src => p.piecesTo src q

/-- One move for each part to prepare, for the keys of all of them, for the future of the vector
unless it is registered already, for each process to ask, for each slave that waits for the
distribution, and for each piece. -/
def moveCount : Nat :=
  p.targets.length + 1 + (!p.registered).toNat + p.sources.length + p.sourceSlaves.length +
    (p.targets.map fun q => (p.piecesOf q).length).sum

/-- How many of them have been made. -/
def movesMade (g : Progress) (net : Network) : Nat :=
  marked g.prepared p.targets + g.gathered.toNat + (g.registered && !p.registered).toNat +
    marked g.asked p.sources + marked g.ran p.sourceSlaves +
    (p.targets.map fun q => (net.piecesTaken q).length).sum

/-- The head fetches as soon as it has been asked and the future is there. -/
def Prompt (g : Progress) : Prop :=
  g.registered = true → g.asked p.source = true → g.ran p.source = true

end Plan

namespace Start

variable {codec : Codec} (st : Start codec) {g : Progress} {net net' : Network} {out : List Output}

theorem prompt_initial : st.Prompt st.initial := by
  intro _ ha
  cases ha

theorem movesMade_initial : st.movesMade st.initial st.network = 0 := by
  have hzero : ∀ qs : List Int, marked (fun _ => false) qs = 0 := by
    intro qs
    simp [marked]
  simp [Plan.movesMade, Plan.initial, Plan.network, Network.piecesTaken, hzero]

theorem taking_prepared {b : Int} {msg : ActorMessage} (hmsg : msg ≠ .prefetch st.prefetch) :
    (st.taking g b msg out).prepared = g.prepared := by
  funext q
  simp [taking, hmsg]

theorem taking_asked {b : Int} {msg : ActorMessage} (hmsg : msg ≠ .fetch st.fetch) :
    (st.taking g b msg out).asked = g.asked := by
  funext q
  simp [taking, hmsg]

omit st in
theorem receiving_of_ok {a b : Int} (hstep : Network.step codec (.deliver a b) net = (out, .ok ((), net'))) :
    (net.servers b).phase = .receiving := by
  by_contra hphase
  rw [deliver_of_busy hphase] at hstep
  cases hstep

section Step

variable (h : st.Follows codec g net)

include h

theorem follows_of_ok {move : Move} (hstep : Network.step codec move net = (out, .ok ((), net'))) :
    st.Follows codec (st.progress net') net' := by
  rcases st.move_advances move h with ⟨out', net₁, g', hstep', h'⟩ | hblocked
  · rw [hstep] at hstep'
    cases hstep'
    rw [h'.progress_eq]
    exact h'
  · rw [hstep] at hblocked
    cases hblocked

/-- A slave that takes a message does not go through the loop of `fetchDv`. -/
theorem slave_waits {a b : Int} {msg : ActorMessage} {rest : List ActorMessage} {s' : ActorServer}
    (hmail : net.mail a b = msg :: rest) (hphase : (net.servers b).phase = .receiving)
    (hstep : ActorServer.step codec (.message a msg) (net.servers b) = (out, .ok ((), s')))
    (ho : st.Ordered (st.taking g b msg out)) (hb : b ∈ st.sourceSlaves) :
    (st.taking g b msg out).ran b = g.ran b := by
  by_cases hran : g.ran b = true
  · simp [taking, hran]
  have hran : g.ran b = false := by simpa using hran
  have hasked : g.asked b = false := by
    by_contra ha
    have ha : g.asked b = true := by simpa using ha
    rw [(h.servers b).phase_eq, Plan.phaseOf, if_neg fun hc => st.ne_target_of_source hb hc.1,
      if_pos ⟨hb, ha, hran⟩] at hphase
    cases hphase
  rw [hran]
  by_cases hmsg : msg = .fetch st.fetch
  · subst hmsg
    obtain ⟨s₁, hsilent, -⟩ := st.fetch_at_slave (h.servers b) hphase hb hran a
    rw [hstep] at hsilent
    cases hsilent
    simp [taking, hran]
  · by_contra hnew
    have hasked' := ho.ran_asked b (by simpa using hnew)
    simp [taking, hasked, hmsg] at hasked'

/-- The head of the source actor goes through the loop as soon as it can. -/
theorem prompt_taking {a b : Int} {msg : ActorMessage} {rest : List ActorMessage}
    {s' : ActorServer} (hp : st.Prompt g) (hmail : net.mail a b = msg :: rest)
    (hphase : (net.servers b).phase = .receiving)
    (hstep : ActorServer.step codec (.message a msg) (net.servers b) = (out, .ok ((), s'))) :
    st.Prompt (st.taking g b msg out) := by
  have hm : msg ∈ net.mail a b := by
    rw [hmail]
    exact List.mem_cons_self
  intro hreg hasked
  by_cases hregister : b = st.source ∧ msg = .registerFutureData st.futureKey st.future
  · obtain ⟨rfl, rfl⟩ := hregister
    have ha : g.asked st.source = true := by simpa [taking] using hasked
    obtain ⟨-, hr⟩ := st.not_registered h hm
    have hran : g.ran st.source = false := by
      by_contra hran
      rw [h.ordered.ran_registered _ (by simpa using hran)] at hr
      cases hr
    obtain ⟨s₁, pids, hsent, -⟩ := st.awaited_register_at_head st.loads (h.servers st.source) hphase
      (h.ordered.prepared_mem _) hr ha hran a
    rw [hstep] at hsent
    cases hsent
    simp [taking, List.filterMap_append, st.headSends_vdOf]
  by_cases hfetch : b = st.source ∧ msg = .fetch st.fetch
  · obtain ⟨rfl, rfl⟩ := hfetch
    have hr : g.registered = true := by simpa [taking] using hreg
    obtain ⟨ha, -, -, -⟩ := st.fetch_meets h hm
    obtain ⟨hsent, -⟩ := st.fetch_at_head st.loads (h.servers st.source) hphase
      (h.ordered.prepared_mem _) hr ha a
    rw [hstep] at hsent
    cases hsent
    simp [taking, st.headSends_vdOf]
  · have hr : g.registered = true := by simpa [taking, hregister] using hreg
    have hne : ¬ (st.source = b ∧ msg = .fetch st.fetch) := fun hc => hfetch ⟨hc.1.symm, hc.2⟩
    have ha : g.asked st.source = true := by simpa [taking, hne] using hasked
    simp [taking, hp hr ha]

/-- A message that a process takes is one move. -/
theorem counts_deliver {a b : Int}
    (hstep : Network.step codec (.deliver a b) net = (out, .ok ((), net'))) :
    st.movesMade (st.progress net') net' = st.movesMade g net + 1 := by
  have hphase := receiving_of_ok hstep
  have ho := (st.follows_of_ok h hstep).ordered
  obtain ⟨msg, rest, s', hmail, hserver, rfl⟩ := deliver_inv hstep
  have hm : msg ∈ net.mail a b := by
    rw [hmail]
    exact List.mem_cons_self
  rw [st.progress_take h.progress_eq] at ho ⊢
  have hslave : marked (st.taking g b msg out).ran st.sourceSlaves = marked g.ran st.sourceSlaves := by
    apply marked_congr
    intro q hq
    by_cases hqb : q = b
    · subst hqb
      exact st.slave_waits h hmail hphase hserver ho hq
    · simp [taking, hqb]
  have hpieces : ∀ q, ((net.take a b msg rest).post b (.message a msg) s' out).piecesTaken q =
      net.piecesTaken q ++ if q = b then (pieceOf (a, msg)).toList else [] := by
    intro q
    have htake : (net.take a b msg rest).piecesTaken q = _ := Network.piecesTaken_take
    exact htake
  unfold Plan.movesMade
  rw [hslave]
  simp only [hpieces]
  rcases st.mem_sent.mp (st.mem_sent_of_mail h hm) with ⟨⟨-, rfl, hnot⟩, rfl⟩ | ⟨⟨-, hb⟩, rfl⟩ |
    ⟨-, rfl⟩ | ⟨-, hpiece⟩
  · obtain ⟨-, hr⟩ := st.not_registered h hm
    rw [st.taking_prepared (by simp), st.taking_asked (by simp)]
    simp [taking, pieceOf, hr, hnot]
    omega
  · have hmem : b ∈ st.targets := by
      rcases hb with rfl | ⟨hb, -⟩
      · exact st.target_mem
      · exact List.mem_cons_of_mem _ hb
    have hmark : marked (st.taking g b (.prefetch st.prefetch) out).prepared st.targets =
        marked g.prepared st.targets + 1 := by
      apply marked_succ st.targets_nodup hmem (st.not_prepared h hm)
      · simp [taking]
      · intro q hq
        simp [taking, hq]
    rw [hmark, st.taking_asked (by simp)]
    simp [taking, pieceOf]
    omega
  · obtain ⟨hasked, -, -, hb⟩ := st.fetch_meets h hm
    have hmem : b ∈ st.sources := by
      rcases hb with rfl | ⟨hb, -⟩
      · exact st.source_mem
      · exact List.mem_cons_of_mem _ hb
    have hmark : marked (st.taking g b (.fetch st.fetch) out).asked st.sources =
        marked g.asked st.sources + 1 := by
      apply marked_succ st.sources_nodup hmem hasked
      · simp [taking]
      · intro q hq
        simp [taking, hq]
    rw [hmark, st.taking_prepared (by simp)]
    simp [taking, pieceOf]
    omega
  · obtain ⟨hmem, piece, rfl⟩ := st.mem_piecesTo hpiece
    have hsum : (st.targets.map fun q => (net.piecesTaken q ++
        if q = b then (pieceOf (a, .storeResultPart piece)).toList else []).length).sum =
          (st.targets.map fun q => (net.piecesTaken q).length).sum + 1 := by
      apply Lists.sum_map_succ st.targets_nodup hmem
      · simp [pieceOf]
      · intro q hq
        simp [hq]
    rw [hsum, st.taking_prepared (by simp), st.taking_asked (by simp)]
    simp [taking]
    omega

/-- What is recorded when a wait ends. -/
theorem progress_resume {net₁ : Network} (b : Int) (input : Input) (s' : ActorServer)
    (sent : List Output) (htaken : net₁.taken = net.taken) (hfetched : net₁.fetched = net.fetched) :
    (st.progress (net₁.post b input s' sent)).prepared = g.prepared ∧
      (st.progress (net₁.post b input s' sent)).asked = g.asked ∧
      (st.progress (net₁.post b input s' sent)).registered = g.registered ∧
      ∀ q, (st.progress (net₁.post b input s' sent)).ran q =
        (g.ran q || decide (q = b ∧ runsFetch input sent = true)) := by
  rw [← h.progress_eq]
  have hmessages : ∀ q, (net₁.post b input s' sent).messagesTaken q = net.messagesTaken q := by
    intro q
    show (net₁.taken q).map Prod.snd = _
    rw [htaken]
    rfl
  refine ⟨?_, ?_, ?_, ?_⟩
  · simp [Plan.progress, hmessages]
  · simp [Plan.progress, hmessages]
  · simp [Plan.progress, hmessages]
  · intro q
    simp only [Plan.progress, Network.post, hfetched]
    by_cases hrun : runsFetch input sent = true
    · simp [hrun, Bool.decide_or]
    · simp [hrun]

/-- The wait for the keys ends once. -/
theorem counts_gather {b : Int} (hp : st.Prompt g)
    (hstep : Network.step codec (.gather b) net = (out, .ok ((), net'))) :
    st.Prompt (st.progress net') ∧
      st.movesMade (st.progress net') net' = st.movesMade g net + 1 := by
  obtain ⟨net₁, keys, s', htaken, hfetched, hgatherings, hserver, rfl⟩ := gather_inv hstep
  have hphase : ∃ prefetch, (net.servers b).phase = .gatheringKeys prefetch := by
    by_contra hnone
    rw [step_gatheredKeys_of_idle fun prefetch hph => hnone ⟨prefetch, hph⟩] at hserver
    cases hserver
  obtain ⟨rfl, -, hg⟩ : b = st.target ∧ g.prepared b = true ∧ g.gathered = false := by
    obtain ⟨prefetch, hph⟩ := hphase
    rw [(h.servers b).phase_eq, Plan.phaseOf] at hph
    split_ifs at hph with hw
    exact hw
  obtain ⟨hprepared, hasked, hregistered, hran⟩ :=
    st.progress_resume h st.target (.gatheredKeys keys) s' out htaken hfetched
  have hgathered : (st.progress (net₁.post st.target (.gatheredKeys keys) s' out)).gathered = true := by
    simp [Plan.progress, Network.post, hgatherings]
  constructor
  · intro hreg ha
    rw [hregistered] at hreg
    rw [hasked] at ha
    rw [hran, hp hreg ha]
    rfl
  · unfold Plan.movesMade
    have hslave : marked (st.progress (net₁.post st.target (.gatheredKeys keys) s' out)).ran
        st.sourceSlaves = marked g.ran st.sourceSlaves := by
      apply marked_congr
      intro q hq
      rw [hran]
      simp [st.ne_target_of_source hq]
    simp only [hprepared, hasked, hregistered, hgathered, hslave, hg,
      piecesTaken_post_of_taken htaken, Bool.toNat_true, Bool.toNat_false]
    omega

/-- A slave goes through the loop of `fetchDv` once. -/
theorem counts_broadcast {b : Int} (hp : st.Prompt g)
    (hstep : Network.step codec (.broadcast b) net = (out, .ok ((), net'))) :
    st.Prompt (st.progress net') ∧
      st.movesMade (st.progress net') net' = st.movesMade g net + 1 := by
  obtain ⟨net₁, dv, s', htaken, hfetched, hgatherings, hserver, rfl⟩ := broadcast_inv hstep
  have hphase : ∃ msg, (net.servers b).phase = .awaitingVd msg := by
    by_contra hnone
    rw [step_broadcastVd_of_idle fun msg hph => hnone ⟨msg, hph⟩] at hserver
    cases hserver
  obtain ⟨hb, -, hrun⟩ : b ∈ st.sourceSlaves ∧ g.asked b = true ∧ g.ran b = false := by
    obtain ⟨msg, hph⟩ := hphase
    rw [(h.servers b).phase_eq, Plan.phaseOf] at hph
    split_ifs at hph with _ hw
    exact hw
  obtain ⟨hprepared, hasked, hregistered, hran⟩ :=
    st.progress_resume h b (.broadcastVd dv) s' out htaken hfetched
  have hgathered : (st.progress (net₁.post b (.broadcastVd dv) s' out)).gathered = g.gathered := by
    rw [← h.progress_eq]
    simp [Plan.progress, Network.post, hgatherings]
  constructor
  · intro hreg ha
    rw [hregistered] at hreg
    rw [hasked] at ha
    rw [hran, hp hreg ha]
    rfl
  · unfold Plan.movesMade
    have hslave : marked (st.progress (net₁.post b (.broadcastVd dv) s' out)).ran
        st.sourceSlaves = marked g.ran st.sourceSlaves + 1 := by
      apply marked_succ (List.nodup_cons.mp st.sources_nodup).2 hb hrun
      · rw [hran]
        simp [runsFetch]
      · intro q hq
        rw [hran]
        simp [hq]
    simp only [hprepared, hasked, hregistered, hgathered, hslave, piecesTaken_post_of_taken htaken]
    omega

/-- Every move that succeeds is one of those that have to be made. -/
theorem counts {move : Move} (hp : st.Prompt g)
    (hstep : Network.step codec move net = (out, .ok ((), net'))) :
    st.Prompt (st.progress net') ∧
      st.movesMade (st.progress net') net' = st.movesMade g net + 1 := by
  cases move with
  | deliver a b =>
    refine ⟨?_, st.counts_deliver h hstep⟩
    have hphase := receiving_of_ok hstep
    obtain ⟨msg, rest, s', hmail, hserver, rfl⟩ := deliver_inv hstep
    rw [st.progress_take h.progress_eq]
    exact st.prompt_taking h hp hmail hphase hserver
  | gather b => exact st.counts_gather h hp hstep
  | broadcast b => exact st.counts_broadcast h hp hstep

omit h in
theorem length_piecesOf {i : Nat} (hi : i < st.targets.length) :
    (st.piecesOf (st.fetch.pid i)).length = (st.sourceActor.piecesFor i).length := by
  have howned : ∀ part ∈ st.sourceActor.meeting i, part.pid ∈ st.sources :=
    fun part hp => st.owned part (List.mem_filter.mp hp).1
  have hperm := Lists.flatMap_filter_perm VectorDistributionPart.pid st.sources_nodup howned
  rw [Source.piecesFor, List.length_map, ← hperm.length_eq, Plan.piecesOf, List.length_flatMap,
    List.length_flatMap]
  congr 1
  apply List.map_congr_left
  intro q hq
  rw [st.piecesTo_eq hq hi, List.length_map]

theorem pieces_le {q : Int} (hq : q ∈ st.targets) :
    (net.piecesTaken q).length ≤ (st.piecesOf q).length := by
  have hi : st.targets.idxOf q < st.targets.length := List.idxOf_lt_length_of_mem hq
  obtain ⟨rest, hperm⟩ := st.pieces_taken h hi
  have hlen := hperm.length_eq
  rw [← st.length_piecesOf hi, st.pid_idxOf hq, List.length_append] at hlen
  omega

/-- No more moves are made than there are. -/
theorem movesMade_le : st.movesMade g net ≤ st.moveCount := by
  have hprepared := marked_le g.prepared st.targets
  have hgathered := g.gathered.toNat_le
  have hregistered : (g.registered && !st.registered).toNat ≤ (!st.registered).toNat :=
    Bool.toNat_le_toNat (Bool.and_le_right _ _)
  have hasked := marked_le g.asked st.sources
  have hran := marked_le g.ran st.sourceSlaves
  have hpieces : (st.targets.map fun q => (net.piecesTaken q).length).sum ≤
      (st.targets.map fun q => (st.piecesOf q).length).sum :=
    List.sum_le_sum fun q hq => st.pieces_le h hq
  unfold Plan.movesMade Plan.moveCount
  omega

/-- When every source process has sent its pieces and none is under way, all have been taken. -/
theorem all_taken (hran : ∀ q ∈ st.sources, g.ran q = true) (hmail : ∀ x y, net.mail x y = [])
    {i : Nat} (hi : i < st.targets.length) :
    (net.piecesTaken (st.fetch.pid i)).Perm (st.sourceActor.piecesFor i) := by
  obtain ⟨rest, hperm⟩ := st.pieces_taken h hi
  have hrest : rest = [] := by
    rw [List.eq_nil_iff_forall_not_mem]
    rintro ⟨src, piece⟩ hin
    obtain ⟨part, hpart, he⟩ := List.mem_map.mp (hperm.mem_iff.mpr (List.mem_append_right _ hin))
    have hsrc : src ∈ st.sources := by
      have howned := st.owned part (List.mem_filter.mp hpart).1
      rwa [show part.pid = src from congrArg Prod.fst he] at howned
    refine (st.rest_count h hi hperm hsrc piece).mpr (fun _ => ⟨?_, ?_⟩) hin
    · exact (st.ran_iff h).mp (hran src hsrc)
    · rw [hmail]
      exact List.not_mem_nil
  rw [hrest, List.append_nil] at hperm
  exact hperm.symm

section Quiet

variable (hquiet : Quiet codec net)

include hquiet

/-- A process that takes messages has none. -/
theorem mail_nil_of_quiet {b : Int} (hphase : (net.servers b).phase = .receiving) (a : Int) :
    net.mail a b = [] := by
  cases hmail : net.mail a b with
  | nil => rfl
  | cons msg rest =>
    obtain ⟨out, net', g', hstep, -⟩ := st.deliver_advances h hmail hphase
    exact absurd hquiet (not_quiet hstep)

/-- What was sent to a process that takes messages has been taken. -/
theorem taken_of_quiet {a b : Int} {msg : ActorMessage} (hphase : (net.servers b).phase = .receiving)
    (hsent : msg ∈ st.sent g a b) : msg ∈ net.messagesTaken b := by
  have hledger := h.ledger a b
  rw [st.mail_nil_of_quiet h hquiet hphase a, List.append_nil] at hledger
  exact Network.mem_messagesTaken.mpr ⟨a, hledger.mem_iff.mpr hsent⟩

/-- No slave waits for the distribution. -/
theorem not_awaiting {q : Int} (hq : q ∈ st.sourceSlaves) (ha : g.asked q = true) :
    g.ran q = true := by
  by_contra hran
  have hran : g.ran q = false := by simpa using hran
  obtain ⟨out, net', g', hstep, -⟩ := st.broadcast_slave h hq ha hran
  exact absurd hquiet (not_quiet hstep)

/-- The head does not wait for the keys. -/
theorem not_gathering (hp : ∀ q ∈ st.targets, g.prepared q = true) : g.gathered = true := by
  by_contra hg
  have hg : g.gathered = false := by simpa using hg
  obtain ⟨out, net', g', hstep, -⟩ := st.gather_head h (hp st.target st.target_mem) hg
    fun q hq => hp q (List.mem_cons_of_mem _ hq)
  exact absurd hquiet (not_quiet hstep)

/-- A process whose keys have been gathered, or that has none to wait for, takes messages. -/
theorem receiving_of_quiet {q : Int} (hg : q = st.target → g.prepared q = true → g.gathered = true) :
    (net.servers q).phase = .receiving := by
  rw [(h.servers q).phase_eq, Plan.phaseOf, if_neg, if_neg]
  · rintro ⟨hq, ha, hran⟩
    rw [st.not_awaiting h hquiet hq ha] at hran
    cases hran
  · rintro ⟨hq, hp, hnot⟩
    rw [hg hq hp] at hnot
    cases hnot

theorem prepared_of_quiet {q : Int} (hq : q ∈ st.targets) : g.prepared q = true := by
  have htaken : ∀ q, .prefetch st.prefetch ∈ net.messagesTaken q → g.prepared q = true := by
    intro q hm
    rw [← h.progress_eq]
    exact decide_eq_true hm
  have hhead : g.prepared st.target = true := by
    by_contra hp
    have hphase := st.receiving_of_quiet h hquiet (q := st.target) fun _ hc => absurd hc hp
    refine hp (htaken _ (st.taken_of_quiet h hquiet hphase (a := st.client) ?_))
    exact st.mem_sent.mpr (.inr (.inl ⟨⟨(if_pos rfl).symm, .inl rfl⟩, rfl⟩))
  rcases List.mem_cons.mp hq with rfl | hslave
  · exact hhead
  · have hne := st.ne_target hslave
    have hphase := st.receiving_of_quiet h hquiet (q := q) fun he => absurd he hne
    refine htaken _ (st.taken_of_quiet h hquiet hphase (a := st.target) ?_)
    exact st.mem_sent.mpr (.inr (.inl ⟨⟨(if_neg hne).symm, .inr ⟨hslave, hhead⟩⟩, rfl⟩))

theorem all_receiving (q : Int) : (net.servers q).phase = .receiving := by
  have hg := st.not_gathering h hquiet fun q hq => st.prepared_of_quiet h hquiet hq
  exact st.receiving_of_quiet h hquiet fun _ _ => hg

theorem gathered_of_quiet : g.gathered = true :=
  st.not_gathering h hquiet fun _ hq => st.prepared_of_quiet h hquiet hq

theorem registered_of_quiet : g.registered = true := by
  by_contra hr
  have hr : g.registered = false := by simpa using hr
  have hnot : st.registered = false := by
    rw [← h.progress_eq] at hr
    exact (Bool.or_eq_false_iff.mp hr).1
  have htaken := st.taken_of_quiet h hquiet (st.all_receiving h hquiet st.source)
    (st.mem_sent.mpr (.inl ⟨⟨rfl, rfl, hnot⟩, rfl⟩))
  rw [← h.progress_eq] at hr
  simp [Plan.progress, htaken] at hr

theorem ran_of_quiet (hp : st.Prompt g) {q : Int} (hq : q ∈ st.sources) : g.ran q = true := by
  have htaken : ∀ q a, .fetch st.fetch ∈ st.sent g a q → g.asked q = true := by
    intro q a hsent
    rw [← h.progress_eq]
    exact decide_eq_true (st.taken_of_quiet h hquiet (st.all_receiving h hquiet q) hsent)
  have hhead : g.ran st.source = true := by
    refine hp (st.registered_of_quiet h hquiet) (htaken st.source st.target ?_)
    exact st.mem_sent.mpr (.inr (.inr (.inl ⟨⟨(if_pos rfl).symm,
      .inl ⟨rfl, st.gathered_of_quiet h hquiet⟩⟩, rfl⟩)))
  rcases List.mem_cons.mp hq with rfl | hslave
  · exact hhead
  · refine st.not_awaiting h hquiet hslave (htaken q st.source ?_)
    exact st.mem_sent.mpr (.inr (.inr (.inl ⟨⟨(if_neg (st.ne_source hslave)).symm,
      .inr ⟨hslave, hhead⟩⟩, rfl⟩)))

theorem all_taken_of_quiet (hp : st.Prompt g) {i : Nat} (hi : i < st.targets.length) :
    (net.piecesTaken (st.fetch.pid i)).Perm (st.sourceActor.piecesFor i) :=
  st.all_taken h (fun _ hq => st.ran_of_quiet h hquiet hp hq)
    (fun x y => st.mail_nil_of_quiet h hquiet (st.all_receiving h hquiet y) x) hi

/-- All moves have been made. -/
theorem movesMade_of_quiet (hp : st.Prompt g) : st.movesMade g net = st.moveCount := by
  have hpieces : (st.targets.map fun q => (net.piecesTaken q).length) =
      st.targets.map fun q => (st.piecesOf q).length := by
    apply List.map_congr_left
    intro q hq
    have hi : st.targets.idxOf q < st.targets.length := List.idxOf_lt_length_of_mem hq
    have hlen := (st.all_taken_of_quiet h hquiet hp hi).length_eq
    rw [← st.length_piecesOf hi, st.pid_idxOf hq] at hlen
    exact hlen
  unfold Plan.movesMade Plan.moveCount
  rw [hpieces, marked_all fun q hq => st.prepared_of_quiet h hquiet hq,
    st.gathered_of_quiet h hquiet, st.registered_of_quiet h hquiet, Bool.true_and,
    marked_all fun q hq => h.ordered.ran_asked q (st.ran_of_quiet h hquiet hp hq),
    marked_all fun q hq => st.ran_of_quiet h hquiet hp (List.mem_cons_of_mem _ hq)]
  rfl

end Quiet

/-- A part that has been prepared holds what its pieces wrote. -/
theorem part_written {i : Nat} (hi : i < st.targets.length)
    (hp : g.prepared (st.fetch.pid i) = true) :
    ∃ t part, (net.servers (st.fetch.pid i)).dataStore.Represents t ∧
      t (st.fetch.key i) = some part ∧ part.location = .vectorStore ∧
      part.data = Source.written st.fetch i (net.piecesTaken (st.fetch.pid i)) ∧
      part.remaining = st.fetch.blockLen i -
        ((net.piecesTaken (st.fetch.pid i)).map Piece.size).sum := by
  obtain ⟨t, hrep, ht⟩ := (h.servers (st.fetch.pid i)).parts
  unfold Plan.Holds at ht
  rw [if_pos hp, Plan.lenOf, st.idxOf_pid hi] at ht
  obtain ⟨part, rfl, hw⟩ := ht
  refine ⟨_, part, hrep, ?_, hw.location, hw.data, hw.remaining⟩
  rw [st.key_fetch hi]
  exact PartialMap.set_self _ _ _

end Step

/-- Along a run the moves that have to be made are made one by one. -/
theorem counts_run {moves : List Move} {outs : List (List Output)} {net' : Network}
    (h : st.Follows codec g net) (hp : st.Prompt g)
    (hrun : Act.trace (Network.step codec) moves net = (outs, .ok net')) :
    ∃ g', st.Follows codec g' net' ∧ st.Prompt g' ∧
      st.movesMade g' net' = st.movesMade g net + moves.length := by
  induction moves generalizing g net outs with
  | nil =>
    cases hrun
    exact ⟨g, h, hp, rfl⟩
  | cons move moves ih =>
    obtain ⟨out, net₁, outs', hstep, hrun', -⟩ := Act.trace_cons_inv hrun
    obtain ⟨hp₁, hcount⟩ := st.counts h hp hstep
    obtain ⟨g', h', hp', hcount'⟩ := ih (st.follows_of_ok h hstep) hp₁ hrun'
    refine ⟨g', h', hp', ?_⟩
    rw [hcount', hcount, List.length_cons]
    omega

theorem counts_network {moves : List Move} {outs : List (List Output)} {net' : Network}
    (hrun : Act.trace (Network.step codec) moves st.network = (outs, .ok net')) :
    ∃ g', st.Follows codec g' net' ∧ st.Prompt g' ∧ st.movesMade g' net' = moves.length := by
  obtain ⟨g', h', hp', hcount⟩ := st.counts_run st.follows_network st.prompt_initial hrun
  rw [st.movesMade_initial, Nat.zero_add] at hcount
  exact ⟨g', h', hp', hcount⟩

/-- After the last move there is nothing to do. -/
theorem quiet_of_all (h : st.Follows codec g net) (hp : st.Prompt g)
    (hall : st.movesMade g net = st.moveCount) : Quiet codec net := by
  intro move
  rcases hstep : Network.step codec move net with ⟨out, e | ⟨⟨⟩, net'⟩⟩
  · rfl
  · have hcount := (st.counts h hp hstep).2
    have hle := st.movesMade_le (st.follows_of_ok h hstep)
    omega

end Start

/-- A prefetch that has come to its end. -/
structure Complete {codec : Codec} (st : Start codec) (net : Network) : Prop where
  /-- Nothing is under way, and no process waits for anything but messages. -/
  mail : ∀ x y, net.mail x y = []
  receiving : ∀ q, (net.servers q).phase = .receiving
  registered : (net.servers st.target).futureDataStore st.resFutureKey =
    some (codec.serializeAll st.distribution)
  /-- Each piece has been taken by its process, once. -/
  pieces : ∀ i < st.targets.length,
    (net.piecesTaken (st.fetch.pid i)).Perm (st.sourceActor.piecesFor i)
  /-- The parts are what the pieces make of them, and nothing of them is missing. -/
  parts : ∀ i < st.targets.length, ∃ t part,
    (net.servers (st.fetch.pid i)).dataStore.Represents t ∧ t (st.fetch.key i) = some part ∧
      part.data = Source.written st.fetch i (net.piecesTaken (st.fetch.pid i)) ∧ part.remaining = 0

theorem Start.complete_of_quiet {codec : Codec} (st : Start codec) {g : Progress} {net : Network}
    (h : st.Follows codec g net) (hp : st.Prompt g) (hquiet : Quiet codec net) :
    Complete st net where
  mail x y := st.mail_nil_of_quiet h hquiet (st.all_receiving h hquiet y) x
  receiving := st.all_receiving h hquiet
  registered := ((h.servers st.target).target rfl).known (st.gathered_of_quiet h hquiet)
  pieces _ hi := st.all_taken_of_quiet h hquiet hp hi
  parts i hi := by
    have hmem : st.fetch.pid i ∈ st.targets := by
      rw [st.pid_fetch hi]
      exact List.getElem_mem hi
    obtain ⟨t, part, hrep, hk, -, hdata, hrem⟩ :=
      st.part_written h hi (st.prepared_of_quiet h hquiet hmem)
    refine ⟨t, part, hrep, hk, hdata, ?_⟩
    rw [hrem, ((st.all_taken_of_quiet h hquiet hp hi).map Piece.size).sum_eq,
      st.sourceActor.sum_piecesFor st.targetActor hi]
    exact Nat.sub_self _

/-- The two actors have no process in common. -/
theorem Setup.apart {codec : Codec} (st : Setup codec) (hne : st.target ≠ st.source) {q : Int}
    (ht : q ∈ st.targets) : q ∉ st.sources := by
  intro hs
  have hpids := (st.target_pids q ht).symm.trans (st.source_pids q hs)
  exact hne (List.cons.inj hpids).1

/-- The managers of two actors send to other processes only. -/
theorem Start.sent_self {codec : Codec} (st : Start codec) {g : Progress}
    (hne : st.target ≠ st.source) (ho : st.Ordered g) (x : Int) :
    st.sent g x x = st.registrations x x ++
      if x = st.target ∧ x = st.client then [.prefetch st.prefetch] else [] := by
  have hprefetch : st.prefetches g x x =
      if x = st.target ∧ x = st.client then [.prefetch st.prefetch] else [] := by
    unfold Plan.prefetches Plan.prefetchFrom Plan.PrefetchSent
    by_cases hx : x = st.target
    · simp [hx]
    · simp [hx]
  have hfetch : st.fetches g x x = [] := by
    unfold Plan.fetches Plan.fetchFrom
    by_cases hx : x = st.source
    · simp [hx, hne.symm]
    · simp [hx]
  have hpieces : st.piecesSent g x x = [] := by
    unfold Plan.piecesSent
    by_cases hran : g.ran x = true
    · rw [if_pos hran, List.eq_nil_iff_forall_not_mem]
      intro msg hmsg
      exact st.apart hne (st.mem_piecesTo hmsg).1 (ho.asked_mem x (ho.ran_asked x hran))
    · rw [if_neg hran]
  rw [Plan.sent, hprefetch, hfetch, hpieces, List.append_nil, List.append_nil]

/-- Between two actors a prefetch ends after the same number of moves whatever their order, and
never stops before; and no manager sends to itself. -/
theorem prefetch_ends {codec : Codec} (st : Start codec) (hne : st.target ≠ st.source)
    {moves : List Move} {outs : List (List Output)} {net : Network}
    (hrun : Act.trace (Network.step codec) moves st.network = (outs, .ok net)) :
    (moves.length ≤ st.moveCount ∧ (moves.length = st.moveCount ↔ Quiet codec net) ∧
      (Quiet codec net → Complete st net)) ∧
      ∀ x, (net.takenFrom x x ++ net.mail x x).Perm (st.mail x x) := by
  obtain ⟨g, h, hp, hcount⟩ := st.counts_network hrun
  constructor
  · rw [← hcount]
    exact ⟨st.movesMade_le h, ⟨st.quiet_of_all h hp, fun hq => st.movesMade_of_quiet h hq hp⟩,
      st.complete_of_quiet h hp⟩
  · intro x
    have hself := h.ledger x x
    have hfirst := st.mail_eq x x
    rw [st.sent_self hne h.ordered] at hself
    rw [st.sent_self hne st.follows_network.ordered] at hfirst
    exact hself.trans hfirst.symm

theorem prefetch_ends_four : ∃ outs net,
    Act.trace (Network.step sampleFormat.codec) fourMoves fourStart.network = (outs, .ok net) ∧
      Complete fourStart net := by
  have hends : (Act.trace (Network.step sampleFormat.codec) fourMoves
      fourStart.network).2.toOption.isSome = true := by decide +kernel
  rcases hrun : Act.trace (Network.step sampleFormat.codec) fourMoves fourStart.network with
    ⟨outs, e | net⟩
  · rw [hrun] at hends
    cases hends
  · obtain ⟨⟨-, hlast, hcomplete⟩, -⟩ := prefetch_ends fourStart (by decide) hrun
    exact ⟨outs, net, rfl, hcomplete (hlast.mp (by decide +kernel))⟩

end ActiveBsp.Prefetch
