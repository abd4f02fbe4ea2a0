import ActiveBsp.Management.PrefetchPlan

/-!
# A prefetch in any interleaving

The records of the network say how far the prefetch has come. What has been
taken and what is under way is together what has been sent, so every message
that a process meets is one that it is ready for.
-/
namespace ActiveBsp.Prefetch

open Library Library.Buffer ActorServer

set_option autoImplicit false

/-- A message to every slave reaches each of them once. -/
theorem relayed {slaves : List Int} (hn : slaves.Nodup) (msg : ActorMessage) (y : Int) :
    (slaves.map fun pid => Output.actorMessage pid msg).filterMap (Network.messageTo y) =
      if y ∈ slaves then [msg] else [] := by
  induction slaves with
  | nil => rfl
  | cons x slaves ih =>
    obtain ⟨hx, hn⟩ := List.nodup_cons.mp hn
    rw [List.map_cons, List.filterMap_cons]
    by_cases hxy : x = y
    · subst hxy
      simp [ih hn, hx]
    · simp [ih hn, hxy, Ne.symm hxy]

theorem isPiece_of_mem {t : PartTable} {pid : Int} {msg : FetchMessage} {dv : VectorDistribution}
    {o : Output} (ho : o ∈ pieces t pid msg dv) : IsPiece o := by
  obtain ⟨dst, -, ho⟩ := List.mem_flatMap.mp ho
  obtain ⟨part, -, ho⟩ := List.mem_flatMap.mp ho
  unfold piece at ho
  split_ifs at ho
  · exact ⟨_, _, List.mem_singleton.mp ho⟩
  · cases ho

/-- Nothing but pieces comes from the loop of `fetchDv`. -/
theorem pieces_filterMap {α : Type} {t : PartTable} {pid : Int} {msg : FetchMessage}
    {dv : VectorDistribution} {f : Output → Option α} (hf : ∀ o, IsPiece o → f o = none) :
    (pieces t pid msg dv).filterMap f = [] :=
  List.filterMap_eq_nil_iff.mpr fun o ho => hf o (isPiece_of_mem ho)

theorem keyOf_piece (o : Output) (h : IsPiece o) : Network.keyOf o = none := by
  obtain ⟨dst, msg, rfl⟩ := h
  rfl

theorem vdOf_piece (o : Output) (h : IsPiece o) : Network.vdOf o = none := by
  obtain ⟨dst, msg, rfl⟩ := h
  rfl

theorem sendable_of_envelope {o : Output} (h : Network.envelope o = none) : Network.Sendable o := by
  intro e he
  rw [h] at he
  cases he

namespace Plan

variable (p : Plan)

/-- The network before the first step. -/
def network : Network := { servers := p.servers, mail := p.mail }

/-- How far the prefetch has come, by the records of the network. -/
def progress (net : Network) : Progress where
  prepared q := decide (.prefetch p.prefetch ∈ net.messagesTaken q)
  gathered := decide (p.target ∈ net.gatherings)
  registered := p.registered ||
    decide (.registerFutureData p.futureKey p.future ∈ net.messagesTaken p.source)
  asked q := decide (.fetch p.fetch ∈ net.messagesTaken q)
  ran q := decide (q ∈ net.fetched)

/-- The keys that wait for the head of the target actor. -/
def keysFrom (g : Progress) (q : Int) : List Int :=
  if q ∈ p.targetSlaves ∧ g.prepared q = true ∧ g.gathered = false then [p.partKey q] else []

/-- The distributions that wait for a slave of the source actor. -/
def broadcastsTo (g : Progress) (q : Int) : List VectorDistribution :=
  if q ∈ p.sourceSlaves ∧ g.ran p.source = true ∧ g.ran q = false then [p.dv] else []

/-- What comes before what. -/
structure Ordered (g : Progress) : Prop where
  prepared_mem : ∀ q, g.prepared q = true → q ∈ p.targets
  prepared_head : ∀ q, g.prepared q = true → g.prepared p.target = true
  gathered_all : g.gathered = true → ∀ q ∈ p.targets, g.prepared q = true
  asked_mem : ∀ q, g.asked q = true → q ∈ p.sources
  asked_gathered : ∀ q, g.asked q = true → g.gathered = true
  asked_head : ∀ q, g.asked q = true → q = p.source ∨ g.ran p.source = true
  ran_asked : ∀ q, g.ran q = true → g.asked q = true
  ran_registered : ∀ q, g.ran q = true → g.registered = true

/-- The network, when the prefetch has come so far. -/
structure Follows (codec : Codec) (g : Progress) (net : Network) : Prop where
  progress_eq : p.progress net = g
  ordered : p.Ordered g
  servers : ∀ q, p.At codec g (net.piecesTaken q) q (net.servers q)
  ledger : ∀ x y, (net.takenFrom x y ++ net.mail x y).Perm (p.sent g x y)
  gathered : ∀ q, net.gathered q = p.keysFrom g q
  broadcasts : ∀ q, net.broadcasts q = p.broadcastsTo g q

/-- Process `q` is where it was. -/
structure Agree (g g' : Progress) (q : Int) : Prop where
  prepared : g'.prepared q = g.prepared q
  asked : g'.asked q = g.asked q
  ran : g'.ran q = g.ran q
  gathered : q = p.target → g'.gathered = g.gathered
  registered : q = p.source → g'.registered = g.registered

theorem At.agree {codec : Codec} {g g' : Progress} {ps : List Piece} {q : Int} {s : ActorServer}
    (h : p.At codec g ps q s) (hag : p.Agree g g' q) : p.At codec g' ps q s where
  core_eq := h.core_eq
  manager hp := h.manager (hag.prepared ▸ hp)
  phase_eq := by
    rw [h.phase_eq, phaseOf, phaseOf, hag.prepared, hag.asked, hag.ran]
    by_cases hq : q = p.target
    · rw [hag.gathered hq]
    · simp only [hq, false_and, if_false]
  parts := by
    obtain ⟨t, hrep, ht⟩ := h.parts
    unfold Holds at ht
    refine ⟨t, hrep, ?_⟩
    unfold Holds
    rwa [hag.prepared]
  source hq := by
    have hfut := h.source hq
    subst hq
    refine ⟨fun hr => hfut.known (hag.registered rfl ▸ hr),
      fun hr => hfut.unknown (hag.registered rfl ▸ hr), ?_⟩
    rw [hfut.asked, hag.asked, hag.ran]
  target hq := by
    have hfut := h.target hq
    exact ⟨fun hg => hfut.known (hag.gathered hq ▸ hg), fun hg => hfut.unknown (hag.gathered hq ▸ hg)⟩

end Plan

namespace Setup

variable {codec : Codec} (st : Setup codec)

theorem inputsTo_delivery {t : PartTable} {x y : Int} {msg : FetchMessage} {dv : VectorDistribution} :
    Act.inputsTo y ((pieces t x msg dv).filterMap (delivery x)) =
      ((pieces t x msg dv).filterMap (Network.messageTo y)).map (Input.message x) := by
  unfold Act.inputsTo
  rw [List.filterMap_filterMap, List.map_filterMap]
  apply List.filterMap_congr
  intro o ho
  obtain ⟨dst, msg, rfl⟩ := isPiece_of_mem ho
  by_cases hdst : dst = y
  · simp [delivery, hdst]
  · simp [delivery, hdst]

theorem stored_available (x : Int) : ∀ part ∈ st.dv.parts, part.pid = x →
    part.offset < st.content.length →
      (st.tables x).available part.resid = some (slice st.content part.offset part.size) := by
  rintro part hp rfl -
  exact available_of_message (st.stored part hp)

/-- What one process of the source actor sends to one of the target actor. -/
theorem piecesTo_eq {x : Int} (hx : x ∈ st.sources) {i : Nat} (hi : i < st.targets.length) :
    st.piecesTo x (st.fetch.pid i) =
      ((st.sourceActor.meeting i).filter fun part => part.pid = x).map fun part =>
        .storeResultPart (st.sourceActor.pieceOf i part).2 := by
  have hserv : AllServable (st.tables x) (st.servers x).pid st.fetch st.dv :=
    (st.pid_eq x).symm ▸ st.sourceActor.allServable st.targetActor (st.stored_available x)
  have hsent := st.sourceActor.inputsTo_sentBy st.targetActor st.client hx hi
  rw [show sentBy codec st.client st.fetch st.sourceActor.dv (st.sourceActor.state x) = _ from
    Source.sentBy_eq st.client (st.sourceActor.fetching x hx) (st.sourceActor.free x hx)
      (st.represented x) hserv] at hsent
  rw [show (st.sourceActor.state x).pid = x from st.pid_eq x, inputsTo_delivery] at hsent
  have hinj : Function.Injective (Input.message x) := fun m m' he => (Input.message.inj he).2
  apply hinj.list_map
  rw [List.map_map]
  refine hsent.trans (List.map_congr_left fun part hp => ?_)
  obtain rfl := of_decide_eq_true (List.mem_filter.mp hp).2
  rfl

end Setup

namespace Start

variable {codec : Codec} (st : Start codec) {g g' : Progress} {net : Network}

theorem follows_network : st.Follows codec st.initial st.network where
  progress_eq := by
    ext <;> simp [Plan.progress, Plan.initial, Plan.network, Network.messagesTaken]
  ordered := by
    constructor <;> simp [Plan.initial]
  servers := st.at_initial
  ledger x y := st.mail_eq x y
  gathered q := by simp [Plan.keysFrom, Plan.initial, Plan.network]
  broadcasts q := by simp [Plan.broadcastsTo, Plan.initial, Plan.network]

theorem mem_piecesTo {x y : Int} {msg : ActorMessage} (h : msg ∈ st.piecesTo x y) :
    y ∈ st.targets ∧ ∃ piece, msg = .storeResultPart piece := by
  obtain ⟨o, ho, hmsg⟩ := List.mem_filterMap.mp h
  obtain ⟨dst, hdst, ho⟩ := List.mem_flatMap.mp ho
  obtain ⟨part, -, ho⟩ := List.mem_flatMap.mp ho
  unfold piece at ho
  split_ifs at ho
  · obtain rfl := List.mem_singleton.mp ho
    rw [Network.messageTo_actorMessage] at hmsg
    split_ifs at hmsg with hy
    obtain rfl := Option.some.inj hmsg
    have hzip := (List.mem_zipIdx hdst).2.2
    refine ⟨?_, _, rfl⟩
    rw [← hy, hzip]
    exact (List.of_mem_zip (List.getElem_mem _)).1
  · cases ho

/-- A piece is as long as the overlap of its part with the block of the target process. -/
theorem sendable_piecesTo {x y : Int} {msg : ActorMessage} (h : msg ∈ st.piecesTo x y) :
    Network.Sendable (.actorMessage y msg) := by
  obtain ⟨o, ho, hmsg⟩ := List.mem_filterMap.mp h
  obtain ⟨⟨dst, i⟩, hdst, ho⟩ := List.mem_flatMap.mp ho
  obtain ⟨part, hpart, ho⟩ := List.mem_flatMap.mp ho
  have hi : i < st.targets.length :=
    ((FetchMessage.zip_getElem? (List.length_map _)).mp (List.mem_zipIdx_iff_getElem?.mp hdst)).1
  rw [st.sourceActor.divRange_eq_bound st.targetActor hi] at ho
  unfold piece at ho
  split_ifs at ho with hselects
  · obtain rfl := List.mem_singleton.mp ho
    rw [Network.messageTo_actorMessage] at hmsg
    split_ifs at hmsg
    obtain rfl := Option.some.inj hmsg
    obtain ⟨-, hsize⟩ :=
      st.sourceActor.selected st.targetActor hi hpart (st.stored_available x) hselects
    have hsmall := st.sizes.pieces part hpart i hi
    intro e he
    cases he
    rw [← hsize] at hsmall
    simp only [Actormsg.Envelope.size, List.length_take]
    omega
  · cases ho

theorem mem_sent {x y : Int} {msg : ActorMessage} : msg ∈ st.sent g x y ↔
    ((x = st.registrar ∧ y = st.source ∧ st.registered = false) ∧
      msg = .registerFutureData st.futureKey st.future) ∨
    ((x = st.prefetchFrom y ∧ st.PrefetchSent g y) ∧ msg = .prefetch st.prefetch) ∨
    ((x = st.fetchFrom y ∧ st.FetchSent g y) ∧ msg = .fetch st.fetch) ∨
    (g.ran x = true ∧ msg ∈ st.piecesTo x y) := by
  simp only [Plan.sent, Plan.registrations, Plan.prefetches, Plan.fetches, Plan.piecesSent,
    List.mem_append, List.mem_ite_nil_right, List.mem_singleton, or_assoc]

/-- Every message of the prefetch can be sent. -/
theorem sendable_sent {x y : Int} {msg : ActorMessage} (h : msg ∈ st.sent g x y) :
    Network.Sendable (.actorMessage y msg) := by
  rcases st.mem_sent.mp h with ⟨-, rfl⟩ | ⟨-, rfl⟩ | ⟨-, rfl⟩ | ⟨-, hpiece⟩
  · exact sendable_of_envelope rfl
  · intro e he
    cases he
    norm_num [Actormsg.Envelope.size]
  · have hsmall := st.sizes.distribution
    intro e he
    cases he
    simp only [Actormsg.Envelope.size, Plan.fetch]
    omega
  · exact st.sendable_piecesTo hpiece

/-- So can the outputs of a step that leads on. -/
theorem sendable_of_sent {b : Int} {out : List Output}
    (hsent : ∀ x y, (st.sent g' x y).Perm
      (st.sent g x y ++ if x = b then out.filterMap (Network.messageTo y) else [])) :
    ∀ o ∈ out, Network.Sendable o := by
  intro o ho
  cases o with
  | actorMessage y msg =>
    apply st.sendable_sent (g := g') (x := b)
    rw [(hsent b y).mem_iff, if_pos rfl]
    exact List.mem_append_right _ (List.mem_filterMap.mpr ⟨_, ho, if_pos rfl⟩)
  | _ => exact sendable_of_envelope rfl

/-- A message that is no piece is sent at most once to each process, by one sender. -/
theorem count_sent {x y : Int} {msg : ActorMessage} (hm : ∀ piece, msg ≠ .storeResultPart piece) :
    (st.sent g x y).count msg ≤ 1 := by
  have hpieces : (st.piecesSent g x y).count msg = 0 := by
    rw [List.count_eq_zero]
    intro hmem
    unfold Plan.piecesSent at hmem
    split_ifs at hmem
    · obtain ⟨-, piece, rfl⟩ := st.mem_piecesTo hmem
      exact hm piece rfl
    · cases hmem
  have hsub : ∀ (c : Prop) [Decidable c] (m : ActorMessage),
      (if c then [m] else []).Sublist [m] := by
    intro c _ m
    split_ifs
    · exact List.Sublist.refl _
    · exact List.nil_sublist _
  have hnodup : (st.registrations x y ++ st.prefetches g x y ++ st.fetches g x y).Nodup := by
    apply List.Sublist.nodup (((hsub _ (.registerFutureData st.futureKey st.future)).append
      (hsub _ (.prefetch st.prefetch))).append (hsub _ (.fetch st.fetch)))
    simp
  rw [Plan.sent, List.count_append, hpieces]
  exact List.nodup_iff_count_le_one.mp hnodup msg

section Ledger

variable (h : st.Follows codec g net)

include h

theorem mem_sent_of_mail {x y : Int} {msg : ActorMessage} (hm : msg ∈ net.mail x y) :
    msg ∈ st.sent g x y := (h.ledger x y).mem_iff.mp (List.mem_append_right _ hm)

theorem mem_sent_of_taken {x y : Int} {msg : ActorMessage} (hm : msg ∈ net.takenFrom x y) :
    msg ∈ st.sent g x y := (h.ledger x y).mem_iff.mp (List.mem_append_left _ hm)

/-- What is under way and is sent only once has not been taken. -/
theorem not_taken {x y : Int} {msg : ActorMessage} (hm : msg ∈ net.mail x y)
    (hpiece : ∀ piece, msg ≠ .storeResultPart piece)
    (hsender : ∀ x', msg ∈ st.sent g x' y → x' = x) : msg ∉ net.messagesTaken y := by
  intro htaken
  obtain ⟨x', hx'⟩ := Network.mem_messagesTaken.mp htaken
  obtain rfl := hsender x' (st.mem_sent_of_taken h hx')
  have hcount := (h.ledger x' y).count_eq msg
  rw [List.count_append] at hcount
  have h₁ : 0 < (net.takenFrom x' y).count msg := List.count_pos_iff.mpr hx'
  have h₂ : 0 < (net.mail x' y).count msg := List.count_pos_iff.mpr hm
  have h₃ := st.count_sent (g := g) (x := x') (y := y) hpiece
  omega

end Ledger

theorem count_piecesTo {x : Int} (hx : x ∈ st.sources) {i : Nat} (hi : i < st.targets.length)
    (piece : StoreResultPartMessage) :
    (st.piecesTo x (st.fetch.pid i)).count (.storeResultPart piece) =
      (st.sourceActor.piecesFor i).count (x, piece) := by
  rw [st.piecesTo_eq hx hi, Source.piecesFor, List.count_eq_countP, List.count_eq_countP,
    List.countP_map, List.countP_map, List.countP_filter]
  apply List.countP_congr
  intro part _
  simp [Source.pieceOf, Prod.ext_iff, and_comm]

section Fit

variable (h : st.Follows codec g net)

include h

/-- Every piece that was sent has been taken or is under way. -/
theorem count_ledger (x y : Int) (piece : StoreResultPartMessage) :
    (net.piecesTaken y).count (x, piece) + (net.mail x y).count (.storeResultPart piece) =
      if g.ran x = true then (st.piecesTo x y).count (.storeResultPart piece) else 0 := by
  have hledger := (h.ledger x y).count_eq (.storeResultPart piece)
  have hcontrol : (st.registrations x y ++ st.prefetches g x y ++ st.fetches g x y).count
      (.storeResultPart piece) = 0 := by
    rw [List.count_eq_zero]
    simp [Plan.registrations, Plan.prefetches, Plan.fetches]
  rw [List.count_append, ← Network.count_piecesTaken, Plan.sent, List.count_append, hcontrol,
    Nat.zero_add, Plan.piecesSent] at hledger
  rw [hledger]
  split_ifs <;> rfl

/-- The pieces that were taken, and those under way, are pieces for the part. -/
theorem count_le {i : Nat} (hi : i < st.targets.length) (x : Int) (piece : StoreResultPartMessage) :
    (net.piecesTaken (st.fetch.pid i)).count (x, piece) +
        (net.mail x (st.fetch.pid i)).count (.storeResultPart piece) ≤
      (st.sourceActor.piecesFor i).count (x, piece) := by
  rw [st.count_ledger h]
  split_ifs with hran
  · have hx := h.ordered.asked_mem x (h.ordered.ran_asked x hran)
    exact (st.count_piecesTo hx hi piece).le
  · exact Nat.zero_le _

theorem pieces_taken {i : Nat} (hi : i < st.targets.length) :
    ∃ rest, (st.sourceActor.piecesFor i).Perm (net.piecesTaken (st.fetch.pid i) ++ rest) := by
  refine ⟨_, (List.subperm_append_diff_self_of_count_le ?_).symm⟩
  rintro ⟨x, piece⟩ -
  exact (Nat.le_add_right _ _).trans (st.count_le h hi x piece)

/-- A piece under way fits beside those that were taken. -/
theorem pieces_fit {x y : Int} {piece : StoreResultPartMessage} (hy : y ∈ st.targets)
    (hm : .storeResultPart piece ∈ net.mail x y) :
    PiecesFit (st.partKey y) (st.lenOf y) (net.piecesTaken y ++ [(x, piece)]) := by
  have hi : st.targets.idxOf y < st.targets.length := List.idxOf_lt_length_of_mem hy
  have hpid := st.pid_idxOf hy
  have hle : ∀ p ∈ net.piecesTaken y ++ [(x, piece)],
      (net.piecesTaken y ++ [(x, piece)]).count p ≤
        (st.sourceActor.piecesFor (st.targets.idxOf y)).count p := by
    rintro ⟨x', piece'⟩ -
    have hle := st.count_le h hi x' piece'
    rw [hpid] at hle
    rw [List.count_append, List.count_singleton]
    split_ifs with he
    · obtain ⟨rfl, rfl⟩ := Prod.mk.inj (eq_of_beq he)
      have hpos : 0 < (net.mail x y).count (.storeResultPart piece) := List.count_pos_iff.mpr hm
      omega
    · omega
  have hall := (st.sourceActor.piecesFit st.targetActor hi).perm
    (List.subperm_append_diff_self_of_count_le hle).symm
  rw [st.key_fetch hi, hpid] at hall
  exact hall.left

end Fit

/-- A handler that returns leads on, when its outputs are what the new progress says was sent. -/
theorem follows_post (h : st.Follows codec g net) {net₁ : Network} {b : Int} {input : Input}
    {s' : ActorServer} {out : List Output}
    (hservers : net₁.servers = net.servers)
    (hledger : ∀ x y, net₁.takenFrom x y ++ net₁.mail x y = net.takenFrom x y ++ net.mail x y)
    (hpieces : ∀ q ≠ b, net₁.piecesTaken q = net.piecesTaken q)
    (hprogress : st.progress (net₁.post b input s' out) = g') (hordered : st.Ordered g')
    (hat : st.At codec g' (net₁.piecesTaken b) b s') (hagree : ∀ q ≠ b, st.Agree g g' q)
    (hsent : ∀ x y, (st.sent g' x y).Perm
      (st.sent g x y ++ if x = b then out.filterMap (Network.messageTo y) else []))
    (hgathered : ∀ q, net₁.gathered q ++ (if q = b then out.filterMap Network.keyOf else []) =
      st.keysFrom g' q)
    (hbroadcasts : ∀ q, net₁.broadcasts q ++
      (if q ∈ s'.pids.tail then out.filterMap Network.vdOf else []) = st.broadcastsTo g' q) :
    st.Follows codec g' (net₁.post b input s' out) where
  progress_eq := hprogress
  ordered := hordered
  servers q := by
    show st.At codec g' (net₁.piecesTaken q) q (Function.update net₁.servers b s' q)
    by_cases hq : q = b
    · subst hq
      rw [Function.update_self]
      exact hat
    · rw [Function.update_of_ne hq, hservers, hpieces q hq]
      exact (h.servers q).agree _ (hagree q hq)
  ledger x y := by
    show (net₁.takenFrom x y ++ (net₁.mail x y ++ _)).Perm _
    rw [← List.append_assoc, hledger]
    exact ((h.ledger x y).append_right _).trans (hsent x y).symm
  gathered := hgathered
  broadcasts := hbroadcasts

section Deliver

variable {a b : Int} {msg : ActorMessage} {rest : List ActorMessage} {s' : ActorServer}
  {out : List Output}

/-- How far the prefetch has come when process `b` has taken a message. -/
def taking (st : Start codec) (g : Progress) (b : Int) (msg : ActorMessage) (out : List Output) :
    Progress where
  prepared q := g.prepared q || decide (q = b ∧ msg = .prefetch st.prefetch)
  gathered := g.gathered
  registered := g.registered ||
    decide (b = st.source ∧ msg = .registerFutureData st.futureKey st.future)
  asked q := g.asked q || decide (q = b ∧ msg = .fetch st.fetch)
  ran q := g.ran q || decide (q = b ∧ out.filterMap Network.vdOf ≠ [])

theorem progress_take (h : st.progress net = g) : st.progress ((net.take a b msg rest).post b
    (.message a msg) s' out) = st.taking g b msg out := by
  subst h
  have hmem : ∀ (m : ActorMessage) (q : Int), m ∈ (net.take a b msg rest).messagesTaken q ↔
      m ∈ net.messagesTaken q ∨ q = b ∧ msg = m := by
    intro m q
    rw [Network.messagesTaken_take]
    by_cases hq : q = b
    · simp [hq, eq_comm]
    · simp [hq]
  have hran : ∀ q, q ∈ ((net.take a b msg rest).post b (.message a msg) s' out).fetched ↔
      q ∈ net.fetched ∨ q = b ∧ out.filterMap Network.vdOf ≠ [] := by
    intro q
    show q ∈ (if Network.runsFetch (.message a msg) out = true then net.fetched ++ [b]
      else net.fetched) ↔ _
    by_cases hv : out.filterMap Network.vdOf = []
    · simp [Network.runsFetch, hv]
    · simp [Network.runsFetch, hv]
  ext
  · simp [Plan.progress, taking, hmem]
  · rfl
  · simp [Plan.progress, taking, hmem, eq_comm, Bool.or_assoc]
  · simp [Plan.progress, taking, hmem]
  · simp [Plan.progress, taking, hran]

/-- The move succeeds, and the prefetch comes further. -/
def Advances (st : Start codec) (move : Network.Move) (net : Network) : Prop :=
  ∃ out net' g', Network.step codec move net = (out, .ok ((), net')) ∧ st.Follows codec g' net'

theorem advances_deliver (h : st.Follows codec g net) (hmail : net.mail a b = msg :: rest)
    (hstep : step codec (.message a msg) (net.servers b) = (out, .ok ((), s')))
    (hprogress : st.taking g b msg out = g') (hordered : st.Ordered g')
    (hat : st.At codec g' (net.piecesTaken b ++ (Network.pieceOf (a, msg)).toList) b s')
    (hagree : ∀ q ≠ b, st.Agree g g' q)
    (hsent : ∀ x y, (st.sent g' x y).Perm
      (st.sent g x y ++ if x = b then out.filterMap (Network.messageTo y) else []))
    (hkeys : ∀ q, st.keysFrom g q ++ (if q = b then out.filterMap Network.keyOf else []) =
      st.keysFrom g' q)
    (hbroadcasts : ∀ q, st.broadcastsTo g q ++
      (if q ∈ s'.pids.tail then out.filterMap Network.vdOf else []) = st.broadcastsTo g' q) :
    st.Advances (.deliver a b) net := by
  refine ⟨_, _, g', Network.step_deliver hmail hstep (st.sendable_of_sent hsent), ?_⟩
  apply st.follows_post h (show (net.take a b msg rest).servers = net.servers from rfl)
  · intro x y
    exact Network.ledger_take hmail
  · intro q hq
    rw [Network.piecesTaken_take, if_neg hq, List.append_nil]
  · rw [st.progress_take h.progress_eq, hprogress]
  · exact hordered
  · rw [Network.piecesTaken_take, if_pos rfl]
    exact hat
  · exact hagree
  · exact hsent
  · intro q
    rw [← hkeys q, ← h.gathered q]
    rfl
  · intro q
    rw [← hbroadcasts q, ← h.broadcasts q]
    rfl

end Deliver

theorem sent_perm {x y : Int} {n₁ n₂ n₃ : List ActorMessage}
    (h₁ : st.prefetches g' x y = st.prefetches g x y ++ n₁)
    (h₂ : st.fetches g' x y = st.fetches g x y ++ n₂)
    (h₃ : st.piecesSent g' x y = st.piecesSent g x y ++ n₃) :
    (st.sent g' x y).Perm (st.sent g x y ++ (n₁ ++ n₂ ++ n₃)) := by
  rw [List.perm_iff_count]
  intro m
  simp only [Plan.sent, List.count_append, h₁, h₂, h₃]
  omega

theorem update_true (f : Int → Bool) (b q : Int) :
    Function.update f b true q = (f q || decide (q = b)) := by
  rw [Function.update_apply]
  by_cases hq : q = b
  · simp [hq]
  · simp [hq]

theorem ordered_prepared {b : Int} (ho : st.Ordered g) (hb : b ∈ st.targets)
    (hhead : b = st.target ∨ g.prepared st.target = true) :
    st.Ordered { g with prepared := Function.update g.prepared b true } := by
  constructor <;> simp only [update_true, Bool.or_eq_true, decide_eq_true_eq]
  · rintro q (hq | rfl)
    · exact ho.prepared_mem q hq
    · exact hb
  · rintro q (hq | rfl)
    · exact .inl (ho.prepared_head q hq)
    · rcases hhead with rfl | hp
      · exact .inr rfl
      · exact .inl hp
  · intro hg q hq
    exact .inl (ho.gathered_all hg q hq)
  · exact ho.asked_mem
  · exact ho.asked_gathered
  · exact ho.asked_head
  · exact ho.ran_asked
  · exact ho.ran_registered

theorem agree_prepared {b q : Int} (hq : q ≠ b) :
    st.Agree g { g with prepared := Function.update g.prepared b true } q :=
  ⟨Function.update_of_ne hq _ _, rfl, rfl, fun _ => rfl, fun _ => rfl⟩

/-- The part of a process is prepared before any piece of it is sent. -/
theorem piece_prepared {x b : Int} {piece : StoreResultPartMessage} (h : st.Follows codec g net)
    (hm : .storeResultPart piece ∈ st.sent g x b) : b ∈ st.targets ∧ g.prepared b = true := by
  rcases st.mem_sent.mp hm with ⟨-, he⟩ | ⟨-, he⟩ | ⟨-, he⟩ | ⟨hran, hx⟩
  · cases he
  · cases he
  · cases he
  · have hb := (st.mem_piecesTo hx).1
    exact ⟨hb, h.ordered.gathered_all
      (h.ordered.asked_gathered x (h.ordered.ran_asked x hran)) b hb⟩

theorem piecesTaken_eq_nil {b : Int} (h : st.Follows codec g net) (hp : g.prepared b = false) :
    net.piecesTaken b = [] := by
  rw [List.eq_nil_iff_forall_not_mem]
  rintro ⟨x, piece⟩ hmem
  have hcount : (net.piecesTaken b).count (x, piece) =
      (net.takenFrom x b).count (.storeResultPart piece) := Network.count_piecesTaken piece
  have htaken : .storeResultPart piece ∈ net.takenFrom x b := by
    rw [← List.count_pos_iff, ← hcount]
    exact List.count_pos_iff.mpr hmem
  rw [(st.piece_prepared h (st.mem_sent_of_taken h htaken)).2] at hp
  cases hp

/-- A `Prefetch` message meets a process that has not prepared its part. -/
theorem not_prepared {a b : Int} (h : st.Follows codec g net)
    (hm : .prefetch st.prefetch ∈ net.mail a b) : g.prepared b = false := by
  have hfrom : ∀ x, .prefetch st.prefetch ∈ st.sent g x b → x = st.prefetchFrom b := by
    intro x hx
    rcases st.mem_sent.mp hx with ⟨-, he⟩ | ⟨⟨hx, -⟩, -⟩ | ⟨-, he⟩ | ⟨-, hx⟩
    · cases he
    · exact hx
    · cases he
    · obtain ⟨-, piece, he⟩ := st.mem_piecesTo hx
      cases he
  have ha := hfrom a (st.mem_sent_of_mail h hm)
  have hnot := st.not_taken h hm (fun piece he => by cases he) fun x hx => (hfrom x hx).trans ha.symm
  rw [← h.progress_eq]
  exact decide_eq_false hnot

theorem not_gathered {b : Int} (h : st.Follows codec g net) (hb : b ∈ st.targets)
    (hp : g.prepared b = false) : g.gathered = false := by
  by_contra hg
  rw [h.ordered.gathered_all (by simpa using hg) b hb] at hp
  cases hp

theorem ordered_gathered (ho : st.Ordered g) (hp : g.prepared st.target = true)
    (hall : ∀ q ∈ st.targetSlaves, g.prepared q = true) : st.Ordered { g with gathered := true } :=
  ⟨ho.prepared_mem, ho.prepared_head, fun _ => List.forall_mem_cons.mpr ⟨hp, hall⟩, ho.asked_mem,
    fun _ _ => rfl, ho.asked_head, ho.ran_asked, ho.ran_registered⟩

/-- What is sent depends on a few of the marks only. -/
theorem sent_congr (hp : g'.prepared st.target = g.prepared st.target)
    (hg : g'.gathered = g.gathered) (hr : g'.ran = g.ran) (x y : Int) :
    (st.sent g' x y).Perm (st.sent g x y ++ []) := by
  have hprefetch : st.PrefetchSent g' y ↔ st.PrefetchSent g y := by
    simp only [Plan.PrefetchSent, hp]
  have hfetch : st.FetchSent g' y ↔ st.FetchSent g y := by
    simp only [Plan.FetchSent, hg, hr]
  rw [List.append_nil]
  simp only [Plan.sent, Plan.prefetches, Plan.fetches, Plan.piecesSent, hprefetch, hfetch, hr,
    List.Perm.refl]

theorem relayed_keyOf (slaves : List Int) (msg : ActorMessage) :
    (slaves.map fun pid => Output.actorMessage pid msg).filterMap Network.keyOf = [] := by
  simp [List.filterMap_eq_nil_iff, Network.keyOf]

theorem relayed_vdOf (slaves : List Int) (msg : ActorMessage) :
    (slaves.map fun pid => Output.actorMessage pid msg).filterMap Network.vdOf = [] := by
  simp [List.filterMap_eq_nil_iff, Network.vdOf]

theorem deliver_prefetch_head {a : Int} {rest : List ActorMessage} (h : st.Follows codec g net)
    (hmail : net.mail a st.target = .prefetch st.prefetch :: rest)
    (hphase : (net.servers st.target).phase = .receiving) : st.Advances (.deliver a st.target) net := by
  have hp := st.not_prepared h (by rw [hmail]; exact List.mem_cons_self)
  have hg := st.not_gathered h st.target_mem hp
  have hat := h.servers st.target
  have hnil := st.piecesTaken_eq_nil h hp
  rw [hnil] at hat
  obtain ⟨s', hstep, hat'⟩ := st.prefetch_at_head hat hphase hp hg a
  have hn : st.targetSlaves.Nodup := (List.nodup_cons.mp st.targets_nodup).2
  apply st.advances_deliver h hmail hstep ?_ (st.ordered_prepared h.ordered st.target_mem (.inl rfl))
    ?_ (fun q hq => st.agree_prepared hq)
  · intro x y
    have hnew : st.prefetches { g with prepared := Function.update g.prepared st.target true } x y =
        st.prefetches g x y ++ if x = st.target ∧ y ∈ st.targetSlaves then [.prefetch st.prefetch]
          else [] := by
      unfold Plan.prefetches Plan.PrefetchSent Plan.prefetchFrom
      by_cases hy : y ∈ st.targetSlaves
      · have hne := st.ne_target hy
        simp [hy, hne, hp]
      · simp [hy]
    have hperm := st.sent_perm hnew (List.append_nil _).symm (List.append_nil _).symm
    rw [List.filterMap_cons, relayed hn]
    by_cases hx : x = st.target
    · simpa [hx, Network.messageTo] using hperm
    · simpa [hx, Network.messageTo] using hperm
  · intro q
    rw [List.filterMap_cons, relayed_keyOf]
    by_cases hq : q ∈ st.targetSlaves
    · simp [Plan.keysFrom, st.ne_target hq]
    · simp [Plan.keysFrom, Network.keyOf, hq]
  · intro q
    rw [List.filterMap_cons, relayed_vdOf]
    simp [Plan.broadcastsTo, Network.vdOf]
  · ext <;> simp [taking, update_true, List.filterMap_cons, Network.vdOf]
  · rw [hnil]
    exact hat'

theorem deliver_prefetch_slave {a b : Int} {rest : List ActorMessage} (h : st.Follows codec g net)
    (hmail : net.mail a b = .prefetch st.prefetch :: rest) (hb : b ∈ st.targetSlaves)
    (hphase : (net.servers b).phase = .receiving) : st.Advances (.deliver a b) net := by
  have hmem : b ∈ st.targets := List.mem_cons_of_mem _ hb
  have hm : .prefetch st.prefetch ∈ net.mail a b := by
    rw [hmail]
    exact List.mem_cons_self
  have hp := st.not_prepared h hm
  have hg := st.not_gathered h hmem hp
  have hne := st.ne_target hb
  have hhead : g.prepared st.target = true := by
    rcases st.mem_sent.mp (st.mem_sent_of_mail h hm) with ⟨-, he⟩ | ⟨⟨-, hsent⟩, -⟩ | ⟨-, he⟩ | ⟨-, hx⟩
    · cases he
    · exact (hsent.resolve_left hne).2
    · cases he
    · obtain ⟨-, piece, he⟩ := st.mem_piecesTo hx
      cases he
  have hat := h.servers b
  have hnil := st.piecesTaken_eq_nil h hp
  rw [hnil] at hat
  obtain ⟨s', hstep, hat'⟩ := st.prefetch_at_slave hat hphase hb hp a
  apply st.advances_deliver h hmail hstep ?_ (st.ordered_prepared h.ordered hmem (.inr hhead)) ?_
    (fun q hq => st.agree_prepared hq)
  · intro x y
    rw [show List.filterMap (Network.messageTo y) [Output.gatherKey (st.partKey b)] = [] from rfl, ite_self]
    apply st.sent_congr
    · exact Function.update_of_ne hne.symm _ _
    · rfl
    · rfl
  · intro q
    by_cases hq : q = b
    · subst hq
      simp [Plan.keysFrom, hb, hp, hg, Network.keyOf]
    · simp [Plan.keysFrom, hq]
  · intro q
    simp [Plan.broadcastsTo, Network.vdOf]
  · ext <;> simp [taking, update_true, Network.vdOf]
  · rw [hnil]
    exact hat'

theorem deliver_piece {a b : Int} {piece : StoreResultPartMessage} {rest : List ActorMessage}
    (h : st.Follows codec g net) (hmail : net.mail a b = .storeResultPart piece :: rest)
    (hphase : (net.servers b).phase = .receiving) : st.Advances (.deliver a b) net := by
  have hm : .storeResultPart piece ∈ net.mail a b := by
    rw [hmail]
    exact List.mem_cons_self
  obtain ⟨hb, hp⟩ := st.piece_prepared h (st.mem_sent_of_mail h hm)
  obtain ⟨s', hstep, hat'⟩ := st.piece_at_target (h.servers b) hphase hb hp (st.pieces_fit h hb hm)
  apply st.advances_deliver h hmail hstep ?_ h.ordered hat' (fun q _ => ⟨rfl, rfl, rfl, fun _ => rfl, fun _ => rfl⟩)
  · intro x y
    rw [List.filterMap_nil, ite_self]
    exact st.sent_congr rfl rfl rfl x y
  · intro q
    simp
  · intro q
    simp
  · ext <;> simp [taking]

theorem ordered_asked {b : Int} (ho : st.Ordered g) (hb : b ∈ st.sources) (hg : g.gathered = true)
    (hhead : b = st.source ∨ g.ran st.source = true) :
    st.Ordered { g with asked := Function.update g.asked b true } := by
  constructor <;> simp only [update_true, Bool.or_eq_true, decide_eq_true_eq]
  · exact ho.prepared_mem
  · exact ho.prepared_head
  · exact ho.gathered_all
  · rintro q (hq | rfl)
    · exact ho.asked_mem q hq
    · exact hb
  · intro q _
    exact hg
  · rintro q (hq | rfl)
    · exact ho.asked_head q hq
    · exact hhead
  · intro q hq
    exact .inl (ho.ran_asked q hq)
  · exact ho.ran_registered

theorem ordered_ran {b : Int} (ho : st.Ordered g) (hb : g.asked b = true) (hr : g.registered = true) :
    st.Ordered { g with ran := Function.update g.ran b true } := by
  constructor <;> simp only [update_true, Bool.or_eq_true, decide_eq_true_eq]
  · exact ho.prepared_mem
  · exact ho.prepared_head
  · exact ho.gathered_all
  · exact ho.asked_mem
  · exact ho.asked_gathered
  · intro q hq
    exact (ho.asked_head q hq).imp id .inl
  · rintro q (hq | rfl)
    · exact ho.ran_asked q hq
    · exact hb
  · intro q _
    exact hr

theorem ordered_registered (ho : st.Ordered g) : st.Ordered { g with registered := true } :=
  ⟨ho.prepared_mem, ho.prepared_head, ho.gathered_all, ho.asked_mem, ho.asked_gathered,
    ho.asked_head, ho.ran_asked, fun _ _ => rfl⟩

theorem headSends_keyOf : st.headSends.filterMap Network.keyOf = [] := by
  simp only [Plan.headSends, List.filterMap_append, relayed_keyOf, List.filterMap_cons,
    pieces_filterMap keyOf_piece]
  rfl

theorem headSends_vdOf : st.headSends.filterMap Network.vdOf = [st.dv] := by
  simp only [Plan.headSends, List.filterMap_append, relayed_vdOf, List.filterMap_cons,
    pieces_filterMap vdOf_piece]
  rfl

theorem headSends_messageTo (y : Int) : st.headSends.filterMap (Network.messageTo y) =
    (if y ∈ st.sourceSlaves then [.fetch st.fetch] else []) ++ st.piecesTo st.source y := by
  simp only [Plan.headSends, List.filterMap_append, List.filterMap_cons,
    relayed (List.nodup_cons.mp st.sources_nodup).2, Plan.piecesTo, List.append_assoc]
  rfl

/-- What the head of the source actor sends when it fetches. -/
theorem sent_head (hran : g.ran st.source = false) (hp : g'.prepared st.target = g.prepared st.target)
    (hg : g'.gathered = g.gathered) (hr : g'.ran = Function.update g.ran st.source true) (x y : Int) :
    (st.sent g' x y).Perm (st.sent g x y ++ if x = st.source then
      (if y ∈ st.sourceSlaves then [.fetch st.fetch] else []) ++ st.piecesTo st.source y else []) := by
  have hprefetch : st.prefetches g' x y = st.prefetches g x y ++ [] := by
    have hsame : st.PrefetchSent g' y ↔ st.PrefetchSent g y := by
      simp only [Plan.PrefetchSent, hp]
    simp only [Plan.prefetches, hsame, List.append_nil]
  have hfetch : st.fetches g' x y = st.fetches g x y ++
      if x = st.source ∧ y ∈ st.sourceSlaves then [.fetch st.fetch] else [] := by
    unfold Plan.fetches Plan.FetchSent Plan.fetchFrom
    by_cases hy : y ∈ st.sourceSlaves
    · have hne := st.ne_source hy
      simp [hy, hne, hran, hr]
    · simp [hy, hg]
  have hpieces : st.piecesSent g' x y = st.piecesSent g x y ++
      if x = st.source then st.piecesTo st.source y else [] := by
    unfold Plan.piecesSent
    by_cases hx : x = st.source
    · subst hx
      simp [hran, hr]
    · simp [hx, hr]
  have hperm := st.sent_perm hprefetch hfetch hpieces
  by_cases hx : x = st.source
  · simpa [hx] using hperm
  · simpa [hx] using hperm

theorem agree_source {ran asked : Int → Bool} {registered : Bool} {q : Int}
    (ha : asked q = g.asked q) (hr : ran q = g.ran q)
    (hreg : q = st.source → registered = g.registered) :
    st.Agree g { g with asked := asked, ran := ran, registered := registered } q :=
  ⟨rfl, ha, hr, fun _ => rfl, hreg⟩

/-- The distribution waits for every slave of the head. -/
theorem broadcasts_head {s' : ActorServer} (hran : g.ran st.source = false)
    (ho : st.Ordered g) (hpids : s'.pids = st.sources) (hr : g'.ran = Function.update g.ran st.source true)
    (q : Int) : st.broadcastsTo g q ++ (if q ∈ s'.pids.tail then [st.dv] else []) =
      st.broadcastsTo g' q := by
  unfold Plan.broadcastsTo
  rw [hpids, show st.sources.tail = st.sourceSlaves from rfl, hr]
  by_cases hq : q ∈ st.sourceSlaves
  · have hne := st.ne_source hq
    have hnot : g.ran q = false := by
      by_contra hnot
      rcases ho.asked_head q (ho.ran_asked q (by simpa using hnot)) with he | hs
      · exact hne he
      · rw [hran] at hs
        cases hs
    simp [hq, hne, hran, hnot]
  · simp [hq]

/-- A `Fetch` message meets a process that has not been asked for its pieces. -/
theorem fetch_meets {a b : Int} (h : st.Follows codec g net) (hm : .fetch st.fetch ∈ net.mail a b) :
    g.asked b = false ∧ g.ran b = false ∧ g.gathered = true ∧
      (b = st.source ∨ b ∈ st.sourceSlaves ∧ g.ran st.source = true) := by
  have hfrom : ∀ x, .fetch st.fetch ∈ st.sent g x b → x = st.fetchFrom b ∧ st.FetchSent g b := by
    intro x hx
    rcases st.mem_sent.mp hx with ⟨-, he⟩ | ⟨-, he⟩ | ⟨hx, -⟩ | ⟨-, hx⟩
    · cases he
    · cases he
    · exact hx
    · obtain ⟨-, piece, he⟩ := st.mem_piecesTo hx
      cases he
  have ha := hfrom a (st.mem_sent_of_mail h hm)
  have hnot := st.not_taken h hm (fun piece he => by cases he)
    fun x hx => (hfrom x hx).1.trans ha.1.symm
  have hasked : g.asked b = false := by
    rw [← h.progress_eq]
    exact decide_eq_false hnot
  have hran : g.ran b = false := by
    by_contra hr
    rw [h.ordered.ran_asked b (by simpa using hr)] at hasked
    cases hasked
  refine ⟨hasked, hran, ?_⟩
  rcases ha.2 with ⟨hb, hg⟩ | ⟨hb, hr⟩
  · exact ⟨hg, .inl hb⟩
  · exact ⟨h.ordered.asked_gathered _ (h.ordered.ran_asked _ hr), .inr ⟨hb, hr⟩⟩

theorem deliver_fetch_slave {a b : Int} {rest : List ActorMessage} (h : st.Follows codec g net)
    (hmail : net.mail a b = .fetch st.fetch :: rest) (hb : b ∈ st.sourceSlaves)
    (hphase : (net.servers b).phase = .receiving) : st.Advances (.deliver a b) net := by
  obtain ⟨hasked, hran, hg, hsent⟩ := st.fetch_meets h (by rw [hmail]; exact List.mem_cons_self)
  have hhead := (hsent.resolve_left (st.ne_source hb)).2
  obtain ⟨s', hstep, hat'⟩ := st.fetch_at_slave (h.servers b) hphase hb hran a
  apply st.advances_deliver h hmail hstep ?_
    (st.ordered_asked h.ordered (List.mem_cons_of_mem _ hb) hg (.inr hhead)) ?_
    (fun q hq => st.agree_source (Function.update_of_ne hq _ _) rfl fun _ => rfl)
  · intro x y
    rw [List.filterMap_nil, ite_self]
    apply st.sent_congr <;> rfl
  · intro q
    simp [Plan.keysFrom]
  · intro q
    simp [Plan.broadcastsTo]
  · ext <;> simp [taking, update_true]
  · simpa [Network.pieceOf] using hat'

/-- The head of the source actor has the future already. -/
theorem deliver_fetch_head {a : Int} {rest : List ActorMessage} (h : st.Follows codec g net)
    (hmail : net.mail a st.source = .fetch st.fetch :: rest)
    (hphase : (net.servers st.source).phase = .receiving) (hr : g.registered = true) :
    st.Advances (.deliver a st.source) net := by
  obtain ⟨hasked, hran, hg, -⟩ := st.fetch_meets h (by rw [hmail]; exact List.mem_cons_self)
  have hat := h.servers st.source
  obtain ⟨hstep, hat'⟩ := st.fetch_at_head st.loads hat hphase (h.ordered.prepared_mem _) hr hasked a
  have ho := st.ordered_ran (st.ordered_asked h.ordered st.source_mem hg (.inl rfl))
    (b := st.source) (Function.update_self _ _ _) hr
  apply st.advances_deliver h hmail hstep ?_ ho ?_
    (fun q hq => st.agree_source (Function.update_of_ne hq _ _) (Function.update_of_ne hq _ _)
      fun _ => rfl)
  · intro x y
    rw [st.headSends_messageTo]
    apply st.sent_head hran <;> rfl
  · intro q
    rw [st.headSends_keyOf]
    simp [Plan.keysFrom]
  · intro q
    rw [st.headSends_vdOf]
    exact st.broadcasts_head hran h.ordered ((st.pids_at hat').trans (st.source_pids _ st.source_mem))
      rfl q
  · ext <;> simp [taking, update_true, st.headSends_vdOf]
  · simpa [Network.pieceOf] using hat'

theorem deliver_fetch_early {a : Int} {rest : List ActorMessage} (h : st.Follows codec g net)
    (hmail : net.mail a st.source = .fetch st.fetch :: rest)
    (hphase : (net.servers st.source).phase = .receiving) (hr : g.registered = false) :
    st.Advances (.deliver a st.source) net := by
  obtain ⟨hasked, hran, hg, -⟩ := st.fetch_meets h (by rw [hmail]; exact List.mem_cons_self)
  obtain ⟨s', hstep, hat'⟩ := st.early_fetch_at_head (h.servers st.source) hphase hr hasked hran a
  apply st.advances_deliver h hmail hstep ?_
    (st.ordered_asked h.ordered st.source_mem hg (.inl rfl)) ?_
    (fun q hq => st.agree_source (Function.update_of_ne hq _ _) rfl fun _ => rfl)
  · intro x y
    rw [List.filterMap_nil, ite_self]
    apply st.sent_congr <;> rfl
  · intro q
    simp [Plan.keysFrom]
  · intro q
    simp [Plan.broadcastsTo]
  · ext <;> simp [taking, update_true]
  · simpa [Network.pieceOf] using hat'

/-- The future of the vector is registered once. -/
theorem not_registered {a b : Int} (h : st.Follows codec g net)
    (hm : .registerFutureData st.futureKey st.future ∈ net.mail a b) :
    b = st.source ∧ g.registered = false := by
  have hfrom : ∀ x, .registerFutureData st.futureKey st.future ∈ st.sent g x b →
      x = st.registrar ∧ b = st.source ∧ st.registered = false := by
    intro x hx
    rcases st.mem_sent.mp hx with ⟨hx, -⟩ | ⟨-, he⟩ | ⟨-, he⟩ | ⟨-, hx⟩
    · exact hx
    · cases he
    · cases he
    · obtain ⟨-, piece, he⟩ := st.mem_piecesTo hx
      cases he
  obtain ⟨ha, rfl, hreg⟩ := hfrom a (st.mem_sent_of_mail h hm)
  have hnot := st.not_taken h hm (fun piece he => by cases he)
    fun x hx => (hfrom x hx).1.trans ha.symm
  refine ⟨rfl, ?_⟩
  rw [← h.progress_eq]
  simp [Plan.progress, hreg, hnot]

theorem futureData_filterMap {α : Type} (pids : List Int) (data : Bytes) {f : Output → Option α}
    (hf : ∀ pid, f (.futureData pid data) = none) :
    (pids.map fun pid => Output.futureData pid data).filterMap f = [] := by
  simp [hf]

theorem deliver_register {a : Int} {rest : List ActorMessage} (h : st.Follows codec g net)
    (hmail : net.mail a st.source = .registerFutureData st.futureKey st.future :: rest)
    (hphase : (net.servers st.source).phase = .receiving) (ha : g.asked st.source = false) :
    st.Advances (.deliver a st.source) net := by
  obtain ⟨-, hr⟩ := st.not_registered h (by rw [hmail]; exact List.mem_cons_self)
  obtain ⟨s', pids, hstep, hat'⟩ := st.register_at_head (h.servers st.source) hphase hr ha a
  apply st.advances_deliver h hmail hstep ?_ (st.ordered_registered h.ordered) ?_
    (fun q hq => st.agree_source rfl rfl fun hs => absurd hs hq)
  · intro x y
    rw [futureData_filterMap _ _ fun _ => rfl, ite_self]
    apply st.sent_congr <;> rfl
  · intro q
    rw [futureData_filterMap _ _ fun _ => rfl]
    simp [Plan.keysFrom]
  · intro q
    rw [futureData_filterMap _ _ fun _ => rfl]
    simp [Plan.broadcastsTo]
  · ext <;> simp [taking, Network.vdOf]
  · simpa [Network.pieceOf] using hat'

/-- Somebody has asked for the future that comes now. -/
theorem deliver_awaited_register {a : Int} {rest : List ActorMessage} (h : st.Follows codec g net)
    (hmail : net.mail a st.source = .registerFutureData st.futureKey st.future :: rest)
    (hphase : (net.servers st.source).phase = .receiving) (ha : g.asked st.source = true) :
    st.Advances (.deliver a st.source) net := by
  obtain ⟨-, hr⟩ := st.not_registered h (by rw [hmail]; exact List.mem_cons_self)
  have hran : g.ran st.source = false := by
    by_contra hran
    rw [h.ordered.ran_registered _ (by simpa using hran)] at hr
    cases hr
  obtain ⟨s', pids, hstep, hat'⟩ := st.awaited_register_at_head st.loads (h.servers st.source) hphase
    (h.ordered.prepared_mem _) hr ha hran a
  have ho := st.ordered_ran (st.ordered_registered h.ordered) ha rfl
  apply st.advances_deliver h hmail hstep ?_ ho ?_
    (fun q hq => st.agree_source rfl (Function.update_of_ne hq _ _) fun hs => absurd hs hq)
  · intro x y
    rw [List.filterMap_append, futureData_filterMap _ _ fun _ => rfl, List.append_nil,
      st.headSends_messageTo]
    apply st.sent_head hran <;> rfl
  · intro q
    rw [List.filterMap_append, futureData_filterMap _ _ fun _ => rfl, st.headSends_keyOf]
    simp [Plan.keysFrom]
  · intro q
    rw [List.filterMap_append, futureData_filterMap _ _ fun _ => rfl, List.append_nil,
      st.headSends_vdOf]
    exact st.broadcasts_head hran h.ordered ((st.pids_at hat').trans (st.source_pids _ st.source_mem))
      rfl q
  · ext <;> simp [taking, update_true, st.headSends_vdOf]
  · simpa [Network.pieceOf] using hat'

theorem deliver_advances {a b : Int} {msg : ActorMessage} {rest : List ActorMessage}
    (h : st.Follows codec g net) (hmail : net.mail a b = msg :: rest)
    (hphase : (net.servers b).phase = .receiving) : st.Advances (.deliver a b) net := by
  have hm : msg ∈ net.mail a b := by
    rw [hmail]
    exact List.mem_cons_self
  rcases st.mem_sent.mp (st.mem_sent_of_mail h hm) with ⟨⟨-, rfl, -⟩, rfl⟩ | ⟨⟨-, hb⟩, rfl⟩ |
    ⟨-, rfl⟩ | ⟨-, hpiece⟩
  · cases ha : g.asked st.source with
    | false => exact st.deliver_register h hmail hphase ha
    | true => exact st.deliver_awaited_register h hmail hphase ha
  · rcases hb with rfl | ⟨hb, -⟩
    · exact st.deliver_prefetch_head h hmail hphase
    · exact st.deliver_prefetch_slave h hmail hb hphase
  · rcases (st.fetch_meets h hm).2.2.2 with rfl | ⟨hb, -⟩
    · cases hr : g.registered with
      | false => exact st.deliver_fetch_early h hmail hphase hr
      | true => exact st.deliver_fetch_head h hmail hphase hr
    · exact st.deliver_fetch_slave h hmail hb hphase
  · obtain ⟨-, piece, rfl⟩ := st.mem_piecesTo hpiece
    exact st.deliver_piece h hmail hphase

theorem target_tail (h : st.Follows codec g net) :
    (net.servers st.target).pids.tail = st.targetSlaves := by
  rw [st.pids_at (h.servers st.target), st.target_pids _ st.target_mem]
  rfl

/-- The head goes on when every slave has handed its key in. -/
theorem gather_head (h : st.Follows codec g net) (hp : g.prepared st.target = true)
    (hg : g.gathered = false) (hall : ∀ q ∈ st.targetSlaves, g.prepared q = true) :
    st.Advances (.gather st.target) net := by
  have hat := h.servers st.target
  have htail := st.target_tail h
  have hkeys : st.targetSlaves.mapM (fun q => (net.gathered q).head?) =
      some (st.targetSlaves.map st.partKey) := by
    apply Lists.mapM_of_some
    intro q hq
    rw [h.gathered q, Plan.keysFrom, if_pos ⟨hq, hall q hq, hg⟩]
    rfl
  obtain ⟨s', data, pids, hstep, hat'⟩ := st.gather_at_head hat hp hg
  have hsent : ∀ x y, (st.sent { g with gathered := true } x y).Perm (st.sent g x y ++
      if x = st.target then (.actorMessage st.source (.fetch st.fetch) ::
        pids.map fun pid => Output.futureData pid data).filterMap (Network.messageTo y)
      else []) := by
    intro x y
    have hnew : st.fetches { g with gathered := true } x y = st.fetches g x y ++
        if x = st.target ∧ y = st.source then [.fetch st.fetch] else [] := by
      unfold Plan.fetches Plan.FetchSent Plan.fetchFrom
      by_cases hy : y = st.source
      · have hslave : st.source ∉ st.sourceSlaves := fun hs => st.ne_source hs rfl
        simp [hy, hslave, hg]
      · simp [hy]
    have hprefetch : st.prefetches { g with gathered := true } x y = st.prefetches g x y ++ [] :=
      (List.append_nil _).symm
    have hperm := st.sent_perm hprefetch hnew (List.append_nil _).symm
    rw [List.filterMap_cons, futureData_filterMap _ _ fun _ => rfl]
    by_cases hx : x = st.target
    · by_cases hy : y = st.source
      · simpa [hx, hy] using hperm
      · simpa [hx, hy, Ne.symm hy] using hperm
    · simpa [hx] using hperm
  have hmove := Network.step_gather (by rw [htail]; exact hkeys) hstep (st.sendable_of_sent hsent)
  rw [htail] at hmove
  refine ⟨_, _, { g with gathered := true }, hmove, ?_⟩
  · apply st.follows_post h
    · rfl
    · intro x y
      rfl
    · intro q _
      rfl
    · rw [← h.progress_eq]
      ext
      · rfl
      · simp [Plan.progress, Network.post]
      · rfl
      · rfl
      · simp [Plan.progress, Network.post, Network.runsFetch, Network.vdOf]
    · exact st.ordered_gathered h.ordered hp hall
    · exact hat'
    · intro q hq
      exact ⟨rfl, rfl, rfl, fun he => absurd he hq, fun _ => rfl⟩
    · exact hsent
    · intro q
      rw [List.filterMap_cons, futureData_filterMap _ _ fun _ => rfl]
      by_cases hq : q ∈ st.targetSlaves
      · simp [hq, h.gathered q, Plan.keysFrom, hall q hq, hg, Network.keyOf]
      · simp [hq, h.gathered q, Plan.keysFrom, Network.keyOf]
    · intro q
      rw [List.filterMap_cons, futureData_filterMap _ _ fun _ => rfl]
      simp [h.broadcasts q, Plan.broadcastsTo, Network.vdOf]

/-- It goes on as soon as that is so. -/
theorem gather_advances {b : Int} (h : st.Follows codec g net) : st.Advances (.gather b) net ∨
    Network.step codec (.gather b) net = ([], .error .blocked) := by
  by_cases hphase : ∃ prefetch, (net.servers b).phase = .gatheringKeys prefetch
  swap
  · exact .inr (Network.gather_of_idle fun prefetch hp => hphase ⟨prefetch, hp⟩)
  have hwait : b = st.target ∧ g.prepared b = true ∧ g.gathered = false := by
    obtain ⟨prefetch, hp⟩ := hphase
    rw [(h.servers b).phase_eq, Plan.phaseOf] at hp
    split_ifs at hp with hw
    exact hw
  obtain ⟨rfl, hp, hg⟩ := hwait
  by_cases hall : ∀ q ∈ st.targetSlaves, g.prepared q = true
  · exact .inl (st.gather_head h hp hg hall)
  · right
    push Not at hall
    obtain ⟨q, hq, hmissing⟩ := hall
    have hnone : (net.gathered q).head? = none := by
      rw [h.gathered q, Plan.keysFrom, if_neg fun hc => hmissing hc.2.1]
      rfl
    have hkeys : st.targetSlaves.mapM (fun q => (net.gathered q).head?) = none :=
      Lists.mapM_of_none hq hnone
    simp only [Network.step, st.target_tail h, hkeys]

/-- A slave that waits for the distribution gets it: the head has handed it in. -/
theorem broadcast_slave {b : Int} (h : st.Follows codec g net) (hb : b ∈ st.sourceSlaves)
    (ha : g.asked b = true) (hran : g.ran b = false) : st.Advances (.broadcast b) net := by
  have hhead : g.ran st.source = true :=
    (h.ordered.asked_head b ha).resolve_left (st.ne_source hb)
  obtain ⟨s', hstep, hat'⟩ := st.broadcast_at_slave (h.servers b) hb (h.ordered.prepared_mem b) ha hran
  have hwaiting : net.broadcasts b = [st.dv] := by
    rw [h.broadcasts b, Plan.broadcastsTo, if_pos ⟨hb, hhead, hran⟩]
  have hsent : ∀ x y, (st.sent { g with ran := Function.update g.ran b true } x y).Perm
      (st.sent g x y ++ if x = b then (pieces (st.tables b) b st.fetch st.dv).filterMap
        (Network.messageTo y) else []) := by
    intro x y
    have hnew : st.piecesSent { g with ran := Function.update g.ran b true } x y =
        st.piecesSent g x y ++ if x = b then st.piecesTo b y else [] := by
      unfold Plan.piecesSent
      by_cases hx : x = b
      · subst hx
        simp [hran]
      · simp [hx]
    have hfetch : st.fetches { g with ran := Function.update g.ran b true } x y =
        st.fetches g x y ++ [] := by
      have hsame : st.FetchSent { g with ran := Function.update g.ran b true } y ↔
          st.FetchSent g y := by
        simp only [Plan.FetchSent, Function.update_of_ne (st.ne_source hb).symm]
      simp only [Plan.fetches, hsame, List.append_nil]
    have hprefetch : st.prefetches { g with ran := Function.update g.ran b true } x y =
        st.prefetches g x y ++ [] := (List.append_nil _).symm
    exact st.sent_perm hprefetch hfetch hnew
  refine ⟨_, _, { g with ran := Function.update g.ran b true },
    Network.step_broadcast hwaiting hstep (st.sendable_of_sent hsent), ?_⟩
  · have hreg := h.ordered.ran_registered _ hhead
    apply st.follows_post h
    · rfl
    · intro x y
      rfl
    · intro q _
      rfl
    · rw [← h.progress_eq]
      ext
      · rfl
      · rfl
      · rfl
      · rfl
      · simp [Plan.progress, Network.post, Network.runsFetch, update_true]
    · exact st.ordered_ran h.ordered ha hreg
    · exact hat'
    · intro q hq
      exact ⟨rfl, rfl, Function.update_of_ne hq _ _, fun _ => rfl, fun _ => rfl⟩
    · exact hsent
    · intro q
      rw [pieces_filterMap keyOf_piece, ite_self, List.append_nil]
      exact h.gathered q
    · intro q
      rw [pieces_filterMap vdOf_piece, ite_self, List.append_nil]
      by_cases hq : q = b
      · subst hq
        simp [Plan.broadcastsTo]
      · simp [hq, h.broadcasts q, Plan.broadcastsTo, (st.ne_source hb).symm]

theorem broadcast_advances {b : Int} (h : st.Follows codec g net) :
    st.Advances (.broadcast b) net ∨
      Network.step codec (.broadcast b) net = ([], .error .blocked) := by
  by_cases hphase : ∃ msg, (net.servers b).phase = .awaitingVd msg
  swap
  · exact .inr (Network.broadcast_of_idle fun msg hp => hphase ⟨msg, hp⟩)
  obtain ⟨msg, hp⟩ := hphase
  rw [(h.servers b).phase_eq, Plan.phaseOf] at hp
  split_ifs at hp with _ hw
  exact .inl (st.broadcast_slave h hw.1 hw.2.1 hw.2.2)

/-- A move either takes the prefetch further or has to wait. -/
theorem move_advances (move : Network.Move) (h : st.Follows codec g net) :
    st.Advances move net ∨ Network.step codec move net = ([], .error .blocked) := by
  cases move with
  | deliver a b =>
    by_cases hphase : (net.servers b).phase = .receiving
    · cases hmail : net.mail a b with
      | nil =>
        right
        simp only [Network.step, hmail]
      | cons msg rest => exact .inl (st.deliver_advances h hmail hphase)
    · exact .inr (Network.deliver_of_busy hphase)
  | gather b => exact st.gather_advances h
  | broadcast b => exact st.broadcast_advances h

end Start

end ActiveBsp.Prefetch
