import ActiveBsp.Management.FutureSlot
import ActiveBsp.Serialization.RoundTrip

/-!
# Releases and fetches of a future that is not there yet

A fetch that comes before its future waits for the registration. Whether the
registration runs it depends on what else came before: an early release makes
the registration forget the data, unless a reader waits for it too.
-/
namespace ActiveBsp.EarlyRelease

open Library ActorServer Serialization.ArchiveFormat

set_option autoImplicit false

/-- A head at which nothing is known about the future `key`. -/
structure FreshKey (key : Int) (s : ActorServer) : Prop where
  headKeyed : HeadKeyed s
  stored : s.futureDataStore key = none
  pending : s.pendingFutureRequests key = none
  askedDelete : s.askedFutureDelete key = false
  askedFetch : s.askedFetch key = none

/-- The input leaves the future unregistered and the process the head that it is. -/
def Unregistering (key : Int) (s : ActorServer) (i : Input) : Prop :=
  ¬ Registers key s i ∧ ∀ comm, i ≠ .setIntraActorComm comm

/-- What the inputs so far leave at `key` before its registration. -/
structure Waiting (key : Int) (is : List Input) (outs : List Output) (s : ActorServer) : Prop where
  headKeyed : HeadKeyed s
  stored : s.futureDataStore key = none
  pending : s.pendingFutureRequests key = none ↔ is.any (IsGetOf key) = false
  askedDelete : s.askedFutureDelete key = is.any (IsReleaseOf key)
  askedFetch : s.askedFetch key = (fetchesOf key is).head?
  once : (fetchesOf key is).length ≤ 1
  silent : fetchRuns key outs = []

variable {codec : Codec} {key : Int} {s s' : ActorServer}

theorem FreshKey.waiting (h : FreshKey key s) : Waiting key [] [] s where
  headKeyed := h.headKeyed
  stored := h.stored
  pending := by simp [h.pending]
  askedDelete := h.askedDelete
  askedFetch := h.askedFetch
  once := Nat.zero_le _
  silent := rfl

private theorem fetchesOf_snoc (is : List Input) (i : Input) :
    fetchesOf key (is ++ [i]) = fetchesOf key is ++ (fetchOf key i).toList := by
  unfold fetchesOf
  rw [List.filterMap_append]
  cases h : fetchOf key i <;> simp [h]

theorem Waiting.step {is : List Input} {outs out : List Output} {i : Input}
    (h : Waiting key is outs s) (hi : Unregistering key s i)
    (hs : ActorServer.step codec i s = (out, .ok ((), s'))) :
    Waiting key (is ++ [i]) (outs ++ out) s' := by
  have hu := step_unregistered h.headKeyed h.stored hi.1 hi.2 hs
  refine ⟨hu.headKeyed, hu.stored, ?_, ?_, ?_, ?_, ?_⟩
  · rw [hu.pending, h.pending]
    simp
  · rw [hu.askedDelete, h.askedDelete]
    simp
  · rw [hu.askedFetch, h.askedFetch, fetchesOf_snoc, List.head?_append]
    cases fetchOf key i <;> rfl
  · have hone := hu.once
    rw [h.askedFetch, List.head?_eq_none_iff] at hone
    rw [fetchesOf_snoc, List.length_append]
    rcases hone with hnil | hnone
    · rw [hnil]
      cases fetchOf key i <;> simp
    · rw [hnone]
      exact h.once
  · rw [fetchRuns_append, h.silent, hu.silent, List.append_nil]

/-- What the inputs after the registration leave at `key`. -/
structure Settled (key : Int) (fetch : Option FetchMessage) (outs : List Output) (s : ActorServer) :
    Prop where
  headKeyed : HeadKeyed s
  askedFetch : s.askedFetch key = fetch
  silent : fetchRuns key outs = []

theorem Settled.step {fetch : Option FetchMessage} {outs out : List Output} {i : Input}
    (h : Settled key fetch outs s) (hi : Unregistering key s i) (hf : fetchOf key i = none)
    (hs : ActorServer.step codec i s = (out, .ok ((), s'))) : Settled key fetch (outs ++ out) s' := by
  obtain ⟨hfetch, hsilent, hkeyed⟩ := step_no_fetch h.headKeyed hi.1 hi.2 hf hs
  exact ⟨hkeyed, hfetch.trans h.askedFetch, by rw [fetchRuns_append, h.silent, hsilent]; rfl⟩

theorem Waiting.run {is : List Input} {outs : List (List Output)} (h : Waiting key [] [] s)
    (honly : Act.Along (ActorServer.step codec) (Unregistering key) is s)
    (hrun : Act.trace (ActorServer.step codec) is s = (outs, .ok s')) :
    Waiting key is outs.flatten s' := by
  have hstep : ∀ is outs s i out s', Waiting key is outs s → Unregistering key s i →
      ActorServer.step codec i s = (out, .ok ((), s')) → Waiting key (is ++ [i]) (outs ++ out) s' :=
    fun _ _ _ _ _ _ h hi hs => h.step hi hs
  exact Act.trace_history hstep h honly hrun

theorem Settled.run {fetch : Option FetchMessage} {is : List Input} {outs : List (List Output)}
    (h : Settled key fetch [] s)
    (honly : Act.Along (ActorServer.step codec) (Unregistering key) is s)
    (hf : fetchesOf key is = [])
    (hrun : Act.trace (ActorServer.step codec) is s = (outs, .ok s')) :
    Settled key fetch outs.flatten s' := by
  have hstep : ∀ (is : List Input) outs s i out s', Settled key fetch outs s →
      Unregistering key s i ∧ fetchOf key i = none →
      ActorServer.step codec i s = (out, .ok ((), s')) → Settled key fetch (outs ++ out) s' :=
    fun _ _ _ _ _ _ h hi hs => h.step hi.1 hi.2 hs
  have hquiet := honly.and_mem (List.filterMap_eq_nil_iff.mp hf)
  exact Act.trace_history hstep h hquiet hrun

/-- A fetch that waits for the future is run by its registration, once and with its data,
exactly when the registration comes before every release or a reader waits as well. -/
theorem fetch_survives_release_iff {s₀ s₁ s₂ s₃ : ActorServer} {src : Int} {data : Bytes}
    {msg : FetchMessage} {pre post : List Input} {outs₁ outs₂ : List (List Output)}
    {out : List Output} (h₀ : FreshKey key s₀)
    (hpre : Act.trace (ActorServer.step codec) pre s₀ = (outs₁, .ok s₁))
    (hreg : ActorServer.step codec (.message src (.registerFutureData key data)) s₁ =
      (out, .ok ((), s₂)))
    (hpost : Act.trace (ActorServer.step codec) post s₂ = (outs₂, .ok s₃))
    (honly₁ : Act.Along (ActorServer.step codec) (Unregistering key) pre s₀)
    (honly₂ : Act.Along (ActorServer.step codec) (Unregistering key) post s₂)
    (hfetch₁ : fetchesOf key pre = [msg]) (hfetch₂ : fetchesOf key post = []) :
    (fetchRuns key outs₁.flatten = [] ∧ fetchRuns key out = [(msg, data)] ∧
        fetchRuns key outs₂.flatten = [] ∧ s₃.askedFetch key = none) ↔
      (pre.any (IsReleaseOf key) = false ∨ pre.any (IsGetOf key) = true) := by
  have hw := h₀.waiting.run honly₁ hpre
  have hroute := (step_message_inv hreg).2.2
  obtain ⟨hkeyed, hcases⟩ := registerFuture_same hw.headKeyed hroute
  have hset : Settled key (s₂.askedFetch key) outs₂.flatten s₃ :=
    Settled.run ⟨hkeyed, rfl, rfl⟩ honly₂ hfetch₂ hpost
  rw [hw.pending, hw.askedDelete, hw.askedFetch, hfetch₁] at hcases
  rcases hcases with ⟨hget, hrel, hsilent, hkept⟩ | ⟨hkeep, hrun, hgone⟩
  · constructor
    · rintro ⟨-, hran, -, -⟩
      rw [hsilent] at hran
      cases hran
    · rintro (h | h)
      · rw [hrel] at h
        cases h
      · rw [hget] at h
        cases h
  · constructor
    · intro _
      by_cases hr : pre.any (IsReleaseOf key) = true
      · right
        by_contra hg
        exact hkeep ⟨by simpa using hg, hr⟩
      · left
        simpa using hr
    · intro _
      exact ⟨hw.silent, hrun, hset.silent, hset.askedFetch.trans hgone⟩

/-- The only process of an actor. -/
def sampleHead : ActorServer := { pid := 0, pids := [0], intraActorComm := some ⟨0, 1⟩ }

/-- Process 4 wants all forty bytes of the future 5. -/
def sampleFetch : FetchMessage := ⟨[4], [2], 5, 1, 40⟩

def sampleData : Bytes :=
  sampleFormat.codec.serializeAll sampleDistribution

abbrev sampleStep (i : Input) : Handler Unit :=
  ActorServer.step sampleFormat.codec i

theorem freshKey_sampleHead : FreshKey 5 sampleHead where
  headKeyed := ⟨⟨⟨0, 1⟩, rfl, rfl⟩, fun _ _ h => nomatch h⟩
  stored := rfl
  pending := rfl
  askedDelete := rfl
  askedFetch := rfl

/-- Fetch, release, registration: the data is forgotten and the fetch stays. -/
theorem early_release_drops_fetch :
    ∃ s₁ s₂, Act.trace sampleStep [.message 4 (.fetch sampleFetch), .message 4 (.releaseFuture 5)]
        sampleHead = ([[], []], .ok s₁) ∧
      sampleStep (.message 0 (.registerFutureData 5 sampleData)) s₁ = ([], .ok ((), s₂)) ∧
      s₂.askedFetch 5 = some sampleFetch :=
  ⟨_, _, rfl, rfl, rfl⟩

private theorem unregistering_message {src : Int} {msg : ActorMessage} {s : ActorServer}
    (h : ∀ data, msg ≠ .registerFutureData key data) : Unregistering key s (.message src msg) := by
  constructor
  · intro hr
    cases msg with
    | registerFutureData k data =>
      obtain rfl : k = key := hr
      exact h data rfl
    | _ => exact hr
  · intro comm hc
    cases hc

/-- Fetch, registration, release: the registration runs the fetch. -/
theorem fetch_survives_release_sample :
    ∃ s₁ s₂ s₃ out, Act.trace sampleStep [.message 4 (.fetch sampleFetch)] sampleHead =
        ([[]], .ok s₁) ∧
      sampleStep (.message 0 (.registerFutureData 5 sampleData)) s₁ = (out, .ok ((), s₂)) ∧
      Act.trace sampleStep [.message 4 (.releaseFuture 5)] s₂ = ([[]], .ok s₃) ∧
      fetchRuns 5 out = [(sampleFetch, sampleData)] ∧ s₃.askedFetch 5 = none := by
  refine ⟨_, _, _, _, rfl, rfl, rfl, ?_⟩
  have h := fetch_survives_release_iff freshKey_sampleHead
    (show Act.trace sampleStep [.message 4 (.fetch sampleFetch)] sampleHead = (_, .ok _) from rfl)
    (show sampleStep (.message 0 (.registerFutureData 5 sampleData)) _ = (_, .ok ((), _)) from rfl)
    (show Act.trace sampleStep [.message 4 (.releaseFuture 5)] _ = (_, .ok _) from rfl)
    ⟨unregistering_message (by simp), fun _ _ _ => trivial⟩
    ⟨unregistering_message (by simp), fun _ _ _ => trivial⟩ rfl rfl
  obtain ⟨-, hrun, -, hgone⟩ := h.mpr (.inl rfl)
  exact ⟨hrun, hgone⟩

end ActiveBsp.EarlyRelease
