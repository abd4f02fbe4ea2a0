import ActiveBsp.Management.Prefetch
import ActiveBsp.Mpi.MPIActorCommunicator
import ActiveBsp.Serialization.RoundTrip

/-!
# Releases of a prefetched distribution

The distribution of a prefetch is known before its bytes are there. A client
that releases it races with the source processes: each target process must
handle all pieces of its part before the release.
-/
namespace ActiveBsp.Prefetch

open Library Library.Buffer Library.Tiling ActorServer MPIActorCommunicator
  Serialization Serialization.ArchiveFormat

set_option autoImplicit false

variable {codec : Codec} {msg : FetchMessage}

/-- What a client sends that releases the prefetched distribution. -/
def releases (client : Int) (msg : FetchMessage) : List (Int × Input) :=
  (dvRelease (prefetchedDistribution msg.npids msg)).map fun r => (r.1, .message client r.2)

theorem releases_eq (client : Int) (msg : FetchMessage) :
    releases client msg =
      (List.range msg.npids).map fun i => (msg.pid i, releaseInput client (msg.key i)) := by
  rw [releases, dvRelease, prefetchedDistribution, VectorDistribution.registerPart_all,
    List.map_map, List.map_map]
  rfl

/-- Every target process gets one release, for its own part. -/
theorem inputsTo_releases (dst : Target msg) (client : Int) {i : Nat} (hi : i < msg.npids) :
    Act.inputsTo (msg.pid i) (releases client msg) = [releaseInput client (msg.key i)] := by
  have hlen : i < (List.range msg.npids).length := by rwa [List.length_range]
  rw [releases_eq, List.map_eq_flatMap, Act.inputsTo_flatMap, Lists.flatMap_of_unique hlen]
  · rw [List.getElem_range, Act.inputsTo_cons, if_pos rfl]
    rfl
  · intro j hj hji
    rw [List.length_range] at hj
    have hne : msg.pid j ≠ msg.pid i := fun he => hji (FetchMessage.pid_inj dst.nodup hj hi he)
    rw [List.getElem_range, Act.inputsTo_cons, if_neg hne]
    rfl

theorem inputsTo_releases_of_not_mem (client : Int) {d : Int}
    (hd : ∀ i < msg.npids, msg.pid i ≠ d) : Act.inputsTo d (releases client msg) = [] := by
  rw [releases_eq, List.map_eq_flatMap, Act.inputsTo_flatMap]
  refine Lists.flatMap_eq_nil fun i hi => ?_
  rw [Act.inputsTo_cons, if_neg (hd i (List.mem_range.mp hi))]
  rfl

/-- Each target process by itself: no fault, and no part at the end, exactly when its release
comes after all its pieces. -/
theorem Target.release_last_iff (src : Source codec msg) (dst : Target msg) {sender client : Int}
    {order : List (Int × Input)}
    (horder : order.Perm (src.deliveries sender ++ releases client msg)) {i : Nat}
    (hi : i < msg.npids) :
    (∃ s', Act.Ends (step codec) (Act.inputsTo (msg.pid i) order) (dst.state (msg.pid i)) s' ∧
        PartAbsent s' (msg.key i)) ↔
      (Act.inputsTo (msg.pid i) order).getLast? = some (releaseInput client (msg.key i)) := by
  obtain ⟨t, ht, hk⟩ := dst.prepared i hi
  have hlen : msg.blockLen i < 2 ^ 64 := by
    have hb := src.bound_le dst (i := i + 1) hi
    have hs := src.small
    unfold FetchMessage.blockLen
    omega
  refine ActorServer.release_last_iff (dst.ready i hi) ht hk (src.piecesFit dst hi) hlen
    (dst.waiting i hi) ?_
  have hperm := Act.inputsTo_perm (msg.pid i) horder
  rw [Act.inputsTo_append, inputsTo_releases dst client hi] at hperm
  exact hperm.trans ((src.inputsTo_deliveries dst sender hi).append_right _)

/-- The pieces of a prefetch and the releases of its distribution, in any interleaving, are
handled without a fault and leave no part, exactly when every target process handles its
release after all the pieces of its part. -/
theorem release_safe_iff (src : Source codec msg) (dst : Target msg) {sender client : Int}
    {order : List (Int × Input)}
    (horder : order.Perm (src.deliveries sender ++ releases client msg)) :
    (∃ after, Act.Ends (Act.side (step codec)) order dst.state after ∧
        ∀ i < msg.npids, PartAbsent (after (msg.pid i)) (msg.key i)) ↔
      ∀ i < msg.npids,
        (Act.inputsTo (msg.pid i) order).getLast? = some (releaseInput client (msg.key i)) := by
  constructor
  · rintro ⟨after, hends, habsent⟩ i hi
    exact (dst.release_last_iff src horder hi).mp
      ⟨after (msg.pid i), Act.ends_side_iff.mp hends (msg.pid i), habsent i hi⟩
  · intro hlast
    have heach : ∀ d, ∃ s', Act.Ends (step codec) (Act.inputsTo d order) (dst.state d) s' ∧
        ∀ i < msg.npids, msg.pid i = d → PartAbsent s' (msg.key i) := by
      intro d
      by_cases hd : ∃ i < msg.npids, msg.pid i = d
      · obtain ⟨i, hi, rfl⟩ := hd
        obtain ⟨s', hends, habsent⟩ := (dst.release_last_iff src horder hi).mpr (hlast i hi)
        refine ⟨s', hends, fun j hj he => ?_⟩
        obtain rfl := FetchMessage.pid_inj dst.nodup hj hi he
        exact habsent
      · have hne : ∀ i < msg.npids, msg.pid i ≠ d := fun i hi he => hd ⟨i, hi, he⟩
        have hperm := Act.inputsTo_perm d horder
        rw [Act.inputsTo_append, src.inputsTo_deliveries_of_not_mem dst sender hne,
          inputsTo_releases_of_not_mem client hne] at hperm
        refine ⟨dst.state d, ?_, fun i hi he => absurd he (hne i hi)⟩
        rw [hperm.eq_nil]
        exact Act.ends_nil.mpr rfl
    choose after hends habsent using heach
    exact ⟨after, Act.ends_side_iff.mpr hends, fun i hi => habsent _ i hi rfl⟩

def sampleVector : Bytes := (List.range 40).map UInt8.ofNat

/-- Processes 2 and 3 want the vector that process 1 keeps under key 3. -/
def samplePrefetch : FetchMessage := ⟨[2, 3], [7, 8], 5, 1, 40⟩

def sampleSource : Source sampleFormat.codec samplePrefetch where
  content := sampleVector
  dv := sampleDistribution
  pids := [1]
  state _ :=
    { pid := 1
      pids := [1]
      intraActorComm := some ⟨0, 1⟩
      futureDataStore := PartialMap.empty.set 5 (sampleFormat.codec.serializeAll sampleDistribution)
      dataStore := .single 3 (.ofMessage sampleVector) }
  small := by decide
  dvSize_eq := rfl
  tiles := by
    constructor
    · intro r hr
      rw [List.mem_singleton.mp hr]
      decide
    · decide
  nodup := by decide
  owned := by decide
  pid_eq q hq := (List.mem_singleton.mp hq).symm
  free _ _ := rfl
  fetching _ _ := .inl ⟨rfl, rfl, ⟨_, rfl, rfl⟩, _, rfl,
    deserializeAll_serializeAll valid_sampleDistribution⟩
  stored _ _ := by
    refine ⟨_, DataStore.single_represents 3 (.ofMessage sampleVector), fun part hp _ _ => ?_⟩
    rw [List.mem_singleton.mp hp]
    rfl

def sampleTargetState (pid key : Int) : ActorServer :=
  { pid := pid
    pids := [2, 3]
    dataStore := .single key (.prepared 20) }

def sampleTarget : Target samplePrefetch where
  state pid := sampleTargetState pid (pid + 5)
  pos := by decide
  small := by decide
  keys_length := rfl
  nodup := by decide
  ready _ _ := ⟨rfl, rfl, rfl⟩
  prepared i hi := by
    refine ⟨_, DataStore.single_represents _ (.prepared 20), ?_⟩
    have hcases : i = 0 ∨ i = 1 := by
      have : i < 2 := hi
      omega
    rcases hcases with rfl | rfl <;> rfl
  waiting _ _ _ hr := nomatch hr

/-- The releases after all pieces. -/
theorem release_safe_sample :
    ∃ after, Act.Ends (Act.side (step sampleFormat.codec))
        (sampleSource.deliveries 2 ++ releases 4 samplePrefetch) sampleTarget.state after ∧
      ∀ i < samplePrefetch.npids,
        PartAbsent (after (samplePrefetch.pid i)) (samplePrefetch.key i) := by
  refine (release_safe_iff sampleSource sampleTarget (List.Perm.refl _)).mpr fun i hi => ?_
  rw [Act.inputsTo_append, inputsTo_releases sampleTarget 4 hi, List.getLast?_concat]

/-- The releases before the pieces: the first piece breaks an assertion. -/
theorem early_release_fails :
    (releases 4 samplePrefetch ++ sampleSource.deliveries 2).Perm
        (sampleSource.deliveries 2 ++ releases 4 samplePrefetch) ∧
      ∃ outs, Act.trace (Act.side (step sampleFormat.codec))
        (releases 4 samplePrefetch ++ sampleSource.deliveries 2) sampleTarget.state =
          (outs, .error (.assertion .addDataPart)) :=
  ⟨List.perm_append_comm, _, rfl⟩

end ActiveBsp.Prefetch
