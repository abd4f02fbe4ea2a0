import ActiveBsp.Management.ActorServer

/-!
# Futures at the manager

What each handler of a future does, in one equation.
-/
namespace ActiveBsp.ActorServer

open Library

set_option autoImplicit false

variable {codec : Codec} {s : ActorServer} {key : Int} {data : Bytes}

theorem registerFuture_forgets (hp : s.pendingFutureRequests key = none)
    (hd : s.askedFutureDelete key = true) :
    registerFuture codec key data s =
      ([], .ok ((), { s with
        askedFutureDelete := Function.update s.askedFutureDelete key false })) := by
  simp only [registerFuture, Act.get_bind, hp, hd, and_self, if_true, Act.modify_apply]

theorem checkFutureRequired_of_none (h : s.askedFetch key = none) :
    checkFutureRequired codec key s = ([], .ok ((), s)) := by
  simp only [checkFutureRequired, Act.get_bind, h, Act.pure_apply]

theorem checkFutureRequired_of_some {msg : FetchMessage} {out : List Output}
    (h : s.askedFetch key = some msg) (hrun : fetchDv codec msg s = (out, .ok ((), s))) :
    checkFutureRequired codec key s =
      (out, .ok ((), { s with askedFetch := s.askedFetch.erase key })) := by
  simp only [checkFutureRequired, Act.get_bind, h]
  rw [Act.bind_of_ok hrun, Act.modify_apply, List.append_nil]

theorem servePending_eq {pending : Option (List Int)} (hp : s.pendingFutureRequests key = pending) :
    servePending key data pending s =
      ((pending.getD []).map (fun pid => .futureData pid data),
        .ok ((), { s with pendingFutureRequests := s.pendingFutureRequests.erase key })) := by
  cases pending with
  | none =>
    rw [PartialMap.erase_of_none hp]
    rfl
  | some pids =>
    simp only [servePending]
    rw [Act.bind_of_ok (Act.forM_emit _ pids s), Act.modify_apply, List.append_nil,
      Option.getD_some]

theorem removeIfAsked_eq :
    removeIfAsked key s = ([], .ok ((), { s with
      askedFutureDelete := Function.update s.askedFutureDelete key false
      futureDataStore := if s.askedFutureDelete key = true then s.futureDataStore.erase key
        else s.futureDataStore })) := by
  unfold removeIfAsked
  rw [Act.get_bind]
  by_cases hd : s.askedFutureDelete key = true
  · rw [if_pos hd, if_pos hd, Act.modify_apply]
  · have hf : Function.update s.askedFutureDelete key false = s.askedFutureDelete := by
      rw [Function.update_eq_self_iff]
      simpa using hd
    rw [if_neg hd, if_neg hd, hf]
    rfl

/-- The maps after a registration whose data is kept. -/
def registered (s : ActorServer) (key : Int) (data : Bytes) : ActorServer :=
  { s with
    futureDataStore := if s.askedFutureDelete key = true then s.futureDataStore.erase key
      else s.futureDataStore.set key data
    pendingFutureRequests := s.pendingFutureRequests.erase key
    askedFutureDelete := Function.update s.askedFutureDelete key false
    askedFetch := s.askedFetch.erase key }

@[simp] theorem registered_stored : (s.registered key data).futureDataStore key =
    if s.askedFutureDelete key = true then none else some data := by
  by_cases h : s.askedFutureDelete key = true <;> simp [registered, h]

@[simp] theorem registered_pending : (s.registered key data).pendingFutureRequests key = none :=
  PartialMap.erase_self _ _

@[simp] theorem registered_askedDelete : (s.registered key data).askedFutureDelete key = false :=
  Function.update_self _ _ _

@[simp] theorem registered_askedFetch : (s.registered key data).askedFetch key = none :=
  PartialMap.erase_self _ _

theorem registered_stored_of_ne {k : Int} (h : k ≠ key) :
    (s.registered key data).futureDataStore k = s.futureDataStore k := by
  by_cases hd : s.askedFutureDelete key = true <;> simp [registered, hd, h]

/-- The waiting fetch comes first, then the pending readers in order, then an early release. -/
theorem registerFuture_of_checked {fetched : List Output}
    (hn : ¬ (s.pendingFutureRequests key = none ∧ s.askedFutureDelete key = true))
    (hc : checkFutureRequired codec key { s with futureDataStore := s.futureDataStore.set key data } =
      (fetched, .ok ((), { s with
        futureDataStore := s.futureDataStore.set key data
        askedFetch := s.askedFetch.erase key }))) :
    registerFuture codec key data s =
      (fetched ++ ((s.pendingFutureRequests key).getD []).map (fun pid => .futureData pid data),
        .ok ((), s.registered key data)) := by
  unfold registerFuture
  rw [Act.get_bind, if_neg hn, Act.modify_bind, Act.bind_of_ok hc,
    Act.bind_of_ok (servePending_eq (by rfl)), removeIfAsked_eq]
  simp only [registered, List.append_nil, PartialMap.erase_set]

theorem registerFuture_serves (hf : s.askedFetch key = none)
    (hn : ¬ (s.pendingFutureRequests key = none ∧ s.askedFutureDelete key = true)) :
    registerFuture codec key data s =
      (((s.pendingFutureRequests key).getD []).map (fun pid => .futureData pid data),
        .ok ((), s.registered key data)) := by
  have h : registerFuture codec key data s =
      ([] ++ ((s.pendingFutureRequests key).getD []).map (fun pid => .futureData pid data),
        .ok ((), s.registered key data)) := by
    apply registerFuture_of_checked hn
    rw [PartialMap.erase_of_none hf]
    exact checkFutureRequired_of_none hf
  rwa [List.nil_append] at h

theorem handleGetFutureData_of_some {src : Int} (h : s.futureDataStore key = some data) :
    handleGetFutureData src key s = ([.futureData src data], .ok ((), s)) := by
  simp only [handleGetFutureData, Act.get_bind, h, Act.emit_apply]

theorem handleGetFutureData_of_none {src : Int} (h : s.futureDataStore key = none) :
    handleGetFutureData src key s = ([], .ok ((), { s with
      pendingFutureRequests := s.pendingFutureRequests.set key
        ((s.pendingFutureRequests key).getD [] ++ [src]) })) := by
  simp only [handleGetFutureData, Act.get_bind, h, Act.modify_apply]

theorem handleReleaseFutureMessage_of_some (h : s.futureDataStore key = some data) :
    handleReleaseFutureMessage key s = ([], .ok ((), { s with
      futureDataStore := s.futureDataStore.erase key })) := by
  simp only [handleReleaseFutureMessage, Act.get_bind, h, Act.modify_apply]

theorem handleReleaseFutureMessage_of_none (h : s.futureDataStore key = none) :
    handleReleaseFutureMessage key s = ([], .ok ((), { s with
      askedFutureDelete := Function.update s.askedFutureDelete key true })) := by
  simp only [handleReleaseFutureMessage, Act.get_bind, h, Act.modify_apply]

end ActiveBsp.ActorServer
