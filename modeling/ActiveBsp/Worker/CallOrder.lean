import ActiveBsp.Worker.KeyOrder

/-!
# Calls are neither lost, duplicated nor reordered

The books of a run stay balanced whatever the order of the two threads' steps:
the caller's keys, the worker's calls and the registered results are three
readings of one list, the accepted calls. The keys are consecutive unless the
constructor of the object and the management thread make a key manager each.
-/
namespace ActiveBsp.ActorWorker

open Library

set_option autoImplicit false

variable {Obj : Type}

/-- The head when its manager has created the actor: the worker constructs the object or has done
so, and the process may have taken keys before. -/
structure Fresh (s : Head Obj) : Prop where
  single : s.keys.Single
  next : 0 ≤ s.keys.next
  messages : s.messages = []
  manager : s.manager = .idle
  worker : (∃ constructor, s.worker = .running none constructor) ∨ ∃ obj, s.worker = .looping obj

/-- Nothing is accepted after the stop request, and after the worker saw it only `stopActor`
is answered. -/
def StopsLast (e e' : Event) : Prop :=
  (e = .stopRequested → ∀ req, e' ≠ .accepted req) ∧ (e = .sawStop → ∃ dst, e' = .stopResponse dst)

section Run

variable {functions : Functions Obj} {inputs : List Input} {events out : List Event}
  {input : Input} {s s' : Head Obj} {first : Int}

theorem Fresh.balanced (hf : Fresh s) : Balanced [] [] s := by
  obtain ⟨keys, messages, manager, worker⟩ := s
  obtain ⟨-, -, rfl, rfl, ⟨program, rfl⟩ | ⟨obj, rfl⟩⟩ := hf <;>
    constructor <;> first | rfl | (intro req hr; cases hr)

theorem Fresh.counted (hf : Fresh s) : Counted s.keys.next [] s := by
  obtain ⟨keys, messages, manager, worker⟩ := s
  obtain ⟨hk, -, rfl, rfl, ⟨program, rfl⟩ | ⟨obj, rfl⟩⟩ := hf <;>
    exact ⟨hk, trivial, trivial, fun _ => rfl, fun _ => rfl, fun _ => (Int.add_zero _).symm⟩

theorem Balanced.stop_requested (hb : Balanced inputs events s) (h : Event.stopRequested ∈ events) :
    s.manager.stopPosted = [stopRequest] := by
  have hmem : stopRequest ∈ posted events := List.mem_filterMap.mpr ⟨_, h, rfl⟩
  rw [hb.stopLast] at hmem
  rcases List.mem_append.mp hmem with hm | hm
  · exact absurd rfl (hb.accepted_sender _ hm)
  · exact (Manager.eq_stopRequest hm).2

theorem Balanced.saw_stop (hb : Balanced inputs events s) (h : Event.sawStop ∈ events) :
    ∃ obj, s.worker = .finished obj := by
  have hmem : stopRequest ∈ seen events := List.mem_filterMap.mpr ⟨_, h, rfl⟩
  rw [hb.seenLast] at hmem
  rcases List.mem_append.mp hmem with hm | hm
  · exact absurd rfl (hb.senders _ hm)
  · cases hw : s.worker with
    | finished obj => exact ⟨obj, rfl⟩
    | _ =>
      rw [hw] at hm
      cases hm

/-- The management thread is in `stopActor` or has left it, and accepts nothing. -/
private theorem turn_after_request (ht : Turn functions input s out s')
    (hm : s.manager.stopPosted = [stopRequest]) : ∀ e ∈ out, ∀ req, e ≠ .accepted req := by
  intro e he req heq
  subst heq
  cases ht with
  | post => cases hm
  | startUnknown =>
    rcases List.mem_cons.mp he with h | h
    · cases h
    · cases List.mem_singleton.mp h
  | _ => first | cases List.mem_singleton.mp he | cases he

private theorem turn_after_exit (ht : Turn functions input s out s')
    (hm : s.manager.stopPosted = [stopRequest]) {obj : Obj} (hw : s.worker = .finished obj) :
    ∀ e ∈ out, ∃ dst, e = .stopResponse dst := by
  intro e he
  cases ht with
  | joinAnswer => exact ⟨_, List.mem_singleton.mp he⟩
  | join => cases he
  | _ => first | cases hm | cases hw

theorem Balanced.stops_last (hb : Balanced inputs events s)
    (ht : Turn functions input s out s') (hp : events.Pairwise StopsLast) :
    (events ++ out).Pairwise StopsLast := by
  have hout : out.Pairwise StopsLast := by
    cases ht with
    | startUnknown =>
      refine List.pairwise_pair.mpr ⟨fun h => ?_, fun h => ?_⟩ <;> cases h
    | _ => first | exact List.pairwise_singleton _ _ | exact .nil
  refine List.pairwise_append.mpr ⟨hp, hout, fun e he e' he' => ⟨fun heq => ?_, fun heq => ?_⟩⟩
  · exact turn_after_request ht (hb.stop_requested (heq ▸ he)) e' he'
  · obtain ⟨obj, hw⟩ := hb.saw_stop (heq ▸ he)
    exact turn_after_exit ht (hb.finished hw).2.2 hw e' he'

/-- What holds at the end of every run. -/
structure Kept (first : Int) (inputs : List Input) (events : List Event) (s : Head Obj) : Prop where
  balanced : Balanced inputs events s
  counted : Counted first events s
  stopsLast : events.Pairwise StopsLast

theorem Kept.turn (hk : Kept first inputs events s) (hfirst : 0 ≤ first) (ha : Apart s)
    (ht : Turn functions input s out s') : Kept first (inputs ++ [input]) (events ++ out) s' :=
  ⟨hk.balanced.turn ht, hk.counted.turn hfirst ha ht, hk.balanced.stops_last ht hk.stopsLast⟩

theorem Fresh.run {s₀ : Head Obj} {outs : List (List Event)} (hf : Fresh s₀)
    (ha : Act.Along (step functions) (fun s _ => Apart s) inputs s₀)
    (h : Act.trace (step functions) inputs s₀ = (outs, .ok s)) :
    Kept s₀.keys.next inputs outs.flatten s := by
  have hstep : ∀ is events s input out s', Kept s₀.keys.next is events s → Apart s →
      step functions input s = (out, .ok ((), s')) →
      Kept s₀.keys.next (is ++ [input]) (events ++ out) s' :=
    fun _ _ _ _ _ _ hk ha hs => hk.turn hf.next ha (step_cases hs)
  exact Act.trace_history hstep ⟨hf.balanced, hf.counted, .nil⟩ ha h

theorem Counted.nodup (hc : Counted first events s)
    (hbound : first + (keysTaken events).length < 2 ^ 31) :
    ((keysTaken events).map Prod.snd).Nodup := by
  rw [hc.consecutive hbound]
  refine List.Nodup.map ?_ List.nodup_range
  intro i j hij
  simp only at hij
  omega

/-- Keys taken for two purposes differ, and those taken for one differ from each other. -/
theorem keysFor_nodup (hn : ((keysTaken events).map Prod.snd).Nodup) {p q : Purpose} (hpq : p ≠ q) :
    (keysFor p events ++ keysFor q events).Nodup := by
  have hsub (r : Purpose) : (keysFor r events).Nodup := hn.sublist (List.filter_sublist.map _)
  refine List.nodup_append.mpr ⟨hsub p, hsub q, fun x hx y hy hxy => ?_⟩
  obtain ⟨a, ha, rfl⟩ := List.mem_map.mp hx
  obtain ⟨b, hb, rfl⟩ := List.mem_map.mp hy
  rw [List.mem_filter, decide_eq_true_eq] at ha hb
  have hab : a = b := List.inj_on_of_nodup_map hn ha.1 hb.1 hxy
  exact hpq (ha.2.symm.trans (hab ▸ hb.2))

end Run

/-- The callers' keys, the worker's calls and the registered results, over one run. -/
structure CallsInOrder (inputs : List Input) (events : List Event) (s : Head Obj) : Prop where
  /-- The keys that callers got differ from each other and from those of stored parts. -/
  keys_distinct : ((responses events).map Prod.snd ++ keysFor .part events).Nodup
  stored : storedKeys events <+: keysFor .part events
  /-- The calls are accepted in the order they arrived, and answered with their keys. -/
  received : (accepted events).map (fun req => (req.sender, req.callActorMessage)) <+: calls inputs
  answered : responses events <+: (accepted events).map fun req => (req.sender, req.localkey)
  started : started events <+: accepted events
  returned : (returned events).map Prod.fst <+: ActorWorker.started events
  registered : registrations events <+:
    (ActorWorker.returned events).map fun done => (done.1.localkey, done.2)
  /-- The worker waits for a message only when it has served every accepted call. -/
  waiting : (∃ obj, s.worker = .looping obj) → s.messages = [] →
    (ActorWorker.returned events).map Prod.fst = accepted events ∧ registrations events =
      (ActorWorker.returned events).map fun done => (done.1.localkey, done.2)
  stopLast : ∀ before after, events = before ++ .stopRequested :: after →
    accepted before = accepted events
  /-- The worker sees the stop request after every accepted call, and nothing comes after it. -/
  exit : ∀ before after, events = before ++ .sawStop :: after →
    (ActorWorker.returned before).map Prod.fst = accepted events ∧ registrations before =
      (ActorWorker.returned before).map (fun done => (done.1.localkey, done.2)) ∧
      ∀ e ∈ after, ∃ dst, e = .stopResponse dst

section Order

variable {inputs : List Input} {events : List Event} {s : Head Obj} {first : Int}

theorem Balanced.waiting (hb : Balanced inputs events s) {obj : Obj}
    (hw : s.worker = .looping obj) (hm : s.messages = []) :
    (returned events).map Prod.fst = accepted events ∧ registrations events =
      (returned events).map fun done => (done.1.localkey, done.2) := by
  have hposted : accepted events ++ s.manager.stopPosted = started events := by
    rw [← hb.stopLast, hb.queued, hb.seenLast, hw, hm]
    simp [Worker.stopSeen, Worker.held]
  obtain ⟨rest, hrest⟩ := hb.started_prefix
  have hnil : rest ++ s.manager.stopPosted = [] := by
    rw [← hrest, List.append_assoc] at hposted
    exact List.append_right_eq_self.mp hposted
  have hreturned := hb.running
  have hregistered := hb.registered
  rw [hw] at hreturned hregistered
  refine ⟨?_, ?_⟩
  · rw [← hrest, (List.append_eq_nil_iff.mp hnil).1, List.append_nil, hreturned]
    exact (List.append_nil _).symm
  · rw [hregistered]
    exact (List.append_nil _).symm

/-- What was returned and registered before the worker saw the stop request is all there is. -/
theorem Kept.exit (hk : Kept first inputs events s) {before after : List Event}
    (h : events = before ++ .sawStop :: after) :
    (returned before).map Prod.fst = accepted events ∧ registrations before =
      (returned before).map (fun done => (done.1.localkey, done.2)) ∧
      ∀ e ∈ after, ∃ dst, e = .stopResponse dst := by
  have hafter : ∀ e ∈ after, ∃ dst, e = .stopResponse dst := by
    have hp := hk.stopsLast
    rw [h] at hp
    intro e he
    exact ((List.pairwise_cons.mp (List.pairwise_append.mp hp).2.1).1 e he).2 rfl
  have hquiet {β : Type} (f : Event → Option β) (hs : f .sawStop = none)
      (hd : ∀ dst, f (.stopResponse dst) = none) : events.filterMap f = before.filterMap f := by
    have hnil : after.filterMap f = [] := by
      refine List.filterMap_eq_nil_iff.mpr fun e he => ?_
      obtain ⟨dst, rfl⟩ := hafter e he
      exact hd dst
    rw [h, List.filterMap_append, List.filterMap_cons, hs, hnil, List.append_nil]
  obtain ⟨obj, hw⟩ := hk.balanced.saw_stop (h ▸ List.mem_append_right _ List.mem_cons_self)
  have hreturned : returned events = returned before := hquiet _ rfl fun _ => rfl
  have hregistered : registrations events = registrations before := hquiet _ rfl fun _ => rfl
  have hr := hk.balanced.running
  have hg := hk.balanced.registered
  rw [hw] at hr hg
  rw [hreturned] at hr hg
  refine ⟨?_, ?_, hafter⟩
  · rw [(hk.balanced.finished hw).1, hr]
    exact (List.append_nil _).symm
  · rw [← hregistered, hg]
    exact (List.append_nil _).symm

theorem Kept.stop_last (hk : Kept first inputs events s) {before after : List Event}
    (h : events = before ++ .stopRequested :: after) : accepted before = accepted events := by
  have hp := hk.stopsLast
  rw [h] at hp
  have hnil : accepted after = [] := by
    refine List.filterMap_eq_nil_iff.mpr fun e he => ?_
    have hne := ((List.pairwise_cons.mp (List.pairwise_append.mp hp).2.1).1 e he).1 rfl
    cases e with
    | accepted req => exact absurd rfl (hne req)
    | _ => rfl
  rw [h, accepted, accepted, List.filterMap_append, List.filterMap_cons]
  exact (congrArg _ hnil).trans (List.append_nil _) |>.symm

/-- What the worker thread may have to wait for: a call, or what its method or the constructor wants
to learn. -/
def Worker.Learns (worker : Worker Obj) : Prop :=
  ∃ task own next, worker = .running task (.learn own next)

/-- The worker thread stops for an empty queue, to learn something, at its end and when a method
throws, and for nothing else. -/
theorem Kept.worker_goes_on (hk : Kept first inputs events s) (functions : Functions Obj) :
    (∃ out s', ∀ learnt, workerTurn functions learnt s = (out, .ok ((), s'))) ∨
      (∃ obj, s.worker = .looping obj ∧ s.messages = []) ∨ s.worker.Learns ∨
      (∃ task, s.worker = .running task .throw) ∨ ∃ obj, s.worker = .finished obj := by
  obtain ⟨keys, messages, manager, worker⟩ := s
  cases worker with
  | looping obj =>
    cases messages with
    | nil => exact .inr (.inl ⟨obj, rfl, rfl⟩)
    | cons req rest => exact .inl ⟨_, _, fun _ => rfl⟩
  | handling req obj =>
    refine .inl ?_
    simp only [workerTurn]
    split
    · exact ⟨_, _, fun _ => rfl⟩
    · split <;> exact ⟨_, _, fun _ => rfl⟩
  | running task program =>
    cases program with
    | throw => exact .inr (.inr (.inr (.inl ⟨task, rfl⟩)))
    | learn own next => exact .inr (.inr (.inl ⟨task, own, next, rfl⟩))
    | _ => cases task <;> exact .inl ⟨_, _, fun _ => rfl⟩
  | takingKey phase task buf next =>
    refine .inl ?_
    have hsome := keyTurn_isSome hk.counted.single hk.counted.worker
    simp only [workerTurn]
    split
    · rename_i hnone
      rw [hnone] at hsome
      cases hsome
    · exact ⟨_, _, fun _ => rfl⟩
    · exact ⟨_, _, fun _ => rfl⟩
  | storing task key buf program => exact .inl ⟨_, _, fun _ => rfl⟩
  | reporting req serial obj => exact .inl ⟨_, _, fun _ => rfl⟩
  | finished obj => exact .inr (.inr (.inr (.inr ⟨obj, rfl⟩)))

/-- Once it has learnt it the worker goes on. -/
theorem Worker.Learns.turn (h : s.worker.Learns) (functions : Functions Obj) (learnt : Bytes) :
    ∃ s', workerTurn functions learnt s = ([], .ok ((), s')) := by
  obtain ⟨keys, messages, manager, worker⟩ := s
  obtain ⟨task, own, next, rfl⟩ := h
  cases task <;> exact ⟨_, rfl⟩

end Order

/-- In every run of the two threads that takes fewer than `2 ^ 31` keys, and in which no thread finds
no key manager while the other one is about to make it, the worker serves exactly the calls that
callers were told of, in their order and under their keys. -/
theorem calls_in_order {functions : Functions Obj} {inputs : List Input} {s₀ s : Head Obj}
    {outs : List (List Event)} (hf : Fresh s₀)
    (ha : Act.Along (step functions) (fun s _ => Apart s) inputs s₀)
    (h : Act.trace (step functions) inputs s₀ = (outs, .ok s))
    (hkeys : s₀.keys.next + (keysTaken outs.flatten).length < 2 ^ 31) :
    CallsInOrder inputs outs.flatten s := by
  have hk := hf.run ha h
  have hb := hk.balanced
  have hanswered : responses outs.flatten <+:
      (accepted outs.flatten).map fun req => (req.sender, req.localkey) := ⟨_, hb.answered.symm⟩
  have hcalls : (responses outs.flatten).map Prod.snd <+: keysFor .call outs.flatten := by
    refine (hanswered.map Prod.snd).trans ⟨s.manager.unposted, ?_⟩
    rw [hb.keyed, List.map_map]
    rfl
  exact {
    keys_distinct := (keysFor_nodup (hk.counted.nodup hkeys) (by decide)).sublist
      (hcalls.sublist.append (List.Sublist.refl _))
    stored := ⟨_, hb.stored.symm⟩
    received := ⟨_, hb.received.symm⟩
    answered := hanswered
    started := hb.started_prefix
    returned := ⟨_, hb.running.symm⟩
    registered := ⟨_, hb.registered.symm⟩
    waiting := fun ⟨_, hw⟩ hm => hb.waiting hw hm
    stopLast := fun _ _ => hk.stop_last
    exit := fun _ _ => hk.exit }

/-- One method, which stores its argument, waits for an answer and returns both. -/
def sampleFunctions : Functions Nat := fun name =>
  if name = "store" then
    some fun _ args obj =>
      .storeResult args fun _ => .learn false fun learnt => .done (args ++ learnt) (obj + 1)
  else none

/-- The constructor of the object stores a part. -/
def sampleHead : Head Nat :=
  ⟨⟨[], none⟩, [], .idle, .running none (.storeResult [1] fun _ => .done [] 0)⟩

/-- Two callers and a stop; the second call names no method, and arrives while the first runs. -/
def sampleInputs : List Input :=
  [List.replicate 7 (.worker []),
    .callActor 4 ⟨"store", [7], 30⟩ :: List.replicate 5 .manager,
    [.worker [], .worker [], .worker [], .worker [], .callActor 5 ⟨"drop", [], 31⟩, .manager,
      .worker [], .manager, .worker [], .manager, .worker [], .manager, .manager,
      .stopActor 4 true, .manager],
    List.replicate 7 (.worker [9]), [.worker [], .manager]].flatten

theorem fresh_sampleHead : Fresh sampleHead :=
  ⟨.inl rfl, by decide, rfl, rfl, .inl ⟨_, rfl⟩⟩

theorem calls_in_order_sample : ∃ outs s,
    Act.trace (step sampleFunctions) sampleInputs sampleHead = (outs, .ok s) ∧
    registrations outs.flatten = [(1, [7, 9]), (3, errorSerial)] ∧
    CallsInOrder sampleInputs outs.flatten s := by
  have hapart : Act.Along (step sampleFunctions) (fun s _ => Apart s) sampleInputs sampleHead := by
    decide +kernel
  have hreturns : (Act.trace (step sampleFunctions) sampleInputs sampleHead).2.toOption.isSome := by
    decide +kernel
  obtain ⟨s, hs⟩ := Act.trace_of_isSome hreturns
  exact ⟨_, s, hs, by decide +kernel,
    calls_in_order fresh_sampleHead hapart hs (by decide +kernel)⟩

/-- Client 4 calls while the constructor takes a key: both threads find no key manager. -/
def racingInputs : List Input :=
  [.worker [], .worker [], .callActor 4 ⟨"store", [7], 30⟩, .manager, .manager, .manager,
    .worker [], .manager, .worker [], .worker [], .manager, .manager]

/-- The key that the caller gets is the key of the part that the constructor stores. -/
theorem call_key_is_part_key : ∃ outs s, Fresh sampleHead ∧
    Act.trace (step sampleFunctions) racingInputs sampleHead = (outs, .ok s) ∧
    sampleHead.keys.next + (keysTaken outs.flatten).length < 2 ^ 31 ∧
    responses outs.flatten = [(4, 0)] ∧ keysFor .part outs.flatten = [0] ∧
    ¬ CallsInOrder racingInputs outs.flatten s := by
  have hreturns : (Act.trace (step sampleFunctions) racingInputs sampleHead).2.toOption.isSome := by
    decide +kernel
  obtain ⟨s, hs⟩ := Act.trace_of_isSome hreturns
  refine ⟨_, s, fresh_sampleHead, hs, by decide +kernel, by decide +kernel, by decide +kernel,
    fun h => ?_⟩
  exact absurd h.keys_distinct (by decide +kernel)

end ActiveBsp.ActorWorker
