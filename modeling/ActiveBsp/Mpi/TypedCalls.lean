import ActiveBsp.Actormsg.EnvelopeRoundTrip
import ActiveBsp.Mpi.CallRuns
import ActiveBsp.Serialization.ContiguousSerialization

/-!
# Calls with the types of their methods

A proxy serializes the arguments of a call; the handler of the method takes them
out of the buffer, calls the method and serializes its result, which the future
takes out of its data at last. So clients and actor exchange values, and what
holds of the bytes of the calls holds of the values.
-/
namespace ActiveBsp.TypedCalls

open Library CallSessions
open ActorWorker (Functions Program accepted returned)
open Serialization.Contiguous

set_option autoImplicit false

variable {O : String → Type} {Obj : Type} {lib : Archive O}

/-- The bytes that a buffer of the predicted size may have when the values are written. -/
def Writes (lib : Archive O) (Ts : List ArgType) (args : Args O Ts) (bytes : Bytes) : Prop :=
  ∃ buf : Bytes, buf.length = predictSerializationSize lib Ts args ∧
    (serializeAllToBuf lib Ts buf args).2 = .ok bytes

/-- What the archive library promises: it reads what it has written. -/
def ReadsBack (lib : Archive O) (Ts : List ArgType) : Prop :=
  ∀ (args dst : Args O Ts) (buf bytes : Bytes),
    buf.length = lib.predictBoostSerializationSize Ts args →
    lib.boostSerializeAllToBuf Ts buf args = .ok bytes →
    lib.boostDeserializeAll Ts bytes dst = .ok args

/-- Values without pointers have fewer than 2^31 bytes. -/
def Sized (Ts : List ArgType) (args : Args O Ts) : Prop :=
  areContiguous Ts = true → totalSize Ts args < 2 ^ 31

variable {Ts : List ArgType} {args : Args O Ts} {bytes : Bytes}

theorem Writes.reads (h : Writes lib Ts args bytes) (hsized : Sized Ts args)
    (hlib : areContiguous Ts = false → ReadsBack lib Ts) (dst : Args O Ts) :
    (deserializeAll lib Ts bytes dst).2 = .ok args := by
  obtain ⟨buf, hbuf, hwrite⟩ := h
  cases hTs : areContiguous Ts with
  | false =>
    have hno : ¬ areContiguous Ts = true := by rw [hTs]; decide
    rw [predictSerializationSize, if_neg hno] at hbuf
    rw [serializeAllToBuf, if_neg hno] at hwrite
    rw [deserializeAll, if_neg hno]
    exact hlib hTs args dst buf bytes hbuf hwrite
  | true =>
    have hsize := hsized hTs
    rw [predictSerializationSize, if_pos hTs, predictAll_eq hTs args hsize] at hbuf
    obtain ⟨buf', hwritten, -, hholds, -⟩ := contiguousSerializeAll_ok hTs args hsize
      (show 0 + (imageAll Ts args).length ≤ buf.length by omega)
    rw [serializeAllToBuf, if_pos hTs, hwritten] at hwrite
    cases hwrite
    rw [deserializeAll, if_pos hTs, contiguousDeserializeAll_of_holds hTs args dst hsize hholds]
    rfl

/-- `serialize_all_to_vchar`. -/
def serializeAllToVchar (lib : Archive O) (Ts : List ArgType) (args : Args O Ts) :
    Except Fault Bytes :=
  (serializeAllToBuf lib Ts (List.replicate (predictSerializationSize lib Ts args) 0) args).2

theorem writes_vchar (h : serializeAllToVchar lib Ts args = .ok bytes) :
    Writes lib Ts args bytes := ⟨_, List.length_replicate, h⟩

/-- What a method does, until it returns a value. -/
inductive Body (V Obj : Type) where
  | done (res : V) (obj : Obj)
  | storeResult (buf : Bytes) (next : Int → Body V Obj)
  | learn (own : Bool) (next : Bytes → Body V Obj)
  | throw

/-- The method may return this value and leave this object. -/
inductive Body.Returns {V : Type} : Body V Obj → V → Obj → Prop
  | done {res obj} : Returns (.done res obj) res obj
  | storeResult {buf next res obj} (key : Int) (h : Returns (next key) res obj) :
      Returns (.storeResult buf next) res obj
  | learn {own next res obj} (learnt : Bytes) (h : Returns (next learnt) res obj) :
      Returns (.learn own next) res obj

structure Method (O : String → Type) (Obj : Type) where
  params : List ArgType
  result : ArgType
  /-- What the parameters hold before they are read. -/
  fresh : Args O params
  body : Int → Args O params → Obj → Body (Value O result) Obj

/-- The result is serialized. -/
def Body.serialize (lib : Archive O) (T : ArgType) : Body (Value O T) Obj → Program Obj
  | .done res obj =>
    match serializeAllToVchar lib [T] (res, ()) with
    | .ok serial => .done serial obj
    | .error _ => .throw
  | .storeResult buf next => .storeResult buf fun key => (next key).serialize lib T
  | .learn own next => .learn own fun learnt => (next learnt).serialize lib T
  | .throw => .throw

/-- `actor_function_handler` and `deserialize_call_serialize`. -/
def Method.handler (lib : Archive O) (m : Method O Obj) (reqId : Int) (buf : Bytes) (obj : Obj) :
    Program Obj :=
  match (deserializeAll lib m.params buf m.fresh).2 with
  | .ok args => (m.body reqId args obj).serialize lib m.result
  -- also for a read behind the buffer, which has no meaning
  | .error _ => .throw

/-- `register_function` for every method of the class. -/
def functions (lib : Archive O) (methods : String → Option (Method O Obj)) : Functions Obj :=
  fun f => (methods f).map (Method.handler lib)

theorem returns_of_serialize {T : ArgType} {body : Body (Value O T) Obj} {serial : Bytes} {obj : Obj}
    (h : (body.serialize lib T).Returns serial obj) :
    ∃ res, body.Returns res obj ∧ serializeAllToVchar lib [T] (res, ()) = .ok serial := by
  induction body with
  | done res obj' =>
    rw [Body.serialize] at h
    split at h
    · rename_i serial' hserial
      cases h
      exact ⟨res, .done, hserial⟩
    · cases h
  | storeResult buf next ih =>
    cases h with
    | storeResult key h =>
      obtain ⟨res, hres, hserial⟩ := ih key h
      exact ⟨res, .storeResult key hres, hserial⟩
  | learn own next ih =>
    cases h with
    | learn learnt h =>
      obtain ⟨res, hres, hserial⟩ := ih learnt h
      exact ⟨res, .learn learnt hres, hserial⟩
  | throw => cases h

/-- What the class promises: its other types are ones that the archive library can read, and its
results without pointers have fewer than 2^31 bytes. -/
structure Sound (lib : Archive O) (methods : String → Option (Method O Obj)) : Prop where
  params : ∀ f m, methods f = some m → areContiguous m.params = false → ReadsBack lib m.params
  result : ∀ f m, methods f = some m → areContiguous [m.result] = false → ReadsBack lib [m.result]
  sized : ∀ f m, methods f = some m → ∀ reqId args obj res obj',
    (m.body reqId args obj).Returns res obj' → Sized [m.result] (res, ())

/-- The message calls a method with arguments of its types. -/
structure Passes (lib : Archive O) (methods : String → Option (Method O Obj)) (f : String)
    (bytes : Bytes) where
  method : Method O Obj
  args : Args O method.params
  named : methods f = some method
  written : Writes lib method.params args bytes
  sized : Sized method.params args

/-- A call and its result, as values and as the bytes that carry them. -/
structure Call (lib : Archive O) (methods : String → Option (Method O Obj)) where
  req : ActiveObjectRequest
  serial : Bytes
  passes : Passes lib methods req.callActorMessage.functionName req.callActorMessage.args
  res : Value O passes.method.result
  /-- `Future<T>::get`. -/
  read : ∀ val, (deserializeAll lib [passes.method.result] serial (val, ())).2 = .ok (res, ())

def Call.done {methods : String → Option (Method O Obj)} (call : Call lib methods) :
    ActiveObjectRequest × Bytes := (call.req, call.serial)

/-- From one object to the other, the methods have returned these values. -/
inductive Sequential {methods : String → Option (Method O Obj)} :
    Obj → List (Call lib methods) → Obj → Prop
  | nil {obj} : Sequential obj [] obj
  | snoc {obj calls obj' obj''} (call : Call lib methods) (h : Sequential obj calls obj')
      (hreturns : (call.passes.method.body call.req.callActorMessage.futureKey call.passes.args
        obj').Returns call.res obj'') : Sequential obj (calls ++ [call]) obj''

variable {methods : String → Option (Method O Obj)}

/-- A call that was served is one of a method, on the values that were passed. -/
theorem call_of_serves (hsound : Sound lib methods) {req : ActiveObjectRequest} {obj obj' : Obj}
    {serial : Bytes}
    (hpasses : Nonempty (Passes lib methods req.callActorMessage.functionName
      req.callActorMessage.args))
    (h : ActorWorker.Serves (functions lib methods) req obj serial obj') :
    ∃ call : Call lib methods, call.done = (req, serial) ∧
      (call.passes.method.body call.req.callActorMessage.futureKey call.passes.args obj).Returns
        call.res obj' := by
  obtain ⟨passes⟩ := hpasses
  have hread := passes.written.reads passes.sized
    (hsound.params _ _ passes.named) passes.method.fresh
  rw [ActorWorker.Serves, functions, passes.named] at h
  simp only [Option.map_some, Method.handler, hread] at h
  obtain ⟨res, hres, hserial⟩ := returns_of_serialize h
  have hsized := hsound.sized _ _ passes.named _ _ _ _ _ hres
  exact ⟨⟨req, serial, passes, res, fun val => (writes_vchar hserial).reads hsized
    (hsound.result _ _ passes.named) (val, ())⟩, rfl, hres⟩

/-- The bytes of the calls stand for values, and the object serves the values. -/
theorem sequential_calls (hsound : Sound lib methods) {obj obj' : Obj}
    {history : List (ActiveObjectRequest × Bytes)}
    (h : ActorWorker.Sequential (functions lib methods) obj history obj')
    (hpasses : ∀ done ∈ history, Nonempty (Passes lib methods
      done.1.callActorMessage.functionName done.1.callActorMessage.args)) :
    ∃ calls : List (Call lib methods), calls.map Call.done = history ∧
      Sequential obj calls obj' := by
  induction h with
  | nil => exact ⟨[], rfl, .nil⟩
  | snoc h hserves ih =>
    obtain ⟨calls, hcalls, hsequential⟩ := ih fun done hdone =>
      hpasses done (List.mem_append_left _ hdone)
    obtain ⟨call, hdone, hreturns⟩ := call_of_serves hsound
      (hpasses _ (List.mem_append_right _ List.mem_cons_self)) hserves
    refine ⟨calls ++ [call], ?_, hsequential.snoc call hreturns⟩
    rw [List.map_append, hcalls, List.map_singleton, hdone]

/-- A buffer of their size holds the values and nothing else. -/
theorem writes_image (lib : Archive O) (hTs : areContiguous Ts = true)
    (hsize : totalSize Ts args < 2 ^ 31) :
    Writes lib Ts args (imageAll Ts args) := by
  refine ⟨imageAll Ts args, ?_, ?_⟩
  · rw [predictSerializationSize, if_pos hTs, predictAll_eq hTs args hsize]
  · obtain ⟨buf, hwritten, hlen, hholds, -⟩ := contiguousSerializeAll_ok hTs args hsize
      (show 0 + (imageAll Ts args).length ≤ (imageAll Ts args).length by omega)
    have hbuf : buf = imageAll Ts args := by
      have hslice := hholds.2
      rw [← hlen, Library.Buffer.slice, List.drop_zero, List.take_length] at hslice
      exact hslice
    rw [serializeAllToBuf, if_pos hTs, hwritten, hbuf]
    rfl

/-- Whatever the proxy has left in its buffer, a call with arguments without pointers comes to the
head as it was made, and the handler runs the method on the arguments that the caller passed. -/
theorem call_arrives (lib : Archive O) (m : Method O Obj) (args : Args O m.params)
    (functionName : Bytes) (memory : Nat → UInt8) (buf : Bytes)
    (hTs : areContiguous m.params = true) (hname : 0 ∉ functionName)
    (hsize : 21 + functionName.length + totalSize m.params args < 2 ^ 31) :
    ∃ step, (Actormsg.Reuse.callActor functionName 0
        (.contiguous (units m.params args))).send memory buf = some step ∧
      Actormsg.createMessage step.sent =
        some (.callActor functionName (imageAll m.params args) 0) ∧
      ∀ reqId obj, m.handler lib reqId (imageAll m.params args) obj =
        (m.body reqId args obj).serialize lib m.result := by
  have htotal : totalSize m.params args < 2 ^ 31 := by omega
  have hbytes := bytes_units hTs args
  have hvalid : (Actormsg.Envelope.callActor functionName 0
      (.contiguous (units m.params args))).Valid := by
    refine ⟨⟨hname, by decide, by decide⟩, ?_⟩
    rw [Actormsg.Envelope.size, ← Actormsg.Arguments.length_bytes, hbytes]
    change 4 + 16 + (functionName.length + 1) + totalSize m.params args < 2 ^ 31
    omega
  obtain ⟨step, hstep, hcarries⟩ := Actormsg.send_carries memory buf
    (r := .callActor functionName 0 (.contiguous (units m.params args))) hvalid
  have hcreated := hcarries.whole
  refine ⟨step, hstep, ?_, fun reqId obj => ?_⟩
  · rw [← hbytes]
    exact hcreated
  · have hread := (writes_image lib hTs htotal).reads (fun _ => htotal)
      (fun hno => absurd hTs (by rw [hno]; decide)) m.fresh
    rw [Method.handler, hread]

section Asked

variable {codec : Codec} {st : CallCluster Obj} {net net' : CallSessions Obj} {moves : List Move}
  {shown out : List CallEvent} {b : Int → HeadBooks}

/-- The client has made this call. -/
def Made (moves : List Move) (c q : Int) (f : String) (bytes : Bytes) : Prop :=
  ∃ var, Move.call c var q f bytes ∈ moves

structure Asked (moves : List Move) (shown : List CallEvent) (net : CallSessions Obj) : Prop where
  phase : ∀ c var q f bytes, net.phase c = .calling var q f bytes → Made moves c q f bytes
  called : ∀ c q f bytes key, .called c q f bytes key ∈ shown → Made moves c q f bytes

/-- Only a call starts to wait for a key, and what comes back is what was waited for. -/
theorem phase_of_step {move : Move}
    (hstep : step codec st.functions move net = (out, .ok ((), net'))) :
    (∀ c var q f bytes, net'.phase c = .calling var q f bytes →
      net.phase c = .calling var q f bytes ∨ move = .call c var q f bytes) ∧
    ∀ c q f bytes key, .called c q f bytes key ∈ out →
      ∃ var, net.phase c = .calling var q f bytes := by
  have hupdate {c : Int} {phase : CallerPhase} (hphases : net'.phase = Function.update net.phase c phase)
      (hcall : ∀ var q f bytes, phase = .calling var q f bytes → move = .call c var q f bytes) :
      ∀ c' var q f bytes, net'.phase c' = .calling var q f bytes →
        net.phase c' = .calling var q f bytes ∨ move = .call c' var q f bytes := by
    intro c' var q f bytes hphase
    rw [hphases, Function.update_apply] at hphase
    split_ifs at hphase with hc
    · exact .inr (hc ▸ hcall var q f bytes hphase)
    · exact .inl hphase
  have hquiet (hphases : net'.phase = net.phase) :
      ∀ c' var q f bytes, net'.phase c' = .calling var q f bytes →
        net.phase c' = .calling var q f bytes ∨ move = .call c' var q f bytes :=
    fun c' _ _ _ _ hphase => .inl (hphases ▸ hphase)
  have hnone : ∀ c q f bytes key, CallEvent.called c q f bytes key ∈ ([] : List CallEvent) →
      ∃ var, net.phase c = .calling var q f bytes :=
    fun _ _ _ _ _ hmem => absurd hmem List.not_mem_nil
  cases step_inversion hstep with
  | call => exact ⟨hupdate rfl fun _ _ _ _ heq => by cases heq; rfl, hnone⟩
  | @respond c var head f args key rest hphase hcodes =>
    refine ⟨hupdate rfl fun _ _ _ _ heq => (by cases heq), fun c' q f' args' key' hmem => ?_⟩
    cases List.mem_singleton.mp hmem
    exact ⟨var, hphase⟩
  | got =>
    refine ⟨hquiet rfl, fun _ _ _ _ _ hmem => ?_⟩
    cases List.mem_singleton.mp hmem
  | get => exact ⟨hupdate rfl fun _ _ _ _ heq => (by cases heq), hnone⟩
  | retrieve =>
    refine ⟨hupdate rfl fun _ _ _ _ heq => (by cases heq), fun _ _ _ _ _ hmem => ?_⟩
    cases List.mem_singleton.mp hmem
  | copy | resetData | release | share | handle | handleOwn | work => exact ⟨hquiet rfl, hnone⟩

theorem Made.snoc {c q : Int} {f : String} {bytes : Bytes} (h : Made moves c q f bytes)
    (move : Move) : Made (moves ++ [move]) c q f bytes := by
  obtain ⟨var, hmem⟩ := h
  exact ⟨var, List.mem_append_left _ hmem⟩

theorem Asked.step {move : Move} (h : Asked moves shown net)
    (hstep : CallSessions.step codec st.functions move net = (out, .ok ((), net'))) :
    Asked (moves ++ [move]) (shown ++ out) net' := by
  obtain ⟨hphases, hcalled⟩ := phase_of_step hstep
  constructor
  · intro c var q f bytes hphase
    rcases hphases c var q f bytes hphase with hphase | rfl
    · exact (h.phase c var q f bytes hphase).snoc move
    · exact ⟨var, List.mem_append_right _ List.mem_cons_self⟩
  · intro c q f bytes key hmem
    rcases List.mem_append.mp hmem with hmem | hmem
    · exact (h.called c q f bytes key hmem).snoc move
    · obtain ⟨var, hphase⟩ := hcalled c q f bytes key hmem
      exact (h.phase c var q f bytes hphase).snoc move

theorem asked_of_run {outs : List (List CallEvent)}
    (htrace : Act.trace (step codec st.functions) moves st.start = (outs, .ok net)) :
    Asked moves outs.flatten net := by
  have hstart : Asked [] [] st.start :=
    ⟨fun _ _ _ _ _ hphase => (by cases hphase), fun _ _ _ _ _ hmem => absurd hmem List.not_mem_nil⟩
  have hstep : ∀ moves shown net move out net', Asked moves shown net → True →
      step codec st.functions move net = (out, .ok ((), net')) →
      Asked (moves ++ [move]) (shown ++ out) net' := fun _ _ _ _ _ _ h _ hs => h.step hs
  exact Act.trace_history hstep hstart (.of_forall (fun _ _ => trivial) moves st.start) htrace

/-- The key that a client waits for is one of its call. -/
theorem calling_of_code (h : Balanced st net b) {c q key : Int} (hkey : key ∈ net.codes q c) :
    ∃ var f args, net.phase c = .calling var q f args ∧
      ⟨RequestIds.activeCall f args, c, key⟩ ∈ accepted (b q).events := by
  have hcode : key ∈ (line net b c q).codes := hkey
  rcases h.line_cases c q with hline | ⟨var, f, args, hphase, -, -, hawaits⟩ | ⟨_, _, -, -, -, hawaits⟩
  · rw [hline] at hcode
    exact absurd hcode List.not_mem_nil
  · generalize line net b c q = l at hawaits hcode
    cases hawaits with
    | asked => exact absurd hcode List.not_mem_nil
    | answered key' haccepted =>
      rw [List.mem_singleton.mp hcode]
      exact ⟨var, f, args, hphase, haccepted⟩
  · generalize line net b c q = l at hawaits hcode
    cases hawaits with
    | asked | parked | answered => exact absurd hcode List.not_mem_nil

/-- A call that an actor has accepted is one that a client has made. -/
theorem made_of_accepted {outs : List (List CallEvent)}
    (hreached : Reached st st.start (fun _ => {}) outs.flatten net b)
    (hasked : Asked moves outs.flatten net) {q : Int} {req : ActiveObjectRequest}
    (hreq : req ∈ accepted (b q).events) :
    ∃ f bytes, req.callActorMessage = RequestIds.activeCall f bytes ∧
      Made moves req.sender q f bytes := by
  have hkeys := acceptedKeys_of_run hreached req.sender q
  obtain ⟨hbalanced, -, hright, -⟩ := hreached
  have hmem : req.localkey ∈ acceptedKeys req.sender (b q).events :=
    List.mem_map_of_mem (List.mem_filter.mpr ⟨hreq, decide_eq_true rfl⟩)
  rw [hkeys] at hmem
  rcases List.mem_append.mp hmem with hmem | hmem
  · obtain ⟨e, he, hkey⟩ := List.mem_filterMap.mp hmem
    cases e with
    | called c head f bytes key =>
      dsimp only at hkey
      split_ifs at hkey with hcq
      obtain ⟨rfl, rfl⟩ := hcq
      cases hkey
      have hsame := (hbalanced.heads head).called_eq hreq (hright _ he) rfl
      exact ⟨f, bytes, congrArg ActiveObjectRequest.callActorMessage hsame,
        hasked.called _ _ _ _ _ he⟩
    | got => cases hkey
  · obtain ⟨var, f, bytes, hphase, haccepted⟩ := calling_of_code hbalanced hmem
    have hsame := (hbalanced.heads q).called_eq hreq haccepted rfl
    exact ⟨f, bytes, congrArg ActiveObjectRequest.callActorMessage hsame,
      hasked.phase _ _ _ _ _ hphase⟩

end Asked

/-- The calls of an actor, on values: its object serves them one after the other, every caller's
arguments are those that its method got, and what is read of a future is what the method returned. -/
structure Linearizes (lib : Archive O) (methods : String → Option (Method O Obj)) (obj₀ : Obj)
    (head : Int) (shown : List CallEvent) (calls : List (Call lib methods)) : Prop where
  sequential : ∃ obj, Sequential obj₀ calls obj
  rising : (calls.map fun call => call.req.localkey).Pairwise (· < ·)
  called : ∀ c f bytes key, .called c head f bytes key ∈ shown → ∀ call ∈ calls,
    call.req.localkey = key → call.req.sender = c ∧ call.req.callActorMessage.functionName = f ∧
      ∀ args, Sized _ args → Writes lib call.passes.method.params args bytes →
        args = call.passes.args
  got : ∀ c key data, .got c (some (head, key)) data ∈ shown → ∃ call ∈ calls,
    call.req.localkey = key ∧
      ∀ val, (deserializeAll lib [call.passes.method.result] data (val, ())).2 =
        .ok (call.res, ())

/-- Where every call to the actor passes arguments of the types of a method, callers and object
exchange values: the values that are read are those that the methods return when the calls of all
clients are served one after the other. -/
theorem typed_calls (lib : Archive O) (methods : String → Option (Method O Obj))
    (hsound : Sound lib methods) {codec : Codec} (st : CallCluster Obj) {moves : List Move}
    {outs : List (List CallEvent)} {net : CallSessions Obj} (head : Int)
    (hfunctions : st.functions head = functions lib methods)
    (hpasses : ∀ c f bytes, Made moves c head f bytes → Nonempty (Passes lib methods f bytes))
    (hp : Act.Along (step codec st.functions) st.Proper moves st.start)
    (htrace : Act.trace (step codec st.functions) moves st.start = (outs, .ok net)) :
    ∃ calls, Linearizes lib methods (st.objects head) head outs.flatten calls := by
  obtain ⟨b, hreached⟩ := (balanced_start st).run hp htrace
  have hasked := asked_of_run htrace
  obtain ⟨⟨obj, hobj⟩, hrising, hcalled, hgot⟩ :=
    hreached.linearizes (named_of_run htrace) head
  rw [hfunctions] at hobj
  have hhead := hreached.1.heads head
  have hserved := hhead.returned_prefix
  obtain ⟨calls, hcalls, hsequential⟩ := sequential_calls hsound hobj fun done hdone => by
    obtain ⟨f, bytes, hmsg, hmade⟩ := made_of_accepted hreached hasked
      (hserved.subset (List.mem_map_of_mem hdone))
    rw [hmsg]
    exact hpasses _ f bytes hmade
  rw [← hcalls] at hrising hcalled hgot
  refine ⟨calls, ⟨obj, hsequential⟩, ?_, fun c f bytes key hmem call hcall hkey => ?_,
    fun c key data hmem => ?_⟩
  · rw [List.map_map] at hrising
    exact hrising
  · have hreq : call.req = _ :=
      hcalled c f bytes key hmem call.done (List.mem_map_of_mem hcall) hkey
    have hname := congrArg (fun req => req.callActorMessage.functionName) hreq
    refine ⟨congrArg ActiveObjectRequest.sender hreq, hname, fun args hsized hwrites => ?_⟩
    have hbytes := congrArg (fun req => req.callActorMessage.args) hreq
    have hwritten : Writes lib call.passes.method.params call.passes.args bytes :=
      (congrArg (Writes lib _ call.passes.args) hbytes).mp call.passes.written
    have hlib := hsound.params _ _ call.passes.named
    have hread := hwrites.reads hsized hlib call.passes.method.fresh
    rw [hwritten.reads call.passes.sized hlib call.passes.method.fresh] at hread
    injection hread with heq
    exact heq.symm
  · obtain ⟨c', f, args, -, hdone⟩ := hgot c key data hmem
    obtain ⟨call, hcall, heq⟩ := List.mem_map.mp hdone
    injection heq with hreq hserial
    exact ⟨call, hcall, congrArg ActiveObjectRequest.localkey hreq, hserial ▸ call.read⟩

/-- `add` learns something, and returns the sum. -/
def addMethod : Method (fun _ => Empty) UInt8 where
  params := [.pod ⟨1, Nat.one_pos⟩]
  result := .pod ⟨1, Nat.one_pos⟩
  fresh := (.cons 7 .nil, ())
  body _ args obj := .learn false fun _ => .done (.cons (obj + args.1.head) .nil) (obj + args.1.head)

def addArgs (x : UInt8) : Args (fun _ => Empty) addMethod.params := (.cons x .nil, ())

theorem call_arrives_counter : ∃ step,
    (Actormsg.Reuse.callActor [97, 100, 100] 0 (.contiguous (units addMethod.params
      (addArgs 2)))).send (fun _ => 7) [] = some step ∧
    Actormsg.createMessage step.sent =
      some (.callActor [97, 100, 100] (imageAll addMethod.params (addArgs 2)) 0) ∧
    ∀ reqId obj, addMethod.handler sampleArchive reqId (imageAll addMethod.params (addArgs 2)) obj =
      (addMethod.body reqId (addArgs 2) obj).serialize sampleArchive addMethod.result :=
  call_arrives sampleArchive addMethod (addArgs 2) [97, 100, 100] (fun _ => 7) [] rfl
    (by decide) (by decide)

def addMethods : String → Option (Method (fun _ => Empty) UInt8) := fun f =>
  if f = "add" then some addMethod else none

/-- The processes of the two logs, with a counter for each log. -/
def counter : CallCluster UInt8 where
  servers := twoLogs.servers
  functions _ := functions sampleArchive addMethods
  objects _ := 4
  heads := twoLogs.heads
  clients := twoLogs.clients
  fresh := twoLogs.fresh
  free := twoLogs.free
  unasked := twoLogs.unasked
  proxy := twoLogs.proxy
  next_nonneg := twoLogs.next_nonneg
  next_lt := twoLogs.next_lt
  unused := twoLogs.unused

/-- The call of client 11 is handled first. -/
def addMoves : List Move :=
  [.call 10 0 1 "add" [2], .call 11 0 1 "add" [3], .handle 11 1, .handle 10 1, .respond 10] ++
  List.replicate 10 (.work 1 []) ++ List.replicate 2 (.handleOwn 1) ++
  [.get 10 0, .handle 10 1, .retrieve 10]

theorem addMethods_eq {f : String} {m : Method (fun _ => Empty) UInt8}
    (h : addMethods f = some m) : m = addMethod := by
  unfold addMethods at h
  split_ifs at h
  exact (Option.some.inj h).symm

theorem addMethods_sound : Sound sampleArchive addMethods where
  params f m hm hTs := by
    rw [addMethods_eq hm] at hTs
    exact absurd hTs (by decide)
  result f m hm hTs := by
    rw [addMethods_eq hm] at hTs
    exact absurd hTs (by decide)
  sized f m hm reqId args obj res obj' _ _ := by
    cases addMethods_eq hm
    have hlen : totalSize [addMethod.result] (res, ()) = 1 := by
      rw [totalSize, imageAll, imageAll, List.append_nil]
      exact res.2
    rw [hlen]
    decide

theorem add_passes (x : UInt8) : Nonempty (Passes sampleArchive addMethods "add" [x]) :=
  ⟨{ method := addMethod
     args := addArgs x
     named := rfl
     written := ⟨[7], rfl, rfl⟩
     sized := fun _ => show 1 < 2 ^ 31 by decide }⟩

theorem adds_passed (c : Int) (f : String) (bytes : Bytes) (h : Made addMoves c 1 f bytes) :
    Nonempty (Passes sampleArchive addMethods f bytes) := by
  obtain ⟨var, hmem⟩ := h
  have hcalls : (f = "add" ∧ bytes = [2]) ∨ (f = "add" ∧ bytes = [3]) := by
    simp [addMoves] at hmem
    tauto
  rcases hcalls with ⟨rfl, rfl⟩ | ⟨rfl, rfl⟩
  · exact add_passes 2
  · exact add_passes 3

theorem addMoves_proper :
    Act.Along (step Serialization.ArchiveFormat.sampleFormat.codec counter.functions) counter.Proper
      addMoves counter.start := by decide +kernel

theorem typed_calls_counter : ∃ outs net,
    Act.trace (step Serialization.ArchiveFormat.sampleFormat.codec counter.functions) addMoves
      counter.start = (outs, .ok net) ∧ .got 10 (some (1, 1)) [9] ∈ outs.flatten ∧
    ∃ calls, Linearizes sampleArchive addMethods (counter.objects 1) 1 outs.flatten calls := by
  have hends : (Act.trace (step Serialization.ArchiveFormat.sampleFormat.codec counter.functions)
      addMoves counter.start).2.toOption.isSome = true := by decide +kernel
  have houts : .got 10 (some (1, 1)) [9] ∈ (Act.trace
      (step Serialization.ArchiveFormat.sampleFormat.codec counter.functions) addMoves
        counter.start).1.flatten := by decide +kernel
  rcases hrun : Act.trace (step Serialization.ArchiveFormat.sampleFormat.codec counter.functions)
    addMoves counter.start with ⟨outs, e | net⟩
  · rw [hrun] at hends
    cases hends
  · rw [hrun] at houts
    exact ⟨outs, net, rfl, houts, typed_calls sampleArchive addMethods addMethods_sound counter 1
      rfl adds_passed addMoves_proper hrun⟩

end ActiveBsp.TypedCalls
