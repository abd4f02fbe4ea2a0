import ActiveBsp.Worker.CallOrder

/-!
# The actor as a sequential object

The worker runs one method at a time, on the object that the method before it
has left. So the two threads together are an object that serves the accepted
calls one after the other, whatever a method learns meanwhile.
-/
namespace ActiveBsp.ActorWorker

open Library

set_option autoImplicit false

variable {Obj : Type} {functions : Functions Obj} {events out : List Event} {input : Input}
  {s s' : Head Obj} {obj₀ : Obj}

/-- A run of the method may come to an end with this result and this object. -/
inductive Program.Returns : Program Obj → Bytes → Obj → Prop
  | done {serial obj} : Returns (.done serial obj) serial obj
  | storeResult {buf next serial obj} (key : Int) (h : Returns (next key) serial obj) :
      Returns (.storeResult buf next) serial obj
  | learn {own next serial obj} (learnt : Bytes) (h : Returns (next learnt) serial obj) :
      Returns (.learn own next) serial obj

def Serves (functions : Functions Obj) (req : ActiveObjectRequest) (obj : Obj) (serial : Bytes)
    (obj' : Obj) : Prop :=
  match functions req.callActorMessage.functionName with
  | some method =>
    (method req.callActorMessage.futureKey req.callActorMessage.args obj).Returns serial obj'
  | none => serial = errorSerial ∧ obj' = obj

/-- From one object to the other, the calls of the history have these results. -/
inductive Sequential (functions : Functions Obj) :
    Obj → List (ActiveObjectRequest × Bytes) → Obj → Prop
  | nil {obj} : Sequential functions obj [] obj
  | snoc {obj history obj' req serial obj''} (h : Sequential functions obj history obj')
      (hserves : Serves functions req obj' serial obj'') :
      Sequential functions obj (history ++ [(req, serial)]) obj''

/-- The rest of the method that serves the request. -/
def Underway (functions : Functions Obj) (events : List Event) (obj₀ : Obj)
    (req : ActiveObjectRequest) (program : Program Obj) : Prop :=
  ∃ obj, Sequential functions obj₀ (returned events) obj ∧
    ∀ serial obj', program.Returns serial obj' → Serves functions req obj serial obj'

/-- The rest of the constructor, which gives the first object. -/
def Constructs (events : List Event) (obj₀ : Obj) (program : Program Obj) : Prop :=
  returned events = [] ∧ ∀ serial obj, program.Returns serial obj → obj = obj₀

def AtTask (functions : Functions Obj) (events : List Event) (obj₀ : Obj)
    (program : Program Obj) : Option ActiveObjectRequest → Prop
  | none => Constructs events obj₀ program
  | some req => Underway functions events obj₀ req program

/-- The worker has the object that the calls served so far have left. -/
def Worker.Holds (functions : Functions Obj) (events : List Event) (obj₀ : Obj) :
    Worker Obj → Prop
  | .looping obj | .handling _ obj | .reporting _ _ obj | .finished obj =>
    Sequential functions obj₀ (returned events) obj
  | .running task program | .storing task _ _ program => AtTask functions events obj₀ program task
  | .takingKey _ task buf next => AtTask functions events obj₀ (.storeResult buf next) task

theorem AtTask.step {task : Option ActiveObjectRequest} {program program' : Program Obj}
    (h : AtTask functions events obj₀ program task)
    (hstep : ∀ serial obj', program'.Returns serial obj' → program.Returns serial obj') :
    AtTask functions events obj₀ program' task := by
  cases task with
  | none => exact ⟨h.1, fun serial obj' hreturns => h.2 serial obj' (hstep serial obj' hreturns)⟩
  | some req =>
    obtain ⟨obj, hserved, hrest⟩ := h
    exact ⟨obj, hserved, fun serial obj' hreturns => hrest serial obj' (hstep serial obj' hreturns)⟩

theorem returned_append : returned (events ++ out) = returned events ++ returned out :=
  List.filterMap_append

theorem AtTask.quiet {task : Option ActiveObjectRequest} {program : Program Obj}
    (h : AtTask functions events obj₀ program task) (hout : returned out = []) :
    AtTask functions (events ++ out) obj₀ program task := by
  have heq : returned (events ++ out) = returned events := by
    rw [returned_append, hout, List.append_nil]
  cases task with
  | none => exact ⟨heq.trans h.1, h.2⟩
  | some req =>
    obtain ⟨obj, hserved, hrest⟩ := h
    exact ⟨obj, heq ▸ hserved, hrest⟩

theorem Worker.Holds.quiet {worker : Worker Obj} (h : worker.Holds functions events obj₀)
    (hout : returned out = []) : worker.Holds functions (events ++ out) obj₀ := by
  cases worker with
  | running | storing | takingKey => exact AtTask.quiet h hout
  | _ =>
    unfold Worker.Holds
    rw [returned_append, hout, List.append_nil]
    exact h

theorem Sequential.returns {req : ActiveObjectRequest} {serial : Bytes} {obj obj' : Obj}
    (h : Sequential functions obj₀ (returned events) obj)
    (hserves : Serves functions req obj serial obj') (hout : returned out = [(req, serial)]) :
    Sequential functions obj₀ (returned (events ++ out)) obj' := by
  rw [returned_append, hout]
  exact h.snoc hserves

theorem Worker.Holds.turn (h : s.worker.Holds functions events obj₀)
    (ht : Turn functions input s out s') : s'.worker.Holds functions (events ++ out) obj₀ := by
  cases ht with
  | @start keys messages manager req obj learnt method hsender hf =>
    have hat : AtTask functions events obj₀
        (method req.callActorMessage.futureKey req.callActorMessage.args obj) (some req) := by
      refine ⟨_, h, fun serial obj' hreturns => ?_⟩
      unfold Serves
      rw [hf]
      exact hreturns
    exact hat.quiet rfl
  | startUnknown hsender hf =>
    apply Sequential.returns h _ rfl
    unfold Serves
    rw [hf]
    exact ⟨rfl, rfl⟩
  | finish =>
    obtain ⟨obj, hserved, hrest⟩ := h
    exact hserved.returns (hrest _ _ .done) rfl
  | constructed =>
    obtain ⟨hnone, hobj⟩ := h
    change Sequential functions obj₀ (returned (events ++ [])) _
    rw [List.append_nil, hnone, hobj _ _ .done]
    exact .nil
  | learn => exact (AtTask.step h fun _ _ => .learn _).quiet rfl
  | workerKey hkey => exact (AtTask.step h fun _ _ => .storeResult _).quiet rfl
  | _ => exact h.quiet rfl

/-- Whatever the worker is at, the calls that have returned were served one after the other. -/
theorem Worker.Holds.sequential {worker : Worker Obj} (h : worker.Holds functions events obj₀) :
    ∃ obj, Sequential functions obj₀ (returned events) obj := by
  have hat {program : Program Obj} {task : Option ActiveObjectRequest}
      (h : AtTask functions events obj₀ program task) :
      ∃ obj, Sequential functions obj₀ (returned events) obj := by
    cases task with
    | none => exact ⟨obj₀, h.1 ▸ .nil⟩
    | some req =>
      obtain ⟨obj, hserved, -⟩ := h
      exact ⟨obj, hserved⟩
  cases worker with
  | running | storing | takingKey => exact hat h
  | _ => exact ⟨_, h⟩

section Run

variable {inputs inputs' : List Input} {outs : List (List Event)} {first : Int} {learnt : Bytes}

/-- When there is a key manager from the start, the threads never make one. -/
theorem Kept.run (hk : Kept first inputs events s) (hfirst : 0 ≤ first)
    (hi : s.keys.instance? ≠ none)
    (h : Act.trace (step functions) inputs' s = (outs, .ok s')) :
    Kept first (inputs ++ inputs') (events ++ outs.flatten) s' := by
  have hstep : ∀ is outs s input out s',
      Kept first (inputs ++ is) (events ++ outs) s ∧ s.keys.instance? ≠ none → True →
      step functions input s = (out, .ok ((), s')) →
      Kept first (inputs ++ (is ++ [input])) (events ++ (outs ++ out)) s' ∧
        s'.keys.instance? ≠ none := by
    rintro is outs s input out s' ⟨hk, hi⟩ - hs
    rw [← List.append_assoc, ← List.append_assoc]
    have ht := step_cases hs
    exact ⟨hk.turn hfirst (apart_of_instance hk.counted.manager hi) ht, ht.keeps_instance hi⟩
  have hstart : Kept first (inputs ++ []) (events ++ []) s := by
    rw [List.append_nil, List.append_nil]
    exact hk
  exact (Act.trace_history hstep ⟨hstart, hi⟩ (.of_forall (fun _ _ => trivial) inputs' s) h).1

/-- A step of the worker accepts nothing, leaves the management thread where it is, and takes at
most one key. -/
theorem Turn.of_worker (ht : Turn functions (.worker learnt) s out s') :
    accepted out = [] ∧ s'.manager = s.manager ∧ (keysTaken out).length ≤ 1 := by
  cases ht <;> exact ⟨rfl, rfl, by first | exact Nat.zero_le _ | exact Nat.le_refl _⟩

theorem Counted.worker_keys (hc : Counted first events s)
    (ht : Turn functions (.worker learnt) s out s') {manager : FutureKeyManager}
    (hkeys : s.keys = ⟨[manager], some 0⟩) :
    s'.keys = ⟨[s'.keys.allocated.headD {}], some 0⟩ := by
  have hsame : s'.keys = s.keys → s'.keys = ⟨[s'.keys.allocated.headD {}], some 0⟩ := by
    intro he
    rw [he, hkeys]
    rfl
  cases ht with
  | @workerPhase keys _ _ phase _ _ _ _ _ _ h =>
    have hcreating : phase ≠ .creating := by
      rintro rfl
      have hnone : keys.instance? = none := hc.worker
      obtain rfl : keys = ⟨[manager], some 0⟩ := hkeys
      cases hnone
    obtain ⟨-, -, -, hkept⟩ := keyTurn_phase hc.single hc.worker h
    exact hsame (hkept hcreating)
  | workerKey h =>
    obtain ⟨hsingle, -, hinstance, -⟩ := keyTurn_key hc.single hc.worker h
    rcases hsingle with he | ⟨manager', he⟩
    · rw [he] at hinstance
      exact absurd rfl hinstance
    · change _ = _ at he
      simp only [he, List.headD_cons]
  | _ => exact hsame rfl

end Run

end ActiveBsp.ActorWorker
