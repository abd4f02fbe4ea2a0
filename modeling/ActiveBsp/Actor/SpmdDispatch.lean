import ActiveBsp.Fault
import ActiveBsp.Library.Act
import ActiveBsp.Library.MachineInt
import ActiveBsp.Library.PartialMap
import Mathlib.Data.List.Induction

/-!
# Dispatch of parallel functions

Every process of an actor registers the member functions that may run in
parallel. The master names one by its place in the table, shifted by one, in a
broadcast to the slaves; zero ends their loops.
-/
namespace ActiveBsp.Actor.SpmdDispatch

open Library Library.MachineInt

set_option autoImplicit false

/-- The tables of `ActorBase`; a member function is its address. -/
structure Object where
  spmdFunctionIds : PartialMap Nat Int
  spmdFunctions : List Nat

inductive Event where
  /-- `MPI_Bcast` of the master. -/
  | sendSPMDFunctionID (id : Int)
  | executed (f : Nat)
  /-- The message on `std::cerr` of a process without functions. -/
  | unknownSlaveMessage (id : Int)
  deriving DecidableEq, Repr

namespace Object

def registerSpmd (f : Nat) (o : Object) : Object where
  spmdFunctionIds := o.spmdFunctionIds.set f (toInt32 o.spmdFunctions.length)
  spmdFunctions := o.spmdFunctions ++ [f]

/-- The constructor of `ActorBase`. -/
def create (bspSync : Nat) : Object := registerSpmd bspSync ⟨PartialMap.empty, []⟩

/-- `_spmd_functions[id]()`. -/
def call (id : Int) : Act Object Event Fault Unit := do
  let o ← Act.get
  match if 0 ≤ id then o.spmdFunctions[id.toNat]? else none with
  | some f => Act.emit (.executed f)
  | none => Act.fail .undefined

def callSpmd (functionId : Int) : Act Object Event Fault Unit := do
  let o ← Act.get
  if o.spmdFunctions = [] then Act.emit (.unknownSlaveMessage functionId) else call functionId

def runFunctionId (id : Int) : Act Object Event Fault Unit := do
  -- the sum of two signed integers is not to overflow
  if id + 1 < 2 ^ 31 then
    Act.emit (.sendSPMDFunctionID (id + 1))
    call id
  else Act.fail .undefined

def bspRun (f : Nat) : Act Object Event Fault Unit := do
  let o ← Act.get
  -- `operator[]` of the map enters a zero where there is nothing
  Act.modify fun o => { o with spmdFunctionIds := o.spmdFunctionIds.insert f 0 }
  runFunctionId ((o.spmdFunctionIds f).getD 0)

def killSlaves : Act Object Event Fault Unit := Act.emit (.sendSPMDFunctionID 0)

end Object

/-- `looping`: the worker is in `slave_loop`. -/
structure Slave where
  object : Object
  looping : Bool

/-- One turn of `slave_loop`; the second component is what the function writes or runs. -/
def Slave.receive (id : Int) (s : Slave) : List Event × Except Fault Slave :=
  if s.looping = false then ([], .error .blocked)
  else if id = 0 then ([], .ok { s with looping := false })
  else
    match Object.callSpmd (id - 1) s.object with
    | (out, .error e) => (out, .error e)
    | (out, .ok (_, o)) => (out, .ok { s with object := o })

/-- The processes of one actor. -/
structure Processes where
  master : Object
  slaves : List Slave

/-- `register_spmd` runs on every process, `bsp_run` on the master. -/
inductive Op where
  | registerSpmd (f : Nat)
  | bspRun (f : Nat)
  deriving DecidableEq, Repr

/-- What the processes did in one `bsp_run`, the master first. -/
structure Call where
  asked : Nat
  done : List (List Event)
  deriving DecidableEq, Repr

def broadcasts (out : List Event) : List Int :=
  out.filterMap fun
    | .sendSPMDFunctionID id => some id
    | _ => none

/-- All slaves take the ids that the master sent, in their order. -/
def Slave.receiveAll : List Int → Slave → List Event × Except Fault Slave
  | [], s => ([], .ok s)
  | id :: ids, s =>
    match s.receive id with
    | (out, .error e) => (out, .error e)
    | (out, .ok s') => (out ++ (receiveAll ids s').1, (receiveAll ids s').2)

/-- The master acts, and the slaves take what it sends. A slave learns nothing else of the
master, so it does not matter when they do. -/
def Processes.broadcast (act : Act Object Event Fault Unit) (a : Processes) :
    Except Fault (List (List Event) × Processes) :=
  match act a.master with
  | (_, .error e) => .error e
  | (out, .ok (_, master)) => do
    let received := a.slaves.map fun s => s.receiveAll (broadcasts out)
    let slaves ← received.mapM fun r => r.2
    return (out :: received.map Prod.fst, ⟨master, slaves⟩)

def Processes.step : Op → Processes → Except Fault (List Call × Processes)
  | .registerSpmd f, a => .ok ([], ⟨a.master.registerSpmd f,
      a.slaves.map fun s => { s with object := s.object.registerSpmd f }⟩)
  | .bspRun f, a => do
    let (done, a') ← a.broadcast (Object.bspRun f)
    return ([⟨f, done⟩], a')

def Processes.run : List Op → Processes → Except Fault (List Call × Processes)
  | [], a => .ok ([], a)
  | op :: ops, a => do
    let (calls, a') ← a.step op
    let (calls', a'') ← run ops a'
    return (calls ++ calls', a'')

def Processes.create (bspSync nslaves : Nat) : Processes :=
  ⟨Object.create bspSync, List.replicate nslaves ⟨Object.create bspSync, true⟩⟩

def executions (out : List Event) : List Nat :=
  out.filterMap fun
    | .executed f => some f
    | _ => none

/-- A process runs the function asked for, and no other, or it rejects the call. -/
def Right (f : Nat) (out : List Event) : Prop :=
  executions out = [f] ∨ executions out = [] ∧ ∃ id, .unknownSlaveMessage id ∈ out

def asked (ops : List Op) : List Nat :=
  ops.filterMap fun
    | .bspRun f => some f
    | _ => none

def registered (ops : List Op) : List Nat :=
  ops.filterMap fun
    | .registerSpmd f => some f
    | _ => none

/-- Each call is answered rightly on every process, and no slave has left its loop at the end: it
would not be back. The master then ends all loops, and nothing else happens. -/
structure DispatchesFrom (a : Processes) (ops : List Op) (calls : List Call) (a' : Processes) :
    Prop where
  runs : a.run ops = .ok (calls, a')
  all : calls.map Call.asked = asked ops
  everywhere : ∀ c ∈ calls, c.done.length = a.slaves.length + 1
  right : ∀ c ∈ calls, ∀ out ∈ c.done, Right c.asked out
  stay : ∀ s ∈ a'.slaves, s.looping = true
  leave : ∃ done a'', a'.broadcast Object.killSlaves = .ok (done, a'') ∧
    (∀ out ∈ done, executions out = []) ∧ a''.slaves.length = a.slaves.length ∧
    ∀ s ∈ a''.slaves, s.looping = false

def Dispatches (bspSync nslaves : Nat) (ops : List Op) : Prop :=
  ∃ calls a', DispatchesFrom (Processes.create bspSync nslaves) ops calls a'

/-- The place at which a function was registered last. -/
def IsLast (functions : List Nat) (f i : Nat) : Prop :=
  functions[i]? = some f ∧ ∀ j, i < j → functions[j]? ≠ some f

/-- The function was registered, and its last place, cut to 32 bits, holds it and has a successor
among the integers. -/
def Runnable (functions : List Nat) (f : Nat) : Prop :=
  ∃ i, IsLast functions f i ∧ i % 2 ^ 32 < 2 ^ 31 - 1 ∧ functions[i % 2 ^ 32]? = some f

/-- The tables after these registrations. -/
def Object.tables (functions : List Nat) : Object :=
  functions.foldl (fun o f => o.registerSpmd f) ⟨PartialMap.empty, []⟩

theorem Object.tables_concat (functions : List Nat) (f : Nat) :
    tables (functions ++ [f]) = (tables functions).registerSpmd f :=
  List.foldl_concat ..

@[simp] theorem Object.tables_functions (functions : List Nat) :
    (tables functions).spmdFunctions = functions := by
  induction functions using List.reverseRecOn with
  | nil => rfl
  | append_singleton functions f ih =>
    rw [tables_concat]
    show (tables functions).spmdFunctions ++ [f] = functions ++ [f]
    rw [ih]

/-- The table of ids has the last place of a function. -/
theorem Object.tables_ids {functions : List Nat} {f i : Nat} (h : IsLast functions f i) :
    (tables functions).spmdFunctionIds f = some (toInt32 i) := by
  induction functions using List.reverseRecOn with
  | nil => cases h.1
  | append_singleton functions g ih =>
    rw [tables_concat]
    show PartialMap.set _ g (toInt32 ((tables functions).spmdFunctions.length : Nat)) f = _
    rw [tables_functions]
    have hlen : i < (functions ++ [g]).length := (List.getElem?_eq_some_iff.mp h.1).1
    rw [List.length_append, List.length_singleton] at hlen
    by_cases hi : i = functions.length
    · have hg : g = f := by
        have hget := h.1
        rw [hi, List.getElem?_concat_length] at hget
        exact Option.some.inj hget
      rw [hg, PartialMap.set_self, hi]
    · have hne : f ≠ g := by
        intro hfg
        apply h.2 functions.length (by omega)
        rw [List.getElem?_concat_length, hfg]
      have hlast : IsLast functions f i := by
        constructor
        · rw [← h.1, List.getElem?_append_left (by omega)]
        · intro j hj hget
          apply h.2 j hj
          rw [List.getElem?_append_left (List.getElem?_eq_some_iff.mp hget).1, hget]
      rw [PartialMap.set_of_ne _ _ hne, ih hlast]

/-- Every registered function has a last place. -/
theorem exists_isLast {functions : List Nat} {f : Nat} (h : f ∈ functions) :
    ∃ i, IsLast functions f i := by
  induction functions using List.reverseRecOn with
  | nil => cases h
  | append_singleton functions g ih =>
    by_cases hg : g = f
    · refine ⟨functions.length, ?_, fun j hj => ?_⟩
      · rw [List.getElem?_concat_length, hg]
      · rw [List.getElem?_eq_none (by rw [List.length_append, List.length_singleton]; omega)]
        exact Option.some_ne_none f ∘ Eq.symm
    · obtain ⟨i, hi, hmax⟩ := ih (by
        rcases List.mem_append.mp h with h | h
        · exact h
        · exact absurd (List.mem_singleton.mp h).symm hg)
      refine ⟨i, ?_, fun j hj hget => ?_⟩
      · rw [List.getElem?_append_left (List.getElem?_eq_some_iff.mp hi).1, hi]
      · rcases Nat.lt_or_ge j functions.length with hlt | hge
        · rw [List.getElem?_append_left hlt] at hget
          exact hmax j hj hget
        · rw [List.getElem?_append_right hge] at hget
          obtain ⟨_, hval⟩ := List.getElem?_eq_some_iff.mp hget
          rw [List.getElem_singleton] at hval
          exact hg hval

theorem call_of_get {o : Object} {i f : Nat} (h : o.spmdFunctions[i]? = some f) :
    Object.call (i : Int) o = ([.executed f], .ok ((), o)) := by
  unfold Object.call
  rw [Act.get_bind, if_pos (Int.natCast_nonneg i), Int.toNat_natCast, h]
  rfl

theorem call_of_neg {o : Object} {id : Int} (h : id < 0) :
    Object.call id o = ([], .error .undefined) := by
  unfold Object.call
  rw [Act.get_bind, if_neg (Int.not_le.mpr h)]
  rfl

theorem call_of_none {o : Object} {i : Nat} (h : o.spmdFunctions[i]? = none) :
    Object.call (i : Int) o = ([], .error .undefined) := by
  unfold Object.call
  rw [Act.get_bind, if_pos (Int.natCast_nonneg i), Int.toNat_natCast, h]
  rfl

theorem bspRun_eq (f : Nat) (o : Object) :
    Object.bspRun f o = Object.runFunctionId ((o.spmdFunctionIds f).getD 0)
      { o with spmdFunctionIds := o.spmdFunctionIds.insert f 0 } := by
  unfold Object.bspRun
  rw [Act.get_bind, Act.modify_bind]

theorem runFunctionId_of_overflow {id : Int} (h : ¬ id + 1 < 2 ^ 31) (o : Object) :
    Object.runFunctionId id o = ([], .error .undefined) := by
  unfold Object.runFunctionId
  rw [if_neg h]
  rfl

theorem runFunctionId_of_range {id : Int} (h : id + 1 < 2 ^ 31) (o : Object) :
    Object.runFunctionId id o = (.sendSPMDFunctionID (id + 1) :: (Object.call id o).1,
      (Object.call id o).2) := by
  unfold Object.runFunctionId
  rw [if_pos h, Act.emit_bind]

/-- The master runs a function whose last place is in range. -/
theorem bspRun_of_runnable {functions : List Nat} {f : Nat} (h : Runnable functions f) :
    ∃ i : Nat, functions[i]? = some f ∧
      Object.bspRun f (Object.tables functions) =
        ([.sendSPMDFunctionID (i + 1), .executed f], .ok ((), Object.tables functions)) := by
  obtain ⟨i, hlast, hrange, hget⟩ := h
  refine ⟨i % 2 ^ 32, hget, ?_⟩
  have hid := Object.tables_ids hlast
  have hsame : (Object.tables functions).spmdFunctionIds.insert f 0 =
      (Object.tables functions).spmdFunctionIds := by
    simp [PartialMap.insert, hid]
  rw [bspRun_eq, hsame, hid, Option.getD_some, toInt32_of_low (by omega),
    runFunctionId_of_range (by omega), call_of_get (by rw [Object.tables_functions]; exact hget)]

/-- Otherwise the master goes out of the table or runs another function. -/
theorem bspRun_of_not_runnable {functions : List Nat} {f : Nat}
    (h : ¬ Runnable functions f) :
    (∃ out e, Object.bspRun f (Object.tables functions) = (out, .error e)) ∨
      ∃ id g o, Object.bspRun f (Object.tables functions) =
        ([.sendSPMDFunctionID id, .executed g], .ok ((), o)) ∧ g ≠ f := by
  -- whatever the map has, the place taken from it does not hold `f`
  have key : ∀ (id : Int) (o : Object), o.spmdFunctions = functions →
      (∀ i : Nat, id = i → i < 2 ^ 31 - 1 → functions[i]? ≠ some f) →
      (∃ out e, Object.runFunctionId id o = (out, .error e)) ∨
        ∃ id' g o', Object.runFunctionId id o =
          ([.sendSPMDFunctionID id', .executed g], .ok ((), o')) ∧ g ≠ f := by
    intro id o hfunctions hother
    by_cases hover : id + 1 < 2 ^ 31
    · rw [runFunctionId_of_range hover]
      by_cases hneg : id < 0
      · rw [call_of_neg hneg]
        exact .inl ⟨_, _, rfl⟩
      · obtain ⟨i, rfl⟩ := Int.eq_ofNat_of_zero_le (Int.not_lt.mp hneg)
        cases hget : functions[i]? with
        | none =>
          rw [call_of_none (by rw [hfunctions]; exact hget)]
          exact .inl ⟨_, _, rfl⟩
        | some g =>
          rw [call_of_get (by rw [hfunctions]; exact hget)]
          refine .inr ⟨_, g, o, rfl, fun hg => ?_⟩
          exact hother i rfl (by omega) (hg ▸ hget)
    · rw [runFunctionId_of_overflow hover]
      exact .inl ⟨_, _, rfl⟩
  rw [bspRun_eq]
  refine key _ _ (Object.tables_functions functions) fun i hi hlt hget => ?_
  by_cases hmem : f ∈ functions
  · obtain ⟨n, hlast⟩ := exists_isLast hmem
    rw [Object.tables_ids hlast, Option.getD_some] at hi
    by_cases hlow : n % 2 ^ 32 < 2 ^ 31
    · rw [toInt32_of_low hlow] at hi
      have hin : n % 2 ^ 32 = i := by omega
      exact h ⟨n, hlast, by omega, hin ▸ hget⟩
    · have := toInt32_neg (Nat.not_lt.mp hlow)
      omega
  · exact hmem (List.mem_of_getElem? hget)

/-- The processes after these registrations, with all slaves in their loops. -/
def Processes.tables (functions : List Nat) (nslaves : Nat) : Processes :=
  ⟨Object.tables functions, List.replicate nslaves ⟨Object.tables functions, true⟩⟩

theorem step_registerSpmd (functions : List Nat) (nslaves f : Nat) :
    (Processes.tables functions nslaves).step (.registerSpmd f) =
      .ok ([], Processes.tables (functions ++ [f]) nslaves) := by
  show Except.ok ([], Processes.mk _ (List.map _ (List.replicate nslaves _))) = _
  rw [List.map_replicate, Processes.tables, Processes.tables, Object.tables_concat]

theorem receiveAll_singleton (id : Int) (s : Slave) : s.receiveAll [id] = s.receive id := by
  unfold Slave.receiveAll
  rcases s.receive id with ⟨out, e | s'⟩
  · rfl
  · show (out ++ [], _) = _
    rw [List.append_nil]
    rfl

/-- What every slave answers alike. -/
theorem broadcast_of_ok {act : Act Object Event Fault Unit} {o o' : Object} {out outS : List Event}
    {id : Int} {nslaves : Nat} {s s' : Slave} (hact : act o = (out, .ok ((), o')))
    (hids : broadcasts out = [id]) (hslave : s.receive id = (outS, .ok s')) :
    Processes.broadcast act ⟨o, List.replicate nslaves s⟩ =
      .ok (out :: List.replicate nslaves outS, ⟨o', List.replicate nslaves s'⟩) := by
  unfold Processes.broadcast
  rw [hact]
  dsimp only
  have hreceived : ((List.replicate nslaves s).map fun s => s.receiveAll (broadcasts out)) =
      List.replicate nslaves (outS, .ok s') := by
    rw [List.map_replicate, hids, receiveAll_singleton, hslave]
  have hall : ∀ n : Nat, (List.replicate n (outS, (.ok s' : Except Fault Slave))).mapM
      (fun r => r.2) = .ok (List.replicate n s') := by
    intro n
    induction n with
    | zero => rfl
    | succ n ih =>
      rw [List.replicate_succ, List.mapM_cons, ih]
      rfl
  rw [hreceived, hall, List.map_replicate]
  rfl

/-- A slave in its loop runs what the id names. -/
theorem receive_of_get {functions : List Nat} {i f : Nat} (h : functions[i]? = some f) :
    Slave.receive (i + 1) ⟨Object.tables functions, true⟩ =
      ([.executed f], .ok ⟨Object.tables functions, true⟩) := by
  have hne : functions ≠ [] := by
    rintro rfl
    cases h
  have hcall : Object.callSpmd i (Object.tables functions) =
      ([.executed f], .ok ((), Object.tables functions)) := by
    unfold Object.callSpmd
    rw [Act.get_bind, Object.tables_functions, if_neg hne,
      call_of_get (by rw [Object.tables_functions]; exact h)]
  unfold Slave.receive
  rw [if_neg Bool.noConfusion, if_neg (by omega), Int.add_sub_cancel, hcall]

/-- All processes run a runnable function that is asked for, and stay as they are. -/
theorem step_bspRun {functions : List Nat} {f : Nat} (h : Runnable functions f) (nslaves : Nat) :
    ∃ done, (Processes.tables functions nslaves).step (.bspRun f) =
        .ok ([⟨f, done⟩], Processes.tables functions nslaves) ∧
      done.length = nslaves + 1 ∧ ∀ out ∈ done, Right f out := by
  obtain ⟨i, hget, hrun⟩ := bspRun_of_runnable h
  refine ⟨[.sendSPMDFunctionID (i + 1), .executed f] :: List.replicate nslaves [.executed f], ?_,
    ?_, ?_⟩
  · show ((Processes.tables functions nslaves).broadcast _ >>= fun r => _) = _
    rw [Processes.tables, broadcast_of_ok hrun rfl (receive_of_get hget)]
    rfl
  · rw [List.length_cons, List.length_replicate]
  · intro out hout
    rcases List.mem_cons.mp hout with rfl | hout
    · exact .inl rfl
    · rw [(List.mem_replicate.mp hout).2]
      exact .inl rfl

theorem broadcast_killSlaves (functions : List Nat) (nslaves : Nat) :
    (Processes.tables functions nslaves).broadcast Object.killSlaves =
      .ok ([.sendSPMDFunctionID 0] :: List.replicate nslaves [],
        ⟨Object.tables functions, List.replicate nslaves ⟨Object.tables functions, false⟩⟩) :=
  broadcast_of_ok (Act.emit_apply _ _) rfl rfl

/-- What the master does is the first thing that is told of a broadcast. -/
theorem broadcast_inv {act : Act Object Event Fault Unit} {a a' : Processes}
    {done : List (List Event)} (h : a.broadcast act = .ok (done, a')) :
    ∃ out o done', act a.master = (out, .ok ((), o)) ∧ done = out :: done' := by
  unfold Processes.broadcast at h
  rcases hact : act a.master with ⟨out, e | ⟨⟨⟩, o⟩⟩
  · rw [hact] at h
    cases h
  · rw [hact] at h
    dsimp only at h
    generalize List.mapM (fun r : List Event × Except Fault Slave => r.2) _ = m at h
    cases m with
    | error e => cases h
    | ok slaves =>
      cases h
      exact ⟨out, o, _, rfl, rfl⟩

theorem step_bspRun_inv {f : Nat} {a a' : Processes} {calls : List Call}
    (h : a.step (.bspRun f) = .ok (calls, a')) :
    ∃ out o done, Object.bspRun f a.master = (out, .ok ((), o)) ∧ calls = [⟨f, out :: done⟩] := by
  cases hb : a.broadcast (Object.bspRun f) with
  | error e =>
    rw [show a.step (.bspRun f) = .error e by
      show (a.broadcast (Object.bspRun f) >>= fun r => _) = _
      rw [hb]
      rfl] at h
    cases h
  | ok r =>
    rw [show a.step (.bspRun f) = .ok ([⟨f, r.1⟩], r.2) by
      show (a.broadcast (Object.bspRun f) >>= fun r => _) = _
      rw [hb]
      rfl] at h
    obtain ⟨out, o, done, hact, hdone⟩ := broadcast_inv hb
    cases h
    exact ⟨out, o, done, hact, by rw [hdone]⟩

theorem create_eq_tables (bspSync nslaves : Nat) :
    Processes.create bspSync nslaves = Processes.tables [bspSync] nslaves := rfl

theorem run_cons_of_ok {op : Op} {ops : List Op} {a a' : Processes} {calls : List Call}
    (h : a.step op = .ok (calls, a')) :
    a.run (op :: ops) = (a'.run ops).map fun r => (calls ++ r.1, r.2) := by
  show (a.step op >>= fun r => _) = _
  rw [h]
  show ((a'.run ops) >>= fun r => _) = _
  cases a'.run ops <;> rfl

theorem run_cons_inv {op : Op} {ops : List Op} {a a'' : Processes} {calls : List Call}
    (h : a.run (op :: ops) = .ok (calls, a'')) :
    ∃ calls₁ a' calls₂, a.step op = .ok (calls₁, a') ∧ a'.run ops = .ok (calls₂, a'') ∧
      calls = calls₁ ++ calls₂ := by
  cases hstep : a.step op with
  | error e =>
    have : a.run (op :: ops) = .error e := by
      show (a.step op >>= fun r => _) = _
      rw [hstep]
      rfl
    rw [this] at h
    cases h
  | ok r =>
    obtain ⟨calls₁, a'⟩ := r
    rw [run_cons_of_ok hstep] at h
    cases hrun : a'.run ops with
    | error e =>
      rw [hrun] at h
      cases h
    | ok r' =>
      rw [hrun] at h
      cases h
      exact ⟨calls₁, a', r'.1, rfl, hrun, rfl⟩

/-- Every function is asked for when it is runnable. -/
def AllRunnable (functions : List Nat) (ops : List Op) : Prop :=
  ∀ before f after, ops = before ++ .bspRun f :: after → Runnable (functions ++ registered before) f

theorem allRunnable_registerSpmd {functions : List Nat} {f : Nat} {ops : List Op} :
    AllRunnable functions (.registerSpmd f :: ops) ↔ AllRunnable (functions ++ [f]) ops := by
  constructor
  · intro h before g after hops
    have := h (.registerSpmd f :: before) g after (by rw [hops]; rfl)
    rwa [List.append_assoc]
  · intro h before g after hops
    cases before with
    | nil => cases hops
    | cons op before =>
      obtain ⟨rfl, htail⟩ := List.cons.inj hops
      have := h before g after htail
      rwa [List.append_assoc] at this

theorem allRunnable_bspRun {functions : List Nat} {f : Nat} {ops : List Op} :
    AllRunnable functions (.bspRun f :: ops) ↔ Runnable functions f ∧ AllRunnable functions ops := by
  constructor
  · intro h
    constructor
    · have := h [] f ops rfl
      rwa [registered, List.filterMap_nil, List.append_nil] at this
    · exact fun before g after hops => h (.bspRun f :: before) g after (by rw [hops]; rfl)
  · rintro ⟨hf, h⟩ before g after hops
    cases before with
    | nil =>
      obtain ⟨hop, -⟩ := List.cons.inj hops
      cases hop
      rwa [registered, List.filterMap_nil, List.append_nil]
    | cons op before =>
      obtain ⟨rfl, htail⟩ := List.cons.inj hops
      exact h before g after htail

theorem dispatches_of_allRunnable {nslaves : Nat} {ops : List Op} :
    ∀ {functions : List Nat}, AllRunnable functions ops →
      ∃ calls a', DispatchesFrom (Processes.tables functions nslaves) ops calls a' := by
  induction ops with
  | nil =>
    intro functions _
    refine ⟨[], _, rfl, rfl, nofun, nofun, ?_, _, _, broadcast_killSlaves functions nslaves, ?_, ?_,
      ?_⟩
    · intro s hs
      rw [(List.mem_replicate.mp hs).2]
    · intro out hout
      rcases List.mem_cons.mp hout with rfl | hout
      · rfl
      · rw [(List.mem_replicate.mp hout).2]
        rfl
    · rw [Processes.tables, List.length_replicate, List.length_replicate]
    · intro s hs
      rw [(List.mem_replicate.mp hs).2]
  | cons op ops ih =>
    intro functions h
    cases op with
    | registerSpmd f =>
      obtain ⟨calls, a', hd⟩ := ih (allRunnable_registerSpmd.mp h)
      refine ⟨calls, a', ⟨?_, hd.all, ?_, hd.right, hd.stay, ?_⟩⟩
      · rw [run_cons_of_ok (step_registerSpmd functions nslaves f), hd.runs]
        rfl
      · simpa [Processes.tables] using hd.everywhere
      · simpa [Processes.tables] using hd.leave
    | bspRun f =>
      obtain ⟨hf, hrest⟩ := allRunnable_bspRun.mp h
      obtain ⟨calls, a', hd⟩ := ih hrest
      obtain ⟨done, hstep, hlen, hdone⟩ := step_bspRun hf nslaves
      refine ⟨⟨f, done⟩ :: calls, a', ⟨?_, ?_, ?_, ?_, hd.stay, hd.leave⟩⟩
      · rw [run_cons_of_ok hstep, hd.runs]
        rfl
      · rw [List.map_cons, hd.all]
        rfl
      · intro c hc
        rcases List.mem_cons.mp hc with rfl | hc
        · rw [hlen, Processes.tables, List.length_replicate]
        · exact hd.everywhere c hc
      · intro c hc
        rcases List.mem_cons.mp hc with rfl | hc
        · exact hdone
        · exact hd.right c hc

/-- A run in which every call is answered rightly asks for runnable functions only. -/
theorem allRunnable_of_right {nslaves : Nat} {ops : List Op} :
    ∀ {functions : List Nat} {calls : List Call} {a' : Processes},
      (Processes.tables functions nslaves).run ops = .ok (calls, a') →
      (∀ c ∈ calls, ∀ out ∈ c.done, Right c.asked out) → AllRunnable functions ops := by
  induction ops with
  | nil =>
    intro functions calls a' _ _ before f after hops
    cases before <;> cases hops
  | cons op ops ih =>
    intro functions calls a' hrun hright
    obtain ⟨calls₁, mid, calls₂, hstep, hrest, rfl⟩ := run_cons_inv hrun
    have hright₂ : ∀ c ∈ calls₂, ∀ out ∈ c.done, Right c.asked out :=
      fun c hc => hright c (List.mem_append_right _ hc)
    cases op with
    | registerSpmd f =>
      rw [step_registerSpmd] at hstep
      cases hstep
      exact allRunnable_registerSpmd.mpr (ih hrest hright₂)
    | bspRun f =>
      have hf : Runnable functions f := by
        by_contra hnot
        obtain ⟨out, o, done, hmaster, rfl⟩ := step_bspRun_inv hstep
        have hout := hright _ (List.mem_append_left _ (List.mem_singleton_self _)) out
          List.mem_cons_self
        rcases bspRun_of_not_runnable hnot with ⟨out', e, herr⟩ | ⟨id, g, o', hok, hg⟩
        · rw [show (Processes.tables functions nslaves).master = Object.tables functions from rfl,
            herr] at hmaster
          cases hmaster
        · rw [show (Processes.tables functions nslaves).master = Object.tables functions from rfl,
            hok] at hmaster
          cases hmaster
          rcases hout with hexec | ⟨hexec, -⟩
          · exact hg (List.singleton_inj.mp hexec)
          · cases hexec
      obtain ⟨done, hstep', -⟩ := step_bspRun hf nslaves
      rw [hstep'] at hstep
      cases hstep
      exact allRunnable_bspRun.mpr ⟨hf, ih hrest hright₂⟩

/-- The processes of an actor run what they are asked for, and the slaves leave their loops when
the master ends them, exactly when every function is runnable when it is asked for. -/
theorem dispatches_iff (bspSync nslaves : Nat) (ops : List Op) :
    Dispatches bspSync nslaves ops ↔
      ∀ before f after, ops = before ++ .bspRun f :: after →
        Runnable (bspSync :: registered before) f := by
  show _ ↔ AllRunnable [bspSync] ops
  rw [Dispatches, create_eq_tables]
  constructor
  · rintro ⟨calls, a', hd⟩
    exact allRunnable_of_right hd.runs hd.right
  · exact dispatches_of_allRunnable

/-- A function that nobody registered: the processes run `bsp_sync` in its place. -/
theorem unregistered_runs_bspSync : ¬ Dispatches 0 1 [.registerSpmd 1, .bspRun 2] := by
  rintro ⟨calls, a', hd⟩
  have hcalls : ((Processes.create 0 1).run [.registerSpmd 1, .bspRun 2]).map Prod.fst =
      .ok [⟨2, [[.sendSPMDFunctionID 1, .executed 0], [.executed 0]]⟩] := by rfl
  rw [hd.runs] at hcalls
  cases hcalls
  rcases hd.right _ List.mem_cons_self [.executed 0] (by simp) with h | ⟨h, -⟩ <;> cases h

end ActiveBsp.Actor.SpmdDispatch
