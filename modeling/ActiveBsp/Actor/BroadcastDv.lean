import ActiveBsp.Library.Bsp
import ActiveBsp.Serialization.DistributionBuffer

/-!
# Broadcasting a distribution

`broadcast_dv` hands the distribution of the first process of an actor to the
others, through a buffer that all processes register and that only grows. Every
process decides by itself whether to register it anew, with one synchronisation
more.
-/
namespace ActiveBsp.Actor

open Library Library.Buffer Library.Bsp Serialization

set_option autoImplicit false

/-- The objects that a process registers, or receives into. -/
inductive Ident where
  | nextSpmdFunctionId
  | dvBufNelems
  | dvBuf (address : Nat)
  | dv
  deriving DecidableEq, Repr

/-- The synchronisation of `broadcast_dv` that a process is in, or has passed; behind the last
one the call returns. -/
inductive Point where
  | nelems
  | registration
  | returned
  deriving DecidableEq, Repr

/-- What `broadcast_dv` uses of an actor's process. -/
structure ActorState where
  dv : Bytes := []
  dvBufNelems : Int := 0
  dvBuf : Bytes := []
  /-- `&_dv_buf[0]`. -/
  address : Nat := 0
  point : Point := .returned
  /-- How often the process called `broadcast_dv`. -/
  calls : Nat := 0
  deriving DecidableEq, Repr

def memory : Memory ActorState Ident UInt8 where
  read s
    | .nextSpmdFunctionId => none
    | .dvBufNelems => some (intBytes s.dvBufNelems)
    | .dvBuf address => if address = s.address then some s.dvBuf else none
    | .dv => some s.dv
  write s
    | .nextSpmdFunctionId, _ => s
    | .dvBufNelems, data => { s with dvBufNelems := intOfBytes data }
    | .dvBuf _, data => { s with dvBuf := data }
    | .dv, data => { s with dv := data }

abbrev Requests := List (Request Ident UInt8)

/-- `nparts`, from the buffer. -/
def npartsOf (buf : Bytes) : Int := intOfBytes (buf.take 4)

/-- From the call to the first synchronisation. -/
def enter (P pid : Nat) (dv : Bytes) (s : ActorState) : Except Fault (ActorState × Requests) :=
  if dv.length < 4 then .error .undefined
  else
    .ok ({ s with dv := dv, point := .nelems, calls := s.calls + 1 },
      if pid = 0 then (List.range P).map fun i => .put i .dvBufNelems 0 (intBytes (npartsOf dv))
      else [])

/-- `memcpy` at the root, `bsp_get` elsewhere. -/
def transfer (pid : Nat) (s : ActorState) : Except Fault (ActorState × Requests) :=
  if pid = 0 then
    if s.dvBuf.length < s.dv.length then .error .undefined
    else .ok ({ s with dvBuf := splice s.dvBuf 0 s.dv, point := .returned }, [])
  else .ok ({ s with point := .returned }, [.get 0 (.dvBuf s.address) 0 .dv s.dv.length])

/-- `resize` and the registration of the grown buffer, which may have moved. -/
def registerGrown (address : Nat) (s : ActorState) : ActorState × Requests :=
  ({ s with
      dvBuf := s.dvBuf ++ List.replicate (s.dv.length - s.dvBuf.length) 0
      address := address
      point := .registration },
    (if s.dvBuf.length ≠ 0 then [.popReg (.dvBuf s.address)] else []) ++
      [.pushReg (.dvBuf address) s.dv.length])

/-- All but the root make room for as many parts as it has. -/
def makeRoom (pid : Nat) (s : ActorState) : Except Fault Bytes :=
  if pid ≠ 0 then newBuf s.dvBufNelems else .ok s.dv

/-- Behind the first synchronisation. -/
def afterNelems (pid address : Nat) (s : ActorState) : Except Fault (ActorState × Requests) := do
  let dv ← makeRoom pid s
  let s := { s with dv := dv }
  if s.dvBuf.length < s.dv.length then pure (registerGrown address s)
  else transfer pid s

/-- What a process does up to its next synchronisation. A process that has returned from a call
makes the next one; `dvs` are the arguments of its calls. -/
def segment (P pid : Nat) (dvs : Nat → Bytes) (address : Nat) (s : ActorState) :
    Except Fault (ActorState × Requests) :=
  match s.point with
  | .returned => enter P pid (dvs s.calls) s
  | .nelems => afterNelems pid address s
  | .registration => transfer pid s

section Supersteps

variable (P : Nat) (dvs : Nat → Nat → Bytes) (address : Nat → Nat) (team : Team ActorState Ident)

def segmentOf (pid : Nat) : Except Fault (ActorState × Requests) :=
  segment P pid (fun call => dvs call pid) (address pid) (team pid).state

/-- The processes in the synchronisation. -/
def computed : Team ActorState Ident := fun pid =>
  match segmentOf P dvs address team pid with
  | .ok moved => ⟨moved.1, (team pid).areas⟩
  | .error _ => team pid

def requested (pid : Nat) : Requests :=
  match segmentOf P dvs address team pid with
  | .ok moved => moved.2
  | .error _ => []

/-- Every process computes up to its next synchronisation, and all synchronise. -/
def superstep : Option (Team ActorState Ident) :=
  let sync := Bsp.sync memory P (computed P dvs address team) (requested P dvs address team)
  if ∀ pid < P, (segmentOf P dvs address team pid).isOk ∧ (sync pid).isSome then
    some fun pid => (sync pid).getD (team pid)
  else none

end Supersteps

/-- Behind the constructor of `ActorBase`. -/
def startTeam : Team ActorState Ident := fun _ =>
  ⟨{}, [(.dvBufNelems, 4), (.nextSpmdFunctionId, 4)]⟩

/-- `dvs call pid` is what a process passes to a call, and `addresses n pid` where its buffer would
come to lie if it grew in a superstep. -/
def run (P : Nat) (dvs : Nat → Nat → Bytes) (addresses : Nat → Nat → Nat) :
    Nat → Option (Team ActorState Ident)
  | 0 => some startTeam
  | n + 1 => (run P dvs addresses n).bind (superstep P dvs (addresses n))

/-- A buffer as the constructor makes it, whatever its parts. -/
def Constructed (buf : Bytes) : Prop :=
  ∃ zeros, newBuf (npartsOf buf) = .ok zeros ∧ zeros.length = buf.length

/-- The areas of a process whose buffer for broadcasts has the given size. -/
def areasOf (size address : Nat) : List (Ident × Nat) :=
  (if size = 0 then [] else [(.dvBuf address, size)]) ++
    [(.dvBufNelems, 4), (.nextSpmdFunctionId, 4)]

/-- All processes are at the same point of the same call, with buffers of the same size that are
registered with that size. -/
structure InStep (P : Nat) (dvs : Nat → Nat → Bytes) (point : Point) (calls size : Nat)
    (team : Team ActorState Ident) : Prop where
  point_eq : ∀ p < P, (team p).state.point = point
  calls_eq : ∀ p < P, (team p).state.calls = calls
  size_eq : ∀ p < P, (team p).state.dvBuf.length = size
  areas_eq : ∀ p < P, (team p).areas = areasOf size (team p).state.address
  started : point ≠ .returned → 0 < calls
  root : 0 < calls → (team 0).state.dv = dvs (calls - 1) 0
  nelems : point = .nelems →
    ∀ p < P, (team p).state.dvBufNelems = npartsOf (dvs (calls - 1) 0)
  room : point = .registration → (dvs (calls - 1) 0).length ≤ size ∧
    ∀ p < P, (team p).state.dv.length = (dvs (calls - 1) 0).length
  received : point = .returned → 0 < calls → ∀ p < P, (team p).state.dv = dvs (calls - 1) 0

variable {P : Nat} {dvs : Nat → Nat → Bytes} {address : Nat → Nat} {team : Team ActorState Ident}

theorem computed_eq {pid : Nat} {moved : ActorState × Requests}
    (h : segmentOf P dvs address team pid = .ok moved) :
    computed P dvs address team pid = ⟨moved.1, (team pid).areas⟩ ∧
      requested P dvs address team pid = moved.2 := by
  unfold computed requested
  rw [h]
  exact ⟨rfl, rfl⟩

/-- A superstep in which every segment and every synchronisation has a result. -/
theorem superstep_of_each {moved : Nat → ActorState × Requests}
    {next : Nat → Bsp.Process ActorState Ident}
    (hsegment : ∀ p < P, segmentOf P dvs address team p = .ok (moved p))
    (hsync : ∀ p < P, Bsp.sync memory P (computed P dvs address team)
      (requested P dvs address team) p = some (next p)) :
    ∃ team', superstep P dvs address team = some team' ∧ ∀ p < P, team' p = next p := by
  have hall : ∀ pid < P, (segmentOf P dvs address team pid).isOk ∧
      (Bsp.sync memory P (computed P dvs address team) (requested P dvs address team) pid).isSome := by
    intro pid hp
    rw [hsegment pid hp, hsync pid hp]
    exact ⟨rfl, rfl⟩
  refine ⟨_, if_pos hall, fun p hp => ?_⟩
  rw [hsync p hp, Option.getD_some]

theorem npartsOf_range (buf : Bytes) : -2 ^ 31 ≤ npartsOf buf ∧ npartsOf buf < 2 ^ 31 := by
  unfold npartsOf intOfBytes MachineInt.toInt32
  rw [Int.bmod_def]
  omega

theorem Constructed.length_pos {buf : Bytes} (h : Constructed buf) : 4 ≤ buf.length := by
  obtain ⟨zeros, hnew, hlen⟩ := h
  unfold newBuf at hnew
  dsimp only at hnew
  split_ifs at hnew with hbig hsmall
  cases hnew
  rw [length_splice (by rw [length_intBytes, List.length_replicate]; omega),
    List.length_replicate] at hlen
  omega

theorem remote_nelems {team : Team ActorState Ident} {p q size : Nat}
    (hp : (team p).areas = areasOf size (team p).state.address)
    (hq : (team q).areas = areasOf size (team q).state.address) :
    remote team p q .dvBufNelems 0 4 = some .dvBufNelems := by
  unfold remote
  rw [hp, hq]
  unfold areasOf
  by_cases hsize : size = 0
  · rw [if_pos hsize, if_pos hsize]
    rfl
  · rw [if_neg hsize, if_neg hsize]
    rfl

theorem remote_dvBuf {team : Team ActorState Ident} {p q size n : Nat}
    (hp : (team p).areas = areasOf size (team p).state.address)
    (hq : (team q).areas = areasOf size (team q).state.address) (hpos : 0 < n) (hn : n ≤ size) :
    remote team p q (.dvBuf (team p).state.address) 0 n = some (.dvBuf (team q).state.address) := by
  unfold remote
  rw [hp, hq]
  unfold areasOf
  rw [if_neg (by omega), if_neg (by omega)]
  have hslot : slotOf ([(Ident.dvBuf (team p).state.address, size)] ++
      [(.dvBufNelems, 4), (.nextSpmdFunctionId, 4)]) (.dvBuf (team p).state.address) = some 2 := by
    rw [List.singleton_append, slotOf, if_pos rfl]
    rfl
  have harea : areaAt ([(Ident.dvBuf (team q).state.address, size)] ++
      [(.dvBufNelems, 4), (.nextSpmdFunctionId, 4)]) 2 =
        some (.dvBuf (team q).state.address, size) := rfl
  rw [hslot, Option.bind_some, harea, Option.bind_some, Nat.zero_add, if_pos hn]

/-- The buffer that grows is registered instead of the one before it. -/
theorem registerGrown_areas (s : ActorState) (address : Nat) :
    (registerGrown address s).2.foldl register (areasOf s.dvBuf.length s.address) =
      areasOf s.dv.length address ∨ s.dv.length = 0 := by
  by_cases hdv : s.dv.length = 0
  · exact Or.inr hdv
  · left
    unfold registerGrown areasOf
    by_cases hsize : s.dvBuf.length = 0
    · simp [hsize, hdv, register]
    · simp [hsize, hdv, register]

theorem store_nelems (s : ActorState) {n : Int} (h : -2 ^ 31 ≤ n ∧ n < 2 ^ 31) :
    store memory s .dvBufNelems 0 (intBytes n) = some { s with dvBufNelems := n } := by
  have hlen : (intBytes n).length = (intBytes s.dvBufNelems).length := by
    rw [length_intBytes, length_intBytes]
  have hread : memory.read s .dvBufNelems = some (intBytes s.dvBufNelems) := rfl
  rw [store_of_read hread (by rw [Nat.zero_add, hlen]), splice_all hlen]
  show some { s with dvBufNelems := intOfBytes (intBytes n) } = _
  rw [intOfBytes_intBytes h.1 h.2]

/-- The call begins: the root puts its number of parts into every process. -/
theorem InStep.enter {calls size : Nat} (h : InStep P dvs .returned calls size team)
    (hP : 0 < P) (hlen : ∀ call pid, 4 ≤ (dvs call pid).length) :
    ∃ team', superstep P dvs address team = some team' ∧
      InStep P dvs .nelems (calls + 1) size team' := by
  let moved : Nat → ActorState × Requests := fun p =>
    ({ (team p).state with dv := dvs calls p, point := .nelems, calls := calls + 1 },
      if p = 0 then (List.range P).map fun i => .put i .dvBufNelems 0 (intBytes (npartsOf (dvs calls p)))
      else [])
  have hsegment : ∀ p < P, segmentOf P dvs address team p = .ok (moved p) := by
    intro p hp
    have hdv := hlen calls p
    unfold segmentOf segment
    rw [h.point_eq p hp, h.calls_eq p hp]
    dsimp only
    rw [Actor.enter, if_neg (by omega), h.calls_eq p hp]
  have hcomputed := fun p hp => computed_eq (hsegment p hp)
  have hareas : ∀ p < P, (computed P dvs address team p).areas =
      areasOf size (computed P dvs address team p).state.address := by
    intro p hp
    rw [(hcomputed p hp).1]
    exact h.areas_eq p hp
  have hrange := npartsOf_range (dvs calls 0)
  have hsync : ∀ p < P, Bsp.sync memory P (computed P dvs address team)
      (requested P dvs address team) p =
        some ⟨{ (moved p).1 with dvBufNelems := npartsOf (dvs calls 0) }, (team p).areas⟩ := by
    intro p hp
    have hroot : requested P dvs address team 0 = (List.range P).map fun i =>
        .put i .dvBufNelems 0 (intBytes (npartsOf (dvs calls 0))) := (hcomputed 0 hP).2
    have hother : ∀ q < P, q ≠ 0 → requested P dvs address team q = [] := by
      intro q hq hne
      rw [(hcomputed q hq).2]
      exact if_neg hne
    have harea : remote (computed P dvs address team) 0 p .dvBufNelems 0
        (intBytes (npartsOf (dvs calls 0))).length = some .dvBufNelems := by
      rw [length_intBytes]
      exact remote_nelems (hareas 0 hP) (hareas p hp)
    have hstore : store memory (computed P dvs address team p).state .dvBufNelems 0
        (intBytes (npartsOf (dvs calls 0))) =
          some { (moved p).1 with dvBufNelems := npartsOf (dvs calls 0) } := by
      rw [(hcomputed p hp).1]
      exact store_nelems (moved p).1 hrange
    have hdone := sync_of_broadcast hroot hother hP hp harea hstore
    rw [hdone, (hcomputed p hp).1]
  obtain ⟨team', hstep, hteam⟩ := superstep_of_each hsegment hsync
  refine ⟨team', hstep, ?_⟩
  constructor
  · intro p hp
    rw [hteam p hp]
  · intro p hp
    rw [hteam p hp]
  · intro p hp
    rw [hteam p hp]
    exact h.size_eq p hp
  · intro p hp
    rw [hteam p hp]
    exact h.areas_eq p hp
  · exact fun _ => Nat.succ_pos calls
  · intro _
    rw [hteam 0 hP]
    rfl
  · intro _ p hp
    rw [hteam p hp, Nat.add_sub_cancel]
  · intro hpoint
    cases hpoint
  · intro hpoint
    cases hpoint

/-- What a process does in `transfer`, when the buffer has room. -/
def transferred (p : Nat) (s : ActorState) : ActorState × Requests :=
  if p = 0 then ({ s with dvBuf := splice s.dvBuf 0 s.dv, point := .returned }, [])
  else ({ s with point := .returned }, [.get 0 (.dvBuf s.address) 0 .dv s.dv.length])

theorem transfer_of_room {p : Nat} {s : ActorState} (h : s.dv.length ≤ s.dvBuf.length) :
    transfer p s = .ok (transferred p s) := by
  unfold transfer transferred
  by_cases hp : p = 0
  · rw [if_pos hp, if_pos hp, if_neg (Nat.not_lt.mpr h)]
  · rw [if_neg hp, if_neg hp]

/-- The states before a transfer: room for the root's distribution everywhere, and its size is
known. -/
structure Prepared (P size calls : Nat) (root : Bytes) (states : Nat → ActorState) : Prop where
  size_eq : ∀ p < P, (states p).dvBuf.length = size
  dv : ∀ p < P, (states p).dv.length = root.length
  root_eq : (states 0).dv = root
  pos : 0 < root.length
  fits : root.length ≤ size
  calls_eq : ∀ p < P, (states p).calls = calls

/-- The last superstep of a call: every process gets the root's distribution. -/
theorem transfer_step {states : Nat → ActorState} {size calls : Nat} (hP : 0 < P)
    (h : Prepared P size calls (dvs (calls - 1) 0) states)
    (hsegment : ∀ p < P, segmentOf P dvs address team p = transfer p (states p))
    (hareas : ∀ p < P, (team p).areas = areasOf size (states p).address) :
    ∃ team', superstep P dvs address team = some team' ∧
      InStep P dvs .returned calls size team' := by
  have hmoved : ∀ p < P, segmentOf P dvs address team p = .ok (transferred p (states p)) := by
    intro p hp
    have hdv := h.dv p hp
    have hsize := h.size_eq p hp
    have hfits := h.fits
    rw [hsegment p hp, transfer_of_room (by omega)]
  have hcomputed := fun p hp => computed_eq (hmoved p hp)
  have haddress : ∀ p, (transferred p (states p)).1.address = (states p).address := by
    intro p
    unfold transferred
    split_ifs <;> rfl
  have hknown : ∀ p < P, (computed P dvs address team p).areas =
      areasOf size (computed P dvs address team p).state.address := by
    intro p hp
    rw [(hcomputed p hp).1, haddress]
    exact hareas p hp
  have hnoputs : ∀ q < P, ∀ r ∈ requested P dvs address team q, ¬ r.IsPut := by
    intro q hq r hr
    rw [(hcomputed q hq).2] at hr
    unfold transferred at hr
    by_cases hq0 : q = 0
    · rw [if_pos hq0] at hr
      cases hr
    · rw [if_neg hq0] at hr
      rw [List.mem_singleton.mp hr]
      exact id
  have hroom : 0 + (dvs (calls - 1) 0).length ≤ (states 0).dvBuf.length := by
    rw [Nat.zero_add, h.size_eq 0 hP]
    exact h.fits
  -- what the root copied is what the others find there
  have hfound : memory.read (computed P dvs address team 0).state
      (.dvBuf (computed P dvs address team 0).state.address) =
        some (splice (states 0).dvBuf 0 (dvs (calls - 1) 0)) := by
    rw [(hcomputed 0 hP).1, ← h.root_eq]
    exact if_pos rfl
  have hsync : ∀ p < P, Bsp.sync memory P (computed P dvs address team)
      (requested P dvs address team) p =
        some ⟨{ (transferred p (states p)).1 with dv := dvs (calls - 1) 0 }, (team p).areas⟩ := by
    intro p hp
    by_cases hp0 : p = 0
    · have hreqs : requested P dvs address team p = [] := by
        rw [(hcomputed p hp).2]
        exact congrArg Prod.snd (if_pos hp0)
      have hkeep : { (transferred p (states p)).1 with dv := dvs (calls - 1) 0 } =
          (transferred p (states p)).1 := by
        rw [hp0, ← h.root_eq]
        rfl
      rw [sync_of_idle hnoputs hreqs, (hcomputed p hp).1, hkeep]
    · have hreqs : requested P dvs address team p =
          [.get 0 (.dvBuf (states p).address) 0 .dv (dvs (calls - 1) 0).length] := by
        rw [(hcomputed p hp).2, ← h.dv p hp]
        exact congrArg Prod.snd (if_neg hp0)
      have harea := remote_dvBuf (hknown p hp) (hknown 0 hP) h.pos h.fits
      rw [show (computed P dvs address team p).state.address = (states p).address by
        rw [(hcomputed p hp).1, haddress]] at harea
      have hread : memory.read (transferred p (states p)).1 .dv = some (states p).dv :=
        congrArg (fun moved : ActorState × Requests => memory.read moved.1 .dv) (if_neg hp0)
      have hlen := h.dv p hp
      have hstore : store memory (computed P dvs address team p).state .dv 0
          (slice (splice (states 0).dvBuf 0 (dvs (calls - 1) 0)) 0 (dvs (calls - 1) 0).length) =
            some { (transferred p (states p)).1 with dv := dvs (calls - 1) 0 } := by
        rw [slice_splice hroom, (hcomputed p hp).1, store_of_read hread (by omega),
          splice_all hlen.symm]
        rfl
      have hinside : 0 + (dvs (calls - 1) 0).length ≤
          (splice (states 0).dvBuf 0 (dvs (calls - 1) 0)).length := by
        rw [length_splice hroom]
        exact hroom
      rw [sync_of_get hnoputs hreqs harea hfound hinside hstore, (hcomputed p hp).1]
  obtain ⟨team', hstep, hteam⟩ := superstep_of_each hmoved hsync
  refine ⟨team', hstep, ?_⟩
  have hkept : ∀ p, (transferred p (states p)).1.point = .returned ∧
      (transferred p (states p)).1.calls = (states p).calls := by
    intro p
    unfold transferred
    split_ifs <;> exact ⟨rfl, rfl⟩
  have hbuf : ∀ p < P, (transferred p (states p)).1.dvBuf.length = size := by
    intro p hp
    have hsize := h.size_eq p hp
    have hdv := h.dv p hp
    have hfits := h.fits
    unfold transferred
    split_ifs
    · show (splice (states p).dvBuf 0 (states p).dv).length = size
      rw [length_splice (by omega), hsize]
    · exact hsize
  constructor
  · intro p hp
    rw [hteam p hp]
    exact (hkept p).1
  · intro p hp
    rw [hteam p hp]
    exact (hkept p).2.trans (h.calls_eq p hp)
  · intro p hp
    rw [hteam p hp]
    exact hbuf p hp
  · intro p hp
    rw [hteam p hp]
    show (team p).areas = areasOf size (transferred p (states p)).1.address
    rw [haddress]
    exact hareas p hp
  · intro hne
    exact absurd rfl hne
  · intro _
    rw [hteam 0 hP]
  · intro hpoint
    cases hpoint
  · intro hpoint
    cases hpoint
  · intro _ _ p hp
    rw [hteam p hp]

/-- The distribution that a process goes on with behind the first synchronisation. -/
theorem InStep.constructs {calls size : Nat} (h : InStep P dvs .nelems calls size team)
    (hroot : ∀ call, Constructed (dvs call 0)) :
    ∃ own : Nat → Bytes, own 0 = dvs (calls - 1) 0 ∧
      (∀ p < P, (own p).length = (dvs (calls - 1) 0).length) ∧
      ∀ p < P, makeRoom p (team p).state = .ok (own p) := by
  obtain ⟨zeros, hnew, hlen⟩ := hroot (calls - 1)
  refine ⟨fun p => if p = 0 then dvs (calls - 1) 0 else zeros, if_pos rfl, fun p _ => ?_,
    fun p hp => ?_⟩
  · dsimp only
    by_cases hp0 : p = 0
    · rw [if_pos hp0]
    · rw [if_neg hp0, hlen]
  · unfold makeRoom
    dsimp only
    by_cases hp0 : p = 0
    · rw [if_neg (not_not.mpr hp0), if_pos hp0, hp0, h.root (h.started (by decide))]
    · rw [if_pos hp0, if_neg hp0, h.nelems rfl p hp, hnew]

/-- All processes find their buffers too short, or none does. -/
theorem InStep.decide {calls size : Nat} (h : InStep P dvs .nelems calls size team)
    (hP : 0 < P) (hroot : ∀ call, Constructed (dvs call 0)) :
    ∃ team' point size', superstep P dvs address team = some team' ∧
      InStep P dvs point calls size' team' ∧ point ≠ .nelems := by
  obtain ⟨own, hown0, hownlen, hown⟩ := h.constructs hroot
  have hpos : 0 < (dvs (calls - 1) 0).length := by
    have := (hroot (calls - 1)).length_pos
    omega
  have hsegment : ∀ p < P, segmentOf P dvs address team p =
      if (team p).state.dvBuf.length < (own p).length then
        .ok (registerGrown (address p) { (team p).state with dv := own p })
      else transfer p { (team p).state with dv := own p } := by
    intro p hp
    unfold segmentOf segment
    rw [h.point_eq p hp]
    dsimp only
    rw [afterNelems, hown p hp]
    rfl
  by_cases hgrow : size < (dvs (calls - 1) 0).length
  · let moved : Nat → ActorState × Requests := fun p =>
      registerGrown (address p) { (team p).state with dv := own p }
    have hmoved : ∀ p < P, segmentOf P dvs address team p = .ok (moved p) := by
      intro p hp
      rw [hsegment p hp, if_pos (by rw [h.size_eq p hp, hownlen p hp]; exact hgrow)]
    have hcomputed := fun p hp => computed_eq (hmoved p hp)
    have hrequests : ∀ p, ∀ r ∈ (moved p).2, ¬ r.IsPut ∧ ¬ r.IsGet := by
      intro p r hr
      rcases List.mem_append.mp hr with hpop | hpush
      · split_ifs at hpop
        · rw [List.mem_singleton.mp hpop]
          exact ⟨id, id⟩
        · cases hpop
      · rw [List.mem_singleton.mp hpush]
        exact ⟨id, id⟩
    have hsync : ∀ p < P, Bsp.sync memory P (computed P dvs address team)
        (requested P dvs address team) p =
          some ⟨(moved p).1, areasOf (dvs (calls - 1) 0).length (address p)⟩ := by
      intro p hp
      have hnoputs : ∀ q < P, ∀ r ∈ requested P dvs address team q, ¬ r.IsPut := by
        intro q hq r hr
        rw [(hcomputed q hq).2] at hr
        exact (hrequests q r hr).1
      have hnogets : ∀ r ∈ requested P dvs address team p, ¬ r.IsGet := by
        intro r hr
        rw [(hcomputed p hp).2] at hr
        exact (hrequests p r hr).2
      have hareas : (moved p).2.foldl register (team p).areas =
          areasOf (dvs (calls - 1) 0).length (address p) := by
        rcases registerGrown_areas { (team p).state with dv := own p } (address p) with hnew | hzero
        · rw [h.areas_eq p hp, ← h.size_eq p hp, ← hownlen p hp]
          exact hnew
        · have : (own p).length = 0 := hzero
          rw [hownlen p hp] at this
          omega
      rw [sync_of_no_puts hnoputs (receiveGets_of_none hnogets _), (hcomputed p hp).1,
        (hcomputed p hp).2, hareas]
    obtain ⟨team', hstep, hteam⟩ := superstep_of_each hmoved hsync
    refine ⟨team', .registration, (dvs (calls - 1) 0).length, hstep, ?_, by decide⟩
    constructor
    · intro p hp
      rw [hteam p hp]
      rfl
    · intro p hp
      rw [hteam p hp]
      exact h.calls_eq p hp
    · intro p hp
      rw [hteam p hp]
      have hold := h.size_eq p hp
      have hnew := hownlen p hp
      show ((team p).state.dvBuf ++
        List.replicate ((own p).length - (team p).state.dvBuf.length) 0).length = _
      rw [List.length_append, List.length_replicate]
      omega
    · intro p hp
      rw [hteam p hp]
      rfl
    · exact fun _ => h.started (by decide)
    · intro _
      rw [hteam 0 hP]
      exact hown0
    · intro hpoint
      cases hpoint
    · intro _
      refine ⟨le_refl _, fun p hp => ?_⟩
      rw [hteam p hp]
      exact hownlen p hp
    · intro hpoint
      cases hpoint
  · have hprepared : Prepared P size calls (dvs (calls - 1) 0)
        fun p => { (team p).state with dv := own p } :=
      ⟨h.size_eq, hownlen, hown0, hpos, Nat.le_of_not_lt hgrow, h.calls_eq⟩
    have htransfer : ∀ p < P, segmentOf P dvs address team p =
        transfer p { (team p).state with dv := own p } := by
      intro p hp
      rw [hsegment p hp, if_neg (by rw [h.size_eq p hp, hownlen p hp]; exact hgrow)]
    obtain ⟨team', hstep, hteam⟩ := transfer_step hP hprepared htransfer h.areas_eq
    exact ⟨team', .returned, size, hstep, hteam, by decide⟩

theorem InStep.afterRegistration {calls size : Nat}
    (h : InStep P dvs .registration calls size team) (hP : 0 < P)
    (hroot : ∀ call, Constructed (dvs call 0)) :
    ∃ team', superstep P dvs address team = some team' ∧
      InStep P dvs .returned calls size team' := by
  obtain ⟨hfits, hdv⟩ := h.room rfl
  have hpos : 0 < (dvs (calls - 1) 0).length := by
    have := (hroot (calls - 1)).length_pos
    omega
  have hprepared : Prepared P size calls (dvs (calls - 1) 0) fun p => (team p).state :=
    ⟨h.size_eq, hdv, h.root (h.started (by decide)), hpos, hfits, h.calls_eq⟩
  refine transfer_step hP hprepared (fun p hp => ?_) h.areas_eq
  unfold segmentOf segment
  rw [h.point_eq p hp]

/-- How many supersteps a number of calls takes at most, up to a point of the last one. -/
def stepsTo (calls : Nat) : Point → Nat
  | .returned => 3 * calls
  | .nelems => 3 * calls - 2
  | .registration => 3 * calls - 1

theorem InStep.step {point : Point} {calls size n : Nat} (h : InStep P dvs point calls size team)
    (address : Nat → Nat) (hP : 0 < P) (hroot : ∀ call, Constructed (dvs call 0))
    (hlen : ∀ call pid, 4 ≤ (dvs call pid).length) (hn : n ≤ stepsTo calls point) :
    ∃ team' point' calls' size', superstep P dvs address team = some team' ∧
      InStep P dvs point' calls' size' team' ∧ n + 1 ≤ stepsTo calls' point' := by
  have hstarted := h.started
  cases point with
  | returned =>
    obtain ⟨team', hstep, hteam⟩ := h.enter hP hlen
    refine ⟨team', .nelems, calls + 1, size, hstep, hteam, ?_⟩
    simp only [stepsTo] at hn ⊢
    omega
  | nelems =>
    obtain ⟨team', point', size', hstep, hteam, hne⟩ := h.decide hP hroot
    have hpos := hstarted (by decide)
    refine ⟨team', point', calls, size', hstep, hteam, ?_⟩
    cases point' with
    | nelems => exact absurd rfl hne
    | registration =>
      simp only [stepsTo] at hn ⊢
      omega
    | returned =>
      simp only [stepsTo] at hn ⊢
      omega
  | registration =>
    obtain ⟨team', hstep, hteam⟩ := h.afterRegistration hP hroot
    have hpos := hstarted (by decide)
    refine ⟨team', .returned, calls, size, hstep, hteam, ?_⟩
    simp only [stepsTo] at hn ⊢
    omega

/-- All processes of a team are at the same point of the same call, with buffers of one size; and
behind a call each one holds what the first process passed to it. -/
structure Delivered (P : Nat) (dvs : Nat → Nat → Bytes) (team : Team ActorState Ident) : Prop where
  point : ∀ p < P, (team p).state.point = (team 0).state.point
  calls : ∀ p < P, (team p).state.calls = (team 0).state.calls
  size : ∀ p < P, (team p).state.dvBuf.length = (team 0).state.dvBuf.length
  received : ∀ p < P, (team p).state.point = .returned → ∀ call,
    (team p).state.calls = call + 1 → (team p).state.dv = dvs call 0

/-- Every run of collective calls goes on: no superstep leaves a registered area, the processes
stay in step, and each call hands on the distribution of the first process after three supersteps
at most. -/
theorem broadcast_delivers {P : Nat} (hP : 0 < P) {dvs : Nat → Nat → Bytes}
    (hroot : ∀ call, Constructed (dvs call 0)) (hlen : ∀ call pid, 4 ≤ (dvs call pid).length)
    (addresses : Nat → Nat → Nat) (n : Nat) :
    ∃ team, run P dvs addresses n = some team ∧ Delivered P dvs team ∧
      n ≤ 3 * (team 0).state.calls := by
  have hrun : ∃ team point calls size, run P dvs addresses n = some team ∧
      InStep P dvs point calls size team ∧ n ≤ stepsTo calls point := by
    induction n with
    | zero =>
      refine ⟨startTeam, .returned, 0, 0, rfl, ?_, Nat.zero_le _⟩
      constructor
      · exact fun _ _ => rfl
      · exact fun _ _ => rfl
      · exact fun _ _ => rfl
      · exact fun _ _ => rfl
      · exact fun hne => absurd rfl hne
      · exact fun hpos => absurd hpos (Nat.lt_irrefl 0)
      · exact fun hpoint => by cases hpoint
      · exact fun hpoint => by cases hpoint
      · exact fun _ hpos => absurd hpos (Nat.lt_irrefl 0)
    | succ n ih =>
      obtain ⟨team, point, calls, size, hteam, hin, hn⟩ := ih
      obtain ⟨team', point', calls', size', hstep, hin', hn'⟩ :=
        hin.step (addresses n) hP hroot hlen hn
      refine ⟨team', point', calls', size', ?_, hin', hn'⟩
      rw [run, hteam, Option.bind_some, hstep]
  obtain ⟨team, point, calls, size, hteam, hin, hn⟩ := hrun
  refine ⟨team, hteam, ⟨?_, ?_, ?_, ?_⟩, ?_⟩
  · intro p hp
    rw [hin.point_eq p hp, hin.point_eq 0 hP]
  · intro p hp
    rw [hin.calls_eq p hp, hin.calls_eq 0 hP]
  · intro p hp
    rw [hin.size_eq p hp, hin.size_eq 0 hP]
  · intro p hp hpoint call hcall
    rw [hin.point_eq p hp] at hpoint
    rw [hin.calls_eq p hp] at hcall
    have hdv := hin.received hpoint (by omega) p hp
    rwa [hcall, Nat.add_sub_cancel] at hdv
  · rw [hin.calls_eq 0 hP]
    cases point with
    | returned => exact hn
    | nelems =>
      simp only [stepsTo] at hn
      omega
    | registration =>
      simp only [stepsTo] at hn
      omega

theorem constructed_new {n : Nat} (h : 8 + 24 * n < 2 ^ 31) :
    Constructed (getBuf (VectorDistribution.new n)) := by
  have hn : npartsOf (getBuf (VectorDistribution.new n)) = n := by
    rw [npartsOf, getBuf_new, List.take_left' (length_intBytes _),
      intOfBytes_intBytes (by omega) (by omega)]
  refine ⟨_, ?_, rfl⟩
  rw [hn]
  exact newBuf_of_small h

/-- The arguments of two processes: up to two parts at the root, one part elsewhere. -/
def sampleDvs (call pid : Nat) : Bytes :=
  getBuf (VectorDistribution.new (if pid = 0 then call % 3 else 1))

theorem broadcast_delivers_sample :
    ∃ team, run 2 sampleDvs (fun n _ => n) 8 = some team ∧ Delivered 2 sampleDvs team ∧
      8 ≤ 3 * (team 0).state.calls := by
  refine broadcast_delivers (by decide) (fun call => ?_) (fun call pid => ?_) _ 8
  · exact constructed_new (n := call % 3) (by omega)
  · unfold sampleDvs
    rw [length_getBuf, getBufSize]
    omega

end ActiveBsp.Actor
