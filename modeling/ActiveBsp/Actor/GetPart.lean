import ActiveBsp.Library.MachineInt
import ActiveBsp.Library.Overload
import ActiveBsp.VectorDistribution
import Mathlib.Data.List.ReduceOption

/-!
# Reading a typed range

`get_part` is the name of four functions: two of bytes and two templates over
the type of the elements. The template that fills a buffer calls `get_part`
again, on bytes, and overload resolution decides whom it calls.
-/
namespace ActiveBsp.Actor.GetPart

open Library.MachineInt Library.Overload

set_option autoImplicit false

/-- An element type. All that counts is whether it is `char`, and how large it is. -/
inductive ElemType where
  | char
  | other (name : String) (size : Nat)
  deriving DecidableEq, Repr

namespace ElemType

def sizeof : ElemType → Nat
  | .char => 1
  | .other _ size => size

end ElemType

inductive ArgType where
  | distributionBase
  | distribution (T : ElemType)
  | sizeT
  | pointer (T : ElemType)
  deriving DecidableEq, Repr

/-- A type in the declaration of a template, which may mention its parameter. -/
inductive ParamType where
  | fixed (type : ArgType)
  | distribution
  | pointer
  deriving DecidableEq, Repr

namespace ParamType

def instantiate (T : ElemType) : ParamType → ArgType
  | .fixed type => type
  | .distribution => .distribution T
  | .pointer => .pointer T

/-- What an argument says about the parameter of the template: nothing, its value, or that the
template does not fit. -/
def deduce : ParamType → ArgType → Option (Option ElemType)
  | .fixed _, _ => some none
  | .distribution, .distribution T => some (some T)
  | .pointer, .pointer T => some (some T)
  | _, _ => none

end ParamType

/-- The cost of a conversion: a distribution of elements converts to its base class. -/
def conversion (src dst : ArgType) : Option Nat :=
  if src = dst then some 0
  else match src, dst with
    | .distribution _, .distributionBase => some 1
    | _, _ => none

inductive Function where
  /-- `std::vector<char> get_part(const vector_distribution_base &, size_t, size_t)`. -/
  | bytesVector
  /-- `void get_part(const vector_distribution_base &, size_t, char *, size_t)`. -/
  | bytes
  /-- `std::vector<T> get_part(const vector_distribution<T> &, size_t, size_t)`. -/
  | vector (T : ElemType)
  /-- `void get_part(const vector_distribution<T> &, size_t, T *, size_t)`. -/
  | elems (T : ElemType)
  deriving DecidableEq, Repr

def functions : List (Function × List ArgType) :=
  [(.bytesVector, [.distributionBase, .sizeT, .sizeT]),
    (.bytes, [.distributionBase, .sizeT, .pointer .char, .sizeT])]

def templates : List ((ElemType → Function) × List ParamType) :=
  [(.vector, [.distribution, .fixed .sizeT, .fixed .sizeT]),
    (.elems, [.distribution, .fixed .sizeT, .pointer, .fixed .sizeT])]

def conversions (args params : List ArgType) : Option (List Nat) :=
  if args.length = params.length then (args.zip params).mapM fun p => conversion p.1 p.2 else none

def deduceAll (params : List ParamType) (args : List ArgType) : Option ElemType := do
  let deduced ← (params.zip args).mapM fun p => p.1.deduce p.2
  match deduced.reduceOption with
  | [] => none
  | T :: Ts => if ∀ T' ∈ Ts, T' = T then some T else none

def functionCandidates (args : List ArgType) : List (Candidate Function) :=
  functions.filterMap fun f => (conversions args f.2).map fun costs => ⟨f.1, costs, false⟩

def templateCandidates (T : Option ElemType) (args : List ArgType) : List (Candidate Function) :=
  templates.filterMap fun t => do
    let T ← T.or (deduceAll t.2 args)
    let costs ← conversions args (t.2.map (ParamType.instantiate T))
    return ⟨t.1 T, costs, true⟩

/-- A call by name; `get_part<T>` names the templates only. -/
def callee (T : Option ElemType) (args : List ArgType) : Option Function :=
  resolve ((if T.isNone then functionCandidates args else []) ++ templateCandidates T args)

structure Args where
  dv : VectorDistribution
  offset : Nat
  outBuf : Nat
  size : Nat
  deriving DecidableEq, Repr

/-- What a body does: it calls `get_part` again, or `dv_get_part` of the communicator. -/
inductive Action where
  | getPart (f : Function) (args : Args)
  | dvGetPart (args : Args)
  deriving DecidableEq, Repr

/-- The bodies; a function that returns a vector makes one, whose address is `outBuf`. -/
def body (args : Args) : Function → Option Action
  | .bytesVector =>
    (callee none [.distributionBase, .sizeT, .pointer .char, .sizeT]).map fun f => .getPart f args
  | .bytes => some (.dvGetPart args)
  | .vector T =>
    (callee (some T) [.distribution T, .sizeT, .pointer T, .sizeT]).map fun f => .getPart f args
  | .elems T =>
    (callee none [.distribution T, .sizeT, .pointer .char, .sizeT]).map fun f =>
      .getPart f { args with
        offset := mul64 args.offset T.sizeof
        size := mul64 args.size T.sizeof }

/-- `f` makes at most `n` further calls of `get_part` and then this call of `dv_get_part`. -/
def run : Nat → Function → Args → Option Args
  | 0, _, _ => none
  | n + 1, f, args =>
    match body args f with
    | none => none
    | some (.dvGetPart args) => some args
    | some (.getPart f args) => run n f args

def dvGetPartOf (T : ElemType) (args : Args) : Args :=
  { args with
    offset := mul64 args.offset T.sizeof
    size := mul64 args.size T.sizeof }

/-- `get_part<T>` ends, in the call that the free function makes. -/
def ReachesCommunicator (T : ElemType) (args : Args) : Prop :=
  ∃ n, run n (.elems T) args = some (dvGetPartOf T args)

def innerTypes (T : ElemType) : List ArgType := [.distribution T, .sizeT, .pointer .char, .sizeT]

theorem callee_char : callee none (innerTypes .char) = some (.elems .char) := by
  have hviable : functionCandidates (innerTypes .char) ++ templateCandidates none (innerTypes .char) =
      [⟨.bytes, [1, 0, 0, 0], false⟩, ⟨.elems .char, [0, 0, 0, 0], true⟩] := by decide
  show resolve (functionCandidates (innerTypes .char) ++ templateCandidates none (innerTypes .char)) = _
  rw [hviable]
  exact resolve_eq (List.mem_cons_of_mem _ List.mem_cons_self) (by decide)

theorem callee_other {T : ElemType} (h : T ≠ .char) : callee none (innerTypes T) = some .bytes := by
  have hfunctions : functionCandidates (innerTypes T) = [⟨.bytes, [1, 0, 0, 0], false⟩] := by
    rfl
  have hvector : deduceAll [.distribution, .fixed .sizeT, .fixed .sizeT] (innerTypes T) = some T := by
    simp [deduceAll, innerTypes, ParamType.deduce, List.reduceOption]
  have helems : deduceAll [.distribution, .fixed .sizeT, .pointer, .fixed .sizeT] (innerTypes T) =
      none := by
    simp [deduceAll, innerTypes, ParamType.deduce, List.reduceOption, h.symm]
  have htemplates : templateCandidates none (innerTypes T) = [] := by
    simp only [templateCandidates, templates, List.filterMap_cons, List.filterMap_nil, hvector, helems]
    rfl
  rw [callee, htemplates]
  show resolve (functionCandidates (innerTypes T) ++ []) = _
  rw [hfunctions]
  exact resolve_eq List.mem_cons_self fun d hd => .inl (List.mem_singleton.mp hd)

theorem body_char (args : Args) : body args (.elems .char) = some (.getPart (.elems .char)
    { args with offset := mul64 args.offset 1, size := mul64 args.size 1 }) := by
  rw [body, show callee none [.distribution .char, .sizeT, .pointer .char, .sizeT] = _ from
    callee_char]
  rfl

theorem body_other {T : ElemType} (h : T ≠ .char) (args : Args) :
    body args (.elems T) = some (.getPart .bytes { args with
      offset := mul64 args.offset T.sizeof
      size := mul64 args.size T.sizeof }) := by
  rw [body, show callee none [.distribution T, .sizeT, .pointer .char, .sizeT] = _ from
    callee_other h]
  rfl

/-- On `char` the template calls itself, however often it has done so. -/
theorem run_char (n : Nat) (args : Args) : run n (.elems .char) args = none := by
  induction n generalizing args with
  | zero => rfl
  | succ n ih =>
    rw [run, body_char]
    exact ih _

/-- `get_part<T>` reaches the communicator, with the call of the free function, exactly when the
elements are no `char`s. -/
theorem reachesCommunicator_iff (T : ElemType) (args : Args) :
    ReachesCommunicator T args ↔ T ≠ .char := by
  constructor
  · rintro ⟨n, hrun⟩ rfl
    rw [run_char] at hrun
    cases hrun
  · intro h
    refine ⟨2, ?_⟩
    rw [run, body_other h]
    rfl

/-- The first byte of an empty distribution. -/
theorem char_read_recurs : ¬ ReachesCommunicator .char ⟨⟨[]⟩, 0, 0, 1⟩ := by
  rintro ⟨n, hrun⟩
  rw [run_char] at hrun
  cases hrun

end ActiveBsp.Actor.GetPart
