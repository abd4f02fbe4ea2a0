import ActiveBsp.Library.Tiling

/-!
# Distributed vectors

A distribution lists which process keeps which byte range of a vector and under
which key. The list order carries no meaning and parts may be empty.
-/
namespace ActiveBsp

open Library.Tiling

set_option autoImplicit false

/-- The bytes of messages and buffers. -/
abbrev Bytes := List UInt8

/-- `vector_distribution_part_t`. -/
structure VectorDistributionPart where
  pid : Int
  resid : Int
  size : Nat
  offset : Nat
  deriving DecidableEq, Repr

namespace VectorDistributionPart

def span (part : VectorDistributionPart) : Span := ⟨part.offset, part.size⟩

end VectorDistributionPart

/-- `vector_distribution_base`, as the array of its parts. -/
structure VectorDistribution where
  parts : List VectorDistributionPart
  deriving DecidableEq, Repr

namespace VectorDistribution

/-- `vector_distribution_base(nelems)`: zero-filled parts. -/
def new (nelems : Nat) : VectorDistribution := ⟨List.replicate nelems ⟨0, 0, 0, 0⟩⟩

def nparts (dv : VectorDistribution) : Nat := dv.parts.length

/-- `register_part`. -/
def registerPart (dv : VectorDistribution) (i : Nat) (part : VectorDistributionPart) :
    VectorDistribution := ⟨dv.parts.set i part⟩

@[simp] theorem parts_registerPart (dv : VectorDistribution) (i : Nat)
    (part : VectorDistributionPart) : (dv.registerPart i part).parts = dv.parts.set i part := rfl

def spans (dv : VectorDistribution) : List Span := dv.parts.map VectorDistributionPart.span

private theorem parts_registerPart_foldl (f : Nat → VectorDistributionPart) (p : Nat) :
    ∀ n ≤ p, ((List.range n).foldl (fun dv i => dv.registerPart i (f i)) (new p)).parts =
      (List.range n).map f ++ List.replicate (p - n) ⟨0, 0, 0, 0⟩ := by
  intro n
  induction n with
  | zero => intro _; simp [new]
  | succ n ih =>
    intro hn
    have hrep : List.replicate (p - n) (⟨0, 0, 0, 0⟩ : VectorDistributionPart) =
        ⟨0, 0, 0, 0⟩ :: List.replicate (p - (n + 1)) ⟨0, 0, 0, 0⟩ := by
      rw [← List.replicate_succ]
      congr 1
      omega
    simp only [List.range_succ, List.foldl_append, List.foldl_cons, List.foldl_nil, parts_registerPart]
    rw [ih (by omega), hrep, List.set_append_right _ _ (by simp)]
    simp

/-- Registering every index in turn leaves exactly the registered parts. -/
theorem registerPart_all (f : Nat → VectorDistributionPart) (p : Nat) :
    (List.range p).foldl (fun dv i => dv.registerPart i (f i)) (new p) =
      ⟨(List.range p).map f⟩ := by
  have h := parts_registerPart_foldl f p p (le_refl p)
  rw [Nat.sub_self, List.replicate_zero, List.append_nil] at h
  rw [← h]

end VectorDistribution

end ActiveBsp
