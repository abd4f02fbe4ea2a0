import Mathlib.Data.List.Basic

/-!
# Overload resolution

Every viable function comes with the cost of the conversion of each argument.
The chosen one converts no argument worse than any other viable function does,
and some argument better, or it is not a template and the other one is.
-/
namespace ActiveBsp.Library.Overload

set_option autoImplicit false

variable {φ : Type}

/-- A viable function; no conversion costs nothing. -/
structure Candidate (φ : Type) where
  fn : φ
  costs : List Nat
  isTemplate : Bool
  deriving DecidableEq

namespace Candidate

def NoWorse (c d : Candidate φ) : Prop := ∀ p ∈ c.costs.zip d.costs, p.1 ≤ p.2

instance (c d : Candidate φ) : Decidable (NoWorse c d) := List.decidableBAll _ _

/-- `c` is preferred to `d`. -/
def Better (c d : Candidate φ) : Prop :=
  NoWorse c d ∧ (¬ NoWorse d c ∨ c.isTemplate = false ∧ d.isTemplate = true)

instance (c d : Candidate φ) : Decidable (Better c d) := inferInstanceAs (Decidable (_ ∧ _))

theorem Better.asymm {c d : Candidate φ} (h : Better c d) : ¬ Better d c := by
  rintro ⟨hdc, hd⟩
  rcases h.2 with hn | ⟨hc, -⟩
  · exact hn hdc
  · rcases hd with hn | ⟨-, hd⟩
    · exact hn h.1
    · rw [hc] at hd
      cases hd

end Candidate

variable [DecidableEq φ]

/-- The function that is better than all others; none when the call is ambiguous or nothing is
viable. -/
def resolve (cs : List (Candidate φ)) : Option φ :=
  (cs.find? fun c => decide (∀ d ∈ cs, d = c ∨ c.Better d)).map Candidate.fn

/-- There is at most one such function. -/
theorem resolve_eq {cs : List (Candidate φ)} {c : Candidate φ} (hc : c ∈ cs)
    (h : ∀ d ∈ cs, d = c ∨ c.Better d) : resolve cs = some c.fn := by
  unfold resolve
  cases hf : cs.find? fun c => decide (∀ d ∈ cs, d = c ∨ c.Better d) with
  | none =>
    have hnone := List.find?_eq_none.mp hf c hc
    exact absurd (decide_eq_true h) hnone
  | some c' =>
    have hbest := List.find?_some hf
    simp only [decide_eq_true_eq] at hbest
    rcases hbest c hc with rfl | hb
    · rfl
    · rcases h c' (List.mem_of_find?_eq_some hf) with rfl | hb'
      · rfl
      · exact absurd hb hb'.asymm

end ActiveBsp.Library.Overload
