import Mathlib.Data.Finset.Insert
import Mathlib.Data.Fintype.Card
import Mathlib.Data.Fintype.EquivFin
import Mathlib.Data.Fintype.Sets
import Mathlib.Logic.Relation
import Mathlib.Order.WellFounded

/-!
# Waiting for one another

The members of a family that wait for others. A finite set of them, each waiting
for one of the set, has a member that waits for itself through a chain; and where
nobody does, one member that starts to wait for others closes a chain only when
one of those waits for it already.
-/
namespace ActiveBsp.Library.WaitFor

set_option autoImplicit false

variable {κ : Type} {R R' : κ → κ → Prop} {p q : κ}

def Stuck (R : κ → κ → Prop) (ps : Finset κ) : Prop :=
  ps.Nonempty ∧ ∀ p ∈ ps, ∃ q ∈ ps, R p q

def Deadlocked (R : κ → κ → Prop) : Prop := ∃ ps, Stuck R ps

/-- Nobody waits for itself through a chain. -/
def Acyclic (R : κ → κ → Prop) : Prop := ∀ p, ¬ Relation.TransGen R p p

private theorem stuck_of_chain [DecidableEq κ] (h : Relation.TransGen R p q) :
    ∃ ps : Finset κ, p ∈ ps ∧ (∀ p' ∈ ps, ∃ q' ∈ insert q ps, R p' q') := by
  induction h with
  | @single q hq =>
    refine ⟨{p}, Finset.mem_singleton_self p, fun p' hp' => ?_⟩
    obtain rfl := Finset.mem_singleton.mp hp'
    exact ⟨q, Finset.mem_insert_self _ _, hq⟩
  | @tail q r _ hr ih =>
    obtain ⟨ps, hp, hps⟩ := ih
    refine ⟨insert q ps, Finset.mem_insert_of_mem hp, fun p' hp' => ?_⟩
    rcases Finset.mem_insert.mp hp' with rfl | hp'
    · exact ⟨r, Finset.mem_insert_self _ _, hr⟩
    · obtain ⟨q', hq', hw⟩ := hps p' hp'
      exact ⟨q', Finset.mem_insert_of_mem hq', hw⟩

theorem deadlocked_of_chain [DecidableEq κ] (h : Relation.TransGen R p p) : Deadlocked R := by
  obtain ⟨ps, hp, hps⟩ := stuck_of_chain h
  refine ⟨ps, ⟨p, hp⟩, fun p' hp' => ?_⟩
  obtain ⟨q, hq, hw⟩ := hps p' hp'
  rcases Finset.mem_insert.mp hq with rfl | hq
  · exact ⟨q, hp, hw⟩
  · exact ⟨q, hq, hw⟩

/-- A finite set has a last member along chains that never return. -/
theorem Acyclic.not_deadlocked (h : Acyclic R) : ¬ Deadlocked R := by
  rintro ⟨ps, ⟨p, hp⟩, hps⟩
  let After : ps → ps → Prop := fun q p => Relation.TransGen R p q
  have htrans : IsTrans ps After := ⟨fun _ _ _ hqp hrq => hrq.trans hqp⟩
  have hirrefl : Std.Irrefl After := ⟨fun q => h q⟩
  have hwf : WellFounded After := Finite.wellFounded_of_trans_of_irrefl After
  obtain ⟨last, -, hlast⟩ := hwf.has_min Set.univ ⟨⟨p, hp⟩, trivial⟩
  obtain ⟨q, hq, hw⟩ := hps last last.2
  exact hlast ⟨q, hq⟩ trivial (.single hw)

theorem Acyclic.mono (h : Acyclic R) (hle : ∀ p q, R' p q → R p q) : Acyclic R' :=
  fun p hp => h p (Relation.TransGen.mono hle p p hp)

/-- Everyone but `p` waits as before. -/
def SameBut (p : κ) (R R' : κ → κ → Prop) : Prop := ∀ q, q ≠ p → ∀ r, R' q r ↔ R q r

/-- A chain to `p` can be cut where it first comes to `p`. -/
theorem reaches_of_sameBut (h : SameBut p R R') (hq : Relation.ReflTransGen R' q p) :
    Relation.ReflTransGen R q p := by
  induction hq using Relation.ReflTransGen.head_induction_on with
  | refl => exact .refl
  | @head q r hqr _ ih =>
    by_cases hqp : q = p
    · rw [hqp]
    · exact .head ((h q hqp r).mp hqr) ih

/-- A chain is one of before, or comes to `p` and goes on from there. -/
theorem chain_of_sameBut (h : SameBut p R R') {a b : κ} (hab : Relation.TransGen R' a b) :
    Relation.TransGen R a b ∨ Relation.ReflTransGen R' a p ∧ Relation.TransGen R' p b := by
  induction hab with
  | @single b hb =>
    by_cases ha : a = p
    · subst ha
      exact .inr ⟨.refl, .single hb⟩
    · exact .inl (.single ((h a ha b).mp hb))
  | @tail r b har hrb ih =>
    rcases ih with hold | ⟨hap, hpr⟩
    · by_cases hr : r = p
      · subst hr
        exact .inr ⟨har.to_reflTransGen, .single hrb⟩
      · exact .inl (hold.tail ((h r hr b).mp hrb))
    · exact .inr ⟨hap, hpr.tail hrb⟩

/-- Where only `p` waits for others than before, and none of those waits for `p` already, nobody
comes to wait for itself. -/
theorem Acyclic.of_sameBut (hacyclic : Acyclic R) (h : SameBut p R R')
    (hfree : ∀ q, R' p q → ¬ Relation.ReflTransGen R q p) : Acyclic R' := by
  have hp : ¬ Relation.TransGen R' p p := by
    intro hpp
    obtain ⟨q, hpq, hqp⟩ := Relation.TransGen.head'_iff.mp hpp
    exact hfree q hpq (reaches_of_sameBut h hqp)
  intro a haa
  rcases chain_of_sameBut h haa with hold | ⟨hap, hpa⟩
  · exact hacyclic a hold
  · exact hp (hpa.trans_left hap)

end ActiveBsp.Library.WaitFor
