import Mathlib.Data.List.Basic

/-!
# Maps as partial functions

An ordered dictionary of which only the lookups are observed.
-/
namespace ActiveBsp.Library

set_option autoImplicit false

abbrev PartialMap (κ α : Type) : Type := κ → Option α

namespace PartialMap

variable {κ α : Type}

def empty : PartialMap κ α := fun _ => none

@[simp] theorem empty_apply (k : κ) : (empty : PartialMap κ α) k = none := rfl

variable [DecidableEq κ]

/-- Store `v` under `k`, over whatever was there. -/
def set (m : PartialMap κ α) (k : κ) (v : α) : PartialMap κ α :=
  fun k' => if k' = k then some v else m k'

/-- Store `v` under `k` unless something is there already. -/
def insert (m : PartialMap κ α) (k : κ) (v : α) : PartialMap κ α :=
  if (m k).isSome then m else m.set k v

def erase (m : PartialMap κ α) (k : κ) : PartialMap κ α :=
  fun k' => if k' = k then none else m k'

@[simp] theorem set_self (m : PartialMap κ α) (k : κ) (v : α) : m.set k v k = some v := by
  simp [set]

@[simp] theorem set_of_ne (m : PartialMap κ α) {k k' : κ} (v : α) (h : k' ≠ k) :
    m.set k v k' = m k' := by
  simp [set, h]

theorem set_apply (m : PartialMap κ α) (k k' : κ) (v : α) :
    m.set k v k' = if k' = k then some v else m k' := rfl

theorem set_set (m : PartialMap κ α) (k : κ) (v w : α) : (m.set k v).set k w = m.set k w := by
  funext k'
  by_cases hk : k' = k
  · rw [hk, set_self, set_self]
  · rw [set_of_ne _ _ hk, set_of_ne _ _ hk, set_of_ne _ _ hk]

theorem set_eq_self {m : PartialMap κ α} {k : κ} {v : α} (h : m k = some v) : m.set k v = m := by
  funext k'
  by_cases hk : k' = k
  · rw [hk, set_self, h]
  · exact set_of_ne m v hk

theorem insert_of_none {m : PartialMap κ α} {k : κ} (h : m k = none) (v : α) :
    m.insert k v = m.set k v := by
  simp [insert, h]

/-- The two ways to store differ where another value is there. -/
theorem insert_eq_set_iff {m : PartialMap κ α} {k : κ} {v : α} :
    m.insert k v = m.set k v ↔ ∀ v', m k = some v' → v' = v := by
  cases hk : m k with
  | none => simp [insert_of_none hk]
  | some w =>
    have hinsert : m.insert k v = m := by simp [insert, hk]
    rw [hinsert]
    constructor
    · intro h v' hv'
      rw [h, set_self] at hk
      exact Option.some.inj (hv'.symm.trans hk.symm)
    · intro h
      rw [set_eq_self (hk.trans (congrArg some (h w rfl)))]

@[simp] theorem erase_self (m : PartialMap κ α) (k : κ) : m.erase k k = none := by
  simp [erase]

@[simp] theorem erase_of_ne (m : PartialMap κ α) {k k' : κ} (h : k' ≠ k) :
    m.erase k k' = m k' := by
  simp [erase, h]

theorem erase_of_none {m : PartialMap κ α} {k : κ} (h : m k = none) : m.erase k = m := by
  funext k'
  by_cases hk : k' = k
  · rw [hk, erase_self, h]
  · exact erase_of_ne m hk

theorem erase_set (m : PartialMap κ α) (k : κ) (v : α) : (m.set k v).erase k = m.erase k := by
  funext k'
  by_cases hk : k' = k
  · rw [hk, erase_self, erase_self]
  · rw [erase_of_ne _ hk, erase_of_ne _ hk, set_of_ne _ _ hk]

theorem erase_apply (m : PartialMap κ α) (k k' : κ) :
    m.erase k k' = if k' = k then none else m k' := rfl

end PartialMap

/-- A change at one place of a table with two indices. -/
theorem update_update {ι κ α : Type} [DecidableEq ι] [DecidableEq κ] (f : ι → κ → α) (i : ι) (k : κ)
    (x : α) (i' : ι) (k' : κ) :
    Function.update f i (Function.update (f i) k x) i' k' =
      if i' = i ∧ k' = k then x else f i' k' := by
  by_cases hi : i' = i
  · subst hi
    by_cases hk : k' = k
    · subst hk
      simp
    · simp [hk]
  · simp [hi]

end ActiveBsp.Library
