import ActiveBsp.Library.Act
import Mathlib.Logic.Function.Basic

/-!
# Machines side by side

A family of machines without shared state takes inputs in any interleaving.
Each machine ends as if it had met its own inputs alone.
-/
namespace ActiveBsp.Library.Act

set_option autoImplicit false

variable {κ σ ο ε ι : Type}

/-- The inputs lead from `s` to `s'` without a fault. -/
def Ends (step : ι → Act σ ο ε Unit) (is : List ι) (s s' : σ) : Prop :=
  ∃ outs, trace step is s = (outs, .ok s')

section Ends

variable {step : ι → Act σ ο ε Unit} {i : ι} {is js : List ι} {s s' : σ}

@[simp] theorem ends_nil : Ends step [] s s' ↔ s = s' := by
  constructor
  · rintro ⟨outs, h⟩
    cases h
    rfl
  · rintro rfl
    exact ⟨[], rfl⟩

theorem ends_cons : Ends step (i :: is) s s' ↔
    ∃ out s₁, step i s = (out, .ok ((), s₁)) ∧ Ends step is s₁ s' := by
  constructor
  · rintro ⟨outs, h⟩
    obtain ⟨out, s₁, outs', h₁, h₂, -⟩ := trace_cons_inv h
    exact ⟨out, s₁, h₁, outs', h₂⟩
  · rintro ⟨out, s₁, h₁, outs', h₂⟩
    exact ⟨out :: outs', by rw [trace_cons_of_ok h₁, h₂]⟩

theorem ends_append : Ends step (is ++ js) s s' ↔
    ∃ s₁, Ends step is s s₁ ∧ Ends step js s₁ s' := by
  constructor
  · rintro ⟨outs, h⟩
    obtain ⟨outs₁, s₁, outs₂, h₁, h₂, -⟩ := trace_append_inv h
    exact ⟨s₁, ⟨outs₁, h₁⟩, outs₂, h₂⟩
  · rintro ⟨s₁, ⟨outs₁, h₁⟩, outs₂, h₂⟩
    exact ⟨outs₁ ++ outs₂, by rw [trace_append_of_ok h₁, h₂]⟩

theorem Ends.unique {s'' : σ} (h : Ends step is s s') (h' : Ends step is s s'') : s' = s'' := by
  obtain ⟨outs, h⟩ := h
  obtain ⟨outs', h'⟩ := h'
  rw [h] at h'
  cases h'
  rfl

end Ends

variable [DecidableEq κ]

/-- One input to the machine that it is addressed to. -/
def side (step : ι → Act σ ο ε Unit) (input : κ × ι) : Act (κ → σ) (κ × ο) ε Unit := fun fam =>
  match step input.2 (fam input.1) with
  | (out, .error e) => (out.map (Prod.mk input.1), .error e)
  | (out, .ok (_, s)) => (out.map (Prod.mk input.1), .ok ((), Function.update fam input.1 s))

/-- What one machine gets. -/
def inputsTo (k : κ) (inputs : List (κ × ι)) : List ι :=
  inputs.filterMap fun input => if input.1 = k then some input.2 else none

theorem inputsTo_cons (k : κ) (input : κ × ι) (inputs : List (κ × ι)) :
    inputsTo k (input :: inputs) =
      if input.1 = k then input.2 :: inputsTo k inputs else inputsTo k inputs := by
  by_cases h : input.1 = k
  · simp only [inputsTo, List.filterMap_cons, if_pos h]
  · simp only [inputsTo, List.filterMap_cons, if_neg h]

theorem inputsTo_append (k : κ) (is js : List (κ × ι)) :
    inputsTo k (is ++ js) = inputsTo k is ++ inputsTo k js := List.filterMap_append

theorem inputsTo_perm (k : κ) {is js : List (κ × ι)} (h : is.Perm js) :
    (inputsTo k is).Perm (inputsTo k js) := h.filterMap _

theorem inputsTo_flatMap {α : Type} (k : κ) (f : α → List (κ × ι)) (l : List α) :
    inputsTo k (l.flatMap f) = l.flatMap fun x => inputsTo k (f x) := List.filterMap_flatMap

theorem inputsTo_map_self (k : κ) (is : List ι) : inputsTo k (is.map (Prod.mk k)) = is := by
  induction is with
  | nil => rfl
  | cons i is ih => rw [List.map_cons, inputsTo_cons, if_pos rfl, ih]

theorem inputsTo_map_of_ne {k k' : κ} (h : k' ≠ k) (is : List ι) :
    inputsTo k (is.map (Prod.mk k')) = [] := by
  induction is with
  | nil => rfl
  | cons i is ih => rw [List.map_cons, inputsTo_cons, if_neg h, ih]

/-- One machine can get its inputs in any order. -/
theorem exists_perm_inputsTo {k : κ} {is : List (κ × ι)} {js : List ι}
    (h : js.Perm (inputsTo k is)) : ∃ order, order.Perm is ∧ inputsTo k order = js := by
  have hown : ∀ is : List (κ × ι), (is.filter fun input => input.1 = k) =
      (inputsTo k is).map (Prod.mk k) := by
    intro is
    induction is with
    | nil => rfl
    | cons input is ih =>
      rw [inputsTo_cons]
      by_cases hin : input.1 = k
      · rw [List.filter_cons_of_pos (by simpa using hin), if_pos hin, ih, List.map_cons, ← hin]
      · rw [List.filter_cons_of_neg (by simpa using hin), if_neg hin, ih]
  have hothers : ∀ is : List (κ × ι),
      inputsTo k (is.filter fun input => ¬ input.1 = k) = [] := by
    intro is
    refine List.filterMap_eq_nil_iff.mpr fun input hin => if_neg ?_
    simpa using (List.mem_filter.mp hin).2
  refine ⟨js.map (Prod.mk k) ++ is.filter fun input => ¬ input.1 = k, ?_, ?_⟩
  · refine ((h.map _).append_right _).trans ?_
    rw [← hown]
    simpa using List.filter_append_perm (fun input => decide (input.1 = k)) is
  · rw [inputsTo_append, inputsTo_map_self, hothers, List.append_nil]

theorem side_ok_iff {step : ι → Act σ ο ε Unit} {input : κ × ι} {fam fam' : κ → σ} :
    (∃ out, side step input fam = (out, .ok ((), fam'))) ↔
      ∃ out s, step input.2 (fam input.1) = (out, .ok ((), s)) ∧
        fam' = Function.update fam input.1 s := by
  unfold side
  rcases step input.2 (fam input.1) with ⟨out, e | ⟨_, s⟩⟩
  · simp
  · simp only [Prod.mk.injEq, Except.ok.injEq, true_and, exists_eq_left']
    constructor
    · rintro rfl
      exact ⟨out, s, ⟨rfl, rfl⟩, rfl⟩
    · rintro ⟨out', s', ⟨-, rfl⟩, rfl⟩
      rfl

/-- A run of the family is a run of every machine on its own inputs. -/
theorem ends_side_iff {step : ι → Act σ ο ε Unit} {inputs : List (κ × ι)} {fam fam' : κ → σ} :
    Ends (side step) inputs fam fam' ↔ ∀ k, Ends step (inputsTo k inputs) (fam k) (fam' k) := by
  induction inputs generalizing fam with
  | nil =>
    have hnil : ∀ k : κ, inputsTo k ([] : List (κ × ι)) = [] := fun _ => rfl
    simp only [hnil, ends_nil]
    exact funext_iff
  | cons input inputs ih =>
    have hstep : Ends (side step) (input :: inputs) fam fam' ↔
        ∃ out s, step input.2 (fam input.1) = (out, .ok ((), s)) ∧
          ∀ k, Ends step (inputsTo k inputs) (Function.update fam input.1 s k) (fam' k) := by
      rw [ends_cons]
      constructor
      · rintro ⟨out, fam₁, h₁, h₂⟩
        obtain ⟨out', s, hs, rfl⟩ := side_ok_iff.mp ⟨out, h₁⟩
        exact ⟨out', s, hs, ih.mp h₂⟩
      · rintro ⟨out, s, hs, h⟩
        obtain ⟨out', h₁⟩ := side_ok_iff.mpr ⟨out, s, hs, rfl⟩
        exact ⟨out', _, h₁, ih.mpr h⟩
    rw [hstep]
    constructor
    · rintro ⟨out, s, hs, h⟩ k
      have hk := h k
      rw [inputsTo_cons]
      by_cases hin : input.1 = k
      · subst hin
        rw [Function.update_self] at hk
        rw [if_pos rfl]
        exact ends_cons.mpr ⟨out, s, hs, hk⟩
      · rw [Function.update_of_ne (Ne.symm hin)] at hk
        rw [if_neg hin]
        exact hk
    · intro h
      have hown := h input.1
      rw [inputsTo_cons, if_pos rfl] at hown
      obtain ⟨out, s, hs, hrest⟩ := ends_cons.mp hown
      refine ⟨out, s, hs, fun k => ?_⟩
      by_cases hin : k = input.1
      · subst hin
        rw [Function.update_self]
        exact hrest
      · have hk := h k
        rw [inputsTo_cons, if_neg (Ne.symm hin)] at hk
        rw [Function.update_of_ne hin]
        exact hk

end ActiveBsp.Library.Act
