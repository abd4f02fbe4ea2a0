import Mathlib.Data.List.Basic

/-!
# Actions that emit and may fault

An `Act` reads and writes a state, emits outputs, and may stop with a fault.
What was emitted before the fault stays emitted. `Act.trace` feeds a list of
inputs to a reactive machine and keeps the outputs input by input.
-/
namespace ActiveBsp.Library

set_option autoImplicit false

def Act (σ ο ε α : Type) : Type := σ → List ο × Except ε (α × σ)

namespace Act

variable {σ ο ε α β ι : Type}

protected def pure (a : α) : Act σ ο ε α := fun s => ([], .ok (a, s))

protected def bind (x : Act σ ο ε α) (f : α → Act σ ο ε β) : Act σ ο ε β := fun s =>
  match x s with
  | (out, .error e) => (out, .error e)
  | (out, .ok (a, s')) => (out ++ (f a s').1, (f a s').2)

instance : Monad (Act σ ο ε) where
  pure := Act.pure
  bind := Act.bind

def get : Act σ ο ε σ := fun s => ([], .ok (s, s))
def modify (f : σ → σ) : Act σ ο ε Unit := fun s => ([], .ok ((), f s))
def emit (o : ο) : Act σ ο ε Unit := fun s => ([o], .ok ((), s))
def fail (e : ε) : Act σ ο ε α := fun _ => ([], .error e)

/-- Lift a computation on the state that may fault. -/
def lift (f : σ → Except ε (α × σ)) : Act σ ο ε α := fun s => ([], f s)

@[simp] theorem pure_apply (a : α) (s : σ) : (pure a : Act σ ο ε α) s = ([], .ok (a, s)) := rfl
@[simp] theorem get_apply (s : σ) : (get : Act σ ο ε σ) s = ([], .ok (s, s)) := rfl
@[simp] theorem modify_apply (f : σ → σ) (s : σ) :
    (modify f : Act σ ο ε Unit) s = ([], .ok ((), f s)) := rfl
@[simp] theorem emit_apply (o : ο) (s : σ) :
    (emit o : Act σ ο ε Unit) s = ([o], .ok ((), s)) := rfl
@[simp] theorem fail_apply (e : ε) (s : σ) : (fail e : Act σ ο ε α) s = ([], .error e) := rfl
@[simp] theorem lift_apply (f : σ → Except ε (α × σ)) (s : σ) :
    (lift f : Act σ ο ε α) s = ([], f s) := rfl

theorem bind_of_ok {x : Act σ ο ε α} {s s' : σ} {out : List ο} {a : α}
    (h : x s = (out, .ok (a, s'))) (f : α → Act σ ο ε β) :
    (x >>= f) s = (out ++ (f a s').1, (f a s').2) := by
  change Act.bind x f s = _
  simp only [Act.bind, h]

theorem bind_of_error {x : Act σ ο ε α} {s : σ} {out : List ο} {e : ε}
    (h : x s = (out, .error e)) (f : α → Act σ ο ε β) : (x >>= f) s = (out, .error e) := by
  change Act.bind x f s = _
  simp only [Act.bind, h]

@[simp] theorem get_bind (f : σ → Act σ ο ε β) (s : σ) : (get >>= f) s = f s s := by
  rw [bind_of_ok (get_apply s)]
  rfl

@[simp] theorem modify_bind (g : σ → σ) (f : Unit → Act σ ο ε β) (s : σ) :
    (modify g >>= f) s = f () (g s) := by
  rw [bind_of_ok (modify_apply g s)]
  rfl

@[simp] theorem emit_bind (o : ο) (f : Unit → Act σ ο ε β) (s : σ) :
    (emit o >>= f) s = (o :: (f () s).1, (f () s).2) := by
  rw [bind_of_ok (emit_apply o s)]
  rfl

@[simp] theorem pure_bind_apply (a : α) (f : α → Act σ ο ε β) (s : σ) :
    ((pure a : Act σ ο ε α) >>= f) s = f a s := by
  rw [bind_of_ok (pure_apply a s)]
  rfl

@[simp] theorem fail_bind (e : ε) (f : α → Act σ ο ε β) (s : σ) :
    ((fail e : Act σ ο ε α) >>= f) s = ([], .error e) := bind_of_error (fail_apply e s) f

/-- A successful composite splits at its first half. -/
theorem bind_ok_inv {x : Act σ ο ε α} {f : α → Act σ ο ε β} {s : σ} {out : List ο} {r : β × σ}
    (h : (x >>= f) s = (out, .ok r)) :
    ∃ out₁ a s' out₂, x s = (out₁, .ok (a, s')) ∧ f a s' = (out₂, .ok r) ∧
      out = out₁ ++ out₂ := by
  change Act.bind x f s = _ at h
  unfold Act.bind at h
  rcases hx : x s with ⟨out₁, e | ⟨a, s'⟩⟩
  · rw [hx] at h
    cases h
  · rw [hx] at h
    obtain ⟨h1, h2⟩ := Prod.mk.inj h
    exact ⟨out₁, a, s', (f a s').1, rfl, Prod.ext rfl h2, h1.symm⟩

/-- A composite that stops with a fault does so in one of its halves. -/
theorem bind_error_inv {x : Act σ ο ε α} {f : α → Act σ ο ε β} {s : σ} {out : List ο} {e : ε}
    (h : (x >>= f) s = (out, .error e)) :
    x s = (out, .error e) ∨ ∃ out₁ a s' out₂, x s = (out₁, .ok (a, s')) ∧
      f a s' = (out₂, .error e) ∧ out = out₁ ++ out₂ := by
  rcases hx : x s with ⟨out₁, e' | ⟨a, s'⟩⟩
  · rw [bind_of_error hx] at h
    cases h
    exact .inl rfl
  · rw [bind_of_ok hx] at h
    obtain ⟨h₁, h₂⟩ := Prod.mk.inj h
    exact .inr ⟨out₁, a, s', (f a s').1, rfl, Prod.ext rfl h₂, h₁.symm⟩

@[simp] theorem forM_nil_apply (f : α → Act σ ο ε PUnit) (s : σ) :
    ([].forM f : Act σ ο ε PUnit) s = ([], .ok (⟨⟩, s)) := rfl

theorem forM_cons_eq (f : α → Act σ ο ε PUnit) (x : α) (xs : List α) :
    ((x :: xs).forM f : Act σ ο ε PUnit) = f x >>= fun _ => xs.forM f := rfl

/-- A loop whose bodies only emit leaves the state alone and emits body by body. -/
theorem forM_emitting {f : α → Act σ ο ε PUnit} {g : α → List ο} {xs : List α} {s : σ}
    (h : ∀ x ∈ xs, f x s = (g x, .ok (⟨⟩, s))) :
    (xs.forM f) s = (xs.flatMap g, .ok (⟨⟩, s)) := by
  induction xs with
  | nil => rfl
  | cons x xs ih =>
    rw [forM_cons_eq, bind_of_ok (h x List.mem_cons_self),
      ih (fun y hy => h y (List.mem_cons_of_mem x hy))]
    rfl

/-- The same, from a loop that returned. -/
theorem forM_emitting_inv {f : α → Act σ ο ε PUnit} {g : α → List ο} {xs : List α} {s s' : σ}
    {out : List ο} {u : PUnit}
    (h : ∀ x ∈ xs, ∀ out u s', f x s = (out, .ok (u, s')) → out = g x ∧ s' = s)
    (hrun : (xs.forM f) s = (out, .ok (u, s'))) : out = xs.flatMap g ∧ s' = s := by
  induction xs generalizing out with
  | nil =>
    cases hrun
    exact ⟨rfl, rfl⟩
  | cons x xs ih =>
    rw [forM_cons_eq] at hrun
    obtain ⟨out₁, u₁, s₁, out₂, h₁, h₂, rfl⟩ := bind_ok_inv hrun
    obtain ⟨rfl, rfl⟩ := h x List.mem_cons_self out₁ u₁ s₁ h₁
    obtain ⟨rfl, hs⟩ := ih (fun y hy => h y (List.mem_cons_of_mem x hy)) h₂
    exact ⟨rfl, hs⟩

/-- A loop that returned, whose bodies leave the state alone, has run each body. -/
theorem forM_returned {f : α → Act σ ο ε PUnit} {xs : List α} {s s' : σ} {out : List ο} {u : PUnit}
    (h : ∀ x ∈ xs, ∀ out u s', f x s = (out, .ok (u, s')) → s' = s)
    (hrun : (xs.forM f) s = (out, .ok (u, s'))) :
    s' = s ∧ ∀ x ∈ xs, ∃ out, f x s = (out, .ok (⟨⟩, s)) := by
  induction xs generalizing out with
  | nil =>
    cases hrun
    exact ⟨rfl, by simp⟩
  | cons x xs ih =>
    rw [forM_cons_eq] at hrun
    obtain ⟨out₁, u₁, s₁, out₂, h₁, h₂, rfl⟩ := bind_ok_inv hrun
    obtain rfl := h x List.mem_cons_self out₁ u₁ s₁ h₁
    obtain ⟨hs, hxs⟩ := ih (fun y hy => h y (List.mem_cons_of_mem x hy)) h₂
    exact ⟨hs, List.forall_mem_cons.mpr ⟨⟨out₁, h₁⟩, hxs⟩⟩

theorem forM_emit (g : α → ο) (xs : List α) (s : σ) :
    (xs.forM fun x => emit (g x) : Act σ ο ε PUnit) s = (xs.map g, .ok (⟨⟩, s)) := by
  rw [List.map_eq_flatMap]
  exact forM_emitting (fun x _ => emit_apply (g x) s)

/-- Relations between a state, the outputs and a later state that compose. -/
structure Composes (R : σ → List ο → σ → Prop) : Prop where
  nil : ∀ s, R s [] s
  append : ∀ {s₀ s₁ s₂ out₁ out₂}, R s₀ out₁ s₁ → R s₁ out₂ s₂ → R s₀ (out₁ ++ out₂) s₂

/-- `R` holds of every run of `x` that ends in a state. -/
def Guarantees (R : σ → List ο → σ → Prop) (x : Act σ ο ε α) : Prop :=
  ∀ s out a s', x s = (out, .ok (a, s')) → R s out s'

/-- Every fault of `x` satisfies `F`. -/
def FaultsOnly (F : ε → Prop) (x : Act σ ο ε α) : Prop :=
  ∀ s out e, x s = (out, .error e) → F e

section Rules

variable {R : σ → List ο → σ → Prop} {F : ε → Prop} {x : Act σ ο ε α} {f : α → Act σ ο ε β}

theorem Guarantees.bind (hR : Composes R) (hx : Guarantees R x) (hf : ∀ a, Guarantees R (f a)) :
    Guarantees R (x >>= f) := by
  intro s out b s' h
  obtain ⟨out₁, a, s₁, out₂, h₁, h₂, rfl⟩ := bind_ok_inv h
  exact hR.append (hx s out₁ a s₁ h₁) (hf a s₁ out₂ b s' h₂)

theorem Guarantees.forM (hR : Composes R) {g : α → Act σ ο ε PUnit} {xs : List α}
    (hg : ∀ x ∈ xs, Guarantees R (g x)) : Guarantees R (xs.forM g) := by
  induction xs with
  | nil =>
    intro s out a s' h
    obtain ⟨rfl, h⟩ := Prod.mk.inj h
    cases h
    exact hR.nil s
  | cons x xs ih =>
    rw [forM_cons_eq]
    exact (hg x List.mem_cons_self).bind hR
      (fun _ => ih fun y hy => hg y (List.mem_cons_of_mem x hy))

theorem FaultsOnly.bind (hx : FaultsOnly F x) (hf : ∀ a, FaultsOnly F (f a)) :
    FaultsOnly F (x >>= f) := by
  intro s out e h
  rcases bind_error_inv h with h | ⟨out₁, a, s₁, out₂, -, h, -⟩
  · exact hx s out e h
  · exact hf a s₁ out₂ e h

theorem FaultsOnly.forM {g : α → Act σ ο ε PUnit} {xs : List α}
    (hg : ∀ x ∈ xs, FaultsOnly F (g x)) : FaultsOnly F (xs.forM g) := by
  induction xs with
  | nil => intro s out e h; cases h
  | cons x xs ih =>
    rw [forM_cons_eq]
    exact (hg x List.mem_cons_self).bind (fun _ => ih fun y hy => hg y (List.mem_cons_of_mem x hy))

theorem FaultsOnly.pure (a : α) : FaultsOnly F (Pure.pure a : Act σ ο ε α) := by
  intro s out e h
  cases h

theorem FaultsOnly.get : FaultsOnly F (get : Act σ ο ε σ) := by
  intro s out e h
  cases h

theorem FaultsOnly.modify (g : σ → σ) : FaultsOnly F (modify g : Act σ ο ε Unit) := by
  intro s out e h
  cases h

theorem FaultsOnly.emit (o : ο) : FaultsOnly F (emit o : Act σ ο ε Unit) := by
  intro s out e h
  cases h

theorem FaultsOnly.lift {g : σ → Except ε (α × σ)} (hg : ∀ s e, g s = .error e → F e) :
    FaultsOnly F (lift g : Act σ ο ε α) := by
  intro s out e h
  obtain ⟨-, h⟩ := Prod.mk.inj h
  exact hg s e h

theorem FaultsOnly.fail {e : ε} (he : F e) : FaultsOnly F (fail e : Act σ ο ε α) := by
  intro s out e' h
  cases h
  exact he

end Rules

/-- The part `f` of the state is kept, and every output satisfies `Q`. -/
def Keeps {τ : Type} (f : σ → τ) (Q : ο → Prop) (s : σ) (out : List ο) (s' : σ) : Prop :=
  f s' = f s ∧ ∀ o ∈ out, Q o

section Keeps

variable {τ : Type} {f : σ → τ} {Q : ο → Prop}

theorem keeps_composes (f : σ → τ) (Q : ο → Prop) : Composes (Keeps f Q) where
  nil _ := ⟨rfl, by simp⟩
  append h₁ h₂ := by
    refine ⟨h₂.1.trans h₁.1, fun o ho => ?_⟩
    rcases List.mem_append.mp ho with ho | ho
    · exact h₁.2 o ho
    · exact h₂.2 o ho

theorem keeps_pure (a : α) : Guarantees (Keeps f Q) (pure a : Act σ ο ε α) := by
  intro s out a' s' h
  cases h
  exact ⟨rfl, by simp⟩

theorem keeps_get : Guarantees (Keeps f Q) (get : Act σ ο ε σ) := by
  intro s out a s' h
  cases h
  exact ⟨rfl, by simp⟩

theorem keeps_fail (e : ε) : Guarantees (Keeps f Q) (fail e : Act σ ο ε α) := by
  intro s out a s' h
  cases h

theorem keeps_emit {o : ο} (ho : Q o) : Guarantees (Keeps f Q) (emit o : Act σ ο ε Unit) := by
  intro s out a s' h
  cases h
  exact ⟨rfl, by simpa using ho⟩

theorem keeps_modify {g : σ → σ} (hg : ∀ s, f (g s) = f s) :
    Guarantees (Keeps f Q) (modify g : Act σ ο ε Unit) := by
  intro s out a s' h
  cases h
  exact ⟨hg s, by simp⟩

theorem keeps_lift {g : σ → Except ε (α × σ)} (hg : ∀ s a s', g s = .ok (a, s') → f s' = f s) :
    Guarantees (Keeps f Q) (lift g : Act σ ο ε α) := by
  intro s out a s' h
  obtain ⟨rfl, hs⟩ := Prod.mk.inj h
  exact ⟨hg s a s' hs, by simp⟩

theorem Guarantees.keeps_bind {x : Act σ ο ε α} {g : α → Act σ ο ε β}
    (hx : Guarantees (Keeps f Q) x) (hg : ∀ a, Guarantees (Keeps f Q) (g a)) :
    Guarantees (Keeps f Q) (x >>= g) := hx.bind (keeps_composes f Q) hg

/-- What is kept of the state, and known of the outputs, may be told less precisely. -/
theorem Guarantees.keeps_mono {τ' : Type} {g : σ → τ'} {Q' : ο → Prop} {x : Act σ ο ε α}
    (hx : Guarantees (Keeps f Q) x) (hg : ∀ s s', f s' = f s → g s' = g s)
    (hQ : ∀ o, Q o → Q' o) : Guarantees (Keeps g Q') x := fun s out a s' h =>
  ⟨hg s s' (hx s out a s' h).1, fun o ho => hQ o ((hx s out a s' h).2 o ho)⟩

end Keeps

/-- The outputs of each input in turn, and the state or the fault at the end. -/
def trace (step : ι → Act σ ο ε Unit) : List ι → σ → List (List ο) × Except ε σ
  | [], s => ([], .ok s)
  | i :: is, s =>
    match step i s with
    | (out, .error e) => ([out], .error e)
    | (out, .ok (_, s')) => (out :: (trace step is s').1, (trace step is s').2)

@[simp] theorem trace_nil (step : ι → Act σ ο ε Unit) (s : σ) : trace step [] s = ([], .ok s) := rfl

theorem trace_cons_of_ok {step : ι → Act σ ο ε Unit} {i : ι} {s s' : σ} {out : List ο}
    (h : step i s = (out, .ok ((), s'))) (is : List ι) :
    trace step (i :: is) s = (out :: (trace step is s').1, (trace step is s').2) := by
  simp only [trace, h]

theorem trace_cons_of_error {step : ι → Act σ ο ε Unit} {i : ι} {s : σ} {out : List ο} {e : ε}
    (h : step i s = (out, .error e)) (is : List ι) :
    trace step (i :: is) s = ([out], .error e) := by
  simp only [trace, h]

/-- A trace that ends in a state starts with a step that does. -/
theorem trace_cons_inv {step : ι → Act σ ο ε Unit} {i : ι} {is : List ι} {s s' : σ}
    {outs : List (List ο)} (h : trace step (i :: is) s = (outs, .ok s')) :
    ∃ out s₁ outs', step i s = (out, .ok ((), s₁)) ∧
      trace step is s₁ = (outs', .ok s') ∧ outs = out :: outs' := by
  rcases hi : step i s with ⟨out, e | ⟨u, s₁⟩⟩
  · rw [trace_cons_of_error hi] at h
    cases h
  · rw [trace_cons_of_ok hi] at h
    obtain ⟨h1, h2⟩ := Prod.mk.inj h
    exact ⟨out, s₁, _, rfl, Prod.ext rfl h2, h1.symm⟩

theorem trace_of_isSome {step : ι → Act σ ο ε Unit} {is : List ι} {s : σ}
    (h : (trace step is s).2.toOption.isSome) :
    ∃ s', trace step is s = ((trace step is s).1, .ok s') := by
  rcases hrun : trace step is s with ⟨outs, e | s'⟩
  · rw [hrun] at h
    cases h
  · exact ⟨s', rfl⟩

theorem trace_append_of_ok {step : ι → Act σ ο ε Unit} {is : List ι} {s s' : σ}
    {outs : List (List ο)} (h : trace step is s = (outs, .ok s')) (js : List ι) :
    trace step (is ++ js) s = (outs ++ (trace step js s').1, (trace step js s').2) := by
  induction is generalizing s outs with
  | nil =>
    obtain ⟨rfl, h⟩ := Prod.mk.inj h
    cases h
    rfl
  | cons i is ih =>
    obtain ⟨out, s₁, outs', hi, ht, rfl⟩ := trace_cons_inv h
    rw [List.cons_append, trace_cons_of_ok hi, ih ht]
    rfl

/-- A trace that ends in a state went through a state after each of its prefixes. -/
theorem trace_append_inv {step : ι → Act σ ο ε Unit} {is js : List ι} {s s' : σ}
    {outs : List (List ο)} (h : trace step (is ++ js) s = (outs, .ok s')) :
    ∃ outs₁ s₁ outs₂, trace step is s = (outs₁, .ok s₁) ∧
      trace step js s₁ = (outs₂, .ok s') ∧ outs = outs₁ ++ outs₂ := by
  induction is generalizing s outs with
  | nil => exact ⟨[], s, outs, rfl, h, rfl⟩
  | cons i is ih =>
    rw [List.cons_append] at h
    obtain ⟨out, s₁, outs', hi, ht, rfl⟩ := trace_cons_inv h
    obtain ⟨outs₁, s₂, outs₂, h1, h2, rfl⟩ := ih ht
    exact ⟨out :: outs₁, s₂, outs₂, by rw [trace_cons_of_ok hi, h1], h2, rfl⟩

/-- `P` holds of the state after `x`, if there is one. -/
def Yields (x : Act σ ο ε Unit) (P : σ → Prop) (s : σ) : Prop :=
  ∀ out s', x s = (out, .ok ((), s')) → P s'

theorem yields_of_ok {x : Act σ ο ε Unit} {P : σ → Prop} {s s' : σ} {out : List ο}
    (h : x s = (out, .ok ((), s'))) : Yields x P s ↔ P s' := by
  refine ⟨fun hy => hy out s' h, fun hP out' s'' h' => ?_⟩
  rw [h] at h'
  cases h'
  exact hP

theorem yields_of_error {x : Act σ ο ε Unit} {s : σ} {out : List ο} {e : ε}
    (h : x s = (out, .error e)) (P : σ → Prop) : Yields x P s := by
  intro out' s' h'
  rw [h] at h'
  cases h'

instance (x : Act σ ο ε Unit) (P : σ → Prop) [DecidablePred P] (s : σ) :
    Decidable (Yields x P s) :=
  match h : x s with
  | (_, .error _) => .isTrue (yields_of_error h P)
  | (_, .ok (_, s')) => decidable_of_iff (P s') (yields_of_ok h).symm

/-- `P` holds of every input of a trace and the state that meets it. -/
def Along (step : ι → Act σ ο ε Unit) (P : σ → ι → Prop) : List ι → σ → Prop
  | [], _ => True
  | i :: is, s => P s i ∧ ∀ out s', step i s = (out, .ok ((), s')) → Along step P is s'

theorem Along.of_forall {step : ι → Act σ ο ε Unit} {P : σ → ι → Prop} (h : ∀ s i, P s i)
    (is : List ι) (s : σ) : Along step P is s := by
  induction is generalizing s with
  | nil => trivial
  | cons i is ih => exact ⟨h s i, fun _ s' _ => ih s'⟩

/-- Two conditions agree along a run when they agree in every state with an invariant that steps
under the first one keep. -/
theorem Along.congr {step : ι → Act σ ο ε Unit} {Inv : σ → Prop} {P Q B : σ → ι → Prop}
    (hstep : ∀ s i out s', Inv s → B s i → P s i → step i s = (out, .ok ((), s')) → Inv s')
    (hPQ : ∀ s i, Inv s → B s i → (P s i ↔ Q s i)) {is : List ι} {s : σ} (hs : Inv s)
    (hB : Along step B is s) : Along step P is s ↔ Along step Q is s := by
  induction is generalizing s with
  | nil => exact Iff.rfl
  | cons i is ih =>
    have hnow := hPQ s i hs hB.1
    have hrest : P s i → ∀ out s', step i s = (out, .ok ((), s')) →
        (Along step P is s' ↔ Along step Q is s') := fun hP out s' h =>
      ih (hstep s i out s' hs hB.1 hP h) (hB.2 out s' h)
    constructor
    · intro hP
      exact ⟨hnow.mp hP.1, fun out s' h => (hrest hP.1 out s' h).mp (hP.2 out s' h)⟩
    · intro hQ
      have hP := hnow.mpr hQ.1
      exact ⟨hP, fun out s' h => (hrest hP out s' h).mpr (hQ.2 out s' h)⟩

theorem Along.mono {step : ι → Act σ ο ε Unit} {P Q : σ → ι → Prop} (h : ∀ s i, P s i → Q s i)
    {is : List ι} {s : σ} (hP : Along step P is s) : Along step Q is s := by
  induction is generalizing s with
  | nil => trivial
  | cons i is ih => exact ⟨h s i hP.1, fun out s' hs => ih (hP.2 out s' hs)⟩

theorem Along.and {step : ι → Act σ ο ε Unit} {P Q : σ → ι → Prop} {is : List ι} {s : σ}
    (hP : Along step P is s) (hQ : Along step Q is s) :
    Along step (fun s i => P s i ∧ Q s i) is s := by
  induction is generalizing s with
  | nil => trivial
  | cons i is ih =>
    exact ⟨⟨hP.1, hQ.1⟩, fun out s' h => ih (hP.2 out s' h) (hQ.2 out s' h)⟩

/-- What holds along a run holds at the step after it. -/
theorem Along.last {step : ι → Act σ ο ε Unit} {P : σ → ι → Prop} {is : List ι} {i : ι} {s s' : σ}
    {outs : List (List ο)} (h : Along step P (is ++ [i]) s)
    (hrun : trace step is s = (outs, .ok s')) : P s' i := by
  induction is generalizing s outs with
  | nil =>
    cases hrun
    exact h.1
  | cons j is ih =>
    obtain ⟨out, s₁, outs', hone, hrest, rfl⟩ := trace_cons_inv hrun
    exact ih (h.2 out s₁ hone) hrest

/-- `Along` by evaluation. -/
def along (step : ι → Act σ ο ε Unit) (P : σ → ι → Prop) [∀ s i, Decidable (P s i)] :
    List ι → σ → Bool
  | [], _ => true
  | i :: is, s => decide (P s i) && match step i s with
    | (_, .error _) => true
    | (_, .ok (_, s')) => along step P is s'

theorem along_iff {step : ι → Act σ ο ε Unit} {P : σ → ι → Prop} [∀ s i, Decidable (P s i)]
    {is : List ι} {s : σ} : along step P is s = true ↔ Along step P is s := by
  induction is generalizing s with
  | nil => exact ⟨fun _ => trivial, fun _ => rfl⟩
  | cons i is ih =>
    rw [along, Bool.and_eq_true, decide_eq_true_iff, Along]
    refine and_congr_right fun _ => ?_
    rcases hi : step i s with ⟨out, e | ⟨u, s'⟩⟩
    · exact ⟨fun _ out' s'' h => (by cases h), fun _ => rfl⟩
    · refine ⟨fun h out' s'' hs => ?_, fun h => ih.mpr (h out s' rfl)⟩
      cases hs
      exact ih.mp h

instance (step : ι → Act σ ο ε Unit) (P : σ → ι → Prop) [∀ s i, Decidable (P s i)] (is : List ι)
    (s : σ) : Decidable (Along step P is s) := decidable_of_iff _ along_iff

theorem Along.and_mem {step : ι → Act σ ο ε Unit} {P : σ → ι → Prop} {Q : ι → Prop}
    {is : List ι} {s : σ} (h : Along step P is s) (hQ : ∀ i ∈ is, Q i) :
    Along step (fun s i => P s i ∧ Q i) is s := by
  induction is generalizing s with
  | nil => trivial
  | cons i is ih =>
    exact ⟨⟨h.1, hQ i List.mem_cons_self⟩, fun out s' hs =>
      ih (h.2 out s' hs) fun j hj => hQ j (List.mem_cons_of_mem i hj)⟩

private theorem trace_history_from {step : ι → Act σ ο ε Unit} {P : σ → ι → Prop}
    {Inv : List ι → List ο → σ → Prop}
    (hstep : ∀ is outs s i out s', Inv is outs s → P s i → step i s = (out, .ok ((), s')) →
      Inv (is ++ [i]) (outs ++ out) s')
    {is₀ is : List ι} {outs₀ : List ο} {s s' : σ} {outs : List (List ο)}
    (h₀ : Inv is₀ outs₀ s) (hP : Along step P is s) (h : trace step is s = (outs, .ok s')) :
    Inv (is₀ ++ is) (outs₀ ++ outs.flatten) s' := by
  induction is generalizing s is₀ outs₀ outs with
  | nil =>
    obtain ⟨rfl, hs⟩ := Prod.mk.inj h
    cases hs
    simpa using h₀
  | cons i is ih =>
    obtain ⟨out, s₁, outs', hi, ht, rfl⟩ := trace_cons_inv h
    have h₁ := ih (hstep is₀ outs₀ s i out s₁ h₀ hP.1 hi) (hP.2 out s₁ hi) ht
    simpa using h₁

/-- Induction along a trace that ends in a state: what each input keeps of the history of
inputs and outputs, the whole trace keeps. -/
theorem trace_history {step : ι → Act σ ο ε Unit} {P : σ → ι → Prop}
    {Inv : List ι → List ο → σ → Prop}
    (hstep : ∀ is outs s i out s', Inv is outs s → P s i → step i s = (out, .ok ((), s')) →
      Inv (is ++ [i]) (outs ++ out) s')
    {is : List ι} {s s' : σ} {outs : List (List ο)}
    (h₀ : Inv [] [] s) (hP : Along step P is s) (h : trace step is s = (outs, .ok s')) :
    Inv is outs.flatten s' := trace_history_from hstep h₀ hP h

/-- Where a trace leads when every step keeps an invariant or fails in a known way. -/
theorem trace_cases {step : ι → Act σ ο ε Unit} (Inv : σ → Prop) {P : σ → ι → Prop}
    {R : ο → Prop} {Q : ε → Prop}
    (hstep : ∀ s i, Inv s → P s i → (∃ out s', step i s = (out, .ok ((), s')) ∧ Inv s' ∧
      ∀ o ∈ out, R o) ∨ ∃ e, step i s = ([], .error e) ∧ Q e)
    {is : List ι} {s : σ} (hs : Inv s) (hP : Along step P is s) :
    (∀ o ∈ (trace step is s).1.flatten, R o) ∧
      ((∃ s', (trace step is s).2 = .ok s' ∧ Inv s') ∨
        ∃ e, (trace step is s).2 = .error e ∧ Q e) := by
  induction is generalizing s with
  | nil => exact ⟨fun o ho => (nomatch ho), .inl ⟨s, rfl, hs⟩⟩
  | cons i is ih =>
    rcases hstep s i hs hP.1 with ⟨out, s', hi, hs', hout⟩ | ⟨e, hi, he⟩
    · obtain ⟨houts, hend⟩ := ih hs' (hP.2 out s' hi)
      rw [trace_cons_of_ok hi]
      refine ⟨fun o ho => ?_, hend⟩
      rw [List.flatten_cons] at ho
      rcases List.mem_append.mp ho with ho | ho
      · exact hout o ho
      · exact houts o ho
    · rw [trace_cons_of_error hi]
      exact ⟨fun o ho => (nomatch ho), .inr ⟨e, rfl, he⟩⟩

end Act

end ActiveBsp.Library
