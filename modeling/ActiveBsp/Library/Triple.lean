import ActiveBsp.Library.Act

/-!
# Triples for actions

`Triple F P x Q`: from a state with `P`, the action `x` either returns in a state
with `Q`, or stops with a fault in `F`.
-/
namespace ActiveBsp.Library.Act

set_option autoImplicit false

variable {σ ο ε α β ι : Type}

def Triple (F : ε → Prop) (P : σ → Prop) (x : Act σ ο ε α) (Q : α → σ → Prop) : Prop :=
  ∀ s, P s → match (x s).2 with
    | .error e => F e
    | .ok (a, s') => Q a s'

section Rules

variable {F : ε → Prop} {P P' : σ → Prop} {Q Q' : α → σ → Prop} {R : β → σ → Prop}
  {x : Act σ ο ε α}

theorem Triple.bind {f : α → Act σ ο ε β} (hx : Triple F P x Q)
    (hf : ∀ a, Triple F (Q a) (f a) R) : Triple F P (x >>= f) R := by
  intro s hs
  have hfirst := hx s hs
  rcases hrun : x s with ⟨out, e | ⟨a, s'⟩⟩
  · rw [hrun] at hfirst
    rw [bind_of_error hrun]
    exact hfirst
  · rw [hrun] at hfirst
    rw [bind_of_ok hrun]
    exact hf a s' hfirst

theorem Triple.weaken (hx : Triple F P x Q) (hP : ∀ s, P' s → P s) (hQ : ∀ a s, Q a s → Q' a s) :
    Triple F P' x Q' := by
  intro s hs
  have hrun := hx s (hP s hs)
  rcases h : x s with ⟨out, e | ⟨a, s'⟩⟩
  · rw [h] at hrun
    exact hrun
  · rw [h] at hrun
    exact hQ a s' hrun

theorem Triple.pre (hx : Triple F P x Q) (hP : ∀ s, P' s → P s) : Triple F P' x Q :=
  hx.weaken hP fun _ _ h => h

theorem Triple.post (hx : Triple F P x Q) (hQ : ∀ a s, Q a s → Q' a s) : Triple F P x Q' :=
  hx.weaken (fun _ h => h) hQ

theorem Triple.pure {a : α} (h : ∀ s, P s → Q a s) : Triple F P (Pure.pure a : Act σ ο ε α) Q :=
  fun s hs => h s hs

theorem Triple.fail {e : ε} (he : ∀ s, P s → F e) : Triple F P (fail e : Act σ ο ε α) Q :=
  fun s hs => he s hs

theorem Triple.modify_apply {g : σ → σ} {Q : Unit → σ → Prop} (h : ∀ s, P s → Q () (g s)) :
    Triple F P (modify g : Act σ ο ε Unit) Q := fun s hs => h s hs

theorem Triple.get {Q : σ → σ → Prop} (h : ∀ s, P s → Q s s) :
    Triple F P (get : Act σ ο ε σ) Q := fun s hs => h s hs

theorem Triple.emit {o : ο} {Q : Unit → σ → Prop} (h : ∀ s, P s → Q () s) :
    Triple F P (emit o : Act σ ο ε Unit) Q := fun s hs => h s hs

theorem Triple.lift {g : σ → Except ε (α × σ)} (h : ∀ s, P s → match g s with
    | .error e => F e
    | .ok (a, s') => Q a s') : Triple F P (lift g : Act σ ο ε α) Q := fun s hs => h s hs

/-- A loop keeps what its bodies keep. -/
theorem Triple.forM {f : β → Act σ ο ε PUnit} {xs : List β}
    (h : ∀ x ∈ xs, Triple F P (f x) fun _ => P) : Triple F P (xs.forM f) fun _ => P := by
  induction xs with
  | nil => exact fun s hs => hs
  | cons x xs ih =>
    rw [forM_cons_eq]
    exact (h x List.mem_cons_self).bind fun _ => ih fun y hy => h y (List.mem_cons_of_mem x hy)

theorem Triple.intro (h : ∀ s, P s → Triple F (· = s) x Q) : Triple F P x Q :=
  fun s hs => h s hs s rfl

theorem Triple.of_run {s s' : σ} {out : List ο} {a : α} (hrun : x s = (out, .ok (a, s')))
    (h : Q a s') : Triple F (· = s) x Q := by
  rintro t rfl
  rw [hrun]
  exact h

/-- The first action is run, and the rest goes on from where it ends. -/
theorem Triple.step {f : α → Act σ ο ε β} {s s' : σ} {out : List ο} {a : α}
    (hrun : x s = (out, .ok (a, s'))) (hf : Triple F (· = s') (f a) R) :
    Triple F (· = s) (x >>= f) R :=
  (Triple.of_run (Q := fun b t => b = a ∧ t = s') hrun ⟨rfl, rfl⟩).bind fun b t ht => by
    obtain ⟨rfl, ht⟩ := ht
    exact hf t ht

end Rules

def Quiet (x : Act σ ο ε α) : Prop := ∀ s, (x s).1 = []

section Quiet

variable {x : Act σ ο ε α}

theorem Quiet.bind {f : α → Act σ ο ε β} (hx : Quiet x) (hf : ∀ a, Quiet (f a)) :
    Quiet (x >>= f) := by
  intro s
  have hfirst := hx s
  rcases hrun : x s with ⟨out, e | ⟨a, s'⟩⟩
  · rw [hrun] at hfirst
    rw [bind_of_error hrun]
    exact hfirst
  · rw [hrun] at hfirst
    dsimp only at hfirst
    rw [bind_of_ok hrun, hfirst, hf a s']
    rfl

theorem Quiet.pure (a : α) : Quiet (Pure.pure a : Act σ ο ε α) := fun _ => rfl

theorem Quiet.modify (g : σ → σ) : Quiet (modify g : Act σ ο ε Unit) := fun _ => rfl

theorem Quiet.fail (e : ε) : Quiet (fail e : Act σ ο ε α) := fun _ => rfl

theorem Quiet.lift (g : σ → Except ε (α × σ)) : Quiet (lift g : Act σ ο ε α) := fun _ => rfl

end Quiet

/-- What every step keeps holds at the end of a run, and no run stops otherwise than it may. -/
theorem Triple.trace {F : ε → Prop} {Inv : σ → Prop} {step : ι → Act σ ο ε Unit} {is : List ι}
    (h : ∀ i ∈ is, Triple F Inv (step i) fun _ => Inv) {s : σ} (hs : Inv s) :
    match (Act.trace step is s).2 with
    | .error e => F e
    | .ok s' => Inv s' := by
  induction is generalizing s with
  | nil => exact hs
  | cons i is ih =>
    have hi := h i List.mem_cons_self s hs
    rcases hrun : step i s with ⟨out, e | ⟨u, s₁⟩⟩
    · rw [hrun] at hi
      rw [trace_cons_of_error hrun]
      exact hi
    · rw [hrun] at hi
      rw [trace_cons_of_ok hrun]
      exact ih (fun j hj => h j (List.mem_cons_of_mem i hj)) hi

end ActiveBsp.Library.Act
