import ActiveBsp.Library.Act

/-!
# What an action emits

`Emits R P x Q`: from a state with `P`, all that the action `x` emits satisfies
`R`, also when it stops with a fault, and where it returns the state has `Q`.
-/
namespace ActiveBsp.Library.Act

set_option autoImplicit false

variable {σ ο ε α β : Type}

def Emits (R : ο → Prop) (P : σ → Prop) (x : Act σ ο ε α) (Q : α → σ → Prop) : Prop :=
  ∀ s, P s → (∀ o ∈ (x s).1, R o) ∧ ∀ a s', (x s).2 = .ok (a, s') → Q a s'

variable {R : ο → Prop} {P P' : σ → Prop} {Q Q' : α → σ → Prop} {S : β → σ → Prop}
  {x : Act σ ο ε α}

theorem Emits.bind {f : α → Act σ ο ε β} (hx : Emits R P x Q) (hf : ∀ a, Emits R (Q a) (f a) S) :
    Emits R P (x >>= f) S := by
  intro s hs
  obtain ⟨hout, hret⟩ := hx s hs
  rcases hrun : x s with ⟨out, e | ⟨a, s'⟩⟩
  · rw [hrun] at hout
    rw [bind_of_error hrun]
    exact ⟨hout, fun _ _ h => nomatch h⟩
  · rw [hrun] at hout hret
    obtain ⟨hout', hret'⟩ := hf a s' (hret a s' rfl)
    rw [bind_of_ok hrun]
    refine ⟨fun o ho => ?_, hret'⟩
    rcases List.mem_append.mp ho with ho | ho
    · exact hout o ho
    · exact hout' o ho

theorem Emits.pre (hx : Emits R P x Q) (hP : ∀ s, P' s → P s) : Emits R P' x Q :=
  fun s hs => hx s (hP s hs)

theorem Emits.post (hx : Emits R P x Q) (hQ : ∀ a s, Q a s → Q' a s) : Emits R P x Q' :=
  fun s hs => ⟨(hx s hs).1, fun a s' h => hQ a s' ((hx s hs).2 a s' h)⟩

theorem Emits.weaken {R' : ο → Prop} (hx : Emits R P x Q) (hR : ∀ o, R o → R' o) :
    Emits R' P x Q := fun s hs => ⟨fun o ho => hR o ((hx s hs).1 o ho), (hx s hs).2⟩

/-- One state after the other. -/
theorem Emits.intro (h : ∀ s, P s → Emits R (· = s) x Q) : Emits R P x Q :=
  fun s hs => h s hs s rfl

theorem Emits.pure {a : α} (h : ∀ s, P s → Q a s) : Emits R P (Pure.pure a : Act σ ο ε α) Q := by
  refine fun s hs => ⟨fun _ ho => (nomatch ho), fun b s' hb => ?_⟩
  cases hb
  exact h s hs

theorem Emits.fail (e : ε) : Emits R P (fail e : Act σ ο ε α) Q :=
  fun _ _ => ⟨fun _ ho => (nomatch ho), fun _ _ h => nomatch h⟩

theorem Emits.modify {g : σ → σ} {Q : Unit → σ → Prop} (h : ∀ s, P s → Q () (g s)) :
    Emits R P (modify g : Act σ ο ε Unit) Q := by
  refine fun s hs => ⟨fun _ ho => (nomatch ho), fun b s' hb => ?_⟩
  cases hb
  exact h s hs

theorem Emits.emit {o : ο} {Q : Unit → σ → Prop} (ho : R o) (h : ∀ s, P s → Q () s) :
    Emits R P (emit o : Act σ ο ε Unit) Q := by
  refine fun s hs => ⟨fun o' ho' => ?_, fun b s' hb => ?_⟩
  · rw [List.mem_singleton.mp ho']
    exact ho
  · cases hb
    exact h s hs

theorem Emits.lift {g : σ → Except ε (α × σ)} (h : ∀ s a s', P s → g s = .ok (a, s') → Q a s') :
    Emits R P (lift g : Act σ ο ε α) Q :=
  fun s hs => ⟨fun _ ho => (nomatch ho), fun a s' hg => h s a s' hs hg⟩

/-- A state that is read is known from then on. -/
theorem Emits.get_bind {f : σ → Act σ ο ε β} (h : ∀ s, P s → Emits R (· = s) (f s) S) :
    Emits R P (get >>= f) S := by
  intro s hs
  rw [Act.get_bind]
  exact h s hs s rfl

/-- A loop keeps what its bodies keep. -/
theorem Emits.forM {f : β → Act σ ο ε PUnit} {xs : List β}
    (h : ∀ x ∈ xs, Emits R P (f x) fun _ => P) : Emits R P (xs.forM f) fun _ => P := by
  induction xs with
  | nil =>
    refine fun s hs => ⟨fun _ ho => (nomatch ho), fun a s' hrun => ?_⟩
    cases hrun
    exact hs
  | cons x xs ih =>
    rw [forM_cons_eq]
    exact (h x List.mem_cons_self).bind fun _ => ih fun y hy => h y (List.mem_cons_of_mem x hy)

end ActiveBsp.Library.Act
