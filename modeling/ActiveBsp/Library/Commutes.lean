import ActiveBsp.Library.Act

/-!
# Actions beside a part of the state

An action that neither reads nor writes a part of the state runs the same
whatever is put there, and leaves it there.
-/
namespace ActiveBsp.Library.Act

set_option autoImplicit false

variable {σ ο ε α β ι : Type}

/-- The action runs the same from `g s` as from `s`, and ends in the image of where it ended. -/
def Commutes (g : σ → σ) (x : Act σ ο ε α) : Prop :=
  ∀ s, x (g s) = ((x s).1, (x s).2.map (Prod.map id g))

variable {g : σ → σ} {x : Act σ ο ε α}

theorem Commutes.of_ok (hx : Commutes g x) {s s' : σ} {out : List ο} {a : α}
    (h : x s = (out, .ok (a, s'))) : x (g s) = (out, .ok (a, g s')) := by
  rw [hx s, h]
  rfl

theorem Commutes.of_error (hx : Commutes g x) {s : σ} {out : List ο} {e : ε}
    (h : x s = (out, .error e)) : x (g s) = (out, .error e) := by
  rw [hx s, h]
  rfl

theorem Commutes.pure (a : α) : Commutes g (Pure.pure a : Act σ ο ε α) := fun _ => rfl

theorem Commutes.fail (e : ε) : Commutes g (fail e : Act σ ο ε α) := fun _ => rfl

theorem Commutes.emit (o : ο) : Commutes g (emit o : Act σ ο ε Unit) := fun _ => rfl

theorem Commutes.modify {f : σ → σ} (hf : ∀ s, f (g s) = g (f s)) :
    Commutes g (modify f : Act σ ο ε Unit) := fun s => by
  rw [modify_apply, modify_apply, hf]
  rfl

theorem Commutes.lift {f : σ → Except ε (α × σ)}
    (hf : ∀ s, f (g s) = (f s).map (Prod.map id g)) : Commutes g (lift f : Act σ ο ε α) :=
  fun s => Prod.ext rfl (hf s)

theorem Commutes.bind {f : α → Act σ ο ε β} (hx : Commutes g x) (hf : ∀ a, Commutes g (f a)) :
    Commutes g (x >>= f) := by
  intro s
  rcases hrun : x s with ⟨out, e | ⟨a, s'⟩⟩
  · rw [bind_of_error hrun, bind_of_error (hx.of_error hrun)]
    rfl
  · rw [bind_of_ok hrun, bind_of_ok (hx.of_ok hrun), hf a s']

/-- What is done after a look at the state must not depend on the part. -/
theorem Commutes.get_bind {f : σ → Act σ ο ε β} (hsame : ∀ s, f (g s) = f s)
    (hf : ∀ s, Commutes g (f s)) : Commutes g (get >>= f) := by
  intro s
  rw [Act.get_bind, Act.get_bind, hsame, hf s s]

theorem Commutes.forM {f : β → Act σ ο ε PUnit} {xs : List β} (hf : ∀ x ∈ xs, Commutes g (f x)) :
    Commutes g (xs.forM f) := by
  induction xs with
  | nil => exact fun _ => rfl
  | cons x xs ih =>
    rw [forM_cons_eq]
    exact (hf x List.mem_cons_self).bind fun _ => ih fun y hy => hf y (List.mem_cons_of_mem x hy)

end ActiveBsp.Library.Act
