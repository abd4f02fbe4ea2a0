import Mathlib.Data.List.Basic

/-!
# Servers that lag behind

A server takes the commands of a client in the order in which they were posted.
A prompt server would have taken each of them at once. The real one lags behind
it: the commands that are still under way lead it to the same state, and what
has been answered already and what they will still answer is what the prompt
one has answered.
-/
namespace ActiveBsp.Library

set_option autoImplicit false

variable {σ μ ρ : Type}

/-- The commands one after the other, as long as each of them is allowed. -/
def serveAll (serve : σ → μ → Option (σ × List ρ)) : List μ → σ → Option (σ × List ρ)
  | [], s => some (s, [])
  | m :: ms, s => do
    let (s', out) ← serve s m
    let (s'', out') ← serveAll serve ms s'
    return (s'', out ++ out')

variable {serve : σ → μ → Option (σ × List ρ)} {s s' prompt prompt' : σ} {m : μ} {ms ns : List μ}
  {out out' arrived replies : List ρ}

@[simp] theorem serveAll_nil : serveAll serve [] s = some (s, []) := rfl

theorem serveAll_cons_inv {r : σ × List ρ} (h : serveAll serve (m :: ms) s = some r) :
    ∃ s' out out', serve s m = some (s', out) ∧ serveAll serve ms s' = some (r.1, out') ∧
      r.2 = out ++ out' := by
  rw [serveAll] at h
  obtain ⟨⟨s', out⟩, hm, h⟩ := Option.bind_eq_some_iff.mp h
  obtain ⟨⟨s'', out'⟩, hms, h⟩ := Option.bind_eq_some_iff.mp h
  cases Option.some.inj h
  exact ⟨s', out, out', hm, hms, rfl⟩

theorem serveAll_cons (hm : serve s m = some (s', out))
    (hms : serveAll serve ms s' = some (prompt, out')) :
    serveAll serve (m :: ms) s = some (prompt, out ++ out') := by
  rw [serveAll, hm]
  simp only [Option.bind_eq_bind, Option.bind_some, hms]
  rfl

theorem serveAll_singleton (hm : serve s m = some (s', out)) :
    serveAll serve [m] s = some (s', out) := by
  rw [serveAll_cons hm serveAll_nil, List.append_nil]

theorem serveAll_append (h : serveAll serve ms s = some (s', out))
    (h' : serveAll serve ns s' = some (prompt, out')) :
    serveAll serve (ms ++ ns) s = some (prompt, out ++ out') := by
  induction ms generalizing s out with
  | nil =>
    cases h
    exact h'
  | cons m ms ih =>
    obtain ⟨s₁, out₁, out₂, hm, hms, rfl⟩ := serveAll_cons_inv h
    rw [List.cons_append, List.append_assoc]
    exact serveAll_cons hm (ih hms)

/-- The server in state `s` lags behind a prompt one by the commands `pending`. -/
def Lags (serve : σ → μ → Option (σ × List ρ)) (s : σ) (pending : List μ) (arrived : List ρ)
    (prompt : σ) (replies : List ρ) : Prop :=
  ∃ due, serveAll serve pending s = some (prompt, due) ∧ arrived ++ due = replies

namespace Lags

theorem refl (s : σ) (replies : List ρ) : Lags serve s [] replies s replies :=
  ⟨[], rfl, List.append_nil _⟩

/-- Commands that are posted are taken by the prompt server at once. -/
theorem post (h : Lags serve s ms arrived prompt replies)
    (hn : serveAll serve ns prompt = some (prompt', out)) :
    Lags serve s (ms ++ ns) arrived prompt' (replies ++ out) := by
  obtain ⟨due, hdue, rfl⟩ := h
  exact ⟨due ++ out, serveAll_append hdue hn, (List.append_assoc _ _ _).symm⟩

/-- The next command is one that the server may take, and its replies are due. -/
theorem take (h : Lags serve s (m :: ms) arrived prompt replies) :
    ∃ s' out, serve s m = some (s', out) ∧ Lags serve s' ms (arrived ++ out) prompt replies := by
  obtain ⟨due, hdue, rfl⟩ := h
  obtain ⟨s', out, out', hm, hms, hout⟩ := serveAll_cons_inv hdue
  refine ⟨s', out, hm, out', hms, ?_⟩
  rw [List.append_assoc]
  exact congrArg (arrived ++ ·) hout.symm

/-- The client takes replies that have arrived. -/
theorem receive (h : Lags serve s ms arrived prompt replies) {n : Nat} (hn : n ≤ arrived.length) :
    arrived.take n = replies.take n ∧
      Lags serve s ms (arrived.drop n) prompt (replies.drop n) := by
  obtain ⟨due, hdue, rfl⟩ := h
  refine ⟨(List.take_append_of_le_length hn).symm, due, hdue, ?_⟩
  rw [List.drop_append_of_le_length hn]

/-- A server without a backlog is where the prompt one is. -/
theorem settled (h : Lags serve s [] arrived prompt replies) : s = prompt ∧ arrived = replies := by
  obtain ⟨due, hdue, rfl⟩ := h
  cases hdue
  exact ⟨rfl, (List.append_nil _).symm⟩

end Lags

end ActiveBsp.Library
