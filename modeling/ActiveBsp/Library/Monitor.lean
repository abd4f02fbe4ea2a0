import Mathlib.Data.List.Basic

/-!
# Waiting on a condition variable

Sections run one at a time under a lock. A thread tries until its own section
succeeds and sleeps where it does not; a section that broadcasts sends it back
to the lock. No wake-up is lost when no silent section lets the thread succeed.
-/
namespace ActiveBsp.Library

set_option autoImplicit false

structure Monitor (σ ι κ ρ ε : Type) where
  /-- The sections of the other threads. -/
  enter : ι → σ → Except ε σ
  broadcasts : ι → Bool
  /-- The section of the thread, which has to sleep where it gets nothing. -/
  attempt : κ → σ → Except ε (Option ρ)

namespace Monitor

variable {σ ι κ ρ ε : Type}

inductive Thread (κ ρ : Type) where
  | idle
  /-- On its way to the lock, from the start of its call or from a wake-up. -/
  | locking (call : κ)
  | asleep (call : κ)
  | returned (call : κ) (result : ρ)
  deriving DecidableEq, Repr

def Thread.wake : Thread κ ρ → Thread κ ρ
  | .asleep call => .locking call
  | t => t

/-- A call that the thread is not ready for changes nothing. -/
def Thread.start (call : κ) : Thread κ ρ → Thread κ ρ
  | .idle | .returned _ _ => .locking call
  | t => t

structure State (σ κ ρ : Type) where
  shared : σ
  thread : Thread κ ρ

/-- What happens next. A thread may also wake up for no reason. -/
inductive Move (ι κ : Type) where
  | enter (i : ι)
  | call (call : κ)
  | attempt
  | wake
  deriving DecidableEq, Repr

variable (M : Monitor σ ι κ ρ ε)

/-- The thread takes the lock, if it is on its way there. -/
def tryLock (s : σ) : Thread κ ρ → Except ε (Thread κ ρ)
  | .locking call => (M.attempt call s).map fun
    | none => .asleep call
    | some result => .returned call result
  | t => .ok t

def step : Move ι κ → State σ κ ρ → Except ε (State σ κ ρ)
  | .enter i, s => (M.enter i s.shared).map fun shared =>
      ⟨shared, if M.broadcasts i then s.thread.wake else s.thread⟩
  | .call call, s => .ok ⟨s.shared, s.thread.start call⟩
  | .attempt, s => (M.tryLock s.shared s.thread).map fun thread => ⟨s.shared, thread⟩
  | .wake, s => .ok ⟨s.shared, s.thread.wake⟩

/-- A run ends at the first section that fails. -/
def run : List (Move ι κ) → State σ κ ρ → Except ε (State σ κ ρ)
  | [], s => .ok s
  | move :: moves, s => (M.step move s).bind (run moves)

def enterAll : List ι → σ → Except ε σ
  | [], s => .ok s
  | i :: is, s => (M.enter i s).bind (enterAll is)

/-- The sections that the other threads ran. -/
def entered (moves : List (Move ι κ)) : List ι :=
  moves.filterMap fun
    | .enter i => some i
    | .call _ | .attempt | .wake => none

variable {M} {s s' : State σ κ ρ} {moves : List (Move ι κ)} {call : κ}

theorem map_ok_inv {α β : Type} {x : Except ε α} {f : α → β} {b : β} (h : x.map f = .ok b) :
    ∃ a, x = .ok a ∧ f a = b := by
  cases x with
  | error e => cases h
  | ok a => exact ⟨a, rfl, Except.ok.inj h⟩

theorem bind_ok_inv {α β : Type} {x : Except ε α} {f : α → Except ε β} {b : β}
    (h : x.bind f = .ok b) : ∃ a, x = .ok a ∧ f a = .ok b := by
  cases x with
  | error e => cases h
  | ok a => exact ⟨a, rfl, h⟩

/-- What the thread does once it has the lock. -/
theorem tryLock_inv {s : σ} {t t' : Thread κ ρ} (h : M.tryLock s t = .ok t') :
    (∃ call, t = .locking call ∧ M.attempt call s = .ok none ∧ t' = .asleep call) ∨
      (∃ call result, t = .locking call ∧ M.attempt call s = .ok (some result) ∧
        t' = .returned call result) ∨
      (∀ call, t ≠ .locking call) ∧ t' = t := by
  cases t with
  | locking call =>
    obtain ⟨r, hr, rfl⟩ := map_ok_inv h
    cases r with
    | none => exact .inl ⟨call, rfl, hr, rfl⟩
    | some result => exact .inr (.inl ⟨call, result, rfl, hr, rfl⟩)
  | idle => exact .inr (.inr ⟨(fun _ hl => nomatch hl), (Except.ok.inj h).symm⟩)
  | asleep call => exact .inr (.inr ⟨(fun _ hl => nomatch hl), (Except.ok.inj h).symm⟩)
  | returned call result => exact .inr (.inr ⟨(fun _ hl => nomatch hl), (Except.ok.inj h).symm⟩)

/-- The thread leaves the shared state alone. -/
theorem step_shared {move : Move ι κ} (h : M.step move s = .ok s') :
    M.enterAll (entered [move]) s.shared = .ok s'.shared := by
  cases move with
  | enter i =>
    obtain ⟨shared, he, rfl⟩ := map_ok_inv h
    simp only [entered, List.filterMap_cons, List.filterMap_nil, enterAll, he, Except.bind]
  | call call =>
    cases h
    rfl
  | attempt =>
    obtain ⟨t, -, rfl⟩ := map_ok_inv h
    rfl
  | wake =>
    cases h
    rfl

theorem enterAll_append (is js : List ι) (s : σ) :
    M.enterAll (is ++ js) s = (M.enterAll is s).bind (M.enterAll js) := by
  induction is generalizing s with
  | nil => rfl
  | cons i is ih =>
    simp only [List.cons_append, enterAll]
    cases M.enter i s with
    | error e => rfl
    | ok s' => exact ih s'

theorem run_shared (h : M.run moves s = .ok s') :
    M.enterAll (entered moves) s.shared = .ok s'.shared := by
  induction moves generalizing s with
  | nil =>
    cases h
    rfl
  | cons move moves ih =>
    obtain ⟨s₁, hstep, hrest⟩ := bind_ok_inv h
    have hsplit : entered (move :: moves) = entered [move] ++ entered moves := by
      rw [entered, entered, entered, ← List.filterMap_append, List.singleton_append]
    rw [hsplit, enterAll_append, step_shared hstep]
    exact ih hrest

/-- A description that follows every section describes the state after all of them. -/
theorem enterAll_simulates {τ : Type} (next : τ → ι → τ) {R : τ → σ → Prop}
    (hnext : ∀ i t s s', R t s → M.enter i s = .ok s' → R (next t i) s') {is : List ι} {t : τ}
    {s s' : σ} (hs : R t s) (h : M.enterAll is s = .ok s') : R (is.foldl next t) s' := by
  induction is generalizing t s with
  | nil =>
    cases h
    exact hs
  | cons i is ih =>
    obtain ⟨s₁, he, hrest⟩ := bind_ok_inv h
    exact ih (hnext i t s s₁ hs he) hrest

theorem enterAll_invariant {I : σ → Prop}
    (hI : ∀ i s s', I s → M.enter i s = .ok s' → I s') {is : List ι} {s s' : σ} (hs : I s)
    (h : M.enterAll is s = .ok s') : I s' := by
  have hnext : ∀ i (_ : Unit) s s', I s → M.enter i s = .ok s' → I s' := fun i _ => hI i
  exact enterAll_simulates (fun _ _ => ()) (t := ()) hnext hs h

/-- Where a thread sleeps, its section would still get nothing. -/
def Blocked (M : Monitor σ ι κ ρ ε) (s : State σ κ ρ) : Prop :=
  ∀ call, s.thread = .asleep call → M.attempt call s.shared = .ok none

theorem Thread.wake_ne_asleep (t : Thread κ ρ) (call : κ) : t.wake ≠ .asleep call := by
  cases t <;> intro h <;> cases h

/-- A section that does not broadcast gives no one what it slept for. -/
def SilentKeepsBlocked (M : Monitor σ ι κ ρ ε) (I : σ → Prop) : Prop :=
  ∀ i s s' call, I s → M.enter i s = .ok s' → M.broadcasts i = false →
    M.attempt call s = .ok none → M.attempt call s' = .ok none

variable {I : σ → Prop}

theorem Blocked.step (hsilent : SilentKeepsBlocked M I) (hI : I s.shared) (hb : Blocked M s)
    {move : Move ι κ} (h : M.step move s = .ok s') : Blocked M s' := by
  cases move with
  | enter i =>
    obtain ⟨shared, he, rfl⟩ := map_ok_inv h
    intro call hasleep
    cases hbroad : M.broadcasts i with
    | true =>
      simp only [hbroad, if_true] at hasleep
      exact absurd hasleep (Thread.wake_ne_asleep _ call)
    | false =>
      simp only [hbroad, Bool.false_eq_true, if_false] at hasleep
      exact hsilent i _ _ call hI he hbroad (hb call hasleep)
  | call call =>
    cases h
    intro call' hasleep
    cases ht : s.thread with
    | asleep call'' =>
      rw [ht] at hasleep
      exact hb call' (ht.trans hasleep)
    | idle =>
      rw [ht] at hasleep
      cases hasleep
    | locking call'' =>
      rw [ht] at hasleep
      cases hasleep
    | returned call'' result =>
      rw [ht] at hasleep
      cases hasleep
  | attempt =>
    obtain ⟨t, htry, rfl⟩ := map_ok_inv h
    intro call hasleep
    rcases tryLock_inv htry with ⟨call', -, hnone, rfl⟩ | ⟨call', result, -, -, rfl⟩ | ⟨-, rfl⟩
    · cases hasleep
      exact hnone
    · cases hasleep
    · exact hb call hasleep
  | wake =>
    cases h
    intro call hasleep
    exact absurd hasleep (Thread.wake_ne_asleep _ call)

/-- In no run does the thread sleep while its section would succeed. -/
theorem Blocked.run (hkeep : ∀ i s s', I s → M.enter i s = .ok s' → I s')
    (hsilent : SilentKeepsBlocked M I) (hI : I s.shared) (hb : Blocked M s)
    (h : M.run moves s = .ok s') : Blocked M s' := by
  induction moves generalizing s with
  | nil =>
    cases h
    exact hb
  | cons move moves ih =>
    obtain ⟨s₁, hstep, hrest⟩ := bind_ok_inv h
    exact ih (enterAll_invariant hkeep hI (step_shared hstep)) (hb.step hsilent hI hstep) hrest

/-- What the thread returns with is what its section gets there and then. -/
theorem step_attempt_inv {result : ρ} (hs : s.thread = .locking call)
    (h : M.step .attempt s = .ok s') (hr : s'.thread = .returned call result) :
    M.attempt call s.shared = .ok (some result) := by
  obtain ⟨t, htry, rfl⟩ := map_ok_inv h
  rcases tryLock_inv htry with ⟨call', -, -, rfl⟩ | ⟨call', r, hcall, hsome, rfl⟩ | ⟨hne, -⟩
  · cases hr
  · cases hr
    exact hsome
  · exact absurd hs (hne call)

theorem step_attempt_of_some {result : ρ} (hs : s.thread = .locking call)
    (h : M.attempt call s.shared = .ok (some result)) :
    M.step .attempt s = .ok ⟨s.shared, .returned call result⟩ := by
  rw [step, hs, tryLock, h]
  rfl

end Monitor

end ActiveBsp.Library
