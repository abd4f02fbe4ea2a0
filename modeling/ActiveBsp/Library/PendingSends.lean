import ActiveBsp.Library.Heap
import Mathlib.Algebra.Order.BigOperators.Group.List
import Mathlib.Algebra.Order.Group.Nat

/-!
# Sends that read their buffers later

A thread builds messages in blocks of its own, posts sends of them, waits for
all sends and destroys the messages. A posted send reads its block at any moment
until the wait is over, while other users of the heap allocate, overwrite and
free blocks of theirs and may get an address that was freed.
-/
namespace ActiveBsp.Library.PendingSends

open Buffer Layout

set_option autoImplicit false

variable {δ α : Type}

/-- What the thread does with its messages, which are numbered. -/
inductive Command (δ α : Type) where
  /-- A new block; none when the constructor writes outside it. -/
  | build (i : Nat) (block : Option (List α))
  | isend (i : Nat) (dst : δ) (count : Int)
  | destroy (i : Nat)
  | waitAll

/-- A posted send: `count` elements from an address. -/
structure Pending (δ : Type) where
  dst : δ
  addr : Nat
  count : Nat

structure State (δ α : Type) where
  heap : Heap α
  objects : Nat → Option Nat := fun _ => none
  pending : List (Pending δ) := []
  delivered : List (δ × List α) := []
  /-- The addresses of the blocks of all other users. -/
  others : Finset Nat
  program : List (Command δ α)

/-- What happens next: the thread goes on, a send reads its block, or another user of the heap
does something with a block of its own. -/
inductive Move (α : Type) where
  | next
  | transmit (k : Nat)
  | allocate (block : List α)
  | overwrite (a : Nat) (w : Write α)
  | free (a : Nat)

/-- The heap is that of the others before the thread starts. -/
def start (heap : Heap α) (program : List (Command δ α)) : State δ α :=
  { heap, others := heap.keys, program }

/-- One command. The wait goes on while sends are pending. -/
def command (al : Allocator) (s : State δ α) : List (Command δ α) → Option (State δ α)
  | [] => some s
  | .build _ none :: _ => none
  | .build i (some block) :: cs => some { s with
      heap := (s.heap.alloc al block).2
      objects := Function.update s.objects i (some (s.heap.alloc al block).1)
      program := cs }
  | .isend i dst count :: cs => (s.objects i).bind fun a =>
      if count < 0 then none
      else some { s with pending := s.pending ++ [⟨dst, a, count.toNat⟩], program := cs }
  | .destroy i :: cs => (s.objects i).bind fun a => (s.heap.delete a).map fun heap =>
      { s with heap, objects := Function.update s.objects i none, program := cs }
  | .waitAll :: cs => if s.pending = [] then some { s with program := cs } else some s

/-- What the others do to blocks that are not theirs does not happen. -/
def step (al : Allocator) : Move α → State δ α → Option (State δ α)
  | .next, s => command al s s.program
  | .transmit k, s =>
    match s.pending[k]? with
    | none => some s
    | some p => (s.heap.read p.addr 0 p.count).map fun data => { s with
        pending := s.pending.eraseIdx k
        delivered := s.delivered ++ [(p.dst, data)] }
  | .allocate block, s => some { s with
      heap := (s.heap.alloc al block).2
      others := insert (s.heap.alloc al block).1 s.others }
  | .overwrite a w, s =>
    if a ∈ s.others then some { s with heap := (s.heap.write a w).getD s.heap } else some s
  | .free a, s =>
    if a ∈ s.others then (s.heap.delete a).map fun heap =>
      { s with heap, others := s.others.erase a }
    else some s

/-- A run is undefined from the first step that is. -/
def run (al : Allocator) : List (Move α) → State δ α → Option (State δ α)
  | [], s => some s
  | move :: moves, s => (step al move s).bind (run al moves)

/-- In no order of events is anything undefined; when the thread is through, `built` has been
delivered, every message once; and the thread can get there. -/
def Delivers (program : List (Command δ α)) (built : List (δ × List α)) : Prop :=
  ∀ (al : Allocator) (heap : Heap α) (moves : List (Move α)), ∃ s,
    run al moves (start heap program) = some s ∧
      (s.program = [] → s.delivered.Perm built) ∧
      ∃ moves' s', run al moves' s = some s' ∧ s'.program = []

/-- No message is destroyed or built anew while it is being sent: `live` has the messages that
have a block, `sent` those whose sends may be pending. -/
def Careful : (Nat → Option (List α)) → List Nat → List (Command δ α) → Prop
  | _, sent, [] => sent = []
  | live, sent, .build i block :: cs =>
    live i = none ∧ ∃ b, block = some b ∧ Careful (Function.update live i (some b)) sent cs
  | live, sent, .isend i _ count :: cs =>
    (∃ b, live i = some b ∧ 0 ≤ count ∧ count ≤ b.length) ∧ Careful live (i :: sent) cs
  | live, sent, .destroy i :: cs =>
    live i ≠ none ∧ i ∉ sent ∧ Careful (Function.update live i none) sent cs
  | live, _, .waitAll :: cs => Careful live [] cs

/-- What the sends of a program are to deliver. -/
def sends : (Nat → Option (List α)) → List (Command δ α) → List (δ × List α)
  | _, [] => []
  | live, .build i block :: cs => sends (Function.update live i block) cs
  | live, .isend i dst count :: cs =>
    (dst, ((live i).getD []).take count.toNat) :: sends live cs
  | live, .destroy i :: cs => sends (Function.update live i none) cs
  | live, .waitAll :: cs => sends live cs

/-- The places that own a block: a message, or another user's address. -/
abbrev Place : Type := Nat ⊕ Nat

def live (hold : Place → Option (Heap.Held α)) (i : Nat) : Option (List α) :=
  (hold (.inl i)).map Heap.Held.contents

/-- What a pending send would deliver now. -/
def view (heap : Heap α) (p : Pending δ) : δ × List α :=
  (p.dst, (heap.read p.addr 0 p.count).getD [])

/-- The send reads a message that is being sent. -/
def Reads (hold : Place → Option (Heap.Held α)) (sent : List Nat) (p : Pending δ) : Prop :=
  ∃ i ∈ sent, ∃ x, hold (.inl i) = some x ∧ x.addr = p.addr ∧ p.count ≤ x.contents.length

structure Inv (expected : List (δ × List α)) (hold : Place → Option (Heap.Held α))
    (sent : List Nat) (s : State δ α) : Prop where
  owned : Heap.Owned s.heap hold
  objects : ∀ i, s.objects i = (hold (.inl i)).map Heap.Held.addr
  others : ∀ a ∈ s.others, ∃ x, hold (.inr a) = some x ∧ x.addr = a
  careful : Careful (live hold) sent s.program
  pending : ∀ p ∈ s.pending, Reads hold sent p
  perm : (s.delivered ++ s.pending.map (view s.heap) ++ sends (live hold) s.program).Perm expected

def Sound (expected : List (δ × List α)) (s : State δ α) : Prop :=
  ∃ hold sent, Inv expected hold sent s

variable {expected : List (δ × List α)} {hold hold' : Place → Option (Heap.Held α)}
  {sent : List Nat} {s s' : State δ α} {al : Allocator}

theorem read_prefix {h : Heap α} {x : Heap.Held α} (hx : Heap.Backs h x) {n : Nat}
    (hn : n ≤ x.contents.length) : h.read x.addr 0 n = some (x.contents.take n) := by
  obtain ⟨block, hlookup, -, hlen, hcontents⟩ := hx
  rw [Heap.read, hlookup, Option.bind_some, load, if_pos (by omega), ← hcontents]
  simp only [slice, List.drop_zero, List.take_take, Nat.min_eq_left hn]

theorem view_eq {h : Heap α} {p : Pending δ} {x : Heap.Held α} (hx : Heap.Backs h x)
    (haddr : x.addr = p.addr) (hn : p.count ≤ x.contents.length) :
    view h p = (p.dst, x.contents.take p.count) := by
  rw [view, ← haddr, read_prefix hx hn]
  rfl

theorem live_update_inl (i : Nat) (x : Option (Heap.Held α)) :
    live (Function.update hold (.inl i) x) =
      Function.update (live hold) i (x.map Heap.Held.contents) := by
  funext j
  by_cases hj : j = i
  · rw [hj, live, Function.update_self, Function.update_self]
  · rw [live, Function.update_of_ne (by simpa using hj), Function.update_of_ne hj]
    rfl

theorem live_update_inr (a : Nat) (x : Option (Heap.Held α)) :
    live (Function.update hold (.inr a) x) = live hold := by
  funext j
  rw [live, Function.update_of_ne (by simp)]
  rfl

/-- What is being sent is still to be read as before, if its places hold the same. -/
theorem views_kept {h h' : Heap α} {ps : List (Pending δ)} (ho : Heap.Owned h hold)
    (ho' : Heap.Owned h' hold') (hps : ∀ p ∈ ps, Reads hold sent p)
    (hsame : ∀ i ∈ sent, ∀ x, hold (.inl i) = some x → hold' (.inl i) = some x) :
    (∀ p ∈ ps, Reads hold' sent p) ∧ ps.map (view h') = ps.map (view h) := by
  constructor
  · intro p hp
    obtain ⟨i, hi, x, hx, haddr, hn⟩ := hps p hp
    exact ⟨i, hi, x, hsame i hi x hx, haddr, hn⟩
  · apply List.map_congr_left
    intro p hp
    obtain ⟨i, hi, x, hx, haddr, hn⟩ := hps p hp
    rw [view_eq (ho.backs _ x hx) haddr hn, view_eq (ho'.backs _ x (hsame i hi x hx)) haddr hn]

theorem Inv.build (h : Inv expected hold sent s) {i : Nat} {b : List α}
    {cs : List (Command δ α)} (hp : s.program = .build i (some b) :: cs) :
    ∃ s', command al s s.program = some s' ∧ Sound expected s' := by
  obtain ⟨ho, hobj, hoth, hcareful, hpend, hperm⟩ := h
  rw [hp] at hcareful hperm ⊢
  obtain ⟨hnone, b', hb, hcareful⟩ := hcareful
  cases hb
  have hfree : hold (.inl i) = none := Option.map_eq_none_iff.mp hnone
  have ho' := ho.alloc al (.inl i) (Nat.le_refl b.length) (holds_self b)
  obtain ⟨hreads, hviews⟩ := views_kept ho ho' hpend fun j hj x hx => by
    have hne : (Sum.inl j : Place) ≠ .inl i := by
      rintro heq
      cases heq
      rw [hfree] at hx
      cases hx
    rw [Function.update_of_ne hne, hx]
  refine ⟨_, rfl, _, sent, ho', ?_, ?_, ?_, hreads, ?_⟩
  · intro j
    by_cases hj : j = i
    · rw [hj]
      simp only [Function.update_self, Option.map_some]
    · simp only [Function.update_of_ne hj]
      rw [Function.update_of_ne (by simpa using hj), hobj j]
  · intro a ha
    rw [Function.update_of_ne (by simp)]
    exact hoth a ha
  · rw [live_update_inl]
    exact hcareful
  · rw [live_update_inl]
    simp only [hviews]
    exact hperm

theorem Inv.isend (h : Inv expected hold sent s) {i : Nat} {dst : δ} {count : Int}
    {cs : List (Command δ α)} (hp : s.program = .isend i dst count :: cs) :
    ∃ s', command al s s.program = some s' ∧ Sound expected s' := by
  obtain ⟨ho, hobj, hoth, hcareful, hpend, hperm⟩ := h
  rw [hp] at hcareful hperm ⊢
  obtain ⟨⟨b, hb, hnonneg, hcount⟩, hcareful⟩ := hcareful
  obtain ⟨x, hx, rfl⟩ := Option.map_eq_some_iff.mp hb
  have haddr : s.objects i = some x.addr := by rw [hobj i, hx, Option.map_some]
  have hnat : count.toNat ≤ x.contents.length := by omega
  have hview : view s.heap ⟨dst, x.addr, count.toNat⟩ = (dst, x.contents.take count.toNat) :=
    view_eq (ho.backs _ x hx) rfl hnat
  refine ⟨{ s with pending := s.pending ++ [⟨dst, x.addr, count.toNat⟩], program := cs }, ?_,
    hold, i :: sent, ho, hobj, hoth, hcareful, ?_, ?_⟩
  · rw [command, haddr, Option.bind_some, if_neg (by omega)]
  · intro p hp
    rcases List.mem_append.mp hp with hp | hp
    · obtain ⟨j, hj, hreads⟩ := hpend p hp
      exact ⟨j, List.mem_cons_of_mem i hj, hreads⟩
    · obtain rfl := List.mem_singleton.mp hp
      exact ⟨i, List.mem_cons_self, x, hx, rfl, hnat⟩
  · simp only [sends, live, hx, Option.map_some, Option.getD_some] at hperm
    simp only [List.map_append, List.map_cons, List.map_nil, hview, List.append_assoc,
      List.singleton_append]
    rw [List.append_assoc] at hperm
    exact hperm

theorem Inv.destroy (h : Inv expected hold sent s) {i : Nat} {cs : List (Command δ α)}
    (hp : s.program = .destroy i :: cs) :
    ∃ s', command al s s.program = some s' ∧ Sound expected s' := by
  obtain ⟨ho, hobj, hoth, hcareful, hpend, hperm⟩ := h
  rw [hp] at hcareful hperm ⊢
  obtain ⟨hlive, hsent, hcareful⟩ := hcareful
  obtain ⟨b, hb⟩ := Option.ne_none_iff_exists'.mp hlive
  obtain ⟨x, hx, -⟩ := Option.map_eq_some_iff.mp hb
  have haddr : s.objects i = some x.addr := by rw [hobj i, hx, Option.map_some]
  obtain ⟨hdelete, ho'⟩ := ho.delete hx
  obtain ⟨hreads, hviews⟩ := views_kept ho ho' hpend fun j hj y hy => by
    have hne : (Sum.inl j : Place) ≠ .inl i := by
      rintro heq
      cases heq
      exact hsent hj
    rw [Function.update_of_ne hne, hy]
  refine ⟨{ s with
    heap := s.heap.erase x.addr
    objects := Function.update s.objects i none
    program := cs }, ?_, _, sent, ho', ?_, ?_, ?_, hreads, ?_⟩
  · rw [command, haddr, Option.bind_some, hdelete, Option.map_some]
  · intro j
    by_cases hj : j = i
    · rw [hj]
      simp only [Function.update_self, Option.map_none]
    · simp only [Function.update_of_ne hj]
      rw [Function.update_of_ne (by simpa using hj), hobj j]
  · intro a ha
    rw [Function.update_of_ne (by simp)]
    exact hoth a ha
  · rw [live_update_inl]
    exact hcareful
  · rw [live_update_inl]
    simp only [hviews]
    exact hperm

theorem Inv.waitAll (h : Inv expected hold sent s) {cs : List (Command δ α)}
    (hp : s.program = .waitAll :: cs) :
    ∃ s', command al s s.program = some s' ∧ Sound expected s' := by
  by_cases hnone : s.pending = []
  · obtain ⟨ho, hobj, hoth, hcareful, -, hperm⟩ := h
    rw [hp] at hcareful hperm ⊢
    refine ⟨{ s with program := cs }, if_pos hnone, hold, [], ho, hobj, hoth, hcareful, ?_, hperm⟩
    intro p hp
    rw [show s.pending = [] from hnone] at hp
    cases hp
  · refine ⟨s, ?_, hold, sent, h⟩
    rw [hp]
    exact if_neg hnone

theorem Inv.next (h : Inv expected hold sent s) :
    ∃ s', step al .next s = some s' ∧ Sound expected s' := by
  change ∃ s', command al s s.program = some s' ∧ Sound expected s'
  cases hp : s.program with
  | nil => exact ⟨s, rfl, hold, sent, h⟩
  | cons c cs =>
    rw [← hp]
    cases c with
    | build i block =>
      have hcareful := h.careful
      rw [hp] at hcareful
      obtain ⟨-, b, rfl, -⟩ := hcareful
      exact h.build hp
    | isend i dst count => exact h.isend hp
    | destroy i => exact h.destroy hp
    | waitAll => exact h.waitAll hp

theorem Inv.transmit (h : Inv expected hold sent s) (k : Nat) :
    ∃ s', step al (.transmit k) s = some s' ∧ Sound expected s' := by
  cases hk : s.pending[k]? with
  | none => exact ⟨s, by simp only [step, hk], hold, sent, h⟩
  | some p =>
    obtain ⟨ho, hobj, hoth, hcareful, hpend, hperm⟩ := h
    obtain ⟨i, hi, x, hx, haddr, hn⟩ := hpend p (List.mem_of_getElem? hk)
    have hread : s.heap.read p.addr 0 p.count = some (x.contents.take p.count) := by
      rw [← haddr]
      exact read_prefix (ho.backs _ x hx) hn
    have hview : view s.heap p = (p.dst, x.contents.take p.count) :=
      view_eq (ho.backs _ x hx) haddr hn
    obtain ⟨hlt, hget⟩ := List.getElem?_eq_some_iff.mp hk
    have herase : s.pending.Perm (p :: s.pending.eraseIdx k) := by
      rw [← hget]
      exact (List.getElem_cons_eraseIdx_perm hlt).symm
    refine ⟨{ s with
      pending := s.pending.eraseIdx k
      delivered := s.delivered ++ [(p.dst, x.contents.take p.count)] }, ?_,
      hold, sent, ho, hobj, hoth, hcareful, ?_, ?_⟩
    · simp only [step, hk, hread, Option.map_some]
    · exact fun q hq => hpend q (List.mem_of_mem_eraseIdx hq)
    · refine List.Perm.trans ?_ hperm
      apply List.Perm.append_right
      dsimp only
      rw [List.append_assoc, List.singleton_append, ← hview, ← List.map_cons]
      exact ((herase.map (view s.heap)).append_left s.delivered).symm

theorem Inv.allocate (h : Inv expected hold sent s) (block : List α) :
    ∃ s', step al (.allocate block) s = some s' ∧ Sound expected s' := by
  obtain ⟨ho, hobj, hoth, hcareful, hpend, hperm⟩ := h
  have ho' := ho.alloc al (.inr (s.heap.alloc al block).1) (Nat.le_refl block.length)
    (holds_self block)
  obtain ⟨hreads, hviews⟩ := views_kept ho ho' hpend fun j hj x hx => by
    rw [Function.update_of_ne (by simp), hx]
  refine ⟨_, rfl, _, sent, ho', ?_, ?_, ?_, hreads, ?_⟩
  · intro j
    rw [Function.update_of_ne (by simp)]
    exact hobj j
  · intro a ha
    by_cases hnew : a = (s.heap.alloc al block).1
    · rw [hnew, Function.update_self]
      exact ⟨_, rfl, rfl⟩
    · rw [Function.update_of_ne (by simpa using hnew)]
      exact hoth a (Finset.mem_of_mem_insert_of_ne ha hnew)
  · rw [live_update_inr]
    exact hcareful
  · rw [live_update_inr]
    simp only [hviews]
    exact hperm

theorem write_inv {h h' : Heap α} {a : Nat} {w : Write α} (hw : h.write a w = some h') :
    ∃ block, h' = h.insert a block := by
  obtain ⟨block, -, hstore⟩ := Option.bind_eq_some_iff.mp hw
  obtain ⟨block', -, rfl⟩ := Option.map_eq_some_iff.mp hstore
  exact ⟨block', rfl⟩

theorem Inv.overwrite (h : Inv expected hold sent s) (a : Nat) (w : Write α) :
    ∃ s', step al (.overwrite a w) s = some s' ∧ Sound expected s' := by
  by_cases ha : a ∈ s.others
  · cases hw : s.heap.write a w with
    | none => exact ⟨s, by rw [step, if_pos ha, hw, Option.getD_none], hold, sent, h⟩
    | some heap =>
      obtain ⟨ho, hobj, hoth, hcareful, hpend, hperm⟩ := h
      obtain ⟨block, rfl⟩ := write_inv hw
      obtain ⟨x, hx, haddr⟩ := hoth a ha
      have ho' := ho.rewrite (y := ⟨a, 0, []⟩) hx (Nat.zero_le block.length) haddr.symm
        (holds_nil (Nat.zero_le _))
      rw [haddr] at ho'
      obtain ⟨hreads, hviews⟩ := views_kept ho ho' hpend fun j hj y hy => by
        rw [Function.update_of_ne (by simp), hy]
      refine ⟨{ s with heap := s.heap.insert a block }, ?_, _, sent, ho', ?_, ?_, ?_, hreads, ?_⟩
      · rw [step, if_pos ha, hw, Option.getD_some]
      · intro j
        rw [Function.update_of_ne (by simp)]
        exact hobj j
      · intro b hb
        by_cases hab : b = a
        · rw [hab, Function.update_self]
          exact ⟨_, rfl, rfl⟩
        · rw [Function.update_of_ne (by simpa using hab)]
          exact hoth b hb
      · rw [live_update_inr]
        exact hcareful
      · rw [live_update_inr]
        simp only [hviews]
        exact hperm
  · exact ⟨s, if_neg ha, hold, sent, h⟩

theorem Inv.free (h : Inv expected hold sent s) (a : Nat) :
    ∃ s', step al (.free a) s = some s' ∧ Sound expected s' := by
  by_cases ha : a ∈ s.others
  · obtain ⟨ho, hobj, hoth, hcareful, hpend, hperm⟩ := h
    obtain ⟨x, hx, rfl⟩ := hoth a ha
    obtain ⟨hdelete, ho'⟩ := ho.delete hx
    obtain ⟨hreads, hviews⟩ := views_kept ho ho' hpend fun j hj y hy => by
      rw [Function.update_of_ne (by simp), hy]
    refine ⟨{ s with heap := s.heap.erase x.addr, others := s.others.erase x.addr }, ?_, _, sent,
      ho', ?_, ?_, ?_, hreads, ?_⟩
    · rw [step, if_pos ha, hdelete, Option.map_some]
    · intro j
      rw [Function.update_of_ne (by simp)]
      exact hobj j
    · intro b hb
      obtain ⟨hne, hb⟩ := Finset.mem_erase.mp hb
      rw [Function.update_of_ne (by simpa using hne)]
      exact hoth b hb
    · rw [live_update_inr]
      exact hcareful
    · rw [live_update_inr]
      simp only [hviews]
      exact hperm
  · exact ⟨s, if_neg ha, hold, sent, h⟩

theorem Sound.step (h : Sound expected s) (move : Move α) :
    ∃ s', PendingSends.step al move s = some s' ∧ Sound expected s' := by
  obtain ⟨hold, sent, h⟩ := h
  cases move with
  | next => exact h.next
  | transmit k => exact h.transmit k
  | allocate block => exact h.allocate block
  | overwrite a w => exact h.overwrite a w
  | free a => exact h.free a

theorem Sound.run (h : Sound expected s) (moves : List (Move α)) :
    ∃ s', PendingSends.run al moves s = some s' ∧ Sound expected s' := by
  induction moves generalizing s with
  | nil => exact ⟨s, rfl, h⟩
  | cons move moves ih =>
    obtain ⟨s₁, hstep, h₁⟩ := h.step move
    obtain ⟨s₂, hrun, h₂⟩ := ih h₁
    refine ⟨s₂, ?_, h₂⟩
    rw [PendingSends.run, hstep, Option.bind_some, hrun]

/-- At the end of the program nothing is pending. -/
theorem Sound.delivered (h : Sound expected s) (hp : s.program = []) :
    s.delivered.Perm expected := by
  obtain ⟨hold, sent, -, -, -, hcareful, hpend, hperm⟩ := h
  rw [hp] at hcareful hperm
  obtain rfl : sent = [] := hcareful
  have hnone : s.pending = [] := by
    apply List.eq_nil_iff_forall_not_mem.mpr
    intro p hmem
    obtain ⟨i, hi, -⟩ := hpend p hmem
    cases hi
  rw [hnone] at hperm
  simpa [sends] using hperm

/-- A command that is not a wait for pending sends takes the thread forward. -/
theorem command_advances {c : Command δ α} {cs : List (Command δ α)} (hnone : s.pending = [])
    (h : command al s (c :: cs) = some s') : s'.program = cs ∧ s'.pending.length ≤ 1 := by
  cases c with
  | build i block =>
    cases block with
    | none => cases h
    | some block =>
      cases h
      exact ⟨rfl, by simp [hnone]⟩
  | isend i dst count =>
    obtain ⟨a, -, h⟩ := Option.bind_eq_some_iff.mp h
    split_ifs at h
    cases h
    exact ⟨rfl, by simp [hnone]⟩
  | destroy i =>
    obtain ⟨a, -, h⟩ := Option.bind_eq_some_iff.mp h
    obtain ⟨heap, -, rfl⟩ := Option.map_eq_some_iff.mp h
    exact ⟨rfl, by simp [hnone]⟩
  | waitAll =>
    rw [command, if_pos hnone] at h
    cases h
    exact ⟨rfl, by simp [hnone]⟩

/-- Transmit what is pending, then go on: the number of commands and pending sends falls. -/
theorem Sound.finishes (h : Sound expected s) :
    ∃ moves s', PendingSends.run al moves s = some s' ∧ s'.program = [] := by
  induction hn : 2 * s.program.length + s.pending.length using Nat.strong_induction_on
    generalizing s with
  | _ n ih =>
    have hgo : ∀ move s₁, PendingSends.step al move s = some s₁ → Sound expected s₁ →
        2 * s₁.program.length + s₁.pending.length < n →
        ∃ moves s', PendingSends.run al moves s = some s' ∧ s'.program = [] := by
      intro move s₁ hstep h₁ hlt
      obtain ⟨moves, s', hrun, hdone⟩ := ih _ hlt h₁ rfl
      refine ⟨move :: moves, s', ?_, hdone⟩
      rw [PendingSends.run, hstep, Option.bind_some, hrun]
    cases hpend : s.pending with
    | cons p ps =>
      obtain ⟨s₁, hstep, h₁⟩ : ∃ s₁, PendingSends.step al (.transmit 0) s = some s₁ ∧
        Sound expected s₁ := h.step (.transmit 0)
      apply hgo _ s₁ hstep h₁
      simp only [PendingSends.step, hpend, List.getElem?_cons_zero] at hstep
      obtain ⟨data, -, rfl⟩ := Option.map_eq_some_iff.mp hstep
      rw [hpend] at hn
      simp only [List.eraseIdx_cons_zero, List.length_cons] at hn ⊢
      omega
    | nil =>
      cases hprog : s.program with
      | nil => exact ⟨[], s, rfl, hprog⟩
      | cons c cs =>
        obtain ⟨s₁, hstep, h₁⟩ : ∃ s₁, PendingSends.step al .next s = some s₁ ∧
          Sound expected s₁ := h.step .next
        apply hgo _ s₁ hstep h₁
        change command al s s.program = some s₁ at hstep
        rw [hprog] at hstep
        obtain ⟨hprog₁, hpend₁⟩ := command_advances hpend hstep
        rw [hprog, hpend, List.length_cons, List.length_nil] at hn
        rw [hprog₁]
        omega

theorem start_sound (heap : Heap α) {program : List (Command δ α)}
    (h : Careful (fun _ => none) [] program) :
    Sound (sends (fun _ => none) program) (start heap program) := by
  refine ⟨Sum.elim (fun _ => none) fun a => if a ∈ heap then some ⟨a, 0, []⟩ else none, [],
    ⟨?_, ?_⟩, fun i => rfl, ?_, h, (fun p hp => nomatch hp), List.Perm.refl _⟩
  · rintro (i | a) x hx
    · cases hx
    · simp only [Sum.elim_inr] at hx
      split_ifs at hx with ha
      cases hx
      obtain ⟨block, hblock⟩ := Finmap.mem_iff.mp ha
      exact ⟨block, hblock, Nat.zero_le _, holds_nil (Nat.zero_le _)⟩
  · rintro (i | a) (j | b) x y hx hy hxy
    · cases hx
    · cases hx
    · cases hy
    · simp only [Sum.elim_inr] at hx hy
      split_ifs at hx hy
      cases hx
      cases hy
      exact congrArg Sum.inr hxy
  · intro a ha
    exact ⟨⟨a, 0, []⟩, if_pos (Finmap.mem_keys.mp ha), rfl⟩

/-- A program that keeps what it sends delivers what it built. -/
theorem delivers_of_careful {program : List (Command δ α)}
    (h : Careful (fun _ => none) [] program) :
    Delivers program (sends (fun _ => none) program) := by
  intro al heap moves
  obtain ⟨s, hrun, hs⟩ := (start_sound heap h).run moves
  exact ⟨s, hrun, hs.delivered, hs.finishes⟩

structure Message (δ α : Type) where
  dst : δ
  block : Option (List α)
  count : Int

namespace Message

/-- What was built. -/
def built (m : Message δ α) : δ × List α := (m.dst, m.block.getD [])

/-- The block was built, and the count does not reach beyond it. -/
def Fits (m : Message δ α) : Prop := ∃ b, m.block = some b ∧ m.count ≤ b.length

end Message

def buildAndSend : Nat → List (Message δ α) → List (Command δ α)
  | _, [] => []
  | i, m :: ms => .build i m.block :: .isend i m.dst m.count :: buildAndSend (i + 1) ms

/-- The messages stay in a list that is destroyed after the wait. -/
def sendFromList (ms : List (Message δ α)) : List (Command δ α) :=
  buildAndSend 0 ms ++ .waitAll :: (List.range ms.length).map .destroy

def buildSendDestroy : Nat → List (Message δ α) → List (Command δ α)
  | _, [] => []
  | i, m :: ms =>
    .build i m.block :: .isend i m.dst m.count :: .destroy i :: buildSendDestroy (i + 1) ms

/-- Every message is destroyed at the end of its turn of the loop. -/
def sendFromLoop (ms : List (Message δ α)) : List (Command δ α) :=
  buildSendDestroy 0 ms ++ [.waitAll]

theorem careful_destroy {live : Nat → Option (List α)} {is : List Nat} (hnodup : is.Nodup)
    (h : ∀ i ∈ is, live i ≠ none) :
    Careful live [] (is.map (.destroy : Nat → Command δ α)) := by
  induction is generalizing live with
  | nil => rfl
  | cons i is ih =>
    obtain ⟨hi, hnodup⟩ := List.nodup_cons.mp hnodup
    refine ⟨h i List.mem_cons_self, List.not_mem_nil, ih hnodup fun j hj => ?_⟩
    rw [Function.update_of_ne (ne_of_mem_of_not_mem hj hi)]
    exact h j (List.mem_cons_of_mem i hj)

theorem careful_sendFromList {live : Nat → Option (List α)} {sent : List Nat} {i : Nat}
    {ms : List (Message δ α)} (hms : ∀ m ∈ ms, m.Fits ∧ 0 ≤ m.count)
    (hbelow : ∀ j < i, live j ≠ none) (habove : ∀ j, i ≤ j → live j = none) :
    Careful live sent (buildAndSend i ms ++
      .waitAll :: (List.range (i + ms.length)).map .destroy) := by
  induction ms generalizing live sent i with
  | nil =>
    apply careful_destroy List.nodup_range
    intro j hj
    exact hbelow j (List.mem_range.mp hj)
  | cons m ms ih =>
    obtain ⟨⟨b, hb, hcount⟩, hnonneg⟩ := hms m List.mem_cons_self
    refine ⟨habove i (Nat.le_refl i), b, hb,
      ⟨b, Function.update_self _ _ _, hnonneg, hcount⟩, ?_⟩
    have hlen : i + (m :: ms).length = i + 1 + ms.length := by
      rw [List.length_cons]
      omega
    rw [hlen]
    apply ih fun m' hm' => hms m' (List.mem_cons_of_mem m hm')
    · intro j hj
      by_cases hji : j = i
      · rw [hji, Function.update_self]
        exact Option.some_ne_none b
      · rw [Function.update_of_ne hji]
        exact hbelow j (by omega)
    · intro j hj
      rw [Function.update_of_ne (by omega)]
      exact habove j (by omega)

theorem sends_destroy (live : Nat → Option (List α)) (is : List Nat) :
    sends live (is.map (.destroy : Nat → Command δ α)) = [] := by
  induction is generalizing live with
  | nil => rfl
  | cons i is ih => exact ih _

/-- What a message delivers whose count may fall short. -/
def Message.cut (m : Message δ α) : δ × List α := (m.dst, (m.block.getD []).take m.count.toNat)

theorem sends_sendFromList (live : Nat → Option (List α)) (i n : Nat) (ms : List (Message δ α)) :
    sends live (buildAndSend i ms ++ .waitAll :: (List.range n).map .destroy) =
      ms.map Message.cut := by
  induction ms generalizing live i with
  | nil => exact sends_destroy live _
  | cons m ms ih =>
    simp only [buildAndSend, List.cons_append, sends, Function.update_self, List.map_cons, ih]
    rfl

theorem delivers_cut {ms : List (Message δ α)} (hms : ∀ m ∈ ms, m.Fits ∧ 0 ≤ m.count) :
    Delivers (sendFromList ms) (ms.map Message.cut) := by
  have hcareful : Careful (fun _ => none) [] (buildAndSend 0 ms ++
      .waitAll :: (List.range (0 + ms.length)).map .destroy) :=
    careful_sendFromList hms (fun j hj => absurd hj (Nat.not_lt_zero j)) fun _ _ => rfl
  have hdelivers := delivers_of_careful hcareful
  rw [sends_sendFromList, Nat.zero_add] at hdelivers
  exact hdelivers

variable {i : Nat} {dst : δ} {count : Int} {cs : List (Command δ α)} {a : Nat}

theorem run_cons {move : Move α} (h : step al move s = some s') (moves : List (Move α)) :
    run al (move :: moves) s = run al moves s' := by
  rw [run, h, Option.bind_some]

variable (al) in
theorem next_build {b : List α} (hp : s.program = .build i (some b) :: cs) :
    step al .next s = some { s with
      heap := (s.heap.alloc al b).2
      objects := Function.update s.objects i (some (s.heap.alloc al b).1)
      program := cs } := by
  rw [step, hp, command]

variable (al) in
theorem next_isend (hp : s.program = .isend i dst count :: cs) (ha : s.objects i = some a) :
    step al .next s = if count < 0 then none
      else some { s with pending := s.pending ++ [⟨dst, a, count.toNat⟩], program := cs } := by
  rw [step, hp, command, ha, Option.bind_some]

variable (al) in
theorem next_destroy (hp : s.program = .destroy i :: cs) (ha : s.objects i = some a)
    (hmem : a ∈ s.heap) : step al .next s = some { s with
      heap := s.heap.erase a
      objects := Function.update s.objects i none
      program := cs } := by
  rw [step, hp, command, ha, Option.bind_some, Heap.delete, if_pos hmem, Option.map_some]

variable (al) in
/-- A message is built and its send posted. -/
theorem run_turn {b : List α} (hp : s.program = .build i (some b) :: .isend i dst count :: cs)
    (hcount : 0 ≤ count) : ∃ s', run al [.next, .next] s = some s' ∧ s'.program = cs ∧
      s'.heap = (s.heap.alloc al b).2 ∧ s'.objects i = some (s.heap.alloc al b).1 ∧
      s'.pending = s.pending ++ [⟨dst, (s.heap.alloc al b).1, count.toNat⟩] ∧
      s'.delivered = s.delivered := by
  have hbuild := next_build al hp
  have hobject := Function.update_self i (some (s.heap.alloc al b).1) s.objects
  have hsend := next_isend al (s := { s with
    heap := (s.heap.alloc al b).2
    objects := Function.update s.objects i (some (s.heap.alloc al b).1)
    program := .isend i dst count :: cs }) rfl hobject
  rw [if_neg (by omega)] at hsend
  refine ⟨{ s with
    heap := (s.heap.alloc al b).2
    objects := Function.update s.objects i (some (s.heap.alloc al b).1)
    pending := s.pending ++ [⟨dst, (s.heap.alloc al b).1, count.toNat⟩]
    program := cs }, ?_, rfl, rfl, hobject, rfl, rfl⟩
  rw [run_cons hbuild, run_cons hsend, run]

variable (al) in
theorem run_turn_negative {b : List α}
    (hp : s.program = .build i (some b) :: .isend i dst count :: cs) (hcount : count < 0) :
    run al [.next, .next] s = none := by
  have hbuild := next_build al hp
  have hobject := Function.update_self i (some (s.heap.alloc al b).1) s.objects
  have hsend := next_isend al (s := { s with
    heap := (s.heap.alloc al b).2
    objects := Function.update s.objects i (some (s.heap.alloc al b).1)
    program := .isend i dst count :: cs }) rfl hobject
  rw [if_pos hcount] at hsend
  rw [run_cons hbuild, run, hsend, Option.bind_none]

/-- A send whose block is freed reads what is not there. -/
theorem transmit_of_freed {k : Nat} {p : Pending δ} (hk : s.pending[k]? = some p)
    (hp : p.addr ∉ s.heap) : step al (.transmit k) s = none := by
  have hlookup : s.heap.lookup p.addr = none := Finmap.lookup_eq_none.mpr hp
  simp only [step, hk, Heap.read, hlookup, Option.bind_none, Option.map_none]

theorem run_append (al : Allocator) (moves moves' : List (Move α)) (s : State δ α) :
    run al (moves ++ moves') s = (run al moves s).bind (run al moves') := by
  induction moves generalizing s with
  | nil => rfl
  | cons move moves ih =>
    simp only [List.cons_append, run]
    cases step al move s with
    | none => rfl
    | some s₁ => exact ih s₁

/-- A negative count is undefined as soon as the thread comes to it. -/
theorem undefined_of_negative (al : Allocator) {ms : List (Message δ α)} (hfits : ∀ m ∈ ms, m.Fits)
    (hneg : ∃ m ∈ ms, m.count < 0) {i : Nat} {rest : List (Command δ α)} (s : State δ α)
    (hp : s.program = buildAndSend i ms ++ rest) : ∃ moves, run al moves s = none := by
  induction ms generalizing s i with
  | nil =>
    obtain ⟨m, hm, -⟩ := hneg
    cases hm
  | cons m ms ih =>
    obtain ⟨b, hb, -⟩ := hfits m List.mem_cons_self
    rw [buildAndSend, hb] at hp
    by_cases hm : m.count < 0
    · exact ⟨_, run_turn_negative al hp hm⟩
    · obtain ⟨s₁, hturn, hprog, -⟩ := run_turn al hp (Int.not_lt.mp hm)
      have hneg' : ∃ m' ∈ ms, m'.count < 0 := by
        obtain ⟨m', hm', hlt⟩ := hneg
        rcases List.mem_cons.mp hm' with rfl | hm'
        · exact absurd hlt hm
        · exact ⟨m', hm', hlt⟩
      obtain ⟨moves, hmoves⟩ :=
        ih (fun m' hm' => hfits m' (List.mem_cons_of_mem m hm')) hneg' s₁ hprog
      refine ⟨[.next, .next] ++ moves, ?_⟩
      rw [run_append, hturn, Option.bind_some, hmoves]

/-- Messages in a list are delivered exactly when every count is the length of its block. -/
theorem sendFromList_delivers_iff {ms : List (Message δ α)} (hfits : ∀ m ∈ ms, m.Fits) :
    Delivers (sendFromList ms) (ms.map Message.built) ↔
      ∀ m ∈ ms, m.count = (m.block.getD []).length := by
  constructor
  · intro h
    have hnonneg : ∀ m ∈ ms, 0 ≤ m.count := by
      by_contra hneg
      push Not at hneg
      obtain ⟨moves, hnone⟩ :=
        undefined_of_negative growingAllocator hfits hneg (start ∅ (sendFromList ms)) rfl
      obtain ⟨s, hsome, -⟩ := h growingAllocator ∅ moves
      rw [hnone] at hsome
      cases hsome
    obtain ⟨s, hs, -, moves, s', hrun, hdone⟩ := h growingAllocator ∅ []
    have hwhole : run growingAllocator ([] ++ moves) (start ∅ (sendFromList ms)) = some s' := by
      rw [run_append, hs, Option.bind_some, hrun]
    obtain ⟨s₁, h₁, hbuilt, -⟩ := h growingAllocator ∅ ([] ++ moves)
    obtain ⟨s₂, h₂, hcut, -⟩ :=
      delivers_cut (fun m hm => ⟨hfits m hm, hnonneg m hm⟩) growingAllocator ∅ ([] ++ moves)
    cases h₁.symm.trans hwhole
    cases h₂.symm.trans hwhole
    have hperm := (((hbuilt hdone).symm.trans (hcut hdone)).map fun d => d.2.length).sum_eq
    rw [List.map_map, List.map_map] at hperm
    have hshorter : ∀ m ∈ ms, m.cut.2.length ≤ m.built.2.length := fun m _ =>
      List.length_take_le' _ _
    intro m hm
    obtain ⟨b, hb, hcount⟩ := hfits m hm
    have hnn := hnonneg m hm
    rw [hb, Option.getD_some]
    by_contra hne
    have hlt : m.cut.2.length < m.built.2.length := by
      simp only [Message.cut, Message.built, List.length_take, hb, Option.getD_some]
      omega
    exact absurd hperm (List.sum_lt_sum _ _ hshorter ⟨m, hm, hlt⟩).ne'
  · intro h
    have hcut : ms.map Message.built = ms.map Message.cut := by
      apply List.map_congr_left
      intro m hm
      rw [Message.built, Message.cut, h m hm, Int.toNat_natCast, List.take_length]
    rw [hcut]
    exact delivers_cut fun m hm => ⟨hfits m hm, by rw [h m hm]; omega⟩

/-- A turn of the loop whose message is destroyed at its end. -/
theorem run_turn_destroy (al : Allocator) {b : List α}
    (hp : s.program = .build i (some b) :: .isend i dst count :: .destroy i :: cs)
    (hcount : 0 ≤ count) : ∃ s', run al [.next, .next, .next] s = some s' ∧ s'.program = cs ∧
      s'.heap = (s.heap.alloc al b).2.erase (s.heap.alloc al b).1 ∧
      s'.pending = s.pending ++ [⟨dst, (s.heap.alloc al b).1, count.toNat⟩] ∧
      s'.delivered = s.delivered := by
  obtain ⟨s₁, hturn, hprog, hheap, hobject, hpend, hdel⟩ := run_turn al hp hcount
  have hmem : (s.heap.alloc al b).1 ∈ s₁.heap := by
    rw [hheap]
    exact Finmap.mem_insert.mpr (Or.inl rfl)
  have hdestroy := next_destroy al hprog hobject hmem
  refine ⟨{ s₁ with
    heap := s₁.heap.erase (s.heap.alloc al b).1
    objects := Function.update s₁.objects i none
    program := cs }, ?_, rfl, ?_, hpend, hdel⟩
  · rw [show ([.next, .next, .next] : List (Move α)) = [.next, .next] ++ [.next] from rfl,
      run_append, hturn, Option.bind_some, run_cons hdestroy, run]
  · rw [hheap]

/-- The first message is destroyed before its send has to read it. -/
theorem undefined_of_loop (al : Allocator) (m : Message δ α) (ms : List (Message δ α)) :
    ∃ moves, run al moves (start ∅ (sendFromLoop (m :: ms))) = none := by
  cases hb : m.block with
  | none =>
    refine ⟨[.next], ?_⟩
    rw [run, step, start, sendFromLoop, buildSendDestroy, hb]
    rfl
  | some b =>
    have hprog : (start ∅ (sendFromLoop (m :: ms)) : State δ α).program =
        .build 0 (some b) :: .isend 0 m.dst m.count :: .destroy 0 ::
          (buildSendDestroy 1 ms ++ [.waitAll]) := by
      rw [start, sendFromLoop, buildSendDestroy, hb]
      rfl
    by_cases hm : m.count < 0
    · exact ⟨_, run_turn_negative al hprog hm⟩
    · obtain ⟨s₁, hturn, -, hheap, hpend, -⟩ := run_turn_destroy al hprog (Int.not_lt.mp hm)
      have hfreed : (Heap.alloc al ∅ b).1 ∉ s₁.heap := by
        rw [hheap]
        exact Finmap.notMem_erase_self
      have hfirst : s₁.pending[0]? = some ⟨m.dst, (Heap.alloc al ∅ b).1, m.count.toNat⟩ := by
        rw [hpend]
        rfl
      refine ⟨[.next, .next, .next] ++ [.transmit 0], ?_⟩
      rw [run_append, hturn, Option.bind_some, run, transmit_of_freed hfirst hfreed,
        Option.bind_none]

/-- The next message may get the address of the first: the first send then delivers it. -/
theorem loop_crosses (al : Allocator) (m m' : Message δ α) {b b' : List α}
    (hb : m.block = some b) (hb' : m'.block = some b') (hm : 0 ≤ m.count) (hm' : 0 ≤ m'.count)
    (hlen : m.count ≤ b'.length) (ms : List (Message δ α)) :
    ∃ moves s, run al moves (start ∅ (sendFromLoop (m :: m' :: ms))) = some s ∧
      s.delivered = [(m.dst, b'.take m.count.toNat)] := by
  have hprog : (start ∅ (sendFromLoop (m :: m' :: ms)) : State δ α).program =
      .build 0 (some b) :: .isend 0 m.dst m.count :: .destroy 0 ::
        .build 1 (some b') :: .isend 1 m'.dst m'.count :: .destroy 1 ::
          (buildSendDestroy 2 ms ++ [.waitAll]) := by
    rw [start, sendFromLoop, buildSendDestroy, buildSendDestroy, hb, hb']
    rfl
  obtain ⟨s₁, hturn₁, hprog₁, hheap₁, hpend₁, hdel₁⟩ := run_turn_destroy al hprog hm
  obtain ⟨s₂, hturn₂, -, hheap₂, -, hpend₂, hdel₂⟩ := run_turn al hprog₁ hm'
  have hempty : s₁.heap = ∅ := by
    rw [hheap₁]
    apply Finmap.ext_lookup
    intro a
    by_cases ha : a = (Heap.alloc al ∅ b).1
    · rw [ha]
      exact Finmap.lookup_erase _ _
    · exact (Finmap.lookup_erase_ne ha).trans (Finmap.lookup_insert_of_ne ∅ ha)
  have hbacks := Heap.backs_alloc al (∅ : Heap α) (Nat.le_refl b'.length) (holds_self b')
  rw [hempty] at hheap₂
  have hread : s₂.heap.read (Heap.alloc al (∅ : Heap α) b).1 0 m.count.toNat =
      some (b'.take m.count.toNat) := by
    rw [hheap₂]
    exact read_prefix hbacks (Int.toNat_le.mpr hlen)
  have hfirst : s₂.pending[0]? = some ⟨m.dst, (Heap.alloc al ∅ b).1, m.count.toNat⟩ := by
    rw [hpend₂, hpend₁]
    rfl
  refine ⟨[.next, .next, .next] ++ ([.next, .next] ++ [.transmit 0]), { s₂ with
    pending := s₂.pending.eraseIdx 0
    delivered := s₂.delivered ++ [(m.dst, b'.take m.count.toNat)] }, ?_, ?_⟩
  · rw [run_append, hturn₁, Option.bind_some, run_append, hturn₂, Option.bind_some, run, step,
      hfirst]
    dsimp only
    rw [hread]
    rfl
  · dsimp only
    rw [hdel₂, hdel₁]
    rfl

/-- A message local to the loop is read after its end, whatever it is. -/
theorem sendFromLoop_delivers_iff {ms : List (Message δ α)} :
    Delivers (sendFromLoop ms) (ms.map Message.built) ↔ ms = [] := by
  constructor
  · intro h
    cases ms with
    | nil => rfl
    | cons m ms =>
      exfalso
      obtain ⟨moves, hnone⟩ := undefined_of_loop growingAllocator m ms
      obtain ⟨s, hsome, -⟩ := h growingAllocator ∅ moves
      rw [hnone] at hsome
      cases hsome
  · rintro rfl
    exact delivers_of_careful rfl

end ActiveBsp.Library.PendingSends
