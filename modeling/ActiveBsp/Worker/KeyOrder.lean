import ActiveBsp.Worker.Ledger

/-!
# One key manager for both threads

`getInstance` is not locked, so two threads that find no instance could each
make one. The management thread takes a key for a call before the worker sees
it, so only the constructor of the object can be the first to ask beside it.
Where they do not both find nothing, one instance gives all keys, one after
the other.
-/
namespace ActiveBsp.ActorWorker

open Library
open Library.MachineInt

set_option autoImplicit false

variable {Obj : Type}

namespace Keys

/-- The next key of the one instance, made or not. -/
def next (keys : Keys) : Int := (keys.allocated.headD {}).next

/-- At most one manager was allocated, and the instance is that one. -/
def Single (keys : Keys) : Prop :=
  keys = ⟨[], none⟩ ∨ ∃ manager, keys = ⟨[manager], some 0⟩

end Keys

/-- What a thread between two steps of `getInstance()->takeKey()` has found. -/
def KeyPhase.Sound (keys : Keys) : KeyPhase → Prop
  | .reading => True
  | .creating => keys.instance? = none
  | .returning => keys.instance? ≠ none
  | .taking pointer => keys.instance? = some pointer

theorem keyTurn_phase {keys keys' : Keys} {phase phase' : KeyPhase} (hk : keys.Single)
    (hp : phase.Sound keys) (h : keyTurn keys phase = some (.inl phase', keys')) :
    keys'.Single ∧ phase'.Sound keys' ∧ keys'.next = keys.next ∧
      (phase ≠ .creating → keys' = keys) := by
  cases phase with
  | reading =>
    cases h
    refine ⟨hk, ?_, rfl, fun _ => rfl⟩
    by_cases hn : keys.instance? = none
    · rw [if_pos hn]
      exact hn
    · rw [if_neg hn]
      exact hn
  | creating =>
    rcases hk with rfl | ⟨manager, rfl⟩
    · cases h
      exact ⟨.inr ⟨{}, rfl⟩, Option.some_ne_none 0, rfl, fun hn => absurd rfl hn⟩
    · cases hp
  | returning =>
    rcases hk with rfl | ⟨manager, rfl⟩
    · cases h
    · cases h
      exact ⟨.inr ⟨manager, rfl⟩, rfl, rfl, fun _ => rfl⟩
  | taking pointer =>
    rcases hk with rfl | ⟨manager, rfl⟩
    · cases hp
    · cases hp
      cases h

/-- A step that leaves no instance had found none. -/
theorem keyTurn_instance {keys keys' : Keys} {phase phase' : KeyPhase} (hk : keys.Single)
    (hp : phase.Sound keys) (h : keyTurn keys phase = some (.inl phase', keys'))
    (hn : keys'.instance? = none) : keys.instance? = none := by
  by_cases hc : phase = .creating
  · subst hc
    exact hp
  · rwa [(keyTurn_phase hk hp h).2.2.2 hc] at hn

theorem keyTurn_key {keys keys' : Keys} {phase : KeyPhase} {key : Int} (hk : keys.Single)
    (hp : phase.Sound keys) (h : keyTurn keys phase = some (.inr key, keys')) :
    keys'.Single ∧ keys'.instance? = keys.instance? ∧ keys'.instance? ≠ none ∧ key = keys.next ∧
      keys'.next = toInt32 (keys.next + 1) := by
  cases phase with
  | reading => cases h
  | creating => cases h
  | returning =>
    rcases hk with rfl | ⟨manager, rfl⟩ <;> cases h
  | taking pointer =>
    rcases hk with rfl | ⟨manager, rfl⟩
    · cases hp
    · cases hp
      cases h
      exact ⟨.inr ⟨manager.takeKey.2, rfl⟩, rfl, Option.some_ne_none 0, rfl, rfl⟩

theorem keyTurn_keeps_instance {keys keys' : Keys} {phase : KeyPhase} {next : KeyPhase ⊕ Int}
    (h : keyTurn keys phase = some (next, keys')) (hi : keys.instance? ≠ none) :
    keys'.instance? ≠ none := by
  cases phase with
  | reading =>
    cases h
    exact hi
  | creating =>
    cases h
    exact Option.some_ne_none _
  | returning =>
    obtain ⟨pointer, -, hp⟩ := Option.map_eq_some_iff.mp h
    cases hp
    exact hi
  | taking pointer =>
    obtain ⟨manager, -, hm⟩ := Option.map_eq_some_iff.mp h
    cases hm
    exact hi

/-- A thread in `getInstance()->takeKey()` always has a next step. -/
theorem keyTurn_isSome {keys : Keys} {phase : KeyPhase} (hk : keys.Single)
    (hp : phase.Sound keys) : (keyTurn keys phase).isSome := by
  rcases hk with rfl | ⟨manager, rfl⟩
  · cases phase with
    | reading => rfl
    | creating => rfl
    | returning => exact absurd rfl hp
    | taking pointer => cases hp
  · cases phase with
    | taking pointer =>
      cases hp
      rfl
    | _ => rfl

/-- Where the management thread is in `getInstance()->takeKey()`, if it is there. -/
def Manager.keyPhase : Manager → Option KeyPhase
  | .takingKey phase _ => some phase
  | _ => none

def Worker.keyPhase : Worker Obj → Option KeyPhase
  | .takingKey phase _ _ _ => some phase
  | _ => none

/-- A thread that is there has found what it has to. -/
def SoundAt (keys : Keys) : Option KeyPhase → Prop
  | none => True
  | some phase => phase.Sound keys

/-- The threads have not both found that there is no instance, with none of them having made one. -/
def Apart (s : Head Obj) : Prop :=
  ¬ (s.manager.keyPhase = some .creating ∧ s.worker.keyPhase = some .creating)

instance (s : Head Obj) : Decidable (Apart s) := inferInstanceAs (Decidable (¬ (_ ∧ _)))

/-- One manager gave all the keys, and gave them one after the other. -/
structure Counted (first : Int) (events : List Event) (s : Head Obj) : Prop where
  single : s.keys.Single
  manager : SoundAt s.keys s.manager.keyPhase
  worker : SoundAt s.keys s.worker.keyPhase
  unused : s.keys.instance? = none → keysTaken events = []
  consecutive : first + (keysTaken events).length < 2 ^ 31 →
    (keysTaken events).map Prod.snd =
      (List.range (keysTaken events).length).map fun i : Nat => first + (i : Int)
  counted : first + (keysTaken events).length < 2 ^ 31 →
    s.keys.next = first + (keysTaken events).length

section Kept

variable {functions : Functions Obj} {inputs : List Input} {events out : List Event}
  {input : Input} {s s' : Head Obj} {first : Int}

theorem SoundAt.congr {keys keys' : Keys} {phase : Option KeyPhase} (hp : SoundAt keys phase)
    (h : keys'.instance? = keys.instance?) : SoundAt keys' phase := by
  rcases phase with - | phase
  · trivial
  · cases phase with
    | reading => trivial
    | creating => exact h.trans hp
    | returning => exact fun hn => hp (h.symm.trans hn)
    | taking pointer => exact h.trans hp

/-- A step of one thread leaves what the other one has found as it is, unless both create. -/
theorem SoundAt.beside {keys keys' : Keys} {phase phase' : KeyPhase} {other : Option KeyPhase}
    (hk : keys.Single) (hp : phase.Sound keys) (ho : SoundAt keys other)
    (hapart : ¬ (phase = .creating ∧ other = some .creating))
    (h : keyTurn keys phase = some (.inl phase', keys')) : SoundAt keys' other := by
  by_cases hc : phase = .creating
  · subst hc
    rcases other with - | other
    · trivial
    · cases other with
      | reading => trivial
      | creating => exact absurd ⟨rfl, rfl⟩ hapart
      | returning => exact absurd hp ho
      | taking pointer => cases hp.symm.trans ho
  · rw [(keyTurn_phase hk hp h).2.2.2 hc]
    exact ho

theorem Turn.keeps_instance (ht : Turn functions input s out s')
    (hi : s.keys.instance? ≠ none) : s'.keys.instance? ≠ none := by
  cases ht with
  | managerPhase h | callKey h | prefetchKey h | workerPhase h | workerKey h =>
    exact keyTurn_keeps_instance h hi
  | _ => exact hi

/-- Once there is a key manager no thread makes one. -/
theorem apart_of_instance (hm : SoundAt s.keys s.manager.keyPhase)
    (hi : s.keys.instance? ≠ none) : Apart s := by
  rintro ⟨h, -⟩
  rw [h] at hm
  exact hi hm

private theorem keysTaken_snoc (purpose : Purpose) (key : Int) :
    keysTaken (events ++ [.keyTaken purpose key]) = keysTaken events ++ [(purpose, key)] :=
  List.filterMap_append

/-- The next key goes after the keys that were taken. -/
private theorem Counted.key (hc : Counted first events s) (h₀ : 0 ≤ first) {keys : Keys}
    {key : Int} (hkey : key = s.keys.next) (hnext : keys.next = toInt32 (s.keys.next + 1))
    (purpose : Purpose)
    (hbound : first + (keysTaken (events ++ [.keyTaken purpose key])).length < 2 ^ 31) :
    (keysTaken (events ++ [.keyTaken purpose key])).map Prod.snd =
      (List.range (keysTaken (events ++ [.keyTaken purpose key])).length).map
        (fun i : Nat => first + (i : Int)) ∧
    keys.next = first + (keysTaken (events ++ [.keyTaken purpose key])).length := by
  rw [keysTaken_snoc, List.length_append, List.length_singleton] at hbound ⊢
  have hbefore : first + (keysTaken events).length < 2 ^ 31 := by omega
  have hn := hc.counted hbefore
  constructor
  · rw [List.map_append, hc.consecutive hbefore, List.range_succ, List.map_append, hkey, hn]
    rfl
  · rw [hnext, toInt32_of_range (by omega) (by omega), hn]
    omega

/-- A step that takes no key. -/
private theorem Counted.quiet (hc : Counted first events s) (hk : s'.keys = s.keys)
    (hout : keysTaken out = []) (hm : SoundAt s.keys s'.manager.keyPhase)
    (hw : SoundAt s.keys s'.worker.keyPhase) :
    Counted first (events ++ out) s' := by
  have heq : keysTaken (events ++ out) = keysTaken events := by
    rw [keysTaken, List.filterMap_append]
    exact (congrArg _ hout).trans (List.append_nil _)
  rw [← hk] at hm hw
  refine ⟨hk ▸ hc.single, hm, hw, ?_, ?_, ?_⟩
  · rw [heq, hk]
    exact hc.unused
  · rw [heq]
    exact hc.consecutive
  · rw [heq, hk]
    exact hc.counted

theorem Counted.turn (hc : Counted first events s) (h₀ : 0 ≤ first) (ha : Apart s)
    (ht : Turn functions input s out s') : Counted first (events ++ out) s' := by
  cases ht with
  | @managerPhase keys messages worker phase errand phase' keys' h =>
    obtain ⟨hk, hp, hn, hsame⟩ := keyTurn_phase hc.single hc.manager h
    have hother : SoundAt keys' worker.keyPhase :=
      hc.worker.beside hc.single hc.manager (fun hb => ha ⟨congrArg some hb.1, hb.2⟩) h
    rw [List.append_nil]
    refine ⟨hk, hp, hother, ?_, hc.consecutive, fun hbound => hn.trans (hc.counted hbound)⟩
    exact fun hi => hc.unused (keyTurn_instance hc.single hc.manager h hi)
  | @workerPhase keys messages manager phase task buf next phase' keys' learnt h =>
    obtain ⟨hk, hp, hn, hsame⟩ := keyTurn_phase hc.single hc.worker h
    have hother : SoundAt keys' manager.keyPhase :=
      hc.manager.beside hc.single hc.worker (fun hb => ha ⟨hb.2, congrArg some hb.1⟩) h
    rw [List.append_nil]
    refine ⟨hk, hother, hp, ?_, hc.consecutive, fun hbound => hn.trans (hc.counted hbound)⟩
    exact fun hi => hc.unused (keyTurn_instance hc.single hc.worker h hi)
  | callKey h =>
    obtain ⟨hk, hi, hne, hkey, hnext⟩ := keyTurn_key hc.single hc.manager h
    exact ⟨hk, trivial, hc.worker.congr hi, fun hn => absurd hn hne,
      fun hbound => (hc.key h₀ hkey hnext .call hbound).1,
      fun hbound => (hc.key h₀ hkey hnext .call hbound).2⟩
  | prefetchKey h =>
    obtain ⟨hk, hi, hne, hkey, hnext⟩ := keyTurn_key hc.single hc.manager h
    exact ⟨hk, trivial, hc.worker.congr hi, fun hn => absurd hn hne,
      fun hbound => (hc.key h₀ hkey hnext .prefetch hbound).1,
      fun hbound => (hc.key h₀ hkey hnext .prefetch hbound).2⟩
  | workerKey h =>
    obtain ⟨hk, hi, hne, hkey, hnext⟩ := keyTurn_key hc.single hc.worker h
    exact ⟨hk, hc.manager.congr hi, trivial, fun hn => absurd hn hne,
      fun hbound => (hc.key h₀ hkey hnext .part hbound).1,
      fun hbound => (hc.key h₀ hkey hnext .part hbound).2⟩
  | storeResult => exact hc.quiet rfl rfl hc.manager trivial
  | pop | seeStop | start | startUnknown | constructed | finish | learn | store | report =>
    exact hc.quiet rfl rfl hc.manager trivial
  | callActor | prefetch | stopActor | post | respond | postStop | joinAnswer | join =>
    exact hc.quiet rfl rfl trivial hc.worker

end Kept

end ActiveBsp.ActorWorker
