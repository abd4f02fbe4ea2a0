import ActiveBsp.Management.Futures
import ActiveBsp.Serialization.RoundTrip

/-!
# Reads of futures

The manager under registrations, reads and releases of futures, in any order
and for any number of keys. What was handled so far decides the three maps and
the next answer.
-/
namespace ActiveBsp.FutureReads

open Library ActorServer

set_option autoImplicit false

inductive FutureOp where
  | register (data : Bytes)
  | get
  | release
  deriving DecidableEq, Repr

/-- A message about the future `key`. -/
structure FutureMessage where
  src : Int
  key : Int
  op : FutureOp
  deriving DecidableEq, Repr

namespace FutureMessage

def input (m : FutureMessage) : Input :=
  .message m.src <| match m.op with
    | .register data => .registerFutureData m.key data
    | .get => .getFutureData m.key
    | .release => .releaseFuture m.key

def registers (key : Int) (m : FutureMessage) : Option Bytes :=
  match m.op with
  | .register data => if m.key = key then some data else none
  | _ => none

def IsGet (key : Int) (m : FutureMessage) : Prop := m.key = key ∧ m.op = .get

instance (key : Int) (m : FutureMessage) : Decidable (m.IsGet key) :=
  inferInstanceAs (Decidable (_ ∧ _))

def IsRelease (key : Int) (m : FutureMessage) : Prop := m.key = key ∧ m.op = .release

instance (key : Int) (m : FutureMessage) : Decidable (m.IsRelease key) :=
  inferInstanceAs (Decidable (_ ∧ _))

end FutureMessage

def registered (key : Int) (ms : List FutureMessage) : Option Bytes :=
  ms.findSome? (FutureMessage.registers key)

def released (key : Int) (ms : List FutureMessage) : Bool :=
  ms.any fun m => decide (m.IsRelease key)

/-- The senders of the reads, in order. -/
def readers (key : Int) (ms : List FutureMessage) : List Int :=
  (ms.filter fun m => decide (m.IsGet key)).map FutureMessage.src

theorem registered_snoc (key : Int) (ms : List FutureMessage) (m : FutureMessage) :
    registered key (ms ++ [m]) = (registered key ms).or (m.registers key) := by
  simp [registered, List.findSome?_append]

theorem released_snoc (key : Int) (ms : List FutureMessage) (m : FutureMessage) :
    released key (ms ++ [m]) = (released key ms || decide (m.IsRelease key)) := by
  simp [released]

theorem readers_append (key : Int) (ms ms' : List FutureMessage) :
    readers key (ms ++ ms') = readers key ms ++ readers key ms' := by
  simp [readers]

theorem readers_cons (key : Int) (m : FutureMessage) (ms : List FutureMessage) :
    readers key (m :: ms) = (if m.IsGet key then [m.src] else []) ++ readers key ms := by
  by_cases h : m.IsGet key <;> simp [readers, h]

theorem readers_snoc (key : Int) (ms : List FutureMessage) (m : FutureMessage) :
    readers key (ms ++ [m]) = readers key ms ++ if m.IsGet key then [m.src] else [] := by
  rw [readers_append, readers_cons]
  simp [readers]

/-- A key is registered at most once, released at most once, and not read after both. -/
def Allowed (ms : List FutureMessage) (m : FutureMessage) : Prop :=
  match m.op with
  | .register _ => registered m.key ms = none
  | .get => registered m.key ms = none ∨ released m.key ms = false
  | .release => released m.key ms = false

instance (ms : List FutureMessage) : (m : FutureMessage) → Decidable (Allowed ms m)
  | ⟨_, _, .register _⟩ => inferInstanceAs (Decidable (_ = _))
  | ⟨_, _, .get⟩ => inferInstanceAs (Decidable (_ ∨ _))
  | ⟨_, _, .release⟩ => inferInstanceAs (Decidable (_ = _))

def Disciplined (ms : List FutureMessage) : Prop :=
  ∀ i, ∀ h : i < ms.length, Allowed (ms.take i) (ms.get ⟨i, h⟩)

instance (ms : List FutureMessage) : Decidable (Disciplined ms) :=
  inferInstanceAs (Decidable (∀ i, ∀ h : i < ms.length, Allowed (ms.take i) (ms.get ⟨i, h⟩)))

theorem Disciplined.allowed {pre post : List FutureMessage} {m : FutureMessage}
    (h : Disciplined (pre ++ m :: post)) : Allowed pre m := by
  have hi : pre.length < (pre ++ m :: post).length := by simp
  simpa using h pre.length hi

/-- What is sent while `m` is handled after `ms`. -/
def answer (ms : List FutureMessage) (m : FutureMessage) : List Output :=
  match m.op with
  | .register data => (readers m.key ms).map fun src => .futureData src data
  | .get =>
    match registered m.key ms with
    | some data => [.futureData m.src data]
    | none => []
  | .release => []

/-- The answers to `ms` message by message, after `pre`. -/
def answers (pre : List FutureMessage) : List FutureMessage → List (List Output)
  | [] => []
  | m :: ms => answer pre m :: answers (pre ++ [m]) ms

/-- What is sent while the messages about `key` are handled. -/
def keyOutputs (key : Int) (ms : List FutureMessage) (outs : List (List Output)) : List Output :=
  ((ms.zip outs).filter fun mo => decide (mo.1.key = key)).flatMap Prod.snd

/-- The maps hold what the history says. -/
structure Agrees (s : ActorServer) (ms : List FutureMessage) : Prop where
  receiving : s.phase = .receiving
  qrun : s.qrun = true
  askedFetch : ∀ key, s.askedFetch key = none
  stored : ∀ key, s.futureDataStore key = if released key ms then none else registered key ms
  pending : ∀ key, s.pendingFutureRequests key =
    if registered key ms ≠ none ∨ readers key ms = [] then none else some (readers key ms)
  askedDelete : ∀ key, s.askedFutureDelete key =
    (released key ms && (registered key ms).isNone)

variable {codec : Codec} {s s' : ActorServer} {ms : List FutureMessage} {m : FutureMessage}

/-- A message about one key leaves what the history says about the others. -/
private theorem Agrees.snoc (h : Agrees s ms) (hphase : s'.phase = s.phase)
    (hqrun : s'.qrun = s.qrun) (hfetch : s'.askedFetch = s.askedFetch)
    (hother : ∀ k, k ≠ m.key → s'.futureDataStore k = s.futureDataStore k ∧
      s'.pendingFutureRequests k = s.pendingFutureRequests k ∧
      s'.askedFutureDelete k = s.askedFutureDelete k)
    (hstored : s'.futureDataStore m.key =
      if released m.key (ms ++ [m]) then none else registered m.key (ms ++ [m]))
    (hpending : s'.pendingFutureRequests m.key =
      if registered m.key (ms ++ [m]) ≠ none ∨ readers m.key (ms ++ [m]) = [] then none
      else some (readers m.key (ms ++ [m])))
    (hdelete : s'.askedFutureDelete m.key =
      (released m.key (ms ++ [m]) && (registered m.key (ms ++ [m])).isNone)) :
    Agrees s' (ms ++ [m]) := by
  have hreg : ∀ k, k ≠ m.key → registered k (ms ++ [m]) = registered k ms := by
    intro k hk
    have hm : m.registers k = none := by
      unfold FutureMessage.registers
      cases m.op <;> simp [Ne.symm hk]
    rw [registered_snoc, hm, Option.or_none]
  have hrel : ∀ k, k ≠ m.key → released k (ms ++ [m]) = released k ms := by
    intro k hk
    simp [released_snoc, FutureMessage.IsRelease, Ne.symm hk]
  have hread : ∀ k, k ≠ m.key → readers k (ms ++ [m]) = readers k ms := by
    intro k hk
    simp [readers_snoc, FutureMessage.IsGet, Ne.symm hk]
  refine ⟨hphase.trans h.receiving, hqrun.trans h.qrun, fun key => by rw [hfetch, h.askedFetch],
    ?_, ?_, ?_⟩
  · intro k
    by_cases hk : k = m.key
    · rw [hk, hstored]
    · rw [(hother k hk).1, h.stored, hreg k hk, hrel k hk]
  · intro k
    by_cases hk : k = m.key
    · rw [hk, hpending]
    · rw [(hother k hk).2.1, h.pending, hreg k hk, hread k hk]
  · intro k
    by_cases hk : k = m.key
    · rw [hk, hdelete]
    · rw [(hother k hk).2.2, h.askedDelete, hreg k hk, hrel k hk]

private theorem Agrees.step_get (h : Agrees s ms) (hop : m.op = .get)
    (hlate : registered m.key ms = none ∨ released m.key ms = false) :
    ∃ s', step codec m.input s = (answer ms m, .ok ((), s')) ∧ Agrees s' (ms ++ [m]) := by
  have hin : m.input = .message m.src (.getFutureData m.key) := by
    simp only [FutureMessage.input, hop]
  have hreg : m.registers m.key = none := by simp only [FutureMessage.registers, hop]
  have hreg' : registered m.key (ms ++ [m]) = registered m.key ms := by
    rw [registered_snoc, hreg, Option.or_none]
  have hrel' : released m.key (ms ++ [m]) = released m.key ms := by
    simp [released_snoc, FutureMessage.IsRelease, hop]
  have hread' : readers m.key (ms ++ [m]) = readers m.key ms ++ [m.src] := by
    rw [readers_snoc, if_pos ⟨rfl, hop⟩]
  rw [hin, step_message h.receiving h.qrun]
  change ∃ s', handleGetFutureData m.src m.key s = _ ∧ _
  cases hr : registered m.key ms with
  | some data =>
    have hnot : released m.key ms = false := by
      rcases hlate with hl | hl
      · rw [hr] at hl
        cases hl
      · exact hl
    have hdata : s.futureDataStore m.key = some data := by
      rw [h.stored, hnot, hr]
      rfl
    refine ⟨s, ?_, h.snoc rfl rfl rfl (fun k _ => ⟨rfl, rfl, rfl⟩) ?_ ?_ ?_⟩
    · rw [handleGetFutureData_of_some hdata]
      simp only [answer, hop, hr]
    · rw [h.stored, hreg', hrel']
    · rw [h.pending, hreg', hr]
      simp
    · rw [h.askedDelete, hreg', hrel']
  | none =>
    have hdata : s.futureDataStore m.key = none := by
      rw [h.stored, hr]
      simp
    have hpend : (s.pendingFutureRequests m.key).getD [] = readers m.key ms := by
      rw [h.pending, hr]
      by_cases he : readers m.key ms = [] <;> simp [he]
    have hans : answer ms m = [] := by simp only [answer, hop, hr]
    rw [hans]
    refine ⟨_, handleGetFutureData_of_none hdata,
      h.snoc rfl rfl rfl (fun k hk => ⟨rfl, ?_, rfl⟩) ?_ ?_ ?_⟩
    · exact PartialMap.set_of_ne _ _ hk
    · rw [hreg', hrel', ← h.stored]
    · rw [hreg', hr, hread']
      simp [hpend]
    · rw [hreg', hrel', ← h.askedDelete]

private theorem Agrees.step_register (h : Agrees s ms) {data : Bytes}
    (hop : m.op = .register data) (honce : registered m.key ms = none) :
    ∃ s', step codec m.input s = (answer ms m, .ok ((), s')) ∧ Agrees s' (ms ++ [m]) := by
  have hin : m.input = .message m.src (.registerFutureData m.key data) := by
    simp only [FutureMessage.input, hop]
  have hreg' : registered m.key (ms ++ [m]) = some data := by
    simp [registered_snoc, honce, FutureMessage.registers, hop]
  have hrel' : released m.key (ms ++ [m]) = released m.key ms := by
    simp [released_snoc, FutureMessage.IsRelease, hop]
  have hstored : s.futureDataStore m.key = none := by
    rw [h.stored, honce]
    simp
  have hpend := h.pending m.key
  have hflag := h.askedDelete m.key
  rw [honce] at hpend hflag
  simp only [Option.isNone_none, Bool.and_true] at hflag
  rw [hin, step_message h.receiving h.qrun]
  change ∃ s', registerFuture codec m.key data s = _ ∧ _
  by_cases hforget : readers m.key ms = [] ∧ released m.key ms = true
  · obtain ⟨hnone, hrel⟩ := hforget
    have hp : s.pendingFutureRequests m.key = none := by simp [hpend, hnone]
    have hans : answer ms m = [] := by simp only [answer, hop, hnone, List.map_nil]
    rw [hans]
    refine ⟨_, registerFuture_forgets hp (hflag.trans hrel),
      h.snoc rfl rfl rfl (fun k hk => ⟨rfl, rfl, ?_⟩) ?_ ?_ ?_⟩
    · exact Function.update_of_ne hk _ _
    · rw [hrel', hrel, if_pos rfl]
      exact hstored
    · rw [hreg']
      simpa using hp
    · rw [hreg']
      simp
  · have hn : ¬ (s.pendingFutureRequests m.key = none ∧ s.askedFutureDelete m.key = true) := by
      rintro ⟨hp, hd⟩
      rw [hpend] at hp
      refine hforget ⟨?_, hflag.symm.trans hd⟩
      by_contra hne
      simp [hne] at hp
    have hserved : (s.pendingFutureRequests m.key).getD [] = readers m.key ms := by
      rw [hpend]
      by_cases he : readers m.key ms = [] <;> simp [he]
    have hans : answer ms m = ((s.pendingFutureRequests m.key).getD []).map
        (fun pid => .futureData pid data) := by
      simp only [answer, hop, hserved]
    rw [hans]
    refine ⟨_, registerFuture_serves (h.askedFetch m.key) hn,
      h.snoc rfl rfl (PartialMap.erase_of_none (h.askedFetch m.key)) (fun k hk => ⟨?_, ?_, ?_⟩)
        ?_ ?_ ?_⟩
    · exact registered_stored_of_ne hk
    · exact PartialMap.erase_of_ne _ hk
    · exact Function.update_of_ne hk _ _
    · rw [registered_stored, hrel', hreg', hflag]
    · rw [registered_pending, hreg']
      simp
    · rw [registered_askedDelete, hreg']
      simp

private theorem Agrees.step_release (h : Agrees s ms) (hop : m.op = .release)
    (honce : released m.key ms = false) :
    ∃ s', step codec m.input s = (answer ms m, .ok ((), s')) ∧ Agrees s' (ms ++ [m]) := by
  have hin : m.input = .message m.src (.releaseFuture m.key) := by
    simp only [FutureMessage.input, hop]
  have hreg : m.registers m.key = none := by simp only [FutureMessage.registers, hop]
  have hreg' : registered m.key (ms ++ [m]) = registered m.key ms := by
    rw [registered_snoc, hreg, Option.or_none]
  have hrel' : released m.key (ms ++ [m]) = true := by
    simp [released_snoc, FutureMessage.IsRelease, hop]
  have hread' : readers m.key (ms ++ [m]) = readers m.key ms := by
    simp [readers_snoc, FutureMessage.IsGet, hop]
  have hans : answer ms m = [] := by simp only [answer, hop]
  rw [hin, step_message h.receiving h.qrun, hans]
  change ∃ s', handleReleaseFutureMessage m.key s = _ ∧ _
  cases hr : registered m.key ms with
  | some data =>
    have hdata : s.futureDataStore m.key = some data := by
      rw [h.stored, honce, hr]
      rfl
    refine ⟨_, handleReleaseFutureMessage_of_some hdata,
      h.snoc rfl rfl rfl (fun k hk => ⟨?_, rfl, rfl⟩) ?_ ?_ ?_⟩
    · exact PartialMap.erase_of_ne _ hk
    · rw [hrel', if_pos rfl]
      exact PartialMap.erase_self _ _
    · rw [hreg', hread', ← h.pending]
    · rw [hreg', hrel', h.askedDelete, hr]
      simp
  | none =>
    have hdata : s.futureDataStore m.key = none := by
      rw [h.stored, hr]
      simp
    refine ⟨_, handleReleaseFutureMessage_of_none hdata,
      h.snoc rfl rfl rfl (fun k hk => ⟨rfl, rfl, ?_⟩) ?_ ?_ ?_⟩
    · exact Function.update_of_ne hk _ _
    · rw [hrel', if_pos rfl]
      exact hdata
    · rw [hreg', hread', ← h.pending]
    · rw [hreg', hrel', hr]
      exact Function.update_self _ _ _

theorem Agrees.handle (codec : Codec) (hm : Allowed ms m) (h : Agrees s ms) :
    ∃ s', step codec m.input s = (answer ms m, .ok ((), s')) ∧ Agrees s' (ms ++ [m]) := by
  unfold Allowed at hm
  cases hop : m.op with
  | register data => exact h.step_register hop (by simpa only [hop] using hm)
  | get => exact h.step_get hop (by simpa only [hop] using hm)
  | release => exact h.step_release hop (by simpa only [hop] using hm)

private theorem Agrees.run (codec : Codec) (post : List FutureMessage) :
    ∀ (ms pre : List FutureMessage) {s : ActorServer}, Disciplined (pre ++ ms ++ post) →
      Agrees s pre → ∃ s', Act.trace (step codec) (ms.map FutureMessage.input) s =
        (answers pre ms, .ok s') ∧ Agrees s' (pre ++ ms)
  | [], pre, s, _, h => ⟨s, rfl, by simpa using h⟩
  | m :: ms, pre, s, hd, h => by
    have hm : Disciplined (pre ++ m :: (ms ++ post)) := by simpa using hd
    obtain ⟨s₁, hstep, h₁⟩ := h.handle codec hm.allowed
    obtain ⟨s', hrun, h'⟩ := Agrees.run codec post ms (pre ++ [m]) (by simpa using hd) h₁
    refine ⟨s', ?_, by simpa using h'⟩
    rw [List.map_cons, Act.trace_cons_of_ok hstep, hrun]
    rfl

/-- No future is known, asked for or marked. -/
structure FreshFutures (s : ActorServer) : Prop where
  receiving : s.phase = .receiving
  qrun : s.qrun = true
  stored : ∀ key, s.futureDataStore key = none
  pending : ∀ key, s.pendingFutureRequests key = none
  askedDelete : ∀ key, s.askedFutureDelete key = false
  askedFetch : ∀ key, s.askedFetch key = none

private theorem FreshFutures.agrees (h : FreshFutures s) : Agrees s [] where
  receiving := h.receiving
  qrun := h.qrun
  askedFetch := h.askedFetch
  stored := h.stored
  pending := h.pending
  askedDelete := h.askedDelete

private theorem Agrees.stored_or_pending (h : Agrees s ms) (key : Int) :
    s.futureDataStore key = none ∨ s.pendingFutureRequests key = none := by
  cases hr : registered key ms with
  | none =>
    left
    rw [h.stored, hr]
    simp
  | some data =>
    right
    rw [h.pending, hr]
    simp

private theorem Agrees.clean (h : Agrees s ms) {key : Int} (hreg : registered key ms ≠ none)
    (hrel : released key ms = true) :
    s.futureDataStore key = none ∧ s.pendingFutureRequests key = none ∧
      s.askedFutureDelete key = false := by
  refine ⟨?_, ?_, ?_⟩
  · rw [h.stored, if_pos hrel]
  · rw [h.pending, if_pos (Or.inl hreg)]
  · rw [h.askedDelete, Option.isNone_eq_false_iff.mpr (Option.isSome_iff_ne_none.mpr hreg),
      Bool.and_false]

theorem keyOutputs_cons (key : Int) (m : FutureMessage) (ms : List FutureMessage)
    (out : List Output) (outs : List (List Output)) :
    keyOutputs key (m :: ms) (out :: outs) =
      (if m.key = key then out else []) ++ keyOutputs key ms outs := by
  by_cases h : m.key = key <;> simp [keyOutputs, h]

/-- After the registration the reads of a key are answered one by one. -/
private theorem keyOutputs_of_registered {key : Int} {data : Bytes} :
    ∀ (ms pre : List FutureMessage), Disciplined (pre ++ ms) → registered key pre = some data →
      keyOutputs key ms (answers pre ms) = (readers key ms).map (fun src => .futureData src data)
  | [], _, _, _ => rfl
  | m :: ms, pre, hd, hr => by
    have hr' : registered key (pre ++ [m]) = some data := by rw [registered_snoc, hr]; rfl
    have ih := keyOutputs_of_registered ms (pre ++ [m]) (by simpa using hd) hr'
    rw [answers, keyOutputs_cons, ih, readers_cons, List.map_append]
    congr 1
    by_cases hk : m.key = key
    · subst hk
      rw [if_pos rfl]
      cases hop : m.op with
      | register data' =>
        have hm := hd.allowed
        simp [Allowed, hop, hr] at hm
      | get =>
        rw [if_pos (show m.IsGet m.key from ⟨rfl, hop⟩)]
        simp only [answer, hop, hr, List.map_cons, List.map_nil]
      | release =>
        rw [if_neg (fun hg : m.IsGet m.key => nomatch hop.symm.trans hg.2)]
        simp only [answer, hop, List.map_nil]
    · rw [if_neg hk, if_neg (fun hg : m.IsGet key => hk hg.1)]
      rfl

/-- The registration answers the earlier reads, and what follows the later ones. -/
private theorem keyOutputs_of_unregistered {key : Int} :
    ∀ (ms pre : List FutureMessage), Disciplined (pre ++ ms) → registered key pre = none →
      keyOutputs key ms (answers pre ms) = match registered key ms with
        | some data => (readers key (pre ++ ms)).map (fun src => .futureData src data)
        | none => []
  | [], _, _, _ => rfl
  | m :: ms, pre, hd, hr => by
    rw [answers, keyOutputs_cons]
    cases hreg : m.registers key with
    | some data =>
      have hop : m.key = key ∧ m.op = .register data := by
        unfold FutureMessage.registers at hreg
        cases hop : m.op <;> rw [hop] at hreg
        · by_cases hk : m.key = key
          · exact ⟨hk, by simpa [hk] using hreg⟩
          · simp [hk] at hreg
        · cases hreg
        · cases hreg
      obtain ⟨rfl, hop⟩ := hop
      have hr' : registered m.key (pre ++ [m]) = some data := by rw [registered_snoc, hr, hreg]; rfl
      have hfirst : registered m.key (m :: ms) = some data := by
        simp [registered, hreg]
      rw [keyOutputs_of_registered ms _ (by simpa using hd) hr', hfirst, if_pos rfl, readers_append,
        readers_cons, if_neg (fun hg : m.IsGet m.key => nomatch hop.symm.trans hg.2)]
      simp only [answer, hop, List.nil_append, List.map_append]
    | none =>
      have hr' : registered key (pre ++ [m]) = none := by rw [registered_snoc, hr, hreg]; rfl
      have hrest : registered key (m :: ms) = registered key ms := by
        simp [registered, hreg]
      have ih := keyOutputs_of_unregistered ms (pre ++ [m]) (by simpa using hd) hr'
      rw [ih, hrest, List.append_assoc, List.singleton_append]
      have hsilent : (if m.key = key then answer pre m else []) = [] := by
        by_cases hk : m.key = key
        · subst hk
          rw [if_pos rfl]
          cases hop : m.op with
          | register data => simp [FutureMessage.registers, hop] at hreg
          | get => simp only [answer, hop, hr]
          | release => simp only [answer, hop]
        · rw [if_neg hk]
      rw [hsilent, List.nil_append]

/-- Every read of a registered key is answered once, to its sender, with the registered
bytes: at once, or while the registration is handled. Nothing else is sent, no key has data
and readers at the same time, and a key that was registered and released leaves no trace. -/
theorem future_reads_answered (codec : Codec) (s : ActorServer) (hs : FreshFutures s)
    (ms : List FutureMessage) (hms : Disciplined ms) :
    ∃ outs s', Act.trace (step codec) (ms.map FutureMessage.input) s = (outs, .ok s') ∧
      outs = answers [] ms ∧
      (∀ key data, registered key ms = some data →
        keyOutputs key ms outs = (readers key ms).map (fun src => .futureData src data)) ∧
      (∀ key, registered key ms = none → keyOutputs key ms outs = []) ∧
      ∀ pre, pre <+: ms → ∃ s₁,
        Act.trace (step codec) (pre.map FutureMessage.input) s = (answers [] pre, .ok s₁) ∧
        (∀ key, s₁.futureDataStore key = none ∨ s₁.pendingFutureRequests key = none) ∧
        ∀ key, registered key pre ≠ none → released key pre = true →
          s₁.futureDataStore key = none ∧ s₁.pendingFutureRequests key = none ∧
            s₁.askedFutureDelete key = false := by
  obtain ⟨s', hrun, -⟩ := Agrees.run codec [] ms [] (by simpa using hms) hs.agrees
  refine ⟨answers [] ms, s', hrun, rfl, ?_, ?_, ?_⟩
  · intro key data hreg
    rw [keyOutputs_of_unregistered ms [] (by simpa using hms) rfl, hreg]
    rfl
  · intro key hreg
    rw [keyOutputs_of_unregistered ms [] (by simpa using hms) rfl, hreg]
  · rintro pre ⟨post, rfl⟩
    obtain ⟨s₁, hpre, h₁⟩ := Agrees.run codec post pre [] hms hs.agrees
    exact ⟨s₁, hpre, h₁.stored_or_pending, fun key => h₁.clean⟩

theorem freshFutures_init (pid : Int) : FreshFutures { pid := pid } :=
  ⟨rfl, rfl, fun _ => rfl, fun _ => rfl, fun _ => rfl, fun _ => rfl⟩

/-- Reads of two futures around their releases and registrations. -/
def sampleMessages : List FutureMessage :=
  [⟨5, 0, .get⟩, ⟨5, 0, .release⟩, ⟨6, 0, .get⟩, ⟨0, 1, .register [7]⟩, ⟨0, 0, .register [8, 9]⟩,
    ⟨6, 1, .get⟩, ⟨6, 1, .release⟩]

theorem future_reads_answered_sample :
    ∃ outs s', Act.trace (step Serialization.ArchiveFormat.sampleFormat.codec)
        (sampleMessages.map FutureMessage.input) { pid := 0 } = (outs, .ok s') ∧
      outs = [[], [], [], [], [.futureData 5 [8, 9], .futureData 6 [8, 9]], [.futureData 6 [7]],
        []] := by
  obtain ⟨outs, s', hrun, hout, -⟩ := future_reads_answered
    Serialization.ArchiveFormat.sampleFormat.codec { pid := 0 }
    (freshFutures_init 0) sampleMessages (by decide)
  exact ⟨outs, s', hrun, hout.trans (by decide)⟩

end ActiveBsp.FutureReads
