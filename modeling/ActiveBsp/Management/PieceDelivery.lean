import ActiveBsp.Library.Family
import ActiveBsp.Management.Parts

/-!
# The pieces of one part

What a process does with a list of `StoreResultPart` messages for one of its
parts, and with the release of that part before, between or after them.
-/
namespace ActiveBsp.ActorServer

open Library Library.Buffer Library.MachineInt

set_option autoImplicit false

/-- A piece from a source process. -/
abbrev Piece := Int × StoreResultPartMessage

namespace Piece

def input (piece : Piece) : Input := .message piece.1 (.storeResultPart piece.2)

def size (piece : Piece) : Nat := piece.2.data.length

def write (piece : Piece) : Write UInt8 := ⟨piece.2.offset, piece.2.data⟩

end Piece

/-- The pieces are for the part `key` of `size` bytes, and are together no longer than it. -/
structure PiecesFit (key : Int) (size : Nat) (ps : List Piece) : Prop where
  key_eq : ∀ p ∈ ps, p.2.resId = key
  bounded : ∀ p ∈ ps, p.2.offset + p.size ≤ size
  total : (ps.map Piece.size).sum ≤ size
  nonempty : ps ≠ [] → 0 < size

theorem PiecesFit.perm {key : Int} {size : Nat} {ps qs : List Piece} (h : PiecesFit key size ps)
    (hp : ps.Perm qs) : PiecesFit key size qs where
  key_eq p hq := h.key_eq p (hp.mem_iff.mpr hq)
  bounded p hq := h.bounded p (hp.mem_iff.mpr hq)
  total := by
    rw [← (hp.map Piece.size).sum_eq]
    exact h.total
  nonempty hq := h.nonempty fun hps => hq (by rw [hps] at hp; exact hp.nil_eq.symm)

theorem PiecesFit.left {key : Int} {size : Nat} {ps qs : List Piece}
    (h : PiecesFit key size (ps ++ qs)) : PiecesFit key size ps where
  key_eq p hp := h.key_eq p (List.mem_append_left qs hp)
  bounded p hp := h.bounded p (List.mem_append_left qs hp)
  total := by
    have htotal := h.total
    rw [List.map_append, List.sum_append] at htotal
    exact (Nat.le_add_right _ _).trans htotal
  nonempty hp := h.nonempty (List.append_ne_nil_of_left_ne_nil hp qs)

/-- The process takes messages, and its result store is free. -/
structure Ready (s : ActorServer) : Prop where
  receiving : s.phase = .receiving
  running : s.qrun = true
  free : s.resultStoreLock = false

variable {codec : Codec} {s s' : ActorServer} {t : PartTable} {key : Int} {part : Part}
  {ps qs : List Piece}

theorem Ready.update (h : Ready s) (ds : DataStore) : Ready { s with dataStore := ds } :=
  ⟨h.receiving, h.running, h.free⟩

/-- What is left of a part after some writes. -/
structure WrittenBy (part : Part) (ps : List Piece) (part' : Part) : Prop where
  location : part'.location = part.location
  data : part'.data = applyWrites part.data (ps.map Piece.write)
  remaining : part'.remaining = part.remaining - (ps.map Piece.size).sum

theorem WrittenBy.append {part' : Part} {p : Piece} (h : WrittenBy part ps part')
    (hfits : part'.Fits p.2.data p.2.offset) :
    WrittenBy part (ps ++ [p]) (part'.write p.2.data p.2.offset hfits) where
  location := h.location
  data := by
    rw [Part.write_data, h.data, List.map_append, applyWrites_append]
    rfl
  remaining := by
    rw [Part.write_remaining, h.remaining, List.map_append, List.sum_append, Nat.sub_sub]
    rfl

private theorem pieces_written_from (hs : Ready s) (ht : s.dataStore.Represents t)
    (hk : t key = some part) (hkey : ∀ p ∈ ps, p.2.resId = key)
    (hin : ∀ p ∈ ps, p.2.offset + p.size ≤ part.data.length)
    (hsum : (ps.map Piece.size).sum ≤ part.remaining) (hbuf : ps ≠ [] → 0 < part.data.length)
    (h64 : part.data.length < 2 ^ 64) (hpark : RequestsFit part.data.length (s.parked key)) :
    ∃ ds' part', Act.Ends (step codec) (ps.map Piece.input) s { s with dataStore := ds' } ∧
      ds'.Represents (t.set key part') ∧ WrittenBy part ps part' := by
  induction ps generalizing s t part with
  | nil =>
    refine ⟨s.dataStore, part, Act.ends_nil.mpr rfl, ?_, rfl, rfl, rfl⟩
    rw [PartialMap.set_eq_self hk]
    exact ht
  | cons p ps ih =>
    have hp : p.2.resId = key := hkey p List.mem_cons_self
    subst hp
    simp only [List.map_cons, List.sum_cons] at hsum
    have hfits : part.Fits p.2.data p.2.offset :=
      ⟨hin p List.mem_cons_self, (Nat.le_add_right _ _).trans hsum⟩
    have hpos : 0 < part.data.length := hbuf (List.cons_ne_nil p ps)
    have hb : part.buffer = some part.data :=
      (Part.buffer_eq_some_iff part).mpr fun _ => List.ne_nil_of_length_pos hpos
    have hlen : (part.write p.2.data p.2.offset hfits).data.length = part.data.length :=
      length_splice hfits.1
    obtain ⟨ds₁, h₁, ht₁⟩ := handleStoreResultPartMessage_adds hs.free ht hk hb hfits h64 hpark
    obtain ⟨ds₂, part₂, hends, ht₂, hw⟩ := ih (s := { s with dataStore := ds₁ }) (hs.update ds₁) ht₁
      (PartialMap.set_self _ _ _) (fun q hq => hkey q (List.mem_cons_of_mem p hq))
      (fun q hq => hlen ▸ hin q (List.mem_cons_of_mem p hq)) (Nat.le_sub_of_add_le' hsum)
      (fun _ => hlen ▸ hpos) (hlen ▸ h64) (hlen ▸ hpark)
    have hstep : step codec p.input s = _ := (step_message hs.receiving hs.running _ _).trans h₁
    refine ⟨ds₂, part₂, Act.ends_cons.mpr ⟨_, _, hstep, hends⟩, ?_, hw.location, ?_, ?_⟩
    · rwa [PartialMap.set_set] at ht₂
    · rw [hw.data]
      rfl
    · rw [hw.remaining, Part.write_remaining, List.map_cons, List.sum_cons, Nat.sub_sub]
      rfl

/-- Pieces that fit are all written, in any order. -/
theorem pieces_written (codec : Codec) {size : Nat} (hs : Ready s) (ht : s.dataStore.Represents t)
    (hk : t key = some (.prepared size)) (hfit : PiecesFit key size ps) (h64 : size < 2 ^ 64)
    (hpark : RequestsFit size (s.parked key)) :
    ∃ ds' part', Act.Ends (step codec) (ps.map Piece.input) s { s with dataStore := ds' } ∧
      ds'.Represents (t.set key part') ∧ WrittenBy (.prepared size) ps part' := by
  have hlen : (Part.prepared size).data.length = size := List.length_replicate
  exact pieces_written_from hs ht hk hfit.key_eq (by rw [hlen]; exact hfit.bounded) hfit.total
    (by rw [hlen]; exact hfit.nonempty) (by rw [hlen]; exact h64) (by rw [hlen]; exact hpark)

def releaseInput (client key : Int) : Input := .message client (.releaseResult key)

/-- None of the three dictionaries knows the part. -/
structure PartAbsent (s : ActorServer) (key : Int) : Prop where
  dvParts : s.dataStore.dvParts key = none
  vectors : s.dataStore.resultVectorStore key = none
  messages : s.dataStore.resultMsgStore key = none

theorem partAbsent_of_represents (ht : s.dataStore.Represents t) (hk : t key = none) :
    PartAbsent s key := by
  constructor
  · rw [ht.dvParts, hk]
    rfl
  · rw [ht.vectors, hk]
    rfl
  · rw [ht.messages, hk]
    rfl

/-- Pieces for a part that is not there: the first one stops the process. -/
theorem not_ends_of_absent {p : Piece} (hs : Ready s) (ht : s.dataStore.Represents t)
    (hk : t p.2.resId = none) (is : List Input) :
    ¬ ∃ s', Act.Ends (step codec) (p.input :: is) s s' := by
  rintro ⟨s', hends⟩
  obtain ⟨out, s₁, hstep, -⟩ := Act.ends_cons.mp hends
  have hfail : step codec p.input s = ([], .error (.assertion .addDataPart)) :=
    (step_message hs.receiving hs.running _ _).trans
      (handleStoreResultPartMessage_absent hs.free ht hk)
  rw [hfail] at hstep
  cases hstep

private theorem split_at_release {client : Int} {order : List Input}
    (horder : order.Perm (ps.map Piece.input ++ [releaseInput client key])) :
    ∃ qs rs : List Piece, order = qs.map Piece.input ++ releaseInput client key :: rs.map Piece.input ∧
      (qs ++ rs).Perm ps := by
  have hmem : releaseInput client key ∈ order := horder.mem_iff.mpr (by simp)
  obtain ⟨pre, post, rfl⟩ := List.append_of_mem hmem
  have hpp : (pre ++ post).Perm (ps.map Piece.input) := by
    have h₁ : (releaseInput client key :: (pre ++ post)).Perm
        (releaseInput client key :: ps.map Piece.input) :=
      (List.perm_middle.symm.trans horder).trans (List.perm_append_singleton _ _)
    exact h₁.cons_inv
  obtain ⟨us, hus, hperm⟩ : Relation.Comp (· = List.map Piece.input ·) List.Perm (pre ++ post) ps := by
    rw [List.eq_map_comp_perm]
    exact hpp
  obtain ⟨qs, rs, rfl, rfl, rfl⟩ := List.append_eq_map_iff.mp hus
  exact ⟨qs, rs, rfl, hperm⟩

/-- The pieces of a part and its release are handled without a fault, and leave no part,
exactly when the release comes last. -/
theorem release_last_iff {size : Nat} {client : Int} {order : List Input} (hs : Ready s)
    (ht : s.dataStore.Represents t) (hk : t key = some (.prepared size))
    (hfit : PiecesFit key size ps) (h64 : size < 2 ^ 64)
    (hpark : RequestsFit size (s.parked key))
    (horder : order.Perm (ps.map Piece.input ++ [releaseInput client key])) :
    (∃ s', Act.Ends (step codec) order s s' ∧ PartAbsent s' key) ↔
      order.getLast? = some (releaseInput client key) := by
  obtain ⟨qs, rs, rfl, hperm⟩ := split_at_release horder
  have hqs : PiecesFit key size qs := (hfit.perm hperm.symm).left
  obtain ⟨ds₁, part₁, hends, ht₁, -⟩ := pieces_written codec hs ht hk hqs h64 hpark
  obtain ⟨ds₂, hrel, ht₂⟩ := handleReleaseResultPartMessage_removes (hs.update ds₁).free ht₁
    (show (t.set key part₁) key ≠ none by simp)
  have hstep : step codec (releaseInput client key) { s with dataStore := ds₁ } = _ :=
    (step_message (hs.update ds₁).receiving (hs.update ds₁).running _ _).trans hrel
  rw [PartialMap.erase_set] at ht₂
  have habsent : (t.erase key) key = none := PartialMap.erase_self t key
  have hall : ∀ s', Act.Ends (step codec)
        (qs.map Piece.input ++ releaseInput client key :: rs.map Piece.input) s s' ↔
      Act.Ends (step codec) (rs.map Piece.input) { s with dataStore := ds₂ } s' := by
    intro s'
    rw [Act.ends_append]
    constructor
    · rintro ⟨s₁, h₁, h₂⟩
      obtain rfl := h₁.unique hends
      obtain ⟨out, s₂, h₃, h₄⟩ := Act.ends_cons.mp h₂
      rw [hstep] at h₃
      cases h₃
      exact h₄
    · intro h
      exact ⟨_, hends, Act.ends_cons.mpr ⟨_, _, hstep, h⟩⟩
  cases rs with
  | nil =>
    constructor
    · intro _
      simp
    · intro _
      refine ⟨{ s with dataStore := ds₂ }, (hall _).mpr (Act.ends_nil.mpr rfl), ?_⟩
      exact partAbsent_of_represents (s := { s with dataStore := ds₂ }) ht₂ habsent
  | cons p rs =>
    constructor
    · rintro ⟨s', hends', -⟩
      have hp : p.2.resId = key := hfit.key_eq p (hperm.mem_iff.mp (by simp))
      exact absurd ⟨s', (hall s').mp hends'⟩
        (not_ends_of_absent (hs.update ds₂) ht₂ (by rw [hp]; exact habsent) _)
    · intro hlast
      rw [List.append_cons, List.getLast?_append_of_ne_nil _ (by simp)] at hlast
      have hmem : releaseInput client key ∈ (p :: rs).map Piece.input :=
        List.mem_of_getLast? hlast
      obtain ⟨q, -, hq⟩ := List.mem_map.mp hmem
      cases hq

end ActiveBsp.ActorServer
