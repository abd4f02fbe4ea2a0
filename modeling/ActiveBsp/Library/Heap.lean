import ActiveBsp.Library.Layout
import Mathlib.Data.Finmap
import Mathlib.Order.Lattice.Nat

/-!
# Places that own blocks

A heap of blocks at addresses, and places that each hold at most one block. The
places own their blocks when every block held is allocated, starts with what it
is held for, and no two places hold the same one. Allocating, deleting and
writing through one place then leaves all other places as they are.
-/
namespace ActiveBsp.Library

open Buffer Layout

set_option autoImplicit false

/-- Blocks by their addresses. -/
abbrev Heap (α : Type) : Type := Finmap fun _ : Nat => List α

/-- Where the next block goes: an address that is not in use. -/
structure Allocator where
  new : Finset Nat → Nat
  fresh : ∀ live, new live ∉ live

/-- Addresses that only grow. -/
def growingAllocator : Allocator where
  new live := live.sup id + 1
  fresh _ hmem := Nat.not_succ_le_self _ (Finset.le_sup (f := id) hmem)

namespace Heap

variable {α ρ : Type}

def alloc (al : Allocator) (h : Heap α) (block : List α) : Nat × Heap α :=
  (al.new h.keys, h.insert (al.new h.keys) block)

/-- Deleting what is not allocated is an error. -/
def delete (h : Heap α) (a : Nat) : Option (Heap α) := if a ∈ h then some (h.erase a) else none

/-- So is writing outside a block. -/
def write (h : Heap α) (a : Nat) (w : Write α) : Option (Heap α) :=
  (h.lookup a).bind fun block => (store block w).map fun block => h.insert a block

def read (h : Heap α) (a pos n : Nat) : Option (List α) :=
  (h.lookup a).bind fun block => load block pos n

/-- A block with at least `size` elements, held for the `contents` it starts with. -/
structure Held (α : Type) where
  addr : Nat
  size : Nat
  contents : List α

/-- The block is there, is large enough, and starts with its contents. -/
def Backs (h : Heap α) (x : Held α) : Prop :=
  ∃ block, h.lookup x.addr = some block ∧ x.size ≤ block.length ∧ Holds block 0 x.contents

structure Owned (h : Heap α) (hold : ρ → Option (Held α)) : Prop where
  backs : ∀ p x, hold p = some x → Backs h x
  apart : ∀ p q x y, hold p = some x → hold q = some y → x.addr = y.addr → p = q

theorem new_notMem (al : Allocator) (h : Heap α) : al.new h.keys ∉ h :=
  fun hmem => al.fresh h.keys (Finmap.mem_keys.mpr hmem)

namespace Backs

variable {h : Heap α} {x : Held α}

theorem mem (hx : Backs h x) : x.addr ∈ h := by
  obtain ⟨block, hlookup, _⟩ := hx
  exact Finmap.mem_of_lookup_eq_some hlookup

theorem insert_of_ne (hx : Backs h x) {a : Nat} (ha : x.addr ≠ a) (block : List α) :
    Backs (h.insert a block) x := by
  obtain ⟨old, hlookup, hsize, hcontents⟩ := hx
  exact ⟨old, by rw [Finmap.lookup_insert_of_ne h ha, hlookup], hsize, hcontents⟩

theorem erase_of_ne (hx : Backs h x) {a : Nat} (ha : x.addr ≠ a) : Backs (h.erase a) x := by
  obtain ⟨old, hlookup, hsize, hcontents⟩ := hx
  exact ⟨old, by rw [Finmap.lookup_erase_ne ha, hlookup], hsize, hcontents⟩

theorem read (hx : Backs h x) : Heap.read h x.addr 0 x.contents.length = some x.contents := by
  obtain ⟨block, hlookup, _, hcontents⟩ := hx
  rw [Heap.read, hlookup]
  exact load_of_holds hcontents

end Backs

theorem backs_alloc (al : Allocator) (h : Heap α) {block contents : List α} {size : Nat}
    (hsize : size ≤ block.length) (hcontents : Holds block 0 contents) :
    Backs (alloc al h block).2 ⟨(alloc al h block).1, size, contents⟩ :=
  ⟨block, Finmap.lookup_insert h, hsize, hcontents⟩

/-- A write inside a block that is large enough. -/
theorem write_of_backs {h : Heap α} {x : Held α} (hx : Backs h x) {pos : Nat} {data : List α}
    (hdata : pos + data.length ≤ x.size) :
    ∃ block, write h x.addr ⟨pos, data⟩ = some (h.insert x.addr block) ∧ x.size ≤ block.length ∧
      Holds block pos data := by
  obtain ⟨block, hlookup, hsize, -⟩ := hx
  have hstop : (Write.mk pos data).stop ≤ block.length := by
    show pos + data.length ≤ block.length
    omega
  refine ⟨splice block pos data, ?_, ?_, holds_splice (w := ⟨pos, data⟩) hstop⟩
  · rw [write, hlookup, Option.bind_some, store, if_pos hstop, Option.map_some]
  · rw [length_splice hstop]
    exact hsize

section Places

variable [DecidableEq ρ] {h : Heap α} {hold : ρ → Option (Held α)} {p q : ρ} {x y : Held α}

namespace Owned

/-- The place holds another block, one that no other place holds. -/
theorem replace {h' : Heap α} (ho : Owned h hold) (hx : Backs h' x)
    (hfree : ∀ q y, q ≠ p → hold q = some y → y.addr ≠ x.addr)
    (hkeep : ∀ q y, q ≠ p → hold q = some y → Backs h' y) :
    Owned h' (Function.update hold p (some x)) := by
  refine ⟨fun q y hq => ?_, fun q r y z hq hr hyz => ?_⟩
  · by_cases hqp : q = p
    · subst hqp
      rw [Function.update_self] at hq
      cases hq
      exact hx
    · rw [Function.update_of_ne hqp] at hq
      exact hkeep q y hqp hq
  · by_cases hqp : q = p
    · subst hqp
      rw [Function.update_self] at hq
      cases hq
      by_cases hrq : r = q
      · exact hrq.symm
      · rw [Function.update_of_ne hrq] at hr
        exact absurd hyz.symm (hfree r z hrq hr)
    · rw [Function.update_of_ne hqp] at hq
      by_cases hrp : r = p
      · subst hrp
        rw [Function.update_self] at hr
        cases hr
        exact absurd hyz (hfree q y hqp hq)
      · rw [Function.update_of_ne hrp] at hr
        exact ho.apart q r y z hq hr hyz

/-- A place may let go of its block. -/
theorem drop (ho : Owned h hold) (p : ρ) : Owned h (Function.update hold p none) := by
  have hsub : ∀ q y, Function.update hold p none q = some y → hold q = some y := by
    intro q y hq
    by_cases hqp : q = p
    · subst hqp
      rw [Function.update_self] at hq
      cases hq
    · rwa [Function.update_of_ne hqp] at hq
  exact ⟨fun q y hq => ho.backs q y (hsub q y hq), fun q r y z hq hr =>
    ho.apart q r y z (hsub q y hq) (hsub r z hr)⟩

theorem alloc (ho : Owned h hold) (al : Allocator) (p : ρ) {block contents : List α} {size : Nat}
    (hsize : size ≤ block.length) (hcontents : Holds block 0 contents) :
    Owned (Heap.alloc al h block).2
      (Function.update hold p (some ⟨(Heap.alloc al h block).1, size, contents⟩)) := by
  have hne : ∀ q y, hold q = some y → y.addr ≠ al.new h.keys := fun q y hq he =>
    new_notMem al h (he ▸ (ho.backs q y hq).mem)
  exact ho.replace (backs_alloc al h hsize hcontents) (fun q y _ hq => hne q y hq)
    fun q y _ hq => (ho.backs q y hq).insert_of_ne (hne q y hq) block

theorem delete (ho : Owned h hold) (hp : hold p = some x) :
    Heap.delete h x.addr = some (h.erase x.addr) ∧
      Owned (h.erase x.addr) (Function.update hold p none) := by
  refine ⟨if_pos (ho.backs p x hp).mem, fun q y hq => ?_, (ho.drop p).apart⟩
  by_cases hqp : q = p
  · subst hqp
    rw [Function.update_self] at hq
    cases hq
  · rw [Function.update_of_ne hqp] at hq
    exact (ho.backs q y hq).erase_of_ne fun he => hqp (ho.apart q p y x hq hp he)

/-- What one place writes into its block no other place sees. -/
theorem rewrite (ho : Owned h hold) (hp : hold p = some x) {block : List α}
    (hsize : y.size ≤ block.length) (haddr : y.addr = x.addr) (hcontents : Holds block 0 y.contents) :
    Owned (h.insert x.addr block) (Function.update hold p (some y)) := by
  have hne : ∀ q z, q ≠ p → hold q = some z → z.addr ≠ x.addr := fun q z hqp hq he =>
    hqp (ho.apart q p z x hq hp he)
  refine ho.replace ⟨block, ?_, hsize, hcontents⟩ (fun q z hqp hq => ?_) fun q z hqp hq => ?_
  · rw [haddr]
    exact Finmap.lookup_insert h
  · rw [haddr]
    exact hne q z hqp hq
  · exact (ho.backs q z hq).insert_of_ne (hne q z hqp hq) block

/-- A block goes from one place to another, which may hold it for less. -/
theorem move (ho : Owned h hold) (hp : hold p = some x) (haddr : y.addr = x.addr)
    (hy : Backs h y) : Owned h (Function.update (Function.update hold p none) q (some y)) := by
  refine (ho.drop p).replace hy (fun r z hrq hr he => ?_) fun r z hrq hr =>
    (ho.drop p).backs r z hr
  by_cases hrp : r = p
  · subst hrp
    rw [Function.update_self] at hr
    cases hr
  · rw [Function.update_of_ne hrp] at hr
    exact hrp (ho.apart r p z x hr hp (he.trans haddr))

omit [DecidableEq ρ] in
/-- The places may be named otherwise. -/
theorem rename (ho : Owned h hold) {f : ρ → ρ} (hf : Function.Injective f) :
    Owned h fun p => hold (f p) :=
  ⟨fun p y hp => ho.backs (f p) y hp, fun p q y z hp hq hyz =>
    hf (ho.apart (f p) (f q) y z hp hq hyz)⟩

end Owned

end Places

end Heap

end ActiveBsp.Library
