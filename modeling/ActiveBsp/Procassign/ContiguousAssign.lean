import ActiveBsp.Fault
import Mathlib.Algebra.Group.Int.Defs
import Mathlib.Data.List.Basic
import Mathlib.Data.List.Nodup

/-!
# Processes for actors

An allocator hands out the processes of a range from its first on, to each actor
the next ones. A request for more than are left gets none, and those that are
left stay for the next request.
-/
namespace ActiveBsp.Procassign

set_option autoImplicit false

/-- `offset`, ..., `offset + n - 1`. -/
def procs (offset : Int) (n : Nat) : List Int := (List.range n).map fun (i : Nat) => offset + i

/-- `allocate_contiguous_procs`. -/
def allocateContiguousProcs (offset p : Int) : Except Fault (List Int) :=
  -- no vector has that many elements
  if p < 0 then .error .exception
  -- `offset + i` leaves the type
  else if 0 < p ∧ 2 ^ 31 < offset + p then .error .undefined
  else .ok (procs offset p.toNat)

structure ContiguousProcessAllocator where
  offset : Int
  curOffset : Int
  p : Int
  curP : Int
  deriving DecidableEq, Repr

namespace ContiguousProcessAllocator

def new (offset p : Int) : ContiguousProcessAllocator := ⟨offset, offset, p, p⟩

/-- The processes, or how it ends without, and the allocator afterwards. -/
def allocate (a : ContiguousProcessAllocator) (p : Int) :
    Except Fault (List Int) × ContiguousProcessAllocator :=
  if a.curP < p then (.ok [], a)
  else
    match allocateContiguousProcs a.curOffset p with
    | .error e => (.error e, a)
    | .ok pids => (.ok pids, { a with curP := a.curP - p, curOffset := a.curOffset + p })

/-- One request after the other, whether or not one before has thrown. -/
def allocateAll (a : ContiguousProcessAllocator) :
    List Int → List (Except Fault (List Int)) × ContiguousProcessAllocator
  | [] => ([], a)
  | p :: ps => ((a.allocate p).1 :: ((a.allocate p).2.allocateAll ps).1,
      ((a.allocate p).2.allocateAll ps).2)

end ContiguousProcessAllocator

open ContiguousProcessAllocator

/-- All processes that were handed out, in order. -/
def granted (answers : List (Except Fault (List Int))) : List Int :=
  answers.flatMap fun
    | .ok pids => pids
    | .error _ => []

theorem mem_procs {offset pid : Int} {n : Nat} :
    pid ∈ procs offset n ↔ offset ≤ pid ∧ pid < offset + n := by
  rw [procs, List.mem_map]
  constructor
  · rintro ⟨i, hi, rfl⟩
    have hlt := List.mem_range.mp hi
    omega
  · intro h
    exact ⟨(pid - offset).toNat, List.mem_range.mpr (by omega), by omega⟩

theorem nodup_procs (offset : Int) (n : Nat) : (procs offset n).Nodup := by
  refine List.Nodup.map (fun i j h => ?_) List.nodup_range
  have hij : offset + (i : Int) = offset + (j : Int) := h
  omega

theorem procs_append (offset : Int) (m n : Nat) :
    procs offset m ++ procs (offset + m) n = procs offset (m + n) := by
  rw [procs, procs, procs, List.range_add, List.map_append, List.map_map]
  refine congrArg _ (List.map_congr_left fun i _ => ?_)
  change offset + (m : Int) + (i : Int) = offset + ((m + i : Nat) : Int)
  omega

/-- `k` processes of the range have been handed out. -/
def Holds (offset p : Int) (k : Nat) (a : ContiguousProcessAllocator) : Prop :=
  a.curOffset = offset + k ∧ a.curP = p - k ∧ (k : Int) ≤ p

/-- What a request gets when `k` processes of the range have been handed out. -/
def answer (offset p : Int) (k : Nat) (n : Int) : Except Fault (List Int) :=
  if n < 0 then .error .exception
  else if p - k < n then .ok []
  else .ok (procs (offset + k) n.toNat)

variable {offset p : Int} {k : Nat} {a : ContiguousProcessAllocator}

theorem allocate_holds (h : Holds offset p k a) (hlast : offset + p < 2 ^ 31) (n : Int) :
    (a.allocate n).1 = answer offset p k n ∧
      ∃ m, granted [(a.allocate n).1] = procs (offset + k) m ∧
        Holds offset p (k + m) (a.allocate n).2 := by
  obtain ⟨hoffset, hleft, hk⟩ := h
  by_cases hneg : n < 0
  · have hnot : ¬ a.curP < n := by omega
    rw [allocate, if_neg hnot, allocateContiguousProcs, if_pos hneg, answer, if_pos hneg]
    exact ⟨rfl, 0, rfl, hoffset, hleft, hk⟩
  · by_cases hmore : p - k < n
    · rw [allocate, if_pos (by omega), answer, if_neg hneg, if_pos hmore]
      exact ⟨rfl, 0, rfl, hoffset, hleft, hk⟩
    · rw [allocate, if_neg (by omega), allocateContiguousProcs, if_neg hneg, if_neg (by omega),
        answer, if_neg hneg, if_neg hmore, hoffset]
      refine ⟨rfl, n.toNat, List.append_nil _, ?_, ?_, ?_⟩
      · change offset + k + n = offset + ((k + n.toNat : Nat) : Int)
        omega
      · change a.curP - n = p - ((k + n.toNat : Nat) : Int)
        omega
      · omega

theorem allocateAll_holds (h : Holds offset p k a) (hlast : offset + p < 2 ^ 31)
    (requests : List Int) :
    ∃ m, granted (a.allocateAll requests).1 = procs (offset + k) m ∧
      Holds offset p (k + m) (a.allocateAll requests).2 := by
  induction requests generalizing k a with
  | nil => exact ⟨0, rfl, h⟩
  | cons n requests ih =>
    obtain ⟨-, m, hgranted, hm⟩ := allocate_holds h hlast n
    obtain ⟨m', hgranted', hm'⟩ := ih hm
    refine ⟨m + m', ?_, by rw [← Nat.add_assoc]; exact hm'⟩
    have hsplit : granted (a.allocateAll (n :: requests)).1 =
        granted [(a.allocate n).1] ++ granted ((a.allocate n).2.allocateAll requests).1 := by
      rw [granted, granted, granted, allocateAll, ← List.flatMap_append, List.singleton_append]
    rw [hsplit, hgranted, hgranted', ← procs_append]
    push_cast
    rw [Int.add_assoc]

/-- Whatever is asked for, the processes of the range are handed out from the first on without a gap,
so none twice and none outside; and every further request gets as many of the next ones as it asks
for, none when there are not so many, or throws when the number is negative. -/
theorem processes_in_order {offset p : Int} (hp : 0 ≤ p) (hlast : offset + p < 2 ^ 31)
    (requests : List Int) :
    ∃ k : Nat, granted ((new offset p).allocateAll requests).1 = procs offset k ∧ (k : Int) ≤ p ∧
      (granted ((new offset p).allocateAll requests).1).Nodup ∧
      (∀ pid ∈ granted ((new offset p).allocateAll requests).1, offset ≤ pid ∧ pid < offset + p) ∧
      ∀ n, (((new offset p).allocateAll requests).2.allocate n).1 = answer offset p k n := by
  have hnew : Holds offset p 0 (new offset p) :=
    ⟨(Int.add_zero _).symm, (Int.sub_zero _).symm, hp⟩
  obtain ⟨k, hgranted, hk⟩ := allocateAll_holds hnew hlast requests
  rw [Nat.zero_add] at hk
  have hprocs : granted ((new offset p).allocateAll requests).1 = procs offset k := by
    rw [hgranted]
    exact congrArg (procs · k) (Int.add_zero offset)
  have hle := hk.2.2
  rw [hprocs]
  refine ⟨k, rfl, hle, nodup_procs offset k, fun pid hpid => ?_, fun n =>
    (allocate_holds hk hlast n).1⟩
  obtain ⟨hfirst, hend⟩ := mem_procs.mp hpid
  exact ⟨hfirst, by omega⟩

/-- The requests of the allocator's own test, and two that get nothing. -/
theorem processes_in_order_eight : ∃ k : Nat,
    granted ((new 1 8).allocateAll [4, 9, 3, -1]).1 = procs 1 k ∧ (k : Int) ≤ 8 ∧
      (granted ((new 1 8).allocateAll [4, 9, 3, -1]).1).Nodup ∧
      (∀ pid ∈ granted ((new 1 8).allocateAll [4, 9, 3, -1]).1, 1 ≤ pid ∧ pid < 1 + 8) ∧
      ∀ n, (((new 1 8).allocateAll [4, 9, 3, -1]).2.allocate n).1 = answer 1 8 k n :=
  processes_in_order (by decide) (by decide) _

end ActiveBsp.Procassign
