import ActiveBsp.Management.ActorServer
import Mathlib.Data.Fintype.Card

/-!
# The distribution that the head makes

The loop of the handler gives every process of the actor one part, whose bounds
are those of its block of elements, scaled to bytes. While the vector fits an
`int` nothing overflows, and the parts tile it at element boundaries.
-/
namespace ActiveBsp.ActorServer

open Library Library.MachineInt Library.Tiling Distributions.BlockDistribution

set_option autoImplicit false

variable {pids : List Int} {first : Int} {msg : DistributeVectorMessage} {i : Nat}

/-- The key of part `i`, when the head gives `first` next. -/
def localKey (first : Int) : Nat → Int
  | 0 => first
  | i + 1 => toInt32 (localKey first i - 1)

/-- Part `i` as the loop registers it. -/
def distributedPart (pids : List Int) (first : Int) (msg : DistributeVectorMessage) (i : Nat) :
    VectorDistributionPart :=
  let range := divRange msg.n i pids.length
  ⟨pids.getD i 0, localKey first i, mul64 (sub64 range.2 range.1) msg.elemSize,
    mul64 range.1 msg.elemSize⟩

def distribution (pids : List Int) (first : Int) (msg : DistributeVectorMessage) :
    VectorDistribution := ⟨(List.range pids.length).map (distributedPart pids first msg)⟩

theorem distributeParts_eq (pids : List Int) (first : Int) (msg : DistributeVectorMessage) :
    distributeParts pids first msg =
      (distribution pids first msg, localKey first pids.length) := by
  have hfold : ∀ m, (List.range m).foldl (fun acc (i : Nat) =>
      let range := divRange msg.n i pids.length
      let size := sub64 range.2 range.1
      (acc.1.registerPart i ⟨pids.getD i 0, acc.2, mul64 size msg.elemSize,
        mul64 range.1 msg.elemSize⟩, toInt32 (acc.2 - 1)))
        (VectorDistribution.new pids.length, first) =
      ((List.range m).foldl (fun dv i => dv.registerPart i (distributedPart pids first msg i))
        (.new pids.length), localKey first m) := by
    intro m
    induction m with
    | zero => rfl
    | succ m ih =>
      rw [List.range_succ, List.foldl_append, List.foldl_append, ih]
      rfl
  rw [distributeParts, hfold, VectorDistribution.registerPart_all]
  rfl

theorem handleDistributeVectorMessage_eq (src : Int) (s : ActorServer) :
    handleDistributeVectorMessage src msg s =
      ([.distrVector src (distribution s.pids s.nextResultStoreLocalKey msg)],
        .ok ((), { s with
          nextResultStoreLocalKey := localKey s.nextResultStoreLocalKey s.pids.length })) := by
  simp only [handleDistributeVectorMessage, Act.get_bind, Act.modify_bind, Act.emit_apply,
    distributeParts_eq]

/-- Part `i` is block `i`, in bytes. -/
theorem distributedPart_eq (hsmall : msg.n * msg.elemSize < 2 ^ 31) (hp : pids.length < 2 ^ 31)
    (hi : i < pids.length) :
    distributedPart pids first msg i = ⟨pids[i], localKey first i,
      (blockBound msg.n pids.length (i + 1) - blockBound msg.n pids.length i) * msg.elemSize,
      blockBound msg.n pids.length i * msg.elemSize⟩ := by
  have hpid : pids.getD i 0 = pids[i] := by simp [hi]
  rcases Nat.eq_zero_or_pos msg.elemSize with hzero | hpos
  · -- elements of no size: every part is empty, whatever `div_range` says
    simp only [distributedPart, hpid, hzero, Nat.mul_zero, mul64, Nat.zero_mod]
  · have hn : msg.n < 2 ^ 31 := lt_of_le_of_lt (Nat.le_mul_of_pos_right _ hpos) hsmall
    have hlo : blockBound msg.n pids.length i ≤ blockBound msg.n pids.length (i + 1) :=
      blockBound_mono _ _ (Nat.le_succ i)
    have hhi : blockBound msg.n pids.length (i + 1) ≤ msg.n := blockBound_le (by omega) hi
    have hsize : (blockBound msg.n pids.length (i + 1) - blockBound msg.n pids.length i) *
        msg.elemSize ≤ msg.n * msg.elemSize := Nat.mul_le_mul_right _ (by omega)
    have hoff : blockBound msg.n pids.length i * msg.elemSize ≤ msg.n * msg.elemSize :=
      Nat.mul_le_mul_right _ (by omega)
    simp only [distributedPart, hpid, divRange_eq hn hi hp]
    rw [sub64_of_le hlo (by omega), mul64_of_lt (by omega), mul64_of_lt (by omega)]

/-- The parts tile the vector. -/
theorem distribution_tiles (hsmall : msg.n * msg.elemSize < 2 ^ 31) (hp : pids.length < 2 ^ 31)
    (hpos : 0 < pids.length) :
    Tiles (distribution pids first msg).spans (msg.n * msg.elemSize) := by
  have hmono : Monotone fun s => blockBound msg.n pids.length s * msg.elemSize := fun s t hst =>
    Nat.mul_le_mul_right _ (blockBound_mono _ _ hst)
  have htiles := tiles_consecutive hmono (by simp) pids.length
  rw [blockBound_last hpos] at htiles
  have hspans : (distribution pids first msg).spans =
      consecutive (fun s => blockBound msg.n pids.length s * msg.elemSize) pids.length := by
    rw [VectorDistribution.spans, distribution, consecutive, List.map_map]
    refine List.map_congr_left fun i hi => ?_
    rw [Function.comp_apply, distributedPart_eq hsmall hp (List.mem_range.mp hi),
      VectorDistributionPart.span, Nat.sub_mul]
  rwa [hspans]

end ActiveBsp.ActorServer
