import ActiveBsp.Library.Lists
import Mathlib.Data.Fintype.EquivFin
import Mathlib.Data.List.Count

/-!
# Ranks by turns

Things that come turn by turn, those of one turn in the order of their list.
The place where one of them comes is counted in the list alone: behind all that
have an earlier turn, and those of its own turn before it.
-/
namespace ActiveBsp.Library.Ranks

set_option autoImplicit false

variable {α β κ : Type} {turn : α → Nat} {l : List α} {n i j : Nat} {x y : α}

/-- The elements with the turns below `n`, in the order of their turns. -/
def byTurn (turn : α → Nat) (n : Nat) (l : List α) : List α :=
  (List.range n).flatMap fun k => l.filter fun x => turn x = k

/-- The place of the element `x` at index `i`. -/
def rank (turn : α → Nat) (l : List α) (i : Nat) (x : α) : Nat :=
  l.countP (fun y => turn y < turn x) + (l.take i).countP fun y => turn y = turn x

theorem byTurn_succ (turn : α → Nat) (n : Nat) (l : List α) :
    byTurn turn (n + 1) l = byTurn turn n l ++ l.filter fun x => turn x = n := by
  simp [byTurn, List.range_succ]

theorem countP_lt_succ (turn : α → Nat) (n : Nat) (l : List α) :
    (l.countP fun x => turn x < n + 1) =
      (l.countP fun x => turn x < n) + l.countP fun x => turn x = n := by
  induction l with
  | nil => rfl
  | cons x l ih =>
    simp only [List.countP_cons, decide_eq_true_eq]
    split_ifs <;> omega

theorem length_byTurn (turn : α → Nat) (n : Nat) (l : List α) :
    (byTurn turn n l).length = l.countP fun x => turn x < n := by
  induction n with
  | zero => simp [byTurn]
  | succ n ih =>
    rw [byTurn_succ, List.length_append, ih, ← List.countP_eq_length_filter, countP_lt_succ]

theorem byTurn_perm (h : ∀ x ∈ l, turn x < n) : (byTurn turn n l).Perm l :=
  Lists.flatMap_filter_perm turn List.nodup_range fun x hx => List.mem_range.mpr (h x hx)

theorem byTurn_of_sorted (h : ∀ x ∈ l, turn x < n)
    (hsorted : l.Pairwise fun x y => turn x ≤ turn y) : byTurn turn n l = l := by
  have hidx : ∀ x ∈ l, (List.range n).idxOf (turn x) = turn x := by
    intro x hx
    have hlt : turn x < (List.range n).length := by
      rw [List.length_range]
      exact h x hx
    simpa using List.nodup_range.idxOf_getElem (turn x) hlt
  refine Lists.flatMap_filter_of_sorted turn (fun x hx => List.mem_range.mpr (h x hx)) ?_
    List.nodup_range
  refine hsorted.imp_of_mem fun hx hy hxy => ?_
  rw [hidx _ hx, hidx _ hy]
  exact hxy

/-- Below an element of a filtered list are those before it that pass. -/
theorem getElem?_filter {p : α → Bool} (h : l[i]? = some x) (hp : p x = true) :
    (l.filter p)[(l.take i).countP p]? = some x := by
  induction l generalizing i with
  | nil => cases h
  | cons y l ih =>
    cases i with
    | zero =>
      cases h
      simp [hp]
    | succ i =>
      have hrest := ih (i := i) (by simpa using h)
      by_cases hy : p y = true
      · rw [List.filter_cons_of_pos hy, List.take_succ_cons, List.countP_cons_of_pos hy]
        exact hrest
      · rw [List.filter_cons_of_neg hy, List.take_succ_cons, List.countP_cons_of_neg hy]
        exact hrest

theorem getElem?_rank (h : l[i]? = some x) (hx : turn x < n) :
    (byTurn turn n l)[rank turn l i x]? = some x := by
  induction n with
  | zero => cases hx
  | succ n ih =>
    rw [byTurn_succ]
    rcases Nat.lt_succ_iff_lt_or_eq.mp hx with hlt | rfl
    · have hget := ih hlt
      rw [List.getElem?_append_left (List.getElem?_eq_some_iff.mp hget).1, hget]
    · rw [List.getElem?_append_right (by rw [length_byTurn]; exact Nat.le_add_right _ _), rank,
        length_byTurn, Nat.add_sub_cancel_left]
      exact getElem?_filter h (decide_eq_true rfl)

theorem countP_take_lt {p : α → Bool} (h : l[i]? = some x) (hp : p x = true) :
    (l.take i).countP p < l.countP p := by
  obtain ⟨hi, hx⟩ := List.getElem?_eq_some_iff.mp h
  have hsplit : l.take i ++ x :: l.drop (i + 1) = l := by
    rw [← hx, List.getElem_cons_drop, List.take_append_drop]
  conv_rhs => rw [← hsplit, List.countP_append, List.countP_cons_of_pos hp]
  omega

theorem countP_lt_add_eq_le {a b : Nat} (hab : a < b) :
    (l.countP fun y => turn y < a) + (l.countP fun y => turn y = a) ≤
      l.countP fun y => turn y < b := by
  rw [← countP_lt_succ]
  apply List.countP_mono_left
  intro y _ hy
  exact decide_eq_true ((of_decide_eq_true hy).trans_le hab)

theorem rank_lt (hi : l[i]? = some x)
    (h : turn x < turn y ∨ turn x = turn y ∧ i < j) : rank turn l i x < rank turn l j y := by
  unfold rank
  rcases h with hlt | ⟨heq, hij⟩
  · have hown := countP_take_lt (p := fun z => turn z = turn x) hi (decide_eq_true rfl)
    have hbelow : l.countP (fun z => turn z < turn x) + l.countP (fun z => turn z = turn x) ≤
        l.countP fun z => turn z < turn y := countP_lt_add_eq_le hlt
    omega
  · have hmem : (l.take j)[i]? = some x := by rw [List.getElem?_take_of_lt hij, hi]
    have hown := countP_take_lt (p := fun z => turn z = turn x) hmem (decide_eq_true rfl)
    rw [List.take_take, Nat.min_eq_left hij.le] at hown
    rw [← heq]
    omega

/-- No two elements come at one place. -/
theorem rank_inj (hi : l[i]? = some x) (hj : l[j]? = some y)
    (h : rank turn l i x = rank turn l j y) : i = j := by
  have hxy : ¬ (turn x < turn y ∨ turn x = turn y ∧ i < j) := fun hlt => (rank_lt hi hlt).ne h
  have hyx : ¬ (turn y < turn x ∨ turn y = turn x ∧ j < i) := fun hlt =>
    (rank_lt hj hlt).ne h.symm
  omega

theorem rank_lt_length (hi : l[i]? = some x) : rank turn l i x < l.length := by
  have hown := countP_take_lt (p := fun z => turn z = turn x) hi (decide_eq_true rfl)
  have hbelow := countP_lt_succ turn (turn x) l
  have hle := List.countP_le_length (p := fun y => turn y < turn x + 1) (l := l)
  unfold rank
  omega

/-- Every place is taken. -/
theorem exists_rank (turn : α → Nat) (hj : j < l.length) :
    ∃ i x, l[i]? = some x ∧ rank turn l i x = j := by
  let place : Fin l.length → Fin l.length := fun i =>
    ⟨rank turn l i l[i], rank_lt_length (List.getElem?_eq_getElem i.2)⟩
  have hinj : Function.Injective place := by
    intro i i' h
    exact Fin.ext (rank_inj (List.getElem?_eq_getElem i.2) (List.getElem?_eq_getElem i'.2)
      (Fin.mk.inj h))
  obtain ⟨i, hi⟩ := Finite.injective_iff_surjective.mp hinj ⟨j, hj⟩
  exact ⟨i, l[i], List.getElem?_eq_getElem i.2, congrArg Fin.val hi⟩

/-- What is made of the elements, turn by turn, is a list made of them in their own order, exactly
when every element makes what is expected of the one in whose place it comes. -/
theorem map_byTurn_eq_iff (h : ∀ x ∈ l, turn x < n) (f g : α → β) :
    (byTurn turn n l).map f = l.map g ↔
      ∀ i x y, l[i]? = some x → l[rank turn l i x]? = some y → f x = g y := by
  have hlen : (byTurn turn n l).length = l.length := (byTurn_perm h).length_eq
  constructor
  · intro heq i x y hi hy
    have hget := getElem?_rank hi (h x (List.mem_of_getElem? hi))
    have hplace := congrArg (fun m : List β => m[rank turn l i x]?) heq
    simpa [hget, hy] using hplace
  · intro hall
    apply List.ext_getElem?
    intro j
    by_cases hj : j < l.length
    · obtain ⟨i, x, hi, rfl⟩ := exists_rank turn hj
      have hget := getElem?_rank hi (h x (List.mem_of_getElem? hi))
      have hy := List.getElem?_eq_getElem hj
      rw [List.getElem?_map, List.getElem?_map, hget, hy, Option.map_some, Option.map_some,
        hall i x _ hi hy]
    · rw [List.getElem?_eq_none (by rw [List.length_map]; omega),
        List.getElem?_eq_none (by rw [List.length_map]; omega)]

theorem byTurn_congr {turn turn' : α → Nat} {n : Nat} {l : List α}
    (h : ∀ x ∈ l, ∀ k < n, turn x = k ↔ turn' x = k) : byTurn turn n l = byTurn turn' n l := by
  refine List.flatMap_congr fun k hk => List.filter_congr fun x hx => ?_
  exact decide_eq_decide.mpr (h x hx k (List.mem_range.mp hk))

/-- Groups by keys are groups by turns when no key that an element has is listed twice. -/
theorem flatMap_filter_eq_byTurn [DecidableEq κ] [BEq κ] [LawfulBEq κ] (g : α → κ) {ks : List κ}
    {l : List α} (h : ∀ x ∈ l, ks.count (g x) ≤ 1) :
    (ks.flatMap fun k => l.filter fun x => g x = k) =
      byTurn (fun x => ks.idxOf (g x)) ks.length l := by
  induction ks using List.reverseRecOn with
  | nil => rfl
  | append_singleton ks k ih =>
    have hidx : ∀ x, (ks ++ [k]).idxOf (g x) =
        if g x ∈ ks then ks.idxOf (g x) else if g x = k then ks.length else ks.length + 1 := by
      intro x
      rw [List.idxOf_append]
      by_cases hx : g x = k
      · simp [hx]
      · simp [hx, Nat.add_comm]
    have hold : ∀ x ∈ l, ks.count (g x) ≤ 1 := by
      intro x hx
      have hcount := h x hx
      rw [List.count_append] at hcount
      omega
    have hlen : (ks ++ [k]).length = ks.length + 1 := List.length_append
    rw [List.flatMap_append, List.flatMap_singleton, ih hold, hlen, byTurn_succ]
    congr 1
    · apply byTurn_congr
      intro x _ j hj
      rw [hidx]
      by_cases hx : g x ∈ ks
      · rw [if_pos hx]
      · rw [if_neg hx, List.idxOf_eq_length hx]
        split_ifs <;> omega
    · refine List.filter_congr fun x hx => decide_eq_decide.mpr ?_
      rw [hidx]
      by_cases hmem : g x ∈ ks
      · have hlt := List.idxOf_lt_length_of_mem hmem
        have hne : g x ≠ k := by
          rintro rfl
          have hcount := h x hx
          have hpos := List.count_pos_iff.mpr hmem
          rw [List.count_append, List.count_singleton_self] at hcount
          omega
        rw [if_pos hmem]
        exact ⟨fun he => absurd he hne, fun he => by omega⟩
      · rw [if_neg hmem]
        split_ifs with he
        · exact ⟨fun _ => rfl, fun _ => he⟩
        · exact ⟨fun hk => absurd hk he, fun hk => by omega⟩

end ActiveBsp.Library.Ranks
