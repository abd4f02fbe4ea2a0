import ActiveBsp.Library.Buffer
import Mathlib.Data.List.Nodup

/-!
# Supersteps

Processes compute between synchronisations and name remote memory by areas that
all of them registered in the same order. Puts carry the data they had at the
call, gets read what is there at the synchronisation, and registrations count
from the next superstep on. A request outside the registered area has no result.
-/
namespace ActiveBsp.Library.Bsp

open Buffer

set_option autoImplicit false

variable {σ ι α : Type*} [DecidableEq ι]

/-- How the objects of a process are read and replaced under their names. -/
structure Memory (σ ι α : Type*) where
  read : σ → ι → Option (List α)
  write : σ → ι → List α → σ

inductive Request (ι α : Type*) where
  | put (dst : Nat) (ident : ι) (offset : Nat) (data : List α)
  | get (src : Nat) (ident : ι) (offset : Nat) (target : ι) (n : Nat)
  | popReg (ident : ι)
  | pushReg (ident : ι) (size : Nat)

/-- A process and the areas that it registered, the newest first. -/
structure Process (σ ι : Type*) where
  state : σ
  areas : List (ι × Nat)

abbrev Team (σ ι : Type*) := Nat → Process σ ι

/-- The place of the newest area of an object, counted from the oldest. -/
def slotOf : List (ι × Nat) → ι → Option Nat
  | [], _ => none
  | area :: areas, ident => if area.1 = ident then some areas.length else slotOf areas ident

def areaAt (areas : List (ι × Nat)) (slot : Nat) : Option (ι × Nat) := areas.reverse[slot]?

/-- What process `q` registered along with the object of `p`, when the window lies inside. -/
def remote (team : Team σ ι) (p q : Nat) (ident : ι) (offset n : Nat) : Option ι :=
  (slotOf (team p).areas ident).bind fun slot =>
    (areaAt (team q).areas slot).bind fun area =>
      if offset + n ≤ area.2 then some area.1 else none

variable (mem : Memory σ ι α)

def store (s : σ) (ident : ι) (offset : Nat) (data : List α) : Option σ :=
  (mem.read s ident).bind fun old =>
    if offset + data.length ≤ old.length then some (mem.write s ident (splice old offset data))
    else none

/-- A get of process `p`, from memory as it is before the synchronisation. -/
def receiveGet (team : Team σ ι) (p : Nat) (s : σ) : Request ι α → Option σ
  | .get src ident offset target n =>
    (remote team p src ident offset n).bind fun area =>
      (mem.read (team src).state area).bind fun data =>
        if offset + n ≤ data.length then store mem s target 0 (slice data offset n) else none
  | _ => some s

/-- A put of process `p` into process `q`. -/
def receivePut (team : Team σ ι) (p q : Nat) (s : σ) : Request ι α → Option σ
  | .put dst ident offset data =>
    if dst = q then
      (remote team p q ident offset data.length).bind fun area => store mem s area offset data
    else some s
  | _ => some s

def register (areas : List (ι × Nat)) : Request ι α → List (ι × Nat)
  | .popReg ident => areas.eraseP fun area => area.1 = ident
  | .pushReg ident size => (ident, size) :: areas
  | _ => areas

/-- The synchronisation, for one of `P` processes. -/
def sync (P : Nat) (team : Team σ ι) (requests : Nat → List (Request ι α)) (p : Nat) :
    Option (Process σ ι) :=
  ((requests p).foldlM (receiveGet mem team p) (team p).state).bind fun s =>
    ((List.range P).foldlM (fun s q => (requests q).foldlM (receivePut mem team q p) s) s).map
      fun s => ⟨s, (requests p).foldl register (team p).areas⟩

variable {mem} {P : Nat} {team : Team σ ι} {requests : Nat → List (Request ι α)} {p : Nat}

def Request.IsPut : Request ι α → Prop
  | .put .. => True
  | _ => False

def Request.IsGet : Request ι α → Prop
  | .get .. => True
  | _ => False

omit [DecidableEq ι] in
theorem store_of_read {s : σ} {ident : ι} {offset : Nat} {old data : List α}
    (hread : mem.read s ident = some old) (hfit : offset + data.length ≤ old.length) :
    store mem s ident offset data = some (mem.write s ident (splice old offset data)) := by
  rw [store, hread, Option.bind_some, if_pos hfit]

theorem foldlM_unmoved {β : Type*} {f : σ → β → Option σ} {l : List β}
    (h : ∀ x ∈ l, ∀ s, f s x = some s) (s : σ) : l.foldlM f s = some s := by
  induction l with
  | nil => rfl
  | cons x l ih =>
    rw [List.foldlM_cons, h x List.mem_cons_self]
    exact ih fun y hy => h y (List.mem_cons_of_mem x hy)

/-- All but one element of a list leave the state as it is. -/
theorem foldlM_single {β : Type*} {f : σ → β → Option σ} {l : List β} {x : β} (hl : l.Nodup)
    (hx : x ∈ l) (h : ∀ y ∈ l, y ≠ x → ∀ s, f s y = some s) (s : σ) : l.foldlM f s = f s x := by
  induction l generalizing s with
  | nil => cases hx
  | cons y l ih =>
    obtain ⟨hy, hrest⟩ := List.nodup_cons.mp hl
    rw [List.foldlM_cons]
    by_cases hyx : y = x
    · subst hyx
      have hstay : ∀ s, l.foldlM f s = some s := foldlM_unmoved fun z hz =>
        h z (List.mem_cons_of_mem y hz) fun hzy => hy (hzy ▸ hz)
      cases hf : f s y with
      | none => rfl
      | some s' => exact hstay s'
    · have hmem : x ∈ l := (List.mem_cons.mp hx).resolve_left fun hxy => hyx hxy.symm
      rw [h y List.mem_cons_self hyx]
      exact ih hrest hmem (fun z hz => h z (List.mem_cons_of_mem y hz)) s

theorem receivePuts_of_none {reqs : List (Request ι α)} (h : ∀ r ∈ reqs, ¬ r.IsPut) (q : Nat)
    (s : σ) : reqs.foldlM (receivePut mem team q p) s = some s := by
  refine foldlM_unmoved (fun r hr s => ?_) s
  cases r with
  | put dst ident offset data => exact absurd trivial (h _ hr)
  | get src ident offset target n => rfl
  | popReg ident => rfl
  | pushReg ident size => rfl

theorem receiveGets_of_none {reqs : List (Request ι α)} (h : ∀ r ∈ reqs, ¬ r.IsGet) (s : σ) :
    reqs.foldlM (receiveGet mem team p) s = some s := by
  refine foldlM_unmoved (fun r hr s => ?_) s
  cases r with
  | get src ident offset target n => exact absurd trivial (h _ hr)
  | put dst ident offset data => rfl
  | popReg ident => rfl
  | pushReg ident size => rfl

/-- No process puts anything: only the gets count. -/
theorem sync_of_no_puts (h : ∀ q < P, ∀ r ∈ requests q, ¬ r.IsPut) {s : σ}
    (hs : (requests p).foldlM (receiveGet mem team p) (team p).state = some s) :
    sync mem P team requests p = some ⟨s, (requests p).foldl register (team p).areas⟩ := by
  have hputs : (List.range P).foldlM (fun s q => (requests q).foldlM (receivePut mem team q p) s) s =
      some s := by
    refine foldlM_unmoved (fun q hq s => ?_) s
    exact receivePuts_of_none (h q (List.mem_range.mp hq)) q s
  rw [sync, hs, Option.bind_some, hputs, Option.map_some]

theorem sync_of_idle (h : ∀ q < P, ∀ r ∈ requests q, ¬ r.IsPut) (hreq : requests p = []) :
    sync mem P team requests p = some (team p) := by
  rw [sync_of_no_puts h (s := (team p).state) (by rw [hreq]; rfl), hreq]
  rfl

/-- One get, of what the source has at the synchronisation. -/
theorem sync_of_get (h : ∀ q < P, ∀ r ∈ requests q, ¬ r.IsPut) {src offset n : Nat}
    {ident area target : ι} {data : List α} {s : σ}
    (hreq : requests p = [.get src ident offset target n])
    (harea : remote team p src ident offset n = some area)
    (hread : mem.read (team src).state area = some data) (hfit : offset + n ≤ data.length)
    (hs : store mem (team p).state target 0 (slice data offset n) = some s) :
    sync mem P team requests p = some ⟨s, (team p).areas⟩ := by
  have hgets : (requests p).foldlM (receiveGet mem team p) (team p).state = some s := by
    rw [hreq, List.foldlM_cons, receiveGet, harea, Option.bind_some, hread, Option.bind_some,
      if_pos hfit, hs]
    rfl
  rw [sync_of_no_puts h hgets, hreq]
  rfl

/-- One process puts the same data into each process. -/
theorem sync_of_broadcast {root : Nat} {ident area : ι} {offset : Nat} {data : List α} {s : σ}
    (hroot : requests root = (List.range P).map fun q => .put q ident offset data)
    (hother : ∀ q < P, q ≠ root → requests q = []) (hr : root < P) (hp : p < P)
    (harea : remote team root p ident offset data.length = some area)
    (hs : store mem (team p).state area offset data = some s) :
    sync mem P team requests p = some ⟨s, (team p).areas⟩ := by
  have hgets : ∀ r ∈ requests p, ¬ r.IsGet := by
    intro r hreq
    by_cases hpr : p = root
    · rw [hpr, hroot] at hreq
      obtain ⟨q, -, rfl⟩ := List.mem_map.mp hreq
      exact id
    · rw [hother p hp hpr] at hreq
      cases hreq
  have hputs : (List.range P).foldlM (fun s q => (requests q).foldlM (receivePut mem team q p) s)
      (team p).state = some s := by
    rw [foldlM_single List.nodup_range (List.mem_range.mpr hr)]
    · rw [hroot, List.foldlM_map, foldlM_single List.nodup_range (List.mem_range.mpr hp)]
      · show receivePut mem team root p (team p).state (.put p ident offset data) = some s
        rw [receivePut, if_pos rfl, harea, Option.bind_some, hs]
      · intro q _ hqp s'
        show receivePut mem team root p s' (.put q ident offset data) = some s'
        rw [receivePut, if_neg hqp]
    · intro q hq hqr s'
      rw [hother q (List.mem_range.mp hq) hqr]
      rfl
  have hareas : (requests p).foldl register (team p).areas = (team p).areas := by
    by_cases hpr : p = root
    · rw [hpr, hroot, List.foldl_map]
      exact List.foldl_fixed _
    · rw [hother p hp hpr]
      rfl
  rw [sync, receiveGets_of_none hgets, Option.bind_some, hputs, Option.map_some, hareas]

end ActiveBsp.Library.Bsp
