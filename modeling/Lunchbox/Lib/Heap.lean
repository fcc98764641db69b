import Mathlib.Data.List.Basic
import Mathlib.Logic.Equiv.Basic
import Lunchbox.Lib.PartialMap

set_option autoImplicit false

/-! # Heaps

Blocks of cells behind pointers. A null pointer is `none` and has no cells, and an access through a
pointer to no block is not defined (`none`). Pointers are names: every block gets a new one, so that
a program that keeps a pointer to a block that is gone does not find another one there.

`Owned` says that a family of pointers owns the heap: each has a block of its own, or is null, and
there are no other blocks. The operations on one pointer keep this, and change the cells of that
pointer only.
-/

namespace Storage

open Function

variable {α ι : Type}

/-! ## Cells -/

/-- The first `n` cells, and new ones if there are less. -/
def resized (l : List α) (n : Nat) (fill : α) : List α :=
  l.take n ++ List.replicate (n - l.length) fill

/-- The cells from `i` on are replaced by `data`. -/
def overwrite (l : List α) (i : Nat) (data : List α) : List α :=
  l.take i ++ (data ++ l.drop (i + data.length))

@[simp] theorem length_resized (l : List α) (n : Nat) (fill : α) :
    (resized l n fill).length = n := by
  simp only [resized, List.length_append, List.length_take, List.length_replicate]
  omega

theorem take_resized {l : List α} {n m : Nat} (fill : α) (hm : m ≤ n) (hl : m ≤ l.length) :
    (resized l n fill).take m = l.take m := by
  rw [resized, List.take_append_of_le_length (by rw [List.length_take]; omega), List.take_take,
    Nat.min_eq_left hm]

theorem length_overwrite {l data : List α} {i : Nat} (h : i + data.length ≤ l.length) :
    (overwrite l i data).length = l.length := by
  simp only [overwrite, List.length_append, List.length_take, List.length_drop]
  omega

theorem take_overwrite {l data : List α} {i : Nat} (h : i + data.length ≤ l.length) :
    (overwrite l i data).take (i + data.length) = l.take i ++ data := by
  have hlen : (l.take i ++ data).length = i + data.length := by
    rw [List.length_append, List.length_take_of_le (by omega)]
  rw [overwrite, ← List.append_assoc, List.take_append_of_le_length (by omega), ← hlen,
    List.take_length]

/-! ## Blocks -/

/-- Blocks behind pointers, and the next pointer that is not used. -/
structure Heap (α : Type) where
  blocks : Nat → Option (List α)
  next : Nat

namespace Heap

def empty : Heap α := ⟨fun _ => none, 0⟩

/-- The cells behind a pointer. -/
def cells (H : Heap α) : Option Nat → Option (List α)
  | none => some []
  | some a => H.blocks a

/-- The blocks without that of the pointer. -/
def without (H : Heap α) : Option Nat → Nat → Option (List α)
  | none => H.blocks
  | some a => update H.blocks a none

def free (H : Heap α) (p : Option Nat) : Option (Heap α) :=
  (H.cells p).map fun _ => { H with blocks := H.without p }

/-- A new block with the first cells of the old one, which is freed. -/
def realloc (H : Heap α) (p : Option Nat) (n : Nat) (fill : α) : Option (Nat × Heap α) :=
  (H.cells p).map fun l =>
    (H.next, ⟨update (H.without p) H.next (some (resized l n fill)), H.next + 1⟩)

/-- Read the first `n` cells. -/
def read (H : Heap α) (p : Option Nat) (n : Nat) : Option (List α) :=
  p.bind fun a => (H.blocks a).bind fun l => if n ≤ l.length then some (l.take n) else none

/-- Write `data` from the cell `i` on. -/
def write (H : Heap α) (p : Option Nat) (i : Nat) (data : List α) : Option (Heap α) :=
  p.bind fun a => (H.blocks a).bind fun l =>
    if i + data.length ≤ l.length then
      some { H with blocks := update H.blocks a (some (overwrite l i data)) }
    else none

/-! ## Ownership -/

/-- The pointers `p` own the heap, and have the cells `c`. -/
structure Owned (H : Heap α) (p : ι → Option Nat) (c : ι → List α) : Prop where
  cells : ∀ k, H.cells (p k) = some (c k)
  injective : PartialMap.Injective p
  fresh : ∀ a, H.next ≤ a → H.blocks a = none
  /-- Nothing is lost. -/
  owner : ∀ a l, H.blocks a = some l → ∃ k, p k = some a

variable {H : Heap α} {p : ι → Option Nat} {c : ι → List α} {k m : ι} {a : Nat}

theorem owned_empty : Owned (empty : Heap α) (fun _ : ι => none) fun _ => [] := by
  refine ⟨fun _ => rfl, ?_, fun _ _ => rfl, ?_⟩
  · intro k k' a h
    cases h
  · intro a l h
    cases h

theorem Owned.block (h : Owned H p c) (hk : p k = some a) : H.blocks a = some (c k) := by
  have := h.cells k
  rwa [hk] at this

theorem Owned.ne_next (h : Owned H p c) (k : ι) : p k ≠ some H.next := by
  intro hk
  have := h.block hk
  rw [h.fresh _ (Nat.le_refl _)] at this
  cases this

theorem Owned.pointer (h : Owned H p c) (hk : c k ≠ []) : ∃ a, p k = some a := by
  cases hp : p k with
  | none =>
      have := h.cells k
      rw [hp] at this
      exact absurd (Option.some.inj this).symm hk
  | some a => exact ⟨a, rfl⟩

/-- The blocks of the other pointers are still there without that of `k`. -/
theorem Owned.without (h : Owned H p c) (hm : m ≠ k) (hp : p m = some a) :
    H.without (p k) a = some (c m) := by
  cases hk : p k with
  | none => exact h.block hp
  | some b =>
      have hab : a ≠ b := fun he => hm (h.injective m k a hp (he ▸ hk))
      exact (update_of_ne hab _ _).trans (h.block hp)

theorem Owned.without_eq (h : Owned H p c) {l : List α} (ha : H.without (p k) a = some l) :
    ∃ m, m ≠ k ∧ p m = some a := by
  cases hk : p k with
  | none =>
      rw [hk] at ha
      obtain ⟨m, hm⟩ := h.owner a l ha
      refine ⟨m, fun he => ?_, hm⟩
      rw [he, hk] at hm
      cases hm
  | some b =>
      rw [hk] at ha
      obtain ⟨hab, ha⟩ := PartialMap.update_none_eq.mp ha
      obtain ⟨m, hm⟩ := h.owner a l ha
      refine ⟨m, fun he => ?_, hm⟩
      rw [he, hk] at hm
      exact hab (Option.some.inj hm).symm

theorem without_of_none (h : H.blocks a = none) (q : Option Nat) : H.without q a = none := by
  cases q with
  | none => exact h
  | some b =>
      by_cases hab : a = b
      · rw [hab]
        exact update_self _ _ _
      · exact (update_of_ne hab _ _).trans h

theorem Owned.read (h : Owned H p c) {n : Nat} (hk : c k ≠ []) (hn : n ≤ (c k).length) :
    H.read (p k) n = some ((c k).take n) := by
  obtain ⟨a, ha⟩ := h.pointer hk
  rw [Heap.read, ha, Option.bind_some, h.block ha, Option.bind_some, if_pos hn]

variable [DecidableEq ι]

/-- **Reallocation.** -/
theorem Owned.realloc (h : Owned H p c) (k : ι) (n : Nat) (fill : α) :
    ∃ H', H.realloc (p k) n fill = some (H.next, H') ∧
      Owned H' (update p k (some H.next)) (update c k (resized (c k) n fill)) := by
  refine ⟨_, by rw [Heap.realloc, h.cells k]; rfl, ?_, ?_, ?_, ?_⟩
  · intro m
    by_cases hm : m = k
    · subst hm
      simp [Heap.cells]
    · rw [update_of_ne hm, update_of_ne hm]
      cases hp : p m with
      | none =>
          have := h.cells m
          rwa [hp] at this
      | some a =>
          have hne : a ≠ H.next := fun he => h.ne_next m (he ▸ hp)
          exact (update_of_ne hne _ _).trans (h.without hm hp)
  · exact h.injective.put h.ne_next k
  · intro a ha
    have hlt : H.next < a := ha
    refine (update_of_ne (Nat.ne_of_gt hlt) _ _).trans ?_
    exact without_of_none (h.fresh a (Nat.le_of_lt hlt)) _
  · intro a l ha
    rcases PartialMap.update_some_eq.mp ha with ⟨rfl, -⟩ | ⟨-, ha⟩
    · exact ⟨k, update_self _ _ _⟩
    · obtain ⟨m, hm, hp⟩ := h.without_eq ha
      exact ⟨m, (update_of_ne hm _ _).trans hp⟩

theorem Owned.free (h : Owned H p c) (k : ι) :
    ∃ H', H.free (p k) = some H' ∧ Owned H' (update p k none) (update c k []) := by
  refine ⟨_, by rw [Heap.free, h.cells k]; rfl, ?_, h.injective.remove k, ?_, ?_⟩
  · intro m
    by_cases hm : m = k
    · subst hm
      simp [Heap.cells]
    · rw [update_of_ne hm, update_of_ne hm]
      cases hp : p m with
      | none =>
          have := h.cells m
          rwa [hp] at this
      | some a => exact h.without hm hp
  · intro a ha
    exact without_of_none (h.fresh a ha) _
  · intro a l ha
    obtain ⟨m, hm, hp⟩ := h.without_eq ha
    exact ⟨m, (update_of_ne hm _ _).trans hp⟩

theorem Owned.write (h : Owned H p c) {i : Nat} {data : List α} (hd : data ≠ [])
    (hi : i + data.length ≤ (c k).length) :
    ∃ H', H.write (p k) i data = some H' ∧ Owned H' p (update c k (overwrite (c k) i data)) := by
  have hpos := List.length_pos_of_ne_nil hd
  obtain ⟨a, ha⟩ := h.pointer (k := k) (List.ne_nil_of_length_pos (by omega))
  refine ⟨{ H with blocks := update H.blocks a (some (overwrite (c k) i data)) }, ?_, ?_,
    h.injective, ?_, ?_⟩
  · rw [Heap.write, ha, Option.bind_some, h.block ha, Option.bind_some, if_pos hi]
  · intro m
    by_cases hm : m = k
    · subst hm
      rw [ha, update_self]
      exact update_self _ _ _
    · rw [update_of_ne hm, ← h.cells m]
      cases hp : p m with
      | none => rfl
      | some b =>
          have hba : b ≠ a := by
            rintro rfl
            exact hm (h.injective m k b hp ha)
          exact update_of_ne hba _ _
  · intro b hb
    refine (update_of_ne (fun he => ?_) _ _).trans (h.fresh b hb)
    have hnone := h.fresh b hb
    rw [he, h.block ha] at hnone
    cases hnone
  · intro b l hb
    rcases PartialMap.update_some_eq.mp hb with ⟨rfl, -⟩ | ⟨-, hb⟩
    · exact ⟨k, ha⟩
    · exact h.owner b l hb

/-- The pointers of two owners are exchanged. -/
theorem Owned.swap (h : Owned H p c) (k m : ι) :
    Owned H (p ∘ Equiv.swap k m) (c ∘ Equiv.swap k m) := by
  refine ⟨fun j => h.cells _, ?_, h.fresh, ?_⟩
  · intro j j' a hj hj'
    exact (Equiv.swap k m).injective (h.injective _ _ a hj hj')
  · intro a l ha
    obtain ⟨j, hj⟩ := h.owner a l ha
    refine ⟨Equiv.swap k m j, ?_⟩
    rwa [comp_apply, Equiv.swap_apply_self]

end Heap

end Storage
