import Lunchbox.LFVector.Model

set_option autoImplicit false

/-! # The storage of a vector

What the operations of a vector rely on: an allocated slot has its full length, and the elements
that are stored can be read (`Stores`). A write changes the element it goes to and no other
(`put_spec`), a slot that is not used can be allocated or freed.
-/

namespace Lunchbox.LFVector

variable {T : Type} {P : Params T} {v v' : LFVector T} {xs : List T} {x : T} {i : Nat}

/-! ## Accesses -/

theorem deref_nat (v : LFVector T) (s : Nat) :
    v.deref P (s : Int) = if s < P.nSlots then v.slots s else none := by
  simp [deref]

theorem lastBit_succ (i : Nat) : getIndexOfLastBit (i + 1) = (slotOf i : Int) :=
  getIndexOfLastBit_eq (Nat.succ_ne_zero i)

theorem xor_shift (i : Nat) : (i + 1) ^^^ (1 <<< slotOf i) = indexOf i := by
  rw [Nat.one_shiftLeft, xor_slotOf]

theorem get_eq (v : LFVector T) (i : Nat) : v.get P i = v.load P (slotOf i : Int) (indexOf i) := by
  simp only [get, lastBit_succ, Int.toNat_natCast, xor_shift]

theorem put_eq (v : LFVector T) (i : Nat) (x : T) :
    v.put P i x = v.store P (slotOf i : Int) (indexOf i) x := by
  simp only [put, lastBit_succ, Int.toNat_natCast, xor_shift]

@[simp] theorem setSize_size (v : LFVector T) (n : Nat) : (v.setSize n).size = n := rfl

@[simp] theorem setSize_slots (v : LFVector T) (n : Nat) : (v.setSize n).slots = v.slots := rfl

/-- Reading depends on the slot of the element only. -/
theorem get_congr (h : v'.slots (slotOf i) = v.slots (slotOf i)) : v'.get P i = v.get P i := by
  simp only [get_eq, load, deref_nat, h]

/-- What can be read is in an allocated slot. -/
theorem allocated_of_get (h : v.get P i = some x) :
    slotOf i < P.nSlots ∧ ∃ cells, v.slots (slotOf i) = some cells := by
  rw [get_eq, load, deref_nat] at h
  split_ifs at h with hs
  · cases hc : v.slots (slotOf i) with
    | none => simp [hc] at h
    | some cells => exact ⟨hs, cells, rfl⟩
  · cases h

/-! ## Shape -/

/-- Slots are allocated within `slots_` and in full length. -/
def Shape (P : Params T) (v : LFVector T) : Prop :=
  ∀ s cells, v.slots s = some cells → s < P.nSlots ∧ cells.length = 2 ^ s

theorem shape_new : Shape P (new : LFVector T) := by
  intro s cells h
  cases h

theorem Shape.allocate {s : Nat} (h : Shape P v) (hs : s < P.nSlots) :
    Shape P (v.allocate P s (2 ^ s)) := by
  intro r cells hr
  by_cases hrs : r = s
  · subst hrs
    simp only [LFVector.allocate, Function.update_self, Option.some.injEq] at hr
    rw [← hr, List.length_replicate]
    exact ⟨hs, rfl⟩
  · simp only [LFVector.allocate, Function.update_of_ne hrs] at hr
    exact h r cells hr

theorem Shape.deallocate {s : Nat} (h : Shape P v) : Shape P (v.deallocate s) := by
  intro r cells hr
  by_cases hrs : r = s
  · subst hrs
    simp [LFVector.deallocate] at hr
  · simp only [LFVector.deallocate, Function.update_of_ne hrs] at hr
    exact h r cells hr

/-! ## Writing -/

/-- What a write of the element `i` does. -/
structure Written (P : Params T) (v v' : LFVector T) (i : Nat) (x : T) : Prop where
  size : v'.size = v.size
  shape : Shape P v'
  same : v'.get P i = some x
  other : ∀ j, j ≠ i → v'.get P j = v.get P j
  slots : ∀ s, (v'.slots s).isSome = (v.slots s).isSome

/-- A write changes one element. -/
theorem put_inv (h : v.put P i x = some v') :
    v'.size = v.size ∧ v'.get P i = some x ∧ (∀ j, j ≠ i → v'.get P j = v.get P j) ∧
      ∀ s, (v'.slots s).isSome = (v.slots s).isSome := by
  rw [put_eq, store, deref_nat] at h
  obtain ⟨cells, hd, h⟩ := Option.bind_eq_some_iff.mp h
  split_ifs at hd with hs
  split_ifs at h with hi
  cases h
  refine ⟨rfl, ?_, ?_, ?_⟩
  · simp [get_eq, load, deref_nat, hs, hi]
  · intro j hj
    by_cases hsj : slotOf j = slotOf i
    · -- another index of the same slot
      have hij : indexOf i ≠ indexOf j := fun he => hj (eq_of_address_eq hsj he.symm)
      simp only [get_eq, load, deref_nat, hsj, if_pos hs, Int.toNat_natCast, Function.update_self,
        Option.bind_some, hd, List.getElem?_set_ne hij]
    · exact get_congr (Function.update_of_ne hsj _ _)
  · intro s
    by_cases hsi : s = slotOf i
    · subst hsi
      simp [hd]
    · simp [Function.update_of_ne hsi]

/-- A write to an allocated slot succeeds. -/
theorem put_spec (h : Shape P v) (ha : (v.slots (slotOf i)).isSome) (x : T) :
    ∃ v', v.put P i x = some v' ∧ Written P v v' i x := by
  obtain ⟨cells, hc⟩ := Option.isSome_iff_exists.mp ha
  obtain ⟨hs, hlen⟩ := h _ cells hc
  have hi : indexOf i < cells.length := by
    rw [hlen]
    exact indexOf_lt i
  have hput : v.put P i x = some { v with
      slots := Function.update v.slots (slotOf i) (some (cells.set (indexOf i) (some x))) } := by
    simp only [put_eq, store, deref_nat, if_pos hs, hc, Option.bind_some, if_pos hi,
      Int.toNat_natCast]
  obtain ⟨hsize, hsame, hother, hslots⟩ := put_inv hput
  refine ⟨_, hput, hsize, ?_, hsame, hother, hslots⟩
  intro r cells' hr
  by_cases hrs : r = slotOf i
  · subst hrs
    simp only [Function.update_self, Option.some.injEq] at hr
    rw [← hr, List.length_set]
    exact ⟨hs, hlen⟩
  · simp only [Function.update_of_ne hrs] at hr
    exact h r cells' hr

/-! ## Stored elements -/

/-- The elements `xs` can be read. -/
structure Stores (P : Params T) (v : LFVector T) (xs : List T) : Prop where
  shape : Shape P v
  read : ∀ i x, xs[i]? = some x → v.get P i = some x

theorem Stores.allocated (h : Stores P v xs) (hi : i < xs.length) :
    slotOf i < P.nSlots ∧ (v.slots (slotOf i)).isSome := by
  have hx : xs[i]? = some xs[i] := List.getElem?_eq_getElem hi
  obtain ⟨hs, cells, hc⟩ := allocated_of_get (h.read i _ hx)
  exact ⟨hs, by rw [hc]; rfl⟩

/-- No more elements are stored than the slots have room for. -/
theorem Stores.length_lt (h : Stores P v xs) : xs.length < 2 ^ P.nSlots := by
  cases hn : xs.length with
  | zero => exact Nat.two_pow_pos _
  | succ n => exact slotOf_lt_iff.mp (h.allocated (by omega : n < xs.length)).1

theorem Stores.of_append {ys : List T} (h : Stores P v (xs ++ ys)) : Stores P v xs := by
  refine ⟨h.shape, fun i x hx => h.read i x ?_⟩
  have hi := (List.getElem?_eq_some_iff.mp hx).1
  rw [List.getElem?_append_left hi, hx]

theorem Stores.setSize (h : Stores P v xs) (n : Nat) : Stores P (v.setSize n) xs :=
  ⟨h.shape, h.read⟩

/-- A new slot does not disturb the elements. -/
theorem Stores.allocate {s : Nat} (h : Stores P v xs) (hs : s < P.nSlots)
    (hnone : v.slots s = none) : Stores P (v.allocate P s (2 ^ s)) xs := by
  refine ⟨h.shape.allocate hs, fun i x hx => ?_⟩
  have hi := (List.getElem?_eq_some_iff.mp hx).1
  -- a slot that is null holds no element
  have hne : slotOf i ≠ s := by
    intro he
    have := (h.allocated hi).2
    rw [he, hnone] at this
    cases this
  rw [← h.read i x hx]
  exact get_congr (Function.update_of_ne hne _ _)

@[simp] theorem ensure_size (v : LFVector T) (s n : Nat) : (v.ensure P s n).size = v.size := by
  unfold ensure
  split_ifs <;> rfl

theorem ensure_isSome (v : LFVector T) (s n : Nat) : ((v.ensure P s n).slots s).isSome := by
  unfold ensure
  split_ifs with hs
  · simp [LFVector.allocate]
  · rwa [Option.isNone_iff_eq_none, ← ne_eq, ← Option.isSome_iff_ne_none] at hs

theorem Stores.ensure {s : Nat} (h : Stores P v xs) (hs : s < P.nSlots) :
    Stores P (v.ensure P s (2 ^ s)) xs := by
  unfold LFVector.ensure
  split_ifs with hn
  · exact h.allocate hs (Option.isNone_iff_eq_none.mp hn)
  · exact h

/-- A slot without elements can be freed. -/
theorem Stores.deallocate {s : Nat} (h : Stores P v xs) (hs : ∀ i < xs.length, slotOf i ≠ s) :
    Stores P (v.deallocate s) xs := by
  refine ⟨h.shape.deallocate, fun i x hx => ?_⟩
  have hi := (List.getElem?_eq_some_iff.mp hx).1
  rw [← h.read i x hx]
  exact get_congr (Function.update_of_ne (hs i hi) _ _)

theorem Stores.write (h : Stores P v xs) (hw : Written P v v' i x) : Stores P v' (xs.set i x) := by
  refine ⟨hw.shape, fun j y hy => ?_⟩
  by_cases hj : j = i
  · subst hj
    have hlen := (List.getElem?_eq_some_iff.mp hy).1
    rw [List.length_set] at hlen
    rw [List.getElem?_set_self hlen, Option.some.injEq] at hy
    rw [hw.same, hy]
  · rw [List.getElem?_set_ne (Ne.symm hj)] at hy
    rw [hw.other j hj, h.read j y hy]

/-- A write at the end adds an element. -/
theorem Stores.append (h : Stores P v xs) (hw : Written P v v' xs.length x) :
    Stores P v' (xs ++ [x]) := by
  refine ⟨hw.shape, fun j y hy => ?_⟩
  by_cases hj : j = xs.length
  · subst hj
    rw [List.getElem?_append_right (le_refl _), Nat.sub_self] at hy
    cases hy
    exact hw.same
  · have hlen := (List.getElem?_eq_some_iff.mp hy).1
    rw [List.length_append, List.length_singleton] at hlen
    rw [List.getElem?_append_left (by omega)] at hy
    rw [hw.other j hj, h.read j y hy]

end Lunchbox.LFVector
