import Lunchbox.LFVector.Capacity

set_option autoImplicit false

/-! # The sizes of the slots

Five functions compute how many elements the slot `i` has. `LFVector(n)`, `LFVector(n, t)` and
`assign_` shift an `int` of 32 bits, `operator=` and `push_back_unlocked_` shift a `size_t`. The
results are `2 ^ i` for all of them up to the slot 30. A vector with 32 slots, which is the default,
can have a slot 31: it can grow to that size and be assigned, but not be copied.
-/

namespace Lunchbox.LFVector

variable {T : Type} {P : Params T} {v w : LFVector T} {xs ys : List T} {i : Nat}

/-- The functions that allocate slots. -/
inductive Allocator
  /-- `LFVector(n)` -/
  | construct
  /-- `LFVector(n, t)` -/
  | constructFill
  /-- `assign_` -/
  | copy
  /-- `operator=` -/
  | assign
  /-- `push_back_unlocked_` -/
  | pushBack

/-- `size_t(1) << i`, which is not defined from 64 on. -/
def sizeShift (i : Nat) : Option Int := if i < 64 then some (2 ^ i) else none

/-- The number of elements that is computed for the slot `i`. -/
def Allocator.count (i : Nat) : Allocator → Option Int
  | .construct => intShift i
  | .constructFill => (intShift i).map fun sz => sz % 2 ^ 64
  | .copy => intShift i
  | .assign => sizeShift i
  | .pushBack => sizeShift i

/-- The functions that shift a `size_t`. -/
def Allocator.Wide : Allocator → Prop
  | .assign | .pushBack => True
  | .construct | .constructFill | .copy => False

/-! ## Shifts -/

theorem intShift_eq_iff : intShift i = some (2 ^ i) ↔ i < 31 := by
  unfold intShift
  constructor
  · intro h
    split_ifs at h with h31 he
    · exact h31
    · subst he
      cases h
  · intro h
    rw [if_pos h]

/-- Converting the length to `size_t` keeps it up to the slot 30. -/
theorem intShift_size_iff : ((intShift i).map fun sz => sz % 2 ^ 64) = some (2 ^ i) ↔ i < 31 := by
  unfold intShift
  constructor
  · intro h
    split_ifs at h with h31 he
    · exact h31
    · subst he
      norm_num at h
    · cases h
  · intro h
    have hlt : (2 : Int) ^ i < 2 ^ 64 := pow_lt_pow_right₀ (by decide) (by omega)
    rw [if_pos h, Option.map_some, Int.emod_eq_of_lt (by positivity) hlt]

theorem Allocator.count_iff (hi : i < 64) (a : Allocator) :
    a.count i = some (2 ^ i) ↔ a.Wide ∨ i < 31 := by
  cases a with
  | construct => exact intShift_eq_iff.trans (or_iff_right fun h => h).symm
  | constructFill => exact intShift_size_iff.trans (or_iff_right fun h => h).symm
  | copy => exact intShift_eq_iff.trans (or_iff_right fun h => h).symm
  | assign => exact iff_of_true (if_pos hi) (Or.inl trivial)
  | pushBack => exact iff_of_true (if_pos hi) (Or.inl trivial)

/-! ## Copies -/

/-- Constructing a copy of `source` and assigning `source` to `v` give vectors with its elements. -/
def CopiesAgree (P : Params T) (v source : LFVector T) : Prop :=
  ∃ u w, copyConstruct P P.nSlots source = some (true, u) ∧ v.assign P source = some w ∧
    u.elements P = source.elements P ∧ w.elements P = source.elements P

theorem copiesAgree_iff (hv : Rep P v xs) (hw : Rep P w ys) :
    CopiesAgree P v w ↔ ¬ Overshifts P P.nSlots w := by
  rcases copyConstruct_cases hw with ⟨ho, u, hu⟩ | ⟨ho, u, hu, hcopied, -⟩
  · refine iff_of_false ?_ (not_not.mpr ho)
    rintro ⟨u', w', hu', -⟩
    rw [hu] at hu'
    cases hu'
  · obtain ⟨c, hc, hassigned, -⟩ := assign_spec hv hw
    refine iff_of_true ⟨u, c, hu, hc, ?_, ?_⟩ ho
    · rw [hcopied.elements, hw.elements]
    · rw [hassigned.elements, hw.elements]

/-- A vector with `2 ^ 31` elements has a slot 31. -/
theorem overshifts_of_length (hw : Rep P w ys) (hn : 31 < P.nSlots) (hlen : 2 ^ 31 ≤ ys.length) :
    Overshifts P P.nSlots w := by
  refine ⟨hn, hn, fun s hs => ?_⟩
  have hpow : 2 ^ s ≤ 2 ^ 31 := Nat.pow_le_pow_right (by decide) hs
  have hpos : 0 < 2 ^ s := Nat.two_pow_pos s
  have hslot : slotOf (2 ^ s - 1) = s := (address_of hpos).1
  rw [← hslot]
  exact (hw.allocated (by omega)).2

/-- Where there are more than 31 slots, a vector can grow to a size at which it cannot be copied. -/
theorem copy_throws_of_expand {n : Nat} (hslots : 31 < P.nSlots) (hlen : 2 ^ 31 ≤ n)
    (hroom : n < 2 ^ P.nSlots) (x : T) :
    ∃ source u w, new.expand P n x = some (true, source) ∧
      copyConstruct P P.nSlots source = some (false, u) ∧ new.assign P source = some w ∧
      w.size = n := by
  obtain ⟨source, hs, hrep⟩ := expand_spec rep_new n x
  rw [decide_eq_true hroom] at hs
  rw [List.nil_append, List.length_nil, Nat.sub_zero, Nat.min_eq_left (by omega)] at hrep
  have ho := overshifts_of_length hrep hslots (by rwa [List.length_replicate])
  obtain ⟨w, hw, hassigned, -⟩ := assign_spec rep_new hrep
  have hsize := hassigned.size
  rw [List.length_replicate] at hsize
  rcases copyConstruct_cases hrep with ⟨-, u, hu⟩ | ⟨hno, -⟩
  · exact ⟨source, u, w, hs, hu, hw, hsize⟩
  · exact absurd ho hno

/-- **The sizes of the slots.** For every number of slots up to 64, each function computes `2 ^ i`
for a slot `i` exactly if it shifts a `size_t` or `i < 31`. Copy construction and assignment from
the same vector both give its elements exactly if the vector has not all of the slots 0 to 31. -/
theorem slot_sizes_iff (P : Params T) (hP : P.nSlots ≤ 64) :
    (∀ (a : Allocator) (i : Nat), i < P.nSlots → (a.count i = some (2 ^ i) ↔ a.Wide ∨ i < 31)) ∧
    ∀ v source : LFVector T, (∃ xs, Rep P v xs) → (∃ ys, Rep P source ys) →
      (CopiesAgree P v source ↔ ¬ Overshifts P P.nSlots source) := by
  refine ⟨fun a i hi => a.count_iff (by omega), ?_⟩
  rintro v source ⟨xs, hv⟩ ⟨ys, hw⟩
  exact copiesAgree_iff hv hw

theorem slot_sizes_default :
    (numbers 32).nSlots ≤ 64 ∧ (∀ a : Allocator, a.count 30 = some (2 ^ 30)) ∧
      ∃ source, new.expand (numbers 32) 3 7 = some (true, source) ∧
        source.elements (numbers 32) = [some 7, some 7, some 7] ∧
        CopiesAgree (numbers 32) new source := by
  obtain ⟨hcount, hcopies⟩ := slot_sizes_iff (numbers 32) (by decide)
  refine ⟨by decide, fun a => (hcount a 30 (by decide)).mpr (Or.inr (by decide)), ?_⟩
  obtain ⟨source, hs, hrep⟩ := expand_spec (P := numbers 32) rep_new 3 7
  have hexpand : new.expand (numbers 32) 3 7 = some (true, source) := hs
  have hslot : (new.expand (numbers 32) 3 7).map (fun r => (r.2.slots 2).isSome)
      = some false := rfl
  refine ⟨source, hexpand, hrep.elements, ?_⟩
  refine (hcopies new source ⟨[], rep_new⟩ ⟨_, hrep⟩).mpr ?_
  rintro ⟨-, -, hall⟩
  rw [hexpand] at hslot
  exact absurd (hall 2 (by decide)) (by simpa using hslot)

/-- With the default number of slots, a vector can grow to `2 ^ 31` elements, and the assignment
gives a vector with as many. The copy constructor computes a negative length for the slot 31, and
throws. -/
theorem slot_sizes_differ :
    Allocator.copy.count 31 = some (-2 ^ 31) ∧ Allocator.pushBack.count 31 = some (2 ^ 31) ∧
    ∃ source u w, new.expand (numbers 32) (2 ^ 31) 7 = some (true, source) ∧
      copyConstruct (numbers 32) 32 source = some (false, u) ∧
      new.assign (numbers 32) source = some w ∧ w.size = 2 ^ 31 := by
  refine ⟨rfl, rfl, ?_⟩
  have hslots : 31 < (numbers 32).nSlots := by decide
  have hroom : 2 ^ 31 < 2 ^ (numbers 32).nSlots := Nat.pow_lt_pow_right (by decide) hslots
  exact copy_throws_of_expand hslots (Nat.le_refl _) hroom 7

end Lunchbox.LFVector
