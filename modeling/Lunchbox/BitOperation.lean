import Mathlib.Tactic

set_option autoImplicit false

/-! # Bit operations

`getIndexOfLastBit` (`bitOperation.h`) and the address of a vector element that is computed from
it: the element `i` is in the slot of the last bit of `i + 1`, at the index given by the other
bits.
-/

namespace Lunchbox

/-- `while (value) { ++count; value >>= 1; }` -/
def lastBitLoop : Nat → Nat → Int → Int
  | 0, _, count => count
  | fuel + 1, value, count =>
      if value = 0 then count else lastBitLoop fuel (value >>> 1) (count + 1)

/-- The position of the most significant set bit, or -1. The value halves in each round of the
loop, so that as many rounds as its value are enough. -/
def getIndexOfLastBit (value : Nat) : Int := lastBitLoop value value (-1)

theorem lastBitLoop_eq {fuel value : Nat} (h : value ≠ 0) (hf : value ≤ fuel) (count : Int) :
    lastBitLoop fuel value count = count + 1 + value.log2 := by
  induction fuel generalizing value count with
  | zero => omega
  | succ fuel ih =>
      rw [lastBitLoop, if_neg h, Nat.shiftRight_one]
      by_cases h2 : 2 ≤ value
      · -- halving takes one bit away, and the fuel still covers the rest
        have hlog : value.log2 = (value / 2).log2 + 1 := by
          rw [Nat.log2_def, if_pos h2]
        rw [ih (by omega) (by omega), hlog]
        push_cast
        ring
      · have hlog : value.log2 = 0 := by
          rw [Nat.log2_def, if_neg h2]
        have hv : value / 2 = 0 := by omega
        rw [hv, hlog]
        cases fuel with
        | zero => simp [lastBitLoop]
        | succ fuel => simp [lastBitLoop]

theorem getIndexOfLastBit_eq {value : Nat} (h : value ≠ 0) :
    getIndexOfLastBit value = value.log2 := by
  rw [getIndexOfLastBit, lastBitLoop_eq h (le_refl _)]
  ring

/-! ## Addresses -/

/-- The slot of the element `i`. -/
def slotOf (i : Nat) : Nat := (i + 1).log2

/-- The index of the element `i` in its slot. -/
def indexOf (i : Nat) : Nat := i + 1 - 2 ^ slotOf i

theorem two_pow_slotOf_le (i : Nat) : 2 ^ slotOf i ≤ i + 1 := Nat.log2_self_le (Nat.succ_ne_zero i)

theorem lt_two_pow_slotOf (i : Nat) : i + 1 < 2 ^ (slotOf i + 1) := Nat.lt_log2_self

theorem indexOf_lt (i : Nat) : indexOf i < 2 ^ slotOf i := by
  have h1 := two_pow_slotOf_le i
  have h2 := lt_two_pow_slotOf i
  rw [pow_succ] at h2
  unfold indexOf
  omega

theorem slotOf_add_indexOf (i : Nat) : 2 ^ slotOf i + indexOf i = i + 1 := by
  have := two_pow_slotOf_le i
  unfold indexOf
  omega

/-- Different elements have different addresses. -/
theorem eq_of_address_eq {i j : Nat} (hs : slotOf i = slotOf j) (hi : indexOf i = indexOf j) :
    i = j := by
  have h1 := slotOf_add_indexOf i
  have h2 := slotOf_add_indexOf j
  rw [hs, hi] at h1
  omega

theorem slotOf_mono {i j : Nat} (h : i ≤ j) : slotOf i ≤ slotOf j := by
  have h1 : 2 ^ slotOf i < 2 ^ (slotOf j + 1) :=
    calc 2 ^ slotOf i ≤ i + 1 := two_pow_slotOf_le i
      _ ≤ j + 1 := Nat.succ_le_succ h
      _ < 2 ^ (slotOf j + 1) := lt_two_pow_slotOf j
  exact Nat.le_of_lt_succ ((Nat.pow_lt_pow_iff_right (by decide)).mp h1)

theorem slotOf_lt_iff {i n : Nat} : slotOf i < n ↔ i + 1 < 2 ^ n := Nat.log2_lt (Nat.succ_ne_zero i)

/-- The element of an address. -/
theorem address_of {s j : Nat} (h : j < 2 ^ s) :
    slotOf (2 ^ s - 1 + j) = s ∧ indexOf (2 ^ s - 1 + j) = j := by
  have hpos : 0 < 2 ^ s := Nat.two_pow_pos s
  have hsucc : 2 ^ s - 1 + j + 1 = 2 ^ s + j := by omega
  have hs : slotOf (2 ^ s - 1 + j) = s := by
    rw [slotOf, hsucc, Nat.log2_eq_iff (by omega), pow_succ]
    omega
  refine ⟨hs, ?_⟩
  rw [indexOf, hs]
  omega

/-- Clearing the last bit of `i + 1` leaves the index. -/
theorem xor_slotOf (i : Nat) : (i + 1) ^^^ 2 ^ slotOf i = indexOf i := by
  have h := indexOf_lt i
  rw [← slotOf_add_indexOf i]
  generalize slotOf i = s at h ⊢
  generalize indexOf i = r at h ⊢
  -- bit by bit: the index is below the bit that is cleared
  apply Nat.eq_of_testBit_eq
  intro k
  rw [Nat.testBit_xor, Nat.testBit_two_pow]
  rcases Nat.lt_trichotomy k s with hk | rfl | hk
  · rw [Nat.testBit_two_pow_add_gt hk, decide_eq_false (by omega), Bool.xor_false]
  · rw [Nat.testBit_two_pow_add_eq, Nat.testBit_lt_two_pow h]
    simp
  · have h1 : 2 ^ s + r < 2 ^ k :=
      calc 2 ^ s + r < 2 ^ s + 2 ^ s := Nat.add_lt_add_left h _
        _ = 2 ^ (s + 1) := by ring
        _ ≤ 2 ^ k := Nat.pow_le_pow_right (by decide) hk
    have h2 : r < 2 ^ k := by omega
    rw [Nat.testBit_lt_two_pow h1, Nat.testBit_lt_two_pow h2, decide_eq_false (by omega)]
    rfl

end Lunchbox
