import Lunchbox.BitOperation

set_option autoImplicit false

/-! # The addresses of vector elements

`getIndexOfLastBit` on 64-bit words, with the count of leading zeros that the compiler has for it
and with the loop that is used without one, and the address that `operator[]` computes from it.
The addresses of the first `2 ^ nSlots - 1` elements are exactly the places in `nSlots` slots, in
the order of the elements (`addressing_bijective`).
-/

namespace Lunchbox

/-- `getIndexOfLastBit<uint64_t>` with `__GNUC__`. -/
def getIndexOfLastBitClz (value : BitVec 64) : Int :=
  if value ≠ 0 then 63 - value.clz.toNat else -1

/-- The slot and the index that `operator[]` computes. -/
def address (i : BitVec 64) : Int × BitVec 64 :=
  let i := i + 1
  let slot := getIndexOfLastBitClz i
  (slot, i ^^^ (1#64 <<< slot.toNat))

/-! ## The two forms of `getIndexOfLastBit` -/

theorem clz_lt {value : BitVec 64} (h : value ≠ 0) : value.clz.toNat < 64 :=
  BitVec.lt_def.mp (BitVec.clz_lt_iff_ne_zero.mpr h)

theorem log2_eq_sub_clz {value : BitVec 64} (h : value ≠ 0) :
    value.toNat.log2 = 63 - value.clz.toNat := by
  have hclz := clz_lt h
  have hne : value.toNat ≠ 0 := fun h0 => h (BitVec.eq_of_toNat_eq h0)
  rw [Nat.log2_eq_iff hne]
  refine ⟨BitVec.two_pow_sub_clz_le_toNat_of_ne_zero (by decide) h, ?_⟩
  have hlt : value.toNat < 2 ^ (64 - value.clz.toNat) := BitVec.toNat_lt_two_pow_sub_clz
  rwa [show 63 - value.clz.toNat + 1 = 64 - value.clz.toNat by omega]

/-- **The loop and the count of leading zeros agree.** -/
theorem getIndexOfLastBitClz_eq (value : BitVec 64) :
    getIndexOfLastBitClz value = getIndexOfLastBit value.toNat := by
  by_cases h : value = 0
  · subst h
    rfl
  · have hne : value.toNat ≠ 0 := fun h0 => h (BitVec.eq_of_toNat_eq h0)
    have hclz := clz_lt h
    rw [getIndexOfLastBitClz, if_pos h, getIndexOfLastBit_eq hne, log2_eq_sub_clz h]
    omega

theorem getIndexOfLastBit_bounds {value : Nat} (h : value ≠ 0) :
    ∃ s : Nat, getIndexOfLastBit value = s ∧ 2 ^ s ≤ value ∧ value < 2 ^ (s + 1) :=
  ⟨value.log2, getIndexOfLastBit_eq h, Nat.log2_self_le h, Nat.lt_log2_self⟩

/-! ## Addresses as numbers -/

/-- An element before the wrap of `i + 1`. -/
theorem toNat_succ {i : BitVec 64} (h : i.toNat + 1 < 2 ^ 64) : (i + 1).toNat = i.toNat + 1 := by
  rw [BitVec.toNat_add]
  exact Nat.mod_eq_of_lt h

theorem address_slot {i : BitVec 64} (h : i.toNat + 1 < 2 ^ 64) :
    (address i).1 = slotOf i.toNat := by
  rw [address, getIndexOfLastBitClz_eq, toNat_succ h, getIndexOfLastBit_eq (Nat.succ_ne_zero _)]
  rfl

theorem address_index {i : BitVec 64} (h : i.toNat + 1 < 2 ^ 64) :
    (address i).2.toNat = indexOf i.toNat := by
  have hslot : (getIndexOfLastBitClz (i + 1)).toNat = slotOf i.toNat := by
    have hfst : getIndexOfLastBitClz (i + 1) = slotOf i.toNat := address_slot h
    rw [hfst, Int.toNat_natCast]
  have hpow : 2 ^ slotOf i.toNat < 2 ^ 64 :=
    Nat.lt_of_le_of_lt (two_pow_slotOf_le i.toNat) h
  rw [address, BitVec.toNat_xor, toNat_succ h, hslot, BitVec.toNat_shiftLeft,
    BitVec.toNat_one (by decide), Nat.one_shiftLeft, Nat.mod_eq_of_lt hpow]
  exact xor_slotOf i.toNat

/-- The order of the elements is the lexicographic order of their addresses. -/
theorem lt_iff_address {i j : Nat} :
    i < j ↔ slotOf i < slotOf j ∨ slotOf i = slotOf j ∧ indexOf i < indexOf j := by
  have hi := slotOf_add_indexOf i
  have hj := slotOf_add_indexOf j
  constructor
  · intro h
    rcases Nat.lt_or_eq_of_le (slotOf_mono h.le) with hs | hs
    · exact Or.inl hs
    · refine Or.inr ⟨hs, ?_⟩
      rw [hs] at hi
      omega
  · rintro (hs | ⟨hs, hk⟩)
    · by_contra hle
      have := slotOf_mono (Nat.le_of_not_lt hle)
      omega
    · rw [hs] at hi
      omega

/-! ## The bijection -/

/-- The elements that fit into `nSlots` slots. -/
def Elements (nSlots : Nat) : Set (BitVec 64) := {i | i.toNat < 2 ^ nSlots - 1}

/-- The places in the slots: the slot `s` has `2 ^ s` of them. -/
def Places (nSlots : Nat) : Set (Int × BitVec 64) :=
  {p | 0 ≤ p.1 ∧ p.1 < nSlots ∧ p.2.toNat < 2 ^ p.1.toNat}

variable {nSlots : Nat}

theorem Elements.succ_lt (h : nSlots ≤ 64) {i : BitVec 64} (hi : i ∈ Elements nSlots) :
    i.toNat + 1 < 2 ^ nSlots ∧ i.toNat + 1 < 2 ^ 64 := by
  have hlt : i.toNat < 2 ^ nSlots - 1 := hi
  have hle : 2 ^ nSlots ≤ 2 ^ 64 := Nat.pow_le_pow_right (by decide) h
  omega

theorem address_mem (h : nSlots ≤ 64) {i : BitVec 64} (hi : i ∈ Elements nSlots) :
    address i ∈ Places nSlots := by
  obtain ⟨hn, h64⟩ := Elements.succ_lt h hi
  have hslot := slotOf_lt_iff.mpr hn
  refine ⟨?_, ?_, ?_⟩
  · rw [address_slot h64]
    exact Int.natCast_nonneg _
  · rw [address_slot h64]
    exact Int.ofNat_lt.mpr hslot
  · rw [address_slot h64, address_index h64, Int.toNat_natCast]
    exact indexOf_lt i.toNat

theorem address_injOn (h : nSlots ≤ 64) : Set.InjOn address (Elements nSlots) := by
  intro i hi j hj he
  obtain ⟨-, hi64⟩ := Elements.succ_lt h hi
  obtain ⟨-, hj64⟩ := Elements.succ_lt h hj
  have hslot : (slotOf i.toNat : Int) = slotOf j.toNat := by
    rw [← address_slot hi64, ← address_slot hj64, he]
  have hindex : indexOf i.toNat = indexOf j.toNat := by
    rw [← address_index hi64, ← address_index hj64, he]
  exact BitVec.eq_of_toNat_eq (eq_of_address_eq (Int.ofNat.inj hslot) hindex)

theorem address_surjOn (h : nSlots ≤ 64) :
    Set.SurjOn address (Elements nSlots) (Places nSlots) := by
  rintro ⟨slot, index⟩ ⟨h0, hn, hindex⟩
  simp only at h0 hn hindex
  obtain ⟨s, rfl⟩ := Int.eq_ofNat_of_zero_le h0
  rw [Int.toNat_natCast] at hindex
  have hs : s < nSlots := Int.ofNat_lt.mp hn
  -- the element of the place, with its number below the wrap
  have hpow : 2 ^ (s + 1) ≤ 2 ^ nSlots := Nat.pow_le_pow_right (by decide) hs
  have hle : 2 ^ nSlots ≤ 2 ^ 64 := Nat.pow_le_pow_right (by decide) h
  have hpos : 0 < 2 ^ s := Nat.two_pow_pos s
  rw [pow_succ] at hpow
  have hlt : 2 ^ s - 1 + index.toNat < 2 ^ 64 := by omega
  let i := BitVec.ofNat 64 (2 ^ s - 1 + index.toNat)
  have hi : i.toNat = 2 ^ s - 1 + index.toNat := by
    rw [BitVec.toNat_ofNat]
    exact Nat.mod_eq_of_lt hlt
  have h64 : i.toNat + 1 < 2 ^ 64 := by omega
  obtain ⟨hslot, hidx⟩ := address_of hindex
  refine ⟨i, ?_, Prod.ext ?_ (BitVec.eq_of_toNat_eq ?_)⟩
  · show i.toNat < 2 ^ nSlots - 1
    omega
  · rw [address_slot h64, hi, hslot]
  · rw [address_index h64, hi, hidx]

/-- **Addressing is a bijection.** The two forms of `getIndexOfLastBit` agree, give -1 for 0 and the
position of the most significant bit otherwise; and the elements that fit into `nSlots` slots have
exactly the places of these slots as addresses, in lexicographic order. -/
theorem addressing_bijective (nSlots : Nat) (h : nSlots ≤ 64) :
    (∀ v : BitVec 64, getIndexOfLastBit v.toNat = getIndexOfLastBitClz v ∧
      (getIndexOfLastBitClz v = -1 ↔ v = 0) ∧
      (v ≠ 0 → ∃ s : Nat, getIndexOfLastBitClz v = s ∧ 2 ^ s ≤ v.toNat ∧
        v.toNat < 2 ^ (s + 1))) ∧
    Set.BijOn address (Elements nSlots) (Places nSlots) ∧
    ∀ i ∈ Elements nSlots, ∀ j ∈ Elements nSlots,
      i < j ↔ Prod.Lex (· < ·) (· < ·) (address i) (address j) := by
  refine ⟨fun v => ⟨(getIndexOfLastBitClz_eq v).symm, ?_, ?_⟩, ?_, ?_⟩
  · constructor
    · intro hv
      by_contra h0
      have hclz := clz_lt h0
      rw [getIndexOfLastBitClz, if_pos h0] at hv
      omega
    · rintro rfl
      rfl
  · intro h0
    rw [getIndexOfLastBitClz_eq]
    exact getIndexOfLastBit_bounds fun hz => h0 (BitVec.eq_of_toNat_eq hz)
  · exact ⟨fun i hi => address_mem h hi, address_injOn h, address_surjOn h⟩
  · intro i hi j hj
    obtain ⟨-, hi64⟩ := Elements.succ_lt h hi
    obtain ⟨-, hj64⟩ := Elements.succ_lt h hj
    rw [BitVec.lt_def, lt_iff_address, Prod.lex_def, address_slot hi64, address_slot hj64,
      BitVec.lt_def, address_index hi64, address_index hj64, Int.ofNat_lt, Int.ofNat_inj]

theorem addressing_bijective_default : (32 : Nat) ≤ 64 ∧
    Set.BijOn address (Elements 32) (Places 32) :=
  ⟨by decide, (addressing_bijective 32 (by decide)).2.1⟩

end Lunchbox
