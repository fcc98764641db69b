import Lunchbox.IntervalSet.Canonical
import Lunchbox.IntervalSet.Size

set_option autoImplicit false

/-! # Inserting a set into a set

`insert(rhs)` takes each edge of `rhs` as an interval, with the flag of the edge as its end: for
the interval from `a` to `c` it inserts from `a` to 1 and from `c` to 0. The calls have their
arguments in order only if `rhs` is empty or has the element 0 alone (`calls_ordered`), and in that
case the element 1 is inserted as well.
-/

namespace Lunchbox.IntervalSet

variable {A : Arith} {st : IntervalSet} {S : Set Nat}

/-! ## The calls -/

/-- The edges of the set of 0. -/
def zeroOnly : List Edge := [⟨0, true⟩, ⟨0, false⟩]

theorem toElem_flag (h : A.Holds 1) (b : Bool) : A.toElem b.toInt = if b then 1 else 0 := by
  cases b with
  | true => exact h.toElem
  | false => exact (h.of_le (Nat.zero_le 1)).toElem

theorem calls_ordered (hA : A.Holds 1) (h : WellFormed st.intervals) :
    (∀ c ∈ st.insertCalls A, c.1 ≤ c.2) ↔ st.intervals = [] ∨ st.intervals = zeroOnly := by
  have hcalls : (∀ c ∈ st.insertCalls A, c.1 ≤ c.2) ↔
      ∀ e ∈ st.intervals, e.first ≤ if e.second then 1 else 0 := by
    simp only [insertCalls, List.mem_map, forall_exists_index, and_imp, forall_apply_eq_imp_iff₂,
      toElem_flag hA]
  rw [hcalls]
  refine WellFormed.intervals_induction ?_ ?_ h
  · simp
  · intro a c l hac _ hgap _
    constructor
    · intro hle
      have hc : c ≤ 0 := hle ⟨c, false⟩ (by simp)
      have hnil : l = [] := List.eq_nil_iff_forall_not_mem.mpr fun v hv => by
        have h2 := hgap v hv
        have h1 := hle v (by simp [hv])
        split_ifs at h1 <;> omega
      refine Or.inr ?_
      rw [hnil, zeroOnly, show a = 0 by omega, show c = 0 by omega]
    · rintro (hl | hl)
      · cases hl
      · rw [hl]
        simp [zeroOnly]

theorem wellFormed_zeroOnly : WellFormed zeroOnly := by
  refine ⟨?_, by simp [zeroOnly], by simp [zeroOnly]⟩
  rw [zeroOnly, List.isChain_pair]
  exact follows_start.mpr ⟨rfl, le_refl 0⟩

theorem cover_zeroOnly {x : Nat} : cover x false zeroOnly = true ↔ x = 0 := by
  rw [zeroOnly, cover_bounds (by simp)]
  simp [cover]

/-! ## The elements of `rhs` -/

variable {F G : Finset Nat}

theorem intervals_eq_nil (h : WellFormed st.intervals) (hG : ∀ x, x ∈ G ↔ st.exists x = true) :
    st.intervals = [] ↔ G = ∅ := by
  constructor
  · intro hl
    refine Finset.eq_empty_iff_forall_notMem.mpr fun x hx => ?_
    rw [hG, exists_eq_cover h, hl] at hx
    cases hx
  · intro he
    refine eq_of_cover h [] ⟨.nil, by simp, by simp⟩ fun x => ?_
    rw [← exists_eq_cover h, ← hG, he]
    simp [cover]

theorem intervals_eq_zeroOnly (h : WellFormed st.intervals)
    (hG : ∀ x, x ∈ G ↔ st.exists x = true) : st.intervals = zeroOnly ↔ G = {0} := by
  constructor
  · intro hl
    refine Finset.ext fun x => ?_
    rw [hG, exists_eq_cover h, hl, cover_zeroOnly, Finset.mem_singleton]
  · intro he
    refine eq_of_cover h _ wellFormed_zeroOnly fun x => ?_
    rw [← exists_eq_cover h, ← hG, he, cover_zeroOnly, Finset.mem_singleton]

/-! ## The result -/

theorem insertSet_empty {rhs : IntervalSet} (h : rhs.intervals = []) :
    st.insertSet A rhs = st := by
  simp [insertSet, insertCalls, h]

theorem insertSet_zeroOnly (hA : A.Holds 1) {rhs : IntervalSet} (h : rhs.intervals = zeroOnly) :
    st.insertSet A rhs = (st.insert A 0 1).insert A 0 0 := by
  simp [insertSet, insertCalls, h, zeroOnly, toElem_flag hA]

/-- Inserting the set of 0 into a set that is not empty. -/
theorem size_zeroOnly (h : Stores A st S) (hA : A.Holds 1) (hc : A.Counts 0 1)
    (hne : st.intervals ≠ []) :
    (((st.insert A 0 1).insert A 0 0).size : Int)
      ≡ st.size + (weight ((st.insert A 0 1).insert A 0 0).intervals - weight st.intervals)
        [ZMOD A.size] := by
  have h1 := h.insert (Nat.zero_le 1) hA
  have hne' : (st.insert A 0 1).intervals ≠ [] := by
    intro hnil
    have hmem := (h1.mem 0).mpr (Or.inr ⟨le_refl 0, Nat.zero_le 1⟩)
    rw [hnil] at hmem
    cases hmem
  have hc0 : A.Counts 0 0 := fun a b ha hab hb => hc a b ha hab (by omega)
  obtain ⟨d, hsize, hd⟩ := insert_changes h (Nat.zero_le 1) hA hc hne
  obtain ⟨d', hsize', hd'⟩ :=
    insert_changes h1 (le_refl 0) (hA.of_le (Nat.zero_le 1)) hc0 hne'
  rw [hsize']
  have hfirst : ((st.insert A 0 1).size : Int)
      ≡ st.size + (weight (st.insert A 0 1).intervals - weight st.intervals) [ZMOD A.size] := by
    rw [hsize]
    exact (toSize_modEq _).trans (Int.ModEq.add_left _ hd)
  refine (toSize_modEq _).trans ((hfirst.add hd').trans ?_)
  exact congrArg (· % (A.size : Int)) (by ring)

theorem exists_zeroOnly (h : Stores A st S) (hA : A.Holds 1)
    (hF : ∀ x, x ∈ F ↔ st.exists x = true) (x : Nat) :
    ((st.insert A 0 1).insert A 0 0).exists x = true ↔ x ∈ F ∨ x ≤ 1 := by
  have h2 := (h.insert (Nat.zero_le 1) hA).insert (le_refl 0) (hA.of_le (Nat.zero_le 1))
  rw [exists_eq_cover h2.wellFormed, h2.mem, Set.mem_union, Set.mem_union, Set.mem_Icc,
    Set.mem_Icc, ← h.mem, ← exists_eq_cover h.wellFormed, ← hF, or_assoc]
  refine or_congr_right ?_
  omega

/-- Inserting the set of 0 is union with it if the element 1 exists. -/
theorem union_zeroOnly (h : Stores A st S) (hA : A.Holds 1) (hc : A.Counts 0 1)
    (hlt : st.size < A.size) (hF : ∀ x, x ∈ F ↔ st.exists x = true) :
    ((∀ x, ((st.insert A 0 1).insert A 0 0).exists x = true ↔ x ∈ F ∪ {0}) ∧
      ((st.insert A 0 1).insert A 0 0).size = (F ∪ {0}).card) ↔
    1 ∈ F ∧ st.size = F.card ∧ (F ∪ {0}).card < A.size := by
  have h2 := (h.insert (Nat.zero_le 1) hA).insert (le_refl 0) (hA.of_le (Nat.zero_le 1))
  have hlt2 : ((st.insert A 0 1).insert A 0 0).size < A.size := size_lt_insert
  have hcard := Finset.card_le_card (Finset.subset_union_left : F ⊆ F ∪ {0})
  -- the number of elements of the result, and how the size got there
  have hsize : 1 ∈ F → (∀ x, ((st.insert A 0 1).insert A 0 0).exists x = true ↔ x ∈ F ∪ {0}) →
      (((st.insert A 0 1).insert A 0 0).size : Int)
        ≡ st.size + ((F ∪ {0}).card - F.card) [ZMOD A.size] := by
    intro hone hunion
    rw [card_eq_weight h.wellFormed hF, card_eq_weight h2.wellFormed fun x => (hunion x).symm]
    refine size_zeroOnly h hA hc ?_
    rw [Ne, intervals_eq_nil h.wellFormed hF]
    exact Finset.ne_empty_of_mem hone
  constructor
  · rintro ⟨hunion, heq⟩
    have hone : 1 ∈ F := by
      have := (hunion 1).mp ((exists_zeroOnly h hA hF 1).mpr (Or.inr (le_refl 1)))
      simpa using this
    have hmod := hsize hone hunion
    rw [heq] at hmod hlt2
    refine ⟨hone, eq_of_modEq hlt (by omega) ?_, hlt2⟩
    have := hmod.symm.add_right ((F.card : Int) - (F ∪ {0}).card)
    convert this using 1 <;> ring
  · rintro ⟨hone, heq, hbound⟩
    have hunion : ∀ x, ((st.insert A 0 1).insert A 0 0).exists x = true ↔ x ∈ F ∪ {0} := by
      intro x
      rw [exists_zeroOnly h hA hF, Finset.mem_union, Finset.mem_singleton]
      constructor
      · rintro (hx | hx)
        · exact Or.inl hx
        · rcases Nat.le_one_iff_eq_zero_or_eq_one.mp hx with rfl | rfl
          · exact Or.inr rfl
          · exact Or.inl hone
      · rintro (hx | hx)
        · exact Or.inl hx
        · exact Or.inr (by omega)
    refine ⟨hunion, eq_of_modEq hlt2 hbound ((hsize hone hunion).trans ?_)⟩
    rw [heq]
    exact congrArg (· % (A.size : Int)) (by ring)

theorem holds_one {w intBits sizeBits : Nat} (hw : 0 < w) :
    (Arith.unsigned w intBits sizeBits).Holds 1 :=
  Or.inr (Nat.one_lt_two_pow (Nat.ne_of_gt hw))

theorem counts_one {w intBits sizeBits : Nat} (hint : 1 < intBits) :
    (Arith.unsigned w intBits sizeBits).Counts 0 1 := by
  by_cases hw : w < intBits
  · exact Arith.counts_of_promoted (if_pos hw) 0 1
  · intro a b _ hab hb
    have hpow : 2 ^ 2 ≤ 2 ^ w := Nat.pow_le_pow_right (by decide) (by omega)
    have hp : (Arith.unsigned w intBits sizeBits).promoted = 2 ^ w := if_neg hw
    unfold Arith.span Arith.expr
    rw [hp, Int.emod_eq_of_lt (by omega) (by omega)]

/-- **Inserting a set into a set.** For an unsigned element type and the sets that any two
sequences of operations give: `insert(rhs)` makes ordered calls only and yields the union with its
size exactly if `rhs` is empty, or has the element 0 alone and the other set has 1, and the size
before was right and the union can be counted in `size_t`. -/
theorem insertSet_union_iff {w intBits sizeBits : Nat} (hw : 0 < w) (hint : 1 < intBits)
    (ops ops' : List (Op (Arith.unsigned w intBits sizeBits)))
    (hF : ∀ x, x ∈ F ↔ (run ops).exists x = true)
    (hG : ∀ x, x ∈ G ↔ (run ops').exists x = true) :
    ((∀ c ∈ (run ops').insertCalls (Arith.unsigned w intBits sizeBits), c.1 ≤ c.2) ∧
      (∀ x, ((run ops).insertSet (Arith.unsigned w intBits sizeBits) (run ops')).exists x = true
        ↔ x ∈ F ∪ G) ∧
      ((run ops).insertSet (Arith.unsigned w intBits sizeBits) (run ops')).size = (F ∪ G).card) ↔
    (G = ∅ ∨ G = {0} ∧ 1 ∈ F) ∧ (run ops).size = F.card ∧ (F ∪ G).card < 2 ^ sizeBits := by
  have hst := stores_run ops
  have hst' := (stores_run ops').wellFormed
  have hlt : (run ops).size < 2 ^ sizeBits := size_lt_run ops
  rw [calls_ordered (holds_one hw) hst', intervals_eq_nil hst' hG, intervals_eq_zeroOnly hst' hG]
  by_cases hempty : G = ∅
  · rw [insertSet_empty ((intervals_eq_nil hst' hG).mpr hempty), hempty, Finset.union_empty]
    simp only [hF, true_or, true_and, implies_true]
    constructor
    · intro hsize
      exact ⟨hsize, by omega⟩
    · exact fun h => h.1
  by_cases hzero : G = {0}
  · rw [insertSet_zeroOnly (holds_one hw) ((intervals_eq_zeroOnly hst' hG).mpr hzero), hzero,
      union_zeroOnly hst (holds_one hw) (counts_one hint) hlt hF]
    simp only [Finset.singleton_ne_empty, false_or, true_and]
    rfl
  · constructor
    · rintro ⟨h | h, -⟩
      · exact absurd h hempty
      · exact absurd h hzero
    · rintro ⟨h | h, -⟩
      · exact absurd h hempty
      · exact absurd h.1 hzero

/-- The elements 0 and 1, and the element 0. -/
theorem insertSet_union_zero :
    ∃ ops ops' : List (Op (Arith.unsigned 8 32 64)),
      (∀ c ∈ (run ops').insertCalls (Arith.unsigned 8 32 64), c.1 ≤ c.2) ∧
      (∀ x, ((run ops).insertSet (Arith.unsigned 8 32 64) (run ops')).exists x = true
        ↔ x ∈ ({1, 2} ∪ {0} : Finset Nat)) ∧
      ((run ops).insertSet (Arith.unsigned 8 32 64) (run ops')).size = 3 := by
  refine ⟨[.insert 1 2 (by decide) (by decide)], [.insertElement 0 (by decide)], ?_⟩
  refine (insertSet_union_iff (w := 8) (by decide) (by decide) _ _ (fun x => ?_) fun x => ?_).mpr
    ⟨Or.inr ⟨rfl, by decide⟩, by decide, by decide⟩
  · rw [exists_iff_denotes]
    simp [denotes, denote]
    omega
  · rw [exists_iff_denotes]
    simp [denotes, denote]

/-- Inserting the set of 0 into an empty set adds the element 1, and inserting the set of 5 makes
calls from 5 to 1 and from 5 to 0. -/
theorem insertSet_not_union :
    ∃ zero five : List (Op (Arith.unsigned 8 32 64)),
      (∀ x, (run zero).exists x = true ↔ x = 0) ∧
      (run zero).insertCalls (Arith.unsigned 8 32 64) = [(0, 1), (0, 0)] ∧
      (new.insertSet (Arith.unsigned 8 32 64) (run zero)).exists 1 = true ∧
      (new.insertSet (Arith.unsigned 8 32 64) (run zero)).size = 2 ∧
      (∀ x, (run five).exists x = true ↔ x = 5) ∧
      (run five).insertCalls (Arith.unsigned 8 32 64) = [(5, 1), (5, 0)] := by
  refine ⟨[.insertElement 0 (by decide)], [.insertElement 5 (by decide)], fun x => ?_, by decide,
    by decide, by decide, fun x => ?_, by decide⟩
  · rw [exists_iff_denotes]
    simp [denotes, denote]
  · rw [exists_iff_denotes]
    simp [denotes, denote]

end Lunchbox.IntervalSet
