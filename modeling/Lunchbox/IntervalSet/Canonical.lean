import Mathlib.Data.Set.Lattice
import Lunchbox.IntervalSet.Runs

set_option autoImplicit false

/-! # The edges are determined by the elements

Well-formed edges with the same elements are the same edges (`eq_of_cover`). So the edges of an
interval set do not depend on the operations that made it: not on the order of the insertions,
and not on the pieces in which an interval was inserted.
-/

namespace Lunchbox.IntervalSet

variable {A : Arith} {l l' : List Edge} {x : Nat}

/-! ## Uniqueness -/

/-- The first interval of edges that have all the elements of others begins before theirs, and
if both begin together it does not end before theirs. -/
theorem first_interval {a c a' c' : Nat} (hac : a ≤ c) (hac' : a' ≤ c')
    (hl : ∀ v ∈ l, c + 2 ≤ v.first) (hl' : ∀ v ∈ l', c' + 2 ≤ v.first)
    (hc : ∀ x, cover x false (⟨a', true⟩ :: ⟨c', false⟩ :: l') = true →
      cover x false (⟨a, true⟩ :: ⟨c, false⟩ :: l) = true) :
    a ≤ a' ∧ (a = a' → c' ≤ c) := by
  simp only [cover_bounds hl, cover_bounds hl'] at hc
  constructor
  · rcases hc a' (Or.inl ⟨le_refl _, hac'⟩) with h | h
    · exact h.1
    · have := le_of_cover hl h
      omega
  · rintro rfl
    by_contra hlt
    -- the element after `c` is in no interval of `l`, as these come at least two after `c`
    rcases hc (c + 1) (Or.inl ⟨by omega, by omega⟩) with h | h
    · omega
    · have := le_of_cover hl h
      omega

/-- **Well-formed edges are determined by their elements.** -/
theorem eq_of_cover (h : WellFormed l) : ∀ l' : List Edge, WellFormed l' →
    (∀ x, cover x false l = true ↔ cover x false l' = true) → l = l' := by
  -- over the intervals of the first sequence; the second one is taken apart alongside
  refine WellFormed.intervals_induction ?_ ?_ h
  · intro l' h'
    refine WellFormed.intervals_induction ?_ ?_ h'
    · intro _
      rfl
    · intro a c l hac _ hl _ hc
      have := (hc a).mpr ((cover_bounds hl).mpr (Or.inl ⟨le_refl a, hac⟩))
      cases this
  · intro a c l hac _ hl ih l' h'
    refine WellFormed.intervals_induction ?_ ?_ h'
    · intro hc
      have := (hc a).mp ((cover_bounds hl).mpr (Or.inl ⟨le_refl a, hac⟩))
      cases this
    · intro a' c' l' hac' hwf' hl' _ hc
      obtain ⟨ha, hend⟩ := first_interval hac hac' hl hl' fun x => (hc x).mpr
      obtain ⟨ha', hend'⟩ := first_interval hac' hac hl' hl fun x => (hc x).mp
      obtain rfl : a = a' := le_antisymm ha ha'
      obtain rfl : c = c' := le_antisymm (hend' rfl) (hend rfl)
      rw [ih l' hwf' fun x => ?_]
      have hx := hc x
      rw [cover_bounds hl, cover_bounds hl'] at hx
      by_cases hxc : x ≤ c
      · -- neither of the rests has elements up to `c`
        constructor
        · intro hcov
          have := le_of_cover hl hcov
          omega
        · intro hcov
          have := le_of_cover hl' hcov
          omega
      · have hno : ¬ (a ≤ x ∧ x ≤ c) := fun hin => hxc hin.2
        rwa [or_iff_right hno, or_iff_right hno] at hx

/-! ## Runs -/

theorem intervals_eq {ops ops' : List (Op A)} (h : (denotes ops : Set Nat) = denotes ops') :
    (run ops).intervals = (run ops').intervals := by
  apply eq_of_cover (stores_run ops).wellFormed _ (stores_run ops').wellFormed
  intro x
  rw [(stores_run ops).mem, (stores_run ops').mem, h]

/-- A value outside the element type is no element. -/
theorem exists_eq_false {ops : List (Op A)} (hx : ¬ A.Holds x) : (run ops).exists x = false := by
  have h := stores_run ops
  rw [exists_eq_cover h.wellFormed, cover_active]
  · by_contra hb
    rw [Bool.not_eq_false] at hb
    have hwf := h.wellFormed
    rw [← List.append_nil (run ops).intervals] at hwf
    exact hwf.ne_nil_of_inside hb rfl
  · intro v hv
    apply active_of_lt
    by_contra hlt
    exact hx ((h.holds v hv).of_le (Nat.le_of_not_lt hlt))

/-- The elements that an operation adds, if it is an insertion. -/
def Op.added : Op A → Set Nat
  | .insert a b _ _ => Set.Icc a b
  | .insertElement a _ => {a}
  | _ => ∅

def Op.IsInsert : Op A → Prop
  | .insert _ _ _ _ => True
  | .insertElement _ _ => True
  | _ => False

theorem denote_insert {op : Op A} (hop : op.IsInsert) (S : Set Nat) :
    denote S op = S ∪ op.added := by
  cases op with
  | insert a b _ _ => rfl
  | insertElement a _ => rfl
  | erase | eraseElement | clear => exact hop.elim

theorem denotes_inserts (ops : List (Op A)) {ins : List (Op A)} (hins : ∀ op ∈ ins, op.IsInsert) :
    denotes (ops ++ ins) = denotes ops ∪ ⋃ op ∈ ins, op.added := by
  induction ins using List.reverseRecOn with
  | nil => simp
  | append_singleton ins op ih =>
      have hop : op.IsInsert := hins op (by simp)
      have hsnoc : denotes (ops ++ (ins ++ [op])) = denote (denotes (ops ++ ins)) op := by
        simp [denotes]
      rw [hsnoc, ih fun op' h => hins op' (List.mem_append_left _ h), denote_insert hop]
      ext x
      simp [or_assoc]

/-- **The representation is canonical.** Operations that leave the same elements leave the same
edges. In particular insertions can be permuted, and an interval can be inserted in pieces that
touch or overlap. -/
theorem canonical_representation (A : Arith) :
    (∀ ops ops' : List (Op A),
      (∀ x, A.Holds x → (run ops).exists x = (run ops').exists x) →
        (run ops).intervals = (run ops').intervals) ∧
    (∀ ops ins ins' : List (Op A), (∀ op ∈ ins, op.IsInsert) → ins.Perm ins' →
      (run (ops ++ ins)).intervals = (run (ops ++ ins')).intervals) ∧
    ∀ (ops pieces : List (Op A)) (a b : Nat) (hab : a ≤ b) (hb : A.Holds b),
      (∀ op ∈ pieces, op.IsInsert) → (⋃ op ∈ pieces, op.added) = Set.Icc a b →
        (run (ops ++ pieces)).intervals = (run (ops ++ [.insert a b hab hb])).intervals := by
  refine ⟨?_, ?_, ?_⟩
  · intro ops ops' hsame
    apply intervals_eq
    ext x
    rw [← exists_iff_denotes, ← exists_iff_denotes]
    by_cases hx : A.Holds x
    · rw [hsame x hx]
    · rw [exists_eq_false hx, exists_eq_false hx]
  · intro ops ins ins' hins hperm
    apply intervals_eq
    have hins' : ∀ op ∈ ins', op.IsInsert := fun op hop => hins op (hperm.mem_iff.mpr hop)
    rw [denotes_inserts ops hins, denotes_inserts ops hins']
    simp only [hperm.mem_iff]
  · intro ops pieces a b hab hb hins hunion
    apply intervals_eq
    have hone : ∀ op ∈ [(.insert a b hab hb : Op A)], op.IsInsert := by
      intro op hop
      rw [List.mem_singleton.mp hop]
      trivial
    rw [denotes_inserts ops hins, denotes_inserts ops hone, hunion]
    simp [Op.added]

/-- The interval from 2 to 7 in two overlapping pieces, into a set that erased its middle. -/
theorem canonical_in_pieces :
    let whole : Op (Arith.unsigned 8 32 64) := .insert 2 7 (by decide) (Or.inr (by decide))
    let gap : Op (Arith.unsigned 8 32 64) := .erase 4 5 (by decide) (Or.inr (by decide))
    let low : Op (Arith.unsigned 8 32 64) := .insert 2 5 (by decide) (Or.inr (by decide))
    let high : Op (Arith.unsigned 8 32 64) := .insert 4 7 (by decide) (Or.inr (by decide))
    (run [whole, gap, high, low]).intervals = (run [whole, gap, low, high]).intervals ∧
      (run [whole, gap, low, high]).intervals = (run [whole, gap, whole]).intervals ∧
      (run [whole, gap, whole]).intervals = (run [whole]).intervals := by
  intro whole gap low high
  have hins : ∀ op ∈ [low, high], op.IsInsert := by simp [low, high, Op.IsInsert]
  have hunion : (⋃ op ∈ [low, high], op.added) = Set.Icc 2 7 := by
    ext x
    simp [low, high, Op.added]
    omega
  refine ⟨?_, ?_, ?_⟩
  · exact ((canonical_representation _).2.1 [whole, gap] [low, high] [high, low] hins
      (List.Perm.swap _ _ _)).symm
  · exact (canonical_representation _).2.2 [whole, gap] [low, high] 2 7 _ _ hins hunion
  · refine (canonical_representation _).1 _ _ fun x _ => ?_
    rw [Bool.eq_iff_iff, exists_iff_denotes, exists_iff_denotes]
    simp [denotes, denote, whole, gap]
    omega

end Lunchbox.IntervalSet
