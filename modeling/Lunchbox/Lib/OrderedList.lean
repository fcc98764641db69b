import Mathlib.Tactic

set_option autoImplicit false

/-! # Ordered sequences with positions

A `std::multiset` as the list of its elements in the order of its comparison `lt`. An iterator
is a position, and the length of the list stands for `end()`. The lemmas evaluate the searches
and the insertions on a list that is split at the position in question.
-/

namespace OrderedList

variable {α : Type} (lt : α → α → Bool)

/-- The first position whose element is not less than `x`. -/
def lowerBound (l : List α) (x : α) : Nat := l.findIdx fun y => !lt y x

/-- The first position whose element is greater than `x`. -/
def upperBound (l : List α) (x : α) : Nat := l.findIdx fun y => lt x y

/-- Insert `x` at the end of its equal range. -/
def insert (l : List α) (x : α) : List α × Nat :=
  let i := upperBound lt l x
  (l.insertIdx i x, i)

/-- Insert `x` in its equal range, as close as possible to the position before `hint`. -/
def insertHint (l : List α) (hint : Nat) (x : α) : List α × Nat :=
  let i := max (lowerBound lt l x) (min hint (upperBound lt l x))
  (l.insertIdx i x, i)

/-! ## Split lists -/

/-- Cut an ordered list where a property of its first elements ends. -/
theorem exists_cut {p : α → Prop} {l : List α} (h : l.Pairwise fun a b => p b → p a) :
    ∃ xs ys, l = xs ++ ys ∧ (∀ a ∈ xs, p a) ∧ ∀ a ∈ ys, ¬ p a := by
  induction l with
  | nil => exact ⟨[], [], rfl, by simp, by simp⟩
  | cons a l ih =>
      rw [List.pairwise_cons] at h
      by_cases ha : p a
      · obtain ⟨xs, ys, rfl, hx, hy⟩ := ih h.2
        exact ⟨a :: xs, ys, rfl, List.forall_mem_cons.mpr ⟨ha, hx⟩, hy⟩
      · refine ⟨[], a :: l, rfl, by simp, List.forall_mem_cons.mpr ⟨ha, ?_⟩⟩
        exact fun b hb hpb => ha (h.1 b hb hpb)

theorem findIdx_split {p : α → Bool} {xs ys : List α} (hx : ∀ a ∈ xs, p a = false)
    (hy : ∀ a ∈ ys.head?, p a = true) : (xs ++ ys).findIdx p = xs.length := by
  induction xs with
  | nil =>
      cases ys with
      | nil => rfl
      | cons b ys =>
          have hb : p b = true := hy b rfl
          simp [List.findIdx_cons, hb]
  | cons a xs ih =>
      have ha : p a = false := hx a List.mem_cons_self
      rw [List.cons_append, List.findIdx_cons, ha, List.length_cons,
        ← ih fun b hb => hx b (List.mem_cons_of_mem a hb)]
      rfl

theorem insertIdx_split (xs ys : List α) (x : α) :
    (xs ++ ys).insertIdx xs.length x = xs ++ x :: ys := by
  induction xs with
  | nil => rfl
  | cons a xs ih => simpa using ih

theorem eraseIdx_split (xs ys : List α) : (xs ++ ys).eraseIdx xs.length = xs ++ ys.tail := by
  rw [List.eraseIdx_append_of_length_le (le_refl _), Nat.sub_self, List.eraseIdx_zero]

theorem getElem?_split (xs ys : List α) : (xs ++ ys)[xs.length]? = ys.head? := by
  rw [List.getElem?_append_right (le_refl _), Nat.sub_self, List.head?_eq_getElem?]

/-! ## Searches and insertions -/

variable {lt} {xs ys : List α} {x : α}

theorem lowerBound_split (hx : ∀ a ∈ xs, lt a x = true) (hy : ∀ a ∈ ys.head?, lt a x = false) :
    lowerBound lt (xs ++ ys) x = xs.length := by
  unfold lowerBound
  apply findIdx_split
  · intro a ha
    rw [hx a ha]
    rfl
  · intro a ha
    rw [hy a ha]
    rfl

theorem insert_split (hx : ∀ a ∈ xs, lt x a = false) (hy : ∀ a ∈ ys.head?, lt x a = true) :
    insert lt (xs ++ ys) x = (xs ++ x :: ys, xs.length) := by
  have hub : upperBound lt (xs ++ ys) x = xs.length := findIdx_split hx hy
  simp only [insert, hub, insertIdx_split]

/-- A hint that is not after the equal range inserts at its start. -/
theorem insertHint_split (hx : ∀ a ∈ xs, lt a x = true) (hy : ∀ a ∈ ys.head?, lt a x = false)
    {hint : Nat} (hh : hint ≤ xs.length) :
    insertHint lt (xs ++ ys) hint x = (xs ++ x :: ys, xs.length) := by
  have hlb := lowerBound_split hx hy
  have hi : max xs.length (min hint (upperBound lt (xs ++ ys) x)) = xs.length :=
    max_eq_left (le_trans (min_le_left _ _) hh)
  simp only [insertHint, hlb, hi, insertIdx_split]

end OrderedList
