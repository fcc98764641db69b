import Mathlib.Order.Interval.Set.Basic
import Lunchbox.IntervalSet.SetAlgebra

set_option autoImplicit false

/-! # Lookup, and runs of an interval set

`find` and `exists` on well-formed edges, and the main theorem: after any sequence of
operations the edges are the alternating bounds of separate intervals, and the elements found
are those of the set that the operations describe.
-/

namespace Lunchbox.IntervalSet

/-! ## Lookup -/

variable {l : List Edge} {x : Nat}

theorem Follows.active {v v' : Edge} (h : Follows v v') (hv : Active x v') : Active x v := by
  obtain ⟨a, b⟩ := v
  obtain ⟨a', b'⟩ := v'
  cases b with
  | true =>
      obtain ⟨hb, hle⟩ := follows_start.mp h
      simp only at hb hle
      rw [hb, active_end] at hv
      exact active_start.mpr (le_trans hle (Nat.le_of_lt hv))
  | false =>
      obtain ⟨hb, hle⟩ := follows_end.mp h
      simp only at hb hle
      rw [hb, active_start] at hv
      exact active_end.mpr (by omega)

/-- The edges before an element and the edges after it. -/
theorem exists_active_cut (h : WellFormed l) (x : Nat) :
    ∃ xs ys, l = xs ++ ys ∧ (∀ v ∈ xs, Active x v) ∧ ∀ v ∈ ys, ¬ Active x v := by
  apply OrderedList.exists_cut
  have : IsTrans Edge fun v v' => Active x v' → Active x v := ⟨fun _ _ _ h h' hc => h (h' hc)⟩
  exact List.isChain_iff_pairwise.mp (h.chain.imp fun _ _ h => h.active)

variable {s : IntervalSet}

/-- What `find` sees: the edges before the element, the last of them first. -/
theorem find_eq {xs ys : List Edge} (hl : s.intervals = xs ++ ys) (hx : ∀ v ∈ xs, Active x v)
    (hy : ∀ v ∈ ys, ¬ Active x v) :
    s.find x = match xs.getLast?, ys with
      | some v, _ :: _ =>
          if v.second then ⟨some x, s.intervals.length, xs.length - 1⟩ else s.endIterator
      | _, _ => s.endIterator := by
  have hlb : OrderedList.lowerBound edgeCompare s.intervals ⟨x, false⟩ = xs.length := by
    rw [hl]
    apply OrderedList.lowerBound_split hx
    intro v hv
    exact Bool.eq_false_of_not_eq_true (hy v (List.mem_of_mem_head? hv))
  unfold find
  rw [hlb]
  rcases List.eq_nil_or_concat' xs with rfl | ⟨q, v, rfl⟩
  · simp
  · cases ys with
    | nil => simp [hl]
    | cons u r => simp [hl]

/-- An element is found in the interval that contains it. -/
theorem find_split (h : WellFormed s.intervals) (hc : cover x false s.intervals = true) :
    ∃ q a b r, s.intervals = q ++ ⟨a, true⟩ :: ⟨b, false⟩ :: r ∧
      s.find x = ⟨some x, s.intervals.length, q.length⟩ ∧ a ≤ x ∧ x ≤ b := by
  obtain ⟨xs, ys, hl, hx, hy⟩ := exists_active_cut h x
  -- the last edge before the element is a start, so the next one is the end of its interval
  have hflag : lastFlag false xs = true := by
    rw [hl, cover_append, cover_inactive _ hy, cover_active _ hx] at hc
    exact hc
  rw [hl] at h
  obtain ⟨u, r, rfl⟩ := List.exists_cons_of_ne_nil (h.ne_nil_of_inside hflag)
  rcases List.eq_nil_or_concat' xs with rfl | ⟨q, ⟨a, b⟩, rfl⟩
  · cases hflag
  have hb : b = true := by
    rw [lastFlag_append] at hflag
    exact hflag
  subst hb
  have hu : u.second = false := by
    rw [h.head_flag (v := u) rfl, hflag]
    rfl
  obtain ⟨b, c⟩ := u
  simp only at hu
  subst hu
  refine ⟨q, a, b, r, by simp [hl], ?_, ?_, ?_⟩
  · rw [find_eq hl hx hy]
    simp
  · exact active_start.mp (hx _ (by simp))
  · have := hy ⟨b, false⟩ List.mem_cons_self
    rw [active_end] at this
    exact Nat.le_of_not_lt this

theorem find_of_cover (h : WellFormed s.intervals) (hc : cover x false s.intervals = true) :
    ∃ k a b, s.find x = ⟨some x, s.intervals.length, k⟩ ∧ s.intervals[k]? = some ⟨a, true⟩ ∧
      s.intervals[k + 1]? = some ⟨b, false⟩ ∧ a ≤ x ∧ x ≤ b := by
  obtain ⟨q, a, b, r, hl, hfind, hax, hxb⟩ := find_split h hc
  refine ⟨q.length, a, b, hfind, ?_, ?_, hax, hxb⟩
  · simp [hl]
  · simp [hl]

theorem find_of_not_cover (h : WellFormed s.intervals) (hc : cover x false s.intervals = false) :
    s.find x = s.endIterator := by
  obtain ⟨xs, ys, hl, hx, hy⟩ := exists_active_cut h x
  have hflag : lastFlag false xs = false := by
    rw [hl, cover_append, cover_inactive _ hy, cover_active _ hx] at hc
    exact hc
  rw [find_eq hl hx hy]
  rcases List.eq_nil_or_concat' xs with rfl | ⟨q, v, rfl⟩
  · rfl
  · have hv : v.second = false := by
      rw [lastFlag_append] at hflag
      exact hflag
    cases ys with
    | nil => simp
    | cons u r => simp [hv]

theorem exists_eq_cover (h : WellFormed s.intervals) :
    s.exists x = cover x false s.intervals := by
  unfold IntervalSet.exists
  cases hc : cover x false s.intervals with
  | true =>
      obtain ⟨k, a, b, hf, ha, hb, -⟩ := find_of_cover h hc
      have hk : k < s.intervals.length := (List.getElem?_eq_some_iff.mp ha).1
      rw [hf]
      simp [ConstIterator.equal, endIterator, Nat.ne_of_lt hk]
  | false =>
      rw [find_of_not_cover h hc]
      simp [ConstIterator.equal, endIterator]

/-! ## Runs -/

/-- The operations that change a set, on the values of the element type. -/
inductive Op (A : Arith)
  | insert (a b : Nat) (hab : a ≤ b) (hb : A.Holds b)
  | erase (a b : Nat) (hab : a ≤ b) (hb : A.Holds b)
  | insertElement (a : Nat) (ha : A.Holds a)
  | eraseElement (a : Nat) (ha : A.Holds a)
  | clear

variable {A : Arith}

def apply (s : IntervalSet) : Op A → IntervalSet
  | .insert a b _ _ => s.insert A a b
  | .erase a b _ _ => s.erase A a b
  | .insertElement a _ => s.insertElement A a
  | .eraseElement a _ => s.eraseElement A a
  | .clear => s.clear

/-- A sequence of operations, from the empty set on. -/
def run (ops : List (Op A)) : IntervalSet := ops.foldl apply new

/-- What an operation means. -/
def denote (S : Set Nat) : Op A → Set Nat
  | .insert a b _ _ => S ∪ Set.Icc a b
  | .erase a b _ _ => S \ Set.Icc a b
  | .insertElement a _ => S ∪ {a}
  | .eraseElement a _ => S \ {a}
  | .clear => ∅

/-- The set that a sequence of operations describes. -/
def denotes (ops : List (Op A)) : Set Nat := ops.foldl denote ∅

/-- The interval set `s` stores the elements of `S`. -/
structure Stores (A : Arith) (s : IntervalSet) (S : Set Nat) : Prop where
  wellFormed : WellFormed s.intervals
  holds : ∀ v ∈ s.intervals, A.Holds v.first
  mem : ∀ x, cover x false s.intervals = true ↔ x ∈ S

theorem stores_new : Stores A new ∅ := by
  refine ⟨⟨.nil, by simp [new], by simp [new]⟩, by simp [new], fun x => ?_⟩
  simp [new, cover]

theorem Stores.holds_split {S : Set Nat} {a b : Nat} {pre mid rest : List Edge}
    (h : Stores A s S) (hsplit : Split s.intervals a b pre mid rest) :
    (∀ v ∈ pre, A.Holds v.first) ∧ ∀ v ∈ rest, A.Holds v.first := by
  have hh := h.holds
  rw [hsplit.eq] at hh
  exact ⟨fun v hv => hh v (by simp [hv]), fun v hv => hh v (by simp [hv])⟩

theorem Stores.insert {S : Set Nat} (h : Stores A s S) {a b : Nat} (hab : a ≤ b)
    (hb : A.Holds b) : Stores A (s.insert A a b) (S ∪ Set.Icc a b) := by
  obtain ⟨pre, mid, rest, hsplit⟩ := exists_split h.wellFormed a b
  have hi := insert_intervals hsplit h.wellFormed h.holds (hb.of_le hab) hab
  refine ⟨?_, ?_, fun x => ?_⟩
  · rw [hi]
    exact wellFormed_insert hsplit h.wellFormed hab
  · intro v hv
    rw [hi] at hv
    obtain ⟨hpre, hrest⟩ := h.holds_split hsplit
    rcases List.mem_append.mp hv with hv | hv
    · rcases mem_openLeft hv with hv | rfl
      · exact hpre v hv
      · exact hb.of_le hab
    · rcases mem_closeRight hv with hv | rfl
      · exact hrest v hv
      · exact hb
  · rw [hi, cover_insert hsplit h.wellFormed hab, h.mem x]
    rfl

theorem Stores.erase {S : Set Nat} (h : Stores A s S) {a b : Nat} (hab : a ≤ b)
    (hb : A.Holds b) : Stores A (s.erase A a b) (S \ Set.Icc a b) := by
  obtain ⟨pre, mid, rest, hsplit⟩ := exists_split h.wellFormed a b
  have he := erase_intervals hsplit h.wellFormed h.holds (hb.of_le hab) hab
  refine ⟨?_, ?_, fun x => ?_⟩
  · rw [he]
    exact wellFormed_erase hsplit h.wellFormed hab
  · intro v hv
    rw [he] at hv
    obtain ⟨hpre, hrest⟩ := h.holds_split hsplit
    rcases List.mem_append.mp hv with hv | hv
    · rcases mem_closeLeft hv with hv | rfl
      · exact hpre v hv
      · exact hb.of_le (le_trans (Nat.sub_le a 1) hab)
    · unfold openRight at hv
      split_ifs at hv with hin
      · rcases List.mem_cons.mp hv with rfl | hv
        · -- the interval that is cut ends after `b`
          have hwf := h.wellFormed
          rw [hsplit.eq, ← List.append_assoc] at hwf
          obtain ⟨u, r, rfl⟩ := List.exists_cons_of_ne_nil (hwf.ne_nil_of_inside hin)
          exact (hrest u List.mem_cons_self).of_le (hsplit.after u List.mem_cons_self)
        · exact hrest v hv
      · exact hrest v hv
  · rw [he, cover_erase hsplit hab, h.mem x]
    rfl

theorem stores_apply {S : Set Nat} (h : Stores A s S) (op : Op A) :
    Stores A (apply s op) (denote S op) := by
  cases op with
  | insert a b hab hb => exact h.insert hab hb
  | erase a b hab hb => exact h.erase hab hb
  | insertElement a ha =>
      show Stores A (s.insert A a a) (S ∪ {a})
      rw [← Set.Icc_self a]
      exact h.insert (le_refl a) ha
  | eraseElement a ha =>
      show Stores A (s.erase A a a) (S \ {a})
      rw [← Set.Icc_self a]
      exact h.erase (le_refl a) ha
  | clear => exact stores_new

/-- Every run stores the set that its operations describe. -/
theorem stores_run (ops : List (Op A)) : Stores A (run ops) (denotes ops) := by
  have key : ∀ (ops : List (Op A)) (s : IntervalSet) (S : Set Nat), Stores A s S →
      Stores A (ops.foldl apply s) (ops.foldl denote S) := by
    intro ops
    induction ops with
    | nil => exact fun _ _ h => h
    | cons op ops ih => exact fun _ _ h => ih _ _ (stores_apply h op)
  exact key ops new ∅ stores_new

theorem exists_iff_denotes (ops : List (Op A)) :
    (run ops).exists x = true ↔ x ∈ denotes ops := by
  rw [exists_eq_cover (stores_run ops).wellFormed]
  exact (stores_run ops).mem x

/-! ## The stored intervals -/

def bounds (i : Nat × Nat) : List Edge := [⟨i.1, true⟩, ⟨i.2, false⟩]

/-- Well-formed edges are the bounds of separate intervals. -/
theorem exists_intervals {l : List Edge} (h : WellFormed l) :
    ∃ is : List (Nat × Nat), l = is.flatMap bounds ∧ (∀ i ∈ is, i.1 ≤ i.2) ∧
      is.IsChain fun i j => i.2 + 2 ≤ j.1 := by
  refine WellFormed.intervals_induction ?_ ?_ h
  · exact ⟨[], rfl, by simp, .nil⟩
  rintro a c l hac - hl ⟨is, rfl, hle, his⟩
  refine ⟨(a, c) :: is, rfl, List.forall_mem_cons.mpr ⟨hac, hle⟩, ?_⟩
  refine List.isChain_cons.mpr ⟨fun j hj => ?_, his⟩
  cases is with
  | nil => cases hj
  | cons i is =>
      cases hj
      exact hl ⟨j.1, true⟩ (by simp [bounds])

/-- **`IntervalSet` implements set algebra.** For an unsigned element type of any width and any
sequence of operations: the edges are the bounds of intervals that are at least two apart, an
element exists exactly if it is in the set that the operations describe, and `find` points to
it, in the interval that contains it, in exactly that case. -/
theorem set_algebra (w intBits sizeBits : Nat)
    (ops : List (Op (Arith.unsigned w intBits sizeBits))) :
    (∃ is : List (Nat × Nat), (run ops).intervals = is.flatMap bounds ∧
      (∀ i ∈ is, i.1 ≤ i.2) ∧ is.IsChain fun i j => i.2 + 2 ≤ j.1) ∧
    ∀ x : Fin (2 ^ w),
      ((run ops).exists x = true ↔ (x : Nat) ∈ denotes ops) ∧
      ((x : Nat) ∈ denotes ops →
        ∃ k a b, (run ops).find x = ⟨some x, (run ops).intervals.length, k⟩ ∧
          (run ops).intervals[k]? = some ⟨a, true⟩ ∧
          (run ops).intervals[k + 1]? = some ⟨b, false⟩ ∧ a ≤ x ∧ x ≤ b) ∧
      ((x : Nat) ∉ denotes ops → (run ops).find x = (run ops).endIterator) := by
  have h := stores_run ops
  refine ⟨exists_intervals h.wellFormed, fun x => ⟨?_, ?_, ?_⟩⟩
  · exact exists_iff_denotes ops
  · intro hx
    exact find_of_cover h.wellFormed ((h.mem x).mpr hx)
  · intro hx
    rw [← h.mem x, Bool.not_eq_true] at hx
    exact find_of_not_cover h.wellFormed hx

end Lunchbox.IntervalSet
