import Mathlib.Data.List.Sort
import Lunchbox.IntervalSet.Runs

set_option autoImplicit false

/-! # Iterating over an interval set

An iterator has a value and the position of the start of its interval. Incrementing it counts the
value up to the end of the interval and then goes two edges on (`collect_interval`). So an iterator
at the start of an interval goes through the elements of that interval and of all later ones
(`collect_suffix`), and ends after the last one.
-/

namespace Lunchbox.IntervalSet

/-- `for (; i != end(); ++i)`: the values that the iterator goes through in less than `n` rounds,
or `none` if these are not enough. -/
def collect (A : Arith) (s : IntervalSet) : Nat → ConstIterator → Option (List Nat)
  | 0, _ => none
  | n + 1, i =>
      if i.equal s.endIterator then some []
      else
        i.value.bind fun x => (s.increment A i).bind fun i => (collect A s n i).map (x :: ·)

variable {A : Arith} {s : IntervalSet} {pre l : List Edge} {a c x : Nat}

/-! ## One increment -/

theorem increment_inside (hl : s.intervals = pre ++ ⟨a, true⟩ :: ⟨c, false⟩ :: l) (hc : A.Holds c)
    (hax : a ≤ x) (hxc : x < c) :
    s.increment A ⟨some x, s.intervals.length, pre.length⟩
      = some ⟨some (x + 1), s.intervals.length, pre.length⟩ := by
  have hnext : A.toElem ((x : Int) + 1) = x + 1 := by
    have := (hc.of_le hxc).toElem
    exact_mod_cast this
  simp [increment, hl, hax, hxc, hnext]

/-- At the end of an interval, the iterator goes to the start of the next one. -/
theorem increment_next (hl : s.intervals = pre ++ ⟨a, true⟩ :: ⟨c, false⟩ :: l) :
    s.increment A ⟨some c, s.intervals.length, pre.length⟩
      = some ⟨some ((l.head?.map Edge.first).getD c), s.intervals.length, pre.length + 2⟩ := by
  cases l with
  | nil => simp [increment, hl]
  | cons e l => simp [increment, hl]

theorem not_equal_end (hl : s.intervals = pre ++ ⟨a, true⟩ :: ⟨c, false⟩ :: l) (v : Option Nat) :
    ConstIterator.equal ⟨v, s.intervals.length, pre.length⟩ s.endIterator = false := by
  simp [ConstIterator.equal, endIterator, hl]

theorem collect_end {k n : Nat} {v : Option Nat} (hk : k = s.intervals.length) (hn : 0 < n) :
    collect A s n ⟨v, s.intervals.length, k⟩ = some [] := by
  obtain ⟨n, rfl⟩ := Nat.exists_eq_succ_of_ne_zero (Nat.ne_of_gt hn)
  rw [collect, if_pos]
  simp [ConstIterator.equal, endIterator, hk]

/-! ## Whole iterations -/

/-- An iterator inside an interval yields the rest of the interval, and then what an iterator at
the next interval yields. -/
theorem collect_interval (hl : s.intervals = pre ++ ⟨a, true⟩ :: ⟨c, false⟩ :: l) (hc : A.Holds c)
    {R : List Nat}
    (hR : ∀ n, R.length < n → collect A s n
      ⟨some ((l.head?.map Edge.first).getD c), s.intervals.length, pre.length + 2⟩ = some R)
    (k : Nat) (hax : a ≤ x) (hk : x + k = c) {n : Nat} (hn : k + 1 + R.length < n) :
    collect A s n ⟨some x, s.intervals.length, pre.length⟩
      = some (List.range' x (k + 1) ++ R) := by
  induction k generalizing x n with
  | zero =>
      obtain ⟨n, rfl⟩ := Nat.exists_eq_succ_of_ne_zero (by omega : n ≠ 0)
      rw [Nat.add_zero] at hk
      subst hk
      rw [collect, not_equal_end hl, if_neg (by decide), Option.bind_some, increment_next hl,
        Option.bind_some, hR n (by omega)]
      rfl
  | succ k ih =>
      obtain ⟨n, rfl⟩ := Nat.exists_eq_succ_of_ne_zero (by omega : n ≠ 0)
      rw [collect, not_equal_end hl, if_neg (by decide), Option.bind_some,
        increment_inside hl hc hax (by omega), Option.bind_some,
        ih (by omega) (by omega) (by omega), List.range'_succ]
      rfl

/-- An interval in front of a list of later elements. -/
theorem pairwise_interval {R : List Nat} {k : Nat} (hR : R.Pairwise (· < ·))
    (hlt : ∀ y ∈ R, x + k ≤ y) : (List.range' x k ++ R).Pairwise (· < ·) := by
  rw [List.pairwise_append]
  refine ⟨List.pairwise_lt_range', hR, fun y hy z hz => ?_⟩
  have := hlt z hz
  rw [List.mem_range'_1] at hy
  omega

/-- **The rest of an iteration.** An iterator at the start of well-formed edges goes through their
elements, in order. -/
theorem collect_suffix (h : WellFormed l) : ∀ pre, s.intervals = pre ++ l →
    (∀ v ∈ l, A.Holds v.first) →
    ∃ R : List Nat, R.Pairwise (· < ·) ∧ (∀ y, y ∈ R ↔ cover y false l = true) ∧
      ∀ d n, R.length < n → collect A s n
        ⟨some ((l.head?.map Edge.first).getD d), s.intervals.length, pre.length⟩ = some R := by
  refine WellFormed.intervals_induction ?_ ?_ h
  · intro pre hl _
    refine ⟨[], List.Pairwise.nil, by simp [cover], fun d n hn => collect_end ?_ hn⟩
    simp [hl]
  · intro a c l hac _ hgap ih pre hl hholds
    obtain ⟨hc, hrest⟩ := List.forall_mem_cons.mp (List.forall_mem_cons.mp hholds).2
    obtain ⟨R, hsorted, hmem, hcollect⟩ := ih (pre ++ [⟨a, true⟩, ⟨c, false⟩]) (by simp [hl]) hrest
    refine ⟨List.range' a (c - a + 1) ++ R, ?_, ?_, ?_⟩
    · apply pairwise_interval hsorted
      intro y hy
      have := le_of_cover hgap ((hmem y).mp hy)
      omega
    · intro y
      rw [List.mem_append, List.mem_range'_1, hmem, cover_bounds hgap]
      refine or_congr_left ?_
      omega
    · intro d n hn
      rw [List.length_append, List.length_range'] at hn
      refine collect_interval hl hc (fun m hm => ?_) (c - a) (le_refl a) (by omega) hn
      have := hcollect c m hm
      rwa [List.length_append] at this

/-- The edges before an interval do not matter for the elements from its start on. -/
theorem cover_from (h : WellFormed (pre ++ ⟨a, true⟩ :: l)) (hax : a ≤ x) :
    cover x false (pre ++ ⟨a, true⟩ :: l) = cover x false (⟨a, true⟩ :: l) := by
  have hflag : lastFlag false pre = false := by
    have := h.head_flag (v := ⟨a, true⟩) rfl
    rwa [eq_comm, Bool.not_eq_true'] at this
  have hactive : ∀ v ∈ pre, Active x v := by
    intro v hv
    -- the edge before the start is an end, so it is smaller
    obtain ⟨q, u, rfl⟩ := (List.eq_nil_or_concat' pre).resolve_left (List.ne_nil_of_mem hv)
    have hu : u.second = false := by
      rw [lastFlag_append] at hflag
      exact hflag
    have hfollows := (List.isChain_append.mp h.chain).2.2 u (by simp) ⟨a, true⟩ rfl
    have hua : u.first < a := by
      obtain ⟨b, f⟩ := u
      simp only at hu
      subst hu
      have hgap := (follows_end.mp hfollows).2
      show b < a
      simp only at hgap
      omega
    have hvu : v.first ≤ u.first := by
      rcases List.mem_append.mp hv with hv | hv
      · have hsorted := sorted_of_chain (List.isChain_append.mp h.chain).1
        exact (List.pairwise_append.mp hsorted).2.2 v hv u (by simp)
      · rw [List.mem_singleton.mp hv]
    exact active_of_lt (by omega)
  rw [cover_append, cover_active false hactive, hflag]

theorem WellFormed.suffix (h : WellFormed (pre ++ ⟨a, true⟩ :: ⟨c, false⟩ :: l)) :
    a ≤ c ∧ WellFormed l ∧ ∀ v ∈ l, c + 2 ≤ v.first := by
  have hwf : WellFormed (⟨a, true⟩ :: ⟨c, false⟩ :: l) := by
    refine ⟨h.chain.right_of_append, by simp, fun y hy => h.last y ?_⟩
    exact List.mem_getLast?_append_of_mem_getLast? hy
  revert hwf
  generalize he : (⟨a, true⟩ :: ⟨c, false⟩ :: l : List Edge) = edges
  intro hwf
  revert he
  refine WellFormed.intervals_induction ?_ ?_ hwf
  · intro he
    cases he
  · intro a' c' l' hac hl hgap _ he
    cases he
    exact ⟨hac, hl, hgap⟩

/-- An iteration from `find(x)`. -/
theorem collect_find (h : WellFormed s.intervals) (hholds : ∀ v ∈ s.intervals, A.Holds v.first)
    (hx : cover x false s.intervals = true) :
    ∃ R : List Nat, R.Pairwise (· < ·) ∧
      (∀ y, y ∈ R ↔ x ≤ y ∧ cover y false s.intervals = true) ∧
      ∀ n, R.length < n → collect A s n (s.find x) = some R := by
  obtain ⟨q, a, b, r, hl, hfind, hax, hxb⟩ := find_split h hx
  rw [hl] at h hholds
  obtain ⟨hab, hr, hgap⟩ := h.suffix
  have hsplit : s.intervals = q ++ [⟨a, true⟩, ⟨b, false⟩] ++ r := by simp [hl]
  obtain ⟨R, hsorted, hmem, hcollect⟩ :=
    collect_suffix hr _ hsplit fun v hv => hholds v (by simp [hv])
  refine ⟨List.range' x (b - x + 1) ++ R, ?_, ?_, ?_⟩
  · apply pairwise_interval hsorted
    intro y hy
    have := le_of_cover hgap ((hmem y).mp hy)
    omega
  · intro y
    rw [List.mem_append, List.mem_range'_1, hmem, hl]
    constructor
    · rintro (hy | hy)
      · rw [cover_from h (by omega), cover_bounds hgap]
        exact ⟨hy.1, Or.inl ⟨by omega, by omega⟩⟩
      · have := le_of_cover hgap hy
        rw [cover_from h (by omega), cover_bounds hgap]
        exact ⟨by omega, Or.inr hy⟩
    · rintro ⟨hxy, hy⟩
      rw [cover_from h (by omega), cover_bounds hgap] at hy
      rcases hy with hy | hy
      · exact Or.inl ⟨hxy, by omega⟩
      · exact Or.inr hy
  · intro n hn
    rw [List.length_append, List.length_range'] at hn
    rw [hfind]
    refine collect_interval hl (hholds ⟨b, false⟩ (by simp)) (fun m hm => ?_) (b - x) hax
      (by omega) hn
    have := hcollect b m hm
    rwa [List.length_append] at this

/-- **Iteration enumerates the set.** For an unsigned element type of any width and any sequence
of operations, the iteration from `begin()` ends, after the elements that exist, each once and in
increasing order; and the iteration from `find(x)` of an element `x` goes through the elements
from `x` on. -/
theorem iteration_enumerates (w intBits sizeBits : Nat)
    (ops : List (Op (Arith.unsigned w intBits sizeBits))) :
    ∃ elements : List Nat, elements.Pairwise (· < ·) ∧
      (∀ x, x ∈ elements ↔ (run ops).exists x = true) ∧
      (∀ n, elements.length < n →
        collect (Arith.unsigned w intBits sizeBits) (run ops) n (run ops).beginIterator
          = some elements) ∧
      ∀ x, (run ops).exists x = true → ∀ n, elements.length < n →
        collect (Arith.unsigned w intBits sizeBits) (run ops) n ((run ops).find x)
          = some (elements.filter (x ≤ ·)) := by
  have h := stores_run ops
  obtain ⟨elements, hsorted, hmem, hcollect⟩ := collect_suffix h.wellFormed [] rfl h.holds
  refine ⟨elements, hsorted, ?_, ?_, ?_⟩
  · intro x
    rw [hmem, exists_eq_cover h.wellFormed]
  · intro n hn
    have hstart := hcollect 0 n hn
    cases hl : (run ops).intervals with
    | nil =>
        rw [collect_end (by simp [hl]) (by omega)] at hstart
        rw [← hstart, beginIterator, hl]
        exact collect_end rfl (by omega)
    | cons e l => simpa [beginIterator, hl, iteratorAt] using hstart
  · intro x hx n hn
    rw [exists_eq_cover h.wellFormed] at hx
    obtain ⟨R, hR, hmemR, hcollectR⟩ := collect_find h.wellFormed h.holds hx
    have heq : R = elements.filter (x ≤ ·) := by
      apply hR.eq_of_mem_iff (hsorted.filter _)
      intro y
      rw [hmemR, List.mem_filter, hmem, decide_eq_true_iff, and_comm]
    have hlen := List.length_filter_le (x ≤ ·) elements
    rw [← heq] at hlen ⊢
    exact hcollectR n (by omega)

end Lunchbox.IntervalSet
