import Mathlib.Tactic

set_option autoImplicit false

/-! # The local states of threads

What is left of the local states when one thread moves, and the number of threads whose local
state satisfies a predicate. -/

namespace StateMachine

variable {ι κ : Type}

/-- The thread that moved, or another one. -/
theorem update_cases [DecidableEq ι] {f : ι → κ} {t u : ι} {x y : κ}
    (h : Function.update f t x u = y) : u = t ∧ y = x ∨ u ≠ t ∧ f u = y := by
  by_cases hu : u = t
  · rw [hu, Function.update_self] at h
    exact Or.inl ⟨hu, h.symm⟩
  · rw [Function.update_of_ne hu] at h
    exact Or.inr ⟨hu, h⟩

theorem of_update [DecidableEq ι] {f : ι → κ} {t u : ι} {x y : κ}
    (h : Function.update f t x u = y) (hne : x ≠ y) : f u = y := by
  rcases update_cases h with ⟨-, rfl⟩ | ⟨-, h⟩
  · exact absurd rfl hne
  · exact h

variable [Fintype ι] [DecidableEq ι]

/-- The number of threads `t` with `p (f t)`. -/
def countWhere (p : κ → Prop) [DecidablePred p] (f : ι → κ) : Nat :=
  (Finset.univ.filter fun t => p (f t)).card

variable (p : κ → Prop) [DecidablePred p]

/-- **One thread moves.** -/
theorem countWhere_update (f : ι → κ) (t : ι) (x : κ) :
    countWhere p (Function.update f t x) + (if p (f t) then 1 else 0)
      = countWhere p f + (if p x then 1 else 0) := by
  have hsplit : ∀ g : ι → κ, countWhere p g
      = (if p (g t) then 1 else 0) + ∑ u ∈ Finset.univ.erase t, if p (g u) then 1 else 0 := by
    intro g
    rw [countWhere, Finset.card_filter]
    exact (Finset.add_sum_erase _ (fun u => if p (g u) then 1 else 0) (Finset.mem_univ t)).symm
  have hrest : (∑ u ∈ Finset.univ.erase t, if p (Function.update f t x u) then 1 else 0)
      = ∑ u ∈ Finset.univ.erase t, if p (f u) then 1 else 0 := by
    apply Finset.sum_congr rfl
    intro u hu
    rw [Function.update_of_ne (Finset.ne_of_mem_erase hu)]
  rw [hsplit (Function.update f t x), hsplit f, hrest, Function.update_self]
  omega

omit [DecidableEq ι] in
theorem countWhere_le (f : ι → κ) : countWhere p f ≤ Fintype.card ι :=
  Finset.card_filter_le _ _

omit [DecidableEq ι] in
theorem countWhere_congr {f g : ι → κ} (h : ∀ t, p (f t) ↔ p (g t)) :
    countWhere p f = countWhere p g := by
  rw [countWhere, countWhere, Finset.filter_congr fun t _ => h t]

omit [DecidableEq ι] in
theorem countWhere_eq_zero_iff (f : ι → κ) : countWhere p f = 0 ↔ ∀ t, ¬ p (f t) := by
  rw [countWhere, Finset.card_eq_zero, Finset.filter_eq_empty_iff]
  simp

omit [DecidableEq ι] in
theorem countWhere_pos {f : ι → κ} {t : ι} (h : p (f t)) : 0 < countWhere p f := by
  rw [Nat.pos_iff_ne_zero, ne_eq, countWhere_eq_zero_iff]
  exact fun hno => hno t h

omit [DecidableEq ι] in
/-- All threads are counted exactly if none fails the predicate. -/
theorem countWhere_eq_card_iff (f : ι → κ) :
    countWhere p f = Fintype.card ι ↔ ∀ t, p (f t) := by
  rw [countWhere, ← Finset.card_univ, Finset.card_filter_eq_iff]
  simp

/-- **One thread moves**, in a sum over the threads. -/
theorem sum_update (g : κ → Nat) (f : ι → κ) (t : ι) (x : κ) :
    ∑ u, g (Function.update f t x u) + g (f t) = ∑ u, g (f u) + g x := by
  have hsplit := fun h : ι → κ =>
    Finset.add_sum_erase Finset.univ (fun u => g (h u)) (Finset.mem_univ t)
  have hrest : ∑ u ∈ Finset.univ.erase t, g (Function.update f t x u)
      = ∑ u ∈ Finset.univ.erase t, g (f u) := by
    refine Finset.sum_congr rfl fun u hu => ?_
    rw [Function.update_of_ne (Finset.ne_of_mem_erase hu)]
  rw [← hsplit (Function.update f t x), ← hsplit f, hrest, Function.update_self]
  omega

end StateMachine
