import Mathlib.Logic.Function.Basic

set_option autoImplicit false

/-! # Partial maps

Maps to an `Option`, where `none` means that there is no entry, updated at one key. A partial map
is injective if no two keys have the same entry; it stays so when a new entry is put, and when
one is removed. -/

namespace PartialMap

open Function

variable {κ ν : Type} [DecidableEq κ] {f : κ → Option ν} {k j : κ} {v w : ν}

/-- The entries after an entry is put. -/
theorem update_some_eq : update f k (some v) j = some w ↔ j = k ∧ w = v ∨ j ≠ k ∧ f j = some w := by
  by_cases hj : j = k
  · subst hj
    simp [eq_comm]
  · simp [hj]

/-- The entries after an entry is removed. -/
theorem update_none_eq : update f k none j = some w ↔ j ≠ k ∧ f j = some w := by
  by_cases hj : j = k
  · subst hj
    simp
  · simp [hj]

def Injective (f : κ → Option ν) : Prop := ∀ k k' v, f k = some v → f k' = some v → k = k'

theorem Injective.put (h : Injective f) (hv : ∀ k, f k ≠ some v) (k : κ) :
    Injective (update f k (some v)) := by
  intro j j' w hj hj'
  rcases update_some_eq.mp hj with ⟨rfl, rfl⟩ | ⟨-, hf⟩
  · rcases update_some_eq.mp hj' with ⟨rfl, -⟩ | ⟨-, hf'⟩
    · rfl
    · exact absurd hf' (hv j')
  · rcases update_some_eq.mp hj' with ⟨-, rfl⟩ | ⟨-, hf'⟩
    · exact absurd hf (hv j)
    · exact h j j' w hf hf'

theorem Injective.remove (h : Injective f) (k : κ) : Injective (update f k none) := by
  intro j j' w hj hj'
  exact h j j' w (update_none_eq.mp hj).2 (update_none_eq.mp hj').2

end PartialMap
