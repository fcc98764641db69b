import Lunchbox.Lib.Machine
import Lunchbox.LFVector.Refinement

set_option autoImplicit false

/-! # `LFVector` refines a list

A program over any number of vectors, and the same program over lists. Both give the same
outputs, and in the end every vector has the elements of its list. The vectors answer every
operation, so that none of them makes an access that is not defined.
-/

namespace Lunchbox.LFVector

open StateMachine Function

variable {T : Type}

/-- The operations on a family of vectors. -/
inductive Op (T : Type)
  | pushBack (k : Nat) (x : T)
  | popBack (k : Nat)
  /-- `pop_back(element)` -/
  | popBackTo (k : Nat)
  /-- `erase(pos)` on the vector `k`, with the iterator of the vector `m` at the position `i`. -/
  | eraseAt (k m i : Nat)
  /-- `erase(element)` -/
  | erase (k : Nat) (x : T)
  | expand (k n : Nat) (x : T)
  | resize (k n : Nat) (x : T)
  | clear (k : Nat)
  /-- `vectors[k] = vectors[m]` -/
  | assign (k m : Nat)
  /-- `vectors[k][i] = x`, which a program may do for `i < size()` only. -/
  | write (k i : Nat) (x : T)
  /-- `vectors[k] == vectors[m]` -/
  | equal (k m : Nat)

inductive Output (T : Type)
  | done
  | thrown
  /-- The popped element, or `none` for a false return. -/
  | popped (x : Option T)
  /-- The position of the returned iterator. -/
  | iterator (i : Nat)
  | result (b : Bool)

def outcome : Bool → Output T
  | true => .done
  | false => .thrown

variable {P : Params T} {s : Nat → LFVector T} {t : Nat → List T}

/-- Each vector holds its list. -/
def Holds (P : Params T) (s : Nat → LFVector T) (t : Nat → List T) : Prop := ∀ k, Rep P (s k) (t k)

theorem Holds.update {v : LFVector T} {xs : List T} (h : Holds P s t) (k : Nat) (hv : Rep P v xs) :
    Holds P (update s k v) (update t k xs) := by
  intro j
  by_cases hj : j = k
  · subst hj
    rwa [update_self, update_self]
  · rw [update_of_ne hj, update_of_ne hj]
    exact h j

theorem forall_update {Q : LFVector T → Prop} (h : ∀ j, Q (s j)) (k : Nat) (v : LFVector T) :
    (∀ j, Q (update s k v j)) ↔ Q v := by
  rw [forall_update_iff s fun _ => Q]
  exact and_iff_left fun j _ => h j

/-- A function of one vector that keeps a property of it. -/
theorem forall_map {α : Type} {f : Option α} {g : α → Output T} {v : α → LFVector T}
    {s' : Nat → LFVector T} {b : Output T} {k : Nat} {Q : LFVector T → Prop} (h : ∀ j, Q (s j))
    (hs : (f.map fun r => (g r, update s k (v r))) = some (b, s'))
    (hkeeps : ∀ r, f = some r → Q (v r)) : ∀ j, Q (s' j) := by
  obtain ⟨r, hr, heq⟩ := Option.map_eq_some_iff.mp hs
  cases heq
  exact (forall_update h k (v r)).mpr (hkeeps r hr)

variable [DecidableEq T]

/-- The vectors of a program. -/
def vectors (P : Params T) : Machine (Nat → LFVector T) (Op T) (Output T) where
  init _ := new
  step s
    | .pushBack k x => ((s k).pushBack P x).map fun r => (outcome r.1, update s k r.2)
    | .popBack k => ((s k).popBack P).map fun v => (.done, update s k v)
    | .popBackTo k => ((s k).popBackTo P).map fun r => (.popped r.1, update s k r.2)
    | .eraseAt k m i =>
        ((s k).eraseAt P (k = m) i).map fun r => (.iterator r.1, update s k r.2)
    | .erase k x => ((s k).erase P x).map fun r => (.iterator r.1, update s k r.2)
    | .expand k n x => ((s k).expand P n x).map fun r => (outcome r.1, update s k r.2)
    | .resize k n x => ((s k).resize P n x).map fun r => (outcome r.1, update s k r.2)
    | .clear k => ((s k).clear P).map fun v => (.done, update s k v)
    | .assign k m =>
        -- assigning a vector to itself returns at once
        if k = m then some (.done, s)
        else ((s k).assign P (s m)).map fun v => (.done, update s k v)
    | .write k i x =>
        if i < (s k).size then ((s k).put P i x).map fun v => (.done, update s k v)
        else some (.done, s)
    | .equal k m =>
        if k = m then some (.result true, s)
        else ((s k).equal P (s m)).map fun b => (.result b, s)

/-- The same program over lists that hold at most `cap` elements. -/
def lists (cap : Nat) : Machine (Nat → List T) (Op T) (Output T) where
  init _ := []
  step t
    | .pushBack k x =>
        if (t k).length = cap then some (.thrown, t)
        else some (.done, update t k (t k ++ [x]))
    | .popBack k => some (.done, update t k (t k).dropLast)
    | .popBackTo k => some (.popped (t k).getLast?, update t k (t k).dropLast)
    | .eraseAt k m i =>
        if k = m ∧ i < (t k).length then some (.iterator i, update t k ((t k).eraseIdx i))
        else some (.iterator (t k).length, t)
    | .erase k x =>
        match lastIndex x (t k) with
        | none => some (.iterator (t k).length, t)
        | some i => some (.iterator i, update t k ((t k).eraseIdx i))
    | .expand k n x =>
        some (outcome (n ≤ cap),
          update t k (t k ++ List.replicate (min n cap - (t k).length) x))
    | .resize k n x =>
        some (outcome (n ≤ cap),
          update t k ((t k).take n ++ List.replicate (min n cap - (t k).length) x))
    | .clear k => some (.done, update t k [])
    | .assign k m => some (.done, update t k (t m))
    | .write k i x => some (.done, update t k ((t k).set i x))
    | .equal k m => some (.result (t k = t m), t)

theorem pushBack_step (h : Holds P s t) (k : Nat) (x : T) :
    ∃ b s' t', (vectors P).step s (.pushBack k x) = some (b, s') ∧
      (lists (2 ^ P.nSlots - 1)).step t (.pushBack k x) = some (b, t') ∧ Holds P s' t' := by
  have hlt := (h k).length_lt
  by_cases hfull : (t k).length = 2 ^ P.nSlots - 1
  · refine ⟨.thrown, s, t, ?_, if_pos hfull, h⟩
    simp only [vectors, pushBack, pushBack_full (h k) (by omega) x, Option.map_some, update_eq_self]
    rfl
  · obtain ⟨v, hv, hrep⟩ := pushBack_room (h k) (by omega) x
    refine ⟨.done, _, _, ?_, if_neg hfull, h.update k hrep⟩
    simp only [vectors, pushBack, hv, Option.map_some]
    rfl

/-- A vector and its list answer an operation alike. -/
theorem step_spec (h : Holds P s t) (op : Op T) :
    ∃ b s' t', (vectors P).step s op = some (b, s') ∧
      (lists (2 ^ P.nSlots - 1)).step t op = some (b, t') ∧ Holds P s' t' := by
  have hcap : ∀ n, (n ≤ 2 ^ P.nSlots - 1) = (n < 2 ^ P.nSlots) := fun n =>
    propext (Nat.le_sub_one_iff_lt (Nat.two_pow_pos _))
  cases op with
  | pushBack k x => exact pushBack_step h k x
  | popBack k =>
      obtain ⟨v, hv, hrep⟩ := popBack_spec (h k)
      exact ⟨_, _, _, by simp only [vectors, hv, Option.map_some], rfl, h.update k hrep⟩
  | popBackTo k =>
      obtain ⟨v, hv, hrep⟩ := popBackTo_spec (h k)
      exact ⟨_, _, _, by simp only [vectors, hv, Option.map_some], rfl, h.update k hrep⟩
  | eraseAt k m i =>
      obtain ⟨v, hv, hrep⟩ := eraseAt_spec (h k) (k = m) i
      simp only [decide_eq_true_iff] at hv hrep
      by_cases hi : k = m ∧ i < (t k).length
      · rw [if_pos hi] at hv hrep
        exact ⟨_, _, _, by simp only [vectors, hv, Option.map_some], if_pos hi, h.update k hrep⟩
      · rw [if_neg hi] at hv hrep
        have hsame := h.update k hrep
        rw [update_eq_self] at hsame
        exact ⟨_, _, _, by simp only [vectors, hv, Option.map_some], if_neg hi, hsame⟩
  | erase k x =>
      obtain ⟨v, hv, hrep⟩ := erase_spec (h k) x
      refine ⟨.iterator ((lastIndex x (t k)).getD (t k).length), _, _, ?_, ?_, h.update k hrep⟩
      · simp only [vectors, hv, Option.map_some]
      · cases hl : lastIndex x (t k) with
        | none => simp only [lists, hl, Option.getD_none, Option.elim_none, update_eq_self]
        | some i => simp only [lists, hl, Option.getD_some, Option.elim_some]
  | expand k n x =>
      obtain ⟨v, hv, hrep⟩ := expand_spec (h k) n x
      refine ⟨outcome (n < 2 ^ P.nSlots), _, _, ?_, ?_, h.update k hrep⟩
      · simp only [vectors, hv, Option.map_some]
      · simp only [lists, hcap]
  | resize k n x =>
      obtain ⟨v, hv, hrep⟩ := resize_spec (h k) n x
      refine ⟨outcome (n < 2 ^ P.nSlots), _, _, ?_, ?_, h.update k hrep⟩
      · simp only [vectors, hv, Option.map_some]
      · simp only [lists, hcap]
  | clear k =>
      obtain ⟨v, hv, hrep⟩ := clear_spec (h k)
      exact ⟨_, _, _, by simp only [vectors, hv, Option.map_some], rfl, h.update k hrep⟩
  | assign k m =>
      by_cases hkm : k = m
      · subst hkm
        refine ⟨_, _, _, if_pos rfl, rfl, ?_⟩
        rwa [update_eq_self]
      · obtain ⟨v, hv, hrep, -⟩ := assign_spec (h k) (h m)
        refine ⟨_, _, _, ?_, rfl, h.update k hrep⟩
        simp only [vectors, if_neg hkm, hv, Option.map_some]
  | write k i x =>
      by_cases hi : i < (s k).size
      · have hlen : i < (t k).length := by rwa [← (h k).size]
        obtain ⟨v, hv, hw⟩ := put_spec (h k).shape ((h k).allocated hlen).2 x
        refine ⟨_, _, _, ?_, rfl, h.update k ⟨(h k).toStores.write hw, ?_⟩⟩
        · simp only [vectors, if_pos hi, hv, Option.map_some]
        · rw [hw.size, (h k).size, List.length_set]
      · refine ⟨_, _, _, if_neg hi, rfl, ?_⟩
        rw [(h k).size] at hi
        rwa [List.set_eq_of_length_le (Nat.le_of_not_lt hi), update_eq_self]
  | equal k m =>
      by_cases hkm : k = m
      · subst hkm
        exact ⟨_, _, _, if_pos rfl, by simp only [lists, decide_true], h⟩
      · refine ⟨_, _, _, ?_, rfl, h⟩
        simp only [vectors, if_neg hkm, equal_spec (h k) (h m), Option.map_some]

/-- **`LFVector` refines a list.** Every program over vectors runs to its end, with accesses to
allocated slots at indices inside them only. It gives the outputs of the same program over
lists, where `push_back` throws if the list has `2 ^ nSlots - 1` elements, and in the end each
vector has the size and the elements of its list. -/
theorem refines_list (P : Params T) (ops : List (Op T)) :
    ∃ tr s t, (vectors P).run ops (vectors P).init = some (tr, s) ∧
      (lists (2 ^ P.nSlots - 1)).run ops (lists (2 ^ P.nSlots - 1)).init = some (tr, t) ∧
      ∀ k, (s k).size = (t k).length ∧ ∀ i, i < (s k).size → (s k).get P i = (t k)[i]? := by
  have h0 : Holds P (vectors P).init (lists (2 ^ P.nSlots - 1)).init := fun _ => rep_new
  obtain ⟨tr, s, t, hs, ht, h⟩ :=
    Machine.run_simulate (Holds P) (fun s t op h => step_spec h op) ops h0
  refine ⟨tr, s, t, hs, ht, fun k => ⟨(h k).size, fun i hi => ?_⟩⟩
  rw [(h k).size] at hi
  have hx : (t k)[i]? = some (t k)[i] := List.getElem?_eq_getElem hi
  rw [hx, (h k).read i _ hx]

/-! ## What a step changes -/

theorem holds_step {s' : Nat → LFVector T} {op : Op T} {b : Output T} (h : Holds P s t)
    (hs : (vectors P).step s op = some (b, s')) : ∃ t', Holds P s' t' := by
  obtain ⟨b', s1, t', hs1, -, hholds⟩ := step_spec h op
  rw [hs1] at hs
  cases hs
  exact ⟨t', hholds⟩

theorem assign_step {s' : Nat → LFVector T} {b : Output T} {k m : Nat} (h : Holds P s t)
    (hs : (vectors P).step s (.assign k m) = some (b, s')) :
    (k = m ∧ s' = s) ∨ (k ≠ m ∧ ∃ v, s' = update s k v ∧ Rep P v (t m) ∧
      Replaced P (s m) (s k) v (t m).length 0 P.nSlots) := by
  by_cases hkm : k = m
  · have hs' : (if k = m then some (.done, s) else _) = some (b, s') := hs
    rw [if_pos hkm] at hs'
    cases hs'
    exact Or.inl ⟨hkm, rfl⟩
  · obtain ⟨v, hv, hrep, hr⟩ := assign_spec (h k) (h m)
    have hs' : (if k = m then _ else
        ((s k).assign P (s m)).map fun v => (.done, update s k v)) = some (b, s') := hs
    rw [if_neg hkm, hv] at hs'
    cases hs'
    exact Or.inr ⟨hkm, v, rfl, hrep, hr⟩

theorem write_step {s' : Nat → LFVector T} {b : Output T} {k i : Nat} {x : T}
    (hs : (vectors P).step s (.write k i x) = some (b, s')) :
    s' = s ∨ (i < (s k).size ∧ ∃ v, (s k).put P i x = some v ∧ s' = update s k v) := by
  by_cases hi : i < (s k).size
  · have hs' : (if i < (s k).size then
        ((s k).put P i x).map fun v => (.done, update s k v) else _) = some (b, s') := hs
    rw [if_pos hi] at hs'
    obtain ⟨v, hv, heq⟩ := Option.map_eq_some_iff.mp hs'
    cases heq
    exact Or.inr ⟨hi, v, hv, rfl⟩
  · have hs' : (if i < (s k).size then _ else some (.done, s)) = some (b, s') := hs
    rw [if_neg hi] at hs'
    cases hs'
    exact Or.inl rfl

theorem equal_step {s' : Nat → LFVector T} {b : Output T} {k m : Nat}
    (hs : (vectors P).step s (.equal k m) = some (b, s')) : s' = s := by
  have hs' : (if k = m then some (.result true, s) else
    ((s k).equal P (s m)).map fun b => (.result b, s)) = some (b, s') := hs
  split_ifs at hs'
  · cases hs'
    rfl
  · obtain ⟨_, _, heq⟩ := Option.map_eq_some_iff.mp hs'
    cases heq
    rfl

end Lunchbox.LFVector
