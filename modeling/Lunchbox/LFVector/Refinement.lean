import Lunchbox.LFVector.Storage

set_option autoImplicit false

/-! # The operations of a vector on the list it holds

Each operation on a vector that holds a list (`Rep`) makes only defined accesses, and leaves a
vector that holds the list which the operation gives on a `std::vector`.
-/

namespace Lunchbox.LFVector

variable {T : Type} {P : Params T} {v v' w : LFVector T} {xs ys : List T} {x y : T} {i : Nat}

/-- The vector holds the list. -/
structure Rep (P : Params T) (v : LFVector T) (xs : List T) : Prop extends Stores P v xs where
  size : v.size = xs.length

theorem rep_new : Rep P (new : LFVector T) [] :=
  ⟨⟨shape_new, by simp⟩, rfl⟩

/-! ## Growing -/

theorem pushBackUnlocked_eq (v : LFVector T) (x : T) :
    v.pushBackUnlocked P x = if slotOf v.size < P.nSlots then
        ((v.ensure P (slotOf v.size) (2 ^ slotOf v.size)).put P v.size x).map fun v =>
          (true, v.setSize (v.size + 1))
      else some (false, v) := by
  simp only [pushBackUnlocked, lastBit_succ, Int.toNat_natCast, Nat.one_shiftLeft, xor_slotOf]
  by_cases hs : slotOf v.size < P.nSlots
  · rw [if_pos hs, if_neg (by omega), put_eq]
  · rw [if_neg hs, if_pos (by omega)]

theorem pushBack_full (h : Rep P v xs) (hfull : xs.length + 1 = 2 ^ P.nSlots) (x : T) :
    v.pushBackUnlocked P x = some (false, v) := by
  have hs : ¬ slotOf v.size < P.nSlots := by
    rw [slotOf_lt_iff, h.size]
    omega
  rw [pushBackUnlocked_eq, if_neg hs]

theorem pushBack_room (h : Rep P v xs) (hroom : xs.length + 1 < 2 ^ P.nSlots) (x : T) :
    ∃ v', v.pushBackUnlocked P x = some (true, v') ∧ Rep P v' (xs ++ [x]) := by
  have hs : slotOf v.size < P.nSlots := by
    rw [slotOf_lt_iff, h.size]
    exact hroom
  have hstores := h.toStores.ensure hs
  obtain ⟨u, hput, hw⟩ := put_spec hstores.shape (ensure_isSome v _ _) x
  rw [h.size] at hput hw
  refine ⟨u.setSize (u.size + 1), ?_, (hstores.append (h.size ▸ hw)).setSize _, ?_⟩
  · rw [pushBackUnlocked_eq, if_pos hs, h.size, hput]
    rfl
  · rw [setSize_size, hw.size, ensure_size, h.size, List.length_append]
    rfl

/-- Filling up stops when the vector is full. -/
theorem fill_spec (h : Rep P v xs) (x : T) (n : Nat) :
    ∃ v', fill P x n v = some (decide (xs.length + n < 2 ^ P.nSlots), v') ∧
      Rep P v' (xs ++ List.replicate (min n (2 ^ P.nSlots - 1 - xs.length)) x) := by
  have hlt := h.length_lt
  induction n generalizing v xs with
  | zero => exact ⟨v, by simp [fill, hlt], by simpa using h⟩
  | succ n ih =>
      by_cases hfull : xs.length + 1 = 2 ^ P.nSlots
      · refine ⟨v, ?_, ?_⟩
        · rw [fill, pushBack_full h hfull, decide_eq_false (by omega)]
        · have h0 : min (n + 1) (2 ^ P.nSlots - 1 - xs.length) = 0 := by omega
          rw [h0, List.replicate_zero, List.append_nil]
          exact h
      · obtain ⟨u, hu, hrep⟩ := pushBack_room h (by omega) x
        obtain ⟨u', hu', hrep'⟩ := ih hrep hrep.length_lt
        rw [List.length_append, List.length_singleton] at hu' hrep'
        refine ⟨u', ?_, ?_⟩
        · rw [fill, hu]
          simp only [hu']
          congr 3
          exact propext (by omega)
        · have hmin : min (n + 1) (2 ^ P.nSlots - 1 - xs.length)
              = min n (2 ^ P.nSlots - 1 - (xs.length + 1)) + 1 := by omega
          rw [hmin, List.replicate_succ, List.append_cons]
          exact hrep'

/-! ## Shrinking -/

/-- The spare slot that `trim_` frees holds no element. -/
theorem Rep.trim (h : Rep P v xs) : Rep P (v.trim P) xs := by
  unfold LFVector.trim
  rw [lastBit_succ]
  simp only
  split_ifs with hs
  · refine ⟨h.toStores.deallocate fun i hi => ?_, h.size⟩
    have hle : slotOf i ≤ slotOf v.size := slotOf_mono (by rw [h.size]; exact Nat.le_of_lt hi)
    omega
  · exact h

theorem dropBack_spec (h : Rep P v (xs ++ [y])) (x : T) :
    ∃ v', v.dropBack P x = some v' ∧ Rep P v' xs := by
  have hsize : v.size - 1 = xs.length := by
    rw [h.size, List.length_append]
    rfl
  have hlen : xs.length < (xs ++ [y]).length := by simp
  have hstores := h.toStores.setSize xs.length
  obtain ⟨u, hput, hw⟩ := put_spec hstores.shape (h.allocated hlen).2 x
  refine ⟨u, ?_, ?_, ?_⟩
  · simp only [dropBack, hsize, setSize_size]
    exact hput
  · have hset := hstores.write hw
    rw [List.set_append_right _ _ (le_refl _)] at hset
    exact hset.of_append
  · rw [hw.size, setSize_size]

theorem popBack_spec (h : Rep P v xs) : ∃ v', v.popBack P = some v' ∧ Rep P v' xs.dropLast := by
  unfold popBack
  rw [h.size]
  rcases List.eq_nil_or_concat' xs with rfl | ⟨xs, y, rfl⟩
  · exact ⟨v, rfl, h⟩
  · obtain ⟨u, hu, hrep⟩ := dropBack_spec h P.dflt
    refine ⟨u.trim P, ?_, ?_⟩
    · rw [if_neg (by simp), hu]
      rfl
    · rw [List.dropLast_concat]
      exact hrep.trim

theorem popBackTo_spec (h : Rep P v xs) :
    ∃ v', v.popBackTo P = some (xs.getLast?, v') ∧ Rep P v' xs.dropLast := by
  unfold popBackTo
  rw [h.size]
  rcases List.eq_nil_or_concat' xs with rfl | ⟨xs, y, rfl⟩
  · exact ⟨v, rfl, h⟩
  · obtain ⟨u, hu, hrep⟩ := dropBack_spec h P.dflt
    have hget : v.get P ((xs ++ [y]).length - 1) = some y := h.read _ y (by simp)
    refine ⟨u.trim P, ?_, ?_⟩
    · rw [if_neg (by simp), hget, Option.bind_some, hu, List.getLast?_concat]
      rfl
    · rw [List.dropLast_concat]
      exact hrep.trim

/-- Moving the elements `zs` after `y` down by one place leaves the last element twice. -/
theorem copyDown_spec (zs : List T) (h : Stores P v (xs ++ y :: zs)) :
    ∃ v' z, copyDown P zs.length xs.length v = some v' ∧ v'.size = v.size ∧
      Stores P v' (xs ++ zs ++ [z]) := by
  induction zs generalizing v xs y with
  | nil => exact ⟨v, y, rfl, rfl, by simpa using h⟩
  | cons a zs ih =>
      have hget : v.get P (xs.length + 1) = some a := by
        apply h.read
        rw [List.getElem?_append_right (Nat.le_succ _)]
        simp
      obtain ⟨u, hput, hw⟩ := put_spec h.shape (h.allocated (i := xs.length) (by simp)).2 a
      have hset := h.write hw
      rw [List.set_append_right _ _ (le_refl _), Nat.sub_self, List.set_cons_zero,
        List.append_cons] at hset
      obtain ⟨u', z, hcopy, hsize, hstores⟩ := ih hset
      rw [List.length_append, List.length_singleton] at hcopy
      refine ⟨u', z, ?_, hsize.trans hw.size, ?_⟩
      · rw [List.length_cons, copyDown, hget, Option.bind_some, hput, Option.bind_some, hcopy]
      · rw [List.append_cons xs a zs]
        exact hstores

/-- Removing an element from the middle. -/
theorem remove_spec (h : Rep P v (xs ++ y :: ys)) (x : T) :
    ∃ v', v.remove P xs.length x = some v' ∧ Rep P v' (xs ++ ys) := by
  have hsize : v.size - 1 = (xs ++ ys).length := by
    rw [h.size]
    simp only [List.length_append, List.length_cons]
    omega
  have hn : (xs ++ ys).length - xs.length = ys.length := by simp
  -- after the copy there is one element too many, which is overwritten and not counted
  obtain ⟨u, z, hcopy, husize, hstores⟩ := copyDown_spec ys (h.toStores.setSize (v.size - 1))
  rw [setSize_size, hsize] at husize
  have hlast : (xs ++ ys).length < (xs ++ ys ++ [z]).length := by simp
  obtain ⟨u', hput, hw⟩ := put_spec hstores.shape (hstores.allocated hlast).2 x
  have hrep : Rep P u' (xs ++ ys) := by
    refine ⟨?_, hw.size.trans husize⟩
    have hset := hstores.write hw
    rw [List.set_append_right _ _ (le_refl _)] at hset
    exact hset.of_append
  refine ⟨u'.trim P, ?_, hrep.trim⟩
  rw [hsize] at hcopy
  simp only [remove, setSize_size, hsize, hn, hcopy, Option.bind_some, husize, hput,
    Option.map_some]

theorem remove_eraseIdx (h : Rep P v xs) (hi : i < xs.length) (x : T) :
    ∃ v', v.remove P i x = some v' ∧ Rep P v' (xs.eraseIdx i) := by
  have hsplit : xs = xs.take i ++ xs[i] :: xs.drop (i + 1) := by
    rw [List.cons_getElem_drop_succ, List.take_append_drop]
  have hlen : (xs.take i).length = i := List.length_take_of_le (Nat.le_of_lt hi)
  rw [hsplit] at h
  have hspec := remove_spec h x
  rwa [hlen, ← List.eraseIdx_eq_take_drop_succ] at hspec

theorem eraseAt_spec (h : Rep P v xs) (own : Bool) (i : Nat) :
    ∃ v', v.eraseAt P own i = some (if own ∧ i < xs.length then i else xs.length, v') ∧
      Rep P v' (if own ∧ i < xs.length then xs.eraseIdx i else xs) := by
  unfold eraseAt
  rw [h.size]
  by_cases hi : own = true ∧ i < xs.length
  · obtain ⟨u, hu, hrep⟩ := remove_eraseIdx h hi.2 P.dflt
    refine ⟨u, ?_, ?_⟩
    · rw [if_neg (by simp [hi]), if_pos hi, hu]
      rfl
    · rwa [if_pos hi]
  · refine ⟨v, ?_, ?_⟩
    · rw [if_neg hi, if_pos]
      by_cases ho : own = true
      · exact Or.inr (Nat.le_of_not_lt fun h => hi ⟨ho, h⟩)
      · exact Or.inl (by simpa using ho)
    · rwa [if_neg hi]

theorem shrink_spec (h : Rep P v (xs ++ ys)) :
    ∃ v', shrink P ys.length v = some v' ∧ Rep P v' xs := by
  induction ys using List.reverseRecOn generalizing v with
  | nil => exact ⟨v, rfl, by simpa using h⟩
  | append_singleton ys y ih =>
      rw [← List.append_assoc] at h
      obtain ⟨u, hu, hrep⟩ := dropBack_spec h P.dflt
      obtain ⟨u', hu', hrep'⟩ := ih hrep
      refine ⟨u', ?_, hrep'⟩
      rw [List.length_append, List.length_singleton, shrink, hu, Option.bind_some, hu']

theorem expand_spec (h : Rep P v xs) (n : Nat) (x : T) :
    ∃ v', v.expand P n x = some (decide (n < 2 ^ P.nSlots), v') ∧
      Rep P v' (xs ++ List.replicate (min n (2 ^ P.nSlots - 1) - xs.length) x) := by
  have hlt := h.length_lt
  obtain ⟨u, hu, hrep⟩ := fill_spec h x (n - xs.length)
  refine ⟨u, ?_, ?_⟩
  · rw [expand, h.size, hu]
    congr 3
    exact propext (by omega)
  · have hmin : min (n - xs.length) (2 ^ P.nSlots - 1 - xs.length)
        = min n (2 ^ P.nSlots - 1) - xs.length := by omega
    rwa [hmin] at hrep

theorem resize_spec (h : Rep P v xs) (n : Nat) (x : T) :
    ∃ v', v.resize P n x = some (decide (n < 2 ^ P.nSlots), v') ∧
      Rep P v' (xs.take n ++ List.replicate (min n (2 ^ P.nSlots - 1) - xs.length) x) := by
  have hlt := h.length_lt
  have hdrop : v.size - n = (xs.drop n).length := by rw [h.size, List.length_drop]
  rw [← List.take_append_drop n xs] at h
  obtain ⟨u, hu, hrep⟩ := shrink_spec h
  -- after the loop that shrinks, `resize` is `expand`
  obtain ⟨u', hu', hrep'⟩ := expand_spec hrep.trim n x
  refine ⟨u', ?_, ?_⟩
  · rw [resize, hdrop, hu, Option.bind_some]
    exact hu'
  · have hmin : min n (2 ^ P.nSlots - 1) - (xs.take n).length
        = min n (2 ^ P.nSlots - 1) - xs.length := by
      rw [List.length_take]
      omega
    rwa [hmin] at hrep'

theorem clear_spec (h : Rep P v xs) : ∃ v', v.clear P = some v' ∧ Rep P v' [] := by
  rw [← List.nil_append xs] at h
  obtain ⟨u, hu, hrep⟩ := shrink_spec h
  have hclear : v.clear P
      = some { u with slots := fun i => if i < P.nSlots then none else u.slots i } := by
    rw [LFVector.clear, h.size, List.nil_append, hu, Option.map_some]
  refine ⟨_, hclear, ⟨?_, by simp⟩, hrep.size⟩
  intro s cells hs
  by_cases hlt : s < P.nSlots
  · simp [hlt] at hs
  · simp only [hlt, if_false] at hs
    exact hrep.shape s cells hs

/-! ## Assignment -/

/-- The vector holds the elements of `ys` before the position `k`. -/
structure Copied (P : Params T) (v : LFVector T) (ys : List T) (k : Nat) : Prop
    extends Stores P v (ys.take k) where
  size : v.size = min k ys.length

theorem Copied.complete {k : Nat} (h : Copied P v ys k) (hk : ys.length ≤ k) : Rep P v ys := by
  refine ⟨?_, h.size.trans (Nat.min_eq_right hk)⟩
  have := h.toStores
  rwa [List.take_of_length_le hk] at this

theorem Rep.copied {k : Nat} (h : Rep P v ys) (hk : ys.length ≤ k) : Copied P v ys k := by
  refine ⟨?_, h.size.trans (Nat.min_eq_right hk).symm⟩
  rw [List.take_of_length_le hk]
  exact h.toStores

/-- Writing elements before the position `m` leaves the slots and what is behind `m`. -/
structure Behind (P : Params T) (m : Nat) (v v' : LFVector T) : Prop where
  slots : ∀ s, (v'.slots s).isSome = (v.slots s).isSome
  get : ∀ e, m ≤ e → v'.get P e = v.get P e

theorem Behind.refl (m : Nat) (v : LFVector T) : Behind P m v v := ⟨fun _ => rfl, fun _ _ => rfl⟩

theorem Behind.trans {m : Nat} {u : LFVector T} (h : Behind P m v u) (h' : Behind P m u w) :
    Behind P m v w :=
  ⟨fun s => (h'.slots s).trans (h.slots s), fun e he => (h'.get e he).trans (h.get e he)⟩

/-- One more element, written to its cell. -/
theorem Copied.store {j : Nat} (h : Copied P v ys (2 ^ i - 1 + j)) (hj : j < 2 ^ i)
    (hx : ys[2 ^ i - 1 + j]? = some x) (ha : (v.slots i).isSome) :
    ∃ u, v.store P (i : Int) j x = some u ∧ Behind P ys.length v u ∧
      Copied P (u.setSize (u.size + 1)) ys (2 ^ i - 1 + (j + 1)) := by
  -- the cell `j` of the slot `i` is the element `k`
  obtain ⟨hs, hidx⟩ := address_of hj
  set k := 2 ^ i - 1 + j with hk
  obtain ⟨hlt, rfl⟩ := List.getElem?_eq_some_iff.mp hx
  have hlen : (ys.take k).length = k := List.length_take_of_le (Nat.le_of_lt hlt)
  obtain ⟨u, hput, hwr⟩ := put_spec (i := k) h.shape (by rw [hs]; exact ha) ys[k]
  rw [put_eq, hs, hidx] at hput
  refine ⟨u, hput, ⟨hwr.slots, fun e he => hwr.other e (by omega)⟩, ?_⟩
  have hsucc : 2 ^ i - 1 + (j + 1) = k + 1 := by omega
  rw [hsucc]
  refine ⟨?_, ?_⟩
  · rw [List.take_succ_eq_append_getElem hlt]
    exact (h.toStores.append (hlen.symm ▸ hwr)).setSize _
  · rw [setSize_size, hwr.size, h.size]
    omega

/-- A loop over the cells of a slot that ends early has copied every element. -/
theorem Copied.skip {j : Nat} (h : Copied P v ys (2 ^ i - 1 + j)) (hj : j ≤ 2 ^ i)
    (hle : ys.length ≤ v.size) : Copied P v ys (2 ^ (i + 1) - 1) := by
  have hsize := h.size
  have hpow : 2 ^ (i + 1) = 2 * 2 ^ i := by rw [pow_succ, Nat.mul_comm]
  exact (h.complete (by omega)).copied (by omega)

theorem copyCells_spec (hsize : w.size = ys.length)
    (hload : ∀ j < 2 ^ i, ∀ x, ys[2 ^ i - 1 + j]? = some x → w.load P (i : Int) j = some x)
    (n j : Nat) (hn : j + n = 2 ^ i) (h : Copied P v ys (2 ^ i - 1 + j)) (ha : (v.slots i).isSome) :
    ∃ v', copyCells P w i n j v = some v' ∧ Copied P v' ys (2 ^ (i + 1) - 1) ∧
      Behind P ys.length v v' := by
  induction n generalizing v j with
  | zero =>
      have hk : 2 ^ i - 1 + j = 2 ^ (i + 1) - 1 := by
        rw [pow_succ]
        omega
      rw [hk] at h
      exact ⟨v, rfl, h, .refl _ v⟩
  | succ n ih =>
      have hv := h.size
      by_cases hlt : v.size < w.size
      · have hk : 2 ^ i - 1 + j < ys.length := by omega
        have hx : ys[2 ^ i - 1 + j]? = some ys[2 ^ i - 1 + j] := List.getElem?_eq_getElem hk
        obtain ⟨u, hstore, hb, hcop⟩ := h.store (by omega) hx ha
        obtain ⟨u', hu', hcop', hb'⟩ :=
          ih (j + 1) (by omega) hcop (by rw [setSize_slots, hb.slots, ha])
        refine ⟨u', ?_, hcop', hb.trans ⟨hb'.slots, hb'.get⟩⟩
        rw [copyCells, if_pos hlt, hload j (by omega) _ hx, Option.bind_some, hstore,
          Option.bind_some, hu']
      · refine ⟨v, ?_, h.skip (by omega) (by omega), .refl _ v⟩
        rw [copyCells, if_neg hlt]

/-- The cells of a slot hold the elements that have their address there. -/
theorem Rep.load (h : Rep P w ys) {j : Nat} (hj : j < 2 ^ i)
    (hx : ys[2 ^ i - 1 + j]? = some x) : w.load P (i : Int) j = some x := by
  obtain ⟨hs, hidx⟩ := address_of hj
  have := h.read _ x hx
  rwa [get_eq, hs, hidx] at this

/-- A slot that is not allocated is behind the elements. -/
theorem Rep.length_le (h : Rep P w ys) (hi : ¬ (w.slots i).isSome) : ys.length ≤ 2 ^ i - 1 := by
  by_contra hlt
  have hslot : slotOf (2 ^ i - 1) = i := (address_of (Nat.two_pow_pos i)).1
  have := (h.allocated (Nat.lt_of_not_le hlt)).2
  rw [hslot] at this
  exact hi this

/-- What the assignment from `w` leaves behind its elements, after the slots from `a` to `b`: those
that `w` has, with what they held before or with new elements. -/
def Replaced (P : Params T) (w v v' : LFVector T) (m a b : Nat) : Prop :=
  ∀ e, m ≤ e →
    if a ≤ slotOf e ∧ slotOf e < b then
      (v'.slots (slotOf e)).isSome = (w.slots (slotOf e)).isSome ∧
      ((w.slots (slotOf e)).isSome →
        v'.get P e = if (v.slots (slotOf e)).isSome then v.get P e else P.fresh)
    else (v'.slots (slotOf e)).isSome = (v.slots (slotOf e)).isSome ∧ v'.get P e = v.get P e

theorem Replaced.trans {u : LFVector T} {m a b c : Nat} (hab : a ≤ b) (hbc : b ≤ c)
    (h : Replaced P w v u m a b) (h' : Replaced P w u v' m b c) : Replaced P w v v' m a c := by
  intro e he
  have h1 := h e he
  have h2 := h' e he
  by_cases hb : slotOf e < b
  · rw [if_neg (by omega)] at h2
    rw [h2.1, h2.2]
    by_cases ha : a ≤ slotOf e
    · rw [if_pos ⟨ha, hb⟩] at h1
      rw [if_pos ⟨ha, by omega⟩]
      exact h1
    · rw [if_neg fun hc => ha hc.1] at h1
      rw [if_neg fun hc => ha hc.1]
      exact h1
  · rw [if_neg fun hc => hb hc.2] at h1
    rw [h1.1, h1.2] at h2
    by_cases hc : slotOf e < c
    · rw [if_pos ⟨by omega, hc⟩] at h2 ⊢
      exact h2
    · rw [if_neg fun hc' => hc hc'.2] at h2 ⊢
      exact h2

/-- An element in a slot that may be new. -/
theorem get_ensure (hs : slotOf i < P.nSlots) :
    (v.ensure P (slotOf i) (2 ^ slotOf i)).get P i
      = if (v.slots (slotOf i)).isSome then v.get P i else P.fresh := by
  unfold ensure
  cases hslot : v.slots (slotOf i) with
  | none => simp [get_eq, load, deref_nat, hs, LFVector.allocate, indexOf_lt]
  | some cells => simp

theorem ensure_slots_of_ne {s r : Nat} (h : r ≠ s) (n : Nat) :
    (v.ensure P s n).slots r = v.slots r := by
  unfold ensure
  split_ifs
  · exact Function.update_of_ne h _ _
  · rfl

theorem copySlot_spec (hw : Rep P w ys) (hi : i < P.nSlots) (h : Copied P v ys (2 ^ i - 1)) :
    ∃ v', copySlot P w i v = some v' ∧ Copied P v' ys (2 ^ (i + 1) - 1) ∧
      Replaced P w v v' ys.length i (i + 1) := by
  unfold copySlot
  rw [Nat.one_shiftLeft]
  by_cases hsome : (w.slots i).isSome
  · rw [if_pos hsome]
    have hcop : Copied P (v.ensure P i (2 ^ i)) ys (2 ^ i - 1 + 0) := by
      refine ⟨h.toStores.ensure hi, ?_⟩
      rw [ensure_size, h.size, Nat.add_zero]
    obtain ⟨u, hu, hcop', hb⟩ := copyCells_spec hw.size (fun _ hj _ hx => hw.load hj hx) (2 ^ i) 0
      (Nat.zero_add _) hcop (ensure_isSome v i _)
    refine ⟨u, hu, hcop', fun e he => ?_⟩
    rw [hb.slots, hb.get e he]
    by_cases hs : slotOf e = i
    · subst hs
      rw [if_pos ⟨le_refl _, Nat.lt_succ_self _⟩, get_ensure hi, ensure_isSome, hsome]
      exact ⟨rfl, fun _ => rfl⟩
    · have hne := ensure_slots_of_ne (P := P) (v := v) hs (2 ^ i)
      rw [if_neg fun hc => hs (by omega), hne]
      exact ⟨rfl, get_congr hne⟩
  · have hle := hw.length_le hsome
    have hpow : 2 ^ (i + 1) = 2 * 2 ^ i := by rw [pow_succ, Nat.mul_comm]
    have hrep := h.complete hle
    rw [if_neg hsome]
    refine ⟨_, rfl, Rep.copied ?_ (by omega), fun e _ => ?_⟩
    · split_ifs
      · refine ⟨hrep.toStores.deallocate fun k hk => ?_, hrep.size⟩
        exact Nat.ne_of_lt (slotOf_lt_iff.mpr (by omega))
      · exact hrep
    · by_cases hs : slotOf e = i
      · subst hs
        rw [if_pos ⟨le_refl _, Nat.lt_succ_self _⟩]
        refine ⟨?_, fun hc => absurd hc hsome⟩
        rw [Bool.eq_false_of_not_eq_true hsome]
        split_ifs with hv
        · simp [LFVector.deallocate]
        · exact Bool.eq_false_of_not_eq_true hv
      · have hne : (if (v.slots i).isSome then v.deallocate i else v).slots (slotOf e)
            = v.slots (slotOf e) := by
          split_ifs
          · exact Function.update_of_ne hs _ _
          · rfl
        rw [if_neg fun hc => hs (by omega), hne]
        exact ⟨rfl, get_congr hne⟩

theorem copySlots_spec (hw : Rep P w ys) (n i : Nat) (hn : i + n = P.nSlots)
    (h : Copied P v ys (2 ^ i - 1)) :
    ∃ v', copySlots P w n i v = some v' ∧ Copied P v' ys (2 ^ P.nSlots - 1) ∧
      Replaced P w v v' ys.length i P.nSlots := by
  induction n generalizing v i with
  | zero =>
      rw [Nat.add_zero] at hn
      subst hn
      refine ⟨v, rfl, h, fun e _ => ?_⟩
      rw [if_neg (by omega)]
      exact ⟨rfl, rfl⟩
  | succ n ih =>
      obtain ⟨u, hu, hcop, hr⟩ := copySlot_spec hw (by omega) h
      obtain ⟨u', hu', hcop', hr'⟩ := ih (i + 1) (by omega) hcop
      refine ⟨u', ?_, hcop', hr.trans (Nat.le_succ i) (by omega) hr'⟩
      rw [copySlots, hu, Option.bind_some, hu']

theorem assign_spec (h : Rep P v xs) (hw : Rep P w ys) :
    ∃ v', v.assign P w = some v' ∧ Rep P v' ys ∧ Replaced P w v v' ys.length 0 P.nSlots := by
  have hlt := hw.length_lt
  have h0 : Copied P (v.setSize 0) ys (2 ^ 0 - 1) := by
    refine ⟨⟨h.shape, ?_⟩, by simp⟩
    simp
  obtain ⟨u, hu, hcop, hr⟩ := copySlots_spec hw P.nSlots 0 (Nat.zero_add _) h0
  exact ⟨u, hu, hcop.complete (by omega), hr⟩

/-! ## Searching and comparing -/

section Equality

variable [DecidableEq T]

/-- The position of the last occurrence. -/
def lastIndex (x : T) (xs : List T) : Option Nat :=
  (List.range xs.length).reverse.find? fun i => xs[i]? = some x

theorem findLast_spec (h : Rep P v xs) (x : T) (n : Nat) (hn : n ≤ xs.length) :
    v.findLast P x n = some ((List.range n).reverse.find? fun i => xs[i]? = some x) := by
  induction n with
  | zero => rfl
  | succ n ih =>
      have hx : xs[n]? = some xs[n] := List.getElem?_eq_getElem (by omega)
      rw [findLast, h.read n _ hx, Option.bind_some, List.range_succ, List.reverse_append,
        List.reverse_singleton, List.singleton_append, List.find?_cons, hx, ih (by omega)]
      by_cases he : xs[n] = x <;> simp [he]

theorem erase_spec (h : Rep P v xs) (x : T) :
    ∃ v', v.erase P x = some ((lastIndex x xs).getD xs.length, v') ∧
      Rep P v' ((lastIndex x xs).elim xs xs.eraseIdx) := by
  unfold erase
  rw [h.size, findLast_spec h x _ (le_refl _), Option.bind_some]
  cases hf : lastIndex x xs with
  | none =>
      simp only [lastIndex] at hf
      rw [hf]
      exact ⟨v, rfl, h⟩
  | some i =>
      simp only [lastIndex] at hf
      have hi : i < xs.length := by
        have := List.mem_of_find?_eq_some hf
        rwa [List.mem_reverse, List.mem_range] at this
      obtain ⟨u, hu, hrep⟩ := remove_eraseIdx h hi P.zero
      refine ⟨u, ?_, hrep⟩
      rw [hf]
      simp only [hu]
      rfl

theorem equalFrom_spec (h : Rep P v xs) (hw : Rep P w ys) (n i : Nat) (hx : i + n = xs.length)
    (hy : i + n = ys.length) :
    v.equalFrom P w n i = some (decide (xs.drop i = ys.drop i)) := by
  induction n generalizing i with
  | zero =>
      rw [List.drop_of_length_le (by omega), List.drop_of_length_le (by omega)]
      simp [equalFrom]
  | succ n ih =>
      have hxi : i < xs.length := by omega
      have hyi : i < ys.length := by omega
      rw [equalFrom, h.read i _ (List.getElem?_eq_getElem hxi), Option.bind_some,
        hw.read i _ (List.getElem?_eq_getElem hyi), Option.bind_some,
        List.drop_eq_getElem_cons hxi, List.drop_eq_getElem_cons hyi,
        ih (i + 1) (by omega) (by omega)]
      by_cases he : xs[i] = ys[i]
      · rw [if_neg (not_not.mpr he), he]
        simp only [List.cons.injEq, true_and]
      · rw [if_pos he, decide_eq_false]
        intro hcons
        exact he (List.cons.inj hcons).1

theorem equal_spec (h : Rep P v xs) (hw : Rep P w ys) :
    v.equal P w = some (decide (xs = ys)) := by
  unfold equal
  rw [h.size, hw.size]
  by_cases hl : xs.length = ys.length
  · rw [if_neg (not_not.mpr hl), equalFrom_spec h hw _ 0 (Nat.zero_add _) (by omega)]
    rfl
  · rw [if_pos hl, decide_eq_false fun he => hl (congrArg List.length he)]

end Equality

end Lunchbox.LFVector
