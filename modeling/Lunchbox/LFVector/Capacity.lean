import Lunchbox.LFVector.Refinement

set_option autoImplicit false

/-! # The capacity of a vector

A vector with `nSlots` slots has room for `2 ^ nSlots - 1` elements. Six functions add elements,
and only `push_back_unlocked_` checks for a free slot, so `push_back`, `expand` and `resize` are
right always. `LFVector(n)` and `LFVector(n, t)` go on to slots outside `slots_`, or throw at the
slot 31, whose length does not fit an `int` (`forSlots_stops`). The copy from a vector with another
number of slots stops when it has no more slots, with elements left.
-/

namespace Lunchbox.LFVector

variable {T : Type} {P Q : Params T} {v v' w : LFVector T} {xs ys : List T} {i n : Nat}

/-! ## What is required -/

/-- What is stored for the element `i`, which may be indeterminate. -/
def cell (P : Params T) (v : LFVector T) (i : Nat) : Option (Option T) :=
  (v.deref P (slotOf i : Int)).bind fun cells => cells[indexOf i]?

/-- The elements are exactly `es`, in arrays that are allocated within `slots_`. -/
structure Contains (P : Params T) (v : LFVector T) (es : List (Option T)) : Prop where
  shape : Shape P v
  size : v.size = es.length
  cells : ∀ i o, es[i]? = some o → v.cell P i = some o

/-- A function that should give the elements `es` gives them, or it throws because they are too
many. -/
def Enforces (P : Params T) (es : List (Option T)) : Option (Bool × LFVector T) → Prop
  | some (true, v) => Contains P v es
  | some (false, _) => 2 ^ P.nSlots - 1 < es.length
  | none => False

theorem Contains.length_lt {es : List (Option T)} (h : Contains P v es) :
    es.length < 2 ^ P.nSlots := by
  cases hn : es.length with
  | zero => exact Nat.two_pow_pos _
  | succ n =>
      have hcell := h.cells n _ (List.getElem?_eq_getElem (by omega : n < es.length))
      rw [cell, deref_nat] at hcell
      split_ifs at hcell with hs
      · exact slotOf_lt_iff.mp hs
      · cases hcell

theorem Rep.contains (h : Rep P v xs) : Contains P v (xs.map some) := by
  refine ⟨h.shape, by rw [h.size, List.length_map], fun i o ho => ?_⟩
  rw [List.getElem?_map, Option.map_eq_some_iff] at ho
  obtain ⟨x, hx, rfl⟩ := ho
  have hget := h.read i x hx
  rw [get_eq, LFVector.load, Option.bind_eq_some_iff] at hget
  obtain ⟨cells, hc, hjoin⟩ := hget
  rw [cell, hc, Option.bind_some]
  exact Option.join_eq_some_iff.mp hjoin

/-! ## The functions that check -/

theorem pushBack_enforces (h : Rep P v xs) (x : T) :
    Enforces P ((xs ++ [x]).map some) (v.pushBack P x) := by
  have hlt := h.length_lt
  unfold pushBack
  by_cases hfull : xs.length + 1 = 2 ^ P.nSlots
  · rw [pushBack_full h hfull]
    show 2 ^ P.nSlots - 1 < _
    simp only [List.length_map, List.length_append, List.length_singleton]
    omega
  · obtain ⟨u, hu, hrep⟩ := pushBack_room h (by omega) x
    rw [hu]
    exact hrep.contains

/-- The outcome of `expand` and `resize`. -/
theorem enforces_replicate {r : Option (Bool × LFVector T)} {m : Nat} (x : T)
    (hxs : m < n → xs.length = m) (hm : m < 2 ^ P.nSlots)
    (hr : r = some (decide (n < 2 ^ P.nSlots), v))
    (hrep : Rep P v (xs ++ List.replicate (min n (2 ^ P.nSlots - 1) - m) x)) :
    Enforces P ((xs ++ List.replicate (n - m) x).map some) r := by
  subst hr
  by_cases hn : n < 2 ^ P.nSlots
  · rw [decide_eq_true hn]
    have hmin : min n (2 ^ P.nSlots - 1) = n := by omega
    rw [hmin] at hrep
    exact hrep.contains
  · rw [decide_eq_false hn]
    show 2 ^ P.nSlots - 1 < _
    have := hxs (by omega)
    simp only [List.length_map, List.length_append, List.length_replicate]
    omega

theorem expand_enforces (h : Rep P v xs) (n : Nat) (x : T) :
    Enforces P ((xs ++ List.replicate (n - xs.length) x).map some) (v.expand P n x) := by
  obtain ⟨u, hu, hrep⟩ := expand_spec h n x
  exact enforces_replicate x (fun _ => rfl) h.length_lt hu hrep

theorem resize_enforces (h : Rep P v xs) (n : Nat) (x : T) :
    Enforces P ((xs.take n ++ List.replicate (n - xs.length) x).map some) (v.resize P n x) := by
  obtain ⟨u, hu, hrep⟩ := resize_spec h n x
  refine enforces_replicate x (fun hn => ?_) h.length_lt hu hrep
  rw [List.length_take]
  omega

/-! ## Loops over the slots -/

section Loop

variable {body : Nat → LFVector T → Option (Bool × LFVector T)} {I : Nat → LFVector T → Prop}
  {bound : Nat}

theorem forSlots_completes
    (hbody : ∀ i v, i < bound → I i v → ∃ v', body i v = some (true, v') ∧ I (i + 1) v')
    (hn : i + n ≤ bound) (h : I i v) :
    ∃ v', forSlots body n i v = some (true, v') ∧ I (i + n) v' := by
  induction n generalizing i v with
  | zero => exact ⟨v, rfl, h⟩
  | succ n ih =>
      obtain ⟨u, hu, hI⟩ := hbody i v (by omega) h
      obtain ⟨u', hu', hI'⟩ := ih (by omega) hI
      refine ⟨u', ?_, ?_⟩
      · rw [forSlots, hu, ← hu']
      · rwa [Nat.add_assoc, Nat.add_comm 1 n] at hI'

/-- A loop that goes beyond the bound ends as the round at the bound does. -/
theorem forSlots_stops {R : Option (Bool × LFVector T) → Prop}
    (hbody : ∀ i v, i < bound → I i v → ∃ v', body i v = some (true, v') ∧ I (i + 1) v')
    (hR : ∀ v, ¬ R (some (true, v))) (hstop : ∀ v, I bound v → R (body bound v))
    (hi : i ≤ bound) (hn : bound < i + n) (h : I i v) : R (forSlots body n i v) := by
  induction n generalizing i v with
  | zero => omega
  | succ n ih =>
      by_cases hb : i = bound
      · subst hb
        have hr := hstop v h
        cases hbody : body i v with
        | none =>
            rw [hbody] at hr
            simp only [forSlots, hbody]
            exact hr
        | some r =>
            rw [hbody] at hr
            obtain ⟨ok, u⟩ := r
            cases ok with
            | true => exact absurd hr (hR u)
            | false =>
                simp only [forSlots, hbody]
                exact hr
      · obtain ⟨u, hu, hI⟩ := hbody i v (by omega) h
        rw [forSlots, hu]
        exact ih (by omega) (by omega) hI

end Loop

/-! ## The constructors -/

/-- The slots that a constructor can allocate. -/
def Params.slotBound (P : Params T) : Nat := min P.nSlots 31

theorem newSlot_room (h : i < P.slotBound) (v : LFVector T) :
    v.newSlot P i = some (true, v.allocate P i (2 ^ i)) := by
  unfold Params.slotBound at h
  have hpos : ¬ (2 : Int) ^ i < 0 := not_lt_of_ge (by positivity)
  have hi : intShift i = some (2 ^ i) := if_pos (by omega)
  rw [newSlot, hi, Option.bind_some, if_neg hpos, if_pos (by omega)]
  norm_cast

/-- What happens at the first slot that cannot be allocated: it is outside `slots_`, or its length
is negative. -/
def Stops (P : Params T) (r : Option (Bool × LFVector T)) : Prop :=
  if P.nSlots < 31 then r = none else ∃ v, r = some (false, v)

theorem stops_newSlot (v : LFVector T) : Stops P (v.newSlot P P.slotBound) := by
  unfold Stops Params.slotBound
  by_cases hn : P.nSlots < 31
  · rw [if_pos hn, Nat.min_eq_left (Nat.le_of_lt hn)]
    have hpos : ¬ (2 : Int) ^ P.nSlots < 0 := not_lt_of_ge (by positivity)
    have hi : intShift P.nSlots = some (2 ^ P.nSlots) := if_pos hn
    rw [newSlot, hi, Option.bind_some, if_neg hpos, if_neg (Nat.lt_irrefl _)]
  · rw [if_neg hn, Nat.min_eq_right (Nat.le_of_not_lt hn)]
    exact ⟨v, rfl⟩

theorem not_stops (v : LFVector T) : ¬ Stops P (some (true, v)) := by
  unfold Stops
  split_ifs
  · simp
  · simp

theorem Stops.enforces {r : Option (Bool × LFVector T)} (h : Stops P r) (es : List (Option T)) :
    Enforces P es r ↔ 31 ≤ P.nSlots ∧ 2 ^ P.nSlots ≤ es.length := by
  have hpos := Nat.two_pow_pos P.nSlots
  unfold Stops at h
  split_ifs at h with hn
  · rw [h]
    exact iff_of_false (fun hf => hf) fun hc => by omega
  · obtain ⟨v, rfl⟩ := h
    show 2 ^ P.nSlots - 1 < es.length ↔ _
    omega

/-- A constructor with `k` rounds: it completes if so many slots can be allocated. -/
theorem enforces_forSlots {body : Nat → LFVector T → Option (Bool × LFVector T)}
    {I : Nat → LFVector T → Prop} {es : List (Option T)} {k : Nat}
    (hbody : ∀ i v, i < P.slotBound → I i v → ∃ v', body i v = some (true, v') ∧ I (i + 1) v')
    (hstop : ∀ v, I P.slotBound v → Stops P (body P.slotBound v)) (h0 : I 0 v)
    (hdone : k ≤ P.slotBound → ∀ v, I k v → Contains P v es) :
    Enforces P es (forSlots body k 0 v) ↔
      k ≤ P.slotBound ∨ 31 ≤ P.nSlots ∧ 2 ^ P.nSlots ≤ es.length := by
  by_cases hk : k ≤ P.slotBound
  · obtain ⟨u, hu, hI⟩ := forSlots_completes hbody (by omega : 0 + k ≤ P.slotBound) h0
    rw [hu]
    rw [Nat.zero_add] at hI
    exact iff_of_true (hdone hk u hI) (Or.inl hk)
  · have hstops := forSlots_stops hbody not_stops hstop (Nat.zero_le _)
      (by omega : P.slotBound < 0 + k) h0
    rw [hstops.enforces]
    exact (or_iff_right hk).symm

/-- The last slot for `n` elements. -/
theorem lastSlot_eq {n : Nat} (hn : n ≠ 0) : getIndexOfLastBit n = (slotOf (n - 1) : Int) := by
  rw [getIndexOfLastBit_eq hn, slotOf, Nat.sub_add_cancel (Nat.one_le_iff_ne_zero.mpr hn)]

theorem slotOf_pred_lt {n m : Nat} (hn : n ≠ 0) : slotOf (n - 1) < m ↔ n < 2 ^ m := by
  rw [slotOf_lt_iff, Nat.sub_add_cancel (Nat.one_le_iff_ne_zero.mpr hn)]

/-- The slots below `k` are allocated and not written. -/
structure Fresh (P : Params T) (n : Nat) (k : Nat) (v : LFVector T) : Prop where
  shape : Shape P v
  size : v.size = n
  slots : ∀ s < k, v.slots s = some (List.replicate (2 ^ s) P.fresh)

theorem Fresh.newSlot (hk : i < P.slotBound) (h : Fresh P n i v) :
    ∃ v', v.newSlot P i = some (true, v') ∧ Fresh P n (i + 1) v' := by
  refine ⟨_, newSlot_room hk v, ?_, h.size, fun s hs => ?_⟩
  · exact h.shape.allocate (lt_of_lt_of_le hk (Nat.min_le_left _ _))
  · by_cases hsi : s = i
    · subst hsi
      exact Function.update_self _ _ _
    · exact (Function.update_of_ne hsi _ _).trans (h.slots s (by omega))

theorem Fresh.contains {k : Nat} (h : Fresh P n k v) (hk : n < 2 ^ k) (hb : k ≤ P.nSlots) :
    Contains P v (List.replicate n P.fresh) := by
  refine ⟨h.shape, by rw [h.size, List.length_replicate], fun i o ho => ?_⟩
  rw [List.getElem?_replicate] at ho
  split_ifs at ho with hi
  cases ho
  have hs : slotOf i < k := slotOf_lt_iff.mpr (by omega)
  rw [cell, deref_nat, if_pos (by omega), h.slots _ hs, Option.bind_some,
    List.getElem?_replicate, if_pos (indexOf_lt i)]

theorem construct_enforces (P : Params T) (n : Nat) :
    Enforces P (List.replicate n P.fresh) (construct P n) ↔
      n < 2 ^ min P.nSlots 31 ∨ 31 ≤ P.nSlots ∧ 2 ^ P.nSlots ≤ n := by
  have hbound : P.slotBound ≤ P.nSlots := Nat.min_le_left _ _
  have h0 : Fresh P n 0 (new.setSize n) :=
    ⟨shape_new, rfl, fun s hs => absurd hs (Nat.not_lt_zero s)⟩
  -- the number of rounds
  obtain ⟨k, hk, hlt, hfits⟩ : ∃ k : Nat, (getIndexOfLastBit n + 1).toNat = k ∧ n < 2 ^ k ∧
      (k ≤ P.slotBound ↔ n < 2 ^ P.slotBound) := by
    by_cases hn : n = 0
    · subst hn
      exact ⟨0, rfl, by decide, by simp⟩
    · refine ⟨slotOf (n - 1) + 1, ?_, ?_, slotOf_pred_lt hn⟩
      · rw [lastSlot_eq hn]
        omega
      · exact (slotOf_pred_lt hn).mp (Nat.lt_succ_self _)
  unfold construct
  simp only [hk]
  rw [enforces_forSlots (fun i v hi h => h.newSlot hi) (fun v _ => stops_newSlot v) h0
    fun hkb v h => h.contains hlt (le_trans hkb hbound), hfits, List.length_replicate]
  rfl

/-- A vector under construction: the elements of the slots below `k` are there, what is behind them
is not written, and the other slots are not used. -/
structure Filled (P : Params T) (ys : List T) (k : Nat) (v : LFVector T) : Prop
    extends Copied P v ys (2 ^ k - 1) where
  unused : ∀ s, k ≤ s → v.slots s = none
  behind : ∀ e, ys.length ≤ e → (v.slots (slotOf e)).isSome → v.get P e = P.fresh

theorem filled_new (ys : List T) : Filled P ys 0 new := by
  refine ⟨⟨⟨shape_new, ?_⟩, by simp [new]⟩, fun _ _ => rfl, fun _ _ h => absurd h (by simp [new])⟩
  simp

/-- A slot is allocated, and then its elements are written. -/
theorem Filled.next (hi : i < P.nSlots) (h : Filled P ys i v) :
    Copied P (v.allocate P i (2 ^ i)) ys (2 ^ i - 1 + 0) ∧
      ((v.allocate P i (2 ^ i)).slots i).isSome ∧
      ∀ u, Copied P u ys (2 ^ (i + 1) - 1) → Behind P ys.length (v.allocate P i (2 ^ i)) u →
        Filled P ys (i + 1) u := by
  have hnone := h.unused i (le_refl i)
  have hensure : v.ensure P i (2 ^ i) = v.allocate P i (2 ^ i) := by
    unfold ensure
    rw [hnone]
    rfl
  refine ⟨⟨h.toStores.allocate hi hnone, h.size⟩, ?_, ?_⟩
  · simp [LFVector.allocate]
  · intro u hcop hb
    refine ⟨hcop, fun s hs => ?_, fun e he ha => ?_⟩
    · have hold : (v.allocate P i (2 ^ i)).slots s = none :=
        (Function.update_of_ne (by omega) _ _).trans (h.unused s (by omega))
      have := hb.slots s
      rwa [hold, Option.isSome_none, Option.isSome_eq_false_iff, Option.isNone_iff_eq_none] at this
    · rw [hb.get e he, ← hensure]
      rw [hb.slots, ← hensure] at ha
      by_cases hs : slotOf e = i
      · subst hs
        rw [get_ensure hi, hnone]
        rfl
      · have hne := ensure_slots_of_ne (P := P) (v := v) hs (2 ^ i)
        rw [hne] at ha
        rw [get_congr hne, h.behind e he ha]

theorem fillCells_spec (t : T) (k j : Nat) (hk : j + k = 2 ^ i)
    (h : Copied P v (List.replicate n t) (2 ^ i - 1 + j)) (ha : (v.slots i).isSome) :
    ∃ v', fillCells P n t i k j v = some v' ∧
      Copied P v' (List.replicate n t) (2 ^ (i + 1) - 1) ∧
      Behind P (List.replicate n t).length v v' := by
  induction k generalizing v j with
  | zero =>
      have hend : 2 ^ i - 1 + j = 2 ^ (i + 1) - 1 := by
        rw [pow_succ]
        omega
      rw [hend] at h
      exact ⟨v, rfl, h, .refl _ v⟩
  | succ k ih =>
      have hsize := h.size
      rw [List.length_replicate] at hsize
      by_cases hlt : v.size < n
      · have hx : (List.replicate n t)[2 ^ i - 1 + j]? = some t := by
          rw [List.getElem?_replicate, if_pos (by omega)]
        obtain ⟨u, hstore, hb, hcop⟩ := h.store (by omega) hx ha
        obtain ⟨u', hu', hcop', hb'⟩ :=
          ih (j + 1) (by omega) hcop (by rw [setSize_slots, hb.slots, ha])
        refine ⟨u', ?_, hcop', hb.trans ⟨hb'.slots, hb'.get⟩⟩
        rw [fillCells, if_pos hlt, hstore, Option.bind_some, hu']
      · refine ⟨v, ?_, h.skip (by omega) ?_, .refl _ v⟩
        · rw [fillCells, if_neg hlt]
        · rw [List.length_replicate]
          exact Nat.le_of_not_lt hlt

theorem Filled.fillSlot {t : T} (hi : i < P.slotBound) (h : Filled P (List.replicate n t) i v) :
    ∃ v', LFVector.fillSlot P n t i v = some (true, v') ∧
      Filled P (List.replicate n t) (i + 1) v' := by
  obtain ⟨hcop, ha, hnext⟩ := h.next (lt_of_lt_of_le hi (Nat.min_le_left _ _))
  obtain ⟨u, hu, hcop', hb⟩ := fillCells_spec t (2 ^ i) 0 (Nat.zero_add _) hcop ha
  refine ⟨u, ?_, hnext u hcop' hb⟩
  simp only [LFVector.fillSlot, newSlot_room hi, Nat.one_shiftLeft, hu, Option.map_some]

theorem stops_fillSlot (n : Nat) (t : T) (v : LFVector T) :
    Stops P (fillSlot P n t P.slotBound v) := by
  have hs := stops_newSlot (P := P) v
  unfold fillSlot
  split
  · rename_i u hu
    rw [hu] at hs
    exact absurd hs (not_stops u)
  · exact hs

theorem constructFill_enforces (P : Params T) (n : Nat) (t : T) :
    Enforces P (List.replicate n (some t)) (constructFill P n t) ↔
      0 < n ∧ n < 2 ^ min P.nSlots 31 ∨ 31 ≤ P.nSlots ∧ 2 ^ P.nSlots ≤ n := by
  have hmax : P.slotBound ≤ 31 := Nat.min_le_right _ _
  -- the number of rounds; for no elements there are too many
  obtain ⟨k, hk, hlt, hfits⟩ : ∃ k : Nat,
      (if getIndexOfLastBit n < 0 then 2 ^ 64 else (getIndexOfLastBit n).toNat + 1) = k ∧
      n < 2 ^ k ∧ (k ≤ P.slotBound ↔ 0 < n ∧ n < 2 ^ P.slotBound) := by
    by_cases hn : n = 0
    · subst hn
      refine ⟨2 ^ 64, rfl, Nat.two_pow_pos _, ?_⟩
      omega
    · refine ⟨slotOf (n - 1) + 1, ?_, ?_, ?_⟩
      · rw [lastSlot_eq hn, if_neg (by omega), Int.toNat_natCast]
      · exact (slotOf_pred_lt hn).mp (Nat.lt_succ_self _)
      · exact (slotOf_pred_lt hn).trans (iff_and_self.mpr fun _ => Nat.pos_of_ne_zero hn)
  have hdone : ∀ v, Filled P (List.replicate n t) k v →
      Contains P v (List.replicate n (some t)) := by
    intro v h
    have hrep := h.toCopied.complete (by rw [List.length_replicate]; omega)
    have := hrep.contains
    rwa [List.map_replicate] at this
  unfold constructFill
  simp only [hk]
  rw [enforces_forSlots (fun i v hi h => h.fillSlot hi) (fun v _ => stops_fillSlot n t v)
    (filled_new _) fun _ => hdone, hfits, List.length_replicate]
  rfl

/-! ## The copy -/

/-- The copy from the vector reaches the slot 31, whose length is negative. -/
def Overshifts (P : Params T) (fromSlots : Nat) (source : LFVector T) : Prop :=
  31 < P.nSlots ∧ 31 < fromSlots ∧ ∀ s ≤ 31, (source.slots s).isSome

/-- The source has no slot `i`, so that all its elements are in the slots before. -/
theorem length_le_of_end {fromSlots i : Nat} (hw : Rep { P with nSlots := fromSlots } w ys)
    (hend : fromSlots ≤ i ∨ (w.slots i).isNone = true) : ys.length ≤ 2 ^ i - 1 := by
  rcases hend with hend | hend
  · have hlt := hw.length_lt
    have hpow : 2 ^ fromSlots ≤ 2 ^ i := Nat.pow_le_pow_right (by decide) hend
    simp only at hlt
    omega
  · exact hw.length_le (by simpa using hend)

/-- One round of the loop. -/
theorem copyFrom_round {fromSlots n i : Nat} (hw : Rep { P with nSlots := fromSlots } w ys)
    (hn : i + (n + 1) = P.nSlots) (hi : i < 31)
    (hmore : ¬ (fromSlots ≤ i ∨ (w.slots i).isNone = true)) (h : Filled P ys i v) :
    ∃ u, copyFrom P fromSlots w (n + 1) i v = copyFrom P fromSlots w n (i + 1) u ∧
      Filled P ys (i + 1) u := by
  have hroom : i < P.slotBound := Nat.lt_min.mpr ⟨by omega, hi⟩
  have hfrom : i < fromSlots := Nat.lt_of_not_le fun hc => hmore (Or.inl hc)
  obtain ⟨hcop, ha, hnext⟩ := h.next (by omega)
  have hload : ∀ j < 2 ^ i, ∀ x, ys[2 ^ i - 1 + j]? = some x →
      w.load P (i : Int) j = some x := by
    intro j hj x hx
    have := hw.load hj hx
    rw [LFVector.load, deref_nat] at this ⊢
    rwa [if_pos (by omega)] at this ⊢
  obtain ⟨u, hu, hcop', hb⟩ := copyCells_spec hw.size hload (2 ^ i) 0 (Nat.zero_add _) hcop ha
  refine ⟨u, ?_, hnext u hcop' hb⟩
  rw [copyFrom, if_neg hmore]
  simp only [newSlot_room hroom, Nat.one_shiftLeft, hu, Option.bind_some]

theorem copyFrom_spec {fromSlots : Nat} (hw : Rep { P with nSlots := fromSlots } w ys)
    (n i : Nat) (hn : i + n = P.nSlots) (hi : i ≤ 31) (hprev : ∀ s < i, (w.slots s).isSome)
    (h : Filled P ys i v) :
    (Overshifts P fromSlots w ∧ ∃ v', copyFrom P fromSlots w n i v = some (false, v')) ∨
    (¬ Overshifts P fromSlots w ∧ ∃ v', copyFrom P fromSlots w n i v = some (true, v') ∧
      Copied P v' ys (2 ^ P.nSlots - 1) ∧
      ∀ e, ys.length ≤ e → (v'.slots (slotOf e)).isSome → v'.get P e = P.fresh) := by
  induction n generalizing v i with
  | zero =>
      rw [Nat.add_zero] at hn
      refine Or.inr ⟨fun ho => ?_, v, rfl, ?_, h.behind⟩
      · have := ho.1
        omega
      · rw [← hn]
        exact h.toCopied
  | succ n ih =>
      by_cases hend : fromSlots ≤ i ∨ (w.slots i).isNone = true
      · have hle := length_le_of_end hw hend
        have hpow : 2 ^ i ≤ 2 ^ P.nSlots := Nat.pow_le_pow_right (by decide) (by omega)
        refine Or.inr ⟨fun ho => ?_, v, by rw [copyFrom, if_pos hend], ?_, h.behind⟩
        · rcases hend with hend | hend
          · have := ho.2.1
            omega
          · have := ho.2.2 i hi
            rw [Option.isNone_iff_eq_none] at hend
            rw [hend] at this
            cases this
        · exact (h.toCopied.complete hle).copied (by omega)
      · have hprev' : ∀ s < i + 1, (w.slots s).isSome := by
          intro s hs
          rcases Nat.lt_succ_iff_lt_or_eq.mp hs with hlt | rfl
          · exact hprev s hlt
          · by_contra hnone
            exact hend (Or.inr (by simpa using hnone))
        by_cases h31 : i = 31
        · -- the shift for the size of the slot overflows
          subst h31
          refine Or.inl ⟨⟨by omega, ?_, fun s hs => hprev' s (by omega)⟩, v, ?_⟩
          · exact Nat.lt_of_not_le fun hc => hend (Or.inl hc)
          · rw [copyFrom, if_neg hend]
            rfl
        · obtain ⟨u, hround, hfilled⟩ := copyFrom_round hw hn (by omega) hend h
          rw [hround]
          exact ih (i + 1) (by omega) (by omega) hprev' hfilled

/-- The copy of a vector with as many slots throws at the slot 31, or it has all elements. -/
theorem copyConstruct_cases (hw : Rep P w ys) :
    (Overshifts P P.nSlots w ∧ ∃ u, copyConstruct P P.nSlots w = some (false, u)) ∨
    (¬ Overshifts P P.nSlots w ∧ ∃ u, copyConstruct P P.nSlots w = some (true, u) ∧ Rep P u ys ∧
      ∀ e, ys.length ≤ e → (u.slots (slotOf e)).isSome → u.get P e = P.fresh) := by
  have hlt := hw.length_lt
  have hspec := copyFrom_spec hw P.nSlots 0 (Nat.zero_add _) (by decide)
    (fun s hs => absurd hs (Nat.not_lt_zero s)) (filled_new ys)
  rcases hspec with hthrows | ⟨ho, u, hu, hcop, hb⟩
  · exact Or.inl hthrows
  · exact Or.inr ⟨ho, u, hu, hcop.complete (by omega), hb⟩

theorem copyConstruct_enforces {fromSlots : Nat} (hw : Rep { P with nSlots := fromSlots } w ys) :
    Enforces P (ys.map some) (copyConstruct P fromSlots w) ↔
      Overshifts P fromSlots w ∧ 2 ^ P.nSlots ≤ ys.length ∨
      ¬ Overshifts P fromSlots w ∧ ys.length < 2 ^ P.nSlots := by
  have hpos := Nat.two_pow_pos P.nSlots
  have hspec := copyFrom_spec hw P.nSlots 0 (Nat.zero_add _) (by decide)
    (fun s hs => absurd hs (Nat.not_lt_zero s)) (filled_new ys)
  unfold copyConstruct
  rcases hspec with ⟨ho, u, hu⟩ | ⟨ho, u, hu, hcop, -⟩
  · rw [hu]
    show 2 ^ P.nSlots - 1 < (ys.map some).length ↔ _
    rw [List.length_map]
    simp only [ho, true_and, not_true, false_and, or_false]
    omega
  · rw [hu]
    simp only [ho, false_and, not_false_iff, true_and, false_or]
    constructor
    · intro h
      have := Contains.length_lt h
      rwa [List.length_map] at this
    · intro hlt
      exact (hcop.complete (by omega)).contains

/-! ## All paths -/

/-- The functions that add elements, with the vectors they are called on. -/
inductive GrowthPath (T : Type)
  | construct (n : Nat)
  | constructFill (n : Nat) (t : T)
  /-- The copy of a vector with `fromSlots` slots. -/
  | copy (fromSlots : Nat) (source : LFVector T)
  | pushBack (v : LFVector T) (x : T)
  | expand (v : LFVector T) (n : Nat) (x : T)
  | resize (v : LFVector T) (n : Nat) (x : T)

def elements (P : Params T) (v : LFVector T) : List (Option T) := (List.range v.size).map (v.get P)

namespace GrowthPath

def call (P : Params T) : GrowthPath T → Option (Bool × LFVector T)
  | .construct n => LFVector.construct P n
  | .constructFill n t => LFVector.constructFill P n t
  | .copy fromSlots source => copyConstruct P fromSlots source
  | .pushBack v x => v.pushBack P x
  | .expand v n x => v.expand P n x
  | .resize v n x => v.resize P n x

/-- The elements that the vector should have afterwards. -/
def requested (P : Params T) : GrowthPath T → List (Option T)
  | .construct n => List.replicate n P.fresh
  | .constructFill n t => List.replicate n (some t)
  | .copy fromSlots source => source.elements { P with nSlots := fromSlots }
  | .pushBack v x => v.elements P ++ [some x]
  | .expand v n x => v.elements P ++ List.replicate (n - v.size) (some x)
  | .resize v n x => (v.elements P).take n ++ List.replicate (n - v.size) (some x)

/-- The vectors that the functions are called on hold elements. -/
def Valid (P : Params T) : GrowthPath T → Prop
  | .construct _ => True
  | .constructFill _ _ => True
  | .copy fromSlots source => ∃ ys, Rep { P with nSlots := fromSlots } source ys
  | .pushBack v _ => ∃ xs, Rep P v xs
  | .expand v _ _ => ∃ xs, Rep P v xs
  | .resize v _ _ => ∃ xs, Rep P v xs

/-- The calls that enforce the capacity. -/
def Safe (P : Params T) : GrowthPath T → Prop
  | .construct n => n < 2 ^ min P.nSlots 31 ∨ 31 ≤ P.nSlots ∧ 2 ^ P.nSlots ≤ n
  | .constructFill n _ => 0 < n ∧ n < 2 ^ min P.nSlots 31 ∨ 31 ≤ P.nSlots ∧ 2 ^ P.nSlots ≤ n
  | .copy fromSlots source =>
      Overshifts P fromSlots source ∧ 2 ^ P.nSlots ≤ source.size ∨
      ¬ Overshifts P fromSlots source ∧ source.size < 2 ^ P.nSlots
  | .pushBack _ _ => True
  | .expand _ _ _ => True
  | .resize _ _ _ => True

end GrowthPath

theorem Rep.elements (h : Rep P v xs) : v.elements P = xs.map some := by
  refine List.ext_getElem? fun i => ?_
  rw [LFVector.elements, h.size, List.getElem?_map, List.getElem?_map]
  by_cases hi : i < xs.length
  · rw [List.getElem?_range hi, Option.map_some, List.getElem?_eq_getElem hi, Option.map_some,
      h.read i _ (List.getElem?_eq_getElem hi)]
  · rw [List.getElem?_eq_none (by simpa using hi), List.getElem?_eq_none (by omega)]
    rfl

/-- **The capacity of a vector.** For every number of slots, each function that adds elements gives
exactly the requested elements, or throws because they are more than `2 ^ nSlots - 1`, without an
access outside of `slots_`, exactly if the call is safe. -/
theorem growth_enforces_iff (P : Params T) (g : GrowthPath T) (h : g.Valid P) :
    Enforces P (g.requested P) (g.call P) ↔ g.Safe P := by
  cases g with
  | construct n => exact construct_enforces P n
  | constructFill n t => exact constructFill_enforces P n t
  | copy fromSlots source =>
      obtain ⟨ys, hw⟩ := h
      simp only [GrowthPath.requested, GrowthPath.Safe, hw.elements, hw.size]
      exact copyConstruct_enforces hw
  | pushBack v x =>
      obtain ⟨xs, hv⟩ := h
      refine iff_of_true ?_ trivial
      simp only [GrowthPath.requested, hv.elements]
      have := pushBack_enforces hv x
      rwa [List.map_append] at this
  | expand v n x =>
      obtain ⟨xs, hv⟩ := h
      refine iff_of_true ?_ trivial
      simp only [GrowthPath.requested, hv.elements, hv.size]
      have := expand_enforces hv n x
      rwa [List.map_append, List.map_replicate] at this
  | resize v n x =>
      obtain ⟨xs, hv⟩ := h
      refine iff_of_true ?_ trivial
      simp only [GrowthPath.requested, hv.elements, hv.size, ← List.map_take]
      have := resize_enforces hv n x
      rwa [List.map_append, List.map_replicate] at this

/-- Numbers, with a given number of slots. -/
def numbers (nSlots : Nat) : Params Nat := ⟨nSlots, 0, 0, some 0⟩

theorem growth_enforces_two_slots :
    Enforces (numbers 2) [some 7] ((GrowthPath.pushBack new 7).call (numbers 2)) ∧
    Enforces (numbers 2) (List.replicate 3 (some 7))
      ((GrowthPath.constructFill 3 7).call (numbers 2)) :=
  ⟨(growth_enforces_iff (numbers 2) (.pushBack new 7) ⟨[], rep_new⟩).mpr trivial,
    (growth_enforces_iff (numbers 2) (.constructFill 3 7) trivial).mpr (Or.inl (by decide))⟩

/-- With two slots there is room for three elements: the constructors with four write to the third
slot, and a copy to a vector with one slot has one of two elements. -/
theorem growth_exceeds_slots :
    (GrowthPath.construct 4).call (numbers 2) = none ∧
    (GrowthPath.constructFill 4 7).call (numbers 2) = none ∧
    ∃ source v, new.expand (numbers 2) 2 7 = some (true, source) ∧ source.size = 2 ∧
      (GrowthPath.copy 2 source).call (numbers 1) = some (true, v) ∧ v.size = 1 :=
  ⟨rfl, rfl, _, _, rfl, rfl, rfl, rfl⟩

end Lunchbox.LFVector
