import Lunchbox.LFVector.Capacity
import Lunchbox.LFVector.Runs

set_option autoImplicit false

/-! # What a vector keeps behind its elements

The functions that take elements away overwrite them with `T()`, so that a vector of `RefPtr` does
not keep a reference to an object that it no longer contains. `Clean` says that every cell that is
allocated and behind the last element holds `T()`. All functions keep this but `operator=`: it
overwrites as many elements as the other vector has, and leaves the old ones in the slots that the
other vector also has (`Replaced`).
-/

namespace Lunchbox.LFVector

open StateMachine Function

variable {T : Type} {P : Params T} {v v' w : LFVector T} {xs ys : List T} {x : T} {i m n : Nat}

/-- The cells that are allocated from the position `n` on hold `T()`. -/
def Spare (P : Params T) (n : Nat) (v : LFVector T) : Prop :=
  ∀ e, n ≤ e → (v.slots (slotOf e)).isSome → v.get P e = some P.dflt

def Clean (P : Params T) (v : LFVector T) : Prop := Spare P v.size v

/-! ## Steps of the functions -/

theorem clean_new : Clean P (new : LFVector T) := by
  intro e _ ha
  cases ha

theorem Spare.mono (h : Spare P n v) (hn : n ≤ m) : Spare P m v :=
  fun e he => h e (le_trans hn he)

/-- Writing an element, or `T()` behind the elements. -/
theorem Spare.put (h : Spare P n v) (hput : v.put P i x = some v') (hi : i < n) :
    Spare P n v' := by
  obtain ⟨-, -, hother, hslots⟩ := put_inv hput
  intro e he ha
  rw [hslots] at ha
  rw [hother e (by omega)]
  exact h e he ha

theorem Spare.put_dflt (h : Spare P (n + 1) v) (hput : v.put P n P.dflt = some v') :
    Spare P n v' := by
  obtain ⟨-, hsame, -, -⟩ := put_inv hput
  have hbehind := h.put hput (Nat.lt_succ_self n)
  intro e he ha
  by_cases hen : e = n
  · rw [hen, hsame]
  · exact hbehind e (by omega) ha

theorem Spare.deallocate (h : Spare P n v) (s : Nat) : Spare P n (v.deallocate s) := by
  intro e he ha
  by_cases hs : slotOf e = s
  · rw [hs] at ha
    simp [LFVector.deallocate] at ha
  · have hsame : (v.deallocate s).slots (slotOf e) = v.slots (slotOf e) := update_of_ne hs _ _
    rw [hsame] at ha
    rw [get_congr hsame]
    exact h e he ha

theorem Clean.trim (h : Clean P v) : Clean P (v.trim P) := by
  unfold LFVector.trim
  simp only
  split_ifs
  · exact Spare.deallocate h _
  · exact h

/-- A new slot holds `T()`. -/
theorem Spare.ensure (hfresh : P.fresh = some P.dflt) (h : Spare P n v) {s : Nat}
    (hs : s < P.nSlots) : Spare P n (v.ensure P s (2 ^ s)) := by
  intro e he ha
  by_cases hse : slotOf e = s
  · subst hse
    rw [get_ensure hs, hfresh]
    split_ifs with hv
    · exact h e he hv
    · rfl
  · have hsame := ensure_slots_of_ne (P := P) (v := v) hse (2 ^ s)
    rw [hsame] at ha
    rw [get_congr hsame]
    exact h e he ha

/-! ## Growing -/

theorem Clean.pushBackUnlocked (hfresh : P.fresh = some P.dflt) (h : Clean P v) {b : Bool}
    (hpush : v.pushBackUnlocked P x = some (b, v')) : Clean P v' := by
  rw [pushBackUnlocked_eq] at hpush
  split_ifs at hpush with hs
  · obtain ⟨u, hput, heq⟩ := Option.map_eq_some_iff.mp hpush
    cases heq
    have hsize := (put_inv hput).1
    rw [ensure_size] at hsize
    have hspare := (Spare.ensure hfresh h hs).mono (Nat.le_succ v.size)
    have := hspare.put hput (Nat.lt_succ_self _)
    rw [← hsize] at this
    exact this
  · cases hpush
    exact h

theorem Clean.fill (hfresh : P.fresh = some P.dflt) (h : Clean P v) {b : Bool}
    (hfill : fill P x n v = some (b, v')) : Clean P v' := by
  induction n generalizing v with
  | zero =>
      cases hfill
      exact h
  | succ n ih =>
      rw [LFVector.fill] at hfill
      split at hfill
      · rename_i u hu
        exact ih (h.pushBackUnlocked hfresh hu) hfill
      · exact h.pushBackUnlocked hfresh hfill

/-! ## Shrinking -/

theorem Clean.dropBack (h : Clean P v) (hn : v.size ≠ 0) (hdrop : v.dropBack P P.dflt = some v') :
    Clean P v' ∧ v'.size = v.size - 1 := by
  have hsize := (put_inv hdrop).1
  rw [setSize_size] at hsize
  have hspare : Spare P (v.size - 1 + 1) (v.setSize (v.size - 1)) := by
    rw [Nat.sub_add_cancel (Nat.one_le_iff_ne_zero.mpr hn)]
    exact h
  have := hspare.put_dflt hdrop
  rw [← hsize] at this
  exact ⟨this, hsize⟩

theorem Clean.popBack (h : Clean P v) (hpop : v.popBack P = some v') : Clean P v' := by
  unfold LFVector.popBack at hpop
  split_ifs at hpop with hn
  · cases hpop
    exact h
  · obtain ⟨u, hdrop, rfl⟩ := Option.map_eq_some_iff.mp hpop
    exact (h.dropBack hn hdrop).1.trim

theorem Clean.popBackTo {o : Option T} (h : Clean P v) (hpop : v.popBackTo P = some (o, v')) :
    Clean P v' := by
  unfold LFVector.popBackTo at hpop
  split_ifs at hpop with hn
  · cases hpop
    exact h
  · obtain ⟨y, -, hpop⟩ := Option.bind_eq_some_iff.mp hpop
    obtain ⟨u, hdrop, heq⟩ := Option.map_eq_some_iff.mp hpop
    cases heq
    exact (h.dropBack hn hdrop).1.trim

theorem Spare.copyDown {k : Nat} (h : Spare P m v) (hk : i + k ≤ m)
    (hcopy : copyDown P k i v = some v') : Spare P m v' ∧ v'.size = v.size := by
  induction k generalizing v i with
  | zero =>
      cases hcopy
      exact ⟨h, rfl⟩
  | succ k ih =>
      obtain ⟨y, -, hcopy⟩ := Option.bind_eq_some_iff.mp hcopy
      obtain ⟨u, hput, hcopy⟩ := Option.bind_eq_some_iff.mp hcopy
      obtain ⟨hspare, hsize⟩ := ih (h.put hput (by omega)) (by omega) hcopy
      exact ⟨hspare, hsize.trans (put_inv hput).1⟩

theorem Clean.remove (h : Clean P v) (hi : i < v.size) (hrem : v.remove P i P.dflt = some v') :
    Clean P v' := by
  obtain ⟨u, hcopy, hrem⟩ := Option.bind_eq_some_iff.mp hrem
  obtain ⟨u', hput, rfl⟩ := Option.map_eq_some_iff.mp hrem
  rw [setSize_size] at hcopy
  have hspare : Spare P v.size (v.setSize (v.size - 1)) := h
  obtain ⟨hcopied, hsize⟩ := hspare.copyDown (by omega) hcopy
  rw [setSize_size] at hsize
  rw [hsize] at hput
  have hlast : Spare P (v.size - 1 + 1) u := by
    rwa [Nat.sub_add_cancel (by omega)]
  have hclean : Clean P u' := by
    have := hlast.put_dflt hput
    rwa [← hsize, ← (put_inv hput).1] at this
  exact hclean.trim

theorem Clean.shrink (h : Clean P v) (hn : n ≤ v.size) (hs : shrink P n v = some v') :
    Clean P v' := by
  induction n generalizing v with
  | zero =>
      cases hs
      exact h
  | succ n ih =>
      obtain ⟨u, hdrop, hs⟩ := Option.bind_eq_some_iff.mp hs
      obtain ⟨hclean, hsize⟩ := h.dropBack (by omega) hdrop
      exact ih hclean (by omega) hs

theorem Clean.resize (hfresh : P.fresh = some P.dflt) (h : Clean P v) {b : Bool}
    (hres : v.resize P n x = some (b, v')) : Clean P v' := by
  obtain ⟨u, hs, hres⟩ := Option.bind_eq_some_iff.mp hres
  exact (h.shrink (Nat.sub_le _ _) hs).trim.fill hfresh hres

theorem Clean.eraseAt {own : Bool} {k : Nat} (h : Clean P v)
    (he : v.eraseAt P own i = some (k, v')) : Clean P v' := by
  unfold LFVector.eraseAt at he
  split_ifs at he with hout
  · cases he
    exact h
  · obtain ⟨u, hrem, heq⟩ := Option.map_eq_some_iff.mp he
    cases heq
    exact h.remove (Nat.lt_of_not_le fun hc => hout (Or.inr hc)) hrem

theorem Clean.erase [DecidableEq T] {k : Nat} (hzero : P.zero = P.dflt) (h : Clean P v)
    (hv : Rep P v xs) (he : v.erase P x = some (k, v')) : Clean P v' := by
  unfold LFVector.erase at he
  rw [hv.size, findLast_spec hv x _ (le_refl _), Option.bind_some] at he
  cases hf : (List.range xs.length).reverse.find? fun i => xs[i]? = some x with
  | none =>
      rw [hf] at he
      cases he
      exact h
  | some i =>
      rw [hf] at he
      have hi : i < v.size := by
        have := List.mem_of_find?_eq_some hf
        rwa [List.mem_reverse, List.mem_range, ← hv.size] at this
      obtain ⟨u, hrem, heq⟩ := Option.map_eq_some_iff.mp he
      cases heq
      rw [hzero] at hrem
      exact h.remove hi hrem

/-- A vector without slots. -/
theorem clean_clear (hv : Rep P v xs) (hc : v.clear P = some v') : Clean P v' := by
  obtain ⟨u, hu, hrep⟩ := clear_spec hv
  rw [hu] at hc
  cases hc
  intro e _ ha
  obtain ⟨cells, hcells⟩ := Option.isSome_iff_exists.mp ha
  have hs := (hrep.shape _ cells hcells).1
  obtain ⟨u', -, rfl⟩ := Option.map_eq_some_iff.mp hu
  simp [hs] at hcells

/-! ## Copies -/

theorem copyConstruct_spec (hw : Rep P w ys)
    (hcopy : copyConstruct P P.nSlots w = some (true, v)) :
    Rep P v ys ∧ ∀ e, ys.length ≤ e → (v.slots (slotOf e)).isSome → v.get P e = P.fresh := by
  rcases copyConstruct_cases hw with ⟨-, u, hu⟩ | ⟨-, u, hu, hrep, hb⟩
  · rw [hu] at hcopy
    cases hcopy
  · rw [hu] at hcopy
    cases hcopy
    exact ⟨hrep, hb⟩

/-- After an assignment, a vector is clean if the old elements that it keeps are `T()`. -/
theorem clean_assign (hfresh : P.fresh = some P.dflt) (hclean : Clean P v) (hv : Rep P v xs)
    (hw : Rep P w ys) (hv' : Rep P v' ys) (hr : Replaced P w v v' ys.length 0 P.nSlots) :
    Clean P v' ↔ ∀ e, w.size ≤ e → e < v.size → (w.slots (slotOf e)).isSome →
      v.get P e = some P.dflt := by
  unfold Clean
  rw [hv'.size, hw.size]
  constructor
  · intro h e he hlt hsome
    obtain ⟨hs, hold⟩ := hv.allocated (hv.size ▸ hlt)
    have hkept := hr e he
    rw [if_pos ⟨Nat.zero_le _, hs⟩] at hkept
    have := hkept.2 hsome
    rw [if_pos hold] at this
    rw [← this]
    exact h e he (hkept.1.trans hsome)
  · intro h e he ha
    obtain ⟨cells, hc⟩ := Option.isSome_iff_exists.mp ha
    have hs := (hv'.shape _ cells hc).1
    have hkept := hr e he
    rw [if_pos ⟨Nat.zero_le _, hs⟩] at hkept
    rw [hkept.1] at ha
    rw [hkept.2 ha, hfresh]
    split_ifs with hold
    · by_cases hlt : e < v.size
      · exact h e he hlt ha
      · exact hclean e (Nat.le_of_not_lt hlt) hold
    · rfl

/-! ## Programs -/

section Program

variable [DecidableEq T]

/-- A program also constructs vectors as copies of others. -/
inductive Action (T : Type)
  | call (op : Op T)
  /-- The vector `k` is a new one, constructed from `vectors[m]`. -/
  | copy (k m : Nat)

def program (P : Params T) : Machine (Nat → LFVector T) (Action T) (Output T) where
  init := (vectors P).init
  step s
    | .call op => (vectors P).step s op
    | .copy k m =>
        ((s m).copyConstruct P P.nSlots).map fun r =>
          if r.1 then (.done, update s k r.2) else (.thrown, s)

/-- An assignment overwrites the old elements in the slots that both vectors have, or they are
`T()`. -/
def Overwrites (P : Params T) (s : Nat → LFVector T) : Action T → Prop
  | .call (.assign k m) => k = m ∨ ∀ e, (s m).size ≤ e → e < (s k).size →
      ((s m).slots (slotOf e)).isSome → (s k).get P e = some P.dflt
  | _ => True

theorem copy_step {s s' : Nat → LFVector T} {b : Output T} {k m : Nat}
    (hs : (program P).step s (.copy k m) = some (b, s')) :
    s' = s ∨ ∃ v, copyConstruct P P.nSlots (s m) = some (true, v) ∧ s' = update s k v := by
  obtain ⟨⟨ok, v⟩, hc, heq⟩ := Option.map_eq_some_iff.mp hs
  cases ok with
  | true =>
      cases heq
      exact Or.inr ⟨v, hc, rfl⟩
  | false =>
      cases heq
      exact Or.inl rfl

theorem holds_program {tr : List (Action T × Output T)} {s : Nat → LFVector T}
    (h : (program P).Trace tr s) : ∃ t, Holds P s t := by
  refine h.stateInv (fun s => ∃ t, Holds P s t) ⟨fun _ => [], fun _ => rep_new⟩ ?_
  rintro s a b s' ⟨t, ht⟩ hs
  cases a with
  | call op => exact holds_step ht hs
  | copy k m =>
      rcases copy_step hs with rfl | ⟨v, hc, rfl⟩
      · exact ⟨t, ht⟩
      · exact ⟨_, ht.update k (copyConstruct_spec (ht m) hc).1⟩

/-- One step keeps all vectors clean, unless it is an assignment that leaves old elements. -/
theorem clean_step (hfresh : P.fresh = some P.dflt) (hzero : P.zero = P.dflt)
    {s s' : Nat → LFVector T} {t : Nat → List T} {a : Action T} {b : Output T} (ht : Holds P s t)
    (h : ∀ k, Clean P (s k)) (hs : (program P).step s a = some (b, s')) :
    (∀ k, Clean P (s' k)) ↔ Overwrites P s a := by
  cases a with
  | copy k m =>
      rcases copy_step hs with rfl | ⟨v, hc, rfl⟩
      · exact iff_of_true h trivial
      · obtain ⟨hrep, hb⟩ := copyConstruct_spec (ht m) hc
        refine iff_of_true ((forall_update h k v).mpr fun e he ha => ?_) trivial
        rw [hrep.size] at he
        rw [hb e he ha, hfresh]
  | call op =>
      cases op with
      | pushBack k x =>
          exact iff_of_true (forall_map h hs fun r hr => (h k).pushBackUnlocked hfresh hr) trivial
      | popBack k => exact iff_of_true (forall_map h hs fun v hv => (h k).popBack hv) trivial
      | popBackTo k => exact iff_of_true (forall_map h hs fun r hr => (h k).popBackTo hr) trivial
      | eraseAt k m i => exact iff_of_true (forall_map h hs fun r hr => (h k).eraseAt hr) trivial
      | erase k x =>
          exact iff_of_true (forall_map h hs fun r hr => (h k).erase hzero (ht k) hr) trivial
      | expand k n x => exact iff_of_true (forall_map h hs fun r hr => (h k).fill hfresh hr) trivial
      | resize k n x =>
          exact iff_of_true (forall_map h hs fun r hr => (h k).resize hfresh hr) trivial
      | clear k => exact iff_of_true (forall_map h hs fun v hv => clean_clear (ht k) hv) trivial
      | assign k m =>
          rcases assign_step ht hs with ⟨hkm, rfl⟩ | ⟨hkm, v, rfl, hrep, hr⟩
          · exact iff_of_true h (Or.inl hkm)
          · rw [forall_update h, clean_assign hfresh (h k) (ht k) (ht m) hrep hr]
            exact (or_iff_right hkm).symm
      | write k i x =>
          rcases write_step hs with rfl | ⟨hi, v, hv, rfl⟩
          · exact iff_of_true h trivial
          · refine iff_of_true ((forall_update h k v).mpr ?_) trivial
            have := Spare.put (h k) hv hi
            rwa [← (put_inv hv).1] at this
      | equal k m =>
          rw [equal_step hs]
          exact iff_of_true h trivial

/-- **Vectors that keep nothing behind their elements.** If new slots hold `T()` and `T(0)` is
`T()`, then in every history the allocated cells behind the elements of all vectors hold `T()` in
every state, exactly if every assignment leaves no other old element in a slot that both vectors
have. -/
theorem clean_iff_overwrites (hfresh : P.fresh = some P.dflt) (hzero : P.zero = P.dflt)
    {tr : List (Action T × Output T)} {s : Nat → LFVector T} (h : (program P).Trace tr s) :
    (program P).Always (fun _ s => ∀ k, Clean P (s k)) tr ↔
      (program P).Guarded (Overwrites P) tr := by
  refine h.always_iff_guarded (fun _ => clean_new) ?_
  intro tr s a b s' ht hclean hs
  obtain ⟨t, hholds⟩ := holds_program ht
  exact clean_step hfresh hzero hholds hclean hs

/-- Objects are numbers that are not 0, and a vector of `RefPtr` holds 0 for no object. -/
def references : Params Nat := ⟨4, 0, 0, some 0⟩

/-- A vector of two elements is assigned to one that had three and was cleared. -/
def clearedHistory : List (Action Nat) :=
  [.call (.expand 0 3 7), .call (.expand 1 2 5), .call (.clear 0), .call (.assign 0 1)]

theorem clean_cleared :
    ∃ tr s, (program references).Trace tr s ∧ tr.map Prod.fst = clearedHistory ∧
      (program references).Guarded (Overwrites references) tr ∧
      (program references).Always (fun _ s => ∀ k, Clean references (s k)) tr ∧
      (s 0).size = 2 := by
  have htrace := Machine.Trace.of_run (M := program references) clearedHistory rfl
  have hmeets : (program references).meets (Overwrites references) clearedHistory
      (program references).init := by
    refine ⟨trivial, fun r1 h1 => ⟨trivial, fun r2 h2 => ⟨trivial, fun r3 h3 => ⟨?_, ?_⟩⟩⟩⟩
    · cases h1
      cases h2
      cases h3
      exact Or.inr fun e _ he _ => absurd he (Nat.not_lt_zero e)
    · exact fun _ _ => trivial
  have hguard := Machine.guarded_of_run (M := program references) clearedHistory rfl hmeets
  exact ⟨_, _, htrace, rfl, hguard, (clean_iff_overwrites rfl rfl htrace).mpr hguard, rfl⟩

/-- The vector with 7, 7, 7 is assigned the vector with 5, 5, and keeps the last 7. -/
theorem assign_keeps_element :
    ∃ tr s, (program references).Trace tr s ∧
      tr.map Prod.fst = [.call (.expand 0 3 7), .call (.expand 1 2 5), .call (.assign 0 1)] ∧
      (s 0).size = 2 ∧ (s 0).get references 2 = some 7 ∧ ¬ Clean references (s 0) := by
  refine ⟨_, _, Machine.Trace.of_run (M := program references)
    [.call (.expand 0 3 7), .call (.expand 1 2 5), .call (.assign 0 1)] rfl, rfl, rfl, rfl, ?_⟩
  intro h
  have := h 2 (le_refl 2) rfl
  cases this

end Program

end Lunchbox.LFVector
