import Lunchbox.LFVector.Runs

set_option autoImplicit false

/-! # The storage that a vector keeps

A vector keeps the slots of its elements and at most one spare slot: `Tight` says that no slot above
`getIndexOfLastBit(size_ + 1)` is allocated, which bounds the allocated cells by `2 * size_ + 1`.
`trim_` frees one slot, the one after the slot of the new size. This is enough for the functions
that take one element away. `resize` takes any number of elements away before it calls `trim_` once,
and keeps the slots that are further up.
-/

namespace Lunchbox.LFVector

open StateMachine Function

variable {T : Type} {P : Params T} {v v' w : LFVector T} {xs ys : List T} {x : T} {i m n : Nat}

/-- No slot above the one that `size()` gives is allocated. -/
def Tight (v : LFVector T) : Prop :=
  ∀ s : Nat, getIndexOfLastBit (v.size + 1) < s → v.slots s = none

/-- The number of allocated cells. -/
def storage (P : Params T) (v : LFVector T) : Nat :=
  ((List.range P.nSlots).map fun s => ((v.slots s).map List.length).getD 0).sum

/-! ## Slots that are allocated -/

/-- No slot above `n` is allocated. -/
def UpTo (n : Nat) (v : LFVector T) : Prop := ∀ s, n < s → v.slots s = none

theorem tight_iff : Tight v ↔ UpTo (slotOf v.size) v := by
  simp only [Tight, UpTo, lastBit_succ, Nat.cast_lt]

theorem UpTo.mono (h : UpTo m v) (hmn : m ≤ n) : UpTo n v := fun s hs => h s (by omega)

/-- The same slots are allocated. -/
def SameSlots (v v' : LFVector T) : Prop := ∀ s, (v'.slots s).isSome = (v.slots s).isSome

theorem SameSlots.trans (h : SameSlots v v') (h' : SameSlots v' w) : SameSlots v w :=
  fun s => (h' s).trans (h s)

theorem SameSlots.none_iff (h : SameSlots v v') (s : Nat) :
    v'.slots s = none ↔ v.slots s = none := by
  rw [← Option.not_isSome_iff_eq_none, ← Option.not_isSome_iff_eq_none, h s]

theorem SameSlots.upTo (h : SameSlots v v') : UpTo n v' ↔ UpTo n v :=
  forall_congr' fun s => imp_congr_right fun _ => h.none_iff s

/-- Only slots that exist are allocated. -/
def Fits (P : Params T) (v : LFVector T) : Prop := ∀ s, (v.slots s).isSome → s < P.nSlots

theorem Shape.fits (h : Shape P v) : Fits P v := by
  intro s hs
  obtain ⟨cells, hc⟩ := Option.isSome_iff_exists.mp hs
  exact (h s cells hc).1

theorem SameSlots.fits (h : SameSlots v v') (hv : Fits P v) : Fits P v' :=
  fun s hs => hv s ((h s).symm.trans hs)

theorem slotOf_succ_le (i : Nat) : slotOf (i + 1) ≤ slotOf i + 1 := by
  have h := lt_two_pow_slotOf i
  have hpow : 2 ^ (slotOf i + 2) = 2 * 2 ^ (slotOf i + 1) := by rw [pow_succ, Nat.mul_comm]
  exact Nat.le_of_lt_succ (slotOf_lt_iff.mpr (by omega))

/-- The cells of the slots up to the one of the size. -/
theorem UpTo.storage_le (hshape : Shape P v) (h : UpTo n v) : storage P v < 2 ^ (n + 1) := by
  have hcells : ∀ s, ((v.slots s).map List.length).getD 0 ≤ if s ≤ n then 2 ^ s else 0 := by
    intro s
    split_ifs with hs
    · cases hslot : v.slots s with
      | none => exact Nat.zero_le _
      | some cells => exact Nat.le_of_eq (hshape s cells hslot).2
    · rw [h s (by omega)]
      exact Nat.le_refl 0
  -- the slots below `k` have less than `2 ^ k` cells, and those above `n` have none
  have hsum : ∀ k, ((List.range k).map fun s => ((v.slots s).map List.length).getD 0).sum
      < 2 ^ min k (n + 1) := by
    intro k
    induction k with
    | zero => simp
    | succ k ih =>
        rw [List.range_succ, List.map_append, List.sum_append, List.map_singleton,
          List.sum_singleton]
        have hk := hcells k
        by_cases hkn : k ≤ n
        · rw [if_pos hkn] at hk
          rw [Nat.min_eq_left (by omega)] at ih ⊢
          rw [pow_succ]
          omega
        · rw [if_neg hkn] at hk
          rw [Nat.min_eq_right (by omega)] at ih ⊢
          omega
  calc storage P v < 2 ^ min P.nSlots (n + 1) := hsum P.nSlots
    _ ≤ 2 ^ (n + 1) := Nat.pow_le_pow_right (by decide) (Nat.min_le_right _ _)

/-- The storage of a tight vector is proportional to its size. -/
theorem Tight.storage_le (hshape : Shape P v) (h : Tight v) : storage P v ≤ 2 * v.size + 1 := by
  have hcells := (tight_iff.mp h).storage_le hshape
  have hpow := two_pow_slotOf_le v.size
  rw [pow_succ] at hcells
  omega

/-! ## Steps of the functions -/

theorem tight_new : Tight (new : LFVector T) := fun _ _ => rfl

@[simp] theorem trim_size (v : LFVector T) : (v.trim P).size = v.size := by
  unfold LFVector.trim
  simp only
  split_ifs <;> rfl

/-- `trim_` frees one slot. -/
theorem trim_slots (hfits : Fits P v) (s : Nat) :
    (v.trim P).slots s = if s = slotOf v.size + 1 then none else v.slots s := by
  have hnext : (((slotOf v.size : Nat) : Int) + 1).toNat = slotOf v.size + 1 := by omega
  unfold LFVector.trim
  rw [lastBit_succ]
  simp only [hnext]
  by_cases hs : s = slotOf v.size + 1
  · subst hs
    rw [if_pos rfl]
    split_ifs with hfree
    · exact update_self _ _ _
    · -- the slot is null, or there is no such slot
      by_contra hne
      have hsome := Option.isSome_iff_ne_none.mpr hne
      have hlt := hfits _ hsome
      exact hfree ⟨by omega, hsome⟩
  · rw [if_neg hs]
    split_ifs
    · exact update_of_ne hs _ _
    · rfl

theorem tight_trim (hfits : Fits P v) : Tight (v.trim P) ↔ UpTo (slotOf v.size + 1) v := by
  rw [tight_iff, trim_size]
  constructor
  · intro h s hs
    have hfree := h s (by omega)
    rwa [trim_slots hfits, if_neg (by omega)] at hfree
  · intro h s hs
    rw [trim_slots hfits]
    split_ifs with hsn
    · rfl
    · exact h s (by omega)

/-- After one element less, `trim_` frees enough. -/
theorem Tight.shrunk {u : LFVector T} (h : Tight v) (hfits : Fits P v) (hsame : SameSlots v u)
    (hsize : v.size ≤ u.size + 1) : Tight (u.trim P) := by
  refine (tight_trim (hsame.fits hfits)).mpr (hsame.upTo.mpr ((tight_iff.mp h).mono ?_))
  calc slotOf v.size ≤ slotOf (u.size + 1) := slotOf_mono hsize
    _ ≤ slotOf u.size + 1 := slotOf_succ_le u.size

/-! ## Growing -/

theorem Tight.pushBackUnlocked (h : Tight v) {b : Bool}
    (hpush : v.pushBackUnlocked P x = some (b, v')) : Tight v' := by
  rw [pushBackUnlocked_eq] at hpush
  split_ifs at hpush with hs
  · obtain ⟨u, hput, heq⟩ := Option.map_eq_some_iff.mp hpush
    cases heq
    obtain ⟨hsize, -, -, hsame⟩ := put_inv hput
    rw [ensure_size] at hsize
    rw [tight_iff] at h ⊢
    have hgrown : UpTo (slotOf v.size) (v.ensure P (slotOf v.size) (2 ^ slotOf v.size)) := by
      intro s hlt
      rw [ensure_slots_of_ne (by omega)]
      exact h s hlt
    have hu : UpTo (slotOf v.size) u := (SameSlots.upTo hsame).mpr hgrown
    refine UpTo.mono (v := u.setSize (u.size + 1)) hu (slotOf_mono ?_)
    rw [setSize_size, hsize]
    exact Nat.le_succ _
  · cases hpush
    exact h

theorem Tight.fill (h : Tight v) {b : Bool} (hfill : fill P x n v = some (b, v')) : Tight v' := by
  induction n generalizing v with
  | zero =>
      cases hfill
      exact h
  | succ n ih =>
      rw [LFVector.fill] at hfill
      split at hfill
      · rename_i u hu
        exact ih (h.pushBackUnlocked hu) hfill
      · exact h.pushBackUnlocked hfill

/-! ## Shrinking -/

theorem dropBack_slots (hdrop : v.dropBack P x = some v') :
    v'.size = v.size - 1 ∧ SameSlots v v' := by
  obtain ⟨hsize, -, -, hsame⟩ := put_inv hdrop
  exact ⟨hsize, hsame⟩

theorem shrink_slots (hs : shrink P n v = some v') : v'.size = v.size - n ∧ SameSlots v v' := by
  induction n generalizing v with
  | zero =>
      cases hs
      exact ⟨rfl, fun _ => rfl⟩
  | succ n ih =>
      obtain ⟨u, hdrop, hs⟩ := Option.bind_eq_some_iff.mp hs
      obtain ⟨hsize, hsame⟩ := dropBack_slots hdrop
      obtain ⟨hsize', hsame'⟩ := ih hs
      exact ⟨by omega, hsame.trans hsame'⟩

theorem copyDown_slots {k : Nat} (hcopy : copyDown P k i v = some v') :
    v'.size = v.size ∧ SameSlots v v' := by
  induction k generalizing v i with
  | zero =>
      cases hcopy
      exact ⟨rfl, fun _ => rfl⟩
  | succ k ih =>
      obtain ⟨y, -, hcopy⟩ := Option.bind_eq_some_iff.mp hcopy
      obtain ⟨u, hput, hcopy⟩ := Option.bind_eq_some_iff.mp hcopy
      obtain ⟨hsize, -, -, hsame⟩ := put_inv hput
      obtain ⟨hsize', hsame'⟩ := ih hcopy
      exact ⟨hsize'.trans hsize, SameSlots.trans hsame hsame'⟩

theorem Tight.popBack (h : Tight v) (hfits : Fits P v) (hpop : v.popBack P = some v') :
    Tight v' := by
  unfold LFVector.popBack at hpop
  split_ifs at hpop with hn
  · cases hpop
    exact h
  · obtain ⟨u, hdrop, rfl⟩ := Option.map_eq_some_iff.mp hpop
    obtain ⟨hsize, hsame⟩ := dropBack_slots hdrop
    exact h.shrunk hfits hsame (by omega)

theorem Tight.popBackTo {o : Option T} (h : Tight v) (hfits : Fits P v)
    (hpop : v.popBackTo P = some (o, v')) : Tight v' := by
  unfold LFVector.popBackTo at hpop
  split_ifs at hpop with hn
  · cases hpop
    exact h
  · obtain ⟨y, -, hpop⟩ := Option.bind_eq_some_iff.mp hpop
    obtain ⟨u, hdrop, heq⟩ := Option.map_eq_some_iff.mp hpop
    cases heq
    obtain ⟨hsize, hsame⟩ := dropBack_slots hdrop
    exact h.shrunk hfits hsame (by omega)

theorem Tight.remove (h : Tight v) (hfits : Fits P v) (hrem : v.remove P i x = some v') :
    Tight v' := by
  obtain ⟨u, hcopy, hrem⟩ := Option.bind_eq_some_iff.mp hrem
  obtain ⟨u', hput, rfl⟩ := Option.map_eq_some_iff.mp hrem
  obtain ⟨hsize, hsame⟩ := copyDown_slots hcopy
  obtain ⟨hsize', -, -, hsame'⟩ := put_inv hput
  rw [setSize_size] at hsize
  exact h.shrunk hfits (SameSlots.trans hsame hsame') (by omega)

theorem Tight.eraseAt {own : Bool} {k : Nat} (h : Tight v) (hfits : Fits P v)
    (he : v.eraseAt P own i = some (k, v')) : Tight v' := by
  unfold LFVector.eraseAt at he
  split_ifs at he
  · cases he
    exact h
  · obtain ⟨u, hrem, heq⟩ := Option.map_eq_some_iff.mp he
    cases heq
    exact h.remove hfits hrem

theorem Tight.erase [DecidableEq T] {k : Nat} (h : Tight v) (hfits : Fits P v)
    (he : v.erase P x = some (k, v')) : Tight v' := by
  obtain ⟨o, -, he⟩ := Option.bind_eq_some_iff.mp he
  cases o with
  | none =>
      cases he
      exact h
  | some i =>
      obtain ⟨u, hrem, heq⟩ := Option.map_eq_some_iff.mp he
      cases heq
      exact h.remove hfits hrem

/-- A vector without slots. -/
theorem tight_clear (hfits : Fits P v) (hc : v.clear P = some v') : Tight v' := by
  obtain ⟨u, hs, rfl⟩ := Option.map_eq_some_iff.mp hc
  have hu := (shrink_slots hs).2.fits hfits
  intro s _
  show (if s < P.nSlots then none else u.slots s) = none
  split_ifs with hlt
  · rfl
  · exact Option.not_isSome_iff_eq_none.mp fun hsome => hlt (hu s hsome)

/-- The slots of a tight vector that are above those of its first `n` elements: if the next but one
is not allocated, none further up is. -/
theorem upTo_iff_next (hrep : Rep P v xs) (h : Tight v) (hn : n < v.size) :
    UpTo (slotOf n + 1) v ↔ v.slots (slotOf n + 2) = none := by
  refine ⟨fun hup => hup _ (Nat.lt_succ_self _), fun hnone s hs => ?_⟩
  by_contra hne
  -- the slot is the spare one, or an element is in the slot `slotOf n + 2`
  have hle : s ≤ slotOf v.size := by
    by_contra hlt
    exact hne (tight_iff.mp h s (by omega))
  have hlast : slotOf v.size ≤ slotOf (v.size - 1) + 1 := by
    have := slotOf_succ_le (v.size - 1)
    rwa [Nat.sub_add_cancel (by omega)] at this
  by_cases hs2 : s = slotOf n + 2
  · exact hne (hs2 ▸ hnone)
  · have hlen := hrep.length_le (i := slotOf n + 2) (by rw [hnone]; simp)
    rw [← hrep.size] at hlen
    have hslot : slotOf (v.size - 1) < slotOf n + 2 := slotOf_lt_iff.mpr (by omega)
    omega

/-- `resize` frees enough if it grows the vector, or if at most one slot is to be freed. -/
theorem tight_resize (hrep : Rep P v xs) (h : Tight v) {b : Bool}
    (hres : v.resize P n x = some (b, v')) :
    Tight v' ↔ (n < v.size → v.slots (slotOf n + 2) = none) := by
  have hfits := hrep.shape.fits
  obtain ⟨u, hs, hres⟩ := Option.bind_eq_some_iff.mp hres
  obtain ⟨hsize, hsame⟩ := shrink_slots hs
  by_cases hn : n < v.size
  · have hun : u.size = n := by omega
    simp only [trim_size, hun, Nat.sub_self, LFVector.fill, Option.some.injEq,
      Prod.mk.injEq] at hres
    obtain ⟨-, rfl⟩ := hres
    rw [tight_trim (hsame.fits hfits), hsame.upTo, hun, upTo_iff_next hrep h hn]
    exact ⟨fun hup _ => hup, fun hup => hup hn⟩
  · refine iff_of_true ?_ (fun hlt => absurd hlt hn)
    exact (h.shrunk hfits hsame (by omega)).fill hres

/-! ## Assignment -/

/-- A copy has the slots of the other vector. -/
theorem Tight.assign (h : Tight w) (hw : Rep P w ys) (hv' : Rep P v' ys)
    (hr : Replaced P w v v' ys.length 0 P.nSlots) : Tight v' := by
  rw [tight_iff, hw.size] at h
  rw [tight_iff, hv'.size]
  intro s hs
  by_contra hne
  have hsome := Option.isSome_iff_ne_none.mpr hne
  -- the first cell of the slot is behind the elements
  have hslot : slotOf (2 ^ s - 1) = s := (address_of (Nat.two_pow_pos s)).1
  have hbehind : ys.length ≤ 2 ^ s - 1 := by
    by_contra hlt
    have := slotOf_mono (Nat.le_of_lt (Nat.lt_of_not_le hlt))
    omega
  have hkept := hr _ hbehind
  rw [hslot, if_pos ⟨Nat.zero_le s, hv'.shape.fits s hsome⟩, h s hs, hsome] at hkept
  cases hkept.1

/-! ## Programs -/

section Program

variable [DecidableEq T]

theorem holds_of_trace {tr : List (Op T × Output T)} {s : Nat → LFVector T}
    (h : (vectors P).Trace tr s) : ∃ t, Holds P s t := by
  refine h.stateInv (fun s => ∃ t, Holds P s t) ⟨fun _ => [], fun _ => rep_new⟩ ?_
  rintro s op b s' ⟨t, ht⟩ hs
  exact holds_step ht hs

/-- A `resize` to a smaller size finds the slot not allocated that is two above the slot of the new
size. -/
def Releases (s : Nat → LFVector T) : Op T → Prop
  | .resize k n _ => n < (s k).size → (s k).slots (slotOf n + 2) = none
  | _ => True

/-- One step keeps all vectors tight, unless it is a `resize` that has more than one slot to
free. -/
theorem tight_step {s s' : Nat → LFVector T} {t : Nat → List T} {op : Op T} {b : Output T}
    (ht : Holds P s t) (h : ∀ k, Tight (s k)) (hs : (vectors P).step s op = some (b, s')) :
    (∀ k, Tight (s' k)) ↔ Releases s op := by
  have hfits : ∀ k, Fits P (s k) := fun k => (ht k).shape.fits
  cases op with
  | pushBack k x =>
      exact iff_of_true (forall_map h hs fun r hr => (h k).pushBackUnlocked hr) trivial
  | popBack k => exact iff_of_true (forall_map h hs fun v hv => (h k).popBack (hfits k) hv) trivial
  | popBackTo k =>
      exact iff_of_true (forall_map h hs fun r hr => (h k).popBackTo (hfits k) hr) trivial
  | eraseAt k m i =>
      exact iff_of_true (forall_map h hs fun r hr => (h k).eraseAt (hfits k) hr) trivial
  | erase k x => exact iff_of_true (forall_map h hs fun r hr => (h k).erase (hfits k) hr) trivial
  | expand k n x => exact iff_of_true (forall_map h hs fun r hr => (h k).fill hr) trivial
  | resize k n x =>
      obtain ⟨⟨ok, v⟩, hres, heq⟩ := Option.map_eq_some_iff.mp hs
      cases heq
      rw [forall_update h]
      exact tight_resize (ht k) (h k) hres
  | clear k => exact iff_of_true (forall_map h hs fun v hv => tight_clear (hfits k) hv) trivial
  | assign k m =>
      refine iff_of_true ?_ trivial
      rcases assign_step ht hs with ⟨-, rfl⟩ | ⟨-, v, rfl, hrep, hr⟩
      · exact h
      · exact (forall_update h k v).mpr ((h m).assign (ht m) hrep hr)
  | write k i x =>
      refine iff_of_true ?_ trivial
      rcases write_step hs with rfl | ⟨-, v, hv, rfl⟩
      · exact h
      · obtain ⟨hsize, -, -, hsame⟩ := put_inv hv
        refine (forall_update h k v).mpr (tight_iff.mpr ?_)
        rw [hsize, SameSlots.upTo hsame]
        exact tight_iff.mp (h k)
  | equal k m =>
      rw [equal_step hs]
      exact iff_of_true h trivial

/-- **Storage is released.** In every program over vectors, no vector ever has a slot above that of
its size, so that at most `2 * size() + 1` cells are allocated, exactly if every `resize` to a
smaller size finds the slot that is two above the slot of the new size not allocated. -/
theorem tight_iff_releases {tr : List (Op T × Output T)} {s : Nat → LFVector T}
    (h : (vectors P).Trace tr s) :
    (vectors P).Always (fun _ s => ∀ k, Tight (s k) ∧ storage P (s k) ≤ 2 * (s k).size + 1) tr ↔
      (vectors P).Guarded Releases tr := by
  refine h.always_iff_guarded (fun _ => ⟨tight_new, tight_new.storage_le shape_new⟩) ?_
  intro tr s op b s' htr hq hs
  obtain ⟨t, ht⟩ := holds_of_trace htr
  obtain ⟨t', ht'⟩ := holds_step ht hs
  rw [← tight_step ht (fun k => (hq k).1) hs]
  exact forall_congr' fun k => and_iff_left_of_imp (Tight.storage_le (ht' k).shape)

/-- Four elements are reduced to one and then to none. -/
def stepwiseHistory : List (Op Nat) := [.expand 0 4 5, .resize 0 1 0, .resize 0 0 0]

theorem tight_stepwise :
    ∃ tr s, (vectors (T := Nat) ⟨3, 0, 0, none⟩).Trace tr s ∧ tr.map Prod.fst = stepwiseHistory ∧
      (vectors (T := Nat) ⟨3, 0, 0, none⟩).Guarded Releases tr ∧
      (vectors (T := Nat) ⟨3, 0, 0, none⟩).Always (fun _ s => ∀ k, Tight (s k) ∧
        storage ⟨3, 0, 0, none⟩ (s k) ≤ 2 * (s k).size + 1) tr ∧
      storage ⟨3, 0, 0, none⟩ (s 0) = 1 := by
  have htrace := Machine.Trace.of_run (M := vectors (T := Nat) ⟨3, 0, 0, none⟩) stepwiseHistory rfl
  have hmeets : (vectors (T := Nat) ⟨3, 0, 0, none⟩).meets Releases stepwiseHistory
      (vectors (T := Nat) ⟨3, 0, 0, none⟩).init := by
    refine ⟨trivial, fun r1 h1 => ⟨fun _ => ?_, fun r2 h2 => ⟨fun _ => ?_, fun _ _ => trivial⟩⟩⟩
    · cases h1
      rfl
    · cases h1
      cases h2
      rfl
  have hguard := Machine.guarded_of_run (M := vectors (T := Nat) ⟨3, 0, 0, none⟩) stepwiseHistory
    rfl hmeets
  exact ⟨_, _, htrace, rfl, hguard, (tight_iff_releases htrace).mpr hguard, rfl⟩

/-- Four elements are taken away at once: `trim_` frees the slot 1, and the four cells of the slot
2 stay allocated in an empty vector. -/
theorem resize_keeps_slot :
    ∃ tr s, (vectors (T := Nat) ⟨3, 0, 0, none⟩).Trace tr s ∧
      tr.map Prod.fst = [.expand 0 4 5, .resize 0 0 0] ∧ (s 0).size = 0 ∧
      ((s 0).slots 2).isSome ∧ storage ⟨3, 0, 0, none⟩ (s 0) = 5 ∧ ¬ Tight (s 0) := by
  refine ⟨_, _, Machine.Trace.of_run (M := vectors (T := Nat) ⟨3, 0, 0, none⟩)
    [.expand 0 4 5, .resize 0 0 0] rfl, rfl, rfl, rfl, rfl, ?_⟩
  intro h
  have := h 2 (by decide)
  cases this

end Program

end Lunchbox.LFVector
