import Lunchbox.LFVector.Refinement

set_option autoImplicit false

/-! # Serialization of a vector

`save` and `load` (`lfVector.ipp`), with an archive as the list of the items that were written to
it. `load` makes the vector as large as the saved one, but not smaller, and then reads as many
elements as the vector has. So it gives back a saved vector exactly if the target is not larger.
-/

namespace Lunchbox.LFVector.Archive

variable {T : Type}

/-- An item of an archive: a size, or an element. -/
inductive Item (T : Type)
  | size (n : Nat)
  | element (x : T)

variable (P : Params T)

/-! ## The functions -/

/-- The loop of `save`, over `n` elements from `i` on. -/
def saveFrom (v : LFVector T) : Nat → Nat → Option (List (Item T))
  | 0, _ => some []
  | n + 1, i => (v.get P i).bind fun x => (saveFrom v n (i + 1)).map (.element x :: ·)

/-- `save(ar)` -/
def save (v : LFVector T) : Option (List (Item T)) :=
  (saveFrom P v v.size 0).map (.size v.size :: ·)

/-- The loop of `load`, over `n` elements from `i` on. It is `none` if the next item is not an
element. -/
def loadFrom : Nat → Nat → LFVector T → List (Item T) → Option (LFVector T × List (Item T))
  | 0, _, v, ar => some (v, ar)
  | n + 1, i, v, .element x :: ar => (v.put P i x).bind fun v => loadFrom n (i + 1) v ar
  | _ + 1, _, _, _ => none

/-- `load(ar)`, with the items that are left; false if it throws. -/
def load (v : LFVector T) : List (Item T) → Option (Bool × LFVector T × List (Item T))
  | .size newSize :: ar =>
      match v.expand P newSize P.dflt with
      | some (true, v) => (loadFrom P v.size 0 v ar).map fun r => (true, r)
      | some (false, v) => some (false, v, ar)
      | none => none
  | _ => none

/-! ## Their specifications -/

variable {P} {Q : Params T} {v w w' : LFVector T} {xs ys : List T}

theorem saveFrom_spec (h : Rep P v xs) (n i : Nat) (hn : i + n = xs.length) :
    saveFrom P v n i = some ((xs.drop i).map .element) := by
  induction n generalizing i with
  | zero =>
      rw [List.drop_of_length_le (by omega)]
      rfl
  | succ n ih =>
      have hi : i < xs.length := by omega
      rw [saveFrom, h.read i _ (List.getElem?_eq_getElem hi), Option.bind_some,
        ih (i + 1) (by omega), List.drop_eq_getElem_cons hi]
      rfl

theorem save_spec (h : Rep P v xs) : save P v = some (.size xs.length :: xs.map .element) := by
  rw [save, h.size, saveFrom_spec h _ 0 (Nat.zero_add _)]
  rfl

/-- Loading replaces the elements from `xs.length` on by as many new ones. -/
theorem loadFrom_spec (zs : List T) (h : Stores P v (xs ++ ys)) (hlen : zs.length = ys.length)
    (rest : List (Item T)) :
    ∃ v', loadFrom P ys.length xs.length v (zs.map .element ++ rest) = some (v', rest) ∧
      v'.size = v.size ∧ Stores P v' (xs ++ zs) := by
  induction zs generalizing v xs ys with
  | nil =>
      rw [List.length_nil, eq_comm, List.length_eq_zero_iff] at hlen
      subst hlen
      exact ⟨v, rfl, rfl, h⟩
  | cons z zs ih =>
      cases ys with
      | nil => cases hlen
      | cons y ys =>
          obtain ⟨u, hput, hw⟩ := put_spec h.shape (h.allocated (i := xs.length) (by simp)).2 z
          have hset := h.write hw
          rw [List.set_append_right _ _ (le_refl _), Nat.sub_self, List.set_cons_zero,
            List.append_cons] at hset
          obtain ⟨u', hload, hsize, hstores⟩ := ih hset (by simpa using hlen)
          rw [List.length_append, List.length_singleton] at hload
          refine ⟨u', ?_, hsize.trans hw.size, ?_⟩
          · rw [List.length_cons, List.map_cons, List.cons_append, loadFrom, hput,
              Option.bind_some, hload]
          · rw [List.append_cons xs z zs]
            exact hstores

/-- Loading elements does not change the size. -/
theorem loadFrom_size {n i : Nat} {ar rest : List (Item T)}
    (h : loadFrom P n i v ar = some (w, rest)) : w.size = v.size := by
  induction n generalizing i v ar with
  | zero =>
      cases h
      rfl
  | succ n ih =>
      cases ar with
      | nil => cases h
      | cons item ar =>
          cases item with
          | size m => cases h
          | element x =>
              obtain ⟨u, hput, hload⟩ := Option.bind_eq_some_iff.mp h
              exact (ih hload).trans (put_inv hput).1

/-- **Saving and loading.** For a vector that holds `xs`, and a target that holds any elements and
has slots for `xs`: loading what was saved reads exactly the items that were saved and gives the
target the elements `xs`, exactly if the target has not more elements before. -/
theorem load_save_iff (hv : Rep P v xs) (hw : Rep Q w ys) (hroom : xs.length < 2 ^ Q.nSlots)
    (rest : List (Item T)) :
    (∃ ar w', save P v = some ar ∧ load Q w (ar ++ rest) = some (true, w', rest) ∧ Rep Q w' xs) ↔
      w.size ≤ v.size := by
  obtain ⟨u, hu, hrep⟩ := expand_spec hw xs.length Q.dflt
  rw [decide_eq_true hroom] at hu
  rw [Nat.min_eq_left (by omega)] at hrep
  have hload : load Q w (.size xs.length :: (xs.map .element ++ rest))
      = (loadFrom Q u.size 0 u (xs.map .element ++ rest)).map fun r => (true, r) := by
    simp only [load, hu]
  have husize := hrep.size
  rw [List.length_append, List.length_replicate] at husize
  rw [save_spec hv, hw.size, hv.size]
  constructor
  · rintro ⟨ar, w', har, hres, hrep'⟩
    cases har
    rw [List.cons_append, hload] at hres
    obtain ⟨r, hr, heq⟩ := Option.map_eq_some_iff.mp hres
    cases heq
    have := loadFrom_size hr
    have := hrep'.size
    omega
  · intro hle
    have hold : Stores Q u ([] ++ (ys ++ List.replicate (xs.length - ys.length) Q.dflt)) :=
      hrep.toStores
    have hlen : xs.length = (ys ++ List.replicate (xs.length - ys.length) Q.dflt).length := by
      rw [List.length_append, List.length_replicate]
      omega
    obtain ⟨w', hfrom, hsize, hstores⟩ := loadFrom_spec xs hold hlen rest
    refine ⟨_, w', rfl, ?_, hstores, by omega⟩
    rw [← hlen, show xs.length = u.size by omega] at hfrom
    rw [List.cons_append, hload]
    exact congrArg (Option.map fun r => (true, r)) hfrom

/-- Two elements loaded into a vector that has one. -/
theorem load_save_smaller :
    ∃ v w : LFVector Nat, new.expand ⟨4, 0, 0, some 0⟩ 2 7 = some (true, v) ∧
      new.expand ⟨3, 0, 0, some 0⟩ 1 5 = some (true, w) ∧
      ∃ ar w', save ⟨4, 0, 0, some 0⟩ v = some ar ∧
        load ⟨3, 0, 0, some 0⟩ w (ar ++ [.element 9]) = some (true, w', [.element 9]) ∧
        Rep ⟨3, 0, 0, some 0⟩ w' [7, 7] := by
  obtain ⟨v, hv, hrep⟩ := expand_spec (P := ⟨4, 0, 0, some 0⟩) rep_new 2 7
  obtain ⟨w, hw, hrep'⟩ := expand_spec (P := ⟨3, 0, 0, some 0⟩) rep_new 1 5
  refine ⟨v, w, hv, hw, (load_save_iff hrep hrep' (by decide) [.element 9]).mpr ?_⟩
  rw [hrep.size, hrep'.size]
  decide

/-- One element loaded into a vector that has two: the loop reads the next item of the archive, or
there is none. -/
theorem load_save_larger :
    ∃ v w : LFVector Nat, new.expand ⟨4, 0, 0, some 0⟩ 1 7 = some (true, v) ∧
      new.expand ⟨4, 0, 0, some 0⟩ 2 5 = some (true, w) ∧
      ∃ ar, save ⟨4, 0, 0, some 0⟩ v = some ar ∧ load ⟨4, 0, 0, some 0⟩ w ar = none ∧
        ∃ w', load ⟨4, 0, 0, some 0⟩ w (ar ++ [.element 9]) = some (true, w', []) ∧
          w'.size = 2 :=
  ⟨_, _, rfl, rfl, _, rfl, rfl, _, rfl, rfl⟩

end Lunchbox.LFVector.Archive
