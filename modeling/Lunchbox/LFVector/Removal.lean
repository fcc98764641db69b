import Lunchbox.LFVector.Release

set_option autoImplicit false

/-! # Concurrent removals

Any number of threads call `erase(iterator)`, `erase(element)` and both `pop_back` functions on one
vector. All of them change the vector under `lock_`, in one step. But `erase(iterator)` compares the
position with `size_` before it takes the lock, so that it is two steps, and other threads can
remove elements in between.

Here `size_` is a `size_t`, with `w` bits: `--size_` of an empty vector gives `2 ^ w - 1`.
-/

namespace Lunchbox.LFVector.Removal

open StateMachine Function

variable {T : Type} {P : Params T} {v v' : LFVector T} {xs ys : List T} {x : T} {i t w : Nat}

/-! ## The machine -/

/-- `--size_` -/
def decrement (w size : Nat) : Nat := (size + (2 ^ w - 1)) % 2 ^ w

/-- `std::copy(pos + 1, end() + 1, pos); (*this)[size_] = T(); trim_()`, where `next` is the
position `size_ + 1` that both `end() + 1` and `operator[]` compute. -/
def eraseFrom (P : Params T) (v : LFVector T) (next i : Nat) : Option (LFVector T) :=
  let slot := getIndexOfLastBit next
  let index := next ^^^ (1 <<< slot.toNat)
  ((copyDown P (next - (i + 1)) i v).bind fun v => v.store P slot index P.dflt).map (trim P)

/-- What `erase(pos)` does after its test, under the lock. It yields false if it makes an access
that is not defined. -/
def eraseLocked (w : Nat) (P : Params T) (v : LFVector T) (i : Nat) : Bool × LFVector T :=
  let v := v.setSize (decrement w v.size)
  match eraseFrom P v ((v.size + 1) % 2 ^ w) i with
  | some v => (true, v)
  | none => (false, v)

/-- The vector, and for each thread the position of the iterator that it has found in range. -/
structure State (T : Type) where
  vector : LFVector T
  pending : Nat → Option Nat

inductive Action (T : Type)
  /-- The thread `t` calls `erase(pos)` and makes the test, for an iterator of this vector or of
  another one (`own`). -/
  | check (t : Nat) (own : Bool) (i : Nat)
  /-- `erase(pos)` after its test -/
  | body (t : Nat)
  /-- `erase(element)` -/
  | erase (t : Nat) (element : T)
  | popBack (t : Nat)
  /-- `pop_back(element)` -/
  | popBackTo (t : Nat)

inductive Output (T : Type)
  /-- The iterator is in range. -/
  | checked
  /-- Nothing is removed: `end()` or false is returned. -/
  | kept
  /-- The position of the removed element. -/
  | erased (i : Nat)
  /-- The last element is removed; with its value if the function returns it. -/
  | popped (x : Option T)
  /-- `size_` is changed, and then a cell that does not exist. -/
  | undefined

section Machine

variable [DecidableEq T]

/-- The threads with a vector. -/
def removals (w : Nat) (P : Params T) (v : LFVector T) :
    Machine (State T) (Action T) (Output T) where
  init := ⟨v, fun _ => none⟩
  step s
    | .check t own i =>
        if (s.pending t).isSome then none
        else if !own ∨ s.vector.size ≤ i then some (.kept, s)
        else some (.checked, { s with pending := update s.pending t (some i) })
    | .body t =>
        match s.pending t with
        | none => none
        | some i =>
            let r := eraseLocked w P s.vector i
            some (if r.1 then .erased i else .undefined, ⟨r.2, update s.pending t none⟩)
    | .erase t element =>
        if (s.pending t).isSome then none
        else (s.vector.erase P element).map fun r =>
          (if r.1 < s.vector.size then .erased r.1 else .kept, { s with vector := r.2 })
    | .popBack t =>
        if (s.pending t).isSome then none
        else (s.vector.popBack P).map fun v =>
          (if s.vector.size = 0 then .kept else .popped none, { s with vector := v })
    | .popBackTo t =>
        if (s.pending t).isSome then none
        else (s.vector.popBackTo P).map fun r =>
          (if r.1.isNone then .kept else .popped r.1, { s with vector := r.2 })

end Machine

/-! ## What the history says -/

abbrev History (T : Type) := List (Action T × Output T)

/-- A step that has removed an element. -/
def Removes : Action T × Output T → Bool
  | (_, .erased _) => true
  | (_, .popped _) => true
  | (_, .undefined) => true
  | _ => false

/-- The number of removals. -/
def removed (tr : History T) : Nat := tr.countP Removes

theorem removed_snoc (tr : History T) (e : Action T × Output T) :
    removed (tr ++ [e]) = removed tr + (Removes e).toNat := by
  cases h : Removes e <;> simp [removed, h]

/-! ## The body of `erase(iterator)` -/

theorem decrement_pos {n : Nat} (h0 : n ≠ 0) (h : n < 2 ^ w) : decrement w n = n - 1 := by
  have hsum : n + (2 ^ w - 1) = n - 1 + 2 ^ w := by omega
  rw [decrement, hsum, Nat.add_mod_right, Nat.mod_eq_of_lt (by omega)]

/-- Where the position is not too large, the body is the common end of both `erase` functions. -/
theorem eraseFrom_eq {u : LFVector T} (hrem : v.remove P i P.dflt = some u) :
    eraseFrom P (v.setSize (v.size - 1)) (v.size - 1 + 1) i = some u := by
  obtain ⟨c, hcopy, hrem⟩ := Option.bind_eq_some_iff.mp hrem
  obtain ⟨c', hput, rfl⟩ := Option.map_eq_some_iff.mp hrem
  have hsize := (copyDown_slots hcopy).1
  rw [setSize_size] at hsize hcopy
  rw [hsize] at hput
  have hcount : v.size - 1 + 1 - (i + 1) = v.size - 1 - i := by omega
  have hstore : c.store P (getIndexOfLastBit (v.size - 1 + 1))
      ((v.size - 1 + 1) ^^^ (1 <<< (getIndexOfLastBit (v.size - 1 + 1)).toNat)) P.dflt
      = some c' := hput
  unfold eraseFrom
  simp only [hcount, hcopy, Option.bind_some, hstore, Option.map_some]

theorem eraseLocked_eq (h0 : v.size ≠ 0) (h : v.size < 2 ^ w) {u : LFVector T}
    (hrem : v.remove P i P.dflt = some u) : eraseLocked w P v i = (true, u) := by
  have hnext : (v.size - 1 + 1) % 2 ^ w = v.size - 1 + 1 := Nat.mod_eq_of_lt (by omega)
  unfold eraseLocked
  simp only [setSize_size, decrement_pos h0 h, hnext, eraseFrom_eq hrem]

section Elements

variable [DecidableEq T]

/-- The list of elements after a step: `erase(iterator)` removes the element at its position, if
that is a position in the list. -/
def remainingStep (xs : List T) : Action T × Output T → List T
  | (.body _, .erased i) => xs.eraseIdx i
  | (.erase _ x, _) => (lastIndex x xs).elim xs xs.eraseIdx
  | (.popBack _, _) => xs.dropLast
  | (.popBackTo _, _) => xs.dropLast
  | _ => xs

/-- The elements that remain of `xs`. -/
def remaining (xs : List T) (tr : History T) : List T := tr.foldl remainingStep xs

theorem remaining_snoc (xs : List T) (tr : History T) (e : Action T × Output T) :
    remaining xs (tr ++ [e]) = remainingStep (remaining xs tr) e := by
  simp [remaining]

/-- The size is that at the start without the removals, and the vector holds the elements that
remain. -/
structure Sound (P : Params T) (xs : List T) (tr : History T) (s : State T) : Prop where
  size : (s.vector.size : Int) = xs.length - removed tr
  holds : Rep P s.vector (remaining xs tr)

/-- The body of `erase(iterator)` is executed for a position that is still in range. -/
def InRange (s : State T) : Action T → Prop
  | .body t => ∀ i ∈ s.pending t, i < s.vector.size
  | _ => True

instance (s : State T) : DecidablePred (InRange s)
  | .body t => inferInstanceAs (Decidable (∀ i ∈ s.pending t, i < s.vector.size))
  | .check _ _ _ | .erase _ _ | .popBack _ | .popBackTo _ => isTrue trivial

/-! ## Steps -/

/-- A step that removes an element of the vector, or none. -/
theorem Sound.snoc {s : State T} {tr : History T} {e : Action T × Output T} (h : Sound P xs tr s)
    {pending : Nat → Option Nat} (hrep : Rep P v (remainingStep (remaining xs tr) e))
    (hsize : (remainingStep (remaining xs tr) e).length + (Removes e).toNat = s.vector.size) :
    Sound P xs (tr ++ [e]) ⟨v, pending⟩ := by
  have h0 := h.size
  have h1 := hrep.size
  refine ⟨?_, by rwa [remaining_snoc]⟩
  rw [removed_snoc]
  push_cast
  omega

/-- The body of `erase(iterator)` removes the element at its position, or it is out of range. -/
theorem body_step {s : State T} {tr : History T} (h : Sound P xs tr s) (hlt : s.vector.size < 2 ^ w)
    (i : Nat) (pending : Nat → Option Nat) :
    Sound P xs (tr ++ [(.body t, if (eraseLocked w P s.vector i).1 then .erased i else .undefined)])
      ⟨(eraseLocked w P s.vector i).2, pending⟩ ↔ i < s.vector.size := by
  have hlen := h.holds.size
  constructor
  · intro hs
    by_contra hge
    -- one removal is counted, but no element should be missing
    have hkept : remainingStep (remaining xs tr) (.body t,
        if (eraseLocked w P s.vector i).1 then .erased i else .undefined) = remaining xs tr := by
      split_ifs
      · exact List.eraseIdx_of_length_le (by omega)
      · rfl
    have hcount : Removes ((.body t, if (eraseLocked w P s.vector i).1 then .erased i
        else .undefined) : Action T × Output T) = true := by
      split_ifs <;> rfl
    have hsize : ((eraseLocked w P s.vector i).2.size : Int) = _ := hs.size
    have hsize' : (eraseLocked w P s.vector i).2.size = _ := hs.holds.size
    have hbefore := h.size
    rw [remaining_snoc, hkept] at hsize'
    rw [removed_snoc, hcount, Bool.toNat_true] at hsize
    push_cast at hsize
    omega
  · intro hi
    have hi' : i < (remaining xs tr).length := by omega
    obtain ⟨u, hrem, hrep⟩ := remove_eraseIdx h.holds hi' P.dflt
    rw [eraseLocked_eq (by omega) hlt hrem, if_pos rfl]
    refine h.snoc hrep ?_
    show ((remaining xs tr).eraseIdx i).length + 1 = _
    rw [List.length_eraseIdx_of_lt hi']
    omega

theorem lastIndex_lt {i : Nat} (h : lastIndex x xs = some i) : i < xs.length := by
  have := List.mem_of_find?_eq_some h
  rwa [List.mem_reverse, List.mem_range] at this

theorem sound_step {s s' : State T} {tr : History T} {a : Action T} {b : Output T}
    (h : Sound P xs tr s) (hlt : s.vector.size < 2 ^ w)
    (hs : (removals w P v).step s a = some (b, s')) :
    Sound P xs (tr ++ [(a, b)]) s' ↔ InRange s a := by
  have hlen := h.holds.size
  cases a with
  | check t own i =>
      have hs' : (if (s.pending t).isSome then none
        else if !own ∨ s.vector.size ≤ i then some (.kept, s)
        else some (.checked, { s with pending := update s.pending t (some i) }))
          = some (b, s') := hs
      split_ifs at hs'
      · cases hs'
        exact iff_of_true (h.snoc h.holds hlen.symm) trivial
      · cases hs'
        exact iff_of_true (h.snoc h.holds hlen.symm) trivial
  | body t =>
      have hs' : (match s.pending t with
        | none => none
        | some i =>
            let r := eraseLocked w P s.vector i
            some (if r.1 then .erased i else .undefined, ⟨r.2, update s.pending t none⟩))
          = some (b, s') := hs
      show _ ↔ ∀ i ∈ s.pending t, i < s.vector.size
      cases hp : s.pending t with
      | none =>
          rw [hp] at hs'
          cases hs'
      | some i =>
          rw [hp] at hs'
          cases hs'
          rw [body_step h hlt]
          exact ⟨fun hi j hj => by cases hj; exact hi, fun hi => hi i rfl⟩
  | erase t x =>
      obtain ⟨u, hu, hrep⟩ := erase_spec h.holds x
      have hs' : (if (s.pending t).isSome then none
        else (s.vector.erase P x).map fun r =>
          (if r.1 < s.vector.size then .erased r.1 else .kept, { s with vector := r.2 }))
          = some (b, s') := hs
      rw [hu] at hs'
      cases hl : lastIndex x (remaining xs tr) with
      | none =>
          rw [hl] at hs' hrep
          simp only [Option.getD_none, Option.map_some, hlen, lt_irrefl, if_false] at hs'
          split_ifs at hs'
          cases hs'
          refine iff_of_true (h.snoc ?_ ?_) trivial
          · simpa only [remainingStep, hl] using hrep
          · simp only [remainingStep, hl, Option.elim_none, Removes, Bool.toNat_false, hlen]
            rfl
      | some i =>
          have hi := lastIndex_lt hl
          rw [hl] at hs' hrep
          simp only [Option.getD_some, Option.map_some, hlen, if_pos hi] at hs'
          split_ifs at hs'
          cases hs'
          refine iff_of_true (h.snoc ?_ ?_) trivial
          · simpa only [remainingStep, hl] using hrep
          · simp only [remainingStep, hl, Option.elim_some, Removes, Bool.toNat_true,
              List.length_eraseIdx_of_lt hi]
            omega
  | popBack t =>
      obtain ⟨u, hu, hrep⟩ := popBack_spec h.holds
      have hs' : (if (s.pending t).isSome then none
        else (s.vector.popBack P).map fun v =>
          (if s.vector.size = 0 then .kept else .popped none, { s with vector := v }))
          = some (b, s') := hs
      rw [hu] at hs'
      split_ifs at hs'
      · cases hs'
        refine iff_of_true (h.snoc hrep ?_) trivial
        show (remaining xs tr).dropLast.length + 0 = _
        rw [List.length_dropLast]
        omega
      · cases hs'
        refine iff_of_true (h.snoc hrep ?_) trivial
        show (remaining xs tr).dropLast.length + 1 = _
        rw [List.length_dropLast]
        omega
  | popBackTo t =>
      obtain ⟨u, hu, hrep⟩ := popBackTo_spec h.holds
      have hs' : (if (s.pending t).isSome then none
        else (s.vector.popBackTo P).map fun r =>
          (if r.1.isNone then .kept else .popped r.1, { s with vector := r.2 }))
          = some (b, s') := hs
      rw [hu, Option.map_some] at hs'
      split_ifs at hs' with _ hlast
      · cases hs'
        rw [Option.isNone_iff_eq_none, List.getLast?_eq_none_iff] at hlast
        refine iff_of_true (h.snoc hrep ?_) trivial
        show (remaining xs tr).dropLast.length + 0 = _
        rw [hlast] at hlen ⊢
        exact hlen.symm
      · cases hs'
        rw [Option.isNone_iff_eq_none, List.getLast?_eq_none_iff] at hlast
        have hpos := List.length_pos_iff.mpr hlast
        refine iff_of_true (h.snoc hrep ?_) trivial
        show (remaining xs tr).dropLast.length + 1 = _
        rw [List.length_dropLast]
        omega

/-- **Concurrent removals.** Any number of threads remove elements from a vector that holds `xs`.
After every step, the size is that at the start less the number of removals, and the vector holds
the elements that remain when every `erase(iterator)` removes the element at its position or
nothing, exactly if each body of `erase(iterator)` is executed for a position below the size at that
time. -/
theorem sound_iff_inRange (hv : Rep P v xs) (hlt : v.size < 2 ^ w) {tr : History T} {s : State T}
    (h : (removals w P v).Trace tr s) :
    (removals w P v).Always (Sound P xs) tr ↔ (removals w P v).Guarded InRange tr := by
  have hstart := hv.size
  have h0 : Sound P xs [] (removals w P v).init := by
    refine ⟨?_, hv⟩
    show (v.size : Int) = xs.length - (0 : Nat)
    omega
  refine h.always_iff_guarded h0 ?_
  intro tr s a b s' _ hq hs
  have hsize := hq.size
  exact sound_step hq (by omega) hs

end Elements

/-! ## Two threads -/

/-- A vector of two elements. -/
def pair : LFVector Nat where
  slots s := if s = 0 then some [some 5] else if s = 1 then some [some 6, none] else none
  size := 2

/-- A vector of one element. -/
def single : LFVector Nat where
  slots s := if s = 0 then some [some 5] else none
  size := 1

theorem rep_pair : Rep ⟨2, 0, 0, none⟩ pair [5, 6] := by
  refine ⟨⟨?_, ?_⟩, rfl⟩
  · intro s cells hs
    simp only [pair] at hs
    split_ifs at hs with h0 h1
    · cases hs
      subst h0
      exact ⟨by decide, rfl⟩
    · cases hs
      subst h1
      exact ⟨by decide, rfl⟩
  · intro i x hx
    match i with
    | 0 =>
        cases hx
        rfl
    | 1 =>
        cases hx
        rfl
    | i + 2 => simp at hx

/-- One thread erases the first element while another one takes the last. -/
theorem sound_interleaved :
    ∃ tr s, (removals 64 ⟨2, 0, 0, none⟩ pair).Trace tr s ∧
      tr.map Prod.fst = [.check 1 true 0, .popBack 2, .body 1] ∧
      (removals 64 ⟨2, 0, 0, none⟩ pair).Guarded InRange tr ∧
      (removals 64 ⟨2, 0, 0, none⟩ pair).Always (Sound ⟨2, 0, 0, none⟩ [5, 6]) tr ∧
      s.vector.size = 0 := by
  have htrace := Machine.Trace.of_run (M := removals 64 ⟨2, 0, 0, none⟩ pair)
    [.check 1 true 0, .popBack 2, .body 1] rfl
  have hguard := Machine.guarded_of_run (M := removals 64 ⟨2, 0, 0, none⟩ pair) (G := InRange)
    [.check 1 true 0, .popBack 2, .body 1] rfl (by decide)
  exact ⟨_, _, htrace, rfl, hguard, (sound_iff_inRange rep_pair (by decide) htrace).mpr hguard, rfl⟩

/-- Two threads erase the only element, and both tests are made before the first removal: the size
wraps. If there are two elements and one thread takes the last one after it was found in range by
the other, that one removes the first element, which its iterator does not point to. -/
theorem stale_test_removes :
    (∃ tr s, (removals 64 ⟨2, 0, 0, none⟩ single).Trace tr s ∧
      tr = [(.check 1 true 0, .checked), (.check 2 true 0, .checked), (.body 1, .erased 0),
        (.body 2, .undefined)] ∧ s.vector.size = 2 ^ 64 - 1) ∧
    ∃ tr s, (removals 64 ⟨2, 0, 0, none⟩ pair).Trace tr s ∧
      tr = [(.check 1 true 1, .checked), (.popBack 2, .popped none), (.body 1, .erased 1)] ∧
      s.vector.size = 0 := by
  constructor
  · exact ⟨_, _, Machine.Trace.of_run (M := removals 64 ⟨2, 0, 0, none⟩ single)
      [.check 1 true 0, .check 2 true 0, .body 1, .body 2] rfl, rfl, rfl⟩
  · exact ⟨_, _, Machine.Trace.of_run (M := removals 64 ⟨2, 0, 0, none⟩ pair)
      [.check 1 true 1, .popBack 2, .body 1] rfl, rfl, rfl⟩

end Lunchbox.LFVector.Removal
