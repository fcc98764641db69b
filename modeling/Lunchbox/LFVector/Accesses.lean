import Lunchbox.LFVector.Runs
import Lunchbox.Lib.TwoPhase

set_option autoImplicit false

/-! # The functions of a vector, access by access

The bodies of the functions that lock the vector (`lfVector.ipp`) as sequences of accesses. A step
reads or writes the size or the pointer of a slot, or an element through the pointer of its slot.
Loops that several functions have in common are one part of the code, which knows what follows on
it.

A body that runs alone does what the function of `Model.lean` does: this is what the lemmas say,
one for each loop and each function.
-/

namespace Lunchbox.LFVector

open Function TwoPhase

variable {T : Type}

/-! ## Functions of one vector -/

/-- What follows on `push_back_unlocked_` and `trim_`: the function returns, or it pushes elements
until there are `n`. -/
inductive After (T : Type)
  | ret (r : Output T)
  | below (n : Nat) (x : T)

/-- The loops that remove elements. -/
inductive Loop (T : Type)
  | resize (n : Nat) (x : T)
  | clear

def Loop.newSize : Loop T → Nat
  | .resize n _ => n
  | .clear => 0

/-- What follows on `(*this)[size_] = x`: `trim_` and the return, or the next round of a loop. -/
inductive Next (T : Type)
  | trim (r : Output T)
  | again (l : Loop T)

/-- The next access. -/
inductive Access (T : Type)
  /-- `while( newSize > size( ))` -/
  | below (n : Nat) (x : T)
  /-- `push_back_unlocked_`: `i = size_ + 1` -/
  | position (x : T) (after : After T)
  /-- `if( !slots_[slot] )` -/
  | present (i : Nat) (x : T) (after : After T)
  /-- `slots_[slot] = new T[sz]` -/
  | allocate (i : Nat) (x : T) (after : After T)
  /-- `slots_[slot][index] = item` -/
  | append (i : Nat) (x : T) (after : After T)
  /-- `++size_` -/
  | increment (after : After T)
  /-- `while( size_ > newSize )` -/
  | above (l : Loop T)
  /-- `--size_` -/
  | decrement (next : Next T)
  /-- `(*this)[size_] = x`: the size -/
  | last (x : T) (next : Next T)
  /-- `(*this)[size_] = x`: the element -/
  | reset (i : Nat) (x : T) (next : Next T)
  /-- `trim_`: `size_ + 1` -/
  | trim (after : After T)
  /-- `if( slots_[nextSlot] )` -/
  | spare (slot : Nat) (after : After T)
  /-- `delete[] slots_[nextSlot]`, and the pointer is reset -/
  | free (slot : Nat) (after : After T)
  /-- `clear`: `delete[] slots_[i]`, and the pointer is reset -/
  | discard (i : Nat)
  /-- `pop_back`: `if( size_ == 0 )`, for the function with or without an element -/
  | empty (element : Bool)
  /-- `pop_back`: `size_ - 1` -/
  | back
  /-- `pop_back`: `element = (*this)[i]` -/
  | pop (i : Nat)
  /-- `erase`: `i = size_` -/
  | search (x : T)
  /-- `erase`: `(*this)[i] == element` -/
  | compare (i : Nat) (x : T)
  /-- `erase`: `return end()` -/
  | missing
  /-- `erase`: `--size_`, with the element found at `i` -/
  | remove (i : Nat)
  /-- `erase`: the end of the range of `std::copy` -/
  | range (i : Nat)
  /-- `std::copy`: read the element `j + 1` -/
  | source (i j stop : Nat)
  /-- `std::copy`: write the element `j` -/
  | target (i j stop : Nat) (y : T)

def After.rest : After T → Access T ⊕ Output T
  | .ret r => .inr r
  | .below n x => .inl (.below n x)

def Next.access : Next T → Access T
  | .trim r => .trim (.ret r)
  | .again l => .above l

variable (P : Params T)

/-- The loop of `clear` over the slots. -/
def discardFrom (i : Nat) : Access T ⊕ Output T :=
  if i < P.nSlots then .inl (.discard i) else .inr .done

/-- What follows on a loop that removes elements. -/
def Loop.rest : Loop T → Access T ⊕ Output T
  | .resize n x => .inl (.trim (.below n x))
  | .clear => discardFrom P 0

/-- The loop of `erase` over the elements before `i`. -/
def searchBefore (i : Nat) (x : T) : Access T :=
  match i with
  | 0 => .missing
  | i + 1 => .compare i x

/-- The loop of `std::copy`, and the end of `erase`. -/
def copyFromTo (i j stop : Nat) : Access T :=
  if j < stop then .source i j stop else .last P.zero (.trim (.iterator i))

variable [DecidableEq T]

def Access.step (v : LFVector T) : Access T → Option (LFVector T × (Access T ⊕ Output T))
  | .below n x => some (v, if v.size < n then .inl (.position x (.below n x)) else .inr .done)
  | .position x after =>
      let i := v.size + 1
      let slot := getIndexOfLastBit i
      some (v, if slot < 0 ∨ P.nSlots ≤ slot then .inr .thrown else .inl (.present i x after))
  | .present i x after =>
      some (v, .inl (if (v.slots (getIndexOfLastBit i).toNat).isNone then .allocate i x after
        else .append i x after))
  | .allocate i x after =>
      let slot := (getIndexOfLastBit i).toNat
      some (v.allocate P slot (1 <<< slot), .inl (.append i x after))
  | .append i x after =>
      let slot := getIndexOfLastBit i
      (v.store P slot (i ^^^ (1 <<< slot.toNat)) x).map fun v => (v, .inl (.increment after))
  | .increment after => some (v.setSize (v.size + 1), after.rest)
  | .above l =>
      some (v, if l.newSize < v.size then .inl (.decrement (.again l)) else l.rest P)
  | .decrement next => some (v.setSize (v.size - 1), .inl (.last P.dflt next))
  | .last x next => some (v, .inl (.reset v.size x next))
  | .reset i x next => (v.put P i x).map fun v => (v, .inl next.access)
  | .trim after =>
      let nextSlot := getIndexOfLastBit (v.size + 1) + 1
      some (v, if nextSlot < P.nSlots then .inl (.spare nextSlot.toNat after) else after.rest)
  | .spare slot after =>
      some (v, if (v.slots slot).isSome then .inl (.free slot after) else after.rest)
  | .free slot after => some (v.deallocate slot, after.rest)
  | .discard i => some (v.deallocate i, discardFrom P (i + 1))
  | .empty element =>
      some (v, match element, v.size with
        | false, 0 => .inr .done
        | false, _ + 1 => .inl (.decrement (.trim .done))
        | true, 0 => .inr (.popped none)
        | true, _ + 1 => .inl .back)
  | .back => some (v, .inl (.pop (v.size - 1)))
  | .pop i => (v.get P i).map fun x => (v, .inl (.decrement (.trim (.popped (some x)))))
  | .search x => some (v, .inl (searchBefore v.size x))
  | .compare i x =>
      (v.get P i).map fun y => (v, .inl (if y = x then .remove i else searchBefore i x))
  | .missing => some (v, .inr (.iterator v.size))
  | .remove i => some (v.setSize (v.size - 1), .inl (.range i))
  | .range i => some (v, .inl (copyFromTo P i i v.size))
  | .source i j stop => (v.get P (j + 1)).map fun y => (v, .inl (.target i j stop y))
  | .target i j stop y => (v.put P j y).map fun v => (v, .inl (copyFromTo P i (j + 1) stop))

/-! ## `operator=` -/

/-- The next access of `operator=`. -/
inductive Copy (T : Type)
  /-- `size_ = 0` -/
  | restart
  /-- `if( from.slots_[i] )` -/
  | slot (i : Nat)
  /-- `if( !slots_[i] )` -/
  | present (i : Nat)
  /-- `slots_[i] = new T[sz]` -/
  | allocate (i : Nat)
  /-- `size_ < from.size_`: the size of this vector -/
  | size (i j : Nat)
  /-- `size_ < from.size_`: the size of the other one -/
  | limit (i j n : Nat)
  /-- `slots_[i][j] = from.slots_[i][j]`: the read -/
  | load (i j : Nat)
  /-- `slots_[i][j] = from.slots_[i][j]`: the write -/
  | store (i j : Nat) (x : T)
  /-- `++size_` -/
  | count (i j : Nat)
  /-- `else if( slots_[i] )` -/
  | unneeded (i : Nat)
  /-- `delete[] slots_[i]`, and the pointer is reset -/
  | free (i : Nat)

omit [DecidableEq T] in
/-- The loop of `operator=` over the slots. -/
def slotsFrom (i : Nat) : Copy T ⊕ Output T := if i < P.nSlots then .inl (.slot i) else .inr .done

omit [DecidableEq T] in
def Copy.step (source v : LFVector T) : Copy T → Option (LFVector T × (Copy T ⊕ Output T))
  | .restart => some (v.setSize 0, slotsFrom P 0)
  | .slot i => some (v, .inl (if (source.slots i).isSome then .present i else .unneeded i))
  | .present i => some (v, .inl (if (v.slots i).isNone then .allocate i else .size i 0))
  | .allocate i => some (v.allocate P i (1 <<< i), .inl (.size i 0))
  | .size i j => some (v, .inl (.limit i j v.size))
  | .limit i j n =>
      some (v, if n < source.size ∧ j < 1 <<< i then .inl (.load i j) else slotsFrom P (i + 1))
  | .load i j => (source.load P i j).map fun x => (v, .inl (.store i j x))
  | .store i j x => (v.store P i j x).map fun v => (v, .inl (.count i j))
  | .count i j => some (v.setSize (v.size + 1), .inl (.size i (j + 1)))
  | .unneeded i => some (v, if (v.slots i).isSome then .inl (.free i) else slotsFrom P (i + 1))
  | .free i => some (v.deallocate i, slotsFrom P (i + 1))

/-! ## Bodies that run alone -/

variable {P} {u v w : LFVector T} {x : T} {i j n : Nat}

/-! ### Growing -/

/-- `push_back_unlocked_` -/
theorem runs_push {b : Bool} (after : After T) (h : v.pushBackUnlocked P x = some (b, w)) :
    Runs (Access.step P) v (.position x after) w (if b then after.rest else .inr .thrown) := by
  unfold pushBackUnlocked at h
  simp only at h
  split_ifs at h with hslot
  · cases h
    refine .step ?_
    simp only [Access.step, if_pos hslot]
    rfl
  · obtain ⟨u, hu, he⟩ := Option.map_eq_some_iff.mp h
    cases he
    -- with or without a new slot, the element is written and counted
    have hend : ∀ v' : LFVector T, v'.store P (getIndexOfLastBit (v.size + 1))
          ((v.size + 1) ^^^ (1 <<< (getIndexOfLastBit (v.size + 1)).toNat)) x = some u →
        Runs (Access.step P) v' (.append (v.size + 1) x after)
          (u.setSize (u.size + 1)) after.rest := by
      intro v' hstore
      refine .write (k := .increment after) ?_ (.step rfl)
      simp only [Access.step, hstore, Option.map_some]
    refine .read (k := .present (v.size + 1) x after) ?_ ?_
    · simp only [Access.step, if_neg hslot]
    · unfold ensure at hu
      split_ifs at hu with hnone
      · refine .read (k := .allocate (v.size + 1) x after) ?_ (.write rfl (hend _ hu))
        simp only [Access.step, if_pos hnone]
      · refine .read (k := .append (v.size + 1) x after) ?_ (hend _ hu)
        simp only [Access.step, if_neg hnone]

omit [DecidableEq T] in
theorem push_size (h : v.pushBackUnlocked P x = some (true, w)) : w.size = v.size + 1 := by
  unfold pushBackUnlocked at h
  simp only at h
  split_ifs at h
  · cases h
  · obtain ⟨u, hu, he⟩ := Option.map_eq_some_iff.mp h
    cases he
    obtain ⟨cells, -, hu⟩ := Option.bind_eq_some_iff.mp hu
    split_ifs at hu
    cases hu
    rw [setSize_size, ensure_size]

/-- The loop of `expand`, and the second one of `resize`. -/
theorem runs_fill {b : Bool} (h : fill P x (n - v.size) v = some (b, w)) :
    Runs (Access.step P) v (.below n x) w (.inr (outcome b)) := by
  generalize hm : n - v.size = m at h
  induction m generalizing v with
  | zero =>
      have hno : ¬v.size < n := by omega
      cases h
      refine .step ?_
      simp only [Access.step, if_neg hno]
      rfl
  | succ m ih =>
      refine .read (k := .position x (.below n x)) ?_ ?_
      · simp only [Access.step, if_pos (show v.size < n by omega)]
      · rw [fill] at h
        split at h
        next u hu =>
          have hsize := push_size hu
          exact .trans (runs_push (.below n x) hu) (ih (by omega) h)
        next hne =>
          -- the push has thrown
          obtain rfl : b = false := by
            cases b with
            | false => rfl
            | true => exact absurd h (hne w)
          exact runs_push (.below n x) h

/-! ### Removing elements -/

theorem runs_reset (next : Next T) (h : v.put P v.size x = some w) :
    Runs (Access.step P) v (.last x next) w (.inl next.access) := by
  refine .read rfl (.step ?_)
  simp only [Access.step, h, Option.map_some]

theorem runs_dropBack (next : Next T) (h : v.dropBack P P.dflt = some w) :
    Runs (Access.step P) v (.decrement next) w (.inl next.access) :=
  .write rfl (runs_reset next h)

/-- `trim_` -/
theorem runs_trim (v : LFVector T) (after : After T) :
    Runs (Access.step P) v (.trim after) (v.trim P) after.rest := by
  unfold trim
  simp only
  by_cases hslot : getIndexOfLastBit (v.size + 1) + 1 < P.nSlots
  · refine .read (k := .spare (getIndexOfLastBit (v.size + 1) + 1).toNat after) ?_ ?_
    · simp only [Access.step, if_pos hslot]
    · split_ifs with hsome
      · refine .read (k := .free _ after) ?_ (.step rfl)
        simp only [Access.step, if_pos hsome.2]
      · refine .step ?_
        simp only [Access.step, if_neg fun h => hsome ⟨hslot, h⟩]
  · -- the last slot is in use
    rw [if_neg fun h => hslot h.1]
    refine .step ?_
    simp only [Access.step, if_neg hslot]

/-- The loop of `clear`, and the first one of `resize`. -/
theorem runs_shrink (l : Loop T) (h : shrink P (v.size - l.newSize) v = some w) :
    Runs (Access.step P) v (.above l) w (l.rest P) := by
  generalize hm : v.size - l.newSize = m at h
  induction m generalizing v with
  | zero =>
      have hno : ¬l.newSize < v.size := by omega
      cases h
      refine .step ?_
      simp only [Access.step, if_neg hno]
  | succ m ih =>
      obtain ⟨u, hu, h⟩ := Option.bind_eq_some_iff.mp h
      have hsize : u.size = v.size - 1 := (put_inv hu).1
      refine .read (k := .decrement (.again l)) ?_ ?_
      · simp only [Access.step, if_pos (show l.newSize < v.size by omega)]
      · exact .trans (runs_dropBack (.again l) hu) (ih (by omega) h)

/-- Without the slots from `i` on. -/
def discarded (P : Params T) (i : Nat) (v : LFVector T) : LFVector T :=
  { v with slots := fun s => if i ≤ s ∧ s < P.nSlots then none else v.slots s }

/-- The loop of `clear` over the slots. -/
theorem runs_discard {p : Access T} (h : Runs (Access.step P) u p v (discardFrom P i)) :
    Runs (Access.step P) u p (discarded P i v) (.inr .done) := by
  -- the run up to the slot `i` is extended by the rounds that are left
  generalize hm : P.nSlots - i = m
  induction m generalizing i v with
  | zero =>
      have hno : ¬i < P.nSlots := by omega
      have hv : discarded P i v = v := by
        have hnone : ∀ s, ¬(i ≤ s ∧ s < P.nSlots) := by omega
        simp only [discarded, hnone, if_false]
      rwa [hv, ← show discardFrom P i = .inr .done from if_neg hno]
  | succ m ih =>
      have hv : discarded P i v = discarded P (i + 1) (v.deallocate i) := by
        simp only [discarded, deallocate, mk.injEq, and_true]
        funext s
        by_cases hs : s = i
        · subst hs
          simp [show s < P.nSlots by omega]
        · simp [hs, show i ≤ s ↔ i + 1 ≤ s by omega]
      rw [show discardFrom P i = .inl (.discard i) from if_pos (by omega)] at h
      rw [hv]
      exact ih (.trans h (.step rfl)) (by omega)

/-- The search of `erase`. -/
theorem runs_search {found : Option Nat} {q : Access T ⊕ Output T}
    (h : v.findLast P x i = some found)
    (hq : Runs (Access.step P) v (found.elim .missing .remove) w q) :
    Runs (Access.step P) v (searchBefore i x) w q := by
  induction i with
  | zero =>
      cases h
      exact hq
  | succ i ih =>
      obtain ⟨y, hy, h⟩ := Option.bind_eq_some_iff.mp h
      show Runs (Access.step P) v (.compare i x) w q
      split_ifs at h with hyx
      · cases h
        refine .read (k := .remove i) ?_ hq
        simp only [Access.step, hy, Option.map_some, if_pos hyx]
      · refine .read (k := searchBefore i x) ?_ (ih h)
        simp only [Access.step, hy, Option.map_some, if_neg hyx]

/-- `std::copy` of `erase`. -/
theorem runs_copyDown {k stop : Nat} (h : copyDown P (stop - j) j v = some w)
    {u : LFVector T} {q : Access T ⊕ Output T}
    (hq : Runs (Access.step P) w (.last P.zero (.trim (.iterator k))) u q) :
    Runs (Access.step P) v (copyFromTo P k j stop) u q := by
  generalize hm : stop - j = m at h
  induction m generalizing v j with
  | zero =>
      cases h
      rwa [copyFromTo, if_neg (by omega)]
  | succ m ih =>
      obtain ⟨y, hy, h⟩ := Option.bind_eq_some_iff.mp h
      obtain ⟨u', hu, h⟩ := Option.bind_eq_some_iff.mp h
      rw [copyFromTo, if_pos (by omega)]
      refine .read (k := .target k j stop y) ?_ (.write (y := u') ?_ (ih (by omega) h))
      · simp only [Access.step, hy, Option.map_some]
      · simp only [Access.step, hu, Option.map_some]

/-! ### The functions -/

theorem runs_popBack (h : v.popBack P = some w) :
    Runs (Access.step P) v (.empty false) w (.inr .done) := by
  unfold popBack at h
  cases hsize : v.size with
  | zero =>
      rw [if_pos hsize] at h
      cases h
      refine .step ?_
      simp only [Access.step, hsize]
  | succ n =>
      rw [if_neg (by omega)] at h
      obtain ⟨u, hu, he⟩ := Option.map_eq_some_iff.mp h
      cases he
      refine .read (k := .decrement (.trim .done)) ?_ ?_
      · simp only [Access.step, hsize]
      · exact .trans (runs_dropBack _ hu) (runs_trim u _)

theorem runs_popBackTo {r : Option T} (h : v.popBackTo P = some (r, w)) :
    Runs (Access.step P) v (.empty true) w (.inr (.popped r)) := by
  unfold popBackTo at h
  cases hsize : v.size with
  | zero =>
      rw [if_pos hsize] at h
      cases h
      refine .step ?_
      simp only [Access.step, hsize]
  | succ n =>
      rw [if_neg (by omega)] at h
      obtain ⟨y, hy, h⟩ := Option.bind_eq_some_iff.mp h
      obtain ⟨u, hu, he⟩ := Option.map_eq_some_iff.mp h
      cases he
      refine .read (k := .back) ?_ (.read rfl ?_)
      · simp only [Access.step, hsize]
      · refine .read (k := .decrement (.trim (.popped (some y)))) ?_ ?_
        · simp only [Access.step, hy, Option.map_some]
        · exact .trans (runs_dropBack _ hu) (runs_trim u _)

theorem runs_remove (h : v.remove P i P.zero = some w) :
    Runs (Access.step P) v (.remove i) w (.inr (.iterator i)) := by
  obtain ⟨u, hu, h⟩ := Option.bind_eq_some_iff.mp h
  obtain ⟨u', hu', he⟩ := Option.map_eq_some_iff.mp h
  cases he
  refine .write rfl (.read rfl (runs_copyDown hu ?_))
  exact .trans (runs_reset _ hu') (runs_trim u' _)

theorem runs_erase (h : v.erase P x = some (i, w)) :
    Runs (Access.step P) v (.search x) w (.inr (.iterator i)) := by
  obtain ⟨found, hfound, h⟩ := Option.bind_eq_some_iff.mp h
  refine .read rfl (runs_search hfound ?_)
  cases found with
  | none =>
      cases h
      exact .step rfl
  | some k =>
      obtain ⟨u, hu, he⟩ := Option.map_eq_some_iff.mp h
      cases he
      exact runs_remove hu

theorem runs_resize {b : Bool} (h : v.resize P n x = some (b, w)) :
    Runs (Access.step P) v (.above (.resize n x)) w (.inr (outcome b)) := by
  obtain ⟨u, hu, h⟩ := Option.bind_eq_some_iff.mp h
  exact .trans (runs_shrink (.resize n x) hu) (.trans (runs_trim u _) (runs_fill h))

theorem runs_clear (h : v.clear P = some w) :
    Runs (Access.step P) v (.above .clear) w (.inr .done) := by
  obtain ⟨u, hu, he⟩ := Option.map_eq_some_iff.mp h
  cases he
  have hall : discarded P 0 u
      = { u with slots := fun i => if i < P.nSlots then none else u.slots i } := by
    simp only [discarded, Nat.zero_le, true_and]
  rw [← hall]
  exact runs_discard (runs_shrink .clear hu)

section Assignment

omit [DecidableEq T]

variable {source : LFVector T}

/-- The inner loop of `operator=`. -/
theorem runs_copyCells (hj : j + n = 1 <<< i) (h : copyCells P source i n j v = some w) :
    Runs (Copy.step P source) v (.size i j) w (slotsFrom P (i + 1)) := by
  induction n generalizing j v with
  | zero =>
      -- the slot is full
      cases h
      refine .read rfl (.step ?_)
      simp only [Copy.step]
      rw [if_neg (by omega)]
  | succ n ih =>
      rw [copyCells] at h
      by_cases hsize : v.size < source.size
      · rw [if_pos hsize] at h
        obtain ⟨x, hx, h⟩ := Option.bind_eq_some_iff.mp h
        obtain ⟨u, hu, h⟩ := Option.bind_eq_some_iff.mp h
        refine .read rfl (.read (k := .load i j) ?_ (.read (k := .store i j x) ?_
          (.write (y := u) (k := .count i j) ?_ (.write rfl (ih (by omega) h)))))
        · simp only [Copy.step]
          rw [if_pos ⟨hsize, by omega⟩]
        · simp only [Copy.step, hx, Option.map_some]
        · simp only [Copy.step, hu, Option.map_some]
      · -- all elements are there
        rw [if_neg hsize] at h
        cases h
        refine .read rfl (.step ?_)
        simp only [Copy.step]
        rw [if_neg fun h => hsize h.1]

/-- One round of the outer loop. -/
theorem runs_copySlot (h : copySlot P source i v = some w) :
    Runs (Copy.step P source) v (.slot i) w (slotsFrom P (i + 1)) := by
  unfold copySlot at h
  split_ifs at h with hsource hown
  · refine .read (k := .present i) ?_ ?_
    · simp only [Copy.step, if_pos hsource]
    · simp only [ensure] at h
      split_ifs at h with hnone
      · refine .read (k := .allocate i) ?_ (.write rfl (runs_copyCells (Nat.zero_add _) h))
        simp only [Copy.step, if_pos hnone]
      · refine .read (k := .size i 0) ?_ (runs_copyCells (Nat.zero_add _) h)
        simp only [Copy.step, if_neg hnone]
  · cases h
    refine .read (k := .unneeded i) ?_ (.read (k := .free i) ?_ (.step rfl))
    · simp only [Copy.step, if_neg hsource]
    · simp only [Copy.step, if_pos hown]
  · cases h
    refine .read (k := .unneeded i) ?_ (.step ?_)
    · simp only [Copy.step, if_neg hsource]
    · simp only [Copy.step, if_neg hown]

/-- The outer loop. -/
theorem runs_copySlots {p : Copy T} (hr : Runs (Copy.step P source) u p v (slotsFrom P i))
    (hi : i + n = P.nSlots) (h : copySlots P source n i v = some w) :
    Runs (Copy.step P source) u p w (.inr .done) := by
  induction n generalizing i v with
  | zero =>
      cases h
      rwa [slotsFrom, if_neg (by omega)] at hr
  | succ n ih =>
      obtain ⟨v', hv, h⟩ := Option.bind_eq_some_iff.mp h
      rw [slotsFrom, if_pos (by omega)] at hr
      exact ih (.trans hr (runs_copySlot hv)) (by omega) h

theorem runs_assign (h : v.assign P source = some w) :
    Runs (Copy.step P source) v .restart w (.inr .done) :=
  runs_copySlots (.step rfl) (Nat.zero_add _) h

end Assignment

end Lunchbox.LFVector
