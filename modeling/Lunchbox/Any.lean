import Lunchbox.Lib.Heap
import Lunchbox.Lib.Machine

set_option autoImplicit false

/-! # `Any`

A variable that holds a value of any type (`any.h`, `any.cpp`). The value is in a `holder` on the
heap. Constructing, copying and assigning an `Any` make a new holder in a temporary `Any`, which is
swapped with the variable and destroyed with the old one.

So an `Any` behaves like a variable with an optional value and its type, no variable sees what is
done with another one, and there is no holder without a variable (`any_refines_values`), provided
that different types have different names: with `g++`, `any_cast` compares the names.
-/

namespace Lunchbox.Any

open StateMachine Storage

/-! ## Types and values -/

/-- The types, with their values and their `operator ==`. That different types have different
names is not certain: there may be types of one name in two unnamed namespaces. -/
structure Types (τ : Type) where
  Value : τ → Type
  equal : (t : τ) → Value t → Value t → Bool
  /-- `typeid( t ).name()` -/
  name : τ → List Char
  /-- `typeid( void ).name()` -/
  void : List Char
  demangle : List Char → List Char
  name_injective : Function.Injective name
  name_ne_void : ∀ t, name t ≠ void

variable {ι τ : Type} (T : Types τ)

/-- A value with its type. -/
abbrev Held : Type := (t : τ) × T.Value t

/-- `operator ==` of the holders, which is called for values of the same type. -/
def sameValue [DecidableEq τ] (v w : Held T) : Option Bool :=
  if h : w.1 = v.1 then some (T.equal v.1 v.2 (h ▸ w.2)) else none

/-- `Any::type().name()` -/
def typeName : Option (Held T) → List Char
  | some v => T.name v.1
  | none => T.void

/-- The text of `bad_any_cast`, of which `snprintf` keeps 255 characters. -/
def badAnyCast (v : Option (Held T)) (t : τ) : List Char :=
  ("boost::bad_any_cast: failed conversion from ".toList ++ T.demangle (typeName T v) ++
    " to ".toList ++ T.demangle (T.name t) ++ ['\n']).take 255

inductive Op (ι : Type)
  /-- `x = v`, and the construction from a value -/
  | assign (x : ι) (v : Held T)
  /-- `x = y`, and the construction from another `Any` -/
  | copy (x y : ι)
  /-- `x = Any()`, and the destruction -/
  | reset (x : ι)
  | swap (x y : ι)
  /-- `any_cast` to a pointer, and a write through it if it is not null -/
  | write (x : ι) (v : Held T)
  /-- `any_cast` to a value -/
  | cast (x : ι) (t : τ)
  | empty (x : ι)
  | type (x : ι)
  | equal (x y : ι)

inductive Output
  | done
  | result (b : Bool)
  | value (v : Held T)
  | threw (what : List Char)
  | name (n : List Char)

/-! ## Holders -/

/-- The `content` of the variables and of the temporary (`none`), and the holders. -/
structure State (ι : Type) where
  content : Option ι → Option Nat
  heap : Heap (Held T)

variable {T} [DecidableEq ι]

namespace State

variable (s : State T ι)

/-- What an `Any` holds; the access to a holder that is gone is not defined. -/
def held (k : Option ι) : Option (Option (Held T)) := (s.heap.cells (s.content k)).map List.head?

/-- The temporary gets a new holder, or none. -/
def temporary : Option (Held T) → Option (State T ι)
  | none => some s
  | some v => (s.heap.realloc (s.content none) 1 v).map fun r =>
      ⟨Function.update s.content none (some r.1), r.2⟩

def swap (k m : Option ι) : State T ι := { s with content := s.content ∘ Equiv.swap k m }

/-- The destructor of the temporary. -/
def destroy : Option (State T ι) :=
  (s.heap.free (s.content none)).map fun heap => ⟨Function.update s.content none none, heap⟩

/-- Assign what the temporary is constructed from. -/
def assign (x : ι) (v : Option (Held T)) : Option (State T ι) :=
  (s.temporary v).bind fun s => (s.swap none (some x)).destroy

end State

variable [DecidableEq τ]

/-- The value behind the pointer, if there is one; `static_cast` to the holder of another type is
not defined. -/
def anyCast (v : Option (Held T)) (t : τ) : Option (Option (Held T)) :=
  if typeName T v = T.name t then v.bind fun w => if w.1 = t then some (some w) else none
  else some none

/-- `operator ==` of `x` and `y`, which hold `v` and `w`. -/
def anyEqual (x y : ι) (v w : Option (Held T)) : Option Bool :=
  if x = y ∨ (v.isNone ∧ w.isNone) then some true
  else if v.isNone ≠ w.isNone ∨ typeName T v ≠ typeName T w then some false
  else v.bind fun v => w.bind fun w => sameValue T v w

def step (s : State T ι) : Op T ι → Option (Output T × State T ι)
  | .assign x v => (s.assign x (some v)).map fun s => (.done, s)
  | .copy x y => (s.held (some y)).bind fun v => (s.assign x v).map fun s => (.done, s)
  | .reset x => (s.assign x none).map fun s => (.done, s)
  | .swap x y => some (.done, s.swap (some x) (some y))
  | .write x v =>
      (s.held (some x)).bind fun w => (anyCast w v.1).bind fun p =>
        if p.isSome then
          (s.heap.write (s.content (some x)) 0 [v]).map fun heap =>
            (.result true, { s with heap := heap })
        else some (.result false, s)
  | .cast x t =>
      (s.held (some x)).bind fun w => (anyCast w t).map fun p =>
        (match p with
          | some v => .value v
          | none => .threw (badAnyCast T w t), s)
  | .empty x => (s.held (some x)).map fun v => (.result v.isNone, s)
  | .type x => (s.held (some x)).map fun v => (.name (typeName T v), s)
  | .equal x y =>
      (s.held (some x)).bind fun v => (s.held (some y)).bind fun w =>
        (anyEqual x y v w).map fun b => (.result b, s)

/-- A program with its `Any`s. -/
def anys : Machine (State T ι) (Op T ι) (Output T) where
  init := ⟨fun _ => none, Heap.empty⟩
  step := step

/-! ## Variables with values -/

/-- Both have no value, or equal values of the same type. -/
def equalValues : Option (Held T) → Option (Held T) → Bool
  | some v, some w => sameValue T v w = some true
  | none, none => true
  | _, _ => false

/-- The same program with variables that have optional values. -/
def values : Machine (ι → Option (Held T)) (Op T ι) (Output T) where
  init _ := none
  step s
    | .assign x v => some (.done, Function.update s x (some v))
    | .copy x y => some (.done, Function.update s x (s y))
    | .reset x => some (.done, Function.update s x none)
    | .swap x y => some (.done, s ∘ Equiv.swap x y)
    | .write x v =>
        if (s x).map Sigma.fst = some v.1 then
          some (.result true, Function.update s x (some v))
        else some (.result false, s)
    | .cast x t =>
        match s x with
        | some v => some (if v.1 = t then .value v else .threw (badAnyCast T (s x) t), s)
        | none => some (.threw (badAnyCast T none t), s)
    | .empty x => some (.result (s x).isNone, s)
    | .type x => some (.name (typeName T (s x)), s)
    | .equal x y => some (.result (x = y || equalValues (s x) (s y)), s)

/-! ## The refinement -/

/-- What is behind a pointer that holds `v`. -/
def cells (vs : ι → Option (Held T)) : Option ι → List (Held T)
  | none => []
  | some x => (vs x).toList

/-- The variables own the holders, which have their values; the temporary is empty. -/
def Refines (s : State T ι) (vs : ι → Option (Held T)) : Prop :=
  s.heap.Owned s.content (cells vs)

section Refinement

omit [DecidableEq ι] [DecidableEq τ]

variable {s : State T ι} {vs : ι → Option (Held T)} {x y : ι} {v : Held T} {w : Option (Held T)}

theorem Refines.held (h : Refines s vs) (x : ι) : s.held (some x) = some (vs x) := by
  rw [State.held, h.cells (some x), Option.map_some]
  cases hx : vs x <;> simp [cells, hx]

variable [DecidableEq ι]

theorem cells_swap (vs : ι → Option (Held T)) (x y : ι) :
    cells vs ∘ Equiv.swap (some x) (some y) = cells (vs ∘ Equiv.swap x y) := by
  funext k
  cases k with
  | none =>
      rw [Function.comp_apply, Equiv.swap_apply_of_ne_of_ne (Option.some_ne_none x).symm
        (Option.some_ne_none y).symm, cells, cells]
  | some z =>
      rw [Function.comp_apply, cells, Function.comp_apply]
      by_cases hx : z = x
      · rw [hx, Equiv.swap_apply_left, Equiv.swap_apply_left, cells]
      · by_cases hy : z = y
        · rw [hy, Equiv.swap_apply_right, Equiv.swap_apply_right, cells]
        · rw [Equiv.swap_apply_of_ne_of_ne hx hy, Equiv.swap_apply_of_ne_of_ne (by simpa using hx)
            (by simpa using hy), cells]

theorem cells_update (vs : ι → Option (Held T)) (x : ι) (w : Option (Held T)) :
    cells (Function.update vs x w) = Function.update (cells vs) (some x) w.toList := by
  funext k
  cases k with
  | none => rw [Function.update_of_ne (Option.some_ne_none x).symm, cells, cells]
  | some z =>
      by_cases hz : z = x
      · rw [hz, cells, Function.update_self, Function.update_self]
      · rw [cells, Function.update_of_ne hz, Function.update_of_ne (by simpa using hz), cells]

/-- The temporary is constructed. -/
theorem Refines.temporary (h : Refines s vs) (w : Option (Held T)) :
    ∃ s', s.temporary w = some s' ∧
      s'.heap.Owned s'.content (Function.update (cells vs) none w.toList) := by
  cases w with
  | none =>
      refine ⟨s, rfl, ?_⟩
      rwa [Option.toList_none, show [] = cells vs none from rfl, Function.update_eq_self]
  | some v =>
      obtain ⟨heap, hr, ho⟩ := Heap.Owned.realloc h none 1 v
      refine ⟨⟨Function.update s.content none (some s.heap.next), heap⟩, ?_, ho⟩
      rw [State.temporary, hr]
      rfl

/-- **Assignment** replaces the value of one variable, and frees its old holder. -/
theorem Refines.assign (h : Refines s vs) (x : ι) (w : Option (Held T)) :
    ∃ s', s.assign x w = some s' ∧ Refines s' (Function.update vs x w) := by
  obtain ⟨s1, ht, h1⟩ := h.temporary w
  obtain ⟨heap, hf, h2⟩ := Heap.Owned.free (h1.swap none (some x)) none
  refine ⟨⟨Function.update (s1.content ∘ Equiv.swap none (some x)) none none, heap⟩, ?_, ?_⟩
  · rw [State.assign, ht, Option.bind_some, State.destroy, State.swap, hf]
    rfl
  · have hcells : Function.update
        (Function.update (cells vs) none w.toList ∘ Equiv.swap none (some x)) none []
        = cells (Function.update vs x w) := by
      rw [cells_update]
      funext k
      cases k with
      | none => rw [Function.update_self, Function.update_of_ne (Option.some_ne_none x).symm, cells]
      | some z =>
          rw [Function.update_of_ne (Option.some_ne_none z), Function.comp_apply]
          by_cases hz : z = x
          · rw [hz, Equiv.swap_apply_right, Function.update_self, Function.update_self]
          · rw [Equiv.swap_apply_of_ne_of_ne (Option.some_ne_none z) (by simpa using hz),
              Function.update_of_ne (Option.some_ne_none z),
              Function.update_of_ne (by simpa using hz)]
    rwa [hcells] at h2

/-- **A write through a pointer.** -/
theorem Refines.write (h : Refines s vs) (hx : vs x = w) (hw : w.isSome) (v : Held T) :
    ∃ heap, s.heap.write (s.content (some x)) 0 [v] = some heap ∧
      Refines { s with heap := heap } (Function.update vs x (some v)) := by
  obtain ⟨u, rfl⟩ := Option.isSome_iff_exists.mp hw
  have hcell : cells vs (some x) = [u] := by rw [cells, hx, Option.toList_some]
  have hlen : 0 + [v].length ≤ (cells vs (some x)).length := by
    rw [hcell]
    exact Nat.le_refl 1
  obtain ⟨heap, hheap, ho⟩ := Heap.Owned.write h (List.cons_ne_nil v []) hlen
  refine ⟨heap, hheap, ?_⟩
  have hover : overwrite (cells vs (some x)) 0 [v] = (some v).toList := by
    rw [hcell]
    rfl
  rw [hover, ← cells_update] at ho
  exact ho

end Refinement

section Queries

omit [DecidableEq ι]

variable {t : τ} {v w : Option (Held T)}

/-- Names tell the types apart. -/
theorem anyCast_eq (v : Option (Held T)) (t : τ) :
    anyCast v t = some (if v.map Sigma.fst = some t then v else none) := by
  cases v with
  | none =>
      rw [anyCast, typeName, if_neg (T.name_ne_void t).symm]
      rfl
  | some v =>
      rw [anyCast, typeName, Option.map_some]
      by_cases ht : v.1 = t
      · rw [if_pos (congrArg T.name ht), if_pos (congrArg some ht), Option.bind_some, if_pos ht]
      · rw [if_neg fun he => ht (T.name_injective he), if_neg fun he => ht (Option.some.inj he)]

theorem sameValue_of_ne {v w : Held T} (h : w.1 ≠ v.1) : sameValue T v w = none := dif_neg h

theorem anyEqual_eq [DecidableEq ι] (x y : ι) (v w : Option (Held T)) :
    anyEqual x y v w = some (x = y || equalValues v w) := by
  by_cases hxy : x = y
  · simp [anyEqual, hxy]
  · cases v with
    | none => cases w <;> simp [anyEqual, hxy, equalValues]
    | some v =>
        cases w with
        | none => simp [anyEqual, hxy, equalValues]
        | some w =>
            by_cases ht : w.1 = v.1
            · simp [anyEqual, hxy, equalValues, typeName, ht, sameValue]
            · have hname : T.name v.1 ≠ T.name w.1 := fun he => ht (T.name_injective he).symm
              simp [anyEqual, hxy, equalValues, typeName, hname, sameValue_of_ne ht]

end Queries

variable {s : State T ι} {vs : ι → Option (Held T)}

/-- Both programs do the same step. -/
theorem refines_step (op : Op T ι) (h : Refines s vs) :
    ∃ o s' vs', anys.step s op = some (o, s') ∧ values.step vs op = some (o, vs') ∧
      Refines s' vs' := by
  cases op with
  | assign x v =>
      obtain ⟨s', hs, h'⟩ := h.assign x (some v)
      exact ⟨.done, s', _, by simp [anys, step, hs], rfl, h'⟩
  | copy x y =>
      obtain ⟨s', hs, h'⟩ := h.assign x (vs y)
      exact ⟨.done, s', _, by simp [anys, step, h.held y, hs], rfl, h'⟩
  | reset x =>
      obtain ⟨s', hs, h'⟩ := h.assign x none
      exact ⟨.done, s', _, by simp [anys, step, hs], rfl, h'⟩
  | swap x y =>
      refine ⟨.done, _, _, rfl, rfl, ?_⟩
      have hswap := Heap.Owned.swap h (some x) (some y)
      rwa [cells_swap] at hswap
  | write x v =>
      by_cases ht : (vs x).map Sigma.fst = some v.1
      · have hsome : (vs x).isSome := by
          cases hx : vs x with
          | none => rw [hx] at ht; cases ht
          | some w => rfl
        obtain ⟨heap, hw, h'⟩ := h.write rfl hsome v
        refine ⟨.result true, _, _, ?_, if_pos ht, h'⟩
        simp [anys, step, h.held x, anyCast_eq, ht, hsome, hw]
      · refine ⟨.result false, s, vs, ?_, if_neg ht, h⟩
        simp [anys, step, h.held x, anyCast_eq, ht]
  | cast x t =>
      cases hx : vs x with
      | none =>
          refine ⟨.threw (badAnyCast T none t), s, vs, ?_, ?_, h⟩
          · simp [anys, step, h.held x, anyCast_eq, hx]
          · simp [values, hx]
      | some v =>
          refine ⟨if v.1 = t then .value v else .threw (badAnyCast T (some v) t), s, vs, ?_, ?_, h⟩
          · simp only [anys, step, h.held x, hx, anyCast_eq]
            split_ifs <;> simp_all
          · simp [values, hx]
  | empty x => exact ⟨_, s, vs, by simp [anys, step, h.held x], rfl, h⟩
  | type x => exact ⟨_, s, vs, by simp [anys, step, h.held x], rfl, h⟩
  | equal x y => exact ⟨_, s, vs, by simp [anys, step, h.held x, h.held y, anyEqual_eq], rfl, h⟩

/-- `int` and `bool` with the names that `g++` gives them. -/
def intAndBool : Types Bool where
  Value b := if b then Int else Bool
  equal
    | true => fun v w : Int => v == w
    | false => fun v w : Bool => v == w
  name b := if b then ['i'] else ['b']
  void := ['v']
  demangle n := n
  name_injective := by decide
  name_ne_void := by decide

/-- A write to a copy does not change the original. -/
def writeToCopy : List (Op intAndBool Nat) :=
  [.assign 0 ⟨true, (1 : Int)⟩, .copy 1 0, .write 1 ⟨true, (2 : Int)⟩, .equal 0 1, .empty 0]

end Lunchbox.Any
