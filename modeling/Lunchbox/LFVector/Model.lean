import Lunchbox.BitOperation

set_option autoImplicit false

/-! # `LFVector`

The vector (`lfVector.h`, `lfVector.ipp`), with `NDEBUG`. Its elements are in slots: the slot `s`
is an array of `2 ^ s` elements, allocated when it is first used. A function of the vector
yields `none` if it makes an access that the language does not define: through a null slot, at
an index outside its slot, to a slot outside `slots_`, or reading a value that was not written.

`size_` is a natural number. It could wrap only with `2 ^ 64` elements, and a slot of `2 ^ 63`
elements is larger than any array.
-/

namespace Lunchbox

/-- The template parameters: the number of slots, and what the code uses of the element type,
the values `T()` and `T(0)` and an element of `new T[n]`, which may be indeterminate (`none`). -/
structure LFVector.Params (T : Type) where
  nSlots : Nat
  dflt : T
  zero : T
  fresh : Option T

structure LFVector (T : Type) where
  slots : Nat → Option (List (Option T))
  size : Nat

namespace LFVector

variable {T : Type} (P : Params T)

/-- `LFVector()` -/
def new : LFVector T := ⟨fun _ => none, 0⟩

def setSize (v : LFVector T) (n : Nat) : LFVector T := { v with size := n }

/-! ## Memory -/

/-- `slots_[slot] = new T[sz]` -/
def allocate (v : LFVector T) (slot sz : Nat) : LFVector T :=
  { v with slots := Function.update v.slots slot (some (List.replicate sz P.fresh)) }

/-- `if (!slots_[slot]) slots_[slot] = new T[sz]` -/
def ensure (v : LFVector T) (slot sz : Nat) : LFVector T :=
  if (v.slots slot).isNone then v.allocate P slot sz else v

/-- `delete[] slots_[slot]; slots_[slot] = 0` -/
def deallocate (v : LFVector T) (slot : Nat) : LFVector T :=
  { v with slots := Function.update v.slots slot none }

/-- The array `slots_[slot]`. -/
def deref (v : LFVector T) (slot : Int) : Option (List (Option T)) :=
  if 0 ≤ slot ∧ slot < P.nSlots then v.slots slot.toNat else none

/-- Read `slots_[slot][index]`. -/
def load (v : LFVector T) (slot : Int) (index : Nat) : Option T :=
  (v.deref P slot).bind fun cells => (cells[index]?).join

/-- `slots_[slot][index] = x` -/
def store (v : LFVector T) (slot : Int) (index : Nat) (x : T) : Option (LFVector T) :=
  (v.deref P slot).bind fun cells =>
    if index < cells.length then
      some { v with slots := Function.update v.slots slot.toNat (some (cells.set index (some x))) }
    else none

/-- Read `(*this)[i]`. -/
def get (v : LFVector T) (i : Nat) : Option T :=
  let i := i + 1
  let slot := getIndexOfLastBit i
  let index := i ^^^ (1 <<< slot.toNat)
  v.load P slot index

/-- `(*this)[i] = x` -/
def put (v : LFVector T) (i : Nat) (x : T) : Option (LFVector T) :=
  let i := i + 1
  let slot := getIndexOfLastBit i
  let index := i ^^^ (1 <<< slot.toNat)
  v.store P slot index x

/-! ## Growing -/

/-- `push_back_unlocked_`; false if it throws. -/
def pushBackUnlocked (v : LFVector T) (item : T) : Option (Bool × LFVector T) :=
  let i := v.size + 1
  let slot := getIndexOfLastBit i
  if slot < 0 ∨ P.nSlots ≤ slot then some (false, v)
  else
    let sz := 1 <<< slot.toNat
    let v := v.ensure P slot.toNat sz
    (v.store P slot (i ^^^ sz) item).map fun v => (true, v.setSize (v.size + 1))

def pushBack (v : LFVector T) (item : T) : Option (Bool × LFVector T) := v.pushBackUnlocked P item

/-- `n` times `push_back_unlocked_`, unless one throws. -/
def fill (item : T) : Nat → LFVector T → Option (Bool × LFVector T)
  | 0, v => some (true, v)
  | n + 1, v =>
      match v.pushBackUnlocked P item with
      | some (true, v) => fill item n v
      | r => r

def expand (v : LFVector T) (newSize : Nat) (item : T) : Option (Bool × LFVector T) :=
  fill P item (newSize - v.size) v

/-! ## Shrinking -/

/-- `trim_` -/
def trim (v : LFVector T) : LFVector T :=
  let nextSlot := getIndexOfLastBit (v.size + 1) + 1
  if nextSlot < P.nSlots ∧ (v.slots nextSlot.toNat).isSome then v.deallocate nextSlot.toNat else v

/-- `--size_; (*this)[size_] = x` -/
def dropBack (v : LFVector T) (x : T) : Option (LFVector T) :=
  let v := v.setSize (v.size - 1)
  v.put P v.size x

def popBack (v : LFVector T) : Option (LFVector T) :=
  if v.size = 0 then some v else (v.dropBack P P.dflt).map (trim P)

/-- `pop_back(element)`, with the popped element or `none` for a false return. -/
def popBackTo (v : LFVector T) : Option (Option T × LFVector T) :=
  if v.size = 0 then some (none, v)
  else
    (v.get P (v.size - 1)).bind fun x =>
      (v.dropBack P P.dflt).map fun v => (some x, v.trim P)

/-- `std::copy` of `n` elements from `i + 1` on to `i`. -/
def copyDown : Nat → Nat → LFVector T → Option (LFVector T)
  | 0, _, v => some v
  | n + 1, i, v =>
      (v.get P (i + 1)).bind fun x => (v.put P i x).bind fun v => copyDown n (i + 1) v

/-- The common end of both `erase` functions: remove the element `i`, leaving `x` behind. -/
def remove (v : LFVector T) (i : Nat) (x : T) : Option (LFVector T) :=
  let v := v.setSize (v.size - 1)
  (copyDown P (v.size - i) i v).bind fun v => (v.put P v.size x).map (trim P)

/-- `erase(pos)` for an iterator of this vector, or of another one. Yields the position of the
returned iterator. -/
def eraseAt (v : LFVector T) (own : Bool) (i : Nat) : Option (Nat × LFVector T) :=
  if !own ∨ v.size ≤ i then some (v.size, v)
  else (v.remove P i P.dflt).map fun v => (i, v)

/-- `n` times `--size_; (*this)[size_] = T()`. -/
def shrink : Nat → LFVector T → Option (LFVector T)
  | 0, v => some v
  | n + 1, v => (v.dropBack P P.dflt).bind fun v => shrink n v

def resize (v : LFVector T) (newSize : Nat) (value : T) : Option (Bool × LFVector T) :=
  (shrink P (v.size - newSize) v).bind fun v =>
    let v := v.trim P
    fill P value (newSize - v.size) v

def clear (v : LFVector T) : Option (LFVector T) :=
  (shrink P v.size v).map fun v =>
    { v with slots := fun i => if i < P.nSlots then none else v.slots i }

/-! ## Assignment -/

/-- The inner loop of `operator=`, over the indices from `j` on of the slot `i`. -/
def copyCells (source : LFVector T) (i : Nat) : Nat → Nat → LFVector T → Option (LFVector T)
  | 0, _, v => some v
  | n + 1, j, v =>
      if v.size < source.size then
        (source.load P i j).bind fun x =>
          (v.store P i j x).bind fun v => copyCells source i n (j + 1) (v.setSize (v.size + 1))
      else some v

/-- One round of the outer loop of `operator=`. -/
def copySlot (source : LFVector T) (i : Nat) (v : LFVector T) : Option (LFVector T) :=
  if (source.slots i).isSome then
    let sz := 1 <<< i
    let v := v.ensure P i sz
    copyCells P source i sz 0 v
  else some (if (v.slots i).isSome then v.deallocate i else v)

/-- The outer loop of `operator=`, over the slots from `i` on. -/
def copySlots (source : LFVector T) : Nat → Nat → LFVector T → Option (LFVector T)
  | 0, _, v => some v
  | n + 1, i, v => (copySlot P source i v).bind fun v => copySlots source n (i + 1) v

/-- `operator=` from another vector. -/
def assign (v source : LFVector T) : Option (LFVector T) :=
  copySlots P source P.nSlots 0 (v.setSize 0)

/-! ## Constructors

A constructor yields false if it throws, and then there is no vector. -/

/-- `1 << i`, where 1 is an `int` of 32 bits; it is not defined from 32 on. -/
def intShift (i : Nat) : Option Int :=
  if i < 31 then some (2 ^ i) else if i = 31 then some (-2 ^ 31) else none

/-- `slots_[i] = new T[1 << i]`, which throws for a negative length, also if it is converted to
`size_t` first. -/
def newSlot (v : LFVector T) (i : Nat) : Option (Bool × LFVector T) :=
  (intShift i).bind fun sz =>
    if sz < 0 then some (false, v)
    else if i < P.nSlots then some (true, v.allocate P i sz.toNat)
    else none

/-- `n` rounds of a loop over the slots from `i` on, unless one throws. -/
def forSlots (body : Nat → LFVector T → Option (Bool × LFVector T)) :
    Nat → Nat → LFVector T → Option (Bool × LFVector T)
  | 0, _, v => some (true, v)
  | n + 1, i, v =>
      match body i v with
      | some (true, v) => forSlots body n (i + 1) v
      | r => r

/-- `LFVector(n)` -/
def construct (n : Nat) : Option (Bool × LFVector T) :=
  let s := getIndexOfLastBit n
  forSlots (fun i v => v.newSlot P i) (s + 1).toNat 0 (new.setSize n)

/-- The inner loop of `LFVector(n, t)`, over the indices from `j` on of the slot `i`. -/
def fillCells (n : Nat) (t : T) (i : Nat) : Nat → Nat → LFVector T → Option (LFVector T)
  | 0, _, v => some v
  | k + 1, j, v =>
      if v.size < n then
        (v.store P i j t).bind fun v => fillCells n t i k (j + 1) (v.setSize (v.size + 1))
      else some v

/-- One round of the outer loop of `LFVector(n, t)`. -/
def fillSlot (n : Nat) (t : T) (i : Nat) (v : LFVector T) : Option (Bool × LFVector T) :=
  match v.newSlot P i with
  | some (true, v) => (fillCells P n t i (1 <<< i) 0 v).map fun v => (true, v)
  | r => r

/-- `LFVector(n, t)`; the last slot is converted to `size_t`, where -1 is the maximum. -/
def constructFill (n : Nat) (t : T) : Option (Bool × LFVector T) :=
  let s := getIndexOfLastBit n
  let rounds := if s < 0 then 2 ^ 64 else s.toNat + 1
  forSlots (fillSlot P n t) rounds 0 new

/-- The loop of `assign_` over the slots from `i` on, from a vector with `fromSlots` slots. -/
def copyFrom (fromSlots : Nat) (source : LFVector T) :
    Nat → Nat → LFVector T → Option (Bool × LFVector T)
  | 0, _, v => some (true, v)
  | n + 1, i, v =>
      if fromSlots ≤ i ∨ (source.slots i).isNone then some (true, v)
      else
        match v.newSlot P i with
        | some (true, v) =>
            (copyCells P source i (1 <<< i) 0 v).bind fun v =>
              copyFrom fromSlots source n (i + 1) v
        | r => r

/-- `LFVector(from)`, for a vector with `fromSlots` slots. -/
def copyConstruct (fromSlots : Nat) (source : LFVector T) : Option (Bool × LFVector T) :=
  copyFrom P fromSlots source P.nSlots 0 new

section Equality

variable [DecidableEq T]

/-- The loop of `erase(element)`: the last of the first `n` positions that holds the element. -/
def findLast (v : LFVector T) (element : T) : Nat → Option (Option Nat)
  | 0 => some none
  | i + 1 => (v.get P i).bind fun x => if x = element then some (some i) else findLast v element i

/-- `erase(element)` -/
def erase (v : LFVector T) (element : T) : Option (Nat × LFVector T) :=
  (v.findLast P element v.size).bind fun
    | none => some (v.size, v)
    | some i => (v.remove P i P.zero).map fun v => (i, v)

/-- The loop of `operator==`, over `n` elements from `i` on. It compares an iterator of the other
vector with the end of this one, so that only the iterator of this vector ends it. -/
def equalFrom (v w : LFVector T) : Nat → Nat → Option Bool
  | 0, _ => some true
  | n + 1, i =>
      (v.get P i).bind fun x => (w.get P i).bind fun y =>
        if x ≠ y then some false else equalFrom v w n (i + 1)

/-- `operator==` with another vector. -/
def equal (v w : LFVector T) : Option Bool :=
  if v.size ≠ w.size then some false else equalFrom P v w v.size 0

end Equality

end LFVector

end Lunchbox
