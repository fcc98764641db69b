import Mathlib.Data.Finset.Card
import Lunchbox.SpinLock

set_option autoImplicit false

/-! # `RefPtr` and `Referenced`

Intrusive reference counting (`refPtr.h`, `referenced.h`, `referenced.cpp`), with `NDEBUG`. An
object has any number of members of type `RefPtr`; the count is a 32-bit atomic integer. When
`unref` lets it reach 0, `notifyFree` deletes the object. That destructs its members, the last
one first, and each of them may delete another object in turn.

Addresses are not reused, so that a use of a deleted object is visible: it is a `Fault`.
-/

namespace Lunchbox.RefPtr

open Function
open SpinLock (toInt32)

/-! ## The heap -/

/-- Where a `RefPtr` is: in a variable of the program, or in an object. -/
inductive Cell
  | root (k : Nat)
  | member (x j : Nat)
  deriving DecidableEq

structure Object where
  refCount : Int
  members : Nat
  deleted : Bool

/-- The calls on an object. -/
inductive Event
  | ref (x : Nat)
  | unref (x : Nat)
  | delete (x : Nat)
  deriving DecidableEq

structure Heap where
  objects : Nat → Object
  /-- The number of objects created so far. -/
  next : Nat
  /-- Each `RefPtr` that is constructed and not destructed. -/
  cells : Finset Cell
  /-- `_ptr` of a `RefPtr`. -/
  ptr : Cell → Option Nat
  /-- The calls so far; the code does not keep them. -/
  log : List Event

def Heap.empty : Heap := ⟨fun _ => ⟨0, 0, false⟩, 0, ∅, fun _ => none, []⟩

/-- A call on a deleted object, or an endless recursion. -/
inductive Fault
  | deleted
  | endless

variable (h : Heap)

/-- The object exists. -/
def Heap.Live (x : Nat) : Prop := x < h.next ∧ (h.objects x).deleted = false

instance (x : Nat) : Decidable (h.Live x) := inferInstanceAs (Decidable (_ ∧ _))

/-- The number of `RefPtr` that point to the object. -/
def Heap.refs (x : Nat) : Nat := (h.cells.filter fun c => h.ptr c = some x).card

def Heap.record (e : Event) : Heap := { h with log := h.log ++ [e] }

def Heap.setCount (x : Nat) (n : Int) : Heap :=
  { h with objects := update h.objects x { h.objects x with refCount := n } }

def Heap.setDeleted (x : Nat) : Heap :=
  { h with objects := update h.objects x { h.objects x with deleted := true } }

def Heap.setPtr (c : Cell) (p : Option Nat) : Heap := { h with ptr := update h.ptr c p }

def Heap.addCell (c : Cell) : Heap := { h with cells := insert c h.cells }

def Heap.removeCell (c : Cell) : Heap := { h with cells := h.cells.erase c }

/-- The members of an object, in the order of their declaration. -/
def Heap.membersOf (x : Nat) : List Cell := (List.range (h.objects x).members).map (.member x)

/-- `new T`, with members that are null pointers. -/
def Heap.create (n : Nat) : Heap :=
  let members := (List.range n).map (Cell.member h.next)
  { h with
    objects := update h.objects h.next ⟨0, n, false⟩
    next := h.next + 1
    cells := h.cells ∪ members.toFinset
    ptr := fun c => if c ∈ members then none else h.ptr c }

/-! ## `Referenced` -/

def Heap.ref (x : Nat) : Except Fault Heap :=
  if h.Live x then .ok ((h.setCount x (toInt32 ((h.objects x).refCount + 1))).record (.ref x))
  else .error .deleted

/-- `~RefPtr()`, given `unref`. -/
def Heap.destruct (unref : Heap → Nat → Except Fault Heap) (h : Heap) (c : Cell) :
    Except Fault Heap :=
  match h.ptr c with
  | none => .ok ((h.setPtr c none).removeCell c)
  | some x => (unref h x).map fun h => (h.setPtr c none).removeCell c

def destructAll (unref : Heap → Nat → Except Fault Heap) : List Cell → Heap → Except Fault Heap
  | [], h => .ok h
  | c :: cs, h => (h.destruct unref c).bind (destructAll unref cs)

/-- `unref`, with a bound on the depth of the recursion. -/
def Heap.unref : Nat → Heap → Nat → Except Fault Heap
  | 0, _, _ => .error .endless
  | depth + 1, h, x =>
      if h.Live x then
        let refCount := toInt32 ((h.objects x).refCount - 1)
        let h := (h.setCount x refCount).record (.unref x)
        if refCount = 0 then
          -- `notifyFree`: `delete this`
          let h := (h.setDeleted x).record (.delete x)
          destructAll (unref depth) (h.membersOf x).reverse h
        else .ok h
      else .error .deleted

/-! ## `RefPtr` -/

/-- `_ref()` -/
def Heap.attach : Option Nat → Except Fault Heap
  | none => .ok h
  | some x => h.ref x

/-- `if (tmp) tmp->unref(this)`. A recursion that is deeper than the number of objects would be
endless. -/
def Heap.detach : Option Nat → Except Fault Heap
  | none => .ok h
  | some x => h.unref (h.next + 1) x

/-- `RefPtr(T*)`, and `RefPtr()` for the null pointer. -/
def Heap.construct (k : Nat) (p : Option Nat) : Except Fault Heap :=
  ((h.addCell (.root k)).setPtr (.root k) p).attach p

/-- `RefPtr(const RefPtr&)` -/
def Heap.copy (k : Nat) (c : Cell) : Except Fault Heap := h.construct k (h.ptr c)

/-- `~RefPtr()` -/
def Heap.destroy (c : Cell) : Except Fault Heap := h.destruct (Heap.unref (h.next + 1)) c

/-- `operator=(T*)` -/
def Heap.assignPtr (c : Cell) (p : Option Nat) : Except Fault Heap :=
  if h.ptr c = p then .ok h
  else
    let tmp := h.ptr c
    ((h.setPtr c p).attach p).bind fun h => h.detach tmp

/-- `operator=(const RefPtr&)` -/
def Heap.assign (c rhs : Cell) : Except Fault Heap := h.assignPtr c (h.ptr rhs)

end Lunchbox.RefPtr
