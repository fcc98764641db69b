import Lunchbox.Lib.OrderedList

set_option autoImplicit false

/-! # `IntervalSet`

The interval set (`intervalSet.h`, `intervalSet.ipp`): a multiset of edges, a start and an end
for each stored interval, in the order of `EdgeCompare`. The multiset is the list of its edges
in that order and its iterators are positions in the list (`Lib/OrderedList.lean`).

The class is a template over the element type `T`. Elements are natural numbers here, and
`Arith` says where the arithmetic of the code wraps: in `T`, in the type to which `T` is promoted
in an expression, and in `size_t`.
-/

namespace Lunchbox

namespace IntervalSet

/-! ## Arithmetic -/

/-- Moduli of the types; `0` is for a type `T` that does not wrap. An expression on elements is
evaluated in `int`, where it does not wrap, if `T` is narrower than that, and in `T` if not.
`size_t` always wraps. -/
structure Arith where
  elem : Nat
  promoted : Nat
  size : Nat
  promoted_eq : promoted = 0 ∨ promoted = elem
  size_pos : 0 < size

/-- An unsigned type of `w` bits, on a machine with the given widths of `int` and `size_t`. -/
def Arith.unsigned (w intBits sizeBits : Nat) : Arith where
  elem := 2 ^ w
  promoted := if w < intBits then 0 else 2 ^ w
  size := 2 ^ sizeBits
  promoted_eq := by
    split
    · exact Or.inl rfl
    · exact Or.inr rfl
  size_pos := Nat.two_pow_pos sizeBits

/-- A type with the semantics of the natural numbers, and a `size_t` of the given width. -/
def Arith.natural (sizeBits : Nat) : Arith where
  elem := 0
  promoted := 0
  size := 2 ^ sizeBits
  promoted_eq := Or.inl rfl
  size_pos := Nat.two_pow_pos sizeBits

variable (A : Arith)

/-- The value of an expression on elements. -/
def Arith.expr (x : Int) : Int := x % A.promoted

/-- Conversion to `T`. -/
def Arith.toElem (x : Int) : Nat := (x % A.elem).toNat

/-- Conversion to `size_t`. -/
def Arith.toSize (x : Int) : Nat := (x % A.size).toNat

/-- `x` is a value of `T`. -/
def Arith.Holds (x : Nat) : Prop := A.elem = 0 ∨ x < A.elem

instance (x : Nat) : Decidable (A.Holds x) := inferInstanceAs (Decidable (_ ∨ _))

/-! ## Edges -/

/-- `second` is true for the start of an interval. -/
structure Edge where
  first : Nat
  second : Bool
  deriving DecidableEq, Repr

def edgeCompare (p1 p2 : Edge) : Bool :=
  if p1.first < p2.first then true
  else if p1.first = p2.first then p1.second && !p2.second
  else false

end IntervalSet

structure IntervalSet where
  intervals : List IntervalSet.Edge
  size : Nat

namespace IntervalSet

variable (A : Arith)

/-- `IntervalSet()` -/
def new : IntervalSet := ⟨[], 0⟩

/-- `clear()` -/
def clear (_ : IntervalSet) : IntervalSet := new

/-! ## `insert`

The function in its parts: finding the edge before the start, adding the start, removing the
edges up to the end, adding the end. -/

def previousToStart (l : List Edge) (startElement : Nat) : Nat :=
  let p := OrderedList.lowerBound edgeCompare l ⟨startElement, true⟩
  if p ≠ l.length then
    if p = 0 then
      match l[0]? with
      | some e => if startElement < e.first then l.length else p
      | none => p
    else p - 1
  else l.length - 1

/-- The local variables of `insert` and `erase` while they remove edges. -/
structure Sweep where
  inside : Bool
  overlappingStart : Nat
  overlappingPortion : Nat

/-- `b - a + 1` -/
def Arith.span (a b : Nat) : Int := A.expr (b - a + 1)

/-- `overlappingPortion += endElement - overlappingStart + 1` -/
def Sweep.add (w : Sweep) (endElement : Nat) : Nat :=
  A.toSize (w.overlappingPortion + A.span w.overlappingStart endElement)

/-- Add the start edge as needed. Yields the edges and the position of the start. -/
def addStart (l : List Edge) (startElement : Nat) : List Edge × Nat × Sweep :=
  let p := previousToStart l startElement
  match l[p]? with
  | none =>
      let (l, i) := OrderedList.insert edgeCompare l ⟨startElement, true⟩
      (l, i, ⟨false, 0, 0⟩)
  | some previous =>
      if !previous.second then
        if A.expr (previous.first + 1) = startElement then
          (l.eraseIdx p, p - 1, ⟨false, 0, 0⟩)
        else
          let (l, i) := OrderedList.insertHint edgeCompare l p ⟨startElement, true⟩
          (l, i, ⟨false, 0, 0⟩)
      else (l, p, ⟨true, startElement, 0⟩)

/-- The loop of `insert` and `erase` over the edges from the current position on: the edges up
to `endElement` are removed. -/
def sweep (endElement : Nat) : Sweep → List Edge → Sweep × List Edge
  | w, [] => (w, [])
  | w, e :: l =>
      if e.first ≤ endElement then
        let w := if w.inside then { w with overlappingPortion := w.add A e.first }
          else { w with overlappingStart := e.first }
        sweep endElement { w with inside := e.second } l
      else (w, e :: l)

/-- Add the end edge as needed, at the current position. -/
def addEnd (l : List Edge) (position endElement : Nat) (w : Sweep) : List Edge × Nat :=
  let otherwise :=
    if !w.inside then
      ((OrderedList.insertHint edgeCompare l position ⟨endElement, false⟩).1, w.overlappingPortion)
    else (l, w.add A endElement)
  match l[position]? with
  | none => otherwise
  | some e =>
      if e.second ∧ (e.first : Int) = A.expr (endElement + 1) then
        (l.eraseIdx position, w.overlappingPortion)
      else otherwise

/-- `insert(startElement, endElement)` -/
def insert (s : IntervalSet) (startElement endElement : Nat) : IntervalSet :=
  if s.intervals.isEmpty then
    let l := (OrderedList.insert edgeCompare s.intervals ⟨startElement, true⟩).1
    let l := (OrderedList.insert edgeCompare l ⟨endElement, false⟩).1
    ⟨l, A.toSize (A.span startElement endElement)⟩
  else
    let (l, position, w) := addStart A s.intervals startElement
    let position := position + 1
    let (w, tail) := sweep A endElement w (l.drop position)
    let (l, overlappingPortion) := addEnd A (l.take position ++ tail) position endElement w
    ⟨l, A.toSize (s.size +
      (A.toSize (A.span startElement endElement) - overlappingPortion))⟩

/-- `insert(element)` -/
def insertElement (s : IntervalSet) (element : Nat) : IntervalSet := insert A s element element

/-! ## `erase` -/

/-- Close the interval that contains the start as needed. Yields the edges and the position of
the first edge to remove. -/
def closeStart (l : List Edge) (nextToStart startElement : Nat) : List Edge × Nat × Sweep :=
  if nextToStart = 0 then
    (l, 0, ⟨false, (l[0]?.map Edge.first).getD 0, 0⟩)
  else
    match l[nextToStart - 1]? with
    | none => (l, nextToStart, ⟨false, 0, 0⟩)
    | some previous =>
        if previous.second then
          let (l, i) :=
            OrderedList.insert edgeCompare l ⟨A.toElem (A.expr (startElement - 1)), false⟩
          (l, i + 1, ⟨true, startElement, 0⟩)
        else (l, nextToStart, ⟨false, 0, 0⟩)

/-- `erase(startElement, endElement)` -/
def erase (s : IntervalSet) (startElement endElement : Nat) : IntervalSet :=
  if s.intervals.isEmpty then s
  else
    let nextToStart := OrderedList.lowerBound edgeCompare s.intervals ⟨startElement, true⟩
    if nextToStart ≠ 0 ∧ nextToStart = s.intervals.length then s
    else
      let (l, position, w) := closeStart A s.intervals nextToStart startElement
      let (w, tail) := sweep A endElement w (l.drop position)
      let l := l.take position ++ tail
      if w.inside then
        let l :=
          (OrderedList.insert edgeCompare l ⟨A.toElem (A.expr (endElement + 1)), true⟩).1
        ⟨l, A.toSize (s.size - w.add A endElement)⟩
      else ⟨l, A.toSize (s.size - w.overlappingPortion)⟩

/-- `erase(element)` -/
def eraseElement (s : IntervalSet) (element : Nat) : IntervalSet := erase A s element element

/-! ## Iterators, `find` and `exists` -/

/-- `const_iterator`; the constructor leaves the value of an end iterator uninitialised. -/
structure ConstIterator where
  value : Option Nat
  intervalIteratorEnd : Nat
  startEdge : Nat

def ConstIterator.equal (i j : ConstIterator) : Bool :=
  (i.startEdge = i.intervalIteratorEnd && j.startEdge = i.intervalIteratorEnd) ||
    (i.startEdge = j.startEdge && i.value = j.value)

/-- `end()` -/
def endIterator (s : IntervalSet) : ConstIterator :=
  ⟨none, s.intervals.length, s.intervals.length⟩

/-- `const_iterator(set, interval)` -/
def iteratorAt (s : IntervalSet) (interval : Nat) : ConstIterator :=
  ⟨s.intervals[interval]?.map Edge.first, s.intervals.length, interval⟩

/-- `begin()` -/
def beginIterator (s : IntervalSet) : ConstIterator :=
  if s.intervals.isEmpty then s.endIterator else s.iteratorAt 0

/-- `increment()`, on an iterator of the set `s`. It is `none` for an access that is not defined:
through an end iterator of the edges, or to a value that is not initialised. -/
def increment (s : IntervalSet) (i : ConstIterator) : Option ConstIterator :=
  if i.startEdge = i.intervalIteratorEnd then some i
  else
    match s.intervals[i.startEdge]?, s.intervals[i.startEdge + 1]?, i.value with
    | some startEdge, some endEdge, some value =>
        if startEdge.first ≤ value ∧ value < endEdge.first then
          some { i with value := some (A.toElem (value + 1)) }
        else
          let next := i.startEdge + 2
          if next ≠ i.intervalIteratorEnd then
            s.intervals[next]?.map fun e => { i with startEdge := next, value := some e.first }
          else some { i with startEdge := next }
    | _, _, _ => none

def find (s : IntervalSet) (element : Nat) : ConstIterator :=
  if s.intervals.isEmpty then s.endIterator
  else
    let next := OrderedList.lowerBound edgeCompare s.intervals ⟨element, false⟩
    if next = s.intervals.length ∨ next = 0 then s.endIterator
    else
      match s.intervals[next - 1]? with
      | none => s.endIterator
      | some previous =>
          if previous.second then ⟨some element, s.intervals.length, next - 1⟩
          else s.endIterator

def «exists» (s : IntervalSet) (element : Nat) : Bool := !(s.find element).equal s.endIterator

/-- `empty()` -/
def empty (s : IntervalSet) : Bool := s.size = 0

/-! ## Operations on two sets -/

/-- The calls of `insert(startElement, endElement)` that `insert(rhs)` makes: one for each edge of
`rhs`, with the flag of the edge, converted to `T`, as the end. -/
def insertCalls (rhs : IntervalSet) : List (Nat × Nat) :=
  rhs.intervals.map fun e => (e.first, A.toElem e.second.toInt)

/-- `insert(rhs)`, where `rhs` is another set. -/
def insertSet (s rhs : IntervalSet) : IntervalSet :=
  (rhs.insertCalls A).foldl (fun s c => s.insert A c.1 c.2) s

/-- `swap(rhs)`: both sets afterwards. -/
def swap (s rhs : IntervalSet) : IntervalSet × IntervalSet :=
  (⟨rhs.intervals, s.size⟩, ⟨s.intervals, rhs.size⟩)

end IntervalSet

end Lunchbox
