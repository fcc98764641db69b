import Lunchbox.Lib.Machine
import Lunchbox.RefPtr.Model

set_option autoImplicit false

/-! # `RefPtr` used by several threads

The heap of `RefPtr.Model`, shared by threads. The count of an object is an atomic variable, and one
step is one access to it: `++_refCount` in `ref`, or `--_refCount` in `unref`, whose result decides
whether this thread deletes the object. Another step is the deletion, after which the members of
the object are destructed one by one. Each thread has a stack of what is left to do.

A `RefPtr` itself is a plain pointer. Two threads must not use the same one at the same time if one
of them writes it (`RaceFree`); that different ones point to the same object does not matter.
-/

namespace Lunchbox.RefPtr.Threads

open Function StateMachine
open SpinLock (toInt32)

/-! ## Threads -/

/-- What is left to do for a thread. -/
inductive Instr
  /-- `_ptr->ref( this )` for the `RefPtr` that the thread writes -/
  | ref (x : Nat)
  | unref (x : Nat)
  /-- `notifyFree`: `delete this` -/
  | delete (x : Nat)
  /-- `~RefPtr()` -/
  | destruct (c : Cell)
  /-- the end of `~RefPtr()`: `_ptr = 0` -/
  | clear (c : Cell)
  deriving DecidableEq

/-- A thread in an operation: the `RefPtr` that the operation writes, and the one whose pointer it
has read and not referenced yet. -/
structure Frame where
  target : Option Cell
  source : Option Cell
  stack : List Instr

def Frame.idle : Frame := ⟨none, none, []⟩

/-- The operation is over when nothing is left to do. -/
def Frame.settle (f : Frame) : Frame := if f.stack = [] then .idle else f

structure State (ι : Type) where
  heap : Heap
  /-- Each `RefPtr` whose reference is counted; the code does not keep it. -/
  counted : Finset Cell
  frames : ι → Frame

/-- The operations of a program. -/
inductive Action (ι : Type)
  /-- `RefPtr< T > k( new T )`, with `n` members in `T` -/
  | create (t : ι) (k n : Nat)
  /-- `RefPtr< T > k( src )` -/
  | copy (t : ι) (k : Nat) (src : Cell)
  /-- `c = rhs` -/
  | assign (t : ι) (c rhs : Cell)
  /-- `c = 0` -/
  | reset (t : ι) (c : Cell)
  /-- the end of the variable `k` -/
  | destroy (t : ι) (k : Nat)
  /-- the next access of the thread -/
  | step (t : ι)

/-- What a step shows: a call on an object that was deleted is a fault. -/
inductive Output
  | ok | fault
  deriving DecidableEq

variable {ι : Type} [DecidableEq ι]

def State.goto (s : State ι) (t : ι) (h : Heap) (counted : Finset Cell) (f : Frame) : State ι :=
  ⟨h, counted, update s.frames t f.settle⟩

/-- The pointer `p` is stored in `c`, and referenced before the old one is released. The thread has
read `p` in `src`. -/
def State.store (s : State ι) (t : ι) (h : Heap) (c : Cell) (p old : Option Nat)
    (src : Option Cell) : State ι :=
  s.goto t (h.setPtr c p) (s.counted.erase c)
    ⟨some c, p.bind fun _ => src, (p.map Instr.ref).toList ++ (old.map Instr.unref).toList⟩

/-- The start of an operation by an idle thread. -/
def State.start (s : State ι) : Action ι → State ι
  -- no other thread can see the new object before it is referenced
  | .create t k n =>
      let x := s.heap.next
      let h := ((s.heap.create n).addCell (.root k)).setPtr (.root k) (some x)
      s.goto t ((h.setCount x 1).record (.ref x)) (insert (.root k) s.counted) .idle
  | .copy t k src => s.store t (s.heap.addCell (.root k)) (.root k) (s.heap.ptr src) none (some src)
  | .assign t c rhs =>
      if s.heap.ptr c = s.heap.ptr rhs then s
      else s.store t s.heap c (s.heap.ptr rhs) (s.heap.ptr c) (some rhs)
  | .reset t c =>
      if s.heap.ptr c = none then s else s.store t s.heap c none (s.heap.ptr c) none
  | .destroy t k => s.goto t s.heap s.counted ⟨some (.root k), none, [.destruct (.root k)]⟩
  | .step _ => s

/-- The next access of a thread. -/
def State.exec (s : State ι) (t : ι) (f : Frame) : Instr → List Instr → Output × State ι
  | .ref x, rest =>
      if s.heap.Live x then
        (.ok, s.goto t ((s.heap.setCount x (toInt32 ((s.heap.objects x).refCount + 1))).record
            (.ref x))
          (s.counted ∪ f.target.toFinset) ⟨f.target, none, rest⟩)
      else (.fault, s)
  | .unref x, rest =>
      if s.heap.Live x then
        let refCount := toInt32 ((s.heap.objects x).refCount - 1)
        (.ok, s.goto t ((s.heap.setCount x refCount).record (.unref x)) s.counted
          { f with stack := (if refCount = 0 then [.delete x] else []) ++ rest })
      else (.fault, s)
  | .delete x, rest =>
      (.ok, s.goto t ((s.heap.setDeleted x).record (.delete x)) s.counted
        { f with stack := (s.heap.membersOf x).reverse.map .destruct ++ rest })
  | .destruct c, rest =>
      (.ok, s.goto t s.heap (s.counted.erase c)
        { f with stack := ((s.heap.ptr c).map .unref).toList ++ .clear c :: rest })
  | .clear c, rest =>
      (.ok, s.goto t ((s.heap.setPtr c none).removeCell c) s.counted
        { f with target := if f.target = some c then none else f.target, stack := rest })

def Action.thread : Action ι → ι
  | .create t _ _ | .copy t _ _ | .assign t _ _ | .reset t _ | .destroy t _ | .step t => t

/-- A program with its threads. -/
def threads (ι : Type) [DecidableEq ι] : Machine (State ι) (Action ι) Output where
  init := ⟨.empty, ∅, fun _ => .idle⟩
  step s a :=
    match a with
    | .step t =>
        match (s.frames t).stack with
        | [] => none
        | i :: rest => some (s.exec t (s.frames t) i rest)
    | a => if (s.frames a.thread).stack = [] then some (.ok, s.start a) else none

/-! ## Correct programs -/

/-- The thread is in the middle of writing the `RefPtr`. -/
def Frame.Writes (f : Frame) (c : Cell) : Prop := f.target = some c ∨ .clear c ∈ f.stack

instance (f : Frame) (c : Cell) : Decidable (f.Writes c) := inferInstanceAs (Decidable (_ ∨ _))

/-- The thread is in the middle of an operation on the `RefPtr`. -/
def Frame.Uses (f : Frame) (c : Cell) : Prop := f.Writes c ∨ f.source = some c

instance (f : Frame) (c : Cell) : Decidable (f.Uses c) := inferInstanceAs (Decidable (_ ∨ _))

/-- No other thread is in the middle of an operation on the `RefPtr`. -/
def State.Unused (s : State ι) (t : ι) (c : Cell) : Prop := ∀ u, u ≠ t → ¬ (s.frames u).Uses c

/-- No other thread is in the middle of writing the `RefPtr`. -/
def State.Readable (s : State ι) (t : ι) (c : Cell) : Prop :=
  c ∈ s.heap.cells ∧ ∀ u, u ≠ t → ¬ (s.frames u).Writes c

/-- A correct step: variables are constructed once, only existing ones are used, no `RefPtr` is
written while another thread uses it or read while another thread writes it, and an object has
fewer than `2 ^ 31 - 1` references when one is added. -/
def RaceFree (s : State ι) : Action ι → Prop
  | .create _ k _ => .root k ∉ s.heap.cells
  | .copy t k src => .root k ∉ s.heap.cells ∧ s.Readable t src
  | .assign t c rhs => c ∈ s.heap.cells ∧ s.Unused t c ∧ s.Readable t rhs
  | .reset t c => c ∈ s.heap.cells ∧ s.Unused t c
  | .destroy t k => .root k ∈ s.heap.cells ∧ s.Unused t (.root k)
  | .step t =>
      match (s.frames t).stack with
      | .ref x :: _ => (s.heap.objects x).refCount < 2 ^ 31 - 1
      | .destruct c :: _ | .clear c :: _ => s.Unused t c
      | _ => True

end Lunchbox.RefPtr.Threads
