import Mathlib.Tactic

set_option autoImplicit false

/-! # `MTQueue`: the operations under the mutex

Every operation of the queue (`mtQueue.ipp`) locks `_mutex`, waits on `_condition` until its
predicate holds, and then runs its body without giving the mutex up. So an operation is a pair
of functions of the guarded state: the predicate it waits for and the body. The threads that
run them are in `MTQueue/PopBarrier.lean`.
-/

namespace Lunchbox.MTQueue

variable {T : Type}

/-! ## `size_t` arithmetic -/

/-- The number of values of `size_t`. -/
def sizeRange : Nat := 2 ^ 64

/-- Unsigned addition. -/
def addSize (a b : Nat) : Nat := (a + b) % sizeRange

/-- Unsigned subtraction. -/
def subSize (a b : Nat) : Nat := (sizeRange + a - b) % sizeRange

theorem addSize_of_lt {a b : Nat} (h : a + b < sizeRange) : addSize a b = a + b :=
  Nat.mod_eq_of_lt h

theorem subSize_of_le {a b : Nat} (h : b ≤ a) (ha : a < sizeRange) : subSize a b = a - b := by
  have hs : sizeRange + a - b = a - b + sizeRange := by omega
  rw [subSize, hs, Nat.add_mod_right]
  exact Nat.mod_eq_of_lt (by omega)

/-! ## The queue -/

/-- The guarded state: `std::deque<T> _queue` and `size_t _maxSize`. -/
structure Queue (T : Type) where
  queue : List T
  maxSize : Nat

/-- A call of `push` or `pushFront`, of one element or of a vector. -/
inductive Push (T : Type)
  | push (element : T)
  | pushAll (elements : List T)
  | pushFront (element : T)
  | pushFrontAll (elements : List T)

/-- The elements of a push, in their own order. -/
def Push.elements : Push T → List T
  | .push x => [x]
  | .pushAll xs => xs
  | .pushFront x => [x]
  | .pushFrontAll xs => xs

/-- The predicate a push waits for. -/
def Queue.canPush (q : Queue T) : Push T → Bool
  | .push _ => q.queue.length < q.maxSize
  | .pushAll xs => subSize q.maxSize q.queue.length ≥ xs.length
  | .pushFront _ => q.queue.length < q.maxSize
  | .pushFrontAll xs => subSize q.maxSize q.queue.length ≥ xs.length

/-- The body of a push. -/
def Queue.push (q : Queue T) : Push T → Queue T
  | .push x => { q with queue := q.queue ++ [x] }
  | .pushAll xs => { q with queue := q.queue ++ xs }
  | .pushFront x => { q with queue := x :: q.queue }
  | .pushFrontAll xs => { q with queue := xs ++ q.queue }

/-- A push adds its elements and nothing else. -/
theorem Queue.push_perm (q : Queue T) (p : Push T) :
    (q.push p).queue.Perm (q.queue ++ p.elements) := by
  cases p with
  | push x => exact List.Perm.refl _
  | pushAll xs => exact List.Perm.refl _
  | pushFront x =>
      show ([x] ++ q.queue).Perm (q.queue ++ [x])
      exact List.perm_append_comm
  | pushFrontAll xs => exact List.perm_append_comm

/-! ## `popBarrier` -/

/-- `MTQueue::Group` -/
structure Group where
  height : Nat
  waiting : Nat

/-- `++barrier.waiting_` -/
def Group.arrive (g : Group) : Group := { g with waiting := addSize g.waiting 1 }

/-- The predicate `popBarrier` waits for. -/
def Queue.barrierReady (q : Queue T) (g : Group) : Bool :=
  !q.queue.isEmpty || g.waiting ≥ g.height

/-- The result of the body of `popBarrier`: true with an element, or false with the value of
the assertion `waiting_ == height_`. -/
inductive BarrierResult (T : Type)
  | popped (element : T)
  | reached (assertion : Bool)

/-- The body of `popBarrier`. -/
def Queue.popBarrier (q : Queue T) (g : Group) : BarrierResult T × Queue T × Group :=
  match q.queue with
  | [] => (.reached (g.waiting = g.height), q, g)
  | x :: xs => (.popped x, { q with queue := xs }, { g with waiting := subSize g.waiting 1 })

end Lunchbox.MTQueue
