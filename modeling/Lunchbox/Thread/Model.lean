import Lunchbox.Lib.Machine

set_option autoImplicit false

/-! # `Thread`

A thread object with the owner that calls `start`, `join` and `cancel` on it, and the children that
`start` creates (`thread.h`, `thread.cpp`). A step is what a thread does between two accesses to the
monitor `state` or to `id`; each access to the monitor is under its mutex, and `waitNE` is a step
that is refused while the monitor has the value.

Every `start` that gets to its write of `STATE_STARTING` begins a cycle, and the child that it
creates is named by the number of that cycle. Children of earlier cycles take steps until they end.
-/

namespace Lunchbox.Thread

open StateMachine Function

inductive ThreadState
  | stopped
  /-- `start()` in progress -/
  | starting
  | running
  /-- child no longer active, `join()` not yet called -/
  | stopping
  deriving DecidableEq

inductive Pthread
  | owner
  | child (cycle : Nat)
  deriving DecidableEq

/-- `detail::Thread`; a new `ThreadID` is that of no thread. -/
structure Impl where
  state : ThreadState
  id : Option Pthread
  deriving DecidableEq

def isCurrent (impl : Impl) (self : Pthread) : Prop := impl.id = some self

instance (impl : Impl) (self : Pthread) : Decidable (isCurrent impl self) :=
  inferInstanceAs (Decidable (impl.id = some self))

/-! ## `join` -/

/-- Where a call of `join` is. -/
inductive Join
  | testStopped
  | testCurrent
  | waitNotRunning
  | setStopped
  deriving DecidableEq

/-- A call goes on, or it returns. -/
inductive Next
  | goto (j : Join)
  | ret (b : Bool)

/-- `join`, called by the thread `self`. -/
def join (impl : Impl) (self : Pthread) : Join → Option (Next × Impl)
  | .testStopped =>
      if impl.state = .stopped then some (.ret false, impl) else some (.goto .testCurrent, impl)
  | .testCurrent =>
      if isCurrent impl self then some (.ret false, impl) else some (.goto .waitNotRunning, impl)
  | .waitNotRunning => if impl.state = .running then none else some (.goto .setStopped, impl)
  | .setStopped => some (.ret true, { impl with state := .stopped })

/-! ## Children -/

/-- Where a child is in `_runChild`. -/
inductive Child
  | unborn
  /-- before the write of its own id -/
  | setId
  | init
  /-- `init` has returned, before the write of `STATE_RUNNING` or `STATE_STOPPED` -/
  | setState (ready : Bool)
  | run
  /-- in a call of `join` that it makes in `run` -/
  | join (j : Join)
  /-- in `exit`, before the write of `STATE_STOPPING` -/
  | exit
  /-- in `pthread_exit` -/
  | terminate
  | ended
  deriving DecidableEq

/-- What a child does; `run` and `init` do what they like. -/
inductive ChildAction
  /-- the next step of a function of `Thread` -/
  | step
  | initReturn (b : Bool)
  /-- a step of `run` that is none of the following -/
  | work
  | callJoin
  /-- `run` calls `exit`, or returns and `_runChild` calls it -/
  | leave (byExit : Bool)
  /-- honours a request for cancellation -/
  | cancel

inductive Output
  | silent
  /-- `start` has returned `b` in the cycle that it began -/
  | start (cycle : Nat) (b : Bool)
  /-- `start` has returned false because the thread was not stopped -/
  | busy
  /-- `start` has returned false because there is no thread -/
  | notCreated
  /-- the owner's `join` has returned `b` in the cycle -/
  | join (cycle : Nat) (b : Bool)
  /-- the `join` of a child has returned `b` -/
  | selfJoin (b : Bool)
  /-- a child has ended -/
  | ended
  deriving DecidableEq

/-- The child of the cycle `self` takes a step. -/
def childStep (self : Nat) (canceled : Bool) (impl : Impl) :
    Child → ChildAction → Option (Output × Impl × Child)
  | .setId, .step => some (.silent, { impl with id := some (.child self) }, .init)
  | .init, .initReturn b => some (.silent, impl, .setState b)
  | .setState true, .step => some (.silent, { impl with state := .running }, .run)
  | .setState false, .step => some (.silent, { impl with state := .stopped }, .terminate)
  | .run, .work => some (.silent, impl, .run)
  | .run, .callJoin => some (.silent, impl, .join .testStopped)
  | .join j, .step =>
      match join impl (.child self) j with
      | none => none
      | some (.goto j, impl) => some (.silent, impl, .join j)
      | some (.ret b, impl) => some (.selfJoin b, impl, .run)
  | .run, .leave _ => some (.silent, impl, .exit)
  | .exit, .step => some (.silent, { impl with state := .stopping }, .terminate)
  | .terminate, .step => some (.ended, impl, .ended)
  | c, .cancel =>
      if canceled = true ∧ c ≠ .unborn ∧ c ≠ .ended then some (.ended, impl, .ended) else none
  | _, _ => none

/-! ## The owner -/

/-- Where the owner is, in `start`, `join` or `cancel`. -/
inductive Owner
  | idle
  | testStopped
  | setStarting
  /-- in the loop, with the value of `nTries` in its body -/
  | create (nTries : Nat)
  /-- still in `pthread_create`, which may write the id after the child has begun -/
  | storeId
  | waitNotStarting
  | detach
  | testStarted
  | join (j : Join)
  /-- in `cancel`, before the write of `STATE_STOPPING` -/
  | setStopping
  /-- before `pthread_cancel` -/
  | requestCancel
  deriving DecidableEq

inductive Call
  | start
  | join
  | cancel
  deriving DecidableEq

/-- What `pthread_create` returns: 0, `EAGAIN` or another error. -/
inductive Error
  | success
  | again
  | other
  deriving DecidableEq

structure State where
  impl : Impl
  /-- the number of cycles begun -/
  cycle : Nat
  owner : Owner
  child : Nat → Child
  /-- the children that were requested to cancel -/
  canceled : Nat → Bool

namespace State

def setState (s : State) (state : ThreadState) : State :=
  { s with impl := { s.impl with state := state } }

/-- The next step of the owner; `error` is what `pthread_create` returns if it is called. -/
def ownerStep (s : State) (error : Error) : Option (Output × State) :=
  match s.owner with
  | .idle => none
  | .testStopped =>
      if s.impl.state = .stopped then some (.silent, { s with owner := .setStarting })
      else some (.busy, { s with owner := .idle })
  | .setStarting =>
      some (.silent, { s.setState .starting with cycle := s.cycle + 1, owner := .create 9 })
  | .create nTries =>
      match error with
      | .success =>
          some (.silent, { s with child := update s.child s.cycle .setId, owner := .storeId })
      | .again =>
          if nTries = 0 then some (.notCreated, { s with owner := .idle })
          else some (.silent, { s with owner := .create (nTries - 1) })
      | .other => some (.notCreated, { s with owner := .idle })
  | .storeId =>
      some (.silent,
        { s with impl := { s.impl with id := some (.child s.cycle) }, owner := .waitNotStarting })
  | .waitNotStarting =>
      if s.impl.state = .starting then none else some (.silent, { s with owner := .detach })
  | .detach => some (.silent, { s with owner := .testStarted })
  | .testStarted => some (.start s.cycle (s.impl.state ≠ .stopped), { s with owner := .idle })
  | .join j =>
      match Thread.join s.impl .owner j with
      | none => none
      | some (.goto j, impl) => some (.silent, { s with impl := impl, owner := .join j })
      | some (.ret b, impl) => some (.join s.cycle b, { s with impl := impl, owner := .idle })
  | .setStopping => some (.silent, { s.setState .stopping with owner := .requestCancel })
  | .requestCancel =>
      match s.impl.id with
      | some (.child k) =>
          some (.silent, { s with canceled := update s.canceled k true, owner := .idle })
      | _ => some (.silent, { s with owner := .idle })

/-- The owner begins a call. -/
def begin (s : State) : Call → State
  | .start => { s with owner := .testStopped }
  | .join => { s with owner := .join .testStopped }
  | .cancel => { s with owner := .setStopping }

end State

/-! ## Interleavings -/

inductive Action
  | call (c : Call)
  | owner (error : Error)
  | child (cycle : Nat) (a : ChildAction)

/-- The threads take their steps in any order. -/
def thread : Machine State Action Output where
  init :=
    { impl := ⟨.stopped, none⟩
      cycle := 0
      owner := .idle
      child := fun _ => .unborn
      canceled := fun _ => false }
  step s
    | .call c => if s.owner = .idle then some (.silent, s.begin c) else none
    | .owner error => s.ownerStep error
    | .child k a =>
        (childStep k (s.canceled k) s.impl (s.child k) a).map fun r =>
          (r.1, { s with impl := r.2.1, child := update s.child k r.2.2 })

end Lunchbox.Thread
