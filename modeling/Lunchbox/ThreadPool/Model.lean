import Lunchbox.Lib.Machine

set_option autoImplicit false

/-! # `ThreadPool`: workers, posting threads and the destructor

The pool has `n` workers, which run `work`, and any number of posting threads. A step is what a
thread does between two points where others can see it. Every access to `_tasks` and `_stop` is
under `_mutex`, so a critical section is one step, with one exception: a worker that finds its
predicate false keeps the mutex until it sleeps, and `notify_one`, which `post` calls without the
mutex, can come in between. The mutex is free if no worker is at that point.

The condition variable is the set of sleeping workers. A notification marks a worker as woken; it
tests its predicate again once it has the mutex. A worker can also wake without a notification.
-/

namespace Lunchbox.ThreadPool

open StateMachine

variable {R ρ : Type} {n : Nat}

/-! ## Tasks and threads -/

/-- A posted task. The `id` is the number of tasks posted before it. A task of `post` has the
result of its callable, a value or an exception; a detached one has none that anybody sees. -/
structure Task (R : Type) where
  id : Nat
  result : Option R

/-- The shared state of a packaged task and its future. -/
inductive Promise (R : Type)
  | unset
  | value (r : R)
  | broken

/-- Where a worker is in `work`. -/
inductive Worker (R : Type)
  /-- before it locks the mutex, at the start of the loop -/
  | ready
  /-- found the predicate false, still with the mutex -/
  | blocking
  /-- in `_condition.wait` -/
  | asleep
  /-- woken, by a notification or not, before it has the mutex again -/
  | woken (notified : Bool)
  | running (task : Task R)
  | returned

/-- The worker goes on by testing the predicate. -/
def Worker.awake : Worker R → Bool
  | .ready => true
  | .woken _ => true
  | _ => false

def Worker.isAsleep : Worker R → Bool
  | .asleep => true
  | _ => false

def Worker.isBlocking : Worker R → Bool
  | .blocking => true
  | _ => false

def Worker.hasReturned : Worker R → Bool
  | .returned => true
  | _ => false

theorem isAsleep_iff {w : Worker R} : w.isAsleep = true ↔ w = .asleep := by
  cases w <;> simp [Worker.isAsleep]

theorem isBlocking_iff {w : Worker R} : w.isBlocking = true ↔ w = .blocking := by
  cases w <;> simp [Worker.isBlocking]

theorem hasReturned_iff {w : Worker R} : w.hasReturned = true ↔ w = .returned := by
  cases w <;> simp [Worker.hasReturned]

/-- What a notification does to a worker. -/
def Worker.notify : Worker R → Worker R
  | .asleep => .woken true
  | w => w

/-- The pool. A posting thread is `inserted` between its insertion and its notification. -/
structure State (R ρ : Type) (n : Nat) where
  tasks : List (Task R)
  stop : Bool
  workers : Fin n → Worker R
  inserted : ρ → Bool
  posts : Nat
  promises : Nat → Promise R
  destroyed : Bool

variable (s : State R ρ n)

/-- Nobody has the mutex. -/
def State.Unlocked : Prop := ∀ i, (s.workers i).isBlocking = false

instance : Decidable s.Unlocked := inferInstanceAs (Decidable (∀ _, _))

def State.setWorker (i : Fin n) (w : Worker R) : State R ρ n :=
  { s with workers := Function.update s.workers i w }

/-! ## The operations -/

section

variable [DecidableEq ρ]

/-- The part of `post` and `postDetached` under the mutex. -/
def State.insert (p : ρ) (result : Option R) : Task R × State R ρ n :=
  let task : Task R := ⟨s.posts, result⟩
  (task, { s with
    tasks := s.tasks ++ [task]
    posts := s.posts + 1
    inserted := Function.update s.inserted p true })

/-- The `notify_one` at the end of a post, with the worker it picks among those asleep. -/
def State.notifyOne (p : ρ) : Option (Fin n) → State R ρ n
  | some i =>
      { s with
        workers := Function.update s.workers i (s.workers i).notify
        inserted := Function.update s.inserted p false }
  | none => { s with inserted := Function.update s.inserted p false }

end

/-- The outcome of a step that somebody sees. -/
inductive Output (R : Type)
  | posted (task : Task R)
  | took (task : Task R)
  | finished (task : Task R)
  | pending (b : Bool)
  | got (p : Promise R)
  | done

/-- The critical section of `work`: test the predicate, and return or take the first task. -/
def State.work (i : Fin n) : Output R × State R ρ n :=
  if s.stop || !s.tasks.isEmpty then
    if s.stop then (.done, s.setWorker i .returned)
    else match s.tasks with
      | [] => (.done, s)
      | task :: rest => (.took task, { s with tasks := rest }.setWorker i (.running task))
  else (.done, s.setWorker i .blocking)

/-- The end of a task: the packaged task, if it is one, sets its promise. -/
def State.finish (i : Fin n) (task : Task R) : State R ρ n :=
  let s := s.setWorker i .ready
  match task.result with
  | none => s
  | some r => { s with promises := Function.update s.promises task.id (.value r) }

theorem finish_workers (i : Fin n) (task : Task R) :
    (s.finish i task).workers = Function.update s.workers i .ready := by
  unfold State.finish
  cases task.result <;> rfl

theorem finish_rest (i : Fin n) (task : Task R) :
    (s.finish i task).tasks = s.tasks ∧ (s.finish i task).stop = s.stop ∧
      (s.finish i task).inserted = s.inserted ∧ (s.finish i task).posts = s.posts ∧
      (s.finish i task).destroyed = s.destroyed := by
  unfold State.finish
  cases task.result <;> exact ⟨rfl, rfl, rfl, rfl, rfl⟩

/-- The first part of the destructor. -/
def State.setStop : State R ρ n :=
  { s with stop := true, workers := fun i => (s.workers i).notify }

/-- The members are destroyed: a packaged task that did not run breaks its promise. -/
def State.destroy : State R ρ n :=
  { s with
    destroyed := true
    promises := fun k =>
      if s.tasks.any fun task => task.id == k && task.result.isSome then .broken
      else s.promises k }

def State.hasPendingJobs : Bool := !s.tasks.isEmpty

/-! ## The machine -/

inductive Action (R ρ : Type) (n : Nat)
  | post (p : ρ) (result : R)
  | postDetached (p : ρ)
  | notifyOne (p : ρ) (w : Option (Fin n))
  | work (i : Fin n)
  /-- the worker gives up the mutex and sleeps -/
  | block (i : Fin n)
  /-- a spurious wake-up -/
  | wake (i : Fin n)
  /-- the running task returns -/
  | finish (i : Fin n)
  | setStop
  /-- `joinAll` returns, and with it the destructor -/
  | joinAll
  | hasPendingJobs
  /-- `get` of the future that the post of this task returned -/
  | get (id : Nat)

variable [DecidableEq ρ]

/-- What each action needs, and what it does. -/
def State.step (s : State R ρ n) : Action R ρ n → Option (Output R × State R ρ n)
  | .post p r =>
      if s.destroyed = false ∧ s.Unlocked ∧ s.inserted p = false then
        some (.posted (s.insert p (some r)).1, (s.insert p (some r)).2)
      else none
  | .postDetached p =>
      if s.destroyed = false ∧ s.Unlocked ∧ s.inserted p = false then
        some (.posted (s.insert p none).1, (s.insert p none).2)
      else none
  | .notifyOne p (some i) =>
      if s.destroyed = false ∧ s.inserted p = true ∧ (s.workers i).isAsleep then
        some (.done, s.notifyOne p (some i))
      else none
  | .notifyOne p none =>
      if s.destroyed = false ∧ s.inserted p = true ∧ ∀ i, (s.workers i).isAsleep = false then
        some (.done, s.notifyOne p none)
      else none
  | .work i => if s.Unlocked ∧ (s.workers i).awake then some (s.work i) else none
  | .block i =>
      if (s.workers i).isBlocking then some (.done, s.setWorker i .asleep) else none
  | .wake i =>
      if (s.workers i).isAsleep then some (.done, s.setWorker i (.woken false)) else none
  | .finish i =>
      match s.workers i with
      | .running task => some (.finished task, s.finish i task)
      | _ => none
  | .setStop =>
      if s.destroyed = false ∧ s.Unlocked ∧ s.stop = false then some (.done, s.setStop) else none
  | .joinAll =>
      if s.destroyed = false ∧ s.stop = true ∧ ∀ i, (s.workers i).hasReturned then
        some (.done, s.destroy)
      else none
  | .hasPendingJobs =>
      if s.destroyed = false ∧ s.Unlocked then some (.pending s.hasPendingJobs, s) else none
  | .get k =>
      match s.promises k with
      | .unset => none
      | p => some (.got p, s)

/-- A pool of `n` workers, from its construction on. -/
def pool (R ρ : Type) (n : Nat) [DecidableEq ρ] :
    Machine (State R ρ n) (Action R ρ n) (Output R) where
  init := ⟨[], false, fun _ => .ready, fun _ => false, 0, fun _ => .unset, false⟩
  step := State.step

/-! ## What a step can be -/

/-- The transitions of the pool. -/
inductive Step : State R ρ n → Action R ρ n → Output R → State R ρ n → Prop
  | insert {s : State R ρ n} {a : Action R ρ n} (p : ρ) (result : Option R)
      (ha : a = match result with | some r => .post p r | none => .postDetached p)
      (hu : s.Unlocked) (hp : s.inserted p = false) (hd : s.destroyed = false) :
      Step s a (.posted (s.insert p result).1) (s.insert p result).2
  | notify {s : State R ρ n} (p : ρ) (i : Fin n) (hi : s.workers i = .asleep)
      (hp : s.inserted p = true) :
      Step s (.notifyOne p (some i)) .done { s with
        workers := Function.update s.workers i (.woken true)
        inserted := Function.update s.inserted p false }
  | notifyNobody {s : State R ρ n} (p : ρ) (hi : ∀ i, s.workers i ≠ .asleep)
      (hp : s.inserted p = true) :
      Step s (.notifyOne p none) .done
        { s with inserted := Function.update s.inserted p false }
  | leave {s : State R ρ n} (i : Fin n) (hi : (s.workers i).awake) (hu : s.Unlocked)
      (hs : s.stop = true) : Step s (.work i) .done (s.setWorker i .returned)
  | take {s : State R ρ n} (i : Fin n) (task : Task R) (rest : List (Task R))
      (hi : (s.workers i).awake) (hu : s.Unlocked) (hs : s.stop = false)
      (ht : s.tasks = task :: rest) :
      Step s (.work i) (.took task) ({ s with tasks := rest }.setWorker i (.running task))
  | test {s : State R ρ n} (i : Fin n) (hi : (s.workers i).awake) (hu : s.Unlocked)
      (hs : s.stop = false) (ht : s.tasks = []) :
      Step s (.work i) .done (s.setWorker i .blocking)
  | block {s : State R ρ n} (i : Fin n) (hi : s.workers i = .blocking) :
      Step s (.block i) .done (s.setWorker i .asleep)
  | wake {s : State R ρ n} (i : Fin n) (hi : s.workers i = .asleep) :
      Step s (.wake i) .done (s.setWorker i (.woken false))
  | finish {s : State R ρ n} (i : Fin n) (task : Task R) (hi : s.workers i = .running task) :
      Step s (.finish i) (.finished task) (s.finish i task)
  | setStop {s : State R ρ n} (hu : s.Unlocked) (hs : s.stop = false) (hd : s.destroyed = false) :
      Step s .setStop .done s.setStop
  | joinAll {s : State R ρ n} (hs : s.stop = true) (hi : ∀ i, s.workers i = .returned) :
      Step s .joinAll .done s.destroy
  | hasPendingJobs {s : State R ρ n} (hd : s.destroyed = false) (hu : s.Unlocked) :
      Step s .hasPendingJobs (.pending s.hasPendingJobs) s
  | get {s : State R ρ n} (k : Nat) (hk : s.promises k ≠ .unset) :
      Step s (.get k) (.got (s.promises k)) s

/-- The critical section of `work` is one of three transitions. -/
theorem work_step {s : State R ρ n} {i : Fin n} (hi : (s.workers i).awake) (hu : s.Unlocked) :
    Step s (.work i) (s.work i).1 (s.work i).2 := by
  unfold State.work
  cases hs : s.stop with
  | true =>
      simp only [Bool.true_or, if_true]
      exact .leave i hi hu hs
  | false =>
      cases ht : s.tasks with
      | nil => exact .test i hi hu hs ht
      | cons task rest =>
          have hstep := Step.take i task rest hi hu hs ht
          rwa [hs] at hstep

/-- **A step is one of the transitions.** -/
theorem step_of_eq {s s' : State R ρ n} {a : Action R ρ n} {o : Output R}
    (h : (pool R ρ n).step s a = some (o, s')) : Step s a o s' := by
  change s.step a = some (o, s') at h
  cases a with
  | post p r =>
      obtain ⟨⟨hd, hu, hp⟩, h⟩ := Option.ite_none_right_eq_some.mp h
      cases h
      exact .insert p (some r) rfl hu hp hd
  | postDetached p =>
      obtain ⟨⟨hd, hu, hp⟩, h⟩ := Option.ite_none_right_eq_some.mp h
      cases h
      exact .insert p none rfl hu hp hd
  | notifyOne p w =>
      cases w with
      | some i =>
          obtain ⟨⟨-, hp, hi⟩, h⟩ := Option.ite_none_right_eq_some.mp h
          cases h
          have hi := isAsleep_iff.mp hi
          have hstep := Step.notify p i hi hp
          simpa only [State.notifyOne, hi, Worker.notify] using hstep
      | none =>
          obtain ⟨⟨-, hp, hi⟩, h⟩ := Option.ite_none_right_eq_some.mp h
          cases h
          refine .notifyNobody p (fun i ha => ?_) hp
          have := hi i
          rw [ha] at this
          cases this
  | work i =>
      obtain ⟨⟨hu, hi⟩, h⟩ := Option.ite_none_right_eq_some.mp h
      have hstep := work_step hi hu
      rw [Option.some.inj h] at hstep
      exact hstep
  | block i =>
      obtain ⟨hi, h⟩ := Option.ite_none_right_eq_some.mp h
      cases h
      exact .block i (isBlocking_iff.mp hi)
  | wake i =>
      obtain ⟨hi, h⟩ := Option.ite_none_right_eq_some.mp h
      cases h
      exact .wake i (isAsleep_iff.mp hi)
  | finish i =>
      cases hi : s.workers i with
      | running task =>
          simp only [State.step, hi] at h
          cases h
          exact .finish i task hi
      | ready | blocking | asleep | woken | returned => simp [State.step, hi] at h
  | setStop =>
      obtain ⟨⟨hd, hu, hs⟩, h⟩ := Option.ite_none_right_eq_some.mp h
      cases h
      exact .setStop hu hs hd
  | joinAll =>
      obtain ⟨⟨-, hs, hi⟩, h⟩ := Option.ite_none_right_eq_some.mp h
      cases h
      exact .joinAll hs fun i => hasReturned_iff.mp (hi i)
  | hasPendingJobs =>
      obtain ⟨⟨hd, hu⟩, h⟩ := Option.ite_none_right_eq_some.mp h
      cases h
      exact .hasPendingJobs hd hu
  | get k =>
      cases hk : s.promises k with
      | unset => simp [State.step, hk] at h
      | value | broken =>
          simp only [State.step, hk] at h
          cases h
          have hne : s.promises k ≠ .unset := by simp [hk]
          have hstep := Step.get k hne
          rwa [hk] at hstep

end Lunchbox.ThreadPool
