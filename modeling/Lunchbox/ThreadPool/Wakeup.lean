import Lunchbox.Lib.Count
import Lunchbox.ThreadPool.Model

set_option autoImplicit false

/-! # No wake-up is lost

A worker sleeps only if every queued task has somebody else who takes care of it: a worker that
was notified and has not tested the predicate yet, or a post that has not notified yet. The
count is an inequality, since a task may be taken by a worker that was not notified for it.
-/

namespace Lunchbox.ThreadPool

open StateMachine

variable {R ρ : Type} {n : Nat}

def Worker.isNotified : Worker R → Bool
  | .woken notified => notified
  | _ => false

/-- The workers that were notified and have not tested the predicate since. -/
def notified (workers : Fin n → Worker R) : Nat := countWhere (fun w => w.isNotified = true) workers

/-- The posts that have inserted their task and not notified yet. -/
def unnotified [Fintype ρ] (inserted : ρ → Bool) : Nat := countWhere (fun b => b = true) inserted

structure Covered [Fintype ρ] (s : State R ρ n) : Prop where
  -- a worker that is about to sleep has the mutex, so what it saw is still true
  blocking : ∀ i, s.workers i = .blocking → s.tasks = [] ∧ s.stop = false
  stopped : s.stop = true → ∀ i, s.workers i ≠ .asleep
  tasks_le : s.stop = false → ∀ i, s.workers i = .asleep →
    s.tasks.length ≤ notified s.workers + unnotified s.inserted

theorem State.Unlocked.not_blocking {s : State R ρ n} (hu : s.Unlocked) (i : Fin n) :
    s.workers i ≠ .blocking := by
  intro hb
  have := hu i
  rw [hb] at this
  cases this

/-- A worker that moves gains or loses its notification. -/
theorem notified_update (f : Fin n → Worker R) (i : Fin n) (w : Worker R) :
    notified (Function.update f i w) + (if (f i).isNotified then 1 else 0)
      = notified f + (if w.isNotified then 1 else 0) :=
  countWhere_update (fun w : Worker R => w.isNotified = true) f i w

section

variable [Fintype ρ] {s s' : State R ρ n} {a : Action R ρ n} {o : Output R}

/-- A worker moves to a point where it neither sleeps nor is about to. -/
theorem Covered.move (h : Covered s) {i : Fin n} {w : Worker R} (hb : w ≠ .blocking)
    (ha : w ≠ .asleep) (hw : s'.workers = Function.update s.workers i w) (hstop : s'.stop = s.stop)
    (ht : s'.tasks = s.tasks ∨ s.Unlocked)
    (hle : s.stop = false → s.tasks.length ≤ notified s.workers + unnotified s.inserted →
      s'.tasks.length ≤ notified s'.workers + unnotified s'.inserted) : Covered s' := by
  refine ⟨?_, ?_, ?_⟩
  · intro j hj
    rw [hw] at hj
    have hj := of_update hj hb
    rw [hstop]
    rcases ht with ht | hu
    · rw [ht]
      exact h.blocking j hj
    · exact absurd hj (hu.not_blocking j)
  · intro hs j hj
    rw [hw] at hj
    rw [hstop] at hs
    exact h.stopped hs j (of_update hj ha)
  · intro hs j hj
    rw [hw] at hj
    rw [hstop] at hs
    exact hle hs (h.tasks_le hs j (of_update hj ha))

/-- A worker has found nothing to do. -/
theorem covered_idle {i : Fin n} {w : Worker R} (ht : s.tasks = []) (hstop : s.stop = false) :
    Covered (s.setWorker i w) := by
  refine ⟨fun _ _ => ⟨ht, hstop⟩, ?_, ?_⟩
  · intro hs
    rw [show s.stop = true from hs] at hstop
    cases hstop
  · intro _ _ _
    show s.tasks.length ≤ _
    rw [ht]
    exact Nat.zero_le _

variable [DecidableEq ρ]

theorem unnotified_insert {f : ρ → Bool} {p : ρ} (hp : f p = false) :
    unnotified (Function.update f p true) = unnotified f + 1 := by
  have := countWhere_update (fun b => b = true) f p true
  simpa [hp, unnotified] using this

theorem unnotified_notify {f : ρ → Bool} {p : ρ} (hp : f p = true) :
    unnotified (Function.update f p false) + 1 = unnotified f := by
  have := countWhere_update (fun b => b = true) f p false
  simpa [hp, unnotified] using this

theorem covered_init : Covered (pool R ρ n).init where
  blocking _ h := by cases h
  stopped h := by cases h
  tasks_le _ _ _ := Nat.zero_le _

/-- **One step keeps every sleeping worker covered.** -/
theorem covered_step (h : Covered s) (hs : Step s a o s') : Covered s' := by
  cases hs with
  | insert p result _ hu hp =>
      refine ⟨fun i hi => absurd hi (hu.not_blocking i), h.stopped, ?_⟩
      intro hstop i hi
      have hle := h.tasks_le hstop i hi
      have hins := unnotified_insert hp
      show (s.tasks ++ [_]).length
        ≤ notified s.workers + unnotified (Function.update s.inserted p true)
      rw [List.length_append, List.length_singleton]
      omega
  | notify p i hi hp =>
      refine h.move (by simp) (by simp) rfl rfl (Or.inl rfl) ?_
      intro _ hle
      have hmark := notified_update s.workers i (.woken true)
      have hpost := unnotified_notify hp
      simp only [hi, Worker.isNotified, Bool.false_eq_true, if_false, if_true] at hmark
      show s.tasks.length ≤ notified (Function.update s.workers i (.woken true))
        + unnotified (Function.update s.inserted p false)
      omega
  | notifyNobody p hi =>
      exact ⟨h.blocking, h.stopped, fun _ i hasleep => absurd hasleep (hi i)⟩
  | leave i hi hu hstop =>
      refine h.move (by simp) (by simp) rfl rfl (Or.inr hu) ?_
      intro hstop'
      rw [hstop'] at hstop
      cases hstop
  | take i task rest hi hu hstop ht =>
      refine h.move (by simp) (by simp) rfl rfl (Or.inr hu) ?_
      intro _ hle
      -- one task less, and at most one notified worker less
      have hmark := notified_update s.workers i (.running task)
      have hone : (if (s.workers i).isNotified then 1 else 0) ≤ 1 := by split <;> decide
      rw [ht, List.length_cons] at hle
      show rest.length ≤ notified (Function.update s.workers i (.running task))
        + unnotified s.inserted
      omega
  | test i _ _ hstop ht => exact covered_idle ht hstop
  | block i hi =>
      obtain ⟨ht, hstop⟩ := h.blocking i hi
      exact covered_idle ht hstop
  | wake i hi =>
      refine h.move (by simp) (by simp) rfl rfl (Or.inl rfl) ?_
      intro _ hle
      have hmark := notified_update s.workers i (.woken false)
      simp only [hi, Worker.isNotified, Bool.false_eq_true, if_false] at hmark
      show s.tasks.length ≤ notified (Function.update s.workers i (.woken false))
        + unnotified s.inserted
      omega
  | finish i task hi =>
      obtain ⟨ht, hstop, hins, -, -⟩ := finish_rest s i task
      have hw := finish_workers s i task
      refine h.move (by simp) (by simp) hw hstop (Or.inl ht) ?_
      intro _ hle
      have hmark := notified_update s.workers i .ready
      simp only [hi, Worker.isNotified, Bool.false_eq_true, if_false] at hmark
      rw [ht, hw, hins]
      omega
  | setStop hu hstop =>
      refine ⟨?_, ?_, ?_⟩
      · intro i hi
        have hi : (s.workers i).notify = .blocking := hi
        cases hw : s.workers i with
        | blocking => exact absurd hw (hu.not_blocking i)
        | ready | asleep | woken | running | returned =>
            rw [hw] at hi
            cases hi
      · intro _ i hi
        have hi : (s.workers i).notify = .asleep := hi
        cases hw : s.workers i with
        | ready | blocking | asleep | woken | running | returned =>
            rw [hw] at hi
            cases hi
      · intro hs
        cases hs
  | joinAll => exact ⟨h.blocking, h.stopped, h.tasks_le⟩
  | hasPendingJobs | get => exact h

theorem covered_of_trace {tr : List (Action R ρ n × Output R)} (h : (pool R ρ n).Trace tr s) :
    Covered s :=
  h.stateInv Covered covered_init fun _ _ _ _ hc hs => covered_step hc (step_of_eq hs)

/-- **The pool loses no wake-up.** In every reachable state before `_stop`, if a worker sleeps
there are at most as many queued tasks as notified workers that have not tested the predicate
yet and posts that have not notified yet; so a task is never queued while a worker sleeps and
no notification is outstanding. Once `_stop` is set, no worker sleeps. -/
theorem no_lost_wakeup {tr : List (Action R ρ n × Output R)} (h : (pool R ρ n).Trace tr s) :
    (s.stop = false → ∀ i, s.workers i = .asleep →
      s.tasks.length ≤ notified s.workers + unnotified s.inserted) ∧
    (s.stop = false → s.tasks ≠ [] → notified s.workers = 0 → unnotified s.inserted = 0 →
      ∀ i, s.workers i ≠ .asleep) ∧
    (s.stop = true → ∀ i, s.workers i ≠ .asleep) := by
  have hc := covered_of_trace h
  refine ⟨hc.tasks_le, ?_, hc.stopped⟩
  intro hstop ht hn hu i hi
  have hle := hc.tasks_le hstop i hi
  have hpos := List.length_pos_iff.mpr ht
  omega

/-- Two sleeping workers and two posts, of which one has notified. -/
def sleepingHistory : List (Action Nat (Fin 2) 2 × Output Nat) :=
  let i : Fin 2 := ⟨0, Nat.two_pos⟩
  let j : Fin 2 := ⟨1, Nat.one_lt_two⟩
  [(.work i, .done), (.block i, .done), (.work j, .done), (.block j, .done),
    (.post i 5, .posted ⟨0, some 5⟩), (.post j 6, .posted ⟨1, some 6⟩),
    (.notifyOne i (some i), .done)]

theorem no_lost_wakeup_two :
    ∃ s, (pool Nat (Fin 2) 2).Trace sleepingHistory s ∧ s.workers 1 = .asleep ∧
      s.tasks.length = 2 ∧ s.tasks.length ≤ notified s.workers + unnotified s.inserted := by
  have h : (pool Nat (Fin 2) 2).Trace sleepingHistory _ := Machine.Trace.of_run
    [.work 0, .block 0, .work 1, .block 1, .post 0 5, .post 1 6, .notifyOne 0 (some 0)] rfl
  exact ⟨_, h, rfl, rfl, (no_lost_wakeup h).1 rfl 1 rfl⟩

end

end Lunchbox.ThreadPool
