import Lunchbox.Thread.Cancel
import Lunchbox.Thread.Protocol

set_option autoImplicit false

/-! # `start` that fails

`start` returns false if `pthread_create` fails for good, or if `init` of the child returns false.
In the second case the child has written `STATE_STOPPED`; in the first one the monitor is left with
the `STATE_STARTING` that `start` wrote, and the thread can be neither started again nor found
stopped, and a `join` of it succeeds. A `start` that returns false leaves a stopped thread, in all
histories, exactly if `pthread_create` never fails for good.
-/

namespace Lunchbox.Thread

open StateMachine Function

/-- `isStopped()` -/
def isStopped (impl : Impl) : Prop := impl.state = .stopped

instance (impl : Impl) : Decidable (isStopped impl) :=
  inferInstanceAs (Decidable (impl.state = .stopped))

/-! ## After a failed `start` -/

/-- What the owner has done since a `start` that has returned false. -/
inductive Since
  | otherwise
  | failed
  /-- it has called `c`, and has taken no step in the call -/
  | called (c : Call)
  deriving DecidableEq

def noteFailure (r : Since) : Action × Output → Since
  | (_, .start _ false) => .failed
  | (_, .notCreated) => .failed
  | (.call c, _) => if r = .failed then .called c else .otherwise
  | (.owner _, _) => .otherwise
  | (.child _ _, _) => r

def sinceFailure (tr : List (Action × Output)) : Since := tr.foldl noteFailure .otherwise

@[simp] theorem sinceFailure_snoc (tr : List (Action × Output)) (e : Action × Output) :
    sinceFailure (tr ++ [e]) = noteFailure (sinceFailure tr) e := by
  simp [sinceFailure]

/-- What should hold after a `start` that has returned false: the thread is stopped until the owner
calls something, a `join` returns false in its first step, and the test of a `start` passes. -/
def LeftStopped (tr : List (Action × Output)) (s : State) : Prop :=
  match sinceFailure tr with
  | .failed => isStopped s.impl
  | .called .join =>
      ∀ error, ∃ s', thread.step s (.owner error) = some (.join s.cycle false, s')
  | .called .start =>
      ∀ error, ∃ s', thread.step s (.owner error) = some (.silent, s') ∧ s'.owner = .setStarting
  | .called .cancel => True
  | .otherwise => True

/-- The condition on the steps: `pthread_create` does not fail for good. -/
def Creates (s : State) : Action → Prop
  | .owner error => s.owner.Creates error
  | _ => True

instance (s : State) : DecidablePred (Creates s)
  | .owner error => inferInstanceAs (Decidable (s.owner.Creates error))
  | .call _ | .child _ _ => isTrue trivial

variable {s s' : State} {a : Action} {out : Output} {tr : List (Action × Output)}

/-! ## Where the owner is -/

/-- Where the owner is since the failed `start`. -/
def Since.At (s : State) : Since → Prop
  | .otherwise => True
  | .failed => s.owner = .idle
  | .called c => s.owner = (s.begin c).owner

/-- The histories in which the monitor should be `STATE_STOPPED`. -/
def Since.Stopped : Since → Prop
  | .failed | .called .join | .called .start => True
  | .called .cancel | .otherwise => False

/-- The outputs of a child do not say that a `start` has failed. -/
theorem noteFailure_child {k : Nat} {c : ChildAction} (r : Since)
    (hs : thread.step s (.child k c) = some (out, s')) : noteFailure r (.child k c, out) = r := by
  obtain ⟨impl, c', hm, -⟩ := child_step hs
  generalize s.child k = c0 at hm
  cases hm <;> rfl

theorem noteFailure_call {c : Call} (r : Since) (hs : thread.step s (.call c) = some (out, s')) :
    s.owner = .idle ∧ s' = s.begin c ∧
      noteFailure r (.call c, out) = if r = .failed then .called c else .otherwise := by
  obtain ⟨ho, he⟩ := Option.ite_none_right_eq_some.mp hs
  cases he
  exact ⟨ho, rfl, rfl⟩

/-- A step of the owner either makes `start` return false or ends what was said of it. -/
theorem noteFailure_owner {error : Error} (r : Since)
    (hs : thread.step s (.owner error) = some (out, s')) :
    (noteFailure r (.owner error, out) = .failed ∧ s'.owner = .idle ∧ s'.impl = s.impl ∧
      (s.owner = .testStarted ∧ s.impl.state = .stopped ∨
        ∃ n, s.owner = .create n ∧ ¬ s.owner.Creates error)) ∨
    (noteFailure r (.owner error, out) = .otherwise ∧ s.owner.Creates error) := by
  obtain ⟨owner, ho, hm⟩ := ownerMoves_of_step hs
  rw [ho]
  cases hm with
  | started =>
      by_cases hst : s.impl.state = .stopped
      · refine Or.inl ⟨?_, rfl, rfl, Or.inl ⟨rfl, hst⟩⟩
        simp [noteFailure, hst]
      · refine Or.inr ⟨?_, trivial⟩
        simp [noteFailure, hst]
  | notCreated he =>
      refine Or.inl ⟨rfl, rfl, rfl, Or.inr ⟨_, rfl, ?_⟩⟩
      rintro (rfl | ⟨rfl, hn⟩)
      · simp at he
      · simp [hn] at he
  | created he => exact Or.inr ⟨rfl, Or.inl he⟩
  | again he hn => exact Or.inr ⟨rfl, Or.inr ⟨he, hn⟩⟩
  | stopped | busy | setStarting | storeId | waited | detach | goto | ret | setStopping
  | requestCancel | requestNone => exact Or.inr ⟨rfl, trivial⟩

theorem at_step (h : (sinceFailure tr).At s) (hs : thread.step s a = some (out, s')) :
    (sinceFailure (tr ++ [(a, out)])).At s' := by
  rw [sinceFailure_snoc]
  cases a with
  | call c =>
      obtain ⟨-, rfl, hnote⟩ := noteFailure_call (sinceFailure tr) hs
      rw [hnote]
      split_ifs
      · cases c <;> rfl
      · trivial
  | owner error =>
      rcases noteFailure_owner (sinceFailure tr) hs with ⟨hnote, ho, -⟩ | ⟨hnote, -⟩
      · rw [hnote]
        exact ho
      · rw [hnote]
        trivial
  | child k c =>
      rw [noteFailure_child (sinceFailure tr) hs]
      obtain ⟨impl, c', -, rfl⟩ := child_step hs
      cases hr : sinceFailure tr with
      | otherwise => trivial
      | failed =>
          rw [hr] at h
          exact h
      | called c =>
          rw [hr] at h
          cases c <;> exact h

theorem at_of_trace (h : thread.Trace tr s) : (sinceFailure tr).At s := by
  induction h with
  | nil => trivial
  | snoc _ hs ih => exact at_step ih hs

/-- What is left behind comes down to the value of the monitor. -/
theorem leftStopped_iff (h : (sinceFailure tr).At s) :
    LeftStopped tr s ↔ ((sinceFailure tr).Stopped → s.impl.state = .stopped) := by
  have : Nonempty Error := ⟨.success⟩
  unfold LeftStopped
  cases hr : sinceFailure tr with
  | otherwise => exact iff_of_true trivial False.elim
  | failed => exact ⟨fun hst _ => hst, fun hst => hst trivial⟩
  | called c =>
      rw [hr] at h
      cases c with
      | cancel => exact iff_of_true trivial False.elim
      | start =>
          have ho : s.owner = .testStopped := h
          simp only [thread, State.ownerStep, ho, Since.Stopped, true_imp_iff]
          by_cases hst : s.impl.state = .stopped <;> simp [hst]
      | join =>
          have ho : s.owner = .join .testStopped := h
          simp only [thread, State.ownerStep, ho, join, Since.Stopped, true_imp_iff]
          by_cases hst : s.impl.state = .stopped <;> simp [hst]

/-! ## One step -/

/-- No child changes the monitor of a stopped thread. -/
theorem Inv.stopped_child (h : Inv s) (hst : s.impl.state = .stopped) {k : Nat} {c : ChildAction}
    (hs : thread.step s (.child k c) = some (out, s')) : s'.impl.state = .stopped := by
  obtain ⟨impl, c', hm, rfl⟩ := Thread.child_step hs
  by_cases hk : k = s.cycle
  · subst hk
    obtain ⟨-, rfl, -⟩ := hm.of_quiet (h.quiet_of_stopped hst)
    exact hst
  · obtain ⟨-, -, rfl, -⟩ := h.moves_other hk hm
    exact hst

theorem leftStopped_step (ht : thread.Trace tr s) (hinv : Inv s) (hq : LeftStopped tr s)
    (hs : thread.step s a = some (out, s')) : LeftStopped (tr ++ [(a, out)]) s' ↔ Creates s a := by
  have hat := at_of_trace ht
  rw [leftStopped_iff hat] at hq
  rw [leftStopped_iff (at_step hat hs), sinceFailure_snoc]
  cases a with
  | call c =>
      obtain ⟨-, rfl, hnote⟩ := noteFailure_call (sinceFailure tr) hs
      rw [hnote]
      refine iff_of_true (fun hstop => ?_) trivial
      split_ifs at hstop with hr
      · rw [hr] at hq
        cases c <;> exact hq trivial
      · exact hstop.elim
  | owner error =>
      rcases noteFailure_owner (sinceFailure tr) hs with ⟨hnote, -, himpl, hcase⟩ | ⟨hnote, hc⟩
      · rw [hnote, himpl]
        rcases hcase with ⟨ho, hst⟩ | ⟨n, ho, hc⟩
        · refine iff_of_true (fun _ => hst) ?_
          show s.owner.Creates error
          rw [ho]
          trivial
        · -- the loop is left with the value that `start` has written before it
          refine iff_of_false (fun hst => ?_) hc
          have hallows := hinv.current.owner
          rw [ho] at hallows
          rw [hallows.1] at hst
          cases hst trivial
      · rw [hnote]
        exact iff_of_true False.elim hc
  | child k c =>
      rw [noteFailure_child (sinceFailure tr) hs]
      exact iff_of_true (fun hstop => hinv.stopped_child (hq hstop) hs) trivial

/-! ## All histories -/

/-- **A failed `start` leaves the thread stopped exactly if `pthread_create` does not fail for
good.** This is for every interleaving of an owner that calls `start`, `join` and `cancel` with the
children, in any number of cycles; where a cycle was canceled, `join` has to have waited for its
child. -/
theorem failed_start_iff (h : thread.Trace tr s) (hawaits : thread.Guarded Awaits tr) :
    thread.Always LeftStopped tr ↔ thread.Guarded Creates tr := by
  refine h.always_iff_guarded_under Inv inv_init trivial ?_ ?_ hawaits
  · exact fun s a out s' hinv hg _ hs => hinv.step hg hs
  · exact fun tr s a out s' ht hinv _ hq hs => leftStopped_step ht hinv hq hs

/-- `init` returns false after `pthread_create` has failed once with `EAGAIN`. -/
def initFails : List Action :=
  [.call .start, .owner .success, .owner .success, .owner .again, .owner .success, .owner .success,
    .child 1 .step, .child 1 (.initReturn false), .child 1 .step, .owner .success, .owner .success,
    .owner .success]

theorem failed_start_of_init :
    ∃ tr s, thread.Trace tr s ∧ tr.map Prod.fst = initFails ∧
      tr.getLast? = some (.owner .success, .start 1 false) ∧ isStopped s.impl ∧
      thread.Always LeftStopped tr := by
  have htrace := Machine.Trace.of_run (M := thread) initFails rfl
  have hawaits := Machine.guarded_of_run (M := thread) (G := Awaits) initFails rfl (by decide)
  have hcreates := Machine.guarded_of_run (M := thread) (G := Creates) initFails rfl (by decide)
  exact ⟨_, _, htrace, rfl, rfl, rfl, (failed_start_iff htrace hawaits).mpr hcreates⟩

/-- `start` is called and gets to its loop. -/
def startCalled : List Action := [.call .start, .owner .success, .owner .success]

/-- `pthread_create` returns the errors one after the other, and `start` returns false; the thread
is not stopped then, the next `start` is refused, and `join` returns true. -/
def LeavesStarting (errors : List Error) : Prop :=
  ∃ tr s, thread.Trace tr s ∧ tr.map Prod.fst = startCalled ++ errors.map Action.owner ∧
    tr.getLast?.map Prod.snd = some .notCreated ∧ ¬ isStopped s.impl ∧
    (thread.run [.call .start, .owner .success] s).map (fun r => r.1.map Prod.snd)
      = some [.silent, .busy] ∧
    (thread.run (.call .join :: List.replicate 4 (.owner .success)) s).map
      (fun r => r.1.map Prod.snd) = some [.silent, .silent, .silent, .silent, .join 1 true]

/-- This is so for another error than `EAGAIN`, and for ten times `EAGAIN`. -/
theorem failed_start_not_stopped :
    LeavesStarting [.other] ∧ LeavesStarting (List.replicate 10 .again) := by
  constructor
  · exact ⟨_, _, Machine.Trace.of_run (M := thread) (startCalled ++ [.owner .other]) rfl, rfl, rfl,
      by decide, rfl, rfl⟩
  · exact ⟨_, _, Machine.Trace.of_run (M := thread)
      (startCalled ++ (List.replicate 10 Error.again).map Action.owner) rfl, rfl, rfl,
      by decide, rfl, rfl⟩

end Lunchbox.Thread
