import Lunchbox.Lib.Count
import Lunchbox.Lib.Machine
import Lunchbox.MTQueue.Operations

set_option autoImplicit false

/-! # Queues shared by threads

Any number of threads call the operations of any number of queues. The mutex is held from the
locking to the return or to the next wait, so a step is one critical section: the call up to the
first evaluation of its predicate and, if that holds, its body; a wake-up with its evaluation; or
the end of a timed wait, after which the body runs in any case. `notify_all` marks the threads
that sleep on the queue. A thread may also wake without being marked.

An assignment is two critical sections on two queues, with the copy in between in the hands of
the thread. A copy construction is an assignment to a queue that does not exist before.
-/

namespace Lunchbox.MTQueue.System

open StateMachine

variable {T ι κ γ : Type}

/-! ## The machine -/

/-- Where a thread is: outside the queues, asleep in a call, or inside `operator=` after the
first critical section. -/
inductive Thread (T κ γ : Type)
  | idle
  | waiting (k : κ) (c : Call T γ) (marked : Bool)
  | copied (dst : κ) (copy : Queue T)

/-- `notify_all` on the queue `k`, if it is called, for one thread. -/
def Thread.notifyIf [DecidableEq κ] (b : Bool) (k : κ) : Thread T κ γ → Thread T κ γ
  | .waiting k' c marked => .waiting k' c (marked || (b && decide (k' = k)))
  | th => th

theorem of_notifyIf_copied [DecidableEq κ] {th : Thread T κ γ} {b : Bool} {k dst : κ}
    {copy : Queue T} (h : th.notifyIf b k = .copied dst copy) : th = .copied dst copy := by
  cases th with
  | copied => exact h
  | idle | waiting => cases h

theorem of_notifyIf_waiting [DecidableEq κ] {th : Thread T κ γ} {b : Bool} {k k' : κ}
    {c : Call T γ} {m : Bool} (h : th.notifyIf b k = .waiting k' c m) :
    ∃ m', th = .waiting k' c m' ∧ (m = false → m' = false ∧ (b = true → k' ≠ k)) := by
  cases th with
  | idle | copied => cases h
  | waiting k'' c' m' =>
      cases h
      refine ⟨m', rfl, ?_⟩
      cases b <;> simp

structure State (T ι κ γ : Type) where
  queues : κ → Option (Shared T γ)
  threads : ι → Thread T κ γ

inductive Action (T ι κ γ : Type)
  | construct (k : κ) (maxSize : Nat)
  /-- the first critical section of `operator=` -/
  | copy (t : ι) (dst src : κ)
  /-- the second one -/
  | assign (t : ι)
  | call (t : ι) (k : κ) (c : Call T γ)
  | wake (t : ι)
  | timeout (t : ι)

/-- What a step shows: a call returned, or the contents of a queue were replaced. -/
inductive Output (T κ γ : Type)
  | returned (k : κ) (c : Call T γ) (reply : Reply T)
  | assigned (k : κ)
  | asleep
  | done

variable [DecidableEq ι] [DecidableEq κ]

/-- The others, after one thread became idle and may have notified them. -/
theorem others_copied {f : ι → Thread T κ γ} {t u : ι} {b : Bool} {k dst : κ} {copy : Queue T}
    (h : (Function.update f t .idle u).notifyIf b k = .copied dst copy) :
    f u = .copied dst copy :=
  of_update (of_notifyIf_copied h) (by simp)

theorem others_waiting {f : ι → Thread T κ γ} {t u : ι} {b : Bool} {k k' : κ} {c' : Call T γ}
    {m : Bool}
    (h : (Function.update f t .idle u).notifyIf b k = .waiting k' c' m) :
    ∃ m', f u = .waiting k' c' m' ∧ (m = false → m' = false ∧ (b = true → k' ≠ k)) := by
  obtain ⟨m', hu, hm⟩ := of_notifyIf_waiting h
  exact ⟨m', of_update hu (by simp), hm⟩

variable [DecidableEq γ]

/-- The body of a call runs, and the call returns. -/
def State.finish (s : State T ι κ γ) (t : ι) (k : κ) (sh : Shared T γ) (c : Call T γ) :
    Output T κ γ × State T ι κ γ :=
  let o := sh.body c
  (.returned k c o.reply,
    { queues := Function.update s.queues k (some o.next)
      threads := fun u => (Function.update s.threads t .idle u).notifyIf o.notify k })

/-- The predicate of a call does not hold. -/
def State.sleep (s : State T ι κ γ) (t : ι) (k : κ) (sh : Shared T γ) (c : Call T γ) :
    State T ι κ γ where
  queues := Function.update s.queues k (some sh)
  threads := Function.update s.threads t (.waiting k c false)

def State.attempt (s : State T ι κ γ) (t : ι) (k : κ) (sh : Shared T γ) (c : Call T γ) :
    Output T κ γ × State T ι κ γ :=
  if sh.ready c then s.finish t k sh c else (.asleep, s.sleep t k sh c)

/-- The groups of a queue, before they are used. -/
def newGroups (height : κ → γ → Nat) (k : κ) (g : γ) : Group := ⟨height k g, 0⟩

/-- The second critical section of `operator=`. -/
def State.assign (height : κ → γ → Nat) (s : State T ι κ γ) (t : ι) (dst : κ) (copy : Queue T) :
    State T ι κ γ where
  queues :=
    let groups := match s.queues dst with
      | some sh => sh.groups
      | none => newGroups height dst
    Function.update s.queues dst (some ⟨copy, groups⟩)
  threads u := (Function.update s.threads t .idle u).notifyIf true dst

def State.step (height : κ → γ → Nat) (s : State T ι κ γ) :
    Action T ι κ γ → Option (Output T κ γ × State T ι κ γ)
  | .construct k maxSize =>
      match s.queues k with
      | some _ => none
      | none =>
          if maxSize < sizeRange then
            some (.done, { s with
              queues := Function.update s.queues k
                (some ⟨⟨[], maxSize⟩, newGroups height k⟩) })
          else none
  | .copy t dst src =>
      match s.threads t, s.queues src with
      | .idle, some sh =>
          if dst = src then some (.done, s)
          else some (.done, { s with
            threads := Function.update s.threads t (.copied dst sh.q) })
      | _, _ => none
  | .assign t =>
      match s.threads t with
      | .copied dst copy => some (.assigned dst, s.assign height t dst copy)
      | _ => none
  | .call t k c =>
      match s.threads t, s.queues k with
      | .idle, some sh => if c.Fits then some (s.attempt t k (sh.enter c) c) else none
      | _, _ => none
  | .wake t =>
      match s.threads t with
      | .waiting k c _ => (s.queues k).map fun sh => s.attempt t k sh c
      | _ => none
  | .timeout t =>
      match s.threads t with
      | .waiting k c _ => if c.timed then (s.queues k).map fun sh => s.finish t k sh c else none
      | _ => none

/-- Threads and queues; the groups of `popBarrier` have fixed heights. -/
def system (T ι κ γ : Type) [DecidableEq ι] [DecidableEq κ] [DecidableEq γ]
    (height : κ → γ → Nat) :
    Machine (State T ι κ γ) (Action T ι κ γ) (Output T κ γ) where
  init := ⟨fun _ => none, fun _ => .idle⟩
  step := State.step height

abbrev History (T ι κ γ : Type) := List (Action T ι κ γ × Output T κ γ)

/-! ## What a step can be -/

/-- The thread is about to run a critical section of the call: it starts the call, and the queue
is as `enter` leaves it, or it is inside. -/
inductive Enters (s : State T ι κ γ) (t : ι) (k : κ) (c : Call T γ) : Shared T γ → Prop
  | call {sh : Shared T γ} (hq : s.queues k = some sh) (ht : s.threads t = .idle) (hc : c.Fits) :
      Enters s t k c (sh.enter c)
  | wake {sh : Shared T γ} {m : Bool} (hq : s.queues k = some sh)
      (ht : s.threads t = .waiting k c m) : Enters s t k c sh

/-- The transitions. -/
inductive Step (height : κ → γ → Nat) (s : State T ι κ γ) :
    Action T ι κ γ → Output T κ γ → State T ι κ γ → Prop
  | construct {k : κ} {maxSize : Nat} (hk : s.queues k = none) (hm : maxSize < sizeRange) :
      Step height s (.construct k maxSize) .done
        { s with queues := Function.update s.queues k (some ⟨⟨[], maxSize⟩, newGroups height k⟩) }
  | copySelf {t : ι} {k : κ} : Step height s (.copy t k k) .done s
  | copy {t : ι} {dst src : κ} {sh : Shared T γ} (hq : s.queues src = some sh) :
      Step height s (.copy t dst src) .done
        { s with threads := Function.update s.threads t (.copied dst sh.q) }
  | assign {t : ι} {dst : κ} {copy : Queue T} (ht : s.threads t = .copied dst copy) :
      Step height s (.assign t) (.assigned dst) (s.assign height t dst copy)
  | finish {a : Action T ι κ γ} {t : ι} {k : κ} {c : Call T γ} {sh : Shared T γ}
      (he : Enters s t k c sh) (hr : sh.ready c = true ∨ c.timed = true) :
      Step height s a (.returned k c (sh.body c).reply) (s.finish t k sh c).2
  | sleep {a : Action T ι κ γ} {t : ι} {k : κ} {c : Call T γ} {sh : Shared T γ}
      (he : Enters s t k c sh) (hr : sh.ready c = false) :
      Step height s a .asleep (s.sleep t k sh c)

variable {height : κ → γ → Nat} {s s' : State T ι κ γ} {a : Action T ι κ γ} {o : Output T κ γ}

theorem attempt_step (height : κ → γ → Nat) (a : Action T ι κ γ) {t : ι} {k : κ} {c : Call T γ}
    {sh : Shared T γ} (he : Enters s t k c sh) :
    Step height s a (s.attempt t k sh c).1 (s.attempt t k sh c).2 := by
  unfold State.attempt
  cases hr : sh.ready c with
  | true => exact .finish he (Or.inl hr)
  | false => exact .sleep he hr

/-- **A step is one of the transitions.** -/
theorem step_of_eq (h : (system T ι κ γ height).step s a = some (o, s')) :
    Step height s a o s' := by
  change s.step height a = some (o, s') at h
  cases a with
  | construct k maxSize =>
      cases hk : s.queues k with
      | some sh => simp [State.step, hk] at h
      | none =>
          simp only [State.step, hk] at h
          obtain ⟨hm, h⟩ := Option.ite_none_right_eq_some.mp h
          cases h
          exact .construct hk hm
  | copy t dst src =>
      simp only [State.step] at h
      split at h
      · next sh _ hq =>
          split at h
          · next heq =>
              cases h
              rw [heq]
              exact .copySelf
          · cases h
            exact .copy hq
      · cases h
  | assign t =>
      simp only [State.step] at h
      split at h
      · next dst copy ht =>
          cases h
          exact .assign ht
      · cases h
  | call t k c =>
      simp only [State.step] at h
      split at h
      · next sh ht hq =>
          obtain ⟨hc, h⟩ := Option.ite_none_right_eq_some.mp h
          have hstep := attempt_step height (.call t k c) (Enters.call hq ht hc)
          rwa [Option.some.inj h] at hstep
      · cases h
  | wake t =>
      simp only [State.step] at h
      split at h
      · next k c m ht =>
          obtain ⟨sh, hq, h⟩ := Option.map_eq_some_iff.mp h
          have hstep := attempt_step height (.wake t) (Enters.wake hq ht)
          rwa [h] at hstep
      · cases h
  | timeout t =>
      simp only [State.step] at h
      split at h
      · next k c m ht =>
          obtain ⟨hc, h⟩ := Option.ite_none_right_eq_some.mp h
          obtain ⟨sh, hq, h⟩ := Option.map_eq_some_iff.mp h
          cases h
          exact .finish (Enters.wake hq ht) (Or.inr hc)
      · cases h

end Lunchbox.MTQueue.System
