import Lunchbox.MTQueue.System

set_option autoImplicit false

/-! # No queue exceeds its bound, and no wake-up is lost

One invariant of the system (`Safe`) for both: every queue, and every copy on its way into a
queue, has at most `_maxSize` elements; and the predicate of a thread that sleeps and has not been
notified since it tested it is false.
-/

namespace Lunchbox.MTQueue

variable {T γ : Type}

/-! ## The bound -/

/-- At most `_maxSize` elements, and `_maxSize` is a `size_t`. -/
structure Queue.Bounded (q : Queue T) : Prop where
  length_le : q.queue.length ≤ q.maxSize
  fits : q.maxSize < sizeRange

/-- Within the bound, a vector is admitted exactly if all its elements fit. -/
theorem Queue.Bounded.admits_iff {q : Queue T} (h : q.Bounded) (n : Nat) :
    subSize q.maxSize q.queue.length ≥ n ↔ q.queue.length + n ≤ q.maxSize := by
  have hle := h.length_le
  rw [subSize_of_le hle h.fits]
  omega

theorem Queue.Bounded.push {q : Queue T} (h : q.Bounded) {p : Push T} (hp : q.canPush p = true) :
    (q.push p).Bounded := by
  refine ⟨?_, by cases p <;> exact h.fits⟩
  have hfits : q.queue.length + p.elements.length ≤ q.maxSize := by
    cases p with
    | push x | pushFront x => exact of_decide_eq_true hp
    | pushAll xs | pushFrontAll xs => exact (h.admits_iff xs.length).mp (of_decide_eq_true hp)
  have hmax : (q.push p).maxSize = q.maxSize := by cases p <;> rfl
  rw [hmax, (q.push_perm p).length_eq, List.length_append]
  exact hfits

variable [DecidableEq γ]

/-- **A body that runs when its predicate holds keeps the bound.** -/
theorem body_bounded {sh : Shared T γ} {c : Call T γ} (h : sh.q.Bounded) (hf : c.Fits)
    (hr : sh.ready c = true ∨ c.timed = true) : (sh.body c).next.q.Bounded := by
  by_cases hp : ∃ p, c = .push p
  · obtain ⟨p, rfl⟩ := hp
    exact h.push (hr.resolve_right (by simp [Call.timed]))
  by_cases hm : ∃ m, c = .setMaxSize m
  · obtain ⟨m, rfl⟩ := hm
    exact ⟨of_decide_eq_true (hr.resolve_right (by simp [Call.timed])), hf⟩
  by_cases hc : c = .clear
  · subst hc
    exact ⟨Nat.zero_le _, h.fits⟩
  -- all other bodies only take elements
  obtain ⟨n, -, hq⟩ := body_takes sh (fun p he => hp ⟨p, he⟩) hc
  have hmax := body_maxSize sh fun m he => hm ⟨m, he⟩
  refine ⟨?_, hmax ▸ h.fits⟩
  have hle := h.length_le
  rw [hq, hmax, List.length_drop]
  omega

/-! ## Predicates -/

/-- `++waiting_` does not make another predicate true, unless it makes that of the caller true:
only callers of the same group see it, and they wait for the same. -/
theorem ready_enter {sh : Shared T γ} {c c' : Call T γ} (h : sh.ready c' = false)
    (hc : (sh.enter c).ready c = false) : (sh.enter c).ready c' = false := by
  cases c with
  | popBarrier g =>
      cases c' with
      | popBarrier g' =>
          by_cases hg : g' = g
          · rw [hg]
            exact hc
          · simp only [Shared.enter, Shared.ready, Function.update_of_ne hg]
            exact h
      | push | pop | timedPop | timedPopRange | tryPop | tryPopRange | index | waitSize
      | setMaxSize | clear | getFront | getBack => exact h
  | push | pop | timedPop | timedPopRange | tryPop | tryPopRange | index | waitSize | setMaxSize
  | clear | getFront | getBack => exact h

/-- A call that changes something before it waits notifies when it returns. -/
theorem enter_of_quiet {sh : Shared T γ} {c : Call T γ}
    (h : ((sh.enter c).body c).notify = false) : sh.enter c = sh := by
  cases c with
  | popBarrier g =>
      simp only [Shared.body, Queue.popBarrier] at h
      cases hq : (sh.enter (.popBarrier g)).q.queue with
      | nil | cons =>
          rw [hq] at h
          cases h
  | push | pop | timedPop | timedPopRange | tryPop | tryPopRange | index | waitSize | setMaxSize
  | clear | getFront | getBack => rfl

namespace System

open StateMachine

variable {ι κ : Type}

/-! ## The invariant -/

structure Safe (s : State T ι κ γ) : Prop where
  bounded : ∀ k sh, s.queues k = some sh → sh.q.Bounded
  copied : ∀ t dst copy, s.threads t = .copied dst copy → copy.Bounded
  fits : ∀ t k c m, s.threads t = .waiting k c m → c.Fits
  blocked : ∀ t k c, s.threads t = .waiting k c false →
    ∃ sh, s.queues k = some sh ∧ sh.ready c = false

variable {height : κ → γ → Nat} {s s' : State T ι κ γ} {a : Action T ι κ γ} {o : Output T κ γ}
  {t : ι} {k : κ} {c : Call T γ} {sh : Shared T γ}

theorem Enters.bounded (h : Safe s) (he : Enters s t k c sh) : sh.q.Bounded := by
  cases he with
  | call hq =>
      rw [enter_q]
      exact h.bounded k _ hq
  | wake hq => exact h.bounded k _ hq

theorem Enters.fits (h : Safe s) (he : Enters s t k c sh) : c.Fits := by
  cases he with
  | call _ _ hc => exact hc
  | wake _ ht => exact h.fits t k c _ ht

/-- A thread that was blocked on the queue stays so if the caller sleeps or does not notify. -/
theorem Enters.blocked (he : Enters s t k c sh)
    (hr : sh.ready c = false ∨ (sh.body c).notify = false) {c' : Call T γ}
    (hb : ∃ sh, s.queues k = some sh ∧ sh.ready c' = false) : sh.ready c' = false := by
  obtain ⟨sh0, hq0, hb⟩ := hb
  cases he with
  | call hq =>
      cases hq0.symm.trans hq
      rcases hr with hr | hr
      · exact ready_enter hb hr
      · rw [enter_of_quiet hr]
        exact hb
  | wake hq =>
      cases hq0.symm.trans hq
      exact hb

variable [DecidableEq ι] [DecidableEq κ]

theorem safe_init : Safe (system T ι κ γ height).init where
  bounded _ _ h := by cases h
  copied _ _ _ h := by cases h
  fits _ _ _ _ h := by cases h
  blocked _ _ _ h := by cases h

theorem Safe.finish (h : Safe s) (he : Enters s t k c sh)
    (hr : sh.ready c = true ∨ c.timed = true) : Safe (s.finish t k sh c).2 := by
  refine ⟨?_, ?_, ?_, ?_⟩
  · intro k' sh' hq
    rcases update_cases hq with ⟨-, hq⟩ | ⟨-, hq⟩
    · cases hq
      exact body_bounded (he.bounded h) (he.fits h) hr
    · exact h.bounded k' sh' hq
  · intro u dst copy hu
    exact h.copied u dst copy (others_copied hu)
  · intro u k' c' m hu
    obtain ⟨m', hu, -⟩ := others_waiting hu
    exact h.fits u k' c' m' hu
  · intro u k' c' hu
    obtain ⟨m', hu, hm⟩ := others_waiting hu
    obtain ⟨rfl, hk⟩ := hm rfl
    have hb := h.blocked u k' c' hu
    by_cases hkk : k' = k
    · -- the body did not notify, so the queue is as it was
      subst hkk
      have hn : (sh.body c).notify = false := by
        by_contra hn
        exact hk (Bool.eq_true_of_not_eq_false hn) rfl
      refine ⟨sh, ?_, he.blocked (Or.inr hn) hb⟩
      show Function.update s.queues k' (some (sh.body c).next) k' = some sh
      rw [Function.update_self, body_quiet hn]
    · obtain ⟨sh', hq, hb⟩ := hb
      exact ⟨sh', (Function.update_of_ne hkk _ _).trans hq, hb⟩

theorem Safe.sleep (h : Safe s) (he : Enters s t k c sh) (hr : sh.ready c = false) :
    Safe (s.sleep t k sh c) := by
  refine ⟨?_, ?_, ?_, ?_⟩
  · intro k' sh' hq
    rcases update_cases hq with ⟨-, hq⟩ | ⟨-, hq⟩
    · cases hq
      exact he.bounded h
    · exact h.bounded k' sh' hq
  · intro u dst copy hu
    exact h.copied u dst copy (of_update hu (by simp))
  · intro u k' c' m hu
    rcases update_cases hu with ⟨-, hu⟩ | ⟨-, hu⟩
    · cases hu
      exact he.fits h
    · exact h.fits u k' c' m hu
  · intro u k' c' hu
    rcases update_cases hu with ⟨-, hu⟩ | ⟨-, hu⟩
    · cases hu
      exact ⟨sh, Function.update_self .., hr⟩
    · have hb := h.blocked u k' c' hu
      by_cases hkk : k' = k
      · subst hkk
        exact ⟨sh, Function.update_self .., he.blocked (Or.inl hr) hb⟩
      · obtain ⟨sh', hq, hb⟩ := hb
        exact ⟨sh', (Function.update_of_ne hkk _ _).trans hq, hb⟩

omit [DecidableEq γ] in
theorem Safe.assign (h : Safe s) {dst : κ} {copy : Queue T}
    (ht : s.threads t = .copied dst copy) : Safe (s.assign height t dst copy) := by
  refine ⟨?_, ?_, ?_, ?_⟩
  · intro k' sh' hq
    rcases update_cases hq with ⟨-, hq⟩ | ⟨-, hq⟩
    · cases hq
      exact h.copied t dst copy ht
    · exact h.bounded k' sh' hq
  · intro u dst' copy' hu
    exact h.copied u dst' copy' (others_copied hu)
  · intro u k' c' m hu
    obtain ⟨m', hu, -⟩ := others_waiting hu
    exact h.fits u k' c' m' hu
  · intro u k' c' hu
    -- everybody who sleeps on the queue that was assigned is notified
    obtain ⟨m', hu, hm⟩ := others_waiting hu
    obtain ⟨rfl, hk⟩ := hm rfl
    obtain ⟨sh', hq, hb⟩ := h.blocked u k' c' hu
    exact ⟨sh', (Function.update_of_ne (hk rfl) _ _).trans hq, hb⟩

/-- **One step keeps the system safe.** -/
theorem safe_step (h : Safe s) (hs : Step height s a o s') : Safe s' := by
  cases hs with
  | @construct k maxSize hk hm =>
      refine ⟨?_, h.copied, h.fits, ?_⟩
      · intro k' sh' hq
        rcases update_cases hq with ⟨-, hq⟩ | ⟨-, hq⟩
        · cases hq
          exact ⟨Nat.zero_le _, hm⟩
        · exact h.bounded k' sh' hq
      · intro u k' c' hu
        obtain ⟨sh', hq, hb⟩ := h.blocked u k' c' hu
        have hkk : k' ≠ k := by
          rintro rfl
          rw [hk] at hq
          cases hq
        exact ⟨sh', (Function.update_of_ne hkk _ _).trans hq, hb⟩
  | copySelf => exact h
  | copy hq =>
      refine ⟨h.bounded, ?_, ?_, ?_⟩
      · intro u dst' copy' hu
        rcases update_cases hu with ⟨-, hu⟩ | ⟨-, hu⟩
        · cases hu
          exact h.bounded _ _ hq
        · exact h.copied u dst' copy' hu
      · intro u k' c' m hu
        exact h.fits u k' c' m (of_update hu (by simp))
      · intro u k' c' hu
        exact h.blocked u k' c' (of_update hu (by simp))
  | assign ht => exact h.assign ht
  | finish he hr => exact h.finish he hr
  | sleep he hr => exact h.sleep he hr

theorem safe_of_trace {tr : History T ι κ γ} (h : (system T ι κ γ height).Trace tr s) : Safe s :=
  h.stateInv Safe safe_init fun _ _ _ _ hsafe hs => safe_step hsafe (step_of_eq hs)

/-- **No queue exceeds its bound.** For any number of threads and queues and every interleaving:
a queue has at most `_maxSize` elements, so `_maxSize - _queue.size()` does not wrap, and a
vector is admitted only if all its elements fit. -/
theorem queue_within_bound {tr : History T ι κ γ} (h : (system T ι κ γ height).Trace tr s)
    (hq : s.queues k = some sh) :
    sh.q.queue.length ≤ sh.q.maxSize ∧
    subSize sh.q.maxSize sh.q.queue.length = sh.q.maxSize - sh.q.queue.length ∧
    ∀ xs, (sh.ready (.push (.pushAll xs)) = true ↔ sh.q.queue.length + xs.length ≤ sh.q.maxSize) ∧
      (sh.ready (.push (.pushFrontAll xs)) = true ↔
        sh.q.queue.length + xs.length ≤ sh.q.maxSize) := by
  have hb := (safe_of_trace h).bounded k sh hq
  refine ⟨hb.length_le, subSize_of_le hb.length_le hb.fits, ?_⟩
  intro xs
  have hiff := hb.admits_iff xs.length
  exact ⟨decide_eq_true_iff.trans hiff, decide_eq_true_iff.trans hiff⟩

/-- A full queue is copied to another one, and a vector has to wait there. -/
def copiedHistory : History Nat (Fin 2) (Fin 2) Unit :=
  let i : Fin 2 := ⟨0, Nat.two_pos⟩
  let j : Fin 2 := ⟨1, Nat.one_lt_two⟩
  [(.construct i 3, .done),
    (.call i i (.push (.pushAll [1, 2])), .returned i (.push (.pushAll [1, 2])) .done),
    (.call j i (.setMaxSize 2), .returned i (.setMaxSize 2) .done), (.copy i j i, .done),
    (.call j i .pop, .returned i .pop (.popped [1])), (.assign i, .assigned j),
    (.call i j (.push (.pushAll [5])), .asleep)]

theorem queue_within_bound_copy :
    ∃ s sh, (system Nat (Fin 2) (Fin 2) Unit fun _ _ => 1).Trace copiedHistory s ∧
      s.queues 1 = some sh ∧ sh.q.queue.length ≤ sh.q.maxSize ∧
      (sh.ready (.push (.pushAll [5])) = true ↔ sh.q.queue.length + 1 ≤ sh.q.maxSize) := by
  have h : (system Nat (Fin 2) (Fin 2) Unit fun _ _ => 1).Trace copiedHistory _ :=
    Machine.Trace.of_run (copiedHistory.map Prod.fst) rfl
  have hq := queue_within_bound h (k := 1) rfl
  exact ⟨_, _, h, rfl, hq.1, (hq.2.2 [5]).1⟩

/-- **No wake-up is lost.** A thread that sleeps in a call and has not been notified since it
tested its predicate waits for something that is not the case. -/
theorem blocked_until_notified {tr : History T ι κ γ} (h : (system T ι κ γ height).Trace tr s)
    (ht : s.threads t = .waiting k c false) :
    ∃ sh, s.queues k = some sh ∧ sh.ready c = false :=
  (safe_of_trace h).blocked t k c ht

/-- A thread waits at the barrier of two and another one for an element; the second one is woken
by a push and takes the element. -/
def blockedHistory : History Nat (Fin 3) Unit Unit :=
  [(.construct () 3, .done), (.call 0 () (.popBarrier ()), .asleep), (.call 1 () .pop, .asleep),
    (.call 2 () (.push (.push 7)), .returned () (.push (.push 7)) .done),
    (.wake 1, .returned () .pop (.popped [7])), (.wake 0, .asleep)]

theorem blocked_until_notified_barrier :
    ∃ s, (system Nat (Fin 3) Unit Unit fun _ _ => 2).Trace blockedHistory s ∧
      ∃ sh, s.queues () = some sh ∧ sh.ready (.popBarrier ()) = false := by
  have h : (system Nat (Fin 3) Unit Unit fun _ _ => 2).Trace blockedHistory _ :=
    Machine.Trace.of_run (blockedHistory.map Prod.fst) rfl
  exact ⟨_, h, blocked_until_notified h (t := 0) rfl⟩

end System

end Lunchbox.MTQueue
