import Lunchbox.Monitor.Atomic

set_option autoImplicit false

/-! # Waits on monitors return

A change notifies every sleeper before it unlocks the mutex, so a thread that still sleeps
unnotified sleeps for a good reason: whenever the mutex is free, its predicate is false
(`Sound.asleep_false`). Hence a wait returns as soon as its thread is left to run with the mutex
free, if and only if its predicate holds then.
-/

namespace Lunchbox.Monitor

open StateMachine

variable {T ι κ : Type} [LinearOrder T]

/-! ## No wake-up is lost -/

/-- A sleeper that was not notified has a false predicate, or a change is about to notify it. -/
def Sound (s : State T ι κ) : Prop :=
  ∀ t k p timed, s.pc t = .asleep k p timed false →
    p.holds (s.value k) = false ∨ ∃ u r, s.pc u = .stored k r

theorem Sound.asleep_false {s : State T ι κ} (h : Sound s) (hI : Inv s) {t : ι} {k : κ} {p : Test T}
    {timed : Bool} (ht : s.pc t = .asleep k p timed false) (hfree : s.owner k = none) :
    p.holds (s.value k) = false := by
  refine (h t k p timed ht).resolve_right ?_
  rintro ⟨u, r, hu⟩
  have ho := (hI.owner u k).mp (by rw [hu]; rfl)
  rw [hfree] at ho
  cases ho

theorem of_evaluate_asleep {value : κ → T} {k k' : κ} {p p' : Test T} {timed timed' marked : Bool}
    (h : (evaluate value k p timed).2 = .asleep k' p' timed' marked) :
    p'.holds (value k') = false ∧ (evaluate value k p timed).1 = .unlock k := by
  unfold evaluate at h ⊢
  split at h
  next => cases timed <;> cases h
  next hp => cases h; simp [hp]

/-- A thread falls asleep when it has found its predicate false. -/
theorem of_next_asleep {O : Operators T} {value : κ → T} {pc : Pc T κ}
    {r : Output T κ × Access T κ × Pc T κ} (h : pc.next O value = some r) {k : κ} {p : Test T}
    {timed marked : Bool} (hr : r.2.2 = .asleep k p timed marked) :
    p.holds (value k) = false ∧ ∃ k', r.2.1 = .unlock k' := by
  revert h
  fun_cases Pc.next O value pc <;> intro h <;> cases h <;>
    first | cases hr | exact ⟨(of_evaluate_asleep hr).1, _, (of_evaluate_asleep hr).2⟩

/-- A thread that has stored a value notifies next. -/
theorem of_next_store {O : Operators T} {value : κ → T} {pc : Pc T κ}
    {r : Output T κ × Access T κ × Pc T κ} (h : pc.next O value = some r) {k : κ} {v : T}
    (hr : r.2.1 = .store k v) : ∃ r', r.2.2 = .stored k r' := by
  revert h
  fun_cases Pc.next O value pc <;> intro h <;> cases h <;>
    first
      | (cases hr; done)
      | (cases hr; exact ⟨_, rfl⟩)
      | (simp only [evaluate] at hr; split at hr <;> cases hr)

variable [DecidableEq κ]

omit [LinearOrder T] in
/-- The marks of sleepers are what an access may change of the places, by a `notify_all`. -/
theorem of_perform_asleep {s s₁ : State T ι κ} {t u : ι} {access : Access T κ} {k : κ} {p : Test T}
    {timed : Bool} (h : s.perform t access = some s₁) (hu : s₁.pc u = .asleep k p timed false) :
    s.pc u = .asleep k p timed false ∧ access ≠ .notify k := by
  cases access with
  | none | unlock | store => cases h; exact ⟨hu, by simp⟩
  | lock =>
      obtain ⟨-, h⟩ := Option.ite_none_right_eq_some.mp h
      cases h
      exact ⟨hu, by simp⟩
  | notify k' =>
      cases h
      replace hu : (s.pc u).notified k' = _ := hu
      cases hpc : s.pc u with
      | asleep k₀ p₀ timed₀ marked₀ =>
          rw [hpc] at hu
          simp only [Pc.notified, Pc.asleep.injEq, Bool.or_eq_false_iff, decide_eq_false_iff_not]
            at hu
          obtain ⟨rfl, rfl, rfl, rfl, hk⟩ := hu
          exact ⟨rfl, fun he => hk (Access.notify.inj he).symm⟩
      | _ => rw [hpc] at hu; cases hu

omit [LinearOrder T] in
theorem perform_stored {s s₁ : State T ι κ} {t u : ι} {access : Access T κ} {k : κ} {r : Reply T}
    (h : s.perform t access = some s₁) (hu : s.pc u = .stored k r) : s₁.pc u = .stored k r := by
  cases access with
  | none | unlock | store => cases h; exact hu
  | lock =>
      obtain ⟨-, h⟩ := Option.ite_none_right_eq_some.mp h
      cases h
      exact hu
  | notify =>
      cases h
      show (s.pc u).notified _ = _
      rw [hu]
      rfl

variable [DecidableEq ι]

/-- **The next step of a thread.** -/
theorem Sound.next {O : Operators T} {s s₁ : State T ι κ} (hS : Sound s) {t : ι}
    {r : Output T κ × Access T κ × Pc T κ} (hn : (s.pc t).next O s.value = some r)
    (hp : s.perform t r.2.1 = some s₁) : Sound (s₁.goto t r.2.2) := by
  intro u k p timed hu
  rw [goto_value, perform_values hp]
  rcases eq_or_ne u t with rfl | hne
  · rw [goto_pc_self] at hu
    obtain ⟨hf, k', hk'⟩ := of_next_asleep hn hu
    rw [hk']
    exact Or.inl hf
  · rw [goto_pc_of_ne _ _ hne] at hu
    obtain ⟨hu, hnot⟩ := of_perform_asleep hp hu
    -- the change that is about to notify the sleeper is not this thread: it would notify now
    have hother : (∃ w r', s.pc w = .stored k r') →
        ∃ w r', (s₁.goto t r.2.2).pc w = .stored k r' := by
      rintro ⟨w, r', hw⟩
      rcases eq_or_ne w t with rfl | hwt
      · rw [hw] at hn
        cases hn
        exact absurd rfl hnot
      · exact ⟨w, r', by rw [goto_pc_of_ne _ _ hwt, perform_stored hp hw]⟩
    cases hacc : r.2.1 with
    | store k' v =>
        rcases eq_or_ne k' k with rfl | hk
        · obtain ⟨r', hr'⟩ := of_next_store hn hacc
          exact Or.inr ⟨t, r', by rw [goto_pc_self, hr']⟩
        · refine (hS u k p timed hu).imp (fun hf => ?_) hother
          rwa [Access.values, Function.update_of_ne hk.symm]
    | none | lock | unlock | notify => exact (hS u k p timed hu).imp_right hother

omit [DecidableEq κ] in
/-- A thread that has not stored a value moves to a place where it does not sleep. -/
theorem Sound.goto {s : State T ι κ} (hS : Sound s) {t : ι} {pc : Pc T κ}
    (ht : (s.pc t).holder = none) (hpc : ∀ k p timed, pc ≠ .asleep k p timed false) :
    Sound (s.goto t pc) := by
  intro u k p timed hu
  rcases eq_or_ne u t with rfl | hne
  · rw [goto_pc_self] at hu
    exact absurd hu (hpc k p timed)
  · rw [goto_pc_of_ne _ _ hne] at hu
    refine (hS u k p timed hu).imp_right ?_
    rintro ⟨w, r, hw⟩
    have hwt : w ≠ t := by
      rintro rfl
      rw [hw] at ht
      cases ht
    exact ⟨w, r, by rw [goto_pc_of_ne _ _ hwt, hw]⟩

theorem sound_of_trace {O : Operators T} {init : κ → T} {tr : List (Action T ι κ × Output T κ)}
    {s : State T ι κ} (h : (monitors O init).Trace tr s) : Sound s := by
  refine h.stateInv Sound (by intro t k p timed ht; cases ht) ?_
  intro s a out s' hS hs
  cases a with
  | step t =>
      obtain ⟨r, s₁, hn, hp, -, rfl⟩ := of_advance hs
      exact hS.next hn hp
  | call t k op | assign t k src | spurious t | timeout t =>
      simp only [monitors, State.step] at hs
      split at hs
      next hpc =>
        cases hs
        exact hS.goto (by rw [hpc]; rfl) (by simp)
      next => cases hs

/-! ## A thread alone -/

/-- What the call of the thread returns within `n` steps if no other thread runs. -/
def State.alone (O : Operators T) (t : ι) : Nat → State T ι κ → Option (Reply T)
  | 0, _ => none
  | n + 1, s =>
      match s.advance O t with
      | none => none
      | some (.returned r, _) => some r
      | some (_, s') => s'.alone O t n

/-- What a wait returns when its predicate holds. -/
def waitReply (x : T) (timed : Bool) : Reply T := if timed then .flag true else .value x

/-- The call of the thread returns `r` if no other thread runs. -/
def State.Returns (O : Operators T) (s : State T ι κ) (t : ι) (r : Reply T) : Prop :=
  ∃ n, s.alone O t n = some r

section
variable {O : Operators T} {s s' : State T ι κ} {t : ι} {r r' : Reply T} {k : κ} {p : Test T}
  {timed : Bool}

theorem returns_of_silent (h : s.advance O t = some (.silent, s')) :
    s.Returns O t r ↔ s'.Returns O t r := by
  constructor
  · rintro ⟨n, hn⟩
    cases n with
    | zero => cases hn
    | succ n =>
        rw [State.alone, h] at hn
        exact ⟨n, hn⟩
  · rintro ⟨n, hn⟩
    refine ⟨n + 1, ?_⟩
    rw [State.alone, h]
    exact hn

theorem not_returns_of_none (h : s.advance O t = none) : ¬ s.Returns O t r := by
  rintro ⟨n, hn⟩
  cases n with
  | zero => cases hn
  | succ n =>
      rw [State.alone, h] at hn
      cases hn

/-- The next step of a thread that need not wait for a mutex. -/
theorem advance_of_next {out : Output T κ} {access : Access T κ} {pc : Pc T κ} {s₁ : State T ι κ}
    (h : (s.pc t).next O s.value = some (out, access, pc)) (hp : s.perform t access = some s₁) :
    s.advance O t = some (out, s₁.goto t pc) := by
  rw [State.advance, h]
  simp only [hp, Option.map_some]

omit [LinearOrder T] [DecidableEq ι] in
theorem perform_lock (h : s.owner k = none) :
    s.perform t (.lock k) = some { s with owner := Function.update s.owner k (some t) } :=
  if_pos h

theorem returns_at_returning (h : s.pc t = .returning r') : s.Returns O t r ↔ r = r' := by
  have hadv : s.advance O t = some (.returned r', s.goto t .idle) :=
    advance_of_next (by rw [h]; rfl) rfl
  constructor
  · rintro ⟨n, hn⟩
    cases n with
    | zero => cases hn
    | succ n =>
        rw [State.alone, hadv] at hn
        exact (Option.some.inj hn).symm
  · rintro rfl
    refine ⟨1, ?_⟩
    rw [State.alone, hadv]

theorem returns_at_leaving (h : s.pc t = .leaving k r') : s.Returns O t r ↔ r = r' := by
  rw [returns_of_silent (advance_of_next (by rw [h]; rfl) rfl)]
  exact returns_at_returning (goto_pc_self ..)

theorem returns_at_passed (h : s.pc t = .passed k) :
    s.Returns O t r ↔ r = .value (s.value k) := by
  rw [returns_of_silent (advance_of_next (by rw [h]; rfl) rfl)]
  exact returns_at_leaving (goto_pc_self ..)

/-- A sleeper that was not notified does not return. -/
theorem not_returns_asleep (h : s.pc t = .asleep k p timed false) : ¬ s.Returns O t r := by
  refine not_returns_of_none ?_
  rw [State.advance, h]
  rfl

omit [DecidableEq κ] in
theorem next_locked_wait (timed : Bool) (value : κ → T) :
    (Pc.locked k (waitOp p timed)).next O value = some (.silent, evaluate value k p timed) := by
  cases timed <;> rfl

/-- The evaluation of the predicate. -/
theorem returns_at_locked (h : s.pc t = .locked k (waitOp p timed)) :
    s.Returns O t r ↔ p.holds (s.value k) = true ∧ r = waitReply (s.value k) timed := by
  have hnext := next_locked_wait (O := O) (k := k) (p := p) timed s.value
  rw [← h, evaluate] at hnext
  cases hp : p.holds (s.value k) with
  | true =>
      rw [if_pos hp] at hnext
      rw [returns_of_silent (advance_of_next hnext rfl)]
      cases timed with
      | false => simpa [waitReply] using returns_at_passed (goto_pc_self ..)
      | true => simpa [waitReply] using returns_at_leaving (goto_pc_self ..)
  | false =>
      rw [if_neg (by simp [hp])] at hnext
      rw [returns_of_silent (advance_of_next hnext rfl)]
      simpa using not_returns_asleep (goto_pc_self ..)

/-- A wait that has to lock the free mutex. -/
theorem returns_of_lock
    (h : (s.pc t).next O s.value = some (.silent, .lock k, .locked k (waitOp p timed)))
    (hfree : s.owner k = none) :
    s.Returns O t r ↔ p.holds (s.value k) = true ∧ r = waitReply (s.value k) timed := by
  rw [returns_of_silent (advance_of_next h (perform_lock hfree))]
  exact returns_at_locked (goto_pc_self ..)
end

/-- The monitor, the predicate and the kind of a wait, at the places before its evaluation. -/
def Pc.waits : Pc T κ → Option (κ × Test T × Bool)
  | .entering k (.wait p) => some (k, p, false)
  | .entering k (.timedWait p) => some (k, p, true)
  | .asleep k p timed _ | .woken k p timed => some (k, p, timed)
  | _ => none

/-- **A wait returns if and only if its predicate holds**, whenever the mutex is free and the
thread is left to run: no notification it needed was lost, and it does not return early. -/
theorem wait_returns_iff {O : Operators T} {init : κ → T} {tr : List (Action T ι κ × Output T κ)}
    {s : State T ι κ} (h : (monitors O init).Trace tr s) {t : ι} {k : κ} {p : Test T} {timed : Bool}
    (hw : (s.pc t).waits = some (k, p, timed)) (hfree : s.owner k = none) (r : Reply T) :
    s.Returns O t r ↔ p.holds (s.value k) = true ∧ r = waitReply (s.value k) timed := by
  cases hpc : s.pc t with
  | entering k' op =>
      rw [hpc] at hw
      cases op with
      | wait | timedWait =>
          cases hw
          exact returns_of_lock (by rw [hpc]; rfl) hfree
      | change | query | compareWith | get => cases hw
  | woken k' p' timed' =>
      rw [hpc] at hw
      cases hw
      exact returns_of_lock (by rw [hpc]; rfl) hfree
  | asleep k' p' timed' marked =>
      rw [hpc] at hw
      cases hw
      cases marked with
      | true =>
          have hadv := advance_of_next (s := s) (t := t) (O := O) (by rw [hpc]; rfl) rfl
          rw [returns_of_silent hadv]
          exact returns_of_lock (by rw [goto_pc_self]; rfl) hfree
      | false =>
          have hfalse := (sound_of_trace h).asleep_false (inv_of_trace h) hpc hfree
          simpa [hfalse] using not_returns_asleep hpc
  | _ => rw [hpc] at hw; cases hw

/-- A thread sleeps until `true` is set, and the mutex is free again. -/
theorem notified_waiter_returns :
    ∃ tr s, (monitors (ι := Bool) boolean fun _ : Unit => false).Trace tr s ∧
      (s.pc false).waits = some ((), .eq true, false) ∧ s.owner () = none ∧
      s.Returns boolean false (.value true) := by
  have h := Machine.Trace.of_run (M := monitors (ι := Bool) boolean fun _ : Unit => false)
    ([.call false () (.wait (.eq true)), .step false, .step false,
      .call true () (.change (.set true))] ++ List.replicate 5 (.step true)) rfl
  exact ⟨_, _, h, rfl, rfl, (wait_returns_iff h rfl rfl _).mpr ⟨rfl, rfl⟩⟩

end Lunchbox.Monitor
