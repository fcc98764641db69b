import Lunchbox.Lib.Machine
import Lunchbox.Lib.Count
import Lunchbox.MTQueue.Model

set_option autoImplicit false

/-! # `popBarrier` detects termination

`n` participants share one queue and one group of height `n`. Each pushes elements and calls
`popBarrier`, going on after a true and stopping after a false return. The mutex is held from
the locking to the return or to the next wait, so a step is one critical section: a push, the
entry into `popBarrier` up to the first evaluation of its predicate, or a wake-up with its
re-evaluation. A waiting participant may wake at any time, notified or not.
-/

namespace Lunchbox.MTQueue

open StateMachine

variable {T : Type} {n : Nat}

/-! ## The machine -/

/-- Where a participant is: outside the queue, inside `popBarrier`, or past a false return. -/
inductive Phase
  | working | waiting | finished
  deriving DecidableEq, Repr

structure State (T : Type) (n : Nat) where
  q : Queue T
  group : Group
  phase : Fin n → Phase

inductive Action (T : Type) (n : Nat)
  | push (t : Fin n) (p : Push T)
  | popBarrier (t : Fin n)
  | wake (t : Fin n)

/-- A push returned, a participant went to sleep, or `popBarrier` returned. -/
inductive Output (T : Type)
  | pushed
  | asleep
  | returned (r : BarrierResult T)

/-- Evaluate the predicate of `popBarrier` and, if it holds, run the body. -/
def State.attempt (s : State T n) (t : Fin n) : Output T × State T n :=
  if s.q.barrierReady s.group then
    match s.q.popBarrier s.group with
    | (.popped x, q, g) => (.returned (.popped x), ⟨q, g, Function.update s.phase t .working⟩)
    | (.reached b, q, g) => (.returned (.reached b), ⟨q, g, Function.update s.phase t .finished⟩)
  else (.asleep, { s with phase := Function.update s.phase t .waiting })

/-- `n` participants on an empty queue of the given maximum size. -/
def participants (T : Type) (n maxSize : Nat) :
    Machine (State T n) (Action T n) (Output T) where
  init := ⟨⟨[], maxSize⟩, ⟨n, 0⟩, fun _ => .working⟩
  step s a :=
    match a with
    | .push t p =>
        if s.phase t = .working ∧ s.q.canPush p then some (.pushed, { s with q := s.q.push p })
        else none
    | .popBarrier t =>
        if s.phase t = .working then some ({ s with group := s.group.arrive }.attempt t)
        else none
    | .wake t => if s.phase t = .waiting then some (s.attempt t) else none

/-! ## Pushed and popped elements -/

abbrev History (T : Type) (n : Nat) := List (Action T n × Output T)

def pushedStep (xs : List T) : Action T n × Output T → List T
  | (.push _ p, .pushed) => xs ++ p.elements
  | _ => xs

def poppedStep (xs : List T) : Action T n × Output T → List T
  | (_, .returned (.popped x)) => xs ++ [x]
  | _ => xs

/-- All elements ever pushed. -/
def pushed (tr : History T n) : List T := tr.foldl pushedStep []

/-- The elements returned by `popBarrier`, one for each true return. -/
def popped (tr : History T n) : List T := tr.foldl poppedStep []

/-- Some `popBarrier` has returned false. -/
def Reached (tr : History T n) : Prop := ∃ a b, (a, Output.returned (.reached b)) ∈ tr

@[simp] theorem pushed_snoc (tr : History T n) (e : Action T n × Output T) :
    pushed (tr ++ [e]) = pushedStep (pushed tr) e := by
  simp [pushed]

@[simp] theorem popped_snoc (tr : History T n) (e : Action T n × Output T) :
    popped (tr ++ [e]) = poppedStep (popped tr) e := by
  simp [popped]

theorem reached_snoc {tr : History T n} {e : Action T n × Output T}
    (h : Reached (tr ++ [e])) : Reached tr ∨ ∃ b, e.2 = .returned (.reached b) := by
  obtain ⟨a, b, hm⟩ := h
  rcases List.mem_append.mp hm with hm | hm
  · exact Or.inl ⟨a, b, hm⟩
  · rw [List.mem_singleton] at hm
    exact Or.inr ⟨b, by rw [← hm]⟩

/-! ## The invariant -/

/-- The number of participants inside `popBarrier` or past a false return. -/
def arrived (phase : Fin n → Phase) : Nat := countWhere (· ≠ .working) phase

structure Inv (tr : History T n) (s : State T n) : Prop where
  height : s.group.height = n
  waiting : s.group.waiting = arrived s.phase
  conserved : (popped tr ++ s.q.queue).Perm (pushed tr)
  final : ∀ t, s.phase t = .finished → s.q.queue = [] ∧ ∀ u, s.phase u ≠ .working
  reached : Reached tr → ∃ t, s.phase t = .finished

theorem arrived_le (phase : Fin n → Phase) : arrived phase ≤ n := by
  have := countWhere_le (· ≠ Phase.working) phase
  rwa [Fintype.card_fin] at this

/-- Everybody has arrived exactly if nobody works. -/
theorem arrived_eq_iff (phase : Fin n → Phase) : arrived phase = n ↔ ∀ t, phase t ≠ .working := by
  have := countWhere_eq_card_iff (· ≠ Phase.working) phase
  rwa [Fintype.card_fin] at this

theorem arrived_enter {phase : Fin n → Phase} {t : Fin n} (h : phase t = .working) :
    arrived (Function.update phase t .waiting) = arrived phase + 1 := by
  have := countWhere_update (· ≠ Phase.working) phase t .waiting
  simpa [h, arrived] using this

theorem arrived_leave (phase : Fin n → Phase) (t : Fin n) :
    arrived (Function.update phase t .waiting)
      = arrived (Function.update phase t .working) + 1 := by
  have h1 := countWhere_update (· ≠ Phase.working) phase t .waiting
  have h2 := countWhere_update (· ≠ Phase.working) phase t .working
  simp only [ne_eq, reduceCtorEq, not_false_eq_true, if_true, not_true_eq_false, if_false] at h1 h2
  simp only [arrived, ne_eq]
  omega

theorem arrived_finish (phase : Fin n → Phase) (t : Fin n) :
    arrived (Function.update phase t .finished) = arrived (Function.update phase t .waiting) := by
  have h1 := countWhere_update (· ≠ Phase.working) phase t .waiting
  have h2 := countWhere_update (· ≠ Phase.working) phase t .finished
  simp only [ne_eq, reduceCtorEq, not_false_eq_true, if_true] at h1 h2
  simp only [arrived, ne_eq]
  omega

/-- What evaluating the predicate of `popBarrier` can do, for a participant counted in
`waiting_`: take an element, find the queue empty with everybody arrived, or sleep. -/
theorem attempt_cases {s s' : State T n} {t : Fin n} {o : Output T} (hn : n < sizeRange)
    (hh : s.group.height = n)
    (hw : s.group.waiting = arrived (Function.update s.phase t .waiting))
    (hs : s.attempt t = (o, s')) :
    (∃ x xs, s.q.queue = x :: xs ∧ o = .returned (.popped x) ∧ s'.q.queue = xs ∧
      s'.group.height = n ∧ s'.phase = Function.update s.phase t .working ∧
      s'.group.waiting = arrived s'.phase) ∨
    (s.q.queue = [] ∧ (∀ u, u ≠ t → s.phase u ≠ .working) ∧ o = .returned (.reached true) ∧
      s' = { s with phase := Function.update s.phase t .finished }) ∨
    (s.q.queue = [] ∧ o = .asleep ∧
      s' = { s with phase := Function.update s.phase t .waiting }) := by
  have hle := arrived_le (Function.update s.phase t .waiting)
  unfold State.attempt Queue.barrierReady at hs
  cases hq : s.q.queue with
  | cons x xs =>
      simp only [hq, List.isEmpty_cons, Bool.not_false, Bool.true_or, if_true, Queue.popBarrier,
        Prod.mk.injEq] at hs
      obtain ⟨rfl, rfl⟩ := hs
      refine Or.inl ⟨x, xs, rfl, rfl, rfl, hh, rfl, ?_⟩
      have hleave := arrived_leave s.phase t
      show subSize s.group.waiting 1 = arrived (Function.update s.phase t .working)
      rw [subSize_of_le (by omega) (by omega)]
      omega
  | nil =>
      by_cases hr : s.group.waiting ≥ s.group.height
      · simp only [hq, hr, List.isEmpty_nil, Bool.not_true, decide_true, Bool.or_true, if_true,
          Queue.popBarrier, Prod.mk.injEq] at hs
        obtain ⟨rfl, rfl⟩ := hs
        -- `waiting_` cannot exceed the number of participants
        have hall : arrived (Function.update s.phase t .waiting) = n := by omega
        have hev : s.group.waiting = s.group.height := by omega
        refine Or.inr (Or.inl ⟨rfl, ?_, by simp [hev], rfl⟩)
        intro u hu
        have := (arrived_eq_iff _).mp hall u
        rwa [Function.update_of_ne hu] at this
      · simp only [hq, hr, List.isEmpty_nil, Bool.not_true, decide_false, Bool.or_false,
          Bool.false_eq_true, if_false, Prod.mk.injEq] at hs
        obtain ⟨rfl, rfl⟩ := hs
        exact Or.inr (Or.inr ⟨rfl, rfl, rfl⟩)

theorem inv_init (maxSize : Nat) : Inv [] (participants T n maxSize).init := by
  refine ⟨rfl, ?_, List.Perm.refl _, ?_, ?_⟩
  · show 0 = arrived fun _ => Phase.working
    simp [arrived, countWhere]
  · intro t ht
    cases ht
  · rintro ⟨a, b, hm⟩
    cases hm

/-- If nobody but `t` works, and `t` does not either, nobody does. -/
theorem nobody_works {phase : Fin n → Phase} {t : Fin n} {p : Phase} (hp : p ≠ .working)
    (h : ∀ u, u ≠ t → phase u ≠ .working) (u : Fin n) :
    Function.update phase t p u ≠ .working := by
  intro hu
  rcases update_cases hu with ⟨-, hwork⟩ | ⟨hne, hwork⟩
  · exact hp hwork.symm
  · exact h u hne hwork

/-- Evaluating the predicate keeps the invariant. A finished participant excludes one that is
just entering, so a participant that finds an element is not past the end. -/
theorem inv_attempt {tr : History T n} {s s' : State T n} {t : Fin n} {a : Action T n}
    {o : Output T} (hn : n < sizeRange) (hh : s.group.height = n)
    (hw : s.group.waiting = arrived (Function.update s.phase t .waiting))
    (hp : (popped tr ++ s.q.queue).Perm (pushed tr))
    (hf : ∀ u, s.phase u = .finished →
      u ≠ t ∧ s.q.queue = [] ∧ ∀ v, v ≠ t → s.phase v ≠ .working)
    (hr : Reached tr → ∃ u, s.phase u = .finished) (hs : s.attempt t = (o, s')) :
    Inv (tr ++ [(a, o)]) s' := by
  have hpush : pushed (tr ++ [(a, o)]) = pushed tr := by
    cases o with
    | pushed =>
        rcases attempt_cases hn hh hw hs with ⟨_, _, _, ho, _⟩ | ⟨_, _, ho, _⟩ | ⟨_, ho, _⟩ <;>
          cases ho
    | asleep => cases a <;> simp [pushedStep]
    | returned r => cases a <;> simp [pushedStep]
  rcases attempt_cases hn hh hw hs with ⟨x, xs, hq, rfl, hq', hh', hph, hw'⟩ |
    ⟨hq, hall, rfl, rfl⟩ | ⟨hq, rfl, rfl⟩
  · -- an element is taken: nobody has finished, since the queue was not empty
    have hnone : ∀ u, s.phase u ≠ .finished := by
      intro u hu
      have := (hf u hu).2.1
      rw [hq] at this
      cases this
    refine ⟨hh', hw', ?_, ?_, ?_⟩
    · rw [hpush, popped_snoc, hq']
      simpa [poppedStep, hq] using hp
    · intro u hu
      rw [hph] at hu
      exact absurd (of_update hu (by decide)) (hnone u)
    · intro hre
      rcases reached_snoc hre with hre | ⟨b, hb⟩
      · obtain ⟨u, hu⟩ := hr hre
        exact absurd hu (hnone u)
      · cases hb
  · -- the barrier is reached: everybody else is waiting or has finished
    refine ⟨hh, ?_, ?_, ?_, fun _ => ⟨t, Function.update_self ..⟩⟩
    · show s.group.waiting = arrived (Function.update s.phase t .finished)
      rw [hw, arrived_finish]
    · rw [hpush, popped_snoc]
      exact hp
    · intro u _
      exact ⟨hq, nobody_works (by decide) hall⟩
  · -- the participant sleeps: it stays counted, and those who finished stay finished
    refine ⟨hh, hw, ?_, ?_, ?_⟩
    · rw [hpush, popped_snoc]
      exact hp
    · intro u hu
      obtain ⟨-, hq, hall⟩ := hf u (of_update hu (by decide))
      exact ⟨hq, nobody_works (by decide) hall⟩
    · intro hre
      rcases reached_snoc hre with hre | ⟨b, hb⟩
      · obtain ⟨u, hu⟩ := hr hre
        refine ⟨u, ?_⟩
        show Function.update s.phase t .waiting u = .finished
        rw [Function.update_of_ne (hf u hu).1, hu]
      · cases hb

/-- What a step can be: a push by a working participant, or an evaluation of the predicate by
one that has not finished and is counted in `waiting_`. -/
theorem step_cases {maxSize : Nat} {tr : History T n} {s s' : State T n} {a : Action T n}
    {o : Output T} (hn : n < sizeRange) (hi : Inv tr s)
    (hs : (participants T n maxSize).step s a = some (o, s')) :
    (∃ t p, a = .push t p ∧ s.phase t = .working ∧ o = .pushed ∧
      s' = { s with q := s.q.push p }) ∨
    ∃ t g, s.phase t ≠ .finished ∧ g.height = n ∧
      g.waiting = arrived (Function.update s.phase t .waiting) ∧
      State.attempt { s with group := g } t = (o, s') := by
  cases a with
  | push t p =>
      simp only [participants] at hs
      split at hs
      · rename_i hc
        simp only [Option.some.injEq, Prod.mk.injEq] at hs
        exact Or.inl ⟨t, p, rfl, hc.1, hs.1.symm, hs.2.symm⟩
      · cases hs
  | popBarrier t =>
      simp only [participants] at hs
      split at hs
      · rename_i hc
        have henter := arrived_enter hc
        have hle := arrived_le (Function.update s.phase t .waiting)
        refine Or.inr ⟨t, s.group.arrive, by rw [hc]; simp, hi.height, ?_, Option.some.inj hs⟩
        -- at most `n` participants have arrived, so `++waiting_` does not wrap
        show addSize s.group.waiting 1 = arrived (Function.update s.phase t .waiting)
        rw [hi.waiting, addSize_of_lt (by omega), henter]
      · cases hs
  | wake t =>
      simp only [participants] at hs
      split at hs
      · rename_i hc
        refine Or.inr ⟨t, s.group, by rw [hc]; simp, hi.height, ?_, Option.some.inj hs⟩
        rw [← hc, Function.update_eq_self]
        exact hi.waiting
      · cases hs

/-- **One step keeps the invariant.** -/
theorem inv_step {maxSize : Nat} {tr : History T n} {s s' : State T n} {a : Action T n}
    {o : Output T} (hn : n < sizeRange) (hi : Inv tr s)
    (hs : (participants T n maxSize).step s a = some (o, s')) : Inv (tr ++ [(a, o)]) s' := by
  rcases step_cases hn hi hs with ⟨t, p, rfl, hc, rfl, rfl⟩ | ⟨t, g, hc, hh, hw, hs⟩
  · -- a push comes from a working participant, so nobody has finished
    have hnone : ∀ u, s.phase u ≠ .finished := fun u hu => (hi.final u hu).2 t hc
    refine ⟨hi.height, hi.waiting, ?_, fun u hu => absurd hu (hnone u), ?_⟩
    · rw [pushed_snoc, popped_snoc]
      show (popped tr ++ (s.q.push p).queue).Perm (pushed tr ++ p.elements)
      calc (popped tr ++ (s.q.push p).queue).Perm (popped tr ++ (s.q.queue ++ p.elements)) :=
            (s.q.push_perm p).append_left _
        _ = (popped tr ++ s.q.queue) ++ p.elements := (List.append_assoc _ _ _).symm
        List.Perm _ (pushed tr ++ p.elements) := hi.conserved.append_right _
    · intro hre
      rcases reached_snoc hre with hre | ⟨b, hb⟩
      · exact hi.reached hre
      · cases hb
  · refine inv_attempt (s := { s with group := g }) hn hh hw hi.conserved ?_ hi.reached hs
    intro u hu
    obtain ⟨hq, hall⟩ := hi.final u hu
    refine ⟨?_, hq, fun v _ => hall v⟩
    rintro rfl
    exact hc hu

theorem inv_of_trace {maxSize : Nat} (hn : n < sizeRange) {tr : History T n} {s : State T n}
    (h : (participants T n maxSize).Trace tr s) : Inv tr s := by
  induction h with
  | nil => exact inv_init maxSize
  | snoc _ hs ih => exact inv_step hn ih hs

/-! ## Termination detection -/

/-- The arrived participants are those waiting and those past a false return. -/
theorem arrived_eq (phase : Fin n → Phase) :
    arrived phase = countWhere (· = .waiting) phase + countWhere (· = .finished) phase := by
  unfold arrived countWhere
  rw [← Finset.card_union_of_disjoint]
  · congr 1
    ext t
    cases h : phase t <;> simp [h]
  · rw [Finset.disjoint_filter]
    intro t _ hw hf
    rw [hw] at hf
    cases hf

/-- The assertion `waiting_ == height_` holds at every false return. -/
theorem assertion_holds {maxSize : Nat} {tr : History T n} {s s' : State T n} {a : Action T n}
    {b : Bool} (hn : n < sizeRange) (hi : Inv tr s)
    (hs : (participants T n maxSize).step s a = some (.returned (.reached b), s')) :
    b = true := by
  rcases step_cases hn hi hs with ⟨t, p, -, -, ho, -⟩ | ⟨t, g, -, hh, hw, hs⟩
  · cases ho
  · rcases attempt_cases hn hh hw hs with ⟨_, _, _, ho, _⟩ | ⟨_, _, ho, _⟩ | ⟨_, ho, _⟩
    · cases ho
    · cases ho
      rfl
    · cases ho

/-- Once somebody has finished, no step pushes or pops. -/
theorem quiet_of_finished {maxSize : Nat} {tr : History T n} {s s' : State T n}
    {a : Action T n} {o : Output T} {u : Fin n} (hn : n < sizeRange) (hi : Inv tr s)
    (hu : s.phase u = .finished)
    (hs : (participants T n maxSize).step s a = some (o, s')) :
    o ≠ .pushed ∧ ∀ x, o ≠ .returned (.popped x) := by
  obtain ⟨hempty, hall⟩ := hi.final u hu
  rcases step_cases hn hi hs with ⟨t, p, -, hc, -, -⟩ | ⟨t, g, -, hh, hw, hs⟩
  · exact absurd hc (hall t)
  · rcases attempt_cases hn hh hw hs with ⟨x, xs, hq, _⟩ | ⟨_, _, rfl, _⟩ | ⟨_, rfl, _⟩
    · -- there is no element to take
      rw [hempty] at hq
      cases hq
    · simp
    · simp

/-- **`popBarrier` is a sound termination detector.** After every interleaving of `n`
participants (`n` fits `size_t`): `waiting_` is the number of participants waiting plus those
past a false return, so the assertion at a false return holds; and once some `popBarrier` has
returned false, the queue is empty, every participant is inside `popBarrier` or past a false
return, every pushed element has been returned by exactly one `popBarrier`, and no later step
pushes an element or returns true. -/
theorem popBarrier_detects_termination {maxSize : Nat} (hn : n < 2 ^ 64) {tr : History T n}
    {s : State T n} (h : (participants T n maxSize).Trace tr s) :
    s.group.waiting
      = countWhere (· = .waiting) s.phase + countWhere (· = .finished) s.phase ∧
    (∀ a b s', (participants T n maxSize).step s a = some (.returned (.reached b), s') →
      b = true) ∧
    (Reached tr → s.q.queue = [] ∧ (∀ t, s.phase t = .waiting ∨ s.phase t = .finished) ∧
      (popped tr).Perm (pushed tr) ∧
      ∀ a o s', (participants T n maxSize).step s a = some (o, s') →
        o ≠ .pushed ∧ ∀ x, o ≠ .returned (.popped x)) := by
  have hi := inv_of_trace hn h
  refine ⟨by rw [hi.waiting, arrived_eq], fun a b s' hs => assertion_holds hn hi hs, ?_⟩
  intro hre
  obtain ⟨u, hu⟩ := hi.reached hre
  obtain ⟨hq, hall⟩ := hi.final u hu
  refine ⟨hq, ?_, ?_, fun a o s' hs => quiet_of_finished hn hi hu hs⟩
  · intro t
    have := hall t
    cases ht : s.phase t with
    | working => exact absurd ht this
    | waiting => exact Or.inl rfl
    | finished => exact Or.inr rfl
  · have := hi.conserved
    rwa [hq, List.append_nil] at this

/-- Two participants: the first pushes an element, takes it back and waits, the second reaches
the barrier. -/
def reachedHistory : History Nat 2 :=
  [(.push 0 (.push 5), .pushed), (.popBarrier 0, .returned (.popped 5)),
    (.popBarrier 0, .asleep), (.popBarrier 1, .returned (.reached true))]

theorem popBarrier_detects_termination_two :
    ∃ s, (participants Nat 2 10).Trace reachedHistory s ∧ Reached reachedHistory ∧
      s.q.queue = [] ∧ (popped reachedHistory).Perm (pushed reachedHistory) := by
  have h : (participants Nat 2 10).Trace reachedHistory _ := Machine.Trace.of_run
    [.push 0 (.push 5), .popBarrier 0, .popBarrier 0, .popBarrier 1] rfl
  have hr : Reached reachedHistory := ⟨_, true, by simp [reachedHistory]; rfl⟩
  have ht := (popBarrier_detects_termination (by decide) h).2.2 hr
  exact ⟨_, h, hr, ht.1, ht.2.2.1⟩

end Lunchbox.MTQueue
