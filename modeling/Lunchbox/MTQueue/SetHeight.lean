import Lunchbox.MTQueue.Safety

set_option autoImplicit false

/-! # Changing the height of a barrier

`Group::setHeight` stores the new height. It has no access to the mutex or to the condition of the
queue, so that it can be called while another thread is in `popBarrier`, and it wakes nobody.

The machine has one queue with any number of groups, and any number of threads that call all
operations. As in `MTQueue/System.lean`, a step is one critical section, with one exception: a
`popBarrier` that is about to return false loads the height twice, in its predicate and in the
assertion `waiting_ == height_`. It is two steps, and between them the thread holds the mutex.
-/

namespace Lunchbox.MTQueue.Heights

open StateMachine

variable {T ι γ : Type}

/-! ## The machine -/

/-- A thread is outside the queue, or asleep in a call. -/
inductive Thread (T γ : Type)
  | idle
  | waiting (c : Call T γ) (marked : Bool)

/-- `notify_all`, if it is called. -/
def Thread.notifyIf (b : Bool) : Thread T γ → Thread T γ
  | .idle => .idle
  | .waiting c marked => .waiting c (marked || b)

structure State (T ι γ : Type) where
  shared : Shared T γ
  threads : ι → Thread T γ
  /-- The thread that has found the barrier of a group reached, and holds the mutex until it
  returns. -/
  leaving : Option (ι × γ)

inductive Action (T ι γ : Type)
  | call (t : ι) (c : Call T γ)
  | wake (t : ι)
  | timeout (t : ι)
  /-- The assertion of `popBarrier`, and the false return. -/
  | leave
  /-- The second critical section of `operator=`. -/
  | assign (copy : Queue T)
  | setHeight (g : γ) (height : Nat)

inductive Output (T γ : Type)
  | returned (c : Call T γ) (reply : Reply T)
  | asleep
  | reached
  | done

/-- The group of a `popBarrier` that finds the queue empty. -/
def atBarrier (sh : Shared T γ) : Call T γ → Option γ
  | .popBarrier g => if sh.q.queue.isEmpty then some g else none
  | _ => none

section Machine

variable [DecidableEq ι] [DecidableEq γ]

/-- `barrier.height_ = height` -/
def setHeight (sh : Shared T γ) (g : γ) (height : Nat) : Shared T γ :=
  { sh with groups := Function.update sh.groups g { sh.groups g with height := height } }

/-- The body of a call runs, and the call returns. -/
def State.finish (s : State T ι γ) (t : ι) (sh : Shared T γ) (c : Call T γ) :
    Output T γ × State T ι γ :=
  let o := sh.body c
  (.returned c o.reply,
    ⟨o.next, fun u => (Function.update s.threads t .idle u).notifyIf o.notify, none⟩)

/-- Evaluate the predicate of a call. -/
def State.attempt (s : State T ι γ) (t : ι) (sh : Shared T γ) (c : Call T γ) :
    Output T γ × State T ι γ :=
  if sh.ready c then
    match atBarrier sh c with
    | some g => (.reached, ⟨sh, Function.update s.threads t .idle, some (t, g)⟩)
    | none => s.finish t sh c
  else (.asleep, ⟨sh, Function.update s.threads t (.waiting c false), none⟩)

def State.step (s : State T ι γ) (a : Action T ι γ) : Option (Output T γ × State T ι γ) :=
  match a, s.leaving with
  | .setHeight g height, _ =>
      if 1 ≤ height ∧ height < sizeRange then
        some (.done, { s with shared := setHeight s.shared g height })
      else none
  | .leave, some (t, g) => some (s.finish t s.shared (.popBarrier g))
  | .call t c, none =>
      match s.threads t with
      | .idle => if c.Fits then some (s.attempt t (s.shared.enter c) c) else none
      | .waiting _ _ => none
  | .wake t, none =>
      match s.threads t with
      | .idle => none
      | .waiting c _ => some (s.attempt t s.shared c)
  | .timeout t, none =>
      match s.threads t with
      | .idle => none
      | .waiting c _ => if c.timed then some (s.finish t s.shared c) else none
  | .assign copy, none =>
      some (.done, { s with
        shared := { s.shared with q := copy }
        threads := fun u => (s.threads u).notifyIf true })
  | _, _ => none

/-- An empty queue with its groups, which nobody uses yet. -/
def heights (T ι γ : Type) [DecidableEq ι] [DecidableEq γ] (maxSize : Nat) (height : γ → Nat) :
    Machine (State T ι γ) (Action T ι γ) (Output T γ) where
  init := ⟨⟨⟨[], maxSize⟩, fun g => ⟨height g, 0⟩⟩, fun _ => .idle, none⟩
  step := State.step

end Machine

abbrev History (T ι γ : Type) := List (Action T ι γ × Output T γ)

/-! ## What is required -/

/-- A thread sleeps in `popBarrier` and has not been notified since it evaluated the predicate. -/
def Unnotified (s : State T ι γ) (g : γ) : Prop := ∃ t, s.threads t = .waiting (.popBarrier g) false

/-- When the mutex is free, nobody sleeps at a barrier that is reached without being notified. -/
def Awake (s : State T ι γ) : Prop :=
  s.leaving = none → ∀ g, Unnotified s g → s.shared.q.queue = [] →
    (s.shared.groups g).waiting < (s.shared.groups g).height

/-- The assertion holds where `popBarrier` returns false. -/
def Asserted : Output T γ → Prop
  | .returned _ (.reached b) => b = true
  | _ => True

/-- `popBarrier` is called when there is an element, or by one of the threads that the group is
for. `setHeight` is not called while a `popBarrier` of the group returns false, and the new height
is above the number of threads that wait; or it is that number, and there is an element or nobody
to notify. -/
def Permits (s : State T ι γ) : Action T ι γ → Prop
  | .call _ (.popBarrier g) => s.shared.q.queue = [] →
      (s.shared.groups g).waiting < (s.shared.groups g).height
  | .setHeight g height => (∀ t, s.leaving ≠ some (t, g)) ∧
      ((s.shared.groups g).waiting < height ∨
        (s.shared.groups g).waiting = height ∧ (s.shared.q.queue ≠ [] ∨ ¬ Unnotified s g))
  | _ => True

/-! ## What a step can be -/

theorem atBarrier_timed {sh : Shared T γ} {c : Call T γ} (h : c.timed = true) :
    atBarrier sh c = none := by
  cases c with
  | popBarrier g => cases h
  | push | pop | timedPop | timedPopRange | tryPop | tryPopRange | index | waitSize | setMaxSize
  | clear | getFront | getBack => rfl

section Steps

variable [DecidableEq ι] [DecidableEq γ] {s s' : State T ι γ} {a : Action T ι γ} {o : Output T γ}

/-- The thread is about to evaluate the predicate of the call. -/
inductive Enters (s : State T ι γ) : Action T ι γ → ι → Call T γ → Shared T γ → Prop
  | call {t : ι} {c : Call T γ} (ht : s.threads t = .idle) :
      Enters s (.call t c) t c (s.shared.enter c)
  | wake {a : Action T ι γ} {t : ι} {c : Call T γ} {m : Bool} (ht : s.threads t = .waiting c m) :
      Enters s a t c s.shared

/-- The transitions. -/
inductive Step (s : State T ι γ) : Action T ι γ → Output T γ → State T ι γ → Prop
  | finish {a : Action T ι γ} {t : ι} {c : Call T γ} {sh : Shared T γ} (hl : s.leaving = none)
      (he : Enters s a t c sh) (hb : atBarrier sh c = none) :
      Step s a (.returned c (sh.body c).reply) (s.finish t sh c).2
  | reach {a : Action T ι γ} {t : ι} {c : Call T γ} {sh : Shared T γ} {g : γ}
      (he : Enters s a t c sh) (hr : sh.ready c = true) (hb : atBarrier sh c = some g) :
      Step s a .reached ⟨sh, Function.update s.threads t .idle, some (t, g)⟩
  | sleep {a : Action T ι γ} {t : ι} {c : Call T γ} {sh : Shared T γ} (hl : s.leaving = none)
      (he : Enters s a t c sh) (hr : sh.ready c = false) :
      Step s a .asleep ⟨sh, Function.update s.threads t (.waiting c false), none⟩
  | leave {t : ι} {g : γ} (hl : s.leaving = some (t, g)) :
      Step s .leave (.returned (.popBarrier g) (s.shared.body (.popBarrier g)).reply)
        (s.finish t s.shared (.popBarrier g)).2
  | assign {copy : Queue T} (hl : s.leaving = none) :
      Step s (.assign copy) .done { s with
        shared := { s.shared with q := copy }
        threads := fun u => (s.threads u).notifyIf true }
  | setHeight {g : γ} {height : Nat} (hh : height < sizeRange) :
      Step s (.setHeight g height) .done { s with shared := setHeight s.shared g height }

theorem attempt_step {t : ι} {c : Call T γ} {sh : Shared T γ} (hl : s.leaving = none)
    (he : Enters s a t c sh) : Step s a (s.attempt t sh c).1 (s.attempt t sh c).2 := by
  unfold State.attempt
  cases hr : sh.ready c with
  | false => exact .sleep hl he hr
  | true =>
      cases hb : atBarrier sh c with
      | none => exact .finish hl he hb
      | some g => exact .reach he hr hb

/-- **A step is one of the transitions.** -/
theorem step_of_eq (h : s.step a = some (o, s')) : Step s a o s' := by
  unfold State.step at h
  split at h
  · next g height _ =>
      obtain ⟨hh, h⟩ := Option.ite_none_right_eq_some.mp h
      cases h
      exact .setHeight hh.2
  · next t g hl =>
      cases h
      exact .leave hl
  · next t c hl =>
      split at h
      · next ht =>
          obtain ⟨-, h⟩ := Option.ite_none_right_eq_some.mp h
          have hstep := attempt_step (c := c) hl (.call ht)
          rwa [Option.some.inj h] at hstep
      · cases h
  · next t hl =>
      split at h
      · cases h
      · next c m ht =>
          have hstep := attempt_step (a := .wake t) hl (.wake ht)
          rwa [Option.some.inj h] at hstep
  · next t hl =>
      split at h
      · cases h
      · next c m ht =>
          obtain ⟨hc, h⟩ := Option.ite_none_right_eq_some.mp h
          cases h
          exact .finish hl (.wake ht) (atBarrier_timed hc)
  · next copy hl =>
      cases h
      exact .assign hl
  · cases h

end Steps

/-! ## The invariant -/

theorem subSize_addSize {n : Nat} (h : n < sizeRange) : subSize (addSize n 1) 1 = n := by
  unfold addSize
  by_cases hlast : n + 1 = sizeRange
  · rw [hlast, Nat.mod_self, subSize, Nat.mod_eq_of_lt (by omega)]
    omega
  · rw [Nat.mod_eq_of_lt (by omega), subSize_of_le (by omega) (by omega)]
    omega

/-- The group that a call is made with. -/
def callGroup : Call T γ → Option γ
  | .popBarrier g => some g
  | _ => none

/-- The group at whose barrier a thread sleeps. -/
def Thread.group : Thread T γ → Option γ
  | .idle => none
  | .waiting c _ => callGroup c

theorem idle_group_ne (g : γ) : ¬ (Thread.idle : Thread T γ).group = some g := by
  simp [Thread.group]

@[simp] theorem group_notifyIf (b : Bool) (th : Thread T γ) : (th.notifyIf b).group = th.group := by
  cases th <;> rfl

theorem of_notifyIf_waiting {th : Thread T γ} {b : Bool} {c : Call T γ}
    (h : th.notifyIf b = .waiting c false) : b = false ∧ th = .waiting c false := by
  cases th with
  | idle => cases h
  | waiting c' m =>
      cases b with
      | true => simp [Thread.notifyIf] at h
      | false => simpa [Thread.notifyIf] using h

section Groups

variable [DecidableEq γ] {sh : Shared T γ} {c : Call T γ}

theorem enter_groups (sh : Shared T γ) (c : Call T γ) (g : γ) :
    (sh.enter c).groups g
      = if callGroup c = some g then (sh.groups g).arrive else sh.groups g := by
  cases c with
  | popBarrier g' =>
      by_cases hg : g = g'
      · subst hg
        simp [Shared.enter, callGroup]
      · have hne : callGroup (.popBarrier g' : Call T γ) ≠ some g := fun h =>
          hg (Option.some.inj h).symm
        rw [if_neg hne]
        exact Function.update_of_ne hg _ _
  | push | pop | timedPop | timedPopRange | tryPop | tryPopRange | index | waitSize | setMaxSize
  | clear | getFront | getBack => rfl

/-- A body that is not at the barrier: `popBarrier` takes an element and leaves the group. -/
theorem body_groups (hb : atBarrier sh c = none) (g : γ) :
    (sh.body c).next.groups g = if callGroup c = some g then
        { sh.groups g with waiting := subSize (sh.groups g).waiting 1 } else sh.groups g := by
  cases c with
  | popBarrier g' =>
      cases hq : sh.q.queue with
      | nil => simp [atBarrier, hq] at hb
      | cons x xs =>
          simp only [Shared.body, Queue.popBarrier, hq]
          by_cases hg : g = g'
          · subst hg
            simp [callGroup]
          · have hne : callGroup (.popBarrier g' : Call T γ) ≠ some g := fun h =>
              hg (Option.some.inj h).symm
            rw [if_neg hne]
            exact Function.update_of_ne hg _ _
  | push | setMaxSize | clear | index | waitSize | getFront | getBack => rfl
  | pop | timedPop | tryPop =>
      simp only [Shared.body, Shared.popFront]
      split <;> rfl
  | timedPopRange | tryPopRange =>
      simp only [Shared.body]
      split <;> rfl

/-- Only a `popBarrier` at the barrier returns with the assertion. -/
theorem asserted_body (hb : atBarrier sh c = none) :
    Asserted (.returned c (sh.body c).reply) := by
  cases c with
  | popBarrier g =>
      cases hq : sh.q.queue with
      | nil => simp [atBarrier, hq] at hb
      | cons x xs => simp [Shared.body, Queue.popBarrier, hq, Asserted]
  | push | setMaxSize | clear | index | waitSize | getFront | getBack => trivial
  | pop | timedPop | tryPop =>
      simp only [Shared.body, Shared.popFront]
      split <;> trivial
  | timedPopRange | tryPopRange =>
      simp only [Shared.body]
      split <;> trivial

omit [DecidableEq γ] in
theorem atBarrier_eq_some {g : γ} (hb : atBarrier sh c = some g) :
    c = .popBarrier g ∧ sh.q.queue = [] := by
  cases c with
  | popBarrier g' =>
      cases hq : sh.q.queue with
      | nil =>
          simp only [atBarrier, hq, List.isEmpty_nil, if_true, Option.some.injEq] at hb
          rw [hb]
          exact ⟨rfl, rfl⟩
      | cons x xs => simp [atBarrier, hq] at hb
  | push | pop | timedPop | timedPopRange | tryPop | tryPopRange | index | waitSize | setMaxSize
  | clear | getFront | getBack => cases hb

omit [DecidableEq γ] in
theorem ready_popBarrier {g : γ} : sh.ready (.popBarrier g) = true ↔
    sh.q.queue ≠ [] ∨ (sh.groups g).height ≤ (sh.groups g).waiting := by
  simp [Shared.ready, Queue.barrierReady]

theorem body_reached {g : γ} (hq : sh.q.queue = []) :
    sh.body (.popBarrier g)
      = ⟨.reached ((sh.groups g).waiting = (sh.groups g).height), true, sh⟩ := by
  simp only [Shared.body, Queue.popBarrier, hq]

end Groups

section Invariant

variable [Fintype ι] [DecidableEq ι] [DecidableEq γ]

/-- The number of threads that sleep at the barrier of the group. -/
def sleepers (threads : ι → Thread T γ) (g : γ) : Nat :=
  countWhere (fun th => th.group = some g) threads

/-- `waiting_` counts the threads that sleep at the barrier, and those that have left it with a
false return. -/
structure Inv (s : State T ι γ) : Prop where
  height : ∀ g, (s.shared.groups g).waiting ≤ (s.shared.groups g).height ∧
    (s.shared.groups g).height < sizeRange
  counted : ∀ g, sleepers s.threads g ≤ (s.shared.groups g).waiting
  leaving : ∀ t g, s.leaving = some (t, g) → s.shared.q.queue = [] ∧
    (s.shared.groups g).waiting = (s.shared.groups g).height
  blocked : s.leaving = none → ∀ t c, s.threads t = .waiting c false → s.shared.ready c = false

theorem inv_init {maxSize : Nat} {height : γ → Nat} (hh : ∀ g, height g < sizeRange) :
    Inv (heights T ι γ maxSize height).init where
  height g := ⟨Nat.zero_le _, hh g⟩
  counted g := by
    refine Nat.le_of_eq ((countWhere_eq_zero_iff _ _).mpr fun u h => ?_)
    cases h
  leaving t g h := by cases h
  blocked _ t c h := by cases h

variable {s s' : State T ι γ} {a : Action T ι γ} {o : Output T γ} {t : ι} {c : Call T γ}
  {sh : Shared T γ}

omit [DecidableEq ι] in
@[simp] theorem sleepers_notifyIf (threads : ι → Thread T γ) (b : Bool) (g : γ) :
    sleepers (fun u => (threads u).notifyIf b) g = sleepers threads g :=
  countWhere_congr _ fun u => by rw [group_notifyIf]

theorem sleepers_update (threads : ι → Thread T γ) (t : ι) (th : Thread T γ) (g : γ) :
    sleepers (Function.update threads t th) g + (if (threads t).group = some g then 1 else 0)
      = sleepers threads g + if th.group = some g then 1 else 0 :=
  countWhere_update (fun th : Thread T γ => th.group = some g) threads t th

omit [DecidableEq ι] in
/-- A thread that sleeps at the barrier is counted in `waiting_`. -/
theorem Inv.waiting_pos (hi : Inv s) {g : γ} (h : (s.threads t).group = some g) :
    0 < (s.shared.groups g).waiting :=
  lt_of_lt_of_le (countWhere_pos (fun th : Thread T γ => th.group = some g) h) (hi.counted g)

/-! ## Transitions -/

omit [Fintype ι] [DecidableEq ι] in
theorem Enters.queue (he : Enters s a t c sh) : sh.q = s.shared.q := by
  cases he with
  | call => exact enter_q c
  | wake => rfl

omit [DecidableEq ι] in
/-- `waiting_` where a call returns: the thread is not counted any more. -/
theorem Enters.leaves (hi : Inv s) (he : Enters s a t c sh) (hb : atBarrier sh c = none) (g : γ) :
    ((sh.body c).next.groups g).height = (s.shared.groups g).height ∧
    ((sh.body c).next.groups g).waiting + (if (s.threads t).group = some g then 1 else 0)
      = (s.shared.groups g).waiting := by
  obtain ⟨hle, hlt⟩ := hi.height g
  rw [body_groups hb]
  cases he with
  | call ht =>
      -- what `++waiting_` adds is taken away again
      rw [enter_groups, ht, if_neg (idle_group_ne g)]
      split_ifs with hc
      · exact ⟨rfl, subSize_addSize (by omega)⟩
      · exact ⟨rfl, rfl⟩
  | wake ht =>
      have hgroup : (s.threads t).group = callGroup c := by rw [ht]; rfl
      rw [hgroup]
      split_ifs with hc
      · have hpos := hi.waiting_pos (hgroup.trans hc)
        refine ⟨rfl, ?_⟩
        show subSize (s.shared.groups g).waiting 1 + 1 = _
        rw [subSize_of_le (by omega) (by omega)]
        omega
      · exact ⟨rfl, rfl⟩

omit [DecidableEq ι] in
/-- `waiting_` where the predicate is evaluated, if the call is permitted: it counts the thread, and
is at most the height. -/
theorem Enters.waits (hi : Inv s) (hp : Permits s a) (he : Enters s a t c sh)
    (hq : callGroup c ≠ none → s.shared.q.queue = []) (g : γ) :
    (sh.groups g).height = (s.shared.groups g).height ∧
    (sh.groups g).waiting ≤ (s.shared.groups g).height ∧
    (sh.groups g).waiting + (if (s.threads t).group = some g then 1 else 0)
      = (s.shared.groups g).waiting + if callGroup c = some g then 1 else 0 := by
  obtain ⟨hle, hlt⟩ := hi.height g
  cases he with
  | call ht =>
      rw [enter_groups, ht, if_neg (idle_group_ne g)]
      by_cases hc : callGroup c = some g
      · have hcall : c = .popBarrier g := by
          cases c with
          | popBarrier g' =>
              cases hc
              rfl
          | push | pop | timedPop | timedPopRange | tryPop | tryPopRange | index | waitSize
          | setMaxSize | clear | getFront | getBack => cases hc
        subst hcall
        have hroom := hp (hq (by simp [callGroup]))
        have harrive : (s.shared.groups g).arrive.waiting = (s.shared.groups g).waiting + 1 :=
          addSize_of_lt (by omega)
        rw [if_pos hc, if_pos hc, harrive]
        exact ⟨rfl, hroom, rfl⟩
      · rw [if_neg hc, if_neg hc]
        exact ⟨rfl, hle, rfl⟩
  | wake ht =>
      have hgroup : (s.threads t).group = callGroup c := by rw [ht]; rfl
      rw [hgroup]
      exact ⟨rfl, hle, rfl⟩

omit [Fintype ι] [DecidableEq ι] in
/-- A thread that was blocked stays so if the caller sleeps or does not notify. -/
theorem Enters.blocked (he : Enters s a t c sh)
    (hr : sh.ready c = false ∨ (sh.body c).notify = false) {c' : Call T γ}
    (hb : s.shared.ready c' = false) : sh.ready c' = false := by
  cases he with
  | call =>
      rcases hr with hr | hr
      · exact ready_enter hb hr
      · rwa [enter_of_quiet hr]
  | wake => exact hb

theorem Inv.finish (hi : Inv s) (hl : s.leaving = none) (he : Enters s a t c sh)
    (hb : atBarrier sh c = none) : Inv (s.finish t sh c).2 := by
  refine ⟨fun g => ?_, fun g => ?_, fun u g h => (by cases h), fun _ u c' hu => ?_⟩
  · obtain ⟨hheight, hwaiting⟩ := he.leaves hi hb g
    obtain ⟨hle, hlt⟩ := hi.height g
    show ((sh.body c).next.groups g).waiting ≤ ((sh.body c).next.groups g).height ∧
      ((sh.body c).next.groups g).height < sizeRange
    omega
  · obtain ⟨-, hwaiting⟩ := he.leaves hi hb g
    have hcount := sleepers_update s.threads t .idle g
    have hle := hi.counted g
    show sleepers (fun u => (Function.update s.threads t .idle u).notifyIf _) g ≤
      ((sh.body c).next.groups g).waiting
    rw [if_neg (idle_group_ne g)] at hcount
    rw [sleepers_notifyIf]
    omega
  · obtain ⟨hn, hu⟩ := of_notifyIf_waiting hu
    have hu' : s.threads u = .waiting c' false := of_update hu (by simp)
    show (sh.body c).next.ready c' = false
    rw [body_quiet hn]
    exact he.blocked (Or.inr hn) (hi.blocked hl u c' hu')

theorem Inv.reach (hi : Inv s) (hp : Permits s a) (he : Enters s a t c sh)
    (hr : sh.ready c = true) {g : γ} (hb : atBarrier sh c = some g) :
    Inv ⟨sh, Function.update s.threads t .idle, some (t, g)⟩ := by
  obtain ⟨rfl, hq⟩ := atBarrier_eq_some hb
  have hempty : s.shared.q.queue = [] := by rw [← he.queue, hq]
  refine ⟨fun g' => ?_, fun g' => ?_, ?_, fun hnone => (by cases hnone)⟩
  · obtain ⟨hheight, hle, -⟩ := he.waits hi hp (fun _ => hempty) g'
    have hlt := (hi.height g').2
    show (sh.groups g').waiting ≤ (sh.groups g').height ∧ (sh.groups g').height < sizeRange
    omega
  · obtain ⟨-, -, hwaiting⟩ := he.waits hi hp (fun _ => hempty) g'
    have hcount := sleepers_update s.threads t .idle g'
    have hle := hi.counted g'
    rw [if_neg (idle_group_ne g')] at hcount
    show sleepers (Function.update s.threads t .idle) g' ≤ (sh.groups g').waiting
    omega
  · -- the barrier is reached, and no more threads than its height have arrived
    rintro u g' heq
    cases heq
    obtain ⟨hheight, hle, -⟩ := he.waits hi hp (fun _ => hempty) g
    have hge := (ready_popBarrier.mp hr).resolve_left fun hne => hne hq
    exact ⟨hq, by show (sh.groups g).waiting = (sh.groups g).height; omega⟩

theorem Inv.sleep (hi : Inv s) (hp : Permits s a) (hl : s.leaving = none)
    (he : Enters s a t c sh) (hr : sh.ready c = false) :
    Inv ⟨sh, Function.update s.threads t (.waiting c false), none⟩ := by
  have hempty : callGroup c ≠ none → s.shared.q.queue = [] := by
    intro hc
    cases c with
    | popBarrier g =>
        by_contra hne
        rw [← he.queue] at hne
        rw [ready_popBarrier.mpr (Or.inl hne)] at hr
        cases hr
    | push | pop | timedPop | timedPopRange | tryPop | tryPopRange | index | waitSize | setMaxSize
    | clear | getFront | getBack => exact absurd rfl hc
  refine ⟨fun g => ?_, fun g => ?_, fun u g h => (by cases h), fun _ u c' hu => ?_⟩
  · obtain ⟨hheight, hle, -⟩ := he.waits hi hp hempty g
    have hlt := (hi.height g).2
    show (sh.groups g).waiting ≤ (sh.groups g).height ∧ (sh.groups g).height < sizeRange
    omega
  · obtain ⟨-, -, hwaiting⟩ := he.waits hi hp hempty g
    have hcount := sleepers_update s.threads t (.waiting c false) g
    have hle := hi.counted g
    have hgroup : (Thread.waiting c false).group = callGroup c := rfl
    rw [hgroup] at hcount
    show sleepers (Function.update s.threads t (.waiting c false)) g ≤ (sh.groups g).waiting
    omega
  · rcases update_cases hu with ⟨-, heq⟩ | ⟨-, hu⟩
    · cases heq
      exact hr
    · exact he.blocked (Or.inl hr) (hi.blocked hl u c' hu)

theorem Inv.leave (hi : Inv s) {g : γ} (hl : s.leaving = some (t, g)) :
    Inv (s.finish t s.shared (.popBarrier g)).2 := by
  have hbody := body_reached (g := g) (hi.leaving t g hl).1
  have hstate : (s.finish t s.shared (.popBarrier g)).2
      = ⟨s.shared, fun u => (Function.update s.threads t .idle u).notifyIf true, none⟩ := by
    simp only [State.finish, hbody]
  rw [hstate]
  refine ⟨hi.height, fun g' => ?_, fun u g' h => (by cases h), fun _ u c' hu => ?_⟩
  · have hcount := sleepers_update s.threads t .idle g'
    have hle := hi.counted g'
    rw [if_neg (idle_group_ne g')] at hcount
    show sleepers (fun u => (Function.update s.threads t .idle u).notifyIf true) g' ≤
      (s.shared.groups g').waiting
    rw [sleepers_notifyIf]
    omega
  · cases (of_notifyIf_waiting hu).1

omit [DecidableEq ι] in
theorem Inv.assign (hi : Inv s) (hl : s.leaving = none) (copy : Queue T) :
    Inv { s with
      shared := { s.shared with q := copy }
      threads := fun u => (s.threads u).notifyIf true } := by
  refine ⟨hi.height, fun g => ?_, fun u g h => ?_, fun _ u c' hu => ?_⟩
  · rw [sleepers_notifyIf]
    exact hi.counted g
  · rw [hl] at h
    cases h
  · cases (of_notifyIf_waiting hu).1

omit [DecidableEq ι] in
theorem Inv.setHeight (hi : Inv s) {g : γ} {height : Nat} (hh : height < sizeRange)
    (hp : Permits s (.setHeight g height)) :
    Inv { s with shared := Heights.setHeight s.shared g height } := by
  obtain ⟨hfree, hroom⟩ := hp
  have hother : ∀ g', g' ≠ g →
      (Heights.setHeight s.shared g height).groups g' = s.shared.groups g' :=
    fun g' hne => Function.update_of_ne hne _ _
  have hsame : (Heights.setHeight s.shared g height).groups g
      = { s.shared.groups g with height := height } := Function.update_self _ _ _
  refine ⟨fun g' => ?_, fun g' => ?_, fun u g' hl => ?_, fun hl u c' hu => ?_⟩
  · by_cases hg : g' = g
    · subst hg
      rw [hsame]
      show (s.shared.groups g').waiting ≤ height ∧ height < sizeRange
      omega
    · rw [hother g' hg]
      exact hi.height g'
  · by_cases hg : g' = g
    · subst hg
      rw [hsame]
      exact hi.counted g'
    · rw [hother g' hg]
      exact hi.counted g'
  · have hg : g' ≠ g := by
      rintro rfl
      exact hfree u hl
    rw [hother g' hg]
    exact hi.leaving u g' hl
  · have hb := hi.blocked hl u c' hu
    cases c' with
    | popBarrier g' =>
        by_cases hg : g' = g
        · -- a thread that is to be woken is not there
          subst hg
          rw [Bool.eq_false_iff, ne_eq, ready_popBarrier] at hb ⊢
          rw [hsame]
          show ¬ (s.shared.q.queue ≠ [] ∨ height ≤ (s.shared.groups g').waiting)
          have hun : Unnotified s g' := ⟨u, hu⟩
          rintro (hne | hge)
          · exact hb (Or.inl hne)
          · rcases hroom with hlt | ⟨-, hne | hnone⟩
            · omega
            · exact hb (Or.inl hne)
            · exact hnone hun
        · rw [Bool.eq_false_iff, ne_eq, ready_popBarrier] at hb ⊢
          rw [hother g' hg]
          exact hb
    | push | pop | timedPop | timedPopRange | tryPop | tryPopRange | index | waitSize | setMaxSize
    | clear | getFront | getBack => exact hb

/-- **One permitted step keeps the invariant, and the assertion holds.** -/
theorem inv_step (hi : Inv s) (hp : Permits s a) (hs : Step s a o s') : Inv s' ∧ Asserted o := by
  cases hs with
  | finish hl he hb => exact ⟨hi.finish hl he hb, asserted_body hb⟩
  | reach he hr hb => exact ⟨hi.reach hp he hr hb, trivial⟩
  | sleep hl he hr => exact ⟨hi.sleep hp hl he hr, trivial⟩
  | @leave t g hl =>
      obtain ⟨hq, heq⟩ := hi.leaving t g hl
      refine ⟨hi.leave hl, ?_⟩
      rw [body_reached hq]
      exact decide_eq_true heq
  | assign hl => exact ⟨hi.assign hl _, trivial⟩
  | setHeight hh => exact ⟨hi.setHeight hh hp, trivial⟩

/-- **Changing the height of a barrier.** For every queue, any groups and any number of threads, and
in every interleaving with `setHeight` whose steps are all permitted: when the mutex is free, no
thread sleeps without being notified at a barrier that is reached, and the assertion
`waiting_ == height_` holds at every false return of `popBarrier`. -/
theorem permitted_heights {maxSize : Nat} {height : γ → Nat} (hh : ∀ g, height g < 2 ^ 64)
    {tr : History T ι γ} (h : (heights T ι γ maxSize height).Trace tr s)
    (hp : (heights T ι γ maxSize height).Guarded Permits tr) :
    Awake s ∧ ∀ e ∈ tr, Asserted e.2 := by
  have hinv := h.guardedInv (fun tr s => Inv s ∧ ∀ e ∈ tr, Asserted e.2)
    ⟨inv_init hh, fun e he => absurd he List.not_mem_nil⟩ (by
      rintro tr s a b s' ⟨hi, hall⟩ hperm hs
      obtain ⟨hi', ho⟩ := inv_step hi hperm (step_of_eq hs)
      refine ⟨hi', fun e he => ?_⟩
      rcases List.mem_append.mp he with he | he
      · exact hall e he
      · rw [List.mem_singleton.mp he]
        exact ho) hp
  refine ⟨fun hl g hun hq => ?_, hinv.2⟩
  obtain ⟨t, ht⟩ := hun
  have hb := hinv.1.blocked hl t _ ht
  rw [Bool.eq_false_iff, ne_eq, ready_popBarrier] at hb
  exact Nat.lt_of_not_le fun hle => hb (Or.inr hle)

end Invariant

/-- Three threads and a group of height 2, which is raised to 3 while the first one sleeps. -/
theorem permitted_heights_raised :
    ∃ tr s, (heights Nat (Fin 3) Unit 5 fun _ => 2).Trace tr s ∧
      tr = [(.call 0 (.popBarrier ()), .asleep), (.setHeight () 3, .done),
        (.call 1 (.popBarrier ()), .asleep), (.call 2 (.popBarrier ()), .reached),
        (.leave, .returned (.popBarrier ()) (.reached true))] ∧
      (heights Nat (Fin 3) Unit 5 fun _ => 2).Guarded Permits tr ∧
      Awake s ∧ ∀ e ∈ tr, Asserted e.2 := by
  have h := Machine.Trace.of_run (M := heights Nat (Fin 3) Unit 5 fun _ => 2)
    [.call 0 (.popBarrier ()), .setHeight () 3, .call 1 (.popBarrier ()),
      .call 2 (.popBarrier ()), .leave] rfl
  have hmeets : (heights Nat (Fin 3) Unit 5 fun _ => 2).meets Permits
      [.call 0 (.popBarrier ()), .setHeight () 3, .call 1 (.popBarrier ()),
        .call 2 (.popBarrier ()), .leave] (heights Nat (Fin 3) Unit 5 fun _ => 2).init := by
    refine ⟨fun _ => by decide, fun r1 h1 => ?_⟩
    cases h1
    refine ⟨⟨fun t ht => (by cases ht), Or.inl (by decide)⟩, fun r2 h2 => ?_⟩
    cases h2
    refine ⟨fun _ => by decide, fun r3 h3 => ?_⟩
    cases h3
    refine ⟨fun _ => by decide, fun r4 h4 => ?_⟩
    cases h4
    exact ⟨trivial, fun _ _ => trivial⟩
  have hp := Machine.guarded_of_run (M := heights Nat (Fin 3) Unit 5 fun _ => 2) _ rfl hmeets
  exact ⟨_, _, h, rfl, hp, permitted_heights (fun _ => by decide) h hp⟩

/-- Two threads sleep at a barrier of height 3, and the height is set to 1: nobody is notified, and
when one of them wakes up, the assertion fails. -/
theorem setHeight_notifies_nobody :
    (∃ tr s, (heights Nat (Fin 3) Unit 5 fun _ => 3).Trace tr s ∧
      tr = [(.call 0 (.popBarrier ()), .asleep), (.call 1 (.popBarrier ()), .asleep),
        (.setHeight () 1, .done)] ∧
      s.leaving = none ∧ s.threads 0 = .waiting (.popBarrier ()) false ∧
      s.shared.q.queue = [] ∧ (s.shared.groups ()).waiting = 2 ∧
      (s.shared.groups ()).height = 1) ∧
    ∃ tr s, (heights Nat (Fin 3) Unit 5 fun _ => 3).Trace tr s ∧
      tr = [(.call 0 (.popBarrier ()), .asleep), (.call 1 (.popBarrier ()), .asleep),
        (.setHeight () 1, .done), (.wake 0, .reached),
        (.leave, .returned (.popBarrier ()) (.reached false))] := by
  constructor
  · exact ⟨_, _, Machine.Trace.of_run (M := heights Nat (Fin 3) Unit 5 fun _ => 3)
      [.call 0 (.popBarrier ()), .call 1 (.popBarrier ()), .setHeight () 1] rfl,
      rfl, rfl, rfl, rfl, rfl, rfl⟩
  · exact ⟨_, _, Machine.Trace.of_run (M := heights Nat (Fin 3) Unit 5 fun _ => 3)
      [.call 0 (.popBarrier ()), .call 1 (.popBarrier ()), .setHeight () 1, .wake 0, .leave] rfl,
      rfl⟩

end Lunchbox.MTQueue.Heights
