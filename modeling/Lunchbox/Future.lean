import Lunchbox.Lib.Count
import Lunchbox.Lib.Machine
import Lunchbox.SpinLock

set_option autoImplicit false

/-! # `Future`

Futures (`future.h`) with the implementations `FutureFunction`, which calls a function when its
value is asked for, and `FutureBool`, which knows its value. A `Future` is a `RefPtr` to the
implementation, so copies share it, and it is deleted with the last of them. `FutureFunction` is not
thread-safe; the calls are made in sequence.

The function is called until it returns for the first time, and never again. It has returned when a
value was given out or when the last future is gone, since the destructor waits too; and all copies
give out the value that it has returned (`future_fulfilled_once`). An exception of the function in
the destructor terminates the program. The reference count is an `int32_t`, which is exact as long
as there are fewer than 2^31 futures.
-/

namespace Lunchbox.Future

open StateMachine
open SpinLock (toInt32)

/-! ## Implementations -/

/-- The members of `FutureFunction`: whether `func_` is not empty, and `result_`, if it was
assigned. -/
structure FutureFunction (T : Type) where
  func : Bool
  result : Option T

inductive Impl (T : Type)
  | function (f : FutureFunction T)
  /-- `FutureBool` -/
  | known (value : T)

variable {T E : Type}

/-- What a call did: the call of the function, if there was one, the value or the exception, and
the implementation afterwards. -/
structure Waited (T E : Type) where
  called : Option (Except E T)
  reply : Except E (Option T)
  impl : Impl T

/-- An exception has left `wait`. -/
def Waited.threw (w : Waited T E) : Bool :=
  match w.reply with
  | .ok _ => false
  | .error _ => true

/-- `wait`, if the function does `outcome` when it is called. -/
def Impl.wait (outcome : Except E T) : Impl T → Waited T E
  | .known value => ⟨none, .ok (some value), .known value⟩
  | .function f =>
      if f.func then
        match outcome with
        | .ok value => ⟨some outcome, .ok (some value), .function ⟨false, some value⟩⟩
        -- `func_` is not cleared
        | .error e => ⟨some outcome, .error e, .function f⟩
      else ⟨none, .ok f.result, .function f⟩

def Impl.isReady : Impl T → Bool
  | .known _ => true
  | .function f => !f.func

/-! ## Futures -/

/-- An implementation with its reference count. -/
structure Object (T : Type) where
  impl : Impl T
  refCount : Int
  deleted : Bool

/-- The implementation that each variable refers to, the implementations in the order of their
creation, and whether an exception has left a destructor. -/
structure State (ι T : Type) where
  futures : ι → Option Nat
  objects : Nat → Object T
  created : Nat
  terminated : Bool

/-- `outcome` is what the function of the implementation does, if it is called. -/
inductive Action (ι T E : Type)
  /-- `Future( new FutureFunction( func ))` -/
  | makeFunction (x : ι) (nonempty : Bool)
  /-- `makeTrueFuture`, `makeFalseFuture` -/
  | makeKnown (x : ι) (value : T)
  | copy (x y : ι)
  | assign (x y : ι) (outcome : Except E T)
  | destroy (x : ι) (outcome : Except E T)
  | wait (x : ι) (outcome : Except E T)
  /-- `operator !` and the comparisons -/
  | test (x : ι) (p : T → Bool) (outcome : Except E T)
  | isReady (x : ι)

inductive Reply (T E : Type)
  | done
  | value (v : Option T)
  | holds (b : Option Bool)
  | ready (b : Bool)
  | threw (e : E)

/-- The implementation that was used, the call of its function, if there was one, and the reply. -/
structure Output (T E : Type) where
  object : Nat
  called : Option (Except E T)
  reply : Reply T E

namespace State

variable {ι : Type} [DecidableEq ι] (s : State ι T)

def setFuture (x : ι) (k : Option Nat) : State ι T :=
  { s with futures := Function.update s.futures x k }

def setObject (k : Nat) (o : Object T) : State ι T :=
  { s with objects := Function.update s.objects k o }

/-- `ref` -/
def ref (k : Nat) : State ι T :=
  s.setObject k { s.objects k with refCount := toInt32 ((s.objects k).refCount + 1) }

/-- `unref`, with the destructor, which calls `wait`, if that was the last reference. -/
def unref (k : Nat) (outcome : Except E T) : Option (Except E T) × State ι T :=
  if toInt32 ((s.objects k).refCount - 1) = 0 then
    (((s.objects k).impl.wait outcome).called,
      { s.setObject k ⟨((s.objects k).impl.wait outcome).impl, 0, true⟩ with
        terminated := ((s.objects k).impl.wait outcome).threw })
  else (none, s.setObject k { s.objects k with refCount := toInt32 ((s.objects k).refCount - 1) })

/-- A new future with a new implementation. -/
def add (x : ι) (impl : Impl T) : State ι T where
  futures := Function.update s.futures x (some s.created)
  objects := Function.update s.objects s.created ⟨impl, 1, false⟩
  created := s.created + 1
  terminated := s.terminated

def make (x : ι) (impl : Impl T) : Option (Output T E × State ι T) :=
  if s.futures x = none then some (⟨s.created, none, .done⟩, s.add x impl) else none

/-- `wait` of an implementation, with the reply made from its value. -/
def use (k : Nat) (outcome : Except E T) (reply : Option T → Reply T E) :
    Output T E × State ι T :=
  let o := s.objects k
  let w := o.impl.wait outcome
  (⟨k, w.called, match w.reply with
      | .ok v => reply v
      | .error e => .threw e⟩, s.setObject k { o with impl := w.impl })

end State

variable {ι : Type} [DecidableEq ι]

def step (s : State ι T) : Action ι T E → Option (Output T E × State ι T)
  | .makeFunction x nonempty => s.make x (.function ⟨nonempty, none⟩)
  | .makeKnown x value => s.make x (.known value)
  | .copy x y =>
      match s.futures x, s.futures y with
      | none, some k => some (⟨k, none, .done⟩, (s.ref k).setFuture x (some k))
      | _, _ => none
  | .assign x y outcome =>
      match s.futures x, s.futures y with
      | some j, some k =>
          if j = k then some (⟨k, none, .done⟩, s)
          else
            let r := ((s.setFuture x (some k)).ref k).unref j outcome
            some (⟨j, r.1, .done⟩, r.2)
      | _, _ => none
  | .destroy x outcome =>
      match s.futures x with
      | some k =>
          let r := (s.setFuture x none).unref k outcome
          some (⟨k, r.1, .done⟩, r.2)
      | none => none
  | .wait x outcome => (s.futures x).map fun k => s.use k outcome .value
  | .test x p outcome => (s.futures x).map fun k => s.use k outcome fun v => .holds (v.map p)
  | .isReady x =>
      (s.futures x).map fun k => (⟨k, none, .ready (s.objects k).impl.isReady⟩, s)

/-- A program with its futures; there is no next step once it was terminated. -/
def futures : Machine (State ι T) (Action ι T E) (Output T E) where
  init := ⟨fun _ => none, fun _ => ⟨.function ⟨false, none⟩, 0, true⟩, 0, false⟩
  step s a := if s.terminated then none else step s a

abbrev History (ι T E : Type) := List (Action ι T E × Output T E)

/-! ## Calls and answers -/

/-- The calls of the function of an implementation. -/
def callsOf (k : Nat) (tr : History ι T E) : List (Except E T) :=
  tr.flatMap fun e => if e.2.object = k then e.2.called.toList else []

/-- A reply that tells that the future is fulfilled. -/
def Answers (e : Action ι T E × Output T E) : Prop :=
  match e.2.reply with
  | .value _ => True
  | .holds _ => True
  | .ready b => b = true
  | _ => False

/-- A reply that was made from the value `v`. -/
def Agrees (v : Option T) (e : Action ι T E × Output T E) : Prop :=
  match e.1, e.2.reply with
  | .test _ p _, .holds b => b = v.map p
  | _, .value w => w = v
  | _, .holds _ => False
  | _, _ => True

/-- The function has failed every time so far, if it was called, and nothing was given out. -/
def Pending (tr : History ι T E) (k : Nat) : Prop :=
  ∃ errors : List E, callsOf k tr = errors.map .error ∧ ∀ e ∈ tr, e.2.object = k → ¬ Answers e

/-- The function has returned `v` in its last call, and this is what was given out. -/
def Fulfilled (tr : History ι T E) (k : Nat) (v : T) : Prop :=
  ∃ errors : List E, callsOf k tr = errors.map .error ++ [.ok v] ∧
    ∀ e ∈ tr, e.2.object = k → Agrees (some v) e

/-! ## The course of one future -/

inductive Course (tr : History ι T E) (k : Nat) (o : Object T) : Prop
  | pending {result : Option T} (himpl : o.impl = .function ⟨true, result⟩)
      (hlive : o.deleted = false) (h : Pending tr k)
  | fulfilled {v : T} (himpl : o.impl = .function ⟨false, some v⟩) (h : Fulfilled tr k v)

/-- What a step does with the implementation that it uses: nothing, or `wait`. -/
inductive Touches (o o' : Object T) (e : Action ι T E × Output T E) : Prop
  | leaves (hcalled : e.2.called = none) (himpl : o'.impl = o.impl)
      (hdeleted : o'.deleted = o.deleted) (hanswer : Answers e → o.impl.isReady = true)
      (hagrees : ∀ v, Agrees v e)
  | waits (outcome : Except E T) (hcalled : e.2.called = (o.impl.wait outcome).called)
      (himpl : o'.impl = (o.impl.wait outcome).impl)
      (hok : ∀ v, (o.impl.wait outcome).reply = .ok v → Agrees v e)
      (herror : ∀ err, (o.impl.wait outcome).reply = .error err →
        ¬ Answers e ∧ o'.deleted = o.deleted)

section Course

omit [DecidableEq ι]

variable {tr : History ι T E} {k : Nat} {o o' : Object T} {e : Action ι T E × Output T E}

theorem callsOf_snoc : callsOf k (tr ++ [e])
    = callsOf k tr ++ if e.2.object = k then e.2.called.toList else [] := by
  rw [callsOf, List.flatMap_append, List.flatMap_singleton]
  rfl

theorem agrees_of_not_answers (h : ¬ Answers e) (v : Option T) : Agrees v e := by
  obtain ⟨a, object, called, reply⟩ := e
  cases reply with
  | done | ready | threw => cases a <;> trivial
  | value | holds => exact absurd trivial h

theorem forall_snoc {p : Action ι T E × Output T E → Prop}
    (h : ∀ e ∈ tr, e.2.object = k → p e) (he : p e) :
    ∀ e' ∈ tr ++ [e], e'.2.object = k → p e' := by
  intro e' hmem hk
  rcases List.mem_append.mp hmem with hmem | hmem
  · exact h e' hmem hk
  · rwa [List.mem_singleton.mp hmem]

/-- A step that uses another implementation. -/
theorem Course.other (h : Course tr k o) (hne : e.2.object ≠ k) (himpl : o'.impl = o.impl)
    (hdeleted : o'.deleted = o.deleted) : Course (tr ++ [e]) k o' := by
  have hcalls : callsOf k (tr ++ [e]) = callsOf k tr := by
    rw [callsOf_snoc, if_neg hne, List.append_nil]
  have hall : ∀ {p : Action ι T E × Output T E → Prop}, (∀ e ∈ tr, e.2.object = k → p e) →
      ∀ e' ∈ tr ++ [e], e'.2.object = k → p e' := by
    intro p h e' hmem hk
    rcases List.mem_append.mp hmem with hmem | hmem
    · exact h e' hmem hk
    · rw [List.mem_singleton.mp hmem] at hk
      exact absurd hk hne
  cases h with
  | pending hi hl hp =>
      obtain ⟨errors, hc, hno⟩ := hp
      exact .pending (himpl.trans hi) (hdeleted.trans hl) ⟨errors, hcalls.trans hc, hall hno⟩
  | fulfilled hi hf =>
      obtain ⟨errors, hc, hag⟩ := hf
      exact .fulfilled (himpl.trans hi) ⟨errors, hcalls.trans hc, hall hag⟩

/-- A step that uses this one. -/
theorem Course.touch (h : Course tr k o) (hk : e.2.object = k) (ht : Touches o o' e) :
    Course (tr ++ [e]) k o' := by
  have hcalls : callsOf k (tr ++ [e]) = callsOf k tr ++ e.2.called.toList := by
    rw [callsOf_snoc, if_pos hk]
  cases ht with
  | leaves hcalled himpl hdeleted hanswer hagrees =>
      rw [hcalled, Option.toList_none, List.append_nil] at hcalls
      cases h with
      | pending hi hl hp =>
          obtain ⟨errors, hc, hno⟩ := hp
          refine .pending (himpl.trans hi) (hdeleted.trans hl)
            ⟨errors, hcalls.trans hc, forall_snoc hno fun ha => ?_⟩
          have hready := hanswer ha
          rw [hi] at hready
          exact absurd hready (by simp [Impl.isReady])
      | fulfilled hi hf =>
          obtain ⟨errors, hc, hag⟩ := hf
          exact .fulfilled (himpl.trans hi) ⟨errors, hcalls.trans hc, forall_snoc hag (hagrees _)⟩
  | waits outcome hcalled himpl hok herror =>
      rw [hcalled] at hcalls
      cases h with
      | pending hi hl hp =>
          obtain ⟨errors, hc, hno⟩ := hp
          rw [hi] at hcalls himpl hok herror
          cases outcome with
          | ok v =>
              refine .fulfilled himpl ⟨errors, ?_, forall_snoc ?_ (hok _ rfl)⟩
              · rw [hcalls, hc]
                rfl
              · exact fun e' hmem he => agrees_of_not_answers (hno e' hmem he) _
          | error err =>
              obtain ⟨hanswer, hdeleted⟩ := herror err rfl
              have hno' := forall_snoc hno hanswer
              refine .pending himpl (hdeleted.trans hl) ⟨errors ++ [err], ?_, hno'⟩
              rw [hcalls, hc, List.map_append]
              rfl
      | fulfilled hi hf =>
          obtain ⟨errors, hc, hag⟩ := hf
          rw [hi] at hcalls himpl hok
          refine .fulfilled himpl ⟨errors, ?_, forall_snoc hag (hok _ rfl)⟩
          rw [hcalls, hc]
          exact List.append_nil _

end Course

/-! ## References -/

section References

omit [DecidableEq ι]

variable {s s' : State ι T} {x : ι} {j k : Nat} {outcome : Except E T}

theorem setObject_self (s : State ι T) (k : Nat) (o : Object T) : (s.setObject k o).objects k = o :=
  Function.update_self _ _ _

theorem setObject_of_ne (s : State ι T) (o : Object T) (h : j ≠ k) :
    (s.setObject k o).objects j = s.objects j :=
  Function.update_of_ne h _ _

/-- What an object keeps of the one it replaces is the same everywhere. -/
theorem setObject_proj {β : Type} (proj : Object T → β) {o : Object T}
    (ho : proj o = proj (s.objects k)) (j : Nat) :
    proj ((s.setObject k o).objects j) = proj (s.objects j) := by
  by_cases hj : j = k
  · rw [hj, setObject_self, ho]
  · rw [setObject_of_ne s o hj]

theorem ref_refCount (s : State ι T) {k : Nat} (h0 : 0 ≤ (s.objects k).refCount)
    (hlt : (s.objects k).refCount + 1 < 2 ^ 31) (j : Nat) :
    ((s.ref k).objects j).refCount
      = (s.objects j).refCount + if some k = some j then 1 else 0 := by
  rw [State.ref]
  by_cases hj : j = k
  · rw [hj, setObject_self, if_pos rfl]
    exact SpinLock.toInt32_of_lt (by omega) hlt
  · rw [setObject_of_ne s _ hj, if_neg fun he => hj (Option.some.inj he).symm, add_zero]

theorem ref_impl (s : State ι T) (k : Nat) :
    ∀ j, ((s.ref k).objects j).impl = (s.objects j).impl :=
  setObject_proj Object.impl rfl

theorem ref_deleted (s : State ι T) (k : Nat) :
    ∀ j, ((s.ref k).objects j).deleted = (s.objects j).deleted :=
  setObject_proj Object.deleted rfl

theorem use_refCount (s : State ι T) (k : Nat) (outcome : Except E T)
    (reply : Option T → Reply T E) :
    ∀ j, ((s.use k outcome reply).2.objects j).refCount = (s.objects j).refCount :=
  setObject_proj Object.refCount rfl

theorem use_deleted (s : State ι T) (k : Nat) (outcome : Except E T)
    (reply : Option T → Reply T E) :
    ∀ j, ((s.use k outcome reply).2.objects j).deleted = (s.objects j).deleted :=
  setObject_proj Object.deleted rfl

/-- What `unref` leaves alone. -/
structure Unref (s s' : State ι T) (j : Nat) : Prop where
  futures : s'.futures = s.futures
  created : s'.created = s.created
  others : ∀ k, k ≠ j → s'.objects k = s.objects k
  refCount : (s'.objects j).refCount = (s.objects j).refCount - 1
  deleted : (s'.objects j).deleted = if (s.objects j).refCount - 1 = 0 then true
    else (s.objects j).deleted

theorem unref_frame (s : State ι T) {j : Nat} (hpos : 0 < (s.objects j).refCount)
    (hlt : (s.objects j).refCount < 2 ^ 31) (outcome : Except E T) :
    Unref s (s.unref j outcome).2 j := by
  rw [State.unref, SpinLock.toInt32_of_lt (by omega) (by omega)]
  by_cases h : (s.objects j).refCount - 1 = 0
  · rw [if_pos h]
    refine ⟨rfl, rfl, fun k hk => setObject_of_ne s _ hk, ?_, ?_⟩
    · exact (congrArg Object.refCount (setObject_self s j _)).trans h.symm
    · exact (congrArg Object.deleted (setObject_self s j _)).trans (if_pos h).symm
  · rw [if_neg h]
    refine ⟨rfl, rfl, fun k hk => setObject_of_ne s _ hk, ?_, ?_⟩
    · rw [setObject_self]
    · rw [setObject_self, if_neg h]

/-- `unref` leaves the implementation alone, or deletes it after `wait`. -/
theorem unref_touches {a : Action ι T E} (ha : ∀ v, Agrees v (a, ⟨j, (s.unref j outcome).1, .done⟩))
    (hrun : (s.unref j outcome).2.terminated = false) :
    Touches (s.objects j) ((s.unref j outcome).2.objects j)
      (a, ⟨j, (s.unref j outcome).1, .done⟩) := by
  rw [State.unref] at ha hrun ⊢
  by_cases h : toInt32 ((s.objects j).refCount - 1) = 0
  · rw [if_pos h] at ha hrun ⊢
    refine .waits outcome rfl ?_ (fun v _ => ha v) ?_
    · exact congrArg Object.impl (setObject_self s j _)
    · -- the exception would have left the destructor
      intro err he
      simp [Waited.threw, he] at hrun
  · rw [if_neg h] at ha hrun ⊢
    refine .leaves rfl ?_ ?_ (fun ha => ha.elim) ha
    · rw [setObject_self]
    · rw [setObject_self]

variable [Fintype ι]

/-- The reference counts are exact, and an implementation exists as long as it is referenced. -/
structure Counted (s : State ι T) : Prop where
  refCount : ∀ k, (s.objects k).refCount = countWhere (fun f => f = some k) s.futures
  live : ∀ k, k < s.created → ((s.objects k).deleted = false ↔ 0 < (s.objects k).refCount)
  bound : ∀ x k, s.futures x = some k → k < s.created

theorem Counted.pos (h : Counted s) (hx : s.futures x = some k) :
    0 < (s.objects k).refCount := by
  rw [h.refCount k]
  exact Int.natCast_pos.mpr (countWhere_pos _ hx)

/-- The count is that of the futures, so it is in the range of an `int32_t`. -/
theorem Counted.lt (h : Counted s) (hfew : Fintype.card ι < 2 ^ 31) (k : Nat) :
    (s.objects k).refCount < 2 ^ 31 := by
  have hle := countWhere_le (fun f => f = some k) s.futures
  rw [h.refCount k]
  omega

/-- There is room for one more reference, by a variable that does not have it. -/
theorem Counted.room [DecidableEq ι] (h : Counted s) (hfew : Fintype.card ι < 2 ^ 31)
    (hx : s.futures x ≠ some k) :
    0 ≤ (s.objects k).refCount ∧ (s.objects k).refCount + 1 < 2 ^ 31 := by
  have hcount := countWhere_update (fun f => f = some k) s.futures x (some k)
  have hle := countWhere_le (fun f => f = some k) (Function.update s.futures x (some k))
  rw [if_neg hx, if_pos rfl] at hcount
  rw [h.refCount k]
  omega

/-- `wait` changes no reference. -/
theorem Counted.same (h : Counted s) (hfutures : s'.futures = s.futures)
    (hcreated : s'.created = s.created)
    (hobjects : ∀ k, (s'.objects k).refCount = (s.objects k).refCount ∧
      (s'.objects k).deleted = (s.objects k).deleted) : Counted s' := by
  refine ⟨?_, ?_, ?_⟩
  · intro k
    rw [(hobjects k).1, hfutures]
    exact h.refCount k
  · intro k hk
    rw [(hobjects k).1, (hobjects k).2]
    exact h.live k (hcreated ▸ hk)
  · rw [hfutures, hcreated]
    exact h.bound

end References

/-! ## Steps -/

section Steps

theorem add_self (s : State ι T) (x : ι) (impl : Impl T) :
    (s.add x impl).objects s.created = ⟨impl, 1, false⟩ :=
  Function.update_self _ _ _

theorem add_of_ne (s : State ι T) (x : ι) (impl : Impl T) {k : Nat} (hk : k ≠ s.created) :
    (s.add x impl).objects k = s.objects k :=
  Function.update_of_ne hk _ _

variable [Fintype ι] {tr : History ι T E} {s s' : State ι T} {x : ι} {a : Action ι T E}
  {o : Output T E}

/-- A variable changes, and with it the counts of what it referred to and what it refers to. -/
theorem Counted.update (h : Counted s) {y : Option Nat} (n : Nat)
    (hfutures : s'.futures = Function.update s.futures x y)
    (hrefs : ∀ k, (s'.objects k).refCount + (if s.futures x = some k then 1 else 0)
      = (s.objects k).refCount + (if y = some k then 1 else 0))
    (hcreated : s'.created = s.created + n)
    (hlive : ∀ k, k < s'.created →
      ((s'.objects k).deleted = false ↔ 0 < (s'.objects k).refCount))
    (hy : ∀ k, y = some k → k < s'.created) : Counted s' := by
  refine ⟨?_, hlive, ?_⟩
  · intro k
    have hcount := countWhere_update (fun f => f = some k) s.futures x y
    have hk := hrefs k
    rw [h.refCount k] at hk
    rw [hfutures]
    split_ifs at hcount hk <;> omega
  · intro u k hu
    rw [hfutures] at hu
    rcases update_cases hu with ⟨-, he⟩ | ⟨-, hu⟩
    · exact hy k he.symm
    · have := h.bound u k hu
      omega

theorem Counted.add (h : Counted s) (impl : Impl T) (hx : s.futures x = none) :
    Counted (s.add x impl) := by
  -- nothing referred to the new implementation before
  have hfresh : (s.objects s.created).refCount = 0 := by
    rw [h.refCount, Nat.cast_eq_zero, countWhere_eq_zero_iff]
    exact fun u hu => absurd (h.bound u _ hu) (Nat.lt_irrefl _)
  refine h.update 1 (x := x) (y := some s.created) rfl ?_ rfl ?_ ?_
  · intro k
    rw [hx, if_neg nofun, add_zero]
    by_cases hk : k = s.created
    · rw [hk, add_self, if_pos rfl, hfresh, zero_add]
    · rw [add_of_ne _ _ _ hk, if_neg fun he => hk (Option.some.inj he).symm, add_zero]
  · intro k hk
    by_cases hk' : k = s.created
    · rw [hk', add_self]
      exact iff_of_true rfl Int.one_pos
    · rw [add_of_ne _ _ _ hk']
      exact h.live k (lt_of_le_of_ne (Nat.le_of_lt_succ hk) hk')
  · rintro k ⟨⟩
    exact Nat.lt_succ_self _

theorem Counted.copy (h : Counted s) (hfew : Fintype.card ι < 2 ^ 31) {k : Nat} {y : ι}
    (hx : s.futures x = none) (hy : s.futures y = some k) :
    Counted ((s.ref k).setFuture x (some k)) := by
  obtain ⟨h0, hlt⟩ := h.room hfew (x := x) (k := k) (by rw [hx]; nofun)
  have hrefs : ∀ j, (((s.ref k).setFuture x (some k)).objects j).refCount
      = (s.objects j).refCount + if some k = some j then 1 else 0 := ref_refCount s h0 hlt
  have hdeleted : ∀ j, (((s.ref k).setFuture x (some k)).objects j).deleted
      = (s.objects j).deleted := ref_deleted s k
  refine h.update 0 (x := x) (y := some k) rfl ?_ rfl ?_ ?_
  · intro j
    rw [hx, if_neg nofun, add_zero]
    exact hrefs j
  · intro j hj
    rw [hrefs, hdeleted, h.live j hj]
    split_ifs with hk
    · cases hk
      exact iff_of_true (h.pos hy) (Int.lt_add_one_of_le h0)
    · rw [add_zero]
  · rintro j ⟨⟩
    exact h.bound y k hy

/-- A variable lets go of an implementation, after it may have taken another one. -/
theorem Counted.release (h : Counted s) {s1 : State ι T} {j : Nat} {y : Option Nat}
    (hx : s.futures x = some j) (hu : Unref s1 s' j) (hne : y ≠ some j)
    (hfutures : s1.futures = Function.update s.futures x y) (hcreated : s1.created = s.created)
    (hrefs : ∀ k, (s1.objects k).refCount
      = (s.objects k).refCount + if y = some k then 1 else 0)
    (hdeleted : ∀ k, (s1.objects k).deleted = (s.objects k).deleted)
    (hy : ∀ k, y = some k → (s.objects k).deleted = false ∧ k < s.created) : Counted s' := by
  have hpos := h.pos hx
  have hj : (s1.objects j).refCount = (s.objects j).refCount := by
    rw [hrefs, if_neg hne, add_zero]
  refine h.update 0 (x := x) (y := y) (hu.futures.trans hfutures) ?_ ?_ ?_ ?_
  · intro k
    rw [hx]
    by_cases hk : k = j
    · rw [hk, hu.refCount, hj, if_pos rfl, if_neg hne]
      omega
    · rw [hu.others k hk, hrefs, if_neg fun he => hk (Option.some.inj he).symm, add_zero]
  · rw [hu.created, hcreated]
    rfl
  · intro k hk
    rw [hu.created, hcreated] at hk
    by_cases hkj : k = j
    · rw [hkj, hu.refCount, hu.deleted, hj, hdeleted]
      have hlive := (h.live j (h.bound x j hx)).mpr hpos
      split_ifs with hzero
      · exact iff_of_false nofun (by omega)
      · exact iff_of_true hlive (by omega)
    · rw [hu.others k hkj, hrefs, hdeleted, h.live k hk]
      split_ifs with hyk
      · have hk0 := (h.live k hk).mp (hy k hyk).1
        exact iff_of_true hk0 (by omega)
      · rw [add_zero]
  · intro k hyk
    rw [hu.created, hcreated]
    exact (hy k hyk).2

/-- A step that makes no new implementation uses one that is there. -/
structure Uses (s s' : State ι T) (a : Action ι T E) (o : Output T E) : Prop where
  counted : Counted s'
  created : s'.created = s.created
  object : o.object < s.created
  touches : Touches (s.objects o.object) (s'.objects o.object) (a, o)
  others : ∀ k, k ≠ o.object →
    (s'.objects k).impl = (s.objects k).impl ∧ (s'.objects k).deleted = (s.objects k).deleted

omit [DecidableEq ι] in
theorem Counted.uses_wait (h : Counted s) {k : Nat} (hx : s.futures x = some k)
    (outcome : Except E T) (reply : Option T → Reply T E)
    (hreply : ∀ v, Agrees v (a, ⟨k, ((s.objects k).impl.wait outcome).called, reply v⟩)) :
    Uses s (s.use k outcome reply).2 a (s.use k outcome reply).1 := by
  refine ⟨h.same rfl rfl ?_, rfl, h.bound x k hx, .waits outcome rfl ?_ ?_ ?_, ?_⟩
  · exact fun j => ⟨use_refCount s k outcome reply j, use_deleted s k outcome reply j⟩
  · exact congrArg Object.impl (setObject_self s k _)
  · intro v hv
    have hv : ((s.objects k).impl.wait outcome).reply = .ok v := hv
    simp only [State.use, hv]
    exact hreply v
  · intro err herr
    have herr : ((s.objects k).impl.wait outcome).reply = .error err := herr
    refine ⟨?_, use_deleted s k outcome reply k⟩
    simp only [State.use, Answers, herr]
    exact id
  · intro j hj
    exact ⟨congrArg Object.impl (setObject_of_ne s _ hj), use_deleted s k outcome reply j⟩

theorem Counted.uses_assign (h : Counted s) (hfew : Fintype.card ι < 2 ^ 31) {j k : Nat} {y : ι}
    (hx : s.futures x = some j) (hy : s.futures y = some k) (hjk : j ≠ k) {outcome : Except E T}
    (hrun : (((s.setFuture x (some k)).ref k).unref j outcome).2.terminated = false) :
    Uses s (((s.setFuture x (some k)).ref k).unref j outcome).2 (.assign x y outcome)
      ⟨j, (((s.setFuture x (some k)).ref k).unref j outcome).1, .done⟩ := by
  have hj : ((s.setFuture x (some k)).ref k).objects j = s.objects j :=
    setObject_of_ne (s.setFuture x (some k)) _ hjk
  obtain ⟨h0, hlt⟩ := h.room hfew (x := x) (k := k) fun he =>
    hjk (Option.some.inj (hx.symm.trans he))
  have hu := unref_frame ((s.setFuture x (some k)).ref k) (j := j) (by rw [hj]; exact h.pos hx)
    (by rw [hj]; exact h.lt hfew j) outcome
  have hdeleted : ∀ i, (((s.setFuture x (some k)).ref k).objects i).deleted
      = (s.objects i).deleted := ref_deleted (s.setFuture x (some k)) k
  refine ⟨?_, hu.created, h.bound x j hx, ?_, ?_⟩
  · refine h.release hx hu (fun he => hjk (Option.some.inj he).symm) rfl rfl ?_ hdeleted ?_
    · exact ref_refCount (s.setFuture x (some k)) h0 hlt
    · rintro i ⟨⟩
      exact ⟨(h.live k (h.bound y k hy)).mpr (h.pos hy), h.bound y k hy⟩
  · have ht := unref_touches (a := .assign x y outcome) (fun _ => trivial) hrun
    rwa [hj] at ht
  · intro i hi
    rw [hu.others i hi]
    exact ⟨ref_impl (s.setFuture x (some k)) k i, hdeleted i⟩

theorem Counted.uses (h : Counted s) (hfew : Fintype.card ι < 2 ^ 31)
    (hs : step s a = some (o, s')) (hrun : s'.terminated = false)
    (hmake : ∀ x b, a ≠ .makeFunction x b) (hmake' : ∀ x v, a ≠ .makeKnown x v) :
    Uses s s' a o := by
  cases a with
  | makeFunction x b => exact absurd rfl (hmake x b)
  | makeKnown x v => exact absurd rfl (hmake' x v)
  | copy x y =>
      simp only [step] at hs
      split at hs
      · rename_i k hx hy
        cases hs
        exact ⟨h.copy hfew hx hy, rfl, h.bound y k hy,
          .leaves rfl (ref_impl s k k) (ref_deleted s k k) (fun ha => ha.elim) (fun _ => trivial),
          fun j _ => ⟨ref_impl s k j, ref_deleted s k j⟩⟩
      · cases hs
  | assign x y outcome =>
      simp only [step] at hs
      split at hs
      · rename_i j k hx hy
        split_ifs at hs with hjk
        · cases hs
          exact ⟨h, rfl, h.bound y k hy, .leaves rfl rfl rfl (fun ha => ha.elim) (fun _ => trivial),
            fun _ _ => ⟨rfl, rfl⟩⟩
        · cases hs
          exact h.uses_assign hfew hx hy hjk hrun
      · cases hs
  | destroy x outcome =>
      simp only [step] at hs
      split at hs
      · rename_i k hx
        cases hs
        have hu := unref_frame (s.setFuture x none) (h.pos hx) (h.lt hfew k) outcome
        refine ⟨?_, hu.created, h.bound x k hx, ?_, ?_⟩
        · refine h.release (y := none) hx hu nofun rfl rfl ?_ (fun _ => rfl) nofun
          exact fun i => by rw [if_neg nofun, add_zero]; rfl
        · exact unref_touches (a := .destroy x outcome) (fun _ => trivial) hrun
        · intro j hj
          rw [hu.others j hj]
          exact ⟨rfl, rfl⟩
      · cases hs
  | wait x outcome =>
      obtain ⟨k, hx, he⟩ := Option.map_eq_some_iff.mp hs
      cases he
      exact h.uses_wait hx outcome _ fun _ => rfl
  | test x p outcome =>
      obtain ⟨k, hx, he⟩ := Option.map_eq_some_iff.mp hs
      cases he
      exact h.uses_wait hx outcome _ fun _ => rfl
  | isReady x =>
      obtain ⟨k, hx, he⟩ := Option.map_eq_some_iff.mp hs
      cases he
      exact ⟨h, rfl, h.bound x k hx, .leaves rfl rfl rfl (fun ha => ha) (fun _ => trivial),
        fun _ _ => ⟨rfl, rfl⟩⟩

/-- The event that made the implementation `k` with a function. -/
def Made (tr : History ι T E) (k : Nat) : Prop :=
  ∃ x, (Action.makeFunction x true, Output.mk k none .done) ∈ tr

structure Inv (tr : History ι T E) (s : State ι T) : Prop where
  counted : Counted s
  seen : ∀ e ∈ tr, e.2.object < s.created
  course : ∀ k, Made tr k → Course tr k (s.objects k)

omit [Fintype ι] [DecidableEq ι] in
theorem made_snoc {k : Nat} (h : Made (tr ++ [(a, o)]) k) :
    Made tr k ∨ (∃ x, a = .makeFunction x true) ∧ o = ⟨k, none, .done⟩ := by
  obtain ⟨x, h⟩ := h
  rcases List.mem_append.mp h with h | h
  · exact Or.inl ⟨x, h⟩
  · cases List.mem_singleton.mp h
    exact Or.inr ⟨⟨x, rfl⟩, rfl⟩

omit [Fintype ι] [DecidableEq ι] in
/-- Nothing has happened yet to an implementation that does not exist. -/
theorem pending_new (hseen : ∀ e ∈ tr, e.2.object < s.created)
    (he : ¬ Answers (a, (⟨s.created, none, .done⟩ : Output T E))) :
    Pending (tr ++ [(a, ⟨s.created, none, .done⟩)]) s.created := by
  have hnone : ∀ e ∈ tr, e.2.object ≠ s.created := fun e h => Nat.ne_of_lt (hseen e h)
  refine ⟨[], ?_, forall_snoc (fun e h hk => absurd hk (hnone e h)) he⟩
  rw [callsOf_snoc, if_pos rfl, callsOf, List.flatMap_eq_nil_iff.mpr fun e h => if_neg (hnone e h)]
  rfl

theorem Inv.make (h : Inv tr s) {impl : Impl T} (hs : s.make x impl = some (o, s'))
    (hfunction : ∀ y, a = .makeFunction y true → ∃ result, impl = .function ⟨true, result⟩) :
    Inv (tr ++ [(a, o)]) s' := by
  obtain ⟨hx, he⟩ := Option.ite_none_right_eq_some.mp hs
  cases he
  refine ⟨h.counted.add impl hx, ?_, ?_⟩
  · intro e he
    rcases List.mem_append.mp he with he | he
    · exact Nat.lt_succ_of_lt (h.seen e he)
    · rw [List.mem_singleton.mp he]
      exact Nat.lt_succ_self _
  · intro k hk
    rcases made_snoc hk with hk | ⟨⟨y, ha⟩, ho⟩
    · obtain ⟨y, hmem⟩ := hk
      have hne : k ≠ s.created := Nat.ne_of_lt (h.seen _ hmem)
      have hobj := add_of_ne s x impl hne
      exact (h.course k ⟨y, hmem⟩).other hne.symm (congrArg Object.impl hobj)
        (congrArg Object.deleted hobj)
    · cases ho
      obtain ⟨result, rfl⟩ := hfunction y ha
      rw [add_self]
      exact .pending rfl rfl (pending_new h.seen id)

omit [DecidableEq ι] in
theorem Inv.uses (h : Inv tr s) (hu : Uses s s' a o) (hmake : ∀ x, a ≠ .makeFunction x true) :
    Inv (tr ++ [(a, o)]) s' := by
  refine ⟨hu.counted, ?_, ?_⟩
  · intro e he
    rw [hu.created]
    rcases List.mem_append.mp he with he | he
    · exact h.seen e he
    · rw [List.mem_singleton.mp he]
      exact hu.object
  · intro k hk
    rcases made_snoc hk with hk | ⟨⟨x, ha⟩, -⟩
    · by_cases hko : k = o.object
      · subst hko
        exact (h.course _ hk).touch rfl hu.touches
      · obtain ⟨himpl, hdeleted⟩ := hu.others k hko
        exact (h.course k hk).other (Ne.symm hko) himpl hdeleted
    · exact absurd ha (hmake x)

theorem inv_step (h : Inv tr s) (hfew : Fintype.card ι < 2 ^ 31)
    (hs : step s a = some (o, s')) (hrun : s'.terminated = false) : Inv (tr ++ [(a, o)]) s' := by
  cases a with
  | makeFunction x b =>
      refine h.make hs ?_
      rintro y ⟨⟩
      exact ⟨none, rfl⟩
  | makeKnown x v => exact h.make hs nofun
  | copy | assign | destroy | wait | test | isReady =>
      exact h.uses (h.counted.uses hfew hs hrun nofun nofun) nofun

end Steps

variable [Fintype ι]

theorem inv_of_trace {tr : History ι T E} {s : State ι T} (h : futures.Trace tr s)
    (hfew : Fintype.card ι < 2 ^ 31) (hrun : s.terminated = false) : Inv tr s := by
  induction h with
  | nil =>
      refine ⟨⟨?_, nofun, nofun⟩, nofun, ?_⟩
      · exact fun k => (Nat.cast_eq_zero.mpr ((countWhere_eq_zero_iff _ _).mpr nofun)).symm
      · rintro k ⟨x, hx⟩
        exact absurd hx List.not_mem_nil
  | snoc _ hs ih =>
      obtain ⟨hs0, hs⟩ := Option.ite_none_left_eq_some.mp hs
      exact inv_step (ih (Bool.eq_false_iff.mpr hs0)) hfew hs hrun

/-- **A future is fulfilled once.** After every history of a program that was not terminated, the
function of a future has failed in all its calls, some copy of the future exists and no copy has
given out anything; or it has returned in its last call, after it had failed in the others, and
whatever the copies have given out is the value that it returned. In particular it has returned once
when no copy exists any more. -/
theorem future_fulfilled_once {tr : History ι T E} {s : State ι T} {k : Nat}
    (h : futures.Trace tr s) (hfew : Fintype.card ι < 2 ^ 31) (hrun : s.terminated = false)
    (hmade : Made tr k) :
    (Pending tr k ∧ ∃ x, s.futures x = some k) ∨ ∃ v, Fulfilled tr k v := by
  have hinv := inv_of_trace h hfew hrun
  obtain ⟨y, hmem⟩ := hmade
  cases hinv.course k ⟨y, hmem⟩ with
  | fulfilled _ hf => exact Or.inr ⟨_, hf⟩
  | pending _ hlive hp =>
      refine Or.inl ⟨hp, ?_⟩
      have hpos := (hinv.counted.live k (hinv.seen _ hmem)).mp hlive
      rw [hinv.counted.refCount k, Int.natCast_pos] at hpos
      by_contra hno
      rw [(countWhere_eq_zero_iff _ _).mpr fun x hx => hno ⟨x, hx⟩] at hpos
      exact absurd hpos (Nat.lt_irrefl 0)

/-- A function that fails, returns for a copy, and is not called again. -/
def copied : List (Action Bool Nat Unit) :=
  [.makeFunction false true, .copy true false, .wait false (.error ()), .isReady true,
    .wait true (.ok 7), .destroy true (.ok 8), .test false (· == 7) (.ok 9), .destroy false (.ok 9)]

theorem copied_future_fulfilled :
    ∃ tr s, (futures (E := Unit)).run copied (futures (E := Unit)).init = some (tr, s) ∧
      callsOf 0 tr = [.error (), .ok 7] ∧
      ((Pending tr 0 ∧ ∃ x, s.futures x = some 0) ∨ ∃ v, Fulfilled tr 0 v) := by
  have hr : (futures (E := Unit)).run copied (futures (E := Unit)).init = some (_, _) := rfl
  refine ⟨_, _, hr, rfl, future_fulfilled_once (Machine.Trace.of_run copied hr) (by decide) rfl ?_⟩
  exact ⟨false, List.mem_cons_self⟩

end Lunchbox.Future
