import Lunchbox.Lib.Count
import Lunchbox.Lib.Machine

set_option autoImplicit false

/-! # `Monitor`

The monitored variables of `monitor.h`: any number of monitors `κ`, used by any number of threads
`ι`. A monitor has a value, a mutex and a condition variable. One step is one access to a value,
one locking or unlocking of a mutex, one `notify_all`, or what the condition variable does in one
piece: releasing the mutex and falling asleep. A sleeping thread wakes after a `notify_all`, at
the end of its timeout, or for no reason, and then locks the mutex again.

What a thread does next is `Pc.next`, from its place and the values it can read; what this does to
the monitors is `State.perform`.
-/

namespace Lunchbox.Monitor

open StateMachine

variable {T ι κ : Type}

/-! ## The operators of the template -/

/-- The operators of the monitored type, apart from its order. -/
structure Operators (T : Type) where
  inc : T → T
  dec : T → T
  or : T → T → T
  and : T → T → T
  plus : T → T → T
  toBool : T → Bool
  /-- `|=` with this argument returns before it locks the mutex -/
  skipsOr : T → Bool
  or_skipped : ∀ v, skipsOr v = true → ∀ x, or x v = x

/-- `Monitor<bool>`, with its own `++`, `--` and `|=`. -/
def boolean : Operators Bool where
  inc := not
  dec := not
  or := or
  and := and
  plus := or
  toBool := id
  skipsOr := not
  or_skipped := by decide

/-- `Monitor<uint32_t>`. -/
def unsigned : Operators (Fin (2 ^ 32)) where
  inc x := x + 1
  dec x := x - 1
  or x y := x ||| y
  and x y := x &&& y
  plus := (· + ·)
  toBool x := x != 0
  skipsOr _ := false
  or_skipped := by simp

/-- `++`, `--`, `|=`, `&=` and `set`, which is also `operator=` with a value. -/
inductive Change (T : Type)
  | inc | dec | or (v : T) | and (v : T) | set (v : T)

def Change.apply (O : Operators T) : Change T → T → T
  | .inc, x => O.inc x
  | .dec, x => O.dec x
  | .or v, x => O.or x v
  | .and v, x => O.and x v
  | .set v, _ => v

/-- The predicates of the waits, and the comparisons with a value. -/
inductive Test (T : Type)
  | eq (v : T) | ne (v : T) | neither (v₁ v₂ : T)
  | ge (v : T) | le (v : T) | gt (v : T) | lt (v : T)

def Test.holds [LinearOrder T] : Test T → T → Bool
  | .eq v, x => x = v
  | .ne v, x => x ≠ v
  | .neither v₁ v₂, x => x ≠ v₁ ∧ x ≠ v₂
  | .ge v, x => v ≤ x
  | .le v, x => x ≤ v
  | .gt v, x => v < x
  | .lt v, x => x < v

/-- The comparisons with another monitor. -/
inductive Comparison
  | eq | ne | lt | gt | le | ge

def Comparison.test : Comparison → T → Test T
  | .eq, v => .eq v
  | .ne, v => .ne v
  | .lt, v => .lt v
  | .gt, v => .gt v
  | .le, v => .le v
  | .ge, v => .ge v

/-- The operators that lock the mutex and read the value: the comparisons with a value, the
conversion to `bool`, `+`, `|` and `&`. -/
inductive Query (T : Type)
  | test (p : Test T) | toBool | plus (v : T) | or (v : T) | and (v : T)

/-- What a call returns. -/
inductive Reply (T : Type)
  | done | value (v : T) | flag (b : Bool)
  deriving DecidableEq

def Query.answer [LinearOrder T] (O : Operators T) : Query T → T → Reply T
  | .test p, x => .flag (p.holds x)
  | .toBool, x => .flag (O.toBool x)
  | .plus v, x => .value (O.plus x v)
  | .or v, x => .value (O.or x v)
  | .and v, x => .value (O.and x v)

/-- `set` returns the old value, the others the monitor. -/
def Change.reply : Change T → T → Reply T
  | .set _, old => .value old
  | _, _ => .done

/-- The calls on one monitor. -/
inductive Op (T κ : Type)
  | change (c : Change T)
  | wait (p : Test T)
  | timedWait (p : Test T)
  | query (q : Query T)
  | compareWith (c : Comparison) (rhs : κ)
  | get

/-- The calls that return without the mutex, given the value they read: `get`, and the `|=` of
`Monitor<bool>` with `false`. -/
def Op.unlocked (O : Operators T) : Op T κ → T → Option (Reply T)
  | .get, x => some (.value x)
  | .change (.or v), _ => if O.skipsOr v then some .done else none
  | _, _ => none

/-! ## The threads -/

/-- The place of a thread. -/
inductive Pc (T κ : Type)
  | idle
  /-- before the lock of the mutex -/
  | entering (k : κ) (op : Op T κ)
  /-- the mutex is locked; for a wait, before an evaluation of the predicate -/
  | locked (k : κ) (op : Op T κ)
  /-- a change has read the value -/
  | modifying (k : κ) (c : Change T) (old : T)
  /-- a change has written the value, before `notify_all` -/
  | stored (k : κ) (r : Reply T)
  /-- the predicate of a wait held, before the value is read for the return -/
  | passed (k : κ)
  /-- a comparison with another monitor has read the own value -/
  | comparing (k : κ) (c : Comparison) (rhs : κ) (own : T)
  /-- the predicate of a wait did not hold -/
  | asleep (k : κ) (p : Test T) (timed marked : Bool)
  /-- a wait has to lock the mutex again -/
  | woken (k : κ) (p : Test T) (timed : Bool)
  /-- the same after the timeout -/
  | timedOut (k : κ) (p : Test T)
  /-- a timed wait evaluates its predicate after the timeout -/
  | expired (k : κ) (p : Test T)
  /-- `operator=` with a monitor, before the lock of the mutex -/
  | assigning (k src : κ)
  /-- the same with the mutex locked: `set` has a reference to the value of the source -/
  | copying (k src : κ)
  /-- before the mutex is unlocked -/
  | leaving (k : κ) (r : Reply T)
  | returning (r : Reply T)

/-- What a step does besides moving the thread to its next place. -/
inductive Access (T κ : Type)
  | none
  | lock (k : κ)
  | unlock (k : κ)
  | store (k : κ) (v : T)
  | notify (k : κ)

/-- What a step shows. -/
inductive Output (T κ : Type)
  | silent
  /-- the source of an assignment to the monitor was read -/
  | copied (k : κ) (v : T)
  | returned (r : Reply T)
  deriving DecidableEq

/-- The call of a wait, from what a sleeping thread remembers of it. -/
def waitOp (p : Test T) : Bool → Op T κ
  | true => .timedWait p
  | false => .wait p

section
variable [LinearOrder T]

/-- The evaluation of the predicate of a wait. -/
def evaluate (value : κ → T) (k : κ) (p : Test T) (timed : Bool) : Access T κ × Pc T κ :=
  if p.holds (value k) then
    (.none, if timed then .leaving k (.flag true) else .passed k)
  else
    (.unlock k, .asleep k p timed false)

/-- The next step of a thread at a place, given the values of the monitors. -/
def Pc.next (O : Operators T) (value : κ → T) :
    Pc T κ → Option (Output T κ × Access T κ × Pc T κ)
  | .idle => none
  | .entering k op =>
      match op.unlocked O (value k) with
      | some r => some (.silent, .none, .returning r)
      | none => some (.silent, .lock k, .locked k op)
  | .locked k (.change c) => some (.silent, .none, .modifying k c (value k))
  | .locked k (.wait p) => some (.silent, evaluate value k p false)
  | .locked k (.timedWait p) => some (.silent, evaluate value k p true)
  | .locked k (.query q) => some (.silent, .none, .leaving k (q.answer O (value k)))
  | .locked k (.compareWith c rhs) => some (.silent, .none, .comparing k c rhs (value k))
  -- `get` does not lock the mutex
  | .locked _ .get => none
  | .modifying k c old => some (.silent, .store k (c.apply O old), .stored k (c.reply old))
  | .stored k r => some (.silent, .notify k, .leaving k r)
  | .passed k => some (.silent, .none, .leaving k (.value (value k)))
  | .comparing k c rhs own =>
      some (.silent, .none, .leaving k (.flag ((c.test (value rhs)).holds own)))
  | .asleep k p timed marked =>
      if marked then some (.silent, .none, .woken k p timed) else none
  | .woken k p timed => some (.silent, .lock k, .locked k (waitOp p timed))
  | .timedOut k p => some (.silent, .lock k, .expired k p)
  | .expired k p => some (.silent, .none, .leaving k (.flag (p.holds (value k))))
  | .assigning k src => some (.silent, .lock k, .copying k src)
  -- the reference of `set` is read here, and the own value, which only this thread may change
  | .copying k src =>
      some (.copied k (value src), .none, .modifying k (.set (value src)) (value k))
  | .leaving k r => some (.silent, .unlock k, .returning r)
  | .returning r => some (.returned r, .none, .idle)

end

/-! ## The machine -/

structure State (T ι κ : Type) where
  value : κ → T
  owner : κ → Option ι
  pc : ι → Pc T κ

variable [DecidableEq ι]

def State.goto (s : State T ι κ) (t : ι) (pc : Pc T κ) : State T ι κ :=
  { s with pc := Function.update s.pc t pc }

@[simp] theorem goto_value (s : State T ι κ) (t : ι) (pc : Pc T κ) :
    (s.goto t pc).value = s.value := rfl

@[simp] theorem goto_owner (s : State T ι κ) (t : ι) (pc : Pc T κ) :
    (s.goto t pc).owner = s.owner := rfl

@[simp] theorem goto_pc_self (s : State T ι κ) (t : ι) (pc : Pc T κ) :
    (s.goto t pc).pc t = pc := Function.update_self ..

theorem goto_pc_of_ne (s : State T ι κ) {t u : ι} (pc : Pc T κ) (hu : u ≠ t) :
    (s.goto t pc).pc u = s.pc u := Function.update_of_ne hu ..

variable [DecidableEq κ]

/-- `notify_all` on the monitor `k`, for one thread. -/
def Pc.notified (k : κ) : Pc T κ → Pc T κ
  | .asleep k' p timed marked => .asleep k' p timed (marked || decide (k' = k))
  | pc => pc

/-- The access of a step of the thread `t`; a locked mutex blocks. -/
def State.perform (s : State T ι κ) (t : ι) : Access T κ → Option (State T ι κ)
  | .none => some s
  | .lock k =>
      if s.owner k = none then some { s with owner := Function.update s.owner k (some t) }
      else none
  | .unlock k => some { s with owner := Function.update s.owner k none }
  | .store k v => some { s with value := Function.update s.value k v }
  | .notify k => some { s with pc := fun u => (s.pc u).notified k }

variable [LinearOrder T]

def State.advance (O : Operators T) (s : State T ι κ) (t : ι) :
    Option (Output T κ × State T ι κ) :=
  match (s.pc t).next O s.value with
  | none => none
  | some (out, access, pc) => (s.perform t access).map fun s' => (out, s'.goto t pc)

theorem of_advance {O : Operators T} {s s' : State T ι κ} {t : ι} {out : Output T κ}
    (h : s.advance O t = some (out, s')) :
    ∃ r s₁, (s.pc t).next O s.value = some r ∧ s.perform t r.2.1 = some s₁ ∧ out = r.1 ∧
      s' = s₁.goto t r.2.2 := by
  unfold State.advance at h
  cases hn : (s.pc t).next O s.value with
  | none => simp [hn] at h
  | some r =>
      rw [hn] at h
      obtain ⟨s₁, hp, he⟩ := Option.map_eq_some_iff.mp h
      cases he
      exact ⟨r, s₁, rfl, hp, rfl, rfl⟩

inductive Action (T ι κ : Type)
  | call (t : ι) (k : κ) (op : Op T κ)
  | assign (t : ι) (k src : κ)
  | step (t : ι)
  /-- a sleeping thread wakes for no reason -/
  | spurious (t : ι)
  | timeout (t : ι)

def State.step (O : Operators T) (s : State T ι κ) :
    Action T ι κ → Option (Output T κ × State T ι κ)
  | .call t k op =>
      match s.pc t with
      | .idle => some (.silent, s.goto t (.entering k op))
      | _ => none
  | .assign t k src =>
      match s.pc t with
      | .idle => some (.silent, s.goto t (.assigning k src))
      | _ => none
  | .step t => s.advance O t
  | .spurious t =>
      match s.pc t with
      | .asleep k p timed _ => some (.silent, s.goto t (.woken k p timed))
      | _ => none
  | .timeout t =>
      match s.pc t with
      | .asleep k p true _ => some (.silent, s.goto t (.timedOut k p))
      | _ => none

/-- The monitors, constructed with the values `init`. -/
def monitors (O : Operators T) (init : κ → T) :
    Machine (State T ι κ) (Action T ι κ) (Output T κ) where
  init := ⟨init, fun _ => none, fun _ => .idle⟩
  step := State.step O

end Lunchbox.Monitor
