import Lunchbox.Lib.Count
import Lunchbox.Lib.Linearizable
import Mathlib.Data.BitVec

set_option autoImplicit false

/-! # `Atomic`

The atomic variables of `atomic.h`. On two of the three supported compilers the arithmetic
functions are single instructions; on the third one they are loops of a load and a
compare-and-swap. One step is one access to the variable by one thread.

The functions are linearizable on every platform (`atomic_linearizable`), so the loops may stand
for the instructions. A loop is repeated only because another call changed the variable in
between, which bounds the repetitions of each thread (`retries_le`).
-/

namespace Lunchbox.Atomic

open StateMachine Linearizability

variable {T ι : Type}

/-! ## The functions -/

inductive Platform
  | gnu | msvc | xlc

/-- The functions that compute the new value from the old one. `++` and `--` are `incAndGet` and
`decAndGet`, or as postfix operators `getAndAdd` and `getAndSub` of one; `+=` and `-=` are
`addAndGet` and `subAndGet`. -/
inductive Arith (T : Type)
  | getAndAdd (increment : T) | getAndSub (increment : T)
  | addAndGet (increment : T) | subAndGet (increment : T)
  | incAndGet | decAndGet

inductive Op (T : Type)
  | arith (f : Arith T)
  | compareAndSwap (expected newValue : T)
  | load
  | store (v : T)

inductive Reply (T : Type)
  | value (v : T) | flag (b : Bool) | done
  deriving DecidableEq

section
variable [AddGroup T] [One T]

/-- The new value and the returned value, given the old one: the builtin functions of the first
platform, and the body of the loops of the third one. -/
def Arith.result : Arith T → T → T × T
  | .getAndAdd d, oldv => (oldv + d, oldv)
  | .getAndSub d, oldv => (oldv - d, oldv)
  | .addAndGet d, oldv => (oldv + d, oldv + d)
  | .subAndGet d, oldv => (oldv - d, oldv - d)
  | .incAndGet, oldv => (oldv + 1, oldv + 1)
  | .decAndGet, oldv => (oldv - 1, oldv - 1)

/-- The same by `InterlockedExchangeAdd`, which returns the old value. -/
def Arith.interlocked : Arith T → T → T × T
  | .getAndAdd d, oldv => (oldv + d, oldv)
  | .getAndSub d, oldv => (oldv + -d, oldv)
  | .addAndGet d, oldv => (oldv + d, oldv + d)
  | .subAndGet d, oldv => (oldv + -d, oldv - d)
  | .incAndGet, oldv => (oldv + 1, oldv + 1)
  | .decAndGet, oldv => (oldv - 1, oldv - 1)

theorem interlocked_eq_result (f : Arith T) (oldv : T) : f.interlocked oldv = f.result oldv := by
  cases f with
  | getAndSub | subAndGet => rw [Arith.interlocked, ← sub_eq_add_neg]; rfl
  | getAndAdd | addAndGet | incAndGet | decAndGet => rfl
end

/-! ## The machine -/

/-- The place of a thread. -/
inductive Pc (T : Type)
  | idle
  /-- before the first access, or the next one of a loop -/
  | ready (op : Op T)
  /-- in a loop, before the compare-and-swap -/
  | swapping (f : Arith T) (oldv : T)
  | returning (r : Reply T)

structure State (T ι : Type) where
  value : T
  pc : ι → Pc T

inductive Action (T ι : Type)
  | call (t : ι) (op : Op T)
  | step (t : ι)

/-- What a step shows: that it wrote `newv` over `oldv`, that a loop is repeated, or the return. -/
inductive Output (T : Type)
  | silent
  | wrote (oldv newv : T)
  | retried
  | returned (r : Reply T)
  deriving DecidableEq

/-- An access that writes the new value over `oldv` and leads to the return. -/
def written (oldv : T) (r : T × T) : Output T × T × Pc T :=
  (.wrote oldv r.1, r.1, .returning (.value r.2))

variable [AddGroup T] [One T] [DecidableEq T]

/-- The next access of a thread to the variable. -/
def Pc.next (platform : Platform) (value : T) : Pc T → Option (Output T × T × Pc T)
  | .idle => none
  | .ready (.arith f) =>
      match platform with
      | .gnu => some (written value (f.result value))
      | .msvc => some (written value (f.interlocked value))
      | .xlc => some (.silent, value, .swapping f value)
  | .ready (.compareAndSwap expected newValue) =>
      if value = expected then some (.wrote value newValue, newValue, .returning (.flag true))
      else some (.silent, value, .returning (.flag false))
  | .ready .load => some (.silent, value, .returning (.value value))
  | .ready (.store v) => some (.wrote value v, v, .returning .done)
  | .swapping f oldv =>
      if value = oldv then some (written value (f.result oldv))
      else some (.retried, value, .ready (.arith f))
  | .returning r => some (.returned r, value, .idle)

variable [DecidableEq ι]

def State.step (platform : Platform) (s : State T ι) : Action T ι → Option (Output T × State T ι)
  | .call t op =>
      match s.pc t with
      | .idle => some (.silent, { s with pc := Function.update s.pc t (.ready op) })
      | _ => none
  | .step t =>
      ((s.pc t).next platform s.value).map fun r => (r.1, ⟨r.2.1, Function.update s.pc t r.2.2⟩)

/-- One variable, constructed with the value `init`. -/
def shared (platform : Platform) (init : T) : Machine (State T ι) (Action T ι) (Output T) where
  init := ⟨init, fun _ => .idle⟩
  step := State.step platform

theorem of_step {platform : Platform} {s s' : State T ι} {t : ι} {out : Output T}
    (h : s.step platform (.step t) = some (out, s')) :
    ∃ r, (s.pc t).next platform s.value = some r ∧ out = r.1 ∧
      s' = ⟨r.2.1, Function.update s.pc t r.2.2⟩ := by
  obtain ⟨r, hr, he⟩ := Option.map_eq_some_iff.mp h
  cases he
  exact ⟨r, hr, rfl, rfl⟩

theorem of_call (platform : Platform) {s s' : State T ι} {t : ι} {op : Op T} {out : Output T}
    (h : s.step platform (.call t op) = some (out, s')) :
    s.pc t = .idle ∧ out = .silent ∧ s' = ⟨s.value, Function.update s.pc t (.ready op)⟩ := by
  simp only [State.step] at h
  split at h
  next hpc =>
    cases h
    exact ⟨hpc, rfl, rfl⟩
  next => cases h

/-! ## The loops are atomic -/

/-- A variable whose calls happen at once. -/
def atomic (init : T) : Object T (Op T) (Reply T) where
  init := init
  apply v
    | .arith f => some (.value (f.result v).2, (f.result v).1)
    | .compareAndSwap expected newValue =>
        if v = expected then some (.flag true, newValue) else some (.flag false, v)
    | .load => some (.value v, v)
    | .store w => some (.done, w)

/-- The calls and returns of a history. -/
def see : Action T ι × Output T → List (Event ι (Op T) (Reply T))
  | (.call t op, _) => [.call t op]
  | (.step t, .returned r) => [.ret t r]
  | _ => []

/-- Whether the call of a thread has happened, from its place. -/
def Pc.status : Pc T → Status (Op T) (Reply T)
  | .idle => .idle
  | .ready op => .pending op
  | .swapping f _ => .pending (.arith f)
  | .returning r => .done r

def State.config (s : State T ι) : Config ι T (Op T) (Reply T) :=
  ⟨s.value, fun t => (s.pc t).status⟩

omit [AddGroup T] [One T] [DecidableEq T] in
theorem config_update (s : State T ι) (t : ι) (value : T) (pc : Pc T) :
    State.config ⟨value, Function.update s.pc t pc⟩
      = ({ s.config with obj := value }.goto t pc.status : Config ι T (Op T) (Reply T)) := by
  simp only [State.config, Config.goto, Config.mk.injEq, true_and]
  exact Function.comp_update Pc.status s.pc t pc

/-- **One access** is matched by the atomic variable. -/
theorem moves_next {platform : Platform} {init : T} {c : Config ι T (Op T) (Reply T)} {t : ι}
    {pc : Pc T} {r : Output T × T × Pc T} (h : pc.next platform c.obj = some r)
    (hst : c.status t = pc.status) :
    (atomic init).Moves c (see (.step t, r.1))
      ({ c with obj := r.2.1 }.goto t r.2.2.status) := by
  have hstay : (atomic init).Moves c [] c := .stay
  cases pc with
  | idle => cases h
  | ready op =>
      cases op with
      | arith f =>
          cases platform with
          | gnu => cases h; exact hstay.effect t hst rfl
          | msvc =>
              cases h
              rw [interlocked_eq_result]
              exact hstay.effect t hst rfl
          | xlc => cases h; exact Object.Moves.stay_at hst
      | compareAndSwap expected newValue =>
          simp only [Pc.next] at h
          split at h
          next he => cases h; exact hstay.effect t hst (if_pos he)
          next he => cases h; exact hstay.effect t hst (if_neg he)
      | load | store => cases h; exact hstay.effect t hst rfl
  | swapping f oldv =>
      simp only [Pc.next] at h
      split at h
      next he =>
        cases h
        subst he
        exact hstay.effect t hst rfl
      next => cases h; exact Object.Moves.stay_at hst
  | returning r => cases h; exact hstay.ret t hst

theorem moves_step {platform : Platform} {init : T} {s s' : State T ι} {a : Action T ι}
    {out : Output T} (hs : s.step platform a = some (out, s')) :
    (atomic init).Moves s.config (see (a, out)) s'.config := by
  cases a with
  | call t op =>
      obtain ⟨hpc, rfl, rfl⟩ := of_call platform hs
      rw [config_update]
      exact Object.Moves.stay.call t op (by simp [State.config, hpc, Pc.status])
  | step t =>
      obtain ⟨r, hn, rfl, rfl⟩ := of_step hs
      rw [config_update]
      exact moves_next (c := s.config) hn rfl

/-- **The functions are atomic** on every platform: in every history, the calls return what they
return when each of them happens at one point between its call and its return. -/
theorem atomic_linearizable {platform : Platform} {init : T}
    {tr : List (Action T ι × Output T)} {s : State T ι}
    (h : (shared platform init).Trace tr s) : Linearizable (atomic init) (tr.flatMap see) :=
  linearizable_of_config see State.config rfl (fun _ _ _ _ _ _ hs => moves_step hs) h

/-- Both threads read the variable before either of them swaps, and the second one repeats. -/
theorem two_increments_linearizable :
    Linearizable (atomic (0 : BitVec 32))
      [.call false (.arith (.getAndAdd 1)), .call true (.arith (.getAndAdd 1)),
        .ret true (.value 0), .ret false (.value 1)] := by
  have h := Machine.Trace.of_run (M := shared (ι := Bool) .xlc (0 : BitVec 32))
    [.call false (.arith (.getAndAdd 1)), .call true (.arith (.getAndAdd 1)), .step false,
      .step true, .step true, .step true, .step false, .step false, .step false, .step false] rfl
  exact atomic_linearizable h

/-! ## Repetitions -/

/-- The compare-and-swap of a thread would fail. -/
def Pc.stale (value : T) : Pc T → Bool
  | .swapping _ oldv => oldv ≠ value
  | _ => false

/-- A compare-and-swap of the thread failed. -/
def isRetry (t : ι) : Action T ι × Output T → Bool
  | (.step u, .retried) => u = t
  | _ => false

/-- Another thread changed the variable. -/
def isChange (t : ι) : Action T ι × Output T → Bool
  | (.step u, .wrote oldv newv) => u ≠ t ∧ oldv ≠ newv
  | _ => false

def retries (t : ι) (tr : List (Action T ι × Output T)) : Nat := tr.countP (isRetry t)

def changes (t : ι) (tr : List (Action T ι × Output T)) : Nat := tr.countP (isChange t)

/-- After its own access no thread is stale, a repetition is that of a stale thread, and a change
of the variable is reported. -/
theorem next_stale {platform : Platform} {value : T} {pc : Pc T} {r : Output T × T × Pc T}
    (h : pc.next platform value = some r) :
    r.2.2.stale r.2.1 = false ∧ (r.1 = .retried → pc.stale value = true) ∧
      (r.2.1 ≠ value → r.1 = .wrote value r.2.1) := by
  revert h
  fun_cases Pc.next platform value pc <;> intro h <;> cases h <;>
    simp_all [Pc.stale, written, eq_comm]

/-- **One step**: a thread that repeats its loop was stale, and only a change by another thread
makes it stale. -/
theorem stale_step {platform : Platform} {s s' : State T ι} {a : Action T ι} {out : Output T}
    (hs : s.step platform a = some (out, s')) (t : ι) :
    (isRetry t (a, out)).toNat + ((s'.pc t).stale s'.value).toNat
      ≤ ((s.pc t).stale s.value).toNat + (isChange t (a, out)).toNat := by
  cases a with
  | call u op =>
      obtain ⟨hpc, rfl, rfl⟩ := of_call platform hs
      by_cases hu : t = u
      · simp [isRetry, hu, Pc.stale]
      · simp [isRetry, hu]
  | step u =>
      obtain ⟨⟨out, v, pc⟩, hn, rfl, rfl⟩ := of_step hs
      obtain ⟨hfresh, hretry, hchange⟩ := next_stale hn
      by_cases hu : t = u
      · -- its own access: only a stale thread repeats, and it is not stale then
        subst hu
        simp only [Function.update_self, hfresh, Bool.toNat_false, Nat.add_zero]
        by_cases hout : out = .retried
        · rw [hretry hout]
          exact (Bool.toNat_le _).trans (Nat.le_add_right 1 _)
        · have hno : isRetry t (.step t, out) = false := by
            cases out <;> simp_all [isRetry]
          rw [hno]
          exact Nat.zero_le _
      · -- an access of another thread: it makes `t` stale only by a change
        have hno : isRetry t (.step u, out) = false := by
          cases out <;> simp [isRetry, Ne.symm hu]
        simp only [hno, Bool.toNat_false, Nat.zero_add, Function.update_of_ne hu]
        by_cases hv : v = s.value
        · rw [hv]
          exact Nat.le_add_right _ _
        · have hyes : isChange t (.step u, out) = true := by
            obtain rfl : out = .wrote s.value v := hchange hv
            simp [isChange, Ne.symm hu, Ne.symm hv]
          rw [hyes]
          exact (Bool.toNat_le _).trans (Nat.le_add_left 1 _)

/-- **Repetitions are bounded**: an attempt of a thread fails only if another thread changed the
variable since the thread read it, and each change makes at most one of its attempts fail. -/
theorem retries_le {platform : Platform} {init : T} {tr : List (Action T ι × Output T)}
    {s : State T ι} (h : (shared platform init).Trace tr s) (t : ι) :
    retries t tr ≤ changes t tr := by
  -- a stale thread has not used up the change that made it stale
  suffices hI : retries t tr + ((s.pc t).stale s.value).toNat ≤ changes t tr from
    Nat.le_of_add_right_le hI
  induction h with
  | nil => exact Nat.zero_le _
  | @snoc tr s a out s' _ hs ih =>
      have hstep := stale_step hs t
      simp only [Bool.toNat, Bool.cond_eq_ite] at hstep ih ⊢
      simp only [retries, changes, List.countP_append, List.countP_singleton] at ih ⊢
      omega

/-- Both threads read the variable before either of them swaps: one of two attempts fails. -/
theorem two_increments_one_retry :
    ∃ tr s, (shared (ι := Bool) .xlc (0 : BitVec 32)).Trace tr s ∧ retries false tr = 1 ∧
      changes false tr = 1 ∧ retries false tr ≤ changes false tr := by
  have h := Machine.Trace.of_run (M := shared (ι := Bool) .xlc (0 : BitVec 32))
    [.call false (.arith (.getAndAdd 1)), .call true (.arith (.getAndAdd 1)), .step false,
      .step true, .step true, .step false, .step false, .step false] rfl
  exact ⟨_, _, h, rfl, rfl, retries_le h false⟩

/-! ## Tickets -/

/-- The replies that calls returned. -/
def replies : List (Event ι (Op T) (Reply T)) → List (Reply T) :=
  List.filterMap fun
    | .ret _ r => some r
    | .call _ _ => none

/-- The number of calls. -/
def calls (es : List (Event ι (Op T) (Reply T))) : Nat :=
  es.countP fun
    | .call _ _ => true
    | .ret _ _ => false

/-- The call has not taken effect. -/
def isPending : Status (Op T) (Reply T) → Bool
  | .pending _ => true
  | _ => false

/-- The number of calls that have not taken effect. -/
def pendings [Fintype ι] (c : Config ι T (Op T) (Reply T)) : Nat :=
  countWhere (fun st => isPending st = true) c.status

omit [AddGroup T] [One T] [DecidableEq T] in
/-- One thread moves. -/
theorem pendings_goto [Fintype ι] {c : Config ι T (Op T) (Reply T)} {t : ι}
    {st st' : Status (Op T) (Reply T)} (h : c.status t = st) :
    pendings (c.goto t st') + (if isPending st then 1 else 0)
      = pendings c + if isPending st' then 1 else 0 := by
  rw [← h]
  exact countWhere_update (fun st => isPending st = true) c.status t st'

omit [AddGroup T] [One T] [DecidableEq T] [DecidableEq ι] in
theorem calls_call (es : List (Event ι (Op T) (Reply T))) (t : ι) (op : Op T) :
    calls (es ++ [.call t op]) = calls es + 1 := by
  simp [calls]

omit [AddGroup T] [One T] [DecidableEq T] [DecidableEq ι] in
theorem calls_ret (es : List (Event ι (Op T) (Reply T))) (t : ι) (r : Reply T) :
    calls (es ++ [.ret t r]) = calls es := by
  simp [calls]

section
variable {w : Nat} [Fintype ι]

/-- The ticket with the number `i`. -/
def ticket (init : BitVec w) (i : Nat) : Reply (BitVec w) := .value (init + (i : BitVec w))

theorem ticket_inj {init : BitVec w} {i j n : Nat} (hn : n ≤ 2 ^ w) (hi : i < n) (hj : j < n)
    (h : ticket init i = ticket init j) : i = j := by
  have hij := add_left_cancel (Reply.value.inj h)
  rw [← BitVec.toNat_inj] at hij
  simpa [Nat.mod_eq_of_lt (hi.trans_le hn), Nat.mod_eq_of_lt (hj.trans_le hn)] using hij

/-- `n` tickets were drawn: `R` are returned, and `J` are held by threads that have not returned. -/
structure Drawn (init : BitVec w) (es : List (Event ι (Op (BitVec w)) (Reply (BitVec w))))
    (c : Config ι (BitVec w) (Op (BitVec w)) (Reply (BitVec w))) (n : Nat) (R : List Nat)
    (J : ι → Option Nat) : Prop where
  obj : c.obj = init + (n : BitVec w)
  returned : replies es = R.map (ticket init)
  nodup : R.Nodup
  lt : ∀ i ∈ R, i < n
  pending : ∀ t op, c.status t = .pending op → op = .arith (.getAndAdd 1)
  done : ∀ t r, c.status t = .done r → ∃ i, J t = some i ∧ r = ticket init i
  open_lt : ∀ t i, J t = some i → i < n ∧ i ∉ R
  open_inj : ∀ t u i, J t = some i → J u = some i → t = u
  count : calls es = n + pendings c

section
variable {init : BitVec w} {es : List (Event ι (Op (BitVec w)) (Reply (BitVec w)))}
  {c : Config ι (BitVec w) (Op (BitVec w)) (Reply (BitVec w))} {n : Nat} {R : List Nat}
  {J : ι → Option Nat} {t : ι}

theorem Drawn.call (h : Drawn init es c n R J) (hi : c.status t = .idle) :
    Drawn init (es ++ [.call t (.arith (.getAndAdd 1))])
      (c.goto t (.pending (.arith (.getAndAdd 1)))) n R J where
  obj := h.obj
  returned := by simpa [replies] using h.returned
  nodup := h.nodup
  lt := h.lt
  pending u op hu := by
    rcases update_cases hu with ⟨-, hop⟩ | ⟨-, hu⟩
    · cases hop; rfl
    · exact h.pending u op hu
  done u r hu := h.done u r (of_update hu (by simp))
  open_lt := h.open_lt
  open_inj := h.open_inj
  count := by
    have hg : pendings (c.goto t (.pending (.arith (.getAndAdd 1)))) + 0 = pendings c + 1 :=
      pendings_goto hi
    rw [calls_call, h.count]
    omega

theorem Drawn.effect (h : Drawn init es c n R J) {op : Op (BitVec w)}
    (hp : c.status t = .pending op) {r : Reply (BitVec w)} {a : BitVec w}
    (ha : (atomic init).apply c.obj op = some (r, a)) :
    Drawn init es ({ c with obj := a }.goto t (.done r)) (n + 1) R
      (Function.update J t (some n)) where
  obj := by
    obtain rfl := h.pending t op hp
    cases ha
    show c.obj + 1 = _
    rw [h.obj, Nat.cast_add, Nat.cast_one, add_assoc]
  returned := h.returned
  nodup := h.nodup
  lt i hi := Nat.lt_succ_of_lt (h.lt i hi)
  pending u op hu := h.pending u op (of_update hu (by simp))
  done u r' hu := by
    rcases update_cases hu with ⟨rfl, hr⟩ | ⟨hne, hu⟩
    · obtain rfl := h.pending u op hp
      cases hr
      cases ha
      exact ⟨n, Function.update_self .., by rw [ticket, ← h.obj]; rfl⟩
    · rw [Function.update_of_ne hne]
      exact h.done u r' hu
  open_lt u i hu := by
    rcases update_cases hu with ⟨-, hi⟩ | ⟨-, hu⟩
    · cases hi
      exact ⟨Nat.lt_succ_self n, fun hR => Nat.lt_irrefl n (h.lt n hR)⟩
    · exact (h.open_lt u i hu).imp_left Nat.lt_succ_of_lt
  open_inj u v i hu hv := by
    rcases update_cases hu with ⟨hut, hi⟩ | ⟨-, hu⟩ <;>
      rcases update_cases hv with ⟨hvt, hi'⟩ | ⟨-, hv⟩
    · rw [hut, hvt]
    · cases hi
      exact absurd (h.open_lt v n hv).1 (Nat.lt_irrefl n)
    · cases hi'
      exact absurd (h.open_lt u n hu).1 (Nat.lt_irrefl n)
    · exact h.open_inj u v i hu hv
  count := by
    have hg : pendings ({ c with obj := a }.goto t (.done r)) + 1 = pendings c + 0 :=
      pendings_goto (c := { c with obj := a }) hp
    rw [h.count]
    omega

theorem Drawn.ret (h : Drawn init es c n R J) {r : Reply (BitVec w)} (hd : c.status t = .done r) :
    ∃ R', Drawn init (es ++ [.ret t r]) (c.goto t .idle) n R' (Function.update J t none) := by
  obtain ⟨i, hi, rfl⟩ := h.done t r hd
  obtain ⟨hlt, hnot⟩ := h.open_lt t i hi
  refine ⟨R ++ [i], h.obj, ?_, ?_, ?_, ?_, ?_, ?_, ?_, ?_⟩
  · simpa [replies] using h.returned
  · exact h.nodup.append (List.nodup_singleton i) (List.disjoint_singleton.mpr hnot)
  · intro j hj
    rcases List.mem_append.mp hj with hj | hj
    · exact h.lt j hj
    · rwa [List.mem_singleton.mp hj]
  · intro u op hu
    exact h.pending u op (of_update hu (by simp))
  · intro u r' hu
    rcases update_cases hu with ⟨-, hr⟩ | ⟨hne, hu⟩
    · cases hr
    · rw [Function.update_of_ne hne]
      exact h.done u r' hu
  · intro u j hu
    rcases update_cases hu with ⟨-, hr⟩ | ⟨hne, hu⟩
    · cases hr
    · obtain ⟨hj, hjR⟩ := h.open_lt u j hu
      refine ⟨hj, fun hm => ?_⟩
      rcases List.mem_append.mp hm with hm | hm
      · exact hjR hm
      · rw [List.mem_singleton.mp hm] at hu
        exact hne (h.open_inj u t i hu hi)
  · intro u v j hu hv
    exact h.open_inj u v j (of_update hu (by simp)) (of_update hv (by simp))
  · have hg : pendings (c.goto t .idle) + 0 = pendings c + 0 := pendings_goto hd
    rw [calls_ret, h.count]
    omega
end

theorem drawn_of_moves {init : BitVec w} {es : List (Event ι (Op (BitVec w)) (Reply (BitVec w)))}
    {c : Config ι (BitVec w) (Op (BitVec w)) (Reply (BitVec w))}
    (h : (atomic init).Moves (atomic init).start es c)
    (hops : ∀ t op, .call t op ∈ es → op = .arith (.getAndAdd 1)) :
    ∃ n R J, Drawn init es c n R J := by
  induction h with
  | stay =>
      have h0 : pendings ((atomic init).start : Config ι _ _ _) = 0 :=
        (countWhere_eq_zero_iff _ _).mpr fun _ => by simp [Object.start, isPending]
      refine ⟨0, [], fun _ => none, ?_⟩
      constructor <;> simp [Object.start, atomic, replies, calls, ← h0]
  | call t op _ hi ih =>
      obtain rfl := hops t op (by simp)
      obtain ⟨n, R, J, hD⟩ := ih fun u op hu => hops u op (List.mem_append_left _ hu)
      exact ⟨n, R, J, hD.call hi⟩
  | effect t _ hp ha ih =>
      obtain ⟨n, R, J, hD⟩ := ih hops
      exact ⟨n + 1, R, _, hD.effect hp ha⟩
  | ret t _ hd ih =>
      obtain ⟨n, R, J, hD⟩ := ih fun u op hu => hops u op (List.mem_append_left _ hu)
      obtain ⟨R', hD'⟩ := hD.ret hd
      exact ⟨n, R', _, hD'⟩

/-- **Tickets are distinct**: while a variable is only used with the postfix `++`, and by fewer
calls than it has values, no two calls return the same value, on every platform. -/
theorem tickets_distinct {platform : Platform} {init : BitVec w}
    {tr : List (Action (BitVec w) ι × Output (BitVec w))} {s : State (BitVec w) ι}
    (h : (shared platform init).Trace tr s)
    (hops : ∀ t op, .call t op ∈ tr.flatMap see → op = .arith (.getAndAdd 1))
    (hcalls : calls (tr.flatMap see) ≤ 2 ^ w) : (replies (tr.flatMap see)).Nodup := by
  obtain ⟨c, hm⟩ : Linearizable (atomic init) (tr.flatMap see) :=
    linearizable_of_config see State.config rfl (fun _ _ _ _ _ _ hs => moves_step hs) h
  obtain ⟨n, R, J, hD⟩ := drawn_of_moves hm hops
  have hn : n ≤ 2 ^ w := by
    have := hD.count
    omega
  rw [hD.returned]
  refine hD.nodup.map_on ?_
  intro i hi j hj hij
  exact ticket_inj hn (hD.lt i hi) (hD.lt j hj) hij
end

/-- Both threads read the variable before either of them swaps, and draw different tickets. -/
theorem two_tickets_distinct :
    ∃ tr s, (shared (ι := Bool) .xlc (0 : BitVec 32)).Trace tr s ∧
      replies (tr.flatMap see) = [.value 0, .value 1] ∧ (replies (tr.flatMap see)).Nodup := by
  have h := Machine.Trace.of_run (M := shared (ι := Bool) .xlc (0 : BitVec 32))
    [.call false (.arith (.getAndAdd 1)), .call true (.arith (.getAndAdd 1)), .step false,
      .step true, .step true, .step true, .step false, .step false, .step false, .step false] rfl
  refine ⟨_, _, h, rfl, tickets_distinct h ?_ ?_⟩
  · intro t op hop
    simp [see, written] at hop
    rcases hop with ⟨-, hop⟩ | ⟨-, hop⟩ <;> exact hop
  · exact Nat.le_trans (show 2 ≤ 4294967296 by decide) (by decide)

end Lunchbox.Atomic
