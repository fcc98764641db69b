import Lunchbox.Lib.Linearizable
import Lunchbox.Monitor.Model

set_option autoImplicit false

/-! # Monitors are atomic

The calls on monitors are linearizable: they return what they would return if each of them
happened at one point between its call and its return. A change happens when it writes the value,
a wait when its predicate is found to hold, a timed wait when its predicate is evaluated for the
last time. `get` and the comparison with another monitor read a value whose mutex they do not
hold, but each of them reads only one such value.

An assignment from another monitor is not one such call: it reads the source without the mutex of
the source, and writes later. It counts as `get` of the source followed by `set`.
-/

namespace Lunchbox.Monitor

open StateMachine Linearizability

variable {T ι κ : Type}

/-! ## The mutexes -/

/-- The monitor whose mutex a thread holds at a place. -/
def Pc.holder : Pc T κ → Option κ
  | .locked k _ | .modifying k _ _ | .stored k _ | .passed k | .comparing k _ _ _
  | .expired k _ | .copying k _ | .leaving k _ => some k
  | _ => none

/-- A value a thread has read under the mutex and still uses. -/
def Pc.seen : Pc T κ → Option (κ × T)
  | .modifying k _ v | .comparing k _ _ v => some (k, v)
  | _ => none

theorem holder_of_seen {pc : Pc T κ} {k : κ} {v : T} (h : pc.seen = some (k, v)) :
    pc.holder = some k := by
  cases pc <;> simp_all [Pc.seen, Pc.holder]

/-- How an access changes the mutex a thread holds. -/
def Access.Fits : Access T κ → Option κ → Option κ → Prop
  | .none, h, h' => h' = h
  | .lock k, h, h' => h = .none ∧ h' = some k
  | .unlock k, h, h' => h = some k ∧ h' = .none
  | .store k _, h, h' | .notify k, h, h' => h = some k ∧ h' = some k

@[simp] theorem notified_holder [DecidableEq κ] (k : κ) (pc : Pc T κ) :
    (pc.notified k).holder = pc.holder := by
  cases pc <;> rfl

@[simp] theorem notified_seen [DecidableEq κ] (k : κ) (pc : Pc T κ) :
    (pc.notified k).seen = pc.seen := by
  cases pc <;> rfl

section
variable [LinearOrder T]

theorem evaluate_fits (value : κ → T) (k : κ) (p : Test T) (timed : Bool) :
    (evaluate value k p timed).1.Fits (some k) (evaluate value k p timed).2.holder := by
  unfold evaluate
  split
  · cases timed <;> rfl
  · exact ⟨rfl, rfl⟩

theorem next_fits {O : Operators T} {value : κ → T} {pc : Pc T κ}
    {r : Output T κ × Access T κ × Pc T κ} (h : pc.next O value = some r) :
    r.2.1.Fits pc.holder r.2.2.holder := by
  revert h
  fun_cases Pc.next O value pc <;> intro h <;> cases h <;>
    first | rfl | exact ⟨rfl, rfl⟩ | exact evaluate_fits ..

theorem evaluate_seen (value : κ → T) (k : κ) (p : Test T) (timed : Bool) :
    (evaluate value k p timed).2.seen = none := by
  unfold evaluate
  split
  · cases timed <;> rfl
  · rfl

theorem next_seen {O : Operators T} {value : κ → T} {pc : Pc T κ}
    {r : Output T κ × Access T κ × Pc T κ} (h : pc.next O value = some r) {k : κ} {v : T}
    (hs : r.2.2.seen = some (k, v)) : v = value k ∧ r.2.1 = .none := by
  revert h
  fun_cases Pc.next O value pc <;> intro h <;> cases h <;>
    first | (cases hs; done) | (cases hs; exact ⟨rfl, rfl⟩) | simp [evaluate_seen] at hs

end

/-- The mutexes are held by the threads that locked them, and what a thread has read under a mutex
is still the value of the monitor. -/
structure Inv (s : State T ι κ) : Prop where
  owner : ∀ t k, (s.pc t).holder = some k ↔ s.owner k = some t
  seen : ∀ t k v, (s.pc t).seen = some (k, v) → v = s.value k

theorem Inv.unique {s : State T ι κ} (hI : Inv s) {t u : ι} {k : κ}
    (ht : (s.pc t).holder = some k) (hu : (s.pc u).holder = some k) : t = u :=
  Option.some.inj (((hI.owner t k).mp ht).symm.trans ((hI.owner u k).mp hu))

variable [DecidableEq κ]

/-- An access leaves the places of the threads as they are, but for the marks of sleepers. -/
theorem perform_pc {s s₁ : State T ι κ} {t : ι} {access : Access T κ}
    (h : s.perform t access = some s₁) (u : ι) :
    (s₁.pc u).holder = (s.pc u).holder ∧ (s₁.pc u).seen = (s.pc u).seen := by
  cases access with
  | none | unlock | store => cases h; exact ⟨rfl, rfl⟩
  | notify k => cases h; exact ⟨notified_holder .., notified_seen ..⟩
  | lock k =>
      obtain ⟨-, h⟩ := Option.ite_none_right_eq_some.mp h
      cases h
      exact ⟨rfl, rfl⟩

/-- The values change only by the stores of a thread that holds the mutex. -/
theorem perform_value {s s₁ : State T ι κ} {t : ι} {access : Access T κ} {h' : Option κ}
    (h : s.perform t access = some s₁) (hf : access.Fits (s.pc t).holder h') {k : κ}
    (hk : (s.pc t).holder ≠ some k) : s₁.value k = s.value k := by
  cases access with
  | none | unlock | notify => cases h; rfl
  | lock =>
      obtain ⟨-, h⟩ := Option.ite_none_right_eq_some.mp h
      cases h
      rfl
  | store k' v =>
      cases h
      refine Function.update_of_ne ?_ _ _
      rintro rfl
      exact hk hf.1

/-- The values after an access. -/
def Access.values (value : κ → T) : Access T κ → κ → T
  | .store k v => Function.update value k v
  | _ => value

theorem perform_values {s s₁ : State T ι κ} {t : ι} {access : Access T κ}
    (h : s.perform t access = some s₁) : s₁.value = access.values s.value := by
  cases access with
  | none | unlock | store | notify => cases h; rfl
  | lock =>
      obtain ⟨-, h⟩ := Option.ite_none_right_eq_some.mp h
      cases h
      rfl

/-- The owners after an access, when the thread has moved to a place that fits. -/
theorem Inv.perform_owner [DecidableEq ι] {s s₁ : State T ι κ} (hI : Inv s) {t : ι}
    {access : Access T κ} {h' : Option κ} (h : s.perform t access = some s₁)
    (hf : access.Fits (s.pc t).holder h') (u : ι) (k : κ) :
    (if u = t then h' else (s.pc u).holder) = some k ↔ s₁.owner k = some u := by
  have ho := hI.owner u k
  cases access with
  | none =>
      cases h
      obtain rfl : h' = _ := hf
      split <;> simp_all
  | store | notify =>
      cases h
      obtain ⟨hf, rfl⟩ := hf
      split <;> simp_all
  | lock k' =>
      obtain ⟨hn, h⟩ := Option.ite_none_right_eq_some.mp h
      cases h
      obtain ⟨hf, rfl⟩ := hf
      rcases eq_or_ne k k' with rfl | hk
      · by_cases hu : u = t
        · simp [hu]
        · simp [hu, ho, hn, Ne.symm hu]
      · by_cases hu : u = t
        · subst hu
          simp [hk, hk.symm, ← ho, hf]
        · simp [hu, hk, ho]
  | unlock k' =>
      cases h
      obtain ⟨hf, rfl⟩ := hf
      rcases eq_or_ne k k' with rfl | hk
      · by_cases hu : u = t
        · simp [hu]
        · simpa [hu] using fun h => hu (hI.unique h hf)
      · by_cases hu : u = t
        · subst hu
          simp [hk, hk.symm, ← ho, hf]
        · simp [hu, hk, ho]

variable [DecidableEq ι]

/-- **One access.** -/
theorem Inv.access {s s₁ : State T ι κ} (hI : Inv s) {t : ι} {access : Access T κ} {pc : Pc T κ}
    (h : s.perform t access = some s₁) (hf : access.Fits (s.pc t).holder pc.holder)
    (hs : ∀ k v, pc.seen = some (k, v) → v = s.value k ∧ access = .none) :
    Inv (s₁.goto t pc) := by
  constructor
  · intro u k
    rw [goto_owner, ← hI.perform_owner h hf u k]
    split
    next hu => rw [hu, goto_pc_self]
    next hu => rw [goto_pc_of_ne _ _ hu, (perform_pc h u).1]
  · intro u k v hv
    rcases eq_or_ne u t with rfl | hu
    · rw [goto_pc_self] at hv
      obtain ⟨rfl, rfl⟩ := hs k v hv
      cases h
      rfl
    · rw [goto_pc_of_ne _ _ hu, (perform_pc h u).2] at hv
      have hk : (s.pc t).holder ≠ some k := fun ht => hu (hI.unique (holder_of_seen hv) ht)
      exact (hI.seen u k v hv).trans (perform_value h hf hk).symm

/-- A thread outside the mutexes moves to another such place. -/
theorem Inv.goto {s : State T ι κ} (hI : Inv s) {t : ι} {pc : Pc T κ}
    (h : (s.pc t).holder = none) (h' : pc.holder = none) : Inv (s.goto t pc) := by
  have hnone : s.perform t .none = some s := rfl
  refine hI.access hnone (h'.trans h.symm) ?_
  intro k v hv
  rw [holder_of_seen hv] at h'
  cases h'

/-! ## The calls that have happened -/

/-- Whether the call of a thread has happened, from its place. -/
def Pc.status (value : κ → T) : Pc T κ → Status (κ × Op T κ) (Reply T)
  | .idle => .idle
  | .entering k op | .locked k op => .pending (k, op)
  | .modifying k c _ => .pending (k, .change c)
  | .comparing k c rhs _ => .pending (k, .compareWith c rhs)
  | .asleep k p timed _ | .woken k p timed => .pending (k, waitOp p timed)
  | .timedOut k p | .expired k p => .pending (k, .timedWait p)
  | .assigning _ src | .copying _ src => .pending (src, .get)
  | .passed k => .done (.value (value k))
  | .stored _ r | .leaving _ r | .returning r => .done r

def State.config (s : State T ι κ) : Config ι (κ → T) (κ × Op T κ) (Reply T) :=
  ⟨s.value, fun t => (s.pc t).status s.value⟩

omit [DecidableEq ι] in
/-- The calls of the other threads have happened or not as before. -/
theorem Inv.perform_status {s s₁ : State T ι κ} (hI : Inv s) {t u : ι} {access : Access T κ}
    {h' : Option κ} (h : s.perform t access = some s₁) (hf : access.Fits (s.pc t).holder h')
    (hu : u ≠ t) : (s₁.pc u).status s₁.value = (s.pc u).status s.value := by
  cases access with
  | none | unlock => cases h; rfl
  | notify k =>
      cases h
      show ((s.pc u).notified k).status s.value = _
      cases s.pc u <;> rfl
  | lock =>
      obtain ⟨-, h⟩ := Option.ite_none_right_eq_some.mp h
      cases h
      rfl
  | store k v =>
      have hv := fun k' hk => perform_value (k := k') h hf hk
      cases h
      show (s.pc u).status (Function.update s.value k v) = _
      cases hpc : s.pc u with
      | passed k' =>
          have hk : (s.pc t).holder ≠ some k' :=
            fun ht => hu (hI.unique (by rw [hpc]; rfl) ht)
          exact congrArg (Status.done ∘ Reply.value) (hv k' hk)
      | _ => rfl

theorem Inv.config_access {s s₁ : State T ι κ} (hI : Inv s) {t : ι} {access : Access T κ}
    {pc : Pc T κ} (h : s.perform t access = some s₁)
    (hf : access.Fits (s.pc t).holder pc.holder) :
    (s₁.goto t pc).config = ({ s.config with obj := access.values s.value }.goto t
      (pc.status (access.values s.value)) : Config ι (κ → T) (κ × Op T κ) (Reply T)) := by
  rw [← perform_values h]
  simp only [State.config, Config.goto, goto_value, Config.mk.injEq, true_and]
  funext u
  rcases eq_or_ne u t with rfl | hu
  · rw [goto_pc_self, Function.update_self]
  · rw [goto_pc_of_ne _ _ hu, Function.update_of_ne hu]
    exact hI.perform_status h hf hu

variable [LinearOrder T]

theorem Inv.step {O : Operators T} {s s' : State T ι κ} {a : Action T ι κ} {out : Output T κ}
    (hI : Inv s) (hs : s.step O a = some (out, s')) : Inv s' := by
  cases a with
  | step t =>
      obtain ⟨r, s₁, hn, hp, -, rfl⟩ := of_advance hs
      exact hI.access hp (next_fits hn) fun k v => next_seen hn
  | call t k op | assign t k src | spurious t | timeout t =>
      simp only [State.step] at hs
      split at hs
      next hpc =>
        cases hs
        exact hI.goto (by rw [hpc]; rfl) rfl
      next => cases hs

theorem inv_of_trace {O : Operators T} {init : κ → T} {tr : List (Action T ι κ × Output T κ)}
    {s : State T ι κ} (h : (monitors O init).Trace tr s) : Inv s := by
  refine h.stateInv Inv ⟨by simp [monitors, Pc.holder], by simp [monitors, Pc.seen]⟩ ?_
  intro s a out s' hI hs
  exact hI.step hs

/-! ## The atomic monitors -/

/-- The monitors as one object whose calls happen at once; a wait has to wait for its predicate. -/
def atomic (O : Operators T) (init : κ → T) : Object (κ → T) (κ × Op T κ) (Reply T) where
  init := init
  apply value
    | (k, .change c) =>
        some (c.reply (value k), Function.update value k (c.apply O (value k)))
    | (k, .wait p) => if p.holds (value k) then some (.value (value k), value) else none
    | (k, .timedWait p) => some (.flag (p.holds (value k)), value)
    | (k, .query q) => some (q.answer O (value k), value)
    | (k, .compareWith c rhs) => some (.flag ((c.test (value rhs)).holds (value k)), value)
    | (k, .get) => some (.value (value k), value)

/-- The calls and returns of a history. -/
def see : Action T ι κ × Output T κ → List (Event ι (κ × Op T κ) (Reply T))
  | (.call t k op, _) => [.call t (k, op)]
  | (.assign t _ src, _) => [.call t (src, .get)]
  | (.step t, .copied k v) => [.ret t (.value v), .call t (k, .change (.set v))]
  | (.step t, .returned r) => [.ret t r]
  | _ => []

omit [DecidableEq κ] [LinearOrder T] in
theorem of_unlocked_change {O : Operators T} {c : Change T} {x : T} {r : Reply T}
    (h : (.change c : Op T κ).unlocked O x = some r) :
    ∃ v, c = .or v ∧ O.skipsOr v = true ∧ r = .done := by
  cases c with
  | or v =>
      obtain ⟨hv, hr⟩ := Option.ite_none_right_eq_some.mp h
      exact ⟨v, rfl, hv, (Option.some.inj hr).symm⟩
  | inc | dec | and | set => cases h

/-- A timed or untimed wait whose predicate holds. -/
theorem apply_waitOp {O : Operators T} {init value : κ → T} {k : κ} {p : Test T} {timed : Bool}
    (h : p.holds (value k) = true) :
    (atomic O init).apply value (k, waitOp p timed)
      = some (if timed then .flag true else .value (value k), value) := by
  cases timed <;> simp [waitOp, atomic, h]

theorem moves_evaluate {O : Operators T} {init : κ → T}
    {c : Config ι (κ → T) (κ × Op T κ) (Reply T)} {t : ι} {k : κ} {p : Test T} (timed : Bool)
    (h : c.status t = .pending (k, waitOp p timed)) :
    (atomic O init).Moves c [] ({ c with
      obj := (evaluate c.obj k p timed).1.values c.obj }.goto t
        ((evaluate c.obj k p timed).2.status ((evaluate c.obj k p timed).1.values c.obj))) := by
  unfold evaluate
  split
  next hp =>
    have := Object.Moves.effect t (.stay : (atomic O init).Moves c [] c) h (apply_waitOp hp)
    cases timed <;> exact this
  next => exact Object.Moves.stay_at h

/-- **The next step of a thread** is matched by the atomic monitors. -/
theorem moves_next {O : Operators T} {init : κ → T}
    {c : Config ι (κ → T) (κ × Op T κ) (Reply T)} {t : ι} {pc : Pc T κ}
    {r : Output T κ × Access T κ × Pc T κ} (h : pc.next O c.obj = some r)
    (hst : c.status t = pc.status c.obj) (hseen : ∀ k v, pc.seen = some (k, v) → v = c.obj k) :
    (atomic O init).Moves c (see (.step t, r.1)) ({ c with
      obj := r.2.1.values c.obj }.goto t (r.2.2.status (r.2.1.values c.obj))) := by
  have hstay : (atomic O init).Moves c [] c := .stay
  cases pc with
  | idle => cases h
  | entering k op =>
      simp only [Pc.next] at h
      cases op with
      | get => cases h; exact hstay.effect t hst rfl
      | wait | timedWait | query | compareWith => cases h; exact Object.Moves.stay_at hst
      | change ch =>
          split at h
          next r' hr =>
            cases h
            obtain ⟨v, rfl, hv, rfl⟩ := of_unlocked_change hr
            refine hstay.effect t hst ?_
            simp [atomic, Change.apply, Change.reply, O.or_skipped v hv, Access.values]
          next => cases h; exact Object.Moves.stay_at hst
  | locked k op =>
      cases op with
      | get => cases h
      | wait p => cases h; exact moves_evaluate false hst
      | timedWait p => cases h; exact moves_evaluate true hst
      | change | compareWith => cases h; exact Object.Moves.stay_at hst
      | query => cases h; exact hstay.effect t hst rfl
  | modifying k ch old =>
      cases h
      obtain rfl := hseen k old rfl
      exact hstay.effect t hst rfl
  | comparing k cmp rhs own =>
      cases h
      obtain rfl := hseen k own rfl
      exact hstay.effect t hst rfl
  | asleep k p timed marked =>
      cases marked with
      | false => cases h
      | true => cases h; exact Object.Moves.stay_at hst
  | stored | passed | woken | timedOut | assigning | leaving =>
      cases h
      exact Object.Moves.stay_at hst
  | expired k p => cases h; exact hstay.effect t hst rfl
  | copying k src =>
      cases h
      have hret := (hstay.effect t hst (by rfl)).ret t (Function.update_self ..)
      have hcall := hret.call t (k, .change (.set (c.obj src))) (Function.update_self ..)
      rw [Config.goto_goto, Config.goto_goto] at hcall
      exact hcall
  | returning r =>
      cases h
      exact hstay.ret t hst

theorem Inv.moves {O : Operators T} {init : κ → T} {s s' : State T ι κ} {a : Action T ι κ}
    {out : Output T κ} (hI : Inv s) (hs : s.step O a = some (out, s')) :
    (atomic O init).Moves s.config (see (a, out)) s'.config := by
  have hstay : (atomic O init).Moves s.config [] s.config := .stay
  -- a thread outside the mutexes moves to another place
  have hgoto : ∀ t pc, (s.pc t).holder = none → pc.holder = none →
      (s.goto t pc).config = s.config.goto t (pc.status s.value) := by
    intro t pc h h'
    have hnone : s.perform t .none = some s := rfl
    exact hI.config_access hnone (h'.trans h.symm)
  cases a with
  | step t =>
      obtain ⟨r, s₁, hn, hp, rfl, rfl⟩ := of_advance hs
      rw [hI.config_access hp (next_fits hn)]
      exact moves_next (c := s.config) hn rfl (hI.seen t)
  | call t k op | assign t k src =>
      simp only [State.step] at hs
      split at hs
      next hpc =>
        cases hs
        rw [hgoto t _ (by rw [hpc]; rfl) rfl]
        exact hstay.call t _ (by simp [State.config, hpc, Pc.status])
      next => cases hs
  | spurious t | timeout t =>
      simp only [State.step] at hs
      split at hs
      next hpc =>
        cases hs
        rw [hgoto t _ (by rw [hpc]; rfl) rfl]
        exact Object.Moves.stay_at (by simp [State.config, hpc, Pc.status, waitOp])
      next => cases hs

/-- **Monitors are atomic**: in every history, the calls return what they return when each of them
happens at one point between its call and its return. -/
theorem monitors_linearizable {O : Operators T} {init : κ → T}
    {tr : List (Action T ι κ × Output T κ)} {s : State T ι κ}
    (h : (monitors O init).Trace tr s) : Linearizable (atomic O init) (tr.flatMap see) :=
  linearizable_of_config see State.config rfl (fun _ _ _ _ _ ht hs => (inv_of_trace ht).moves hs) h

/-- A thread waits for `true`, another one sets it and returns first. -/
theorem waiter_and_setter_linearizable :
    Linearizable (atomic boolean fun _ : Unit => false)
      [.call false ((), .wait (.eq true)), .call true ((), .change (.set true)),
        .ret true (.value false), .ret false (.value true)] := by
  have h := Machine.Trace.of_run (M := monitors (ι := Bool) boolean fun _ : Unit => false)
    ([.call false () (.wait (.eq true)), .step false, .step false,
      .call true () (.change (.set true))] ++ List.replicate 6 (.step true)
      ++ List.replicate 6 (.step false)) rfl
  exact monitors_linearizable h

end Lunchbox.Monitor

