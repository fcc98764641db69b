import Lunchbox.Lib.Count
import Lunchbox.Lib.Linearizable
import Lunchbox.SpinLock

set_option autoImplicit false

/-! # Sections under the spin lock

The functions of several classes run as a whole under a `ScopedFastWrite` or a `ScopedFastRead` on
a `SpinLock`: the constructor calls `set` or `setRead`, the destructor `unset` or `unsetRead`. The
body of such a function is a sequence of accesses to the object that the lock protects
(`Sections`), interleaved with the accesses of all other threads to the lock and to the object.

If the bodies compute an object's operations when they run alone, the object is linearizable
(`sections_linearizable`): the operations may be considered as single steps.
-/

namespace Lunchbox.SpinLock

open StateMachine Linearizability

/-! ## Bodies -/

/-- The bodies of the functions `ο` of an object `α`. A body goes on at a place `κ` or ends with a
result `ρ`. -/
structure Sections (α ο ρ κ : Type) where
  /-- the function has a `ScopedFastRead` -/
  reads : ο → Bool
  start : ο → κ
  /-- the next access to the object -/
  step : α → κ → α × (κ ⊕ ρ)

variable {α ο ρ κ : Type}

/-- The body of `op`, begun in the state `a`, can be at a place when the object is in a state. -/
inductive Sections.Reaches (S : Sections α ο ρ κ) (a : α) (op : ο) : α → κ → Prop
  | start : S.Reaches a op a (S.start op)
  | step {b : α} {k k' : κ} : S.Reaches a op b k → (S.step b k).2 = .inl k' →
      S.Reaches a op (S.step b k).1 k'

/-- The bodies compute the operations of `O` when they run alone, and a body under a read lock
changes nothing. -/
structure Sections.Implements (S : Sections α ο ρ κ) (O : Object α ο ρ) : Prop where
  result : ∀ a op b k r, S.Reaches a op b k → (S.step b k).2 = .inr r →
    O.apply a op = some (r, (S.step b k).1)
  readonly : ∀ a op b k, S.reads op = true → S.Reaches a op b k → (S.step b k).1 = b

/-! ## The machine -/

/-- The place of a thread: in the constructor of the scoped mutex, in the body, or in the
destructor. -/
inductive Place (ο ρ κ : Type)
  | idle
  | entering (op : ο)
  | inside (op : ο) (k : κ)
  | leaving (op : ο) (r : ρ)
  | returning (r : ρ)

structure Shared (ι α ο ρ κ : Type) where
  lock : State ι
  obj : α
  place : ι → Place ο ρ κ

inductive Call (ι ο : Type)
  | call (t : ι) (op : ο)
  | step (t : ι)

variable {ι : Type} [DecidableEq ι]

/-- What the constructor of the scoped mutex calls. -/
def lockOp (read : Bool) : Op := if read then .setRead else .set

/-- What the destructor of the scoped mutex calls. -/
def unlockOp (read : Bool) : Op := if read then .unsetRead else .unset

def Output.locks : Output → Bool
  | .lockedWrite | .lockedRead => true
  | _ => false

def Output.unlocks : Output → Bool
  | .unlockedWrite | .unlockedRead => true
  | _ => false

def Shared.goto (s : Shared ι α ο ρ κ) (t : ι) (l : State ι) (p : Place ο ρ κ) :
    Shared ι α ο ρ κ :=
  { s with lock := l, place := Function.update s.place t p }

/-- The next access of a thread, to the lock or to the object. -/
def Shared.advance (S : Sections α ο ρ κ) (s : Shared ι α ο ρ κ) (t : ι) :
    Option (Option ρ × Shared ι α ο ρ κ) :=
  match s.place t with
  | .idle => none
  | .entering op =>
      (s.lock.advance t).map fun r =>
        (none, s.goto t r.2 (if r.1.locks then .inside op (S.start op) else .entering op))
  | .inside op k =>
      match S.step s.obj k with
      | (b, .inl k') => some (none, { s with obj := b }.goto t s.lock (.inside op k'))
      | (b, .inr r) =>
          some (none, { s with obj := b }.goto t (s.lock.call t (unlockOp (S.reads op))).2
            (.leaving op r))
  | .leaving op r =>
      (s.lock.advance t).map fun q =>
        (none, s.goto t q.2 (if q.1.unlocks then .returning r else .leaving op r))
  | .returning r => some (some r, s.goto t s.lock .idle)

def Shared.step (S : Sections α ο ρ κ) (s : Shared ι α ο ρ κ) :
    Call ι ο → Option (Option ρ × Shared ι α ο ρ κ)
  | .call t op =>
      match s.place t with
      | .idle => some (none, s.goto t (s.lock.call t (lockOp (S.reads op))).2 (.entering op))
      | _ => none
  | .step t => s.advance S t

/-- The object with its lock and its threads. -/
def sections (S : Sections α ο ρ κ) (init : α) :
    Machine (Shared ι α ο ρ κ) (Call ι ο) (Option ρ) where
  init := ⟨(SpinLock.lock ι).init, init, fun _ => .idle⟩
  step := Shared.step S

/-- The calls and returns of a history. -/
def see : Call ι ο × Option ρ → List (Event ι ο ρ)
  | (.call t op, _) => [.call t op]
  | (.step t, some r) => [.ret t r]
  | (.step _, none) => []

/-! ## Who holds the lock -/

/-- The thread holds the lock for reading, or for writing. -/
def Place.holds (S : Sections α ο ρ κ) (read : Bool) : Place ο ρ κ → Bool
  | .inside op _ | .leaving op _ => S.reads op == read
  | _ => false

/-- Where a thread is in the code of the lock while it is in the constructor. -/
def Enters : Bool → Pc → Prop
  | false, pc => pc = .swap true
  | true, pc => pc = .loadRead true ∨ ∃ e, pc = .swapRead true e

/-- Where a thread is in the code of the lock while it is in the destructor. -/
def Leaves : Bool → Pc → Prop
  | false, pc => pc = .store
  | true, pc => pc = .loadRelease ∨ ∃ e, pc = .swapRelease e

def Fits (S : Sections α ο ρ κ) (pc : Pc) : Place ο ρ κ → Prop
  | .entering op => Enters (S.reads op) pc
  | .leaving op _ => Leaves (S.reads op) pc
  | _ => pc = .idle

/-- What a call to lock or unlock says when it has succeeded. -/
def lockedOutput (read : Bool) : Output := if read then .lockedRead else .lockedWrite

def unlockedOutput (read : Bool) : Output := if read then .unlockedRead else .unlockedWrite

theorem locks_lockedOutput (read : Bool) : (lockedOutput read).locks = true := by
  cases read <;> rfl

theorem unlocks_unlockedOutput (read : Bool) : (unlockedOutput read).unlocks = true := by
  cases read <;> rfl

/-- The holders after a lock was taken. -/
theorem count_locked (ws rs : List ι) (t u : ι) (read : Bool) :
    (writersStep ws (.step t, lockedOutput read)).count u
        = (if u = t then ws.count t + (read == false).toNat else ws.count u) ∧
      (readersStep rs (.step t, lockedOutput read)).count u
        = if u = t then rs.count t + (read == true).toNat else rs.count u := by
  rcases eq_or_ne u t with rfl | hu
  · cases read <;> simp [writersStep, readersStep, lockedOutput]
  · cases read <;> simp [writersStep, readersStep, lockedOutput, hu, hu.symm]

/-- The holders after a lock was released. -/
theorem count_unlocked (ws rs : List ι) (t u : ι) (read : Bool) :
    (writersStep ws (.step t, unlockedOutput read)).count u
        = (if u = t then ws.count t - (read == false).toNat else ws.count u) ∧
      (readersStep rs (.step t, unlockedOutput read)).count u
        = if u = t then rs.count t - (read == true).toNat else rs.count u := by
  rcases eq_or_ne u t with rfl | hu
  · cases read <;> simp [writersStep, readersStep, unlockedOutput]
  · cases read <;> simp [writersStep, readersStep, unlockedOutput, hu, List.count_erase_of_ne]

theorem advance_other {l l' : State ι} {t u : ι} {o : Output} (h : l.advance t = some (o, l'))
    (hu : u ≠ t) : l'.pc u = l.pc u := by
  rcases advance_cases h with ⟨_, _, _, _, rfl⟩ | ⟨_, _, _, _, _, rfl⟩ | ⟨_, _, _, _, rfl⟩ |
    ⟨_, _, rfl⟩ | ⟨_, pc, rfl, _⟩ <;> exact Function.update_of_ne hu ..

/-- An access of the constructor: the lock is taken, or the attempt is repeated. -/
theorem advance_enters {l l' : State ι} {t : ι} {o : Output} {read : Bool}
    (h : l.advance t = some (o, l')) (hpc : Enters read (l.pc t)) :
    (o = lockedOutput read ∧ l'.pc t = .idle) ∨ (o = .running ∧ Enters read (l'.pc t)) := by
  cases read with
  | false =>
      have hpc : l.pc t = .swap true := hpc
      simp only [State.advance, hpc, State.compareAndSwap] at h
      split at h <;> cases h <;> simp_all [State.goto, lockedOutput, Enters]
  | true =>
      rcases hpc with hpc | ⟨e, hpc⟩
      · simp only [State.advance, hpc] at h
        cases h
        simp [State.goto, Enters]
      · simp only [State.advance, hpc, State.compareAndSwap] at h
        split at h <;> cases h <;> simp_all [State.goto, lockedOutput, Enters]

/-- An access of the destructor. -/
theorem advance_leaves {l l' : State ι} {t : ι} {o : Output} {read : Bool}
    (h : l.advance t = some (o, l')) (hpc : Leaves read (l.pc t)) :
    (o = unlockedOutput read ∧ l'.pc t = .idle) ∨ (o = .running ∧ Leaves read (l'.pc t)) := by
  cases read with
  | false =>
      have hpc : l.pc t = .store := hpc
      simp only [State.advance, hpc] at h
      cases h
      simp [State.goto, unlockedOutput]
  | true =>
      rcases hpc with hpc | ⟨e, hpc⟩
      · simp only [State.advance, hpc] at h
        cases h
        simp [State.goto, Leaves]
      · simp only [State.advance, hpc, State.compareAndSwap] at h
        split at h <;> cases h <;> simp_all [State.goto, unlockedOutput, Leaves]

/-- The lock, after its history `ltr`, is held by the threads whose place says so. -/
structure Held (S : Sections α ο ρ κ) (ltr : History ι) (l : State ι) (place : ι → Place ο ρ κ) :
    Prop where
  inv : Inv ltr l
  writers : ∀ t, (writers ltr).count t = ((place t).holds S false).toNat
  readers : ∀ t, (readers ltr).count t = ((place t).holds S true).toNat
  fits : ∀ t, Fits S (l.pc t) (place t)

section
variable {S : Sections α ο ρ κ} {ltr ltr' : History ι} {l l' : State ι} {place : ι → Place ο ρ κ}
  {t u : ι} {p : Place ο ρ κ} {op : ο} {k : κ} {r : ρ} {o : Output}

theorem Held.mem_writers (h : Held S ltr l place) (ht : (place t).holds S false = true) :
    t ∈ SpinLock.writers ltr := by
  rw [← List.count_pos_iff, h.writers, ht]
  exact Nat.one_pos

theorem Held.mem_readers (h : Held S ltr l place) (ht : (place t).holds S true = true) :
    t ∈ SpinLock.readers ltr := by
  rw [← List.count_pos_iff, h.readers, ht]
  exact Nat.one_pos

theorem holds_of_count {ts : List ι} {read : Bool} (h : ts.count u = (p.holds S read).toNat)
    (hu : u ∉ ts) : p.holds S read = false := by
  rw [List.count_eq_zero_of_not_mem hu] at h
  cases hp : p.holds S read with
  | false => rfl
  | true => rw [hp] at h; cases h

/-- A writer excludes every other holder. -/
theorem Held.exclusive (h : Held S ltr l place) (ht : (place t).holds S false = true) (hu : u ≠ t)
    (read : Bool) : (place u).holds S read = false := by
  obtain ⟨hw, hr, -⟩ := h.inv.word.of_writer (h.mem_writers ht)
  cases read with
  | false => exact holds_of_count (h.writers u) (by rw [hw]; simpa using hu)
  | true => exact holds_of_count (h.readers u) (by rw [hr]; simp)

/-- A reader excludes every writer. -/
theorem Held.no_writer (h : Held S ltr l place) (ht : (place t).holds S true = true) (u : ι) :
    (place u).holds S false = false := by
  obtain ⟨hw, -⟩ := h.inv.word.of_reader (h.mem_readers ht)
  exact holds_of_count (h.writers u) (by rw [hw]; simp)

variable [Fintype ι]

theorem Held.readers_length (h : Held S ltr l place) :
    (SpinLock.readers ltr).length ≤ Fintype.card ι := by
  refine List.Nodup.length_le_card (List.nodup_iff_count_le_one.mpr fun t => ?_)
  rw [h.readers t]
  exact Bool.toNat_le _

/-- **One thread moves on**, and the lock with it. -/
theorem Held.step (h : Held S ltr l place) (hι : Fintype.card ι < 2 ^ 31) {a : Action ι}
    (hs : (lock ι).step l a = some (o, l')) (hc : Correct ltr a)
    (hw : ∀ u, (writersStep (SpinLock.writers ltr) (a, o)).count u
      = if u = t then (p.holds S false).toNat else (SpinLock.writers ltr).count u)
    (hr : ∀ u, (readersStep (SpinLock.readers ltr) (a, o)).count u
      = if u = t then (p.holds S true).toNat else (SpinLock.readers ltr).count u)
    (hpc : ∀ u, u ≠ t → l'.pc u = l.pc u) (hfit : Fits S (l'.pc t) p) :
    Held S (ltr ++ [(a, o)]) l' (Function.update place t p) := by
  have hlen : (SpinLock.readers (ltr ++ [(a, o)])).length ≤ Fintype.card ι := by
    refine List.Nodup.length_le_card (List.nodup_iff_count_le_one.mpr fun u => ?_)
    rw [readers_snoc, hr u, h.readers u]
    split <;> exact Bool.toNat_le _
  refine ⟨inv_step h.inv hc hs (h.readers_length.trans_lt hι) (hlen.trans_lt hι), ?_, ?_, ?_⟩
  · intro u
    rw [writers_snoc, hw u, Function.update_apply, h.writers u]
    split <;> rfl
  · intro u
    rw [readers_snoc, hr u, Function.update_apply, h.readers u]
    split <;> rfl
  · intro u
    rcases eq_or_ne u t with rfl | hu
    · rwa [Function.update_self]
    · rw [Function.update_of_ne hu, hpc u hu]
      exact h.fits u

omit [Fintype ι] in
/-- A thread moves on without the lock. -/
theorem Held.goto (h : Held S ltr l place) (hp : ∀ read, p.holds S read = (place t).holds S read)
    (hfit : Fits S (l.pc t) p) : Held S ltr l (Function.update place t p) := by
  refine ⟨h.inv, ?_, ?_, ?_⟩
  · intro u
    rcases eq_or_ne u t with rfl | hu
    · rw [Function.update_self, hp, h.writers]
    · rw [Function.update_of_ne hu, h.writers]
  · intro u
    rcases eq_or_ne u t with rfl | hu
    · rw [Function.update_self, hp, h.readers]
    · rw [Function.update_of_ne hu, h.readers]
  · intro u
    rcases eq_or_ne u t with rfl | hu
    · rwa [Function.update_self]
    · rw [Function.update_of_ne hu]
      exact h.fits u

/-- The lock moves on with the thread, and the holders stay the same. -/
theorem Held.quiet (h : Held S ltr l place) (hι : Fintype.card ι < 2 ^ 31) {a : Action ι}
    (hs : (lock ι).step l a = some (o, l')) (hc : Correct ltr a)
    (hw : ∀ ts, writersStep ts (a, o) = ts) (hr : ∀ ts, readersStep ts (a, o) = ts)
    (hp : ∀ read, p.holds S read = (place t).holds S read)
    (hpc : ∀ u, u ≠ t → l'.pc u = l.pc u) (hfit : Fits S (l'.pc t) p) :
    Held S (ltr ++ [(a, o)]) l' (Function.update place t p) := by
  refine h.step hι hs hc ?_ ?_ hpc hfit
  · intro u
    rw [hw, hp]
    split
    next hu => rw [hu, h.writers]
    next => rfl
  · intro u
    rw [hr, hp]
    split
    next hu => rw [hu, h.readers]
    next => rfl

/-- The constructor is called. -/
theorem Held.call (h : Held S ltr l place) (hι : Fintype.card ι < 2 ^ 31) (ht : place t = .idle) :
    ∃ ltr', Held S ltr' (l.call t (lockOp (S.reads op))).2
      (Function.update place t (.entering op)) := by
  have hidle : l.pc t = .idle := by simpa [ht, Fits] using h.fits t
  have hp : ∀ read, (Place.entering op).holds S read = (place t).holds S read := by
    intro read
    rw [ht]
    rfl
  refine ⟨_, h.quiet hι (a := .call t (lockOp (S.reads op))) (if_pos hidle) ?_ (fun _ => rfl)
    (fun _ => rfl) hp ?_ ?_⟩
  · cases S.reads op <;> trivial
  · intro u hu
    cases S.reads op <;> exact Function.update_of_ne hu ..
  · show Enters (S.reads op) _
    cases S.reads op with
    | false => exact Function.update_self ..
    | true => exact Or.inl (Function.update_self ..)

/-- The destructor is called. -/
theorem Held.release (h : Held S ltr l place) (hι : Fintype.card ι < 2 ^ 31)
    (ht : place t = .inside op k) :
    ∃ ltr', Held S ltr' (l.call t (unlockOp (S.reads op))).2
      (Function.update place t (.leaving op r)) := by
  have hidle : l.pc t = .idle := by simpa [ht, Fits] using h.fits t
  have hp : ∀ read, (Place.leaving op r).holds S read = (place t).holds S read := by
    intro read
    rw [ht]
    rfl
  refine ⟨_, h.quiet hι (a := .call t (unlockOp (S.reads op))) (if_pos hidle) ?_ (fun _ => rfl)
    (fun _ => rfl) hp ?_ ?_⟩
  · cases hread : S.reads op with
    | false => exact h.mem_writers (by simp [ht, Place.holds, hread])
    | true => exact h.mem_readers (by simp [ht, Place.holds, hread])
  · intro u hu
    cases S.reads op <;> exact Function.update_of_ne hu ..
  · show Leaves (S.reads op) _
    cases S.reads op with
    | false => exact Function.update_self ..
    | true => exact Or.inl (Function.update_self ..)

/-- An access of the constructor. -/
theorem Held.enter (h : Held S ltr l place) (hι : Fintype.card ι < 2 ^ 31)
    (ht : place t = .entering op) (hs : l.advance t = some (o, l')) :
    ∃ ltr', Held S ltr' l' (Function.update place t
      (if o.locks then .inside op k else .entering op)) := by
  have hfit : Enters (S.reads op) (l.pc t) := by simpa [ht, Fits] using h.fits t
  have hwt : (SpinLock.writers ltr).count t = 0 := by rw [h.writers, ht]; rfl
  have hrt : (SpinLock.readers ltr).count t = 0 := by rw [h.readers, ht]; rfl
  rcases advance_enters hs hfit with ⟨rfl, hpc⟩ | ⟨rfl, hpc⟩
  · rw [locks_lockedOutput, if_pos rfl]
    refine ⟨_, h.step hι (a := .step t) hs trivial (fun u => ?_) (fun u => ?_)
      (fun u => advance_other hs) hpc⟩
    · rw [(count_locked _ [] t u _).1, hwt, Nat.zero_add]
      rfl
    · rw [(count_locked [] _ t u _).2, hrt, Nat.zero_add]
      rfl
  · refine ⟨_, h.quiet hι (a := .step t) hs trivial (fun _ => rfl) (fun _ => rfl) ?_
      (fun u => advance_other hs) hpc⟩
    intro read
    rw [ht]
    rfl

/-- An access of the destructor. -/
theorem Held.leave (h : Held S ltr l place) (hι : Fintype.card ι < 2 ^ 31)
    (ht : place t = .leaving op r) (hs : l.advance t = some (o, l')) :
    ∃ ltr', Held S ltr' l' (Function.update place t
      (if o.unlocks then .returning r else .leaving op r)) := by
  have hfit : Leaves (S.reads op) (l.pc t) := by simpa [ht, Fits] using h.fits t
  have hwt := h.writers t
  have hrt := h.readers t
  rw [ht] at hwt hrt
  rcases advance_leaves hs hfit with ⟨rfl, hpc⟩ | ⟨rfl, hpc⟩
  · rw [unlocks_unlockedOutput, if_pos rfl]
    refine ⟨_, h.step hι (a := .step t) hs trivial (fun u => ?_) (fun u => ?_)
      (fun u => advance_other hs) hpc⟩
    · rw [(count_unlocked _ [] t u _).1, hwt, Place.holds, Nat.sub_self]
      rfl
    · rw [(count_unlocked [] _ t u _).2, hrt, Place.holds, Nat.sub_self]
      rfl
  · refine ⟨_, h.quiet hι (a := .step t) hs trivial (fun _ => rfl) (fun _ => rfl) ?_
      (fun u => advance_other hs) hpc⟩
    intro read
    rw [ht]
    rfl
end

/-! ## The sections are atomic -/

/-- Whether the call of a thread has taken effect: it does at the end of the body. -/
def Place.status : Place ο ρ κ → Status ο ρ
  | .idle => .idle
  | .entering op | .inside op _ => .pending op
  | .leaving _ r | .returning r => .done r

/-- The object is as its operations left it, but for the body that a writer is in. -/
structure Sim (S : Sections α ο ρ κ) (s : Shared ι α ο ρ κ) (c : Config ι α ο ρ) : Prop where
  held : ∃ ltr, Held S ltr s.lock s.place
  status : ∀ t, c.status t = (s.place t).status
  inside : ∀ t op k, s.place t = .inside op k → S.Reaches c.obj op s.obj k
  obj : (∀ t op k, s.place t = .inside op k → S.reads op = true) → c.obj = s.obj

section
variable {S : Sections α ο ρ κ} {O : Object α ο ρ} {s s' : Shared ι α ο ρ κ}
  {c : Config ι α ο ρ} {t : ι} {p : Place ο ρ κ} {l : State ι} {op : ο} {k k' : κ} {r : ρ} {b : α}

theorem Sim.status_goto (h : Sim S s c) (t u : ι) (p : Place ο ρ κ) :
    (c.goto t p.status).status u = (Function.update s.place t p u).status := by
  simp only [Config.goto, Function.update_apply]
  split
  · rfl
  · exact h.status u

/-- A thread outside the bodies stays outside. -/
theorem Sim.goto (h : Sim S s c) (hheld : ∃ ltr, Held S ltr l (Function.update s.place t p))
    (ht : ∀ op k, s.place t ≠ .inside op k) (hp : ∀ op k, p ≠ .inside op k) :
    Sim S (s.goto t l p) (c.goto t p.status) := by
  refine ⟨hheld, fun u => h.status_goto t u p, ?_, ?_⟩
  · intro u op k hu
    exact h.inside u op k (of_update hu (hp op k))
  · intro hall
    refine h.obj fun u op k hu => hall u op k ?_
    have hut : u ≠ t := by
      rintro rfl
      exact ht op k hu
    exact (Function.update_of_ne hut ..).trans hu

/-- The same when it stays open whether the call has taken effect. -/
theorem Sim.stay (h : Sim S s c) (hheld : ∃ ltr, Held S ltr l (Function.update s.place t p))
    (ht : ∀ op k, s.place t ≠ .inside op k) (hp : ∀ op k, p ≠ .inside op k)
    (hst : p.status = (s.place t).status) : Sim S (s.goto t l p) c := by
  have hsim := h.goto hheld ht hp
  rwa [Config.goto_self ((h.status t).trans hst.symm)] at hsim

theorem Sim.status_same (h : Sim S s c) (hst : p.status = (s.place t).status) (u : ι) :
    c.status u = (Function.update s.place t p u).status := by
  rw [← h.status_goto, Config.goto_self ((h.status t).trans hst.symm)]

/-- A thread takes the lock and begins its body: nobody is writing. -/
theorem Sim.enter (h : Sim S s c) (ht : s.place t = .entering op)
    (hheld : ∃ ltr, Held S ltr l (Function.update s.place t (.inside op (S.start op)))) :
    Sim S (s.goto t l (.inside op (S.start op))) c := by
  have hreads : ∀ u op' k', s.place u = .inside op' k' → S.reads op' = true := by
    intro u op' k' hu
    obtain ⟨ltr, hH⟩ := hheld
    have hut : u ≠ t := by
      rintro rfl
      rw [ht] at hu
      cases hu
    have hno : (s.place u).holds S false = false := by
      rw [← Function.update_of_ne hut (.inside op (S.start op)) s.place]
      cases hread : S.reads op with
      | false => exact hH.exclusive (t := t) (by simp [Place.holds, hread]) hut false
      | true => exact hH.no_writer (t := t) (by simp [Place.holds, hread]) u
    rw [hu] at hno
    simpa [Place.holds] using hno
  have hobj := h.obj hreads
  refine ⟨hheld, h.status_same (by rw [ht]; rfl), ?_, fun _ => hobj⟩
  · intro u op' k' hu
    rcases update_cases hu with ⟨-, he⟩ | ⟨-, hu⟩
    · cases he
      rw [hobj]
      exact .start
    · exact h.inside u op' k' hu

/-- While a thread is in a body, the others are in bodies only if all of them read. -/
theorem Sim.others_read (h : Sim S s c) (ht : s.place t = .inside op k) {u : ι} (hu : u ≠ t)
    {op' : ο} (hin : s.place u = .inside op' k') : S.reads op = true ∧ S.reads op' = true := by
  obtain ⟨ltr, hH⟩ := h.held
  have hread : S.reads op = true := by
    by_contra hw
    have := hH.exclusive (t := t) (by simpa [ht, Place.holds] using hw) hu (S.reads op')
    rw [hin] at this
    simp [Place.holds] at this
  refine ⟨hread, ?_⟩
  have := hH.no_writer (t := t) (by simp [ht, Place.holds, hread]) u
  rw [hin] at this
  simpa [Place.holds] using this

/-- If a reader is in its body, the object is as the operations left it. -/
theorem Sim.obj_of_reader (h : Sim S s c) (ht : s.place t = .inside op k)
    (hread : S.reads op = true) : c.obj = s.obj := by
  refine h.obj fun u op' k' hu => ?_
  rcases eq_or_ne u t with rfl | hne
  · rw [ht] at hu
    cases hu
    exact hread
  · exact (h.others_read ht hne hu).2

/-- The body goes on. -/
theorem Sim.body (h : Sim S s c) (hS : S.Implements O) (ht : s.place t = .inside op k)
    (hk : (S.step s.obj k).2 = .inl k') :
    Sim S ({ s with obj := (S.step s.obj k).1 }.goto t s.lock (.inside op k')) c := by
  have hreach := h.inside t op k ht
  obtain ⟨ltr, hH⟩ := h.held
  refine ⟨⟨ltr, hH.goto (fun read => by rw [ht]; rfl) ?_⟩, h.status_same (by rw [ht]; rfl), ?_, ?_⟩
  · simpa [ht, Fits] using hH.fits t
  · intro u op' k'' hu
    rcases update_cases hu with ⟨-, he⟩ | ⟨hne, hu⟩
    · cases he
      exact hreach.step hk
    · have hread := (h.others_read ht hne hu).1
      show S.Reaches c.obj op' (S.step s.obj k).1 k''
      rw [hS.readonly _ _ _ _ hread hreach]
      exact h.inside u op' k'' hu
  · intro hall
    have hread := hall t op k' (Function.update_self ..)
    show c.obj = (S.step s.obj k).1
    rw [hS.readonly _ _ _ _ hread hreach]
    exact h.obj_of_reader ht hread

/-- The body ends, and the call takes effect. -/
theorem Sim.finish (h : Sim S s c) (hS : S.Implements O) (ht : s.place t = .inside op k)
    (hr : (S.step s.obj k).2 = .inr r)
    (hheld : ∃ ltr, Held S ltr l (Function.update s.place t (.leaving op r))) :
    O.Moves c [] ({ c with obj := (S.step s.obj k).1 }.goto t (.done r)) ∧
      Sim S ({ s with obj := (S.step s.obj k).1 }.goto t l (.leaving op r))
        ({ c with obj := (S.step s.obj k).1 }.goto t (.done r)) := by
  have hreach := h.inside t op k ht
  constructor
  · refine Object.Moves.stay.effect t ?_ (hS.result _ _ _ _ _ hreach hr)
    rw [h.status t, ht]
    rfl
  · refine ⟨hheld, fun u => h.status_goto t u (.leaving op r), ?_, fun _ => rfl⟩
    intro u op' k' hu
    obtain ⟨hne, hu⟩ : u ≠ t ∧ s.place u = .inside op' k' := by
      rcases update_cases hu with ⟨-, he⟩ | hu
      · cases he
      · exact hu
    have hread := (h.others_read ht hne hu).1
    show S.Reaches (S.step s.obj k).1 op' (S.step s.obj k).1 k'
    rw [hS.readonly _ _ _ _ hread hreach]
    exact h.obj_of_reader ht hread ▸ h.inside u op' k' hu

variable [Fintype ι]

/-- **One access of a thread** is matched by the object. -/
theorem Sim.advance (h : Sim S s c) (hS : S.Implements O) (hι : Fintype.card ι < 2 ^ 31)
    {out : Option ρ} (hs : s.advance S t = some (out, s')) :
    ∃ c', O.Moves c (see (.step t, out)) c' ∧ Sim S s' c' := by
  obtain ⟨ltr, hH⟩ := h.held
  have hst := h.status t
  unfold Shared.advance at hs
  cases hp : s.place t with
  | idle => simp [hp] at hs
  | entering op =>
      rw [hp] at hs
      obtain ⟨⟨o, l'⟩, ho, he⟩ := Option.map_eq_some_iff.mp hs
      cases he
      have hheld := hH.enter (k := S.start op) hι hp ho
      refine ⟨c, .stay, ?_⟩
      cases hl : o.locks with
      | true =>
          rw [hl] at hheld
          simpa [hl] using h.enter hp hheld
      | false =>
          rw [hl] at hheld
          simpa [hl] using h.stay hheld (by simp [hp]) (by simp) (by rw [hp]; rfl)
  | inside op k =>
      rw [hp] at hs
      simp only at hs
      split at hs
      next b k' hstep =>
        cases hs
        have hk : (S.step s.obj k).2 = .inl k' := by rw [hstep]
        have hsim := h.body hS hp hk
        rw [hstep] at hsim
        exact ⟨c, .stay, hsim⟩
      next b r hstep =>
        cases hs
        have hr : (S.step s.obj k).2 = .inr r := by rw [hstep]
        have hfin := h.finish hS hp hr (hH.release (r := r) hι hp)
        rw [hstep] at hfin
        exact ⟨_, hfin⟩
  | leaving op r =>
      rw [hp] at hs
      obtain ⟨⟨o, l'⟩, ho, he⟩ := Option.map_eq_some_iff.mp hs
      cases he
      have hheld := hH.leave hι hp ho
      refine ⟨c, .stay, ?_⟩
      cases hu : o.unlocks with
      | true =>
          rw [hu] at hheld
          simpa [hu] using h.stay hheld (by simp [hp]) (by simp) (by rw [hp]; rfl)
      | false =>
          rw [hu] at hheld
          simpa [hu] using h.stay hheld (by simp [hp]) (by simp) (by rw [hp]; rfl)
  | returning r =>
      rw [hp] at hs hst
      cases hs
      refine ⟨c.goto t .idle, Object.Moves.stay.ret t hst, ?_⟩
      refine h.goto ⟨ltr, hH.goto (fun read => by rw [hp]; rfl) ?_⟩ (by simp [hp]) (by simp)
      simpa [hp, Fits] using hH.fits t

theorem Sim.step (h : Sim S s c) (hS : S.Implements O) (hι : Fintype.card ι < 2 ^ 31)
    {a : Call ι ο} {out : Option ρ} (hs : s.step S a = some (out, s')) :
    ∃ c', O.Moves c (see (a, out)) c' ∧ Sim S s' c' := by
  cases a with
  | step t => exact h.advance hS hι hs
  | call t op =>
      obtain ⟨ltr, hH⟩ := h.held
      simp only [Shared.step] at hs
      split at hs
      next hp =>
        cases hs
        have hst : c.status t = .idle := by rw [h.status t, hp]; rfl
        exact ⟨_, Object.Moves.stay.call t op hst, h.goto (hH.call hι hp) (by simp [hp]) (by simp)⟩
      next => cases hs
end

/-- Every history is one of the atomic object, which is as far as the threads. -/
theorem sections_sim [Fintype ι] (hι : Fintype.card ι < 2 ^ 31) {S : Sections α ο ρ κ}
    {O : Object α ο ρ} (hS : S.Implements O) {tr : List (Call ι ο × Option ρ)}
    {s : Shared ι α ο ρ κ} (h : (sections S O.init).Trace tr s) :
    ∃ c, O.Moves O.start (tr.flatMap see) c ∧ Sim S s c := by
  have h0 : Sim S (sections S O.init : Machine (Shared ι α ο ρ κ) _ _).init O.start := by
    refine ⟨⟨[], inv_init, fun _ => rfl, fun _ => rfl, fun _ => rfl⟩, fun _ => rfl, ?_,
      fun _ => rfl⟩
    intro t op k ht
    cases ht
  refine linearize (C := fun _ _ => True) see (fun _ s c => Sim S s c) h0 ?_ h
    (fun _ _ _ _ _ => trivial)
  intro tr s c a b s' _ _ _ hs hstep
  exact hs.step hS hι hstep

/-- **Sections under the spin lock are atomic.** If the bodies compute the operations of an object
when they run alone, then in every history of fewer than `2^31` threads the calls return what they
return when each of them happens at one point between its call and its return. -/
theorem sections_linearizable [Fintype ι] (hι : Fintype.card ι < 2 ^ 31) {S : Sections α ο ρ κ}
    {O : Object α ο ρ} (hS : S.Implements O) {tr : List (Call ι ο × Option ρ)}
    {s : Shared ι α ο ρ κ} (h : (sections S O.init).Trace tr s) :
    Linearizable O (tr.flatMap see) := by
  obtain ⟨c, hm, -⟩ := sections_sim hι hS h
  exact ⟨c, hm⟩

end Lunchbox.SpinLock
