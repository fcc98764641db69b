import Lunchbox.Lib.Machine

set_option autoImplicit false

/-! # `SpinLock`

The reader/writer spin lock (`spinLock.cpp`). The lock is one atomic 32-bit word `_state`:
`-1` when write-locked, otherwise the number of read locks. Every thread runs `set`, `trySet`,
`unset`, `setRead`, `trySetRead`, `unsetRead` and the three queries; one step of the machine is
one load, one store or one compare-and-swap of one thread, so an arbitrary list of actions is
an arbitrary sequentially consistent interleaving.

Who holds the lock is not part of the machine's state: it is read off the history
(`writers`, `readers`), from the steps at which a thread's lock call succeeds and at which its
release takes effect.
-/

namespace Lunchbox.SpinLock

open StateMachine

def writelocked : Int := -1
def unlocked : Int := 0

/-- The value an `int32_t` expression has after conversion: two's complement. -/
def toInt32 (x : Int) : Int := Int.bmod x (2 ^ 32)

/-! ## The machine -/

/-- The member functions of the lock. -/
inductive Op
  | set | trySet | unset | setRead | trySetRead | unsetRead | isSet | isSetRead | isSetWrite
  deriving DecidableEq, Repr

/-- The next access to `_state` a thread makes. `spin` says whether a failed attempt is
repeated, i.e. whether the call is `set` (`setRead`) or `trySet` (`trySetRead`). -/
inductive Pc
  | idle
  /-- `trySet`: `compareAndSwap(_unlocked, _writelocked)` -/
  | swap (spin : Bool)
  /-- `trySetRead`: `state = _state` -/
  | loadRead (spin : Bool)
  /-- `trySetRead`: `compareAndSwap(expected, expected + 1)` -/
  | swapRead (spin : Bool) (expected : Int)
  /-- `unsetRead`: `expected = _state` -/
  | loadRelease
  /-- `unsetRead`: `compareAndSwap(expected, expected - 1)` -/
  | swapRelease (expected : Int)
  /-- `unset`: `_state = _unlocked` -/
  | store
  deriving DecidableEq, Repr

/-- What a step reports: nothing yet, that a lock call returned true or a release took
effect, that a `try` call returned false, or the answer of a query. -/
inductive Output
  | running | lockedWrite | unlockedWrite | lockedRead | unlockedRead | failed
  | report (b : Bool)
  deriving DecidableEq, Repr

variable (ι : Type)

structure State where
  state : Int
  pc : ι → Pc

/-- A thread calls a function, or makes its next access. -/
inductive Action
  | call (t : ι) (op : Op)
  | step (t : ι)

variable {ι} [DecidableEq ι]

def State.goto (s : State ι) (t : ι) (pc : Pc) : State ι :=
  { s with pc := Function.update s.pc t pc }

/-- `Atomic::compareAndSwap` on `_state`. -/
def State.compareAndSwap (s : State ι) (expected newValue : Int) : Bool × State ι :=
  if s.state = expected then (true, { s with state := newValue }) else (false, s)

/-- The call of a function by an idle thread; a query is a single load and returns at once. -/
def State.call (s : State ι) (t : ι) : Op → Output × State ι
  | .set => (.running, s.goto t (.swap true))
  | .trySet => (.running, s.goto t (.swap false))
  | .unset => (.running, s.goto t .store)
  | .setRead => (.running, s.goto t (.loadRead true))
  | .trySetRead => (.running, s.goto t (.loadRead false))
  | .unsetRead => (.running, s.goto t .loadRelease)
  | .isSet => (.report (s.state ≠ unlocked), s)
  | .isSetRead => (.report (s.state > unlocked), s)
  | .isSetWrite => (.report (s.state = writelocked), s)

/-- The next access of the thread `t`. -/
def State.advance (s : State ι) (t : ι) : Option (Output × State ι) :=
  match s.pc t with
  | .idle => none
  | .swap spin =>
      match s.compareAndSwap unlocked writelocked with
      | (true, s') => some (.lockedWrite, s'.goto t .idle)
      | (false, s') =>
          if spin then some (.running, s'.goto t (.swap true))
          else some (.failed, s'.goto t .idle)
  | .loadRead spin =>
      let expected := if s.state = writelocked then 0 else s.state
      some (.running, s.goto t (.swapRead spin expected))
  | .swapRead spin expected =>
      match s.compareAndSwap expected (toInt32 (expected + 1)) with
      | (true, s') => some (.lockedRead, s'.goto t .idle)
      | (false, s') =>
          if spin then some (.running, s'.goto t (.loadRead true))
          else some (.failed, s'.goto t .idle)
  | .loadRelease => some (.running, s.goto t (.swapRelease s.state))
  | .swapRelease expected =>
      match s.compareAndSwap expected (toInt32 (expected - 1)) with
      | (true, s') => some (.unlockedRead, s'.goto t .idle)
      | (false, s') => some (.running, s'.goto t .loadRelease)
  | .store => some (.unlockedWrite, { s with state := unlocked }.goto t .idle)

/-- The lock with its threads. A thread calls one function at a time. -/
def lock (ι : Type) [DecidableEq ι] : Machine (State ι) (Action ι) Output where
  init := ⟨unlocked, fun _ => .idle⟩
  step s a :=
    match a with
    | .call t op => if s.pc t = .idle then some (s.call t op) else none
    | .step t => s.advance t

/-! ## The holders -/

abbrev History (ι : Type) := List (Action ι × Output)

def writersStep (ts : List ι) : Action ι × Output → List ι
  | (.step t, .lockedWrite) => t :: ts
  | (.step t, .unlockedWrite) => ts.erase t
  | _ => ts

def readersStep (ts : List ι) : Action ι × Output → List ι
  | (.step t, .lockedRead) => t :: ts
  | (.step t, .unlockedRead) => ts.erase t
  | _ => ts

/-- The threads holding the write lock after a history, one entry for each lock held. -/
def writers (tr : History ι) : List ι := tr.foldl writersStep []

/-- The threads holding the read lock after a history, one entry for each lock held. -/
def readers (tr : History ι) : List ι := tr.foldl readersStep []

@[simp] theorem writers_snoc (tr : History ι) (e : Action ι × Output) :
    writers (tr ++ [e]) = writersStep (writers tr) e := by
  simp [writers]

@[simp] theorem readers_snoc (tr : History ι) (e : Action ι × Output) :
    readers (tr ++ [e]) = readersStep (readers tr) e := by
  simp [readers]

/-- Correct use: a thread releases only what it holds. -/
def Correct (tr : History ι) : Action ι → Prop
  | .call t .unset => t ∈ writers tr
  | .call t .unsetRead => t ∈ readers tr
  | _ => True

/-! ## What one access can do -/

/-- The positions a thread can move to without touching the lock word. -/
inductive Moves (s : State ι) (t : ι) : Pc → Prop
  | idle : Moves s t .idle
  | swap (spin : Bool) : Moves s t (.swap spin)
  | loadRead (spin : Bool) : Moves s t (.loadRead spin)
  | swapRead (spin : Bool) :
      Moves s t (.swapRead spin (if s.state = writelocked then 0 else s.state))
  | loadRelease (e : Int) : s.pc t = .swapRelease e → Moves s t .loadRelease
  | swapRelease : s.pc t = .loadRelease → Moves s t (.swapRelease s.state)

/-- **Inversion of an access.** Four accesses change the lock word or its holders; every other
one only moves the thread on, and reports nothing or a failed `try`. -/
theorem advance_cases {s s' : State ι} {t : ι} {o : Output} (h : s.advance t = some (o, s')) :
    (∃ spin, s.pc t = .swap spin ∧ s.state = unlocked ∧ o = .lockedWrite ∧
      s' = { s with state := writelocked }.goto t .idle) ∨
    (∃ spin e, s.pc t = .swapRead spin e ∧ s.state = e ∧ o = .lockedRead ∧
      s' = { s with state := toInt32 (e + 1) }.goto t .idle) ∨
    (∃ e, s.pc t = .swapRelease e ∧ s.state = e ∧ o = .unlockedRead ∧
      s' = { s with state := toInt32 (e - 1) }.goto t .idle) ∨
    (s.pc t = .store ∧ o = .unlockedWrite ∧ s' = { s with state := unlocked }.goto t .idle) ∨
    ((o = .running ∨ o = .failed) ∧ ∃ pc, s' = s.goto t pc ∧ Moves s t pc) := by
  have quiet : ∀ o' pc, (o' = .running ∨ o' = .failed) → Moves s t pc →
      o' = o ∧ s.goto t pc = s' →
      ((o = .running ∨ o = .failed) ∧ ∃ pc, s' = s.goto t pc ∧ Moves s t pc) := by
    rintro o' pc ho hm ⟨rfl, rfl⟩
    exact ⟨ho, pc, rfl, hm⟩
  unfold State.advance State.compareAndSwap at h
  cases hpc : s.pc t with
  | idle => simp [hpc] at h
  | swap spin =>
      -- a failed swap is repeated by `set` and reported by `trySet`
      by_cases hs : s.state = unlocked
      · simp only [hpc, hs, if_true, Option.some.injEq, Prod.mk.injEq] at h
        exact Or.inl ⟨spin, rfl, hs, h.1.symm, h.2.symm⟩
      · cases spin with
        | true =>
            simp [hpc, hs] at h
            exact Or.inr (Or.inr (Or.inr (Or.inr (quiet _ _ (Or.inl rfl) (.swap true) h))))
        | false =>
            simp [hpc, hs] at h
            exact Or.inr (Or.inr (Or.inr (Or.inr (quiet _ _ (Or.inr rfl) .idle h))))
  | loadRead spin =>
      simp only [hpc, Option.some.injEq, Prod.mk.injEq] at h
      exact Or.inr (Or.inr (Or.inr (Or.inr (quiet _ _ (Or.inl rfl) (.swapRead spin) h))))
  | swapRead spin e =>
      by_cases hs : s.state = e
      · simp only [hpc, hs, if_true, Option.some.injEq, Prod.mk.injEq] at h
        exact Or.inr (Or.inl ⟨spin, e, rfl, hs, h.1.symm, h.2.symm⟩)
      · cases spin with
        | true =>
            simp [hpc, hs] at h
            exact Or.inr (Or.inr (Or.inr (Or.inr (quiet _ _ (Or.inl rfl) (.loadRead true) h))))
        | false =>
            simp [hpc, hs] at h
            exact Or.inr (Or.inr (Or.inr (Or.inr (quiet _ _ (Or.inr rfl) .idle h))))
  | loadRelease =>
      simp only [hpc, Option.some.injEq, Prod.mk.injEq] at h
      exact Or.inr (Or.inr (Or.inr (Or.inr (quiet _ _ (Or.inl rfl) (.swapRelease hpc) h))))
  | swapRelease e =>
      -- another reader came or went in between: the value is loaded again
      by_cases hs : s.state = e
      · simp only [hpc, hs, if_true, Option.some.injEq, Prod.mk.injEq] at h
        exact Or.inr (Or.inr (Or.inl ⟨e, rfl, hs, h.1.symm, h.2.symm⟩))
      · simp [hpc, hs] at h
        exact Or.inr (Or.inr (Or.inr (Or.inr (quiet _ _ (Or.inl rfl) (.loadRelease e hpc) h))))
  | store =>
      simp only [hpc, Option.some.injEq, Prod.mk.injEq] at h
      exact Or.inr (Or.inr (Or.inr (Or.inl ⟨rfl, h.1.symm, h.2.symm⟩)))

/-! ## The invariant -/

/-- The lock word says who holds the lock. -/
def WordOk (ws rs : List ι) (x : Int) : Prop :=
  (ws = [] ∧ x = rs.length) ∨ ((∃ t, ws = [t]) ∧ rs = [] ∧ x = writelocked)

/-- What a thread's position in its code says: it holds what it is about to release, and the
value it is about to swap for a read lock is not `_writelocked`. -/
def PcOk (ws rs : List ι) (t : ι) : Pc → Prop
  | .store => t ∈ ws
  | .loadRelease => t ∈ rs
  | .swapRelease _ => t ∈ rs
  | .swapRead _ e => 0 ≤ e
  | _ => True

structure Inv (tr : History ι) (s : State ι) : Prop where
  word : WordOk (writers tr) (readers tr) s.state
  pcs : ∀ t, PcOk (writers tr) (readers tr) t (s.pc t)

omit [DecidableEq ι] in
theorem WordOk.nonneg {ws rs : List ι} {x : Int} (h : WordOk ws rs x) (hx : x ≠ writelocked) :
    ws = [] ∧ x = rs.length := by
  rcases h with h | ⟨-, -, h⟩
  · exact h
  · exact absurd h hx

omit [DecidableEq ι] in
/-- A holder of the read lock keeps writers out. -/
theorem WordOk.of_reader {ws rs : List ι} {x : Int} {t : ι} (h : WordOk ws rs x) (ht : t ∈ rs) :
    ws = [] ∧ x = rs.length := by
  rcases h with h | ⟨-, h, -⟩
  · exact h
  · rw [h] at ht; cases ht

omit [DecidableEq ι] in
theorem WordOk.of_writer {ws rs : List ι} {x : Int} {t : ι} (h : WordOk ws rs x) (ht : t ∈ ws) :
    ws = [t] ∧ rs = [] ∧ x = writelocked := by
  rcases h with ⟨h, -⟩ | ⟨⟨u, hu⟩, hr, hx⟩
  · rw [h] at ht; cases ht
  · rw [hu, List.mem_singleton] at ht
    exact ⟨by rw [hu, ht], hr, hx⟩

omit [DecidableEq ι] in
/-- Another thread's position stays justified when only `t`'s locks change. -/
theorem PcOk.of_other {ws rs ws' rs' : List ι} {u : ι} {pc : Pc} (h : PcOk ws rs u pc)
    (hw : u ∈ ws → u ∈ ws') (hr : u ∈ rs → u ∈ rs') : PcOk ws' rs' u pc := by
  cases pc with
  | store => exact hw h
  | loadRelease => exact hr h
  | swapRelease e => exact hr h
  | swapRead spin e => exact h
  | idle => trivial
  | swap spin => trivial
  | loadRead spin => trivial

theorem pcs_goto {ws rs ws' rs' : List ι} {s : State ι} {t : ι} {pc : Pc}
    (h : ∀ u, PcOk ws rs u (s.pc u)) (hw : ∀ u, u ≠ t → u ∈ ws → u ∈ ws')
    (hr : ∀ u, u ≠ t → u ∈ rs → u ∈ rs') (hpc : PcOk ws' rs' t pc) :
    ∀ u, PcOk ws' rs' u ((s.goto t pc).pc u) := by
  intro u
  by_cases hu : u = t
  · subst hu
    simpa [State.goto] using hpc
  · simpa [State.goto, hu] using (h u).of_other (hw u hu) (hr u hu)

theorem toInt32_of_lt {x : Int} (h0 : 0 ≤ x) (h : x < 2 ^ 31) : toInt32 x = x := by
  unfold toInt32
  rw [Int.bmod_def, Int.emod_eq_of_lt h0 (by omega)]
  split <;> omega

theorem inv_init : Inv [] (lock ι).init :=
  ⟨Or.inl ⟨rfl, rfl⟩, fun _ => trivial⟩

variable {tr : History ι} {s s' : State ι} {t : ι}

/-- `compareAndSwap(0, -1)` succeeds: nobody held the lock. -/
theorem Inv.lockWrite (hi : Inv tr s) (hst : s.state = unlocked) :
    Inv (tr ++ [(.step t, .lockedWrite)]) ({ s with state := writelocked }.goto t .idle) := by
  obtain ⟨hw, hx⟩ := hi.word.nonneg (by rw [hst]; decide)
  have hr : readers tr = [] := by
    rw [hst, unlocked] at hx
    exact List.length_eq_zero_iff.mp (by omega)
  refine ⟨Or.inr ⟨⟨t, ?_⟩, ?_, rfl⟩, ?_⟩
  · simp [writersStep, hw]
  · simp [readersStep, hr]
  · refine pcs_goto hi.pcs ?_ ?_ trivial
    · intro u _ hu; simp [writersStep, hu]
    · intro u _ hu; simp [readersStep, hu]

/-- A read lock is taken: the expected value was not `-1`, so the word is the count. -/
theorem Inv.lockRead {spin : Bool} {e : Int} (hi : Inv tr s) (hpc : s.pc t = .swapRead spin e)
    (hst : s.state = e) (hb : (readers tr).length + 1 < 2 ^ 31) :
    Inv (tr ++ [(.step t, .lockedRead)]) ({ s with state := toInt32 (e + 1) }.goto t .idle) := by
  have he : 0 ≤ e := by
    have := hi.pcs t
    rwa [hpc] at this
  obtain ⟨hw, hx⟩ := hi.word.nonneg (by rw [hst, writelocked]; omega)
  rw [hst] at hx
  refine ⟨Or.inl ⟨by simp [writersStep, hw], ?_⟩, ?_⟩
  · have hlen : (readers (tr ++ [(.step t, .lockedRead)])).length = (readers tr).length + 1 := by
      simp [readersStep]
    show toInt32 (e + 1) = _
    rw [toInt32_of_lt (by omega) (by omega)]
    omega
  · refine pcs_goto hi.pcs ?_ ?_ trivial
    · intro u _ hu; simpa [writersStep] using hu
    · intro u _ hu; simp [readersStep, hu]

/-- A read lock is released by a thread that holds one, so the count stays non-negative. -/
theorem Inv.unlockRead {e : Int} (hi : Inv tr s) (hpc : s.pc t = .swapRelease e)
    (hst : s.state = e) (hb : (readers tr).length < 2 ^ 31) :
    Inv (tr ++ [(.step t, .unlockedRead)]) ({ s with state := toInt32 (e - 1) }.goto t .idle) := by
  have ht : t ∈ readers tr := by
    have := hi.pcs t
    rwa [hpc] at this
  have hpos := List.length_pos_of_mem ht
  obtain ⟨hw, hx⟩ := hi.word.of_reader ht
  rw [hst] at hx
  refine ⟨Or.inl ⟨by simp [writersStep, hw], ?_⟩, ?_⟩
  · have hlen : (readers (tr ++ [(.step t, .unlockedRead)])).length = (readers tr).length - 1 := by
      simp [readersStep, List.length_erase_of_mem ht]
    show toInt32 (e - 1) = _
    rw [toInt32_of_lt (by omega) (by omega)]
    omega
  · refine pcs_goto hi.pcs ?_ ?_ trivial
    · intro u _ hu; simpa [writersStep] using hu
    · intro u hne hu
      simpa [readersStep] using (List.mem_erase_of_ne hne).mpr hu

/-- The writer stores `_unlocked`; the other threads hold nothing that they could lose. -/
theorem Inv.unlockWrite (hi : Inv tr s) (hpc : s.pc t = .store) :
    Inv (tr ++ [(.step t, .unlockedWrite)]) ({ s with state := unlocked }.goto t .idle) := by
  have ht : t ∈ writers tr := by
    have := hi.pcs t
    rwa [hpc] at this
  obtain ⟨hw, hr, -⟩ := hi.word.of_writer ht
  refine ⟨Or.inl ⟨?_, ?_⟩, ?_⟩
  · simp [writersStep, hw]
  · simp [readersStep, hr, State.goto, unlocked]
  · refine pcs_goto hi.pcs ?_ ?_ trivial
    · intro u hne hu
      rw [hw, List.mem_singleton] at hu
      exact absurd hu hne
    · intro u _ hu; simpa [readersStep] using hu

/-- A position that a thread moves to without touching the word is justified. -/
theorem Inv.move {pc : Pc} (hi : Inv tr s) (hm : Moves s t pc) :
    PcOk (writers tr) (readers tr) t pc := by
  have hold := hi.pcs t
  cases hm with
  | idle => trivial
  | swap spin => trivial
  | loadRead spin => trivial
  | swapRead spin =>
      -- the expected value is 0 if the word was `-1`, and a count otherwise
      show 0 ≤ if s.state = writelocked then 0 else s.state
      split
      · exact le_refl 0
      · have := (hi.word.nonneg ‹_›).2
        omega
  | loadRelease e hpc => rwa [hpc] at hold
  | swapRelease hpc => rwa [hpc] at hold

/-- A call moves the calling thread only; a query moves nothing. -/
theorem Inv.call {op : Op} {o : Output} (hi : Inv tr s) (hc : Correct tr (.call t op))
    (hs : s.call t op = (o, s')) : Inv (tr ++ [(.call t op, o)]) s' := by
  have hw : writers (tr ++ [(.call t op, o)]) = writers tr := by simp [writersStep]
  have hr : readers (tr ++ [(.call t op, o)]) = readers tr := by simp [readersStep]
  have hpcs := fun pc hpc => @pcs_goto ι _ _ _ _ _ s t pc hi.pcs (fun _ _ h => h)
    (fun _ _ h => h) hpc
  cases op <;> simp only [State.call, Prod.mk.injEq] at hs <;> obtain ⟨-, rfl⟩ := hs <;>
    refine ⟨by rw [hw, hr]; exact hi.word, ?_⟩ <;> rw [hw, hr]
  case unset => exact hpcs _ hc
  case unsetRead => exact hpcs _ hc
  case isSet => exact hi.pcs
  case isSetRead => exact hi.pcs
  case isSetWrite => exact hi.pcs
  all_goals exact hpcs _ trivial

/-- **One step keeps the invariant**, as long as the count of read locks fits the word. -/
theorem inv_step {a : Action ι} {o : Output} (hi : Inv tr s) (hc : Correct tr a)
    (hs : (lock ι).step s a = some (o, s')) (hb0 : (readers tr).length < 2 ^ 31)
    (hb : (readers (tr ++ [(a, o)])).length < 2 ^ 31) : Inv (tr ++ [(a, o)]) s' := by
  cases a with
  | call t op =>
      simp only [lock] at hs
      split at hs
      · exact hi.call hc (Option.some.inj hs)
      · cases hs
  | step t =>
      rcases advance_cases hs with ⟨spin, hpc, hst, rfl, rfl⟩ | ⟨spin, e, hpc, hst, rfl, rfl⟩ |
        ⟨e, hpc, hst, rfl, rfl⟩ | ⟨hpc, rfl, rfl⟩ | ⟨ho, pc, rfl, hpc⟩
      · exact hi.lockWrite hst
      · exact hi.lockRead hpc hst (by simpa [readersStep] using hb)
      · exact hi.unlockRead hpc hst hb0
      · exact hi.unlockWrite hpc
      · -- no change of the word: the holders are the same
        have hw : writers (tr ++ [(.step t, o)]) = writers tr := by
          rcases ho with rfl | rfl <;> simp [writersStep]
        have hr : readers (tr ++ [(.step t, o)]) = readers tr := by
          rcases ho with rfl | rfl <;> simp [readersStep]
        refine ⟨by rw [hw, hr]; exact hi.word, ?_⟩
        rw [hw, hr]
        exact pcs_goto hi.pcs (fun _ _ h => h) (fun _ _ h => h) (hi.move hpc)

/-- The invariant holds after every correct use with fewer than `2^31` read locks held at any
time. -/
theorem inv_of_trace {tr : History ι} {s : State ι} (h : (lock ι).Trace tr s)
    (hc : Respects Correct tr) (hb : ∀ pre, pre <+: tr → (readers pre).length < 2 ^ 31) :
    Inv tr s := by
  refine h.inv (C := Correct)
    (I := fun tr s => (∀ pre, pre <+: tr → (readers pre).length < 2 ^ 31) → Inv tr s)
    (fun _ => inv_init) ?_ hc hb
  intro tr s a o s' _ _ hca ih hs hb
  exact inv_step (ih fun pre hp => hb pre (hp.trans (List.prefix_append _ _))) hca hs
    (hb _ (List.prefix_append _ _)) (hb _ (List.prefix_refl _))

/-! ## The lock is a reader/writer lock -/

omit [DecidableEq ι] in
theorem WordOk.eq_writelocked_iff {ws rs : List ι} {x : Int} (h : WordOk ws rs x) :
    x = writelocked ↔ (∃ t, ws = [t]) ∧ rs = [] := by
  rcases h with ⟨hw, hx⟩ | ⟨hw, hr, hx⟩
  · subst hw
    constructor
    · intro he
      rw [he, writelocked] at hx
      omega
    · rintro ⟨⟨t, ht⟩, -⟩
      cases ht
  · exact ⟨fun _ => ⟨hw, hr⟩, fun _ => hx⟩

omit [DecidableEq ι] in
theorem WordOk.eq_unlocked_iff {ws rs : List ι} {x : Int} (h : WordOk ws rs x) :
    x = unlocked ↔ ws = [] ∧ rs = [] := by
  rcases h with ⟨hw, hx⟩ | ⟨⟨t, hw⟩, hr, hx⟩
  · rw [hx, unlocked, ← List.length_eq_zero_iff (l := rs)]
    constructor
    · intro he; exact ⟨hw, by omega⟩
    · rintro ⟨-, he⟩; omega
  · rw [hx, hw]
    simp [writelocked, unlocked]

omit [DecidableEq ι] in
theorem WordOk.pos_iff {ws rs : List ι} {x : Int} (h : WordOk ws rs x) :
    x > unlocked ↔ rs ≠ [] := by
  rcases h with ⟨-, hx⟩ | ⟨-, hr, hx⟩
  · rw [hx, unlocked, ← List.length_pos_iff_ne_nil]
    omega
  · simp [hx, hr, writelocked, unlocked]

/-- A query reports what its single load of the word says. -/
theorem query_report {op : Op} {p b : Bool} (hop : s.call t op = (.report p, s))
    (hs : (lock ι).step s (.call t op) = some (.report b, s')) : p = b := by
  simp only [lock, hop] at hs
  split at hs
  · cases hs
    rfl
  · cases hs

/-- A failed `trySet` or `trySetRead` changes neither the lock word nor its holders. -/
theorem failed_unchanged {tr : History ι} {s s' : State ι} {a : Action ι}
    (hs : (lock ι).step s a = some (.failed, s')) :
    s'.state = s.state ∧ writers (tr ++ [(a, .failed)]) = writers tr ∧
      readers (tr ++ [(a, .failed)]) = readers tr := by
  cases a with
  | call t op =>
      simp only [lock] at hs
      split at hs
      · cases op <;> simp [State.call] at hs
      · cases hs
  | step t =>
      refine ⟨?_, by simp [writersStep], by simp [readersStep]⟩
      rcases advance_cases hs with ⟨_, _, _, ho, _⟩ | ⟨_, _, _, _, ho, _⟩ | ⟨_, _, _, ho, _⟩ |
        ⟨_, ho, _⟩ | ⟨_, pc, rfl, _⟩
      · cases ho
      · cases ho
      · cases ho
      · cases ho
      · rfl

/-- **`SpinLock` is a reader/writer lock.** After every correct use, at every access of every
interleaving: the lock word is `-1` exactly when one thread holds the write lock and none the
read lock, and otherwise nobody holds the write lock and it is the number of read locks held
(the number of threads holding one, unless a thread has locked twice). A writer excludes all
other holders, a failed `try` changes nothing, the queries report the holders, and with no
holder left the word is `0`. -/
theorem reader_writer_lock {tr : History ι} {s : State ι} (h : (lock ι).Trace tr s)
    (hc : Respects Correct tr) (hb : ∀ pre, pre <+: tr → (readers pre).length < 2 ^ 31) :
    (s.state = -1 ↔ (∃ t, writers tr = [t]) ∧ readers tr = []) ∧
    (s.state ≠ -1 → writers tr = [] ∧ s.state = (readers tr).length ∧
      ((readers tr).Nodup → s.state = (readers tr).toFinset.card)) ∧
    (∀ t ∈ writers tr, writers tr = [t] ∧ readers tr = []) ∧
    (∀ a s', (lock ι).step s a = some (.failed, s') →
      s'.state = s.state ∧ writers (tr ++ [(a, .failed)]) = writers tr ∧
        readers (tr ++ [(a, .failed)]) = readers tr) ∧
    (∀ t b s', (lock ι).step s (.call t .isSet) = some (.report b, s') →
      (b = true ↔ ¬ (writers tr = [] ∧ readers tr = []))) ∧
    (∀ t b s', (lock ι).step s (.call t .isSetRead) = some (.report b, s') →
      (b = true ↔ readers tr ≠ [])) ∧
    (∀ t b s', (lock ι).step s (.call t .isSetWrite) = some (.report b, s') →
      (b = true ↔ (∃ t, writers tr = [t]) ∧ readers tr = [])) ∧
    (writers tr = [] → readers tr = [] → s.state = 0) := by
  have hword := (inv_of_trace h hc hb).word
  refine ⟨hword.eq_writelocked_iff, ?_, ?_, fun a s' hs => failed_unchanged hs, ?_, ?_, ?_, ?_⟩
  · intro hx
    obtain ⟨hw, hlen⟩ := hword.nonneg hx
    refine ⟨hw, hlen, fun hn => ?_⟩
    rw [List.toFinset_card_of_nodup hn, hlen]
  · intro t ht
    obtain ⟨hw, hr, -⟩ := hword.of_writer ht
    exact ⟨hw, hr⟩
  · intro t b s' hs
    rw [← query_report rfl hs, ← hword.eq_unlocked_iff, decide_eq_true_iff]
  · intro t b s' hs
    rw [← query_report rfl hs, ← hword.pos_iff, decide_eq_true_iff]
  · intro t b s' hs
    rw [← query_report rfl hs, ← hword.eq_writelocked_iff, decide_eq_true_iff]
  · intro hw hr
    exact hword.eq_unlocked_iff.mpr ⟨hw, hr⟩

/-- A reader holds the lock while a writer's `trySet` fails. -/
def sharedHistory : History Bool :=
  [(.call false .setRead, .running), (.step false, .running), (.step false, .lockedRead),
    (.call true .trySet, .running), (.step true, .failed)]

theorem reader_writer_lock_shared :
    ∃ s, (lock Bool).Trace sharedHistory s ∧
      (s.state ≠ -1 → writers sharedHistory = [] ∧ s.state = (readers sharedHistory).length ∧
        ((readers sharedHistory).Nodup → s.state = (readers sharedHistory).toFinset.card)) := by
  have h : (lock Bool).Trace sharedHistory _ := Machine.Trace.of_run
    [.call false .setRead, .step false, .step false, .call true .trySet, .step true] rfl
  refine ⟨_, h, (reader_writer_lock h ?_ ?_).2.1⟩
  · exact respects_of_checks (by simp [checks, sharedHistory, Correct])
  · intro pre hpre
    rw [← List.mem_inits] at hpre
    revert pre
    decide

end Lunchbox.SpinLock
