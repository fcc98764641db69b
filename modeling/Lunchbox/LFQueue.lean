import Lunchbox.Lib.Machine

set_option autoImplicit false

/-! # `LFQueue`

The lock-free queue between one writer and one reader thread (`lfQueue.h`, `lfQueue.ipp`): a
ring of `size + 1` cells with a read and a write position. One step of the machine is one load
or store of one thread. A cell holds an element of arbitrary type, so storing an element and
copying it out are not atomic: each is two steps, and while a store is in progress the cell
has no value.

`pushes` and `pops` read the successfully pushed and popped values off the history: a value
is pushed when `_writePos` is stored and popped when `_readPos` is stored, after which the
call only returns.
-/

namespace Lunchbox.LFQueue

open StateMachine

variable {T : Type}

/-! ## The machine -/

/-- The writer inside `push`. -/
inductive WriterPc (T : Type)
  | idle
  /-- `nextPos = (_writePos + 1) % _data.size()` -/
  | loadWritePos (element : T)
  /-- `if (nextPos == _readPos) return false` -/
  | loadReadPos (element : T) (nextPos : Nat)
  /-- the position in `_data[_writePos] = element` -/
  | loadIndex (element : T) (nextPos : Nat)
  /-- `_data[pos] = element`, not begun -/
  | storing (element : T) (nextPos pos : Nat)
  /-- `_data[pos] = element`, in progress -/
  | stored (element : T) (nextPos pos : Nat)
  /-- `_writePos = nextPos` -/
  | publish (element : T) (nextPos : Nat)

/-- The reader inside `pop` (`isPop`) or `getFront`. -/
inductive ReaderPc (T : Type)
  | idle
  /-- the first operand of `_readPos == _writePos` -/
  | loadReadPos (isPop : Bool)
  /-- the second operand; `return false` if they are equal -/
  | loadWritePos (isPop : Bool) (readPos : Nat)
  /-- the position in `result = _data[_readPos]` -/
  | loadIndex (isPop : Bool)
  /-- `result = _data[pos]`, not begun -/
  | fetching (isPop : Bool) (pos : Nat)
  /-- `result = _data[pos]`, in progress -/
  | fetched (isPop : Bool) (pos : Nat)
  /-- the position in `_readPos = (_readPos + 1) % _data.size()` -/
  | loadNext (result : Option T)
  /-- `_readPos = (pos + 1) % _data.size()` -/
  | publish (result : Option T) (pos : Nat)

structure State (T : Type) where
  data : List (Option T)
  readPos : Nat
  writePos : Nat
  writer : WriterPc T
  reader : ReaderPc T

/-- The two threads call a function or make their next access. -/
inductive Action (T : Type)
  | push (element : T)
  | pop
  | getFront
  | writer
  | reader

/-- What a step reports: nothing yet, `push` returning true or false, `pop` or `getFront`
returning true with a result, or one of them returning false. A result without a value is a
copy of a cell that was being stored to. -/
inductive Output (T : Type)
  | running
  | pushed (element : T)
  | full
  | popped (result : Option T)
  | front (result : Option T)
  | empty

/-- The next access of the writer. -/
def State.advanceWriter (s : State T) : Option (Output T × State T) :=
  match s.writer with
  | .idle => none
  | .loadWritePos x =>
      some (.running, { s with writer := .loadReadPos x ((s.writePos + 1) % s.data.length) })
  | .loadReadPos x nextPos =>
      if nextPos = s.readPos then some (.full, { s with writer := .idle })
      else some (.running, { s with writer := .loadIndex x nextPos })
  | .loadIndex x nextPos => some (.running, { s with writer := .storing x nextPos s.writePos })
  | .storing x nextPos pos =>
      some (.running, { s with data := s.data.set pos none, writer := .stored x nextPos pos })
  | .stored x nextPos pos =>
      some (.running, { s with data := s.data.set pos (some x), writer := .publish x nextPos })
  | .publish x nextPos => some (.pushed x, { s with writePos := nextPos, writer := .idle })

/-- The next access of the reader. -/
def State.advanceReader (s : State T) : Option (Output T × State T) :=
  match s.reader with
  | .idle => none
  | .loadReadPos isPop => some (.running, { s with reader := .loadWritePos isPop s.readPos })
  | .loadWritePos isPop readPos =>
      if readPos = s.writePos then some (.empty, { s with reader := .idle })
      else some (.running, { s with reader := .loadIndex isPop })
  | .loadIndex isPop => some (.running, { s with reader := .fetching isPop s.readPos })
  | .fetching isPop pos => some (.running, { s with reader := .fetched isPop pos })
  | .fetched isPop pos =>
      if isPop then some (.running, { s with reader := .loadNext (s.data[pos]?).join })
      else some (.front (s.data[pos]?).join, { s with reader := .idle })
  | .loadNext result => some (.running, { s with reader := .publish result s.readPos })
  | .publish result pos =>
      some (.popped result,
        { s with readPos := (pos + 1) % s.data.length, reader := .idle })

/-- `LFQueue(size)` with its two threads; the cells of a new vector hold `T()`. All positions
are below `size + 1`, which fits `int32_t`, so no sum wraps. -/
def queue (dflt : T) (size : Nat) : Machine (State T) (Action T) (Output T) where
  init := ⟨List.replicate (size + 1) (some dflt), 0, 0, .idle, .idle⟩
  step s a :=
    match a with
    | .push x =>
        match s.writer with
        | .idle => some (.running, { s with writer := .loadWritePos x })
        | _ => none
    | .pop =>
        match s.reader with
        | .idle => some (.running, { s with reader := .loadReadPos true })
        | _ => none
    | .getFront =>
        match s.reader with
        | .idle => some (.running, { s with reader := .loadReadPos false })
        | _ => none
    | .writer => s.advanceWriter
    | .reader => s.advanceReader

/-- `getCapacity()` -/
def State.getCapacity (s : State T) : Nat := s.data.length - 1

/-! ## Pushed and popped values -/

abbrev History (T : Type) := List (Action T × Output T)

def pushesStep (xs : List T) : Action T × Output T → List T
  | (_, .pushed x) => xs ++ [x]
  | _ => xs

def popsStep (xs : List (Option T)) : Action T × Output T → List (Option T)
  | (_, .popped x) => xs ++ [x]
  | _ => xs

def frontsStep (xs : List (Option T)) : Action T × Output T → List (Option T)
  | (_, .popped _) => []
  | (_, .front x) => x :: xs
  | _ => xs

/-- The successfully pushed values, in order. -/
def pushes (tr : History T) : List T := tr.foldl pushesStep []

/-- The popped values, in order. -/
def pops (tr : History T) : List (Option T) := tr.foldl popsStep []

/-- The results of `getFront` since the last successful `pop`. -/
def fronts (tr : History T) : List (Option T) := tr.foldl frontsStep []

@[simp] theorem pushes_snoc (tr : History T) (e : Action T × Output T) :
    pushes (tr ++ [e]) = pushesStep (pushes tr) e := by
  simp [pushes]

@[simp] theorem pops_snoc (tr : History T) (e : Action T × Output T) :
    pops (tr ++ [e]) = popsStep (pops tr) e := by
  simp [pops]

@[simp] theorem fronts_snoc (tr : History T) (e : Action T × Output T) :
    fronts (tr ++ [e]) = frontsStep (fronts tr) e := by
  simp [fronts]

/-! ## The invariant

With `n` values pushed and `k` popped so far, the positions are `n` and `k` modulo the number
of cells, and the cells `k, …, n - 1` (modulo the number of cells) hold the unread values. -/

/-- Two positions of one lap of the ring are equal only if they are the same. -/
theorem eq_of_mod_eq {N k n : Nat} (hle : k ≤ n) (hlt : n < k + N) (h : k % N = n % N) :
    k = n := by
  have hz : (n - k) % N = 0 := Nat.sub_mod_eq_zero_of_mod_eq h.symm
  rw [Nat.mod_eq_of_lt (by omega)] at hz
  omega

/-- `v` is the oldest unread value. -/
def IsFront (xs : List T) (k : Nat) (v : Option T) : Prop := v ≠ none ∧ v = xs[k]?

/-- What the writer knows at each point of `push`: its positions, and once it has passed the
test for a full queue, that there is room. -/
def WriterOk (c n k : Nat) (data : List (Option T)) : WriterPc T → Prop
  | .idle => True
  | .loadWritePos _ => True
  | .loadReadPos _ nextPos => nextPos = (n + 1) % (c + 1)
  | .loadIndex _ nextPos => nextPos = (n + 1) % (c + 1) ∧ n < k + c
  | .storing _ nextPos pos => nextPos = (n + 1) % (c + 1) ∧ n < k + c ∧ pos = n % (c + 1)
  | .stored _ nextPos pos => nextPos = (n + 1) % (c + 1) ∧ n < k + c ∧ pos = n % (c + 1)
  | .publish x nextPos =>
      nextPos = (n + 1) % (c + 1) ∧ n < k + c ∧ data[n % (c + 1)]? = some (some x)

/-- What the reader knows at each point of `pop` and `getFront`: its position, and once it has
passed the test for an empty queue, that there is a value. -/
def ReaderOk (c : Nat) (xs : List T) (k : Nat) : ReaderPc T → Prop
  | .idle => True
  | .loadReadPos _ => True
  | .loadWritePos _ readPos => readPos = k % (c + 1)
  | .loadIndex _ => k < xs.length
  | .fetching _ pos => k < xs.length ∧ pos = k % (c + 1)
  | .fetched _ pos => k < xs.length ∧ pos = k % (c + 1)
  | .loadNext v => IsFront xs k v
  | .publish v pos => IsFront xs k v ∧ pos = k % (c + 1)

/-- The state of the ring after pushing `xs` and popping `k` of them. -/
structure Ring (c : Nat) (xs : List T) (k : Nat) (s : State T) : Prop where
  length : s.data.length = c + 1
  le : k ≤ xs.length
  room : xs.length ≤ k + c
  writePos : s.writePos = xs.length % (c + 1)
  readPos : s.readPos = k % (c + 1)
  cells : ∀ i, k ≤ i → i < xs.length → s.data[i % (c + 1)]? = some xs[i]?
  writer : WriterOk c xs.length k s.data s.writer
  reader : ReaderOk c xs k s.reader

structure Inv (c : Nat) (tr : History T) (s : State T) : Prop where
  ring : Ring c (pushes tr) (pops tr).length s
  popped : pops tr = ((pushes tr).take (pops tr).length).map some
  fronts : ∀ v ∈ fronts tr, IsFront (pushes tr) (pops tr).length v

theorem IsFront.lt {xs : List T} {k : Nat} {v : Option T} (h : IsFront xs k v) :
    k < xs.length := by
  obtain ⟨hne, rfl⟩ := h
  by_contra hge
  exact hne (List.getElem?_eq_none (by omega))

theorem IsFront.push {xs : List T} {k : Nat} {v : Option T} (h : IsFront xs k v) (x : T) :
    IsFront (xs ++ [x]) k v :=
  ⟨h.1, by rw [List.getElem?_append_left h.lt]; exact h.2⟩

/-- A push does not change what the reader knows. -/
theorem ReaderOk.push {c k : Nat} {xs : List T} {pc : ReaderPc T} (h : ReaderOk c xs k pc)
    (x : T) : ReaderOk c (xs ++ [x]) k pc := by
  have hlen : xs.length < (xs ++ [x]).length := by simp
  cases pc with
  | idle => trivial
  | loadReadPos _ => trivial
  | loadWritePos _ _ => exact h
  | loadIndex _ => exact lt_trans h hlen
  | fetching _ _ => exact ⟨lt_trans h.1 hlen, h.2⟩
  | fetched _ _ => exact ⟨lt_trans h.1 hlen, h.2⟩
  | loadNext _ => exact IsFront.push h x
  | publish _ _ => exact ⟨h.1.push x, h.2⟩

/-- A pop does not change what the writer knows: it only makes room. -/
theorem WriterOk.pop {c n k : Nat} {data : List (Option T)} {pc : WriterPc T}
    (h : WriterOk c n k data pc) : WriterOk c n (k + 1) data pc := by
  cases pc with
  | idle => trivial
  | loadWritePos _ => trivial
  | loadReadPos _ _ => exact h
  | loadIndex _ _ => exact ⟨h.1, by have := h.2; omega⟩
  | storing _ _ _ => exact ⟨h.1, by have := h.2.1; omega, h.2.2⟩
  | stored _ _ _ => exact ⟨h.1, by have := h.2.1; omega, h.2.2⟩
  | publish _ _ => exact ⟨h.1, by have := h.2.1; omega, h.2.2⟩

/-- The cell the writer stores to is none of the unread ones. -/
theorem Ring.cells_set {c k : Nat} {xs : List T} {s : State T} (h : Ring c xs k s)
    (hroom : xs.length < k + c) (v : Option T) :
    ∀ i, k ≤ i → i < xs.length →
      (s.data.set (xs.length % (c + 1)) v)[i % (c + 1)]? = some xs[i]? := by
  intro i hki hi
  have hne : xs.length % (c + 1) ≠ i % (c + 1) := by
    intro he
    have := eq_of_mod_eq (Nat.le_of_lt hi) (by omega) he.symm
    omega
  rw [List.getElem?_set_ne hne]
  exact h.cells i hki hi

/-- The test for a full queue: the next position is the read position one lap later. -/
theorem Ring.next_eq_readPos {c k : Nat} {xs : List T} {s : State T} (h : Ring c xs k s) :
    (xs.length + 1) % (c + 1) = s.readPos ↔ xs.length = k + c := by
  have hle := h.le
  have hroom := h.room
  rw [h.readPos]
  constructor
  · intro hmod
    by_contra hne
    have := eq_of_mod_eq (N := c + 1) (by omega) (by omega) hmod.symm
    omega
  · intro hlen
    have hlap : xs.length + 1 = k + (c + 1) := by omega
    rw [hlap, Nat.add_mod_right]

/-- The test for an empty queue. -/
theorem Ring.readPos_eq_writePos {c k : Nat} {xs : List T} {s : State T} (h : Ring c xs k s) :
    k % (c + 1) = s.writePos ↔ xs.length = k := by
  have hroom := h.room
  rw [h.writePos]
  constructor
  · intro hmod
    exact (eq_of_mod_eq h.le (by omega) hmod).symm
  · intro hlen
    rw [hlen]

/-! ## The steps -/

/-- What one access of the writer can do: publish a value that fits, fail on a queue with `c`
unread values, or nothing visible. -/
theorem Ring.advanceWriter {c k : Nat} {xs : List T} {s s' : State T} {o : Output T}
    (h : Ring c xs k s) (hs : s.advanceWriter = some (o, s')) :
    (o = .running ∧ Ring c xs k s') ∨ (o = .full ∧ xs.length = k + c ∧ Ring c xs k s') ∨
      (∃ x, o = .pushed x ∧ Ring c (xs ++ [x]) k s') := by
  have hw := h.writer
  unfold State.advanceWriter at hs
  cases hpc : s.writer with
  | idle => simp [hpc] at hs
  | loadWritePos x =>
      simp only [hpc, Option.some.injEq, Prod.mk.injEq] at hs
      obtain ⟨rfl, rfl⟩ := hs
      refine Or.inl ⟨rfl, { h with writer := ?_ }⟩
      show (s.writePos + 1) % s.data.length = _
      rw [h.length, h.writePos, Nat.mod_add_mod]
  | loadReadPos x nextPos =>
      rw [hpc] at hw
      by_cases hfull : nextPos = s.readPos
      · simp only [hpc, hfull, if_true, Option.some.injEq, Prod.mk.injEq] at hs
        obtain ⟨rfl, rfl⟩ := hs
        refine Or.inr (Or.inl ⟨rfl, ?_, { h with writer := trivial }⟩)
        apply h.next_eq_readPos.mp
        rw [← hfull]
        exact hw.symm
      · simp only [hpc, hfull, if_false, Option.some.injEq, Prod.mk.injEq] at hs
        obtain ⟨rfl, rfl⟩ := hs
        -- there is room now, and later pops only make more of it
        have hne : xs.length ≠ k + c := by
          rw [ne_eq, ← h.next_eq_readPos, ← (show nextPos = _ from hw)]
          exact hfull
        exact Or.inl ⟨rfl, { h with writer := ⟨hw, Nat.lt_of_le_of_ne h.room hne⟩ }⟩
  | loadIndex x nextPos =>
      rw [hpc] at hw
      simp only [hpc, Option.some.injEq, Prod.mk.injEq] at hs
      obtain ⟨rfl, rfl⟩ := hs
      exact Or.inl ⟨rfl, { h with writer := ⟨hw.1, hw.2, h.writePos⟩ }⟩
  | storing x nextPos pos =>
      -- the cell loses its value, but it is none of the unread ones
      rw [hpc] at hw
      simp only [hpc, Option.some.injEq, Prod.mk.injEq] at hs
      obtain ⟨rfl, rfl⟩ := hs
      obtain ⟨hn, hroom, rfl⟩ := hw
      exact Or.inl ⟨rfl, { h with
        length := by rw [List.length_set]; exact h.length
        cells := h.cells_set hroom none
        writer := ⟨hn, hroom, rfl⟩ }⟩
  | stored x nextPos pos =>
      rw [hpc] at hw
      simp only [hpc, Option.some.injEq, Prod.mk.injEq] at hs
      obtain ⟨rfl, rfl⟩ := hs
      obtain ⟨hn, hroom, rfl⟩ := hw
      refine Or.inl ⟨rfl, { h with
        length := by rw [List.length_set]; exact h.length
        cells := h.cells_set hroom (some x)
        writer := ⟨hn, hroom, ?_⟩ }⟩
      show (s.data.set _ _)[_]? = _
      rw [List.getElem?_set_self]
      rw [h.length]
      exact Nat.mod_lt _ (by omega)
  | publish x nextPos =>
      -- the cell that was stored to becomes the youngest unread one
      rw [hpc] at hw
      simp only [hpc, Option.some.injEq, Prod.mk.injEq] at hs
      obtain ⟨rfl, rfl⟩ := hs
      obtain ⟨hn, hroom, hcell⟩ := hw
      have hlen : (xs ++ [x]).length = xs.length + 1 := by simp
      refine Or.inr (Or.inr ⟨x, rfl, ?_⟩)
      refine ⟨h.length, ?_, ?_, ?_, h.readPos, ?_, trivial, h.reader.push x⟩
      · have := h.le; omega
      · omega
      · rw [hlen]; exact hn
      · intro i hki hi
        rw [hlen] at hi
        rcases Nat.lt_succ_iff_lt_or_eq.mp hi with hlt | rfl
        · rw [List.getElem?_append_left hlt]
          exact h.cells i hki hlt
        · rw [List.getElem?_append_right (le_refl _), Nat.sub_self]
          exact hcell

/-- What one access of the reader can do: return the oldest unread value, take it, fail on a
queue without unread values, or nothing visible. -/
theorem Ring.advanceReader {c k : Nat} {xs : List T} {s s' : State T} {o : Output T}
    (h : Ring c xs k s) (hs : s.advanceReader = some (o, s')) :
    (o = .running ∧ Ring c xs k s') ∨ (o = .empty ∧ xs.length = k ∧ Ring c xs k s') ∨
      (∃ v, o = .front v ∧ IsFront xs k v ∧ Ring c xs k s') ∨
      (∃ v, o = .popped v ∧ IsFront xs k v ∧ Ring c xs (k + 1) s') := by
  have hr := h.reader
  unfold State.advanceReader at hs
  cases hpc : s.reader with
  | idle => simp [hpc] at hs
  | loadReadPos isPop =>
      simp only [hpc, Option.some.injEq, Prod.mk.injEq] at hs
      obtain ⟨rfl, rfl⟩ := hs
      exact Or.inl ⟨rfl, { h with reader := h.readPos }⟩
  | loadWritePos isPop readPos =>
      rw [hpc] at hr
      by_cases hempty : readPos = s.writePos
      · simp only [hpc, hempty, if_true, Option.some.injEq, Prod.mk.injEq] at hs
        obtain ⟨rfl, rfl⟩ := hs
        refine Or.inr (Or.inl ⟨rfl, ?_, { h with reader := trivial }⟩)
        apply h.readPos_eq_writePos.mp
        rw [← hempty]
        exact hr.symm
      · simp only [hpc, hempty, if_false, Option.some.injEq, Prod.mk.injEq] at hs
        obtain ⟨rfl, rfl⟩ := hs
        -- there is a value now, and later pushes only add others
        have hne : xs.length ≠ k := by
          rw [ne_eq, ← h.readPos_eq_writePos, ← (show readPos = _ from hr)]
          exact hempty
        exact Or.inl ⟨rfl, { h with reader := Nat.lt_of_le_of_ne h.le (Ne.symm hne) }⟩
  | loadIndex isPop =>
      rw [hpc] at hr
      simp only [hpc, Option.some.injEq, Prod.mk.injEq] at hs
      obtain ⟨rfl, rfl⟩ := hs
      exact Or.inl ⟨rfl, { h with reader := ⟨hr, h.readPos⟩ }⟩
  | fetching isPop pos =>
      rw [hpc] at hr
      simp only [hpc, Option.some.injEq, Prod.mk.injEq] at hs
      obtain ⟨rfl, rfl⟩ := hs
      exact Or.inl ⟨rfl, { h with reader := hr }⟩
  | fetched isPop pos =>
      rw [hpc] at hr
      obtain ⟨hlt, rfl⟩ := hr
      -- the cell holds an unread value, so the writer is not storing to it
      have hfront : IsFront xs k (s.data[k % (c + 1)]?).join := by
        rw [h.cells k (le_refl k) hlt, Option.join_some]
        exact ⟨by simp [hlt], rfl⟩
      cases isPop with
      | true =>
          simp only [hpc, if_true, Option.some.injEq, Prod.mk.injEq] at hs
          obtain ⟨rfl, rfl⟩ := hs
          exact Or.inl ⟨rfl, { h with reader := hfront }⟩
      | false =>
          simp only [hpc, Bool.false_eq_true, if_false, Option.some.injEq, Prod.mk.injEq] at hs
          obtain ⟨rfl, rfl⟩ := hs
          exact Or.inr (Or.inr (Or.inl ⟨_, rfl, hfront, { h with reader := trivial }⟩))
  | loadNext v =>
      rw [hpc] at hr
      simp only [hpc, Option.some.injEq, Prod.mk.injEq] at hs
      obtain ⟨rfl, rfl⟩ := hs
      exact Or.inl ⟨rfl, { h with reader := ⟨hr, h.readPos⟩ }⟩
  | publish v pos =>
      rw [hpc] at hr
      simp only [hpc, Option.some.injEq, Prod.mk.injEq] at hs
      obtain ⟨rfl, rfl⟩ := hs
      obtain ⟨hfront, rfl⟩ := hr
      have hlt := hfront.lt
      have hroom := h.room
      refine Or.inr (Or.inr (Or.inr ⟨v, rfl, hfront, ?_⟩))
      refine ⟨h.length, hlt, by omega, h.writePos, ?_, fun i hki => h.cells i (by omega),
        h.writer.pop, trivial⟩
      show (k % (c + 1) + 1) % s.data.length = _
      rw [h.length, Nat.mod_add_mod]

theorem inv_init (dflt : T) (c : Nat) : Inv c [] (queue dflt c).init := by
  refine ⟨⟨?_, le_refl _, Nat.zero_le _, ?_, ?_, ?_, trivial, trivial⟩, rfl, ?_⟩
  · simp [queue]
  · simp [queue, pushes]
  · simp [queue, pops]
  · intro i _ hi
    simp [pushes] at hi
  · intro v hv
    simp [fronts] at hv

/-- One step keeps the ring, for the values pushed and popped with it. A value that the reader
returns is the oldest unread one. -/
theorem Ring.step {dflt : T} {c : Nat} {xs : List T} {vs : List (Option T)} {s s' : State T}
    {a : Action T} {o : Output T} (h : Ring c xs vs.length s)
    (hs : (queue dflt c).step s a = some (o, s')) :
    Ring c (pushesStep xs (a, o)) (popsStep vs (a, o)).length s' ∧
      ∀ v, o = .popped v ∨ o = .front v → IsFront xs vs.length v := by
  cases a with
  | push x =>
      simp only [queue] at hs
      split at hs
      · cases hs
        exact ⟨{ h with writer := trivial }, by simp⟩
      · cases hs
  | pop =>
      simp only [queue] at hs
      split at hs
      · cases hs
        exact ⟨{ h with reader := trivial }, by simp⟩
      · cases hs
  | getFront =>
      simp only [queue] at hs
      split at hs
      · cases hs
        exact ⟨{ h with reader := trivial }, by simp⟩
      · cases hs
  | writer =>
      rcases h.advanceWriter hs with ⟨rfl, hr⟩ | ⟨rfl, -, hr⟩ | ⟨x, rfl, hr⟩
      · exact ⟨hr, by simp⟩
      · exact ⟨hr, by simp⟩
      · exact ⟨hr, by simp⟩
  | reader =>
      rcases h.advanceReader hs with ⟨rfl, hr⟩ | ⟨rfl, -, hr⟩ | ⟨v, rfl, hv, hr⟩ | ⟨v, rfl, hv, hr⟩
      · exact ⟨hr, by simp⟩
      · exact ⟨hr, by simp⟩
      · refine ⟨hr, ?_⟩
        rintro w (hw | hw) <;> cases hw
        exact hv
      · refine ⟨?_, ?_⟩
        · rw [popsStep, List.length_append]
          exact hr
        · rintro w (hw | hw) <;> cases hw
          exact hv

/-- The popped values are the first of the pushed ones. -/
theorem popped_step {xs : List T} {vs : List (Option T)} {a : Action T} {o : Output T}
    (hvs : vs = (xs.take vs.length).map some) (hle : vs.length ≤ xs.length)
    (hfront : ∀ v, o = .popped v → IsFront xs vs.length v) :
    popsStep vs (a, o) = ((pushesStep xs (a, o)).take (popsStep vs (a, o)).length).map some := by
  cases o with
  | pushed x =>
      show vs = ((xs ++ [x]).take vs.length).map some
      rw [List.take_append_of_le_length hle]
      exact hvs
  | popped v =>
      have hv := hfront v rfl
      show vs ++ [v] = (xs.take (vs ++ [v]).length).map some
      rw [List.length_append, List.length_singleton, List.take_add_one, List.map_append, ← hvs,
        hv.2, List.getElem?_eq_getElem hv.lt]
      rfl
  | running => exact hvs
  | full => exact hvs
  | front v => exact hvs
  | empty => exact hvs

/-- The values that `getFront` has returned since the last `pop`. -/
theorem fronts_step {xs : List T} {vs ws : List (Option T)} {a : Action T} {o : Output T}
    (hws : ∀ v ∈ ws, IsFront xs vs.length v) (hfront : ∀ v, o = .front v → IsFront xs vs.length v) :
    ∀ v ∈ frontsStep ws (a, o), IsFront (pushesStep xs (a, o)) (popsStep vs (a, o)).length v := by
  cases o with
  | pushed x => exact fun v hv => (hws v hv).push x
  | popped v => exact fun w hw => absurd hw List.not_mem_nil
  | front v =>
      intro w hw
      rcases List.mem_cons.mp hw with rfl | hw
      · exact hfront w rfl
      · exact hws w hw
  | running => exact hws
  | full => exact hws
  | empty => exact hws

/-- **One step keeps the invariant.** -/
theorem inv_step (dflt : T) {c : Nat} {tr : History T} {s s' : State T} {a : Action T}
    {o : Output T} (hi : Inv c tr s) (hs : (queue dflt c).step s a = some (o, s')) :
    Inv c (tr ++ [(a, o)]) s' := by
  obtain ⟨hring, hfront⟩ := hi.ring.step hs
  constructor
  · rw [pushes_snoc, pops_snoc]
    exact hring
  · rw [pushes_snoc, pops_snoc]
    exact popped_step hi.popped hi.ring.le fun v hv => hfront v (Or.inl hv)
  · rw [pushes_snoc, pops_snoc, fronts_snoc]
    exact fronts_step hi.fronts fun v hv => hfront v (Or.inr hv)

/-- The invariant holds in every state of every interleaving. -/
theorem inv_of_trace {dflt : T} {c : Nat} {tr : History T} {s : State T}
    (h : (queue dflt c).Trace tr s) : Inv c tr s := by
  induction h with
  | nil => exact inv_init dflt c
  | snoc _ hs ih => exact inv_step dflt ih hs

/-! ## The queue is a bounded FIFO -/

/-- While the reader copies a cell, the writer is not storing to it. -/
theorem Ring.disjoint {c k : Nat} {xs : List T} {s : State T} (h : Ring c xs k s)
    {isPop : Bool} {pos pos' nextPos : Nat} {x : T} (hr : s.reader = .fetched isPop pos)
    (hw : s.writer = .stored x nextPos pos') : pos ≠ pos' := by
  have hrd := h.reader
  have hwr := h.writer
  rw [hr] at hrd
  rw [hw] at hwr
  obtain ⟨hlt, rfl⟩ := hrd
  obtain ⟨-, hroom, rfl⟩ := hwr
  intro he
  have := eq_of_mod_eq (Nat.le_of_lt hlt) (by omega) he
  omega

/-- A step that reports a result is an access of one of the threads. -/
theorem step_cases {dflt : T} {c : Nat} {s s' : State T} {a : Action T} {o : Output T}
    (hs : (queue dflt c).step s a = some (o, s')) :
    o = .running ∨ s.advanceWriter = some (o, s') ∨ s.advanceReader = some (o, s') := by
  cases a with
  | writer => exact Or.inr (Or.inl hs)
  | reader => exact Or.inr (Or.inr hs)
  | push | pop | getFront =>
      -- a call has no result yet
      simp only [queue] at hs
      split at hs
      · cases hs
        exact Or.inl rfl
      · cases hs

theorem full_cells {dflt : T} {c : Nat} {tr : History T} {s s' : State T} {a : Action T}
    (hi : Inv c tr s) (hs : (queue dflt c).step s a = some (.full, s')) :
    (pushes tr).length = (pops tr).length + c := by
  rcases step_cases hs with ho | hs | hs
  · cases ho
  · rcases hi.ring.advanceWriter hs with ⟨ho, -⟩ | ⟨-, hlen, -⟩ | ⟨x, ho, -⟩
    · cases ho
    · exact hlen
    · cases ho
  · rcases hi.ring.advanceReader hs with ⟨ho, -⟩ | ⟨ho, -⟩ | ⟨v, ho, -⟩ | ⟨v, ho, -⟩ <;> cases ho

theorem empty_cells {dflt : T} {c : Nat} {tr : History T} {s s' : State T} {a : Action T}
    (hi : Inv c tr s) (hs : (queue dflt c).step s a = some (.empty, s')) :
    (pushes tr).length = (pops tr).length := by
  rcases step_cases hs with ho | hs | hs
  · cases ho
  · rcases hi.ring.advanceWriter hs with ⟨ho, -⟩ | ⟨ho, -⟩ | ⟨x, ho, -⟩ <;> cases ho
  · rcases hi.ring.advanceReader hs with ⟨ho, -⟩ | ⟨-, hlen, -⟩ | ⟨v, ho, -⟩ | ⟨v, ho, -⟩
    · cases ho
    · exact hlen
    · cases ho
    · cases ho

/-- After a successful `getFront` and before the next successful `pop`, the reader finds the
same value again. -/
theorem front_again {dflt : T} {c : Nat} {tr : History T} {s s' : State T} {a : Action T}
    {o : Output T} (hi : Inv c tr s) {v : Option T} (hv : v ∈ fronts tr)
    (hs : (queue dflt c).step s a = some (o, s')) :
    o ≠ .empty ∧ ∀ w, o = .popped w → w = v := by
  have hf := hi.fronts v hv
  refine ⟨?_, ?_⟩
  · rintro rfl
    have := empty_cells hi hs
    have := hf.lt
    omega
  · rintro w rfl
    rcases step_cases hs with ho | hs | hs
    · cases ho
    · rcases hi.ring.advanceWriter hs with ⟨ho, -⟩ | ⟨ho, -⟩ | ⟨x, ho, -⟩ <;> cases ho
    · rcases hi.ring.advanceReader hs with ⟨ho, -⟩ | ⟨ho, -⟩ | ⟨u, ho, -⟩ | ⟨u, ho, hu, -⟩
      · cases ho
      · cases ho
      · cases ho
      · cases ho
        rw [hu.2, hf.2]

/-- **`LFQueue` is a lossless bounded FIFO.** In every state of every interleaving of the two
threads' accesses: the popped values are the first of the pushed ones, and never the copy of a
cell being stored to; at most `getCapacity() = c` values are unread; `push` fails only if `c`
values are unread when it loads `_readPos`, `pop` and `getFront` only if none is when they load
`_writePos`; and the `pop` after a successful `getFront` returns the same value. -/
theorem lossless_fifo (dflt : T) (c : Nat) {tr : History T} {s : State T}
    (h : (queue dflt c).Trace tr s) :
    pops tr <+: (pushes tr).map some ∧
    (∀ isPop pos x nextPos pos', s.reader = .fetched isPop pos →
      s.writer = .stored x nextPos pos' → pos ≠ pos') ∧
    (pushes tr).length ≤ (pops tr).length + s.getCapacity ∧ s.getCapacity = c ∧
    (∀ a s', (queue dflt c).step s a = some (.full, s') →
      (pushes tr).length = (pops tr).length + c) ∧
    (∀ a s', (queue dflt c).step s a = some (.empty, s') →
      (pushes tr).length = (pops tr).length) ∧
    (∀ v ∈ fronts tr, ∀ a o s', (queue dflt c).step s a = some (o, s') →
      o ≠ .empty ∧ ∀ w, o = .popped w → w = v) := by
  have hi := inv_of_trace h
  have hcap : s.getCapacity = c := by
    rw [State.getCapacity, hi.ring.length]
    omega
  refine ⟨?_, fun _ _ _ _ _ => hi.ring.disjoint, by rw [hcap]; exact hi.ring.room, hcap,
    fun a s' => full_cells hi, fun a s' => empty_cells hi, fun v hv a o s' => front_again hi hv⟩
  rw [hi.popped, List.map_take]
  exact List.take_prefix _ _

/-- A queue for one element: `7` is pushed and seen by `getFront`. -/
def frontHistory : History Nat :=
  [(.push 7, .running), (.writer, .running), (.writer, .running), (.writer, .running),
    (.writer, .running), (.writer, .running), (.writer, .pushed 7), (.getFront, .running),
    (.reader, .running), (.reader, .running), (.reader, .running), (.reader, .running),
    (.reader, .front (some 7)), (.push 8, .running), (.writer, .running)]

/-- The next access of the writer finds the queue full. -/
theorem lossless_fifo_full :
    ∃ s, (queue 0 1).Trace frontHistory s ∧ s.getCapacity = 1 ∧
      ∃ s', (queue 0 1).step s .writer = some (.full, s') ∧
        (pushes frontHistory).length = (pops frontHistory).length + 1 := by
  have h : (queue 0 1).Trace frontHistory _ := Machine.Trace.of_run
    [.push 7, .writer, .writer, .writer, .writer, .writer, .writer, .getFront, .reader, .reader,
      .reader, .reader, .reader, .push 8, .writer] rfl
  have hf := lossless_fifo 0 1 h
  exact ⟨_, h, hf.2.2.2.1, _, rfl, hf.2.2.2.2.1 .writer _ rfl⟩

end Lunchbox.LFQueue
