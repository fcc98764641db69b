import Lunchbox.Lib.Machine
import Lunchbox.Lib.PartialMap
import Lunchbox.LFVector.Refinement

set_option autoImplicit false

/-! # Growing under lock-free readers

Any number of threads call `push_back`, `expand`, `size` and `operator[]` on one vector. The
first two hold `lock_`, the others do not. One step of the machine is one access to shared
memory of one thread: an allocation, a load or store of a slot pointer, of an element or of
`size_`, or the acquisition or release of the lock (one step, by what `SpinLock` guarantees).
An arbitrary list of actions is an arbitrary sequentially consistent interleaving.
-/

namespace Lunchbox.LFVector.Growth

open StateMachine Function

/-! ## The machine -/

variable {T : Type}

/-- The arrays that are allocated, the pointers to them in `slots_`, and `size_`. -/
structure Memory (T : Type) where
  heap : List (List (Option T))
  slots : Nat → Option Nat
  size : Nat

/-- Read `slots_[slot]`; `none` is the null pointer. -/
def Memory.pointer (P : Params T) (m : Memory T) (slot : Int) : Option Nat :=
  if 0 ≤ slot ∧ slot < P.nSlots then m.slots slot.toNat else none

/-- Read the element `index` of the array `b`. -/
def Memory.load (m : Memory T) (b index : Nat) : Option T :=
  (m.heap[b]?).bind fun cells => (cells[index]?).join

/-- Write the element `index` of the array `b`. -/
def Memory.store (m : Memory T) (b index : Nat) (x : T) : Option (Memory T) :=
  (m.heap[b]?).bind fun cells =>
    if index < cells.length then some { m with heap := m.heap.set b (cells.set index (some x)) }
    else none

/-- A call of `push_back` or `expand`. -/
inductive Job (T : Type)
  | pushBack (item : T)
  | expand (newSize : Nat) (item : T)

def Job.item : Job T → T
  | .pushBack item => item
  | .expand _ item => item

/-- The next access that a thread makes, with its local variables. -/
inductive Pc (T : Type)
  | idle
  /-- `ScopedWrite mutex(lock_)` -/
  | acquire (job : Job T)
  /-- `expand`: `newSize > size()` -/
  | loop (newSize : Nat) (item : T)
  /-- `push_back_unlocked_`: `i = size_ + 1` -/
  | start (job : Job T)
  /-- `!slots_[slot]` -/
  | check (job : Job T) (i : Nat)
  /-- `new T[sz]` -/
  | alloc (job : Job T) (i : Nat)
  /-- `slots_[slot] = b` -/
  | link (job : Job T) (i b : Nat)
  /-- `slots_[slot][index] = item` -/
  | assign (job : Job T) (i : Nat)
  /-- `++size_`, the load -/
  | count (job : Job T)
  /-- `++size_`, the store -/
  | publish (job : Job T) (n : Nat)
  /-- The end of the scope of `mutex`, with or without an exception. -/
  | release (thrown : Bool)
  /-- `operator[]`: the load of `slots_[slot]` -/
  | deref (i : Nat)
  /-- `operator[]`: the load of the element of the array `b` -/
  | element (i b : Nat)

/-- The first access with the lock. -/
def Job.enter : Job T → Pc T
  | .pushBack item => .start (.pushBack item)
  | .expand newSize item => .loop newSize item

/-- What follows `push_back_unlocked_`. -/
def Job.continue : Job T → Pc T
  | .pushBack _ => .release false
  | .expand newSize item => .loop newSize item

/-- What a step reports: an access that is not defined, the result of `size()`, the element `i`
read by `operator[]`, that an element has been appended, or the end of a call. -/
inductive Output (T : Type)
  | running
  | fault
  | size (n : Nat)
  | value (i : Nat) (x : T)
  | appended (x : T)
  | returned
  | thrown

structure State (ι T : Type) where
  mem : Memory T
  lock : Option ι
  pc : ι → Pc T
  /-- The size that the thread has loaded last. -/
  seen : ι → Nat

inductive Action (ι T : Type)
  | call (t : ι) (job : Job T)
  | size (t : ι)
  /-- `vector[i]`, for an index below the size that the thread has loaded. -/
  | read (t : ι) (i : Nat)
  | step (t : ι)

variable {ι : Type} [DecidableEq ι] (P : Params T)

def State.goto (s : State ι T) (t : ι) (pc : Pc T) : State ι T :=
  { s with pc := update s.pc t pc }

/-- The next access of the thread `t`. -/
def State.advance (s : State ι T) (t : ι) : Option (Output T × State ι T) :=
  match s.pc t with
  | .idle => none
  | .acquire job =>
      if s.lock = none then some (.running, { s with lock := some t }.goto t job.enter) else none
  | .loop newSize item =>
      if newSize > s.mem.size then some (.running, s.goto t (.start (.expand newSize item)))
      else some (.running, s.goto t (.release false))
  | .start job =>
      let i := s.mem.size + 1
      let slot := getIndexOfLastBit i
      if slot < 0 ∨ P.nSlots ≤ slot then some (.running, s.goto t (.release true))
      else some (.running, s.goto t (.check job i))
  | .check job i =>
      match s.mem.pointer P (getIndexOfLastBit i) with
      | none => some (.running, s.goto t (.alloc job i))
      | some _ => some (.running, s.goto t (.assign job i))
  | .alloc job i =>
      let sz := 1 <<< (getIndexOfLastBit i).toNat
      let mem := { s.mem with heap := s.mem.heap ++ [List.replicate sz P.fresh] }
      some (.running, { s with mem := mem }.goto t (.link job i s.mem.heap.length))
  | .link job i b =>
      let slot := (getIndexOfLastBit i).toNat
      let mem := { s.mem with slots := update s.mem.slots slot (some b) }
      some (.running, { s with mem := mem }.goto t (.assign job i))
  | .assign job i =>
      let slot := getIndexOfLastBit i
      let index := i ^^^ (1 <<< slot.toNat)
      match (s.mem.pointer P slot).bind fun b => s.mem.store b index job.item with
      | none => some (.fault, s)
      | some mem => some (.running, { s with mem := mem }.goto t (.count job))
  | .count job => some (.running, s.goto t (.publish job s.mem.size))
  | .publish job n =>
      let mem := { s.mem with size := n + 1 }
      some (.appended job.item, { s with mem := mem }.goto t job.continue)
  | .release thrown =>
      some (if thrown then .thrown else .returned, { s with lock := none }.goto t .idle)
  | .deref i =>
      match s.mem.pointer P (getIndexOfLastBit (i + 1)) with
      | none => some (.fault, s)
      | some b => some (.running, s.goto t (.element i b))
  | .element i b =>
      let slot := getIndexOfLastBit (i + 1)
      let index := (i + 1) ^^^ (1 <<< slot.toNat)
      match s.mem.load b index with
      | none => some (.fault, s)
      | some x => some (.value i x, s.goto t .idle)

/-- The vector with its threads. A thread calls one function at a time. -/
def growth : Machine (State ι T) (Action ι T) (Output T) where
  init := ⟨⟨[], fun _ => none, 0⟩, none, fun _ => .idle, fun _ => 0⟩
  step s
    | .call t job =>
        match s.pc t with
        | .idle => some (.running, s.goto t (.acquire job))
        | _ => none
    | .size t =>
        match s.pc t with
        | .idle => some (.size s.mem.size, { s with seen := update s.seen t s.mem.size })
        | _ => none
    | .read t i =>
        match s.pc t with
        | .idle => if i < s.seen t then some (.running, s.goto t (.deref i)) else none
        | _ => none
    | .step t => s.advance P t

abbrev History (ι T : Type) := List (Action ι T × Output T)

def Output.items : Output T → List T
  | .appended x => [x]
  | _ => []

/-- The elements that have been appended, in order. -/
def appended (tr : History ι T) : List T := tr.flatMap fun e => e.2.items

/-! ## The vector in memory

The micro steps on the memory are operations of the sequential model on the vector that is in
the memory: allocating does not change it, linking allocates a slot, assigning writes an
element. -/

/-- The vector as the sequential model has it. -/
def Memory.vector (m : Memory T) : LFVector T :=
  ⟨fun k => (m.slots k).bind fun b => m.heap[b]?, m.size⟩

/-- The pointers in `slots_` are to allocated arrays, different ones. -/
structure Memory.Valid (m : Memory T) : Prop where
  bound : ∀ {k b}, m.slots k = some b → b < m.heap.length
  inj : ∀ {k k' b}, m.slots k = some b → m.slots k' = some b → k = k'

variable {P} {m : Memory T} {k b : Nat}

theorem pointer_nat (m : Memory T) (hk : k < P.nSlots) : m.pointer P (k : Int) = m.slots k := by
  simp [Memory.pointer, hk]

theorem Memory.Valid.vector_slots (h : m.Valid) (hb : m.slots k = some b) :
    ∃ cells, m.heap[b]? = some cells ∧ m.vector.slots k = some cells := by
  have hlen := h.bound hb
  refine ⟨m.heap[b], List.getElem?_eq_getElem hlen, ?_⟩
  simp only [vector, hb, Option.bind_some, List.getElem?_eq_getElem hlen]

/-- An array that no slot points to is not part of the vector. -/
theorem Memory.Valid.vector_alloc (h : m.Valid) (cells : List (Option T)) :
    Memory.vector { m with heap := m.heap ++ [cells] } = m.vector := by
  simp only [vector, LFVector.mk.injEq, and_true]
  funext k
  cases hk : m.slots k with
  | none => rfl
  | some b =>
      rw [Option.bind_some, Option.bind_some, List.getElem?_append_left (h.bound hk)]

theorem Memory.Valid.alloc (h : m.Valid) (cells : List (Option T)) :
    Memory.Valid { m with heap := m.heap ++ [cells] } := by
  refine ⟨fun hk => ?_, h.inj⟩
  rw [List.length_append]
  exact Nat.lt_add_right 1 (h.bound hk)

theorem Memory.vector_link (m : Memory T) (k : Nat) {n : Nat}
    (hb : m.heap[b]? = some (List.replicate n P.fresh)) :
    Memory.vector { m with slots := update m.slots k (some b) } = m.vector.allocate P k n := by
  simp only [vector, allocate, LFVector.mk.injEq, and_true]
  funext j
  by_cases hj : j = k
  · subst hj
    rw [update_self, update_self, Option.bind_some, hb]
  · rw [update_of_ne hj, update_of_ne hj]

theorem Memory.Valid.link (h : m.Valid) (hb : b < m.heap.length) (hnew : ∀ k, m.slots k ≠ some b)
    (k : Nat) : Memory.Valid { m with slots := update m.slots k (some b) } := by
  refine ⟨fun hj => ?_, fun hj hj' => ?_⟩
  · rcases PartialMap.update_some_eq.mp hj with ⟨-, rfl⟩ | ⟨-, hj⟩
    · exact hb
    · exact h.bound hj
  · exact PartialMap.Injective.put (fun _ _ _ => h.inj) hnew k _ _ _ hj hj'

/-- Writing an element in memory is writing it in the vector. -/
theorem Memory.Valid.vector_store (h : m.Valid) (hk : k < P.nSlots) (hb : m.slots k = some b)
    (index : Nat) (x : T) :
    (m.store b index x).map vector = m.vector.store P (k : Int) index x := by
  obtain ⟨cells, hc, hv⟩ := h.vector_slots hb
  simp only [Memory.store, LFVector.store, deref_nat, if_pos hk, hc, hv, Option.bind_some,
    Int.toNat_natCast]
  split_ifs with hi
  · simp only [Option.map_some, Option.some.injEq, vector, LFVector.mk.injEq, and_true]
    funext j
    by_cases hj : j = k
    · subst hj
      rw [update_self, hb, Option.bind_some, List.getElem?_set_self (h.bound hb)]
    · rw [update_of_ne hj]
      cases hjc : m.slots j with
      | none => rfl
      | some c =>
          have hne : b ≠ c := fun he => hj (h.inj (he ▸ hjc) hb)
          rw [Option.bind_some, Option.bind_some, List.getElem?_set_ne hne]
  · rfl

theorem Memory.Valid.vector_load (h : m.Valid) (hk : k < P.nSlots) (hb : m.slots k = some b)
    (index : Nat) : m.load b index = m.vector.load P (k : Int) index := by
  obtain ⟨cells, hc, hv⟩ := h.vector_slots hb
  simp only [Memory.load, LFVector.load, deref_nat, if_pos hk, hc, hv, Option.bind_some]

theorem Memory.Valid.store {m' : Memory T} {index : Nat} {x : T} (h : m.Valid)
    (hs : m.store b index x = some m') : m'.Valid ∧ m'.slots = m.slots ∧ m'.size = m.size := by
  cases hc : m.heap[b]? with
  | none => simp [Memory.store, hc] at hs
  | some cells =>
      simp only [Memory.store, hc, Option.bind_some] at hs
      split_ifs at hs
      cases hs
      refine ⟨⟨fun hk => ?_, h.inj⟩, rfl, rfl⟩
      rw [List.length_set]
      exact h.bound hk

/-! ## The invariant -/

/-- The thread holds the lock. -/
def Pc.Locked : Pc T → Prop
  | .idle | .acquire _ | .deref _ | .element _ _ => False
  | _ => True

/-- What a thread relies on at its next access: a writer on the progress of its own element, a
reader on elements that are already published. -/
def Assert (P : Params T) (m : Memory T) (xs : List T) : Pc T → Prop
  | .check _ i => i = m.size + 1 ∧ slotOf m.size < P.nSlots
  | .alloc _ i => i = m.size + 1 ∧ slotOf m.size < P.nSlots ∧ m.slots (slotOf m.size) = none
  | .link _ i b =>
      i = m.size + 1 ∧ slotOf m.size < P.nSlots ∧ m.slots (slotOf m.size) = none ∧
        m.heap[b]? = some (List.replicate (2 ^ slotOf m.size) P.fresh) ∧ ∀ k, m.slots k ≠ some b
  | .assign _ i =>
      i = m.size + 1 ∧ slotOf m.size < P.nSlots ∧ ∃ b, m.slots (slotOf m.size) = some b
  | .count job => Stores P m.vector (xs ++ [job.item])
  | .publish job n => n = m.size ∧ Stores P m.vector (xs ++ [job.item])
  | .deref i => i < m.size
  | .element i b => i < m.size ∧ m.slots (slotOf i) = some b
  | _ => True

structure Inv (P : Params T) (xs : List T) (s : State ι T) : Prop where
  valid : s.mem.Valid
  rep : Rep P s.mem.vector xs
  owner : ∀ t, (s.pc t).Locked → s.lock = some t
  assert : ∀ t, Assert P s.mem xs (s.pc t)
  seen : ∀ t, s.seen t ≤ s.mem.size

/-- Slots are added and the size increases. -/
def Grows (m m' : Memory T) : Prop :=
  m.size ≤ m'.size ∧ ∀ k b, m.slots k = some b → m'.slots k = some b

variable {m' : Memory T} {xs xs' : List T} {s s' : State ι T} {t : ι} {pc : Pc T}

theorem Grows.refl (m : Memory T) : Grows m m := ⟨le_refl _, fun _ _ h => h⟩

/-- Readers do not notice that the vector grows. -/
theorem Assert.grow (h : Assert P m xs pc) (hpc : ¬ pc.Locked) (hg : Grows m m') :
    Assert P m' xs' pc := by
  cases pc with
  | deref i => exact Nat.lt_of_lt_of_le h hg.1
  | element i b => exact ⟨Nat.lt_of_lt_of_le h.1 hg.1, hg.2 _ _ h.2⟩
  | idle | acquire => exact trivial
  | _ => exact absurd trivial hpc

/-- A step of the thread `t`, if the others keep what they rely on. -/
theorem Inv.goto {lock : Option ι} (h : Inv P xs s) (hv : m'.Valid) (hr : Rep P m'.vector xs')
    (hg : Grows s.mem m') (ha : Assert P m' xs' pc) (hlock : pc.Locked → lock = some t)
    (hothers : ∀ u, u ≠ t → (s.pc u).Locked → lock = some u ∧ Assert P m' xs' (s.pc u)) :
    Inv P xs' (State.goto { s with mem := m', lock := lock } t pc) := by
  have hpc : ∀ u, u ≠ t → (State.goto { s with mem := m', lock := lock } t pc).pc u = s.pc u :=
    fun u hu => update_of_ne hu _ _
  have hself : (State.goto { s with mem := m', lock := lock } t pc).pc t = pc := update_self _ _ _
  refine ⟨hv, hr, fun u hu => ?_, fun u => ?_, fun u => le_trans (h.seen u) hg.1⟩
  · by_cases hut : u = t
    · subst hut
      rw [hself] at hu
      exact hlock hu
    · rw [hpc u hut] at hu
      exact (hothers u hut hu).1
  · by_cases hut : u = t
    · subst hut
      rw [hself]
      exact ha
    · -- a reader keeps what it knows by itself, a writer by assumption
      rw [hpc u hut]
      by_cases hu : (s.pc u).Locked
      · exact (hothers u hut hu).2
      · exact (h.assert u).grow hu hg

/-- A step of the thread that holds the lock. -/
theorem Inv.write {lock : Option ι} (h : Inv P xs s) (ht : (s.pc t).Locked) (hv : m'.Valid)
    (hr : Rep P m'.vector xs') (hg : Grows s.mem m') (ha : Assert P m' xs' pc)
    (hlock : pc.Locked → lock = some t) :
    Inv P xs' (State.goto { s with mem := m', lock := lock } t pc) := by
  -- no other thread is inside the lock
  refine h.goto hv hr hg ha hlock fun u hu hlu => absurd ?_ hu
  have hsome := (h.owner u hlu).symm.trans (h.owner t ht)
  rwa [Option.some.injEq] at hsome

/-- A step of the thread that holds the lock and changes nothing but where it is. -/
theorem Inv.move (h : Inv P xs s) (ht : (s.pc t).Locked) (ha : Assert P s.mem xs pc) :
    Inv P xs (s.goto t pc) :=
  h.write ht h.valid h.rep (Grows.refl _) ha fun _ => h.owner t ht

/-- A step that does not change the memory. -/
theorem Inv.quiet {lock : Option ι} (h : Inv P xs s) (ha : Assert P s.mem xs pc)
    (hlock : pc.Locked → lock = some t)
    (hothers : ∀ u, u ≠ t → (s.pc u).Locked → lock = some u) :
    Inv P xs (State.goto { s with lock := lock } t pc) :=
  h.goto h.valid h.rep (Grows.refl _) ha hlock fun u hu hlu => ⟨hothers u hu hlu, h.assert u⟩

/-! ## The steps -/

/-- What an output says about the elements that are appended. -/
def Sound (xs : List T) : Output T → Prop
  | .fault => False
  | .size n => n = xs.length
  | .value i x => xs[i]? = some x
  | _ => True

theorem assert_enter (job : Job T) : Assert P m xs job.enter := by
  cases job <;> exact trivial

theorem assert_continue (job : Job T) : Assert P m xs job.continue := by
  cases job <;> exact trivial

omit [DecidableEq ι] in
/-- The published elements are in allocated slots. -/
theorem Inv.slot (h : Inv P xs s) {i : Nat} (hi : i < s.mem.size) :
    slotOf i < P.nSlots ∧ ∃ b, s.mem.slots (slotOf i) = some b := by
  have hlen : i < xs.length := by rwa [← h.rep.size]
  obtain ⟨hs, hsome⟩ := h.rep.allocated hlen
  refine ⟨hs, Option.ne_none_iff_exists'.mp fun hnone => ?_⟩
  simp [Memory.vector, hnone] at hsome

theorem Inv.start (h : Inv P xs s) {job : Job T} (hpc : s.pc t = .start job) :
    ∃ pc, s.advance P t = some (.running, s.goto t pc) ∧ Inv P xs (s.goto t pc) := by
  have ht : (s.pc t).Locked := by rw [hpc]; exact trivial
  by_cases hs : slotOf s.mem.size < P.nSlots
  · refine ⟨.check job (s.mem.size + 1), ?_, ?_⟩
    · simp only [State.advance, hpc, lastBit_succ]
      rw [if_neg (by omega)]
    · exact h.move ht ⟨rfl, hs⟩
  · refine ⟨.release true, ?_, ?_⟩
    · simp only [State.advance, hpc, lastBit_succ]
      rw [if_pos (by omega)]
    · exact h.move ht trivial

theorem Inv.check (h : Inv P xs s) {job : Job T} {i : Nat} (hpc : s.pc t = .check job i) :
    ∃ pc, s.advance P t = some (.running, s.goto t pc) ∧ Inv P xs (s.goto t pc) := by
  have ht : (s.pc t).Locked := by rw [hpc]; exact trivial
  have ha := h.assert t
  rw [hpc] at ha
  obtain ⟨rfl, hs⟩ := ha
  cases hp : s.mem.slots (slotOf s.mem.size) with
  | none =>
      refine ⟨.alloc job (s.mem.size + 1), ?_, ?_⟩
      · simp only [State.advance, hpc, lastBit_succ, pointer_nat _ hs, hp]
      · exact h.move ht ⟨rfl, hs, hp⟩
  | some b =>
      refine ⟨.assign job (s.mem.size + 1), ?_, ?_⟩
      · simp only [State.advance, hpc, lastBit_succ, pointer_nat _ hs, hp]
      · exact h.move ht ⟨rfl, hs, b, hp⟩

/-- The new array is not reachable by anyone else. -/
theorem Inv.alloc (h : Inv P xs s) {job : Job T} {i : Nat} (hpc : s.pc t = .alloc job i) :
    ∃ s', s.advance P t = some (.running, s') ∧ Inv P xs s' := by
  have ht : (s.pc t).Locked := by rw [hpc]; exact trivial
  have ha := h.assert t
  rw [hpc] at ha
  obtain ⟨rfl, hs, hp⟩ := ha
  have hadv : s.advance P t = some (.running, State.goto { s with
      mem := { s.mem with heap := s.mem.heap ++ [List.replicate (2 ^ slotOf s.mem.size) P.fresh] } }
      t (.link job (s.mem.size + 1) s.mem.heap.length)) := by
    simp only [State.advance, hpc, lastBit_succ, Int.toNat_natCast, Nat.one_shiftLeft]
  refine ⟨_, hadv, h.write ht (h.valid.alloc _) ?_ ⟨le_refl _, fun _ _ hk => hk⟩
    ⟨rfl, hs, hp, ?_, ?_⟩ fun _ => h.owner t ht⟩
  · rw [h.valid.vector_alloc]
    exact h.rep
  · simp
  · intro k hk
    exact Nat.lt_irrefl _ (h.valid.bound hk)

/-- Linking the array allocates the slot, which has no element yet. -/
theorem Inv.link (h : Inv P xs s) {job : Job T} {i b : Nat} (hpc : s.pc t = .link job i b) :
    ∃ s', s.advance P t = some (.running, s') ∧ Inv P xs s' := by
  have ht : (s.pc t).Locked := by rw [hpc]; exact trivial
  have ha := h.assert t
  rw [hpc] at ha
  obtain ⟨rfl, hs, hp, hb, hnew⟩ := ha
  have hnone : s.mem.vector.slots (slotOf s.mem.size) = none := by
    simp only [Memory.vector, hp, Option.bind_none]
  have hadv : s.advance P t = some (.running, State.goto { s with
      mem := { s.mem with slots := update s.mem.slots (slotOf s.mem.size) (some b) } }
      t (.assign job (s.mem.size + 1))) := by
    simp only [State.advance, hpc, lastBit_succ, Int.toNat_natCast]
  have hblock : b < s.mem.heap.length := (List.getElem?_eq_some_iff.mp hb).1
  refine ⟨_, hadv, h.write ht (h.valid.link hblock hnew _) ?_ ⟨le_refl _, ?_⟩
    ⟨rfl, hs, b, update_self _ _ _⟩ fun _ => h.owner t ht⟩
  · rw [Memory.vector_link _ _ hb]
    exact ⟨h.rep.toStores.allocate hs hnone, h.rep.size⟩
  · intro k c hk
    have hne : k ≠ slotOf s.mem.size := by
      rintro rfl
      rw [hp] at hk
      cases hk
    exact (update_of_ne hne _ _).trans hk

/-- The element is written behind the published ones. -/
theorem Inv.assign (h : Inv P xs s) {job : Job T} {i : Nat} (hpc : s.pc t = .assign job i) :
    ∃ s', s.advance P t = some (.running, s') ∧ Inv P xs s' := by
  have ht : (s.pc t).Locked := by rw [hpc]; exact trivial
  have ha := h.assert t
  rw [hpc] at ha
  obtain ⟨rfl, hs, b, hb⟩ := ha
  have hsome : (s.mem.vector.slots (slotOf s.mem.size)).isSome := by
    obtain ⟨cells, -, hc⟩ := h.valid.vector_slots hb
    rw [hc]
    rfl
  obtain ⟨v, hput, hw⟩ := put_spec h.rep.shape hsome job.item
  rw [put_eq, ← h.valid.vector_store hs hb, Option.map_eq_some_iff] at hput
  obtain ⟨m, hstore, rfl⟩ := hput
  obtain ⟨hvalid, hslots, hsize⟩ := h.valid.store hstore
  -- the slot of the element `size_` is there, but no reader looks at the element before `++size_`
  have hlen : s.mem.size = xs.length := h.rep.size
  have happ := h.rep.toStores.append (hlen ▸ hw)
  have hadv : s.advance P t
      = some (.running, State.goto { s with mem := m } t (.count job)) := by
    simp only [State.advance, hpc, lastBit_succ, Int.toNat_natCast, xor_shift, pointer_nat _ hs,
      hb, Option.bind_some, hstore]
  have hgrows : Grows s.mem m := ⟨Nat.le_of_eq hsize.symm, fun k c hk => by rwa [hslots]⟩
  exact ⟨_, hadv, h.write ht hvalid ⟨happ.of_append, hw.size.trans h.rep.size⟩ hgrows happ
    fun _ => h.owner t ht⟩

theorem Inv.loop (h : Inv P xs s) {newSize : Nat} {item : T} (hpc : s.pc t = .loop newSize item) :
    ∃ pc, s.advance P t = some (.running, s.goto t pc) ∧ Inv P xs (s.goto t pc) := by
  have ht : (s.pc t).Locked := by rw [hpc]; exact trivial
  by_cases hn : newSize > s.mem.size
  · refine ⟨.start (.expand newSize item), ?_, h.move ht trivial⟩
    simp only [State.advance, hpc, if_pos hn]
  · refine ⟨.release false, ?_, h.move ht trivial⟩
    simp only [State.advance, hpc, if_neg hn]

theorem Inv.count (h : Inv P xs s) {job : Job T} (hpc : s.pc t = .count job) :
    ∃ s', s.advance P t = some (.running, s') ∧ Inv P xs s' := by
  have ht : (s.pc t).Locked := by rw [hpc]; exact trivial
  have ha := h.assert t
  rw [hpc] at ha
  have hadv : s.advance P t = some (.running, s.goto t (.publish job s.mem.size)) := by
    simp only [State.advance, hpc]
  exact ⟨_, hadv, h.move ht ⟨rfl, ha⟩⟩

theorem Inv.publish (h : Inv P xs s) {job : Job T} {n : Nat} (hpc : s.pc t = .publish job n) :
    ∃ s', s.advance P t = some (.appended job.item, s') ∧ Inv P (xs ++ [job.item]) s' := by
  have ht : (s.pc t).Locked := by rw [hpc]; exact trivial
  have ha := h.assert t
  rw [hpc] at ha
  obtain ⟨rfl, hstores⟩ := ha
  have hadv : s.advance P t = some (.appended job.item, State.goto { s with
      mem := { s.mem with size := s.mem.size + 1 } } t job.continue) := by
    simp only [State.advance, hpc]
  have hsize : s.mem.size + 1 = (xs ++ [job.item]).length := by
    rw [List.length_append]
    exact congrArg (· + 1) h.rep.size
  exact ⟨_, hadv, h.write ht ⟨h.valid.bound, h.valid.inj⟩ ⟨hstores.setSize _, hsize⟩
    ⟨Nat.le_succ _, fun _ _ hk => hk⟩ (assert_continue job) fun _ => h.owner t ht⟩

/-- A reader finds the slot of a published element. -/
theorem Inv.deref (h : Inv P xs s) {i : Nat} (hpc : s.pc t = .deref i) :
    ∃ b, s.mem.slots (slotOf i) = some b ∧
      s.advance P t = some (.running, s.goto t (.element i b)) ∧
      Inv P xs (s.goto t (.element i b)) := by
  have hi := h.assert t
  rw [hpc] at hi
  obtain ⟨hs, b, hb⟩ := h.slot hi
  refine ⟨b, hb, ?_, h.quiet ⟨hi, hb⟩ (fun hl => absurd hl id) fun u _ hu => h.owner u hu⟩
  simp only [State.advance, hpc, lastBit_succ, pointer_nat _ hs, hb]

/-- A reader obtains the published element. -/
theorem Inv.element (h : Inv P xs s) {i b : Nat} (hpc : s.pc t = .element i b) :
    ∃ x, xs[i]? = some x ∧ s.advance P t = some (.value i x, s.goto t .idle) ∧
      Inv P xs (s.goto t .idle) := by
  have ha := h.assert t
  rw [hpc] at ha
  obtain ⟨hi, hb⟩ := ha
  have hlen : i < xs.length := by rwa [← h.rep.size]
  have hx : xs[i]? = some xs[i] := List.getElem?_eq_getElem hlen
  have hload : s.mem.load b (indexOf i) = some xs[i] := by
    rw [h.valid.vector_load (h.slot hi).1 hb, ← get_eq]
    exact h.rep.read i _ hx
  refine ⟨xs[i], hx, ?_, h.quiet trivial (fun hl => absurd hl id) fun u _ hu => h.owner u hu⟩
  simp only [State.advance, hpc, lastBit_succ, Int.toNat_natCast, xor_shift, hload]

omit [DecidableEq ι] in
theorem Inv.of_silent (h : Inv P xs s) : Inv P (xs ++ []) s := by rwa [List.append_nil]

/-- **One access.** It is defined, its output is right, and it keeps the invariant. -/
theorem advance_spec {b : Output T} (h : Inv P xs s) (hs : s.advance P t = some (b, s')) :
    Sound xs b ∧ Inv P (xs ++ b.items) s' := by
  -- the steps that a lemma above describes
  have running : (∃ s', s.advance P t = some (.running, s') ∧ Inv P xs s') →
      Sound xs b ∧ Inv P (xs ++ b.items) s' := by
    rintro ⟨s'', hadv, hinv⟩
    rw [hs] at hadv
    cases hadv
    exact ⟨trivial, hinv.of_silent⟩
  cases hpc : s.pc t with
  | idle => simp [State.advance, hpc] at hs
  | acquire job =>
      simp only [State.advance, hpc] at hs
      split_ifs at hs with hlock
      cases hs
      refine ⟨trivial, Inv.of_silent ?_⟩
      refine h.quiet (assert_enter job) (fun _ => rfl) fun u _ hu => ?_
      rw [h.owner u hu] at hlock
      cases hlock
  | loop newSize item =>
      obtain ⟨pc, hadv, hinv⟩ := h.loop hpc
      exact running ⟨_, hadv, hinv⟩
  | start job =>
      obtain ⟨pc, hadv, hinv⟩ := h.start hpc
      exact running ⟨_, hadv, hinv⟩
  | check job i =>
      obtain ⟨pc, hadv, hinv⟩ := h.check hpc
      exact running ⟨_, hadv, hinv⟩
  | alloc job i => exact running (h.alloc hpc)
  | link job i b => exact running (h.link hpc)
  | assign job i => exact running (h.assign hpc)
  | count job => exact running (h.count hpc)
  | publish job n =>
      obtain ⟨s'', hadv, hinv⟩ := h.publish hpc
      rw [hs] at hadv
      cases hadv
      exact ⟨trivial, hinv⟩
  | release thrown =>
      simp only [State.advance, hpc] at hs
      cases hs
      have hinv : Inv P xs (State.goto { s with lock := none } t .idle) :=
        h.write (by rw [hpc]; exact trivial) h.valid h.rep (Grows.refl _) trivial
          fun hl => absurd hl id
      cases thrown <;> exact ⟨trivial, hinv.of_silent⟩
  | deref i =>
      obtain ⟨b, -, hadv, hinv⟩ := h.deref hpc
      exact running ⟨_, hadv, hinv⟩
  | element i c =>
      obtain ⟨x, hx, hadv, hinv⟩ := h.element hpc
      rw [hs] at hadv
      cases hadv
      exact ⟨hx, hinv.of_silent⟩

theorem step_sound {a : Action ι T} {b : Output T} (h : Inv P xs s)
    (hs : (growth P).step s a = some (b, s')) : Sound xs b ∧ Inv P (xs ++ b.items) s' := by
  cases a with
  | call t job =>
      simp only [growth] at hs
      split at hs
      · cases hs
        refine ⟨trivial, Inv.of_silent ?_⟩
        exact h.quiet trivial (fun hl => absurd hl id) fun u _ hu => h.owner u hu
      · cases hs
  | size t =>
      simp only [growth] at hs
      split at hs
      · cases hs
        refine ⟨h.rep.size, Inv.of_silent ?_⟩
        refine { h with seen := fun u => ?_ }
        by_cases hu : u = t
        · subst hu
          exact Nat.le_of_eq (update_self _ _ _)
        · exact le_trans (Nat.le_of_eq (update_of_ne hu _ _)) (h.seen u)
      · cases hs
  | read t i =>
      simp only [growth] at hs
      split at hs
      · split_ifs at hs with hi
        cases hs
        refine ⟨trivial, Inv.of_silent ?_⟩
        exact h.quiet (Nat.lt_of_lt_of_le hi (h.seen t)) (fun hl => absurd hl id)
          fun u _ hu => h.owner u hu
      · cases hs
  | step t => exact advance_spec h hs

/-! ## Runs -/

omit [DecidableEq ι] in
theorem appended_append (tr tr' : History ι T) :
    appended (tr ++ tr') = appended tr ++ appended tr' := List.flatMap_append

theorem inv_init : Inv P [] (growth P : Machine (State ι T) _ _).init := by
  refine ⟨⟨fun h => ?_, fun h => ?_⟩, rep_new, fun t h => absurd h id, fun _ => trivial,
    fun _ => le_refl _⟩ <;> cases h

theorem inv_trace {tr : History ι T} (h : (growth P).Trace tr s) : Inv P (appended tr) s := by
  refine h.inv (C := fun _ _ => True) (fun tr s => Inv P (appended tr) s) inv_init ?_
    fun _ _ _ _ _ => trivial
  intro tr s a b s' _ _ _ hinv hs
  rw [appended_append]
  simpa [appended] using (step_sound hinv hs).2

theorem event_sound {pre post : History ι T} {a : Action ι T} {b : Output T}
    (h : (growth P).Trace (pre ++ (a, b) :: post) s) : Sound (appended pre) b := by
  obtain ⟨s0, s1, h0, hs⟩ := h.split
  exact (step_sound (inv_trace h0) hs).1

/-- **Growing is safe with lock-free readers.** In every interleaving of any number of threads
that call `push_back`, `expand`, `size` and `operator[]`: no access is undefined; a reader of the
element `i`, below a size that it has loaded, finds the slot allocated and then obtains the
`i`-th element ever appended; and the sizes that are loaded never decrease. -/
theorem growth_safe (P : Params T) {tr : History ι T} {s : State ι T}
    (h : (growth P).Trace tr s) :
    (∀ e ∈ tr, e.2 ≠ .fault) ∧
    (∀ a i x, (a, .value i x) ∈ tr → (appended tr)[i]? = some x) ∧
    (∀ t i, s.pc t = .deref i → ∃ b, s.mem.slots (slotOf i) = some b ∧
      (growth P).step s (.step t) = some (.running, s.goto t (.element i b))) ∧
    (∀ t i b, s.pc t = .element i b → ∃ x, (appended tr)[i]? = some x ∧
      (growth P).step s (.step t) = some (.value i x, s.goto t .idle)) ∧
    ∀ pre a n mid a' n' post,
      tr = pre ++ (a, .size n) :: (mid ++ (a', .size n') :: post) → n ≤ n' := by
  have hinv := inv_trace h
  refine ⟨?_, ?_, ?_, ?_, ?_⟩
  · rintro ⟨a, b⟩ he rfl
    obtain ⟨pre, post, rfl⟩ := List.append_of_mem he
    exact event_sound h
  · intro a i x he
    obtain ⟨pre, post, rfl⟩ := List.append_of_mem he
    have hx : (appended pre)[i]? = some x := event_sound h
    rw [appended_append, List.getElem?_append_left (List.getElem?_eq_some_iff.mp hx).1, hx]
  · intro t i hpc
    obtain ⟨b, hb, hadv, -⟩ := hinv.deref hpc
    exact ⟨b, hb, hadv⟩
  · intro t i b hpc
    obtain ⟨x, hx, hadv, -⟩ := hinv.element hpc
    exact ⟨x, hx, hadv⟩
  · rintro pre a n mid a' n' post rfl
    have hn : n = (appended pre).length := event_sound h
    rw [← List.cons_append, ← List.append_assoc] at h
    have hn' : n' = (appended (pre ++ (a, .size n) :: mid)).length := event_sound h
    rw [hn, hn', appended_append, List.length_append]
    exact Nat.le_add_right _ _

/-- The thread `true` has appended `7` and is allocating the slot of `8` when the thread `false`
reads the element `0`, below the size that it loaded before. -/
def readHistory : History Bool Nat :=
  [(.call true (.pushBack 7), .running), (.step true, .running), (.step true, .running),
    (.step true, .running), (.step true, .running), (.step true, .running),
    (.step true, .running), (.step true, .running), (.step true, .appended 7),
    (.size false, .size 1), (.step true, .returned), (.call true (.pushBack 8), .running),
    (.step true, .running), (.step true, .running), (.read false 0, .running),
    (.step true, .running), (.step false, .running), (.step true, .running)]

theorem growth_safe_reader :
    ∃ s, (growth ⟨2, 0, 0, none⟩).Trace readHistory s ∧ s.pc false = .element 0 0 ∧
      ∃ x, (appended readHistory)[0]? = some x ∧
        (growth ⟨2, 0, 0, none⟩).step s (.step false) = some (.value 0 x, s.goto false .idle) := by
  have h : (growth ⟨2, 0, 0, none⟩).Trace readHistory _ := Machine.Trace.of_run
    [.call true (.pushBack 7), .step true, .step true, .step true, .step true, .step true,
      .step true, .step true, .step true, .size false, .step true, .call true (.pushBack 8),
      .step true, .step true, .read false 0, .step true, .step false, .step true] rfl
  exact ⟨_, h, rfl, (growth_safe ⟨2, 0, 0, none⟩ h).2.2.2.1 false 0 0 rfl⟩

end Lunchbox.LFVector.Growth
