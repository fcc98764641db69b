import Lunchbox.Lib.Machine

set_option autoImplicit false

/-! # `MemoryMap` under failing system calls

The object (`memoryMap.cpp`, POSIX) and what it holds of the system: its open descriptors and its
mappings. The answers of `open`, `ftruncate`, `fstat` and `mmap` in one operation come from the
environment; each operation makes at most one call of each. `munmap` and `close` succeed on what
is there, and a call on something that is not there is counted as a fault, so a mapping that is
unmapped twice or a descriptor that is closed twice shows.
-/

namespace Lunchbox.MemoryMap

open StateMachine

/-! ## The system -/

structure Descriptor where
  fd : Int
  writable : Bool

structure Mapping where
  addr : Nat
  length : Nat
  fd : Int
  writable : Bool

/-- What the object holds, and the number of `munmap` and `close` calls on what it does not. -/
structure System where
  files : List Descriptor
  mappings : List Mapping
  faults : Nat

/-- The answers to the system calls of one operation. -/
structure Env where
  openFd : Option Nat
  ftruncateOk : Bool
  stSize : Nat
  mmapAddr : Option Nat

namespace System

variable (sys : System)

/-- `open` returns -1 if it fails. A descriptor in use is not given out again. -/
def «open» (answer : Option Nat) (writable : Bool) : Int × System :=
  match answer with
  | none => (-1, sys)
  | some fd =>
      if sys.files.any fun d => d.fd = fd then (-1, sys)
      else (fd, { sys with files := ⟨fd, writable⟩ :: sys.files })

/-- `ftruncate` fails on a descriptor that was opened read-only. -/
def ftruncate (fd : Int) (answer : Bool) : Bool :=
  answer && sys.files.any fun d => d.fd = fd && d.writable

/-- `mmap` of no bytes fails. An address in use is not given out again. -/
def mmap (answer : Option Nat) (length : Nat) (writable : Bool) (fd : Int) :
    Option Nat × System :=
  match answer with
  | none => (none, sys)
  | some addr =>
      if length = 0 ∨ sys.mappings.any fun m => m.addr = addr then (none, sys)
      else (some addr, { sys with mappings := ⟨addr, length, fd, writable⟩ :: sys.mappings })

def munmap (addr length : Nat) : System :=
  if sys.mappings.any fun m => m.addr = addr && m.length = length then
    { sys with mappings := sys.mappings.filter fun m => !(m.addr = addr && m.length = length) }
  else { sys with faults := sys.faults + 1 }

def close (fd : Int) : System :=
  if sys.files.any fun d => d.fd = fd then
    { sys with files := sys.files.filter fun d => !(d.fd = fd) }
  else { sys with faults := sys.faults + 1 }

end System

/-! ## The object -/

/-- The fields of `detail::MemoryMap`, the system, and whether the object exists. -/
structure State where
  ptr : Option Nat
  size : Nat
  map : Int
  sys : System
  alive : Bool

namespace State

variable (s : State)

/-- `_mapFile` -/
def mapFile (env : Env) (size : Nat) : Option Nat × State :=
  if size > 0 && !s.sys.ftruncate s.map env.ftruncateOk then (none, s)
  else
    match s.sys.mmap env.mmapAddr env.stSize (size ≠ 0) s.map with
    | (none, sys) => (none, { s with ptr := none, size := 0, map := 0, sys := sys.close s.map })
    | (some addr, sys) => (some addr, { s with ptr := some addr, size := env.stSize, sys := sys })

/-- `_init` -/
def openFile (env : Env) (size : Nat) : Option Nat × State :=
  let (fd, sys) := s.sys.open env.openFd (size ≠ 0)
  let s := { s with map := fd, sys := sys }
  if fd < 0 then (none, s) else s.mapFile env size

def init (env : Env) (size : Nat) : Option Nat × State :=
  if s.ptr.isSome then (none, s) else s.openFile env size

/-- `_unmap` and the reset after it. -/
def unmap : State :=
  match s.ptr with
  | none => s
  | some addr =>
      { s with ptr := none, size := 0, map := 0, sys := (s.sys.munmap addr s.size).close s.map }

def resizeMap (env : Env) (size : Nat) : Option Nat × State :=
  match s.ptr with
  | none => (none, s)
  | some addr =>
      if s.size = size then (some addr, s)
      else { s with sys := s.sys.munmap addr s.size }.mapFile env size

end State

/-- The operations. A file name only goes to `open`, whose answer is the environment's. -/
inductive Op
  | map
  | remap
  | create (size : Nat)
  | recreate (size : Nat)
  | resize (size : Nat)
  | unmap
  | destroy

def create (s : State) (env : Env) (size : Nat) : Option Nat × State :=
  if size = 0 then (none, s) else s.init env size

/-- An operation and the pointer that it returns. -/
def call (s : State) (env : Env) : Op → Option Nat × State
  | .map => s.init env 0
  | .remap => s.unmap.init env 0
  | .create size => create s env size
  | .recreate size => create s.unmap env size
  | .resize size => s.resizeMap env size
  | .unmap => (none, s.unmap)
  | .destroy => (none, { s.unmap with alive := false })

/-- A `MemoryMap` from its construction to its destruction. -/
def memoryMap : Machine State (Op × Env) (Option Nat) where
  init := ⟨none, 0, 0, ⟨[], [], 0⟩, true⟩
  step s a := if s.alive then some (call s a.2 a.1) else none

/-! ## Consistency -/

/-- Nothing is mapped, and nothing is held. -/
structure Unmapped (s : State) : Prop where
  ptr : s.ptr = none
  size : s.size = 0
  files : s.sys.files = []
  mappings : s.sys.mappings = []

/-- The address is that of the only mapping, of `size` bytes over the only open descriptor. -/
def Mapped (s : State) : Prop :=
  ∃ addr w w', s.ptr = some addr ∧ s.sys.files = [⟨s.map, w⟩] ∧
    s.sys.mappings = [⟨addr, s.size, s.map, w'⟩]

def Consistent (s : State) : Prop := Unmapped s ∨ Mapped s

/-- The descriptor that `create` opens cannot be truncated. -/
def createFails (s : State) (env : Env) (size : Nat) : Bool :=
  s.ptr.isNone && decide (0 < size) &&
    decide (0 ≤ (s.sys.open env.openFd true).1) &&
    !(s.sys.open env.openFd true).2.ftruncate (s.sys.open env.openFd true).1 env.ftruncateOk

/-- The operation calls `ftruncate`, and the call fails. -/
def truncateFails (s : State) : Op × Env → Bool
  | (.create size, env) => createFails s env size
  | (.recreate size, env) => createFails s.unmap env size
  | (.resize size, env) =>
      s.ptr.isSome && decide (s.size ≠ size) && decide (0 < size) &&
        !s.sys.ftruncate s.map env.ftruncateOk
  | _ => false

variable {s : State} {env : Env}

theorem Unmapped.eq (h : Unmapped s) : ∃ map faults alive,
    s = ⟨none, 0, map, ⟨[], [], faults⟩, alive⟩ := by
  obtain ⟨ptr, size, map, ⟨files, mappings, faults⟩, alive⟩ := s
  obtain ⟨rfl, rfl, rfl, rfl⟩ := h
  exact ⟨map, faults, alive, rfl⟩

theorem Mapped.eq (h : Mapped s) : ∃ addr size map w w' faults alive,
    s = ⟨some addr, size, map, ⟨[⟨map, w⟩], [⟨addr, size, map, w'⟩], faults⟩, alive⟩ := by
  obtain ⟨ptr, size, map, ⟨files, mappings, faults⟩, alive⟩ := s
  obtain ⟨addr, w, w', hptr, hfiles, hmappings⟩ := h
  simp only at hptr hfiles hmappings
  subst hptr hfiles hmappings
  exact ⟨addr, size, map, w, w', faults, alive, rfl⟩

theorem munmap_single (addr length : Nat) (fd : Int) (w : Bool) (files : List Descriptor)
    (faults : Nat) :
    System.munmap ⟨files, [⟨addr, length, fd, w⟩], faults⟩ addr length = ⟨files, [], faults⟩ := by
  simp [System.munmap]

theorem close_single (fd : Int) (w : Bool) (mappings : List Mapping) (faults : Nat) :
    System.close ⟨[⟨fd, w⟩], mappings, faults⟩ fd = ⟨[], mappings, faults⟩ := by
  simp [System.close]

theorem ftruncate_single (fd : Int) (w : Bool) (mappings : List Mapping) (faults : Nat)
    (ok : Bool) :
    System.ftruncate ⟨[⟨fd, w⟩], mappings, faults⟩ fd ok = (ok && w) := by
  simp [System.ftruncate]

/-- A consistent object, after the given number of faults. -/
structure Sound (faults : Nat) (s : State) : Prop where
  consistent : Consistent s
  faults_eq : s.sys.faults = faults

theorem Unmapped.sound (h : Unmapped s) : Sound s.sys.faults s := ⟨Or.inl h, rfl⟩

theorem Mapped.sound (h : Mapped s) : Sound s.sys.faults s := ⟨Or.inr h, rfl⟩

theorem unmapped_mk (map : Int) (faults : Nat) (alive : Bool) :
    Unmapped ⟨none, 0, map, ⟨[], [], faults⟩, alive⟩ := ⟨rfl, rfl, rfl, rfl⟩

/-- The state in which `_mapFile` starts: a descriptor is open, and nothing is mapped. -/
theorem not_consistent_of_open {ptr : Option Nat} {size : Nat} {map : Int} {d : Descriptor}
    {faults : Nat} {alive : Bool} :
    ¬ Consistent ⟨ptr, size, map, ⟨[d], [], faults⟩, alive⟩ := by
  rintro (h | ⟨addr, w, w', -, -, h⟩)
  · have := h.files
    cases this
  · cases h

/-! ## The operations on a consistent object -/

/-- `unmap` gives everything back. -/
theorem unmap_spec (h : Consistent s) : Unmapped s.unmap ∧ Sound s.sys.faults s.unmap := by
  rcases h with h | h
  · obtain ⟨map, faults, alive, rfl⟩ := h.eq
    exact ⟨h, h.sound⟩
  · obtain ⟨addr, size, map, w, w', faults, alive, rfl⟩ := h.eq
    have hs : State.unmap
        ⟨some addr, size, map, ⟨[⟨map, w⟩], [⟨addr, size, map, w'⟩], faults⟩, alive⟩
          = ⟨none, 0, 0, ⟨[], [], faults⟩, alive⟩ := by
      simp only [State.unmap, munmap_single, close_single]
    rw [hs]
    exact ⟨unmapped_mk 0 faults alive, (unmapped_mk 0 faults alive).sound⟩

/-- `_mapFile` handles the failure of `mmap`, but not that of `ftruncate`. -/
theorem mapFile_spec (env : Env) (ptr : Option Nat) (size : Nat) (map : Int) (w : Bool)
    (faults : Nat) (alive : Bool) (newSize : Nat) :
    let r := State.mapFile ⟨ptr, size, map, ⟨[⟨map, w⟩], [], faults⟩, alive⟩ env newSize
    (Sound faults r.2 ↔ ¬ (0 < newSize ∧ (env.ftruncateOk && w) = false)) ∧
      (Sound faults r.2 → r.1 = r.2.ptr) := by
  intro r
  by_cases hfail : 0 < newSize ∧ (env.ftruncateOk && w) = false
  · have hr : r = (none, ⟨ptr, size, map, ⟨[⟨map, w⟩], [], faults⟩, alive⟩) := by
      simp only [r, State.mapFile, ftruncate_single]
      rw [if_pos (by rw [hfail.2]; simpa using hfail.1)]
    have hno : ¬ Sound faults r.2 := by
      rw [hr]
      exact fun h => not_consistent_of_open h.consistent
    exact ⟨iff_of_false hno (not_not_intro hfail), fun h => absurd h hno⟩
  · have hr : Sound faults r.2 ∧ r.1 = r.2.ptr := by
      simp only [r, State.mapFile, ftruncate_single]
      rw [if_neg (by simpa using hfail)]
      unfold System.mmap
      cases env.mmapAddr with
      | none =>
          simp only [close_single]
          exact ⟨(unmapped_mk 0 faults alive).sound, trivial⟩
      | some addr =>
          by_cases hz : env.stSize = 0
          · simp only [hz, true_or, if_true, close_single]
            exact ⟨(unmapped_mk 0 faults alive).sound, trivial⟩
          · simp only [hz, List.any_nil, Bool.false_eq_true, or_self, if_false]
            exact ⟨⟨Or.inr ⟨addr, w, _, rfl, rfl, rfl⟩, rfl⟩, trivial⟩
    exact ⟨iff_of_true hr.1 hfail, fun _ => hr.2⟩

theorem openFile_sound_iff (h : Unmapped s) (size : Nat) :
    Sound s.sys.faults (s.openFile env size).2 ↔ createFails s env size = false := by
  obtain ⟨map, faults, alive, rfl⟩ := h.eq
  cases hfd : env.openFd with
  | none =>
      simp only [State.openFile, createFails, System.open, hfd]
      exact iff_of_true (unmapped_mk (-1) faults alive).sound (by simp)
  | some fd =>
      have hopen : ∀ w, System.open ⟨[], [], faults⟩ (some fd) w
          = ((fd : Int), ⟨[⟨fd, w⟩], [], faults⟩) := fun w => by simp [System.open]
      have hfd0 : ¬ (fd : Int) < 0 := by omega
      simp only [State.openFile, createFails, hopen, hfd, hfd0, if_false, ftruncate_single]
      refine (mapFile_spec env none 0 fd (size ≠ 0) faults alive size).1.trans ?_
      -- the descriptor is writable exactly if the file is to be sized
      rcases Nat.eq_zero_or_pos size with rfl | hpos
      · simp
      · simp [hpos, Nat.pos_iff_ne_zero.mp hpos]

theorem init_sound_iff (h : Consistent s) (size : Nat) :
    Sound s.sys.faults (s.init env size).2 ↔ createFails s env size = false := by
  rcases h with h | h
  · rw [State.init, h.ptr]
    exact openFile_sound_iff h size
  · obtain ⟨addr, w, w', hptr, -⟩ := id h
    rw [State.init, hptr]
    exact iff_of_true h.sound (by simp [createFails, hptr])

theorem create_sound_iff (h : Consistent s) (size : Nat) :
    Sound s.sys.faults (create s env size).2 ↔ createFails s env size = false := by
  unfold create
  split
  · next hz => exact iff_of_true ⟨h, rfl⟩ (by simp [createFails, hz])
  · exact init_sound_iff h size

theorem resizeMap_spec (h : Consistent s) (env : Env) (size : Nat) :
    let r := s.resizeMap env size
    (Sound s.sys.faults r.2 ↔ truncateFails s (.resize size, env) = false) ∧
      (Sound s.sys.faults r.2 → r.1 = r.2.ptr) := by
  intro r
  rcases h with h | h
  · have hr : r = (none, s) := by simp only [r, State.resizeMap, h.ptr]
    rw [hr]
    exact ⟨iff_of_true h.sound (by simp [truncateFails, h.ptr]), fun _ => h.ptr.symm⟩
  · by_cases heq : s.size = size
    · obtain ⟨addr, w, w', hptr, -⟩ := id h
      have hr : r = (some addr, s) := by simp only [r, State.resizeMap, hptr, heq, if_true]
      rw [hr]
      exact ⟨iff_of_true h.sound (by simp [truncateFails, heq]), fun _ => hptr.symm⟩
    · obtain ⟨addr, oldSize, map, w, w', faults, alive, rfl⟩ := h.eq
      simp only at heq
      have hspec := mapFile_spec env (some addr) oldSize map w faults alive size
      have hr : r
          = State.mapFile ⟨some addr, oldSize, map, ⟨[⟨map, w⟩], [], faults⟩, alive⟩ env size := by
        simp only [r, State.resizeMap, heq, if_false, munmap_single]
      rw [hr]
      refine ⟨hspec.1.trans ?_, hspec.2⟩
      simp [truncateFails, ftruncate_single, heq]

/-- **An operation keeps the object consistent exactly if it sees no `ftruncate` fail.** -/
theorem call_sound_iff (h : Consistent s) (env : Env) (op : Op) :
    Sound s.sys.faults (call s env op).2 ↔ truncateFails s (op, env) = false := by
  obtain ⟨hu, hsound⟩ := unmap_spec h
  have hread : ∀ s : State, createFails s env 0 = false := by simp [createFails]
  cases op with
  | map => exact (init_sound_iff h 0).trans (iff_of_true (hread s) rfl)
  | remap =>
      rw [← hsound.faults_eq]
      exact (init_sound_iff (Or.inl hu) 0).trans (iff_of_true (hread _) rfl)
  | create size => exact create_sound_iff h size
  | recreate size =>
      rw [← hsound.faults_eq]
      exact create_sound_iff (Or.inl hu) size
  | resize size => exact (resizeMap_spec h env size).1
  | unmap => exact iff_of_true hsound rfl
  | destroy =>
      have hu' : Unmapped (call s env .destroy).2 := ⟨hu.ptr, hu.size, hu.files, hu.mappings⟩
      exact iff_of_true ⟨Or.inl hu', hsound.faults_eq⟩ rfl

/-! ## Runs -/

abbrev History := List ((Op × Env) × Option Nat)

/-- What is promised after every call. -/
structure Kept (tr : History) (s : State) : Prop where
  consistent : Consistent s
  faults : s.sys.faults = 0
  -- a `resize` that returns null unmaps
  resized : ∀ pre size env, tr = pre ++ [((.resize size, env), none)] → s.ptr = none
  -- nothing outlives the object
  destroyed : ∀ pre env r, tr = pre ++ [((.destroy, env), r)] → Unmapped s

theorem kept_init : Kept [] memoryMap.init where
  consistent := Or.inl ⟨rfl, rfl, rfl, rfl⟩
  faults := rfl
  resized pre size env h := by simp at h
  destroyed pre env r h := by simp at h

theorem kept_step {tr : History} {s' : State} {a : Op × Env} {b : Option Nat} (h : Kept tr s)
    (hs : memoryMap.step s a = some (b, s')) :
    Kept (tr ++ [(a, b)]) s' ↔ truncateFails s a = false := by
  obtain ⟨op, env⟩ := a
  obtain ⟨-, hcall⟩ := Option.ite_none_right_eq_some.mp hs
  have hcall : call s env op = (b, s') := Option.some.inj hcall
  have hiff := call_sound_iff h.consistent env op
  rw [hcall, h.faults] at hiff
  rw [← hiff]
  constructor
  · exact fun hk => ⟨hk.consistent, hk.faults⟩
  · intro hsound
    refine ⟨hsound.consistent, hsound.faults_eq, ?_, ?_⟩
    · intro pre size env' he
      obtain ⟨-, he⟩ := List.append_inj' he rfl
      cases he
      have hspec := (resizeMap_spec h.consistent env size).2
      rw [show s.resizeMap env size = (none, s') from hcall, h.faults] at hspec
      exact (hspec hsound).symm
    · intro pre env' r he
      obtain ⟨-, he⟩ := List.append_inj' he rfl
      cases he
      have hu := (unmap_spec h.consistent).1
      cases hcall
      exact ⟨hu.ptr, hu.size, hu.files, hu.mappings⟩

/-- **A `MemoryMap` is consistent under every failure but that of `ftruncate`.** In a run from
the construction on, after every call either the address is null, the size is 0 and nothing is
held, or the address is the live mapping of `size` bytes over the one open descriptor; nothing
was unmapped or closed twice; a `resize` that returned null has unmapped; and the destruction
leaves nothing behind: exactly if no call of `ftruncate` failed. -/
theorem consistent_iff_truncated {tr : History} (h : memoryMap.Trace tr s) :
    memoryMap.Always Kept tr ↔ memoryMap.Guarded (fun s a => truncateFails s a = false) tr :=
  h.always_iff_guarded kept_init fun _ _ _ _ _ _ hk hs => kept_step hk hs

/-- A new file of 16 bytes grows to 32, `mmap` fails when it is to grow to 64, the file is mapped
again and the object is destroyed. -/
def grownHistory : History :=
  [((.create 16, ⟨some 3, true, 16, some 4096⟩), some 4096),
    ((.resize 32, ⟨none, true, 32, some 8192⟩), some 8192),
    ((.resize 64, ⟨none, true, 64, none⟩), none),
    ((.map, ⟨some 3, true, 64, some 4096⟩), some 4096), ((.destroy, ⟨none, true, 0, none⟩), none)]

theorem consistent_iff_truncated_grown :
    ∃ s, memoryMap.Trace grownHistory s ∧ memoryMap.Always Kept grownHistory := by
  have h : memoryMap.Trace grownHistory _ := Machine.Trace.of_run (grownHistory.map Prod.fst) rfl
  refine ⟨_, h, (consistent_iff_truncated h).mpr ?_⟩
  have hm : memoryMap.meets (fun s a => truncateFails s a = false) (grownHistory.map Prod.fst)
      memoryMap.init := by
    refine ⟨rfl, fun r1 h1 => ?_⟩
    cases h1
    refine ⟨rfl, fun r2 h2 => ?_⟩
    cases h2
    refine ⟨rfl, fun r3 h3 => ?_⟩
    cases h3
    refine ⟨rfl, fun r4 h4 => ?_⟩
    cases h4
    exact ⟨rfl, fun _ _ => trivial⟩
  exact Machine.guarded_of_run (grownHistory.map Prod.fst) rfl hm

/-- A read-only map is resized: the mapping is gone, but the address stays, and the destructor
unmaps it again. -/
theorem resize_leaves_stale_address :
    ∃ s s', memoryMap.Trace
        [((.map, ⟨some 3, true, 16, some 4096⟩), some 4096),
          ((.resize 32, ⟨none, true, 32, none⟩), none)] s ∧
      s.ptr = some 4096 ∧ s.sys.mappings = [] ∧
      memoryMap.Trace
        [((.map, ⟨some 3, true, 16, some 4096⟩), some 4096),
          ((.resize 32, ⟨none, true, 32, none⟩), none),
          ((.destroy, ⟨none, true, 0, none⟩), none)] s' ∧
      s'.sys.faults = 1 := by
  refine ⟨_, _, Machine.Trace.of_run [(.map, ⟨some 3, true, 16, some 4096⟩),
    (.resize 32, ⟨none, true, 32, none⟩)] rfl, rfl, rfl, Machine.Trace.of_run
      [(.map, ⟨some 3, true, 16, some 4096⟩), (.resize 32, ⟨none, true, 32, none⟩),
        (.destroy, ⟨none, true, 0, none⟩)] rfl, rfl⟩

end Lunchbox.MemoryMap
