import Lunchbox.MemoryMap

set_option autoImplicit false

/-! # `MemoryMap` and the contents of files

A `MemoryMap` and the files that it maps, where all system calls succeed. The object is that of
`MemoryMap.lean`; here the answers to its system calls come from the files. A mapping is shared, so
that what is written through it is in the file at once, and a descriptor that was opened for
writing belongs to a map that `create` or `recreate` has made.

`resize` passes its size to `_mapFile`, where a size of 0 stands for the read-only map of the whole
file. So `resize(0)` does not give a map of size 0, and the map that it gives is not writable.
Otherwise `resize` does what it should (`resize_keeps_iff`).
-/

namespace Lunchbox.MemoryMap.Files

open StateMachine Function

abbrev Bytes := List UInt8

/-- `ftruncate`: the end is cut off, or filled with zeros. -/
def truncate (bytes : Bytes) (size : Nat) : Bytes :=
  bytes.take size ++ List.replicate (size - bytes.length) 0

/-- `memcpy` to the given offset. -/
def put (bytes data : Bytes) (offset : Nat) : Bytes :=
  bytes.take offset ++ data ++ bytes.drop (offset + data.length)

/-- An object, the file of its descriptor, and the contents of all files. -/
structure World (N : Type) where
  obj : State
  file : Option N
  files : N → Option Bytes

variable {N : Type}

/-- A new object. -/
def World.new (files : N → Option Bytes) : World N := ⟨memoryMap.init, none, files⟩

/-- The bytes that can be read through the map. -/
def World.bytes (w : World N) : Bytes := ((w.file.bind w.files).getD []).take w.obj.size

variable [DecidableEq N]

/-- `O_CREAT`, and `ftruncate` to a size other than 0. -/
def resizeFile (files : N → Option Bytes) (name : N) (size : Nat) : N → Option Bytes :=
  if size > 0 then update files name (some (truncate ((files name).getD []) size)) else files

/-- What `open`, `ftruncate`, `fstat` and `mmap` answer: a file that is not there cannot be opened,
and the descriptor and the address are chosen by the system. -/
def answers (files : N → Option Bytes) (name : N) (fd addr : Nat) : Env where
  openFd := (files name).map fun _ => fd
  ftruncateOk := true
  stSize := ((files name).getD []).length
  mmapAddr := some addr

namespace World

variable (w : World N)

/-- `init`; refused if a system call fails. -/
def init (name : N) (size fd addr : Nat) : Option (Option Nat × World N) :=
  if w.obj.ptr.isSome then some (none, w)
  else
    let files := resizeFile w.files name size
    match w.obj.init (answers files name fd addr) size with
    | (none, _) => none
    | (some p, obj) => some (some p, ⟨obj, some name, files⟩)

def unmap : World N := { w with obj := w.obj.unmap }

def create (name : N) (size fd addr : Nat) : Option (Option Nat × World N) :=
  if size = 0 then some (none, w) else w.init name size fd addr

/-- `resize`; refused if a system call fails. -/
def resize (size fd addr : Nat) : Option (Option Nat × World N) :=
  match w.obj.ptr, w.file with
  | some p, some name =>
      if w.obj.size = size then some (some p, w)
      else
        let files := resizeFile w.files name size
        match w.obj.resizeMap (answers files name fd addr) size with
        | (none, _) => none
        | (some p, obj) => some (some p, ⟨obj, some name, files⟩)
  | _, _ => some (none, w)

/-- `memcpy` to the map; a write to memory that is not mapped for writing is refused. -/
def memcpy (offset : Nat) (data : Bytes) : Option (World N) :=
  match w.file with
  | none => none
  | some name =>
      if w.obj.sys.mappings.any fun m =>
          some m.addr = w.obj.ptr && m.writable && offset + data.length ≤ m.length then
        some { w with files := update w.files name ((w.files name).map fun b => put b data offset) }
      else none

end World

inductive Op (N : Type)
  | map (name : N)
  | remap (name : N)
  | create (name : N) (size : Nat)
  | recreate (name : N) (size : Nat)
  | resize (size : Nat)
  | unmap
  | memcpy (offset : Nat) (data : Bytes)

/-- An operation, with the descriptor and the address that the system chooses. -/
def call (w : World N) (fd addr : Nat) : Op N → Option (Option Nat × World N)
  | .map name => w.init name 0 fd addr
  | .remap name => w.unmap.init name 0 fd addr
  | .create name size => w.create name size fd addr
  | .recreate name size => w.unmap.create name size fd addr
  | .resize size => w.resize size fd addr
  | .unmap => some (none, w.unmap)
  | .memcpy offset data => (w.memcpy offset data).map fun w => (none, w)

/-- The calls on one object, from its construction on. -/
def mapped (files : N → Option Bytes) : Machine (World N) (Op N × Nat × Nat) (Option Nat) where
  init := World.new files
  step w a := call w a.2.1 a.2.2 a.1

/-! ## The property and the condition -/

/-- The map was made by `create` or `recreate`. -/
def Created (w : World N) : Prop := ∃ d ∈ w.obj.sys.files, d.writable = true

/-- What `resize(n)` should do, from `w0` to `w`. -/
structure Resized (w0 : World N) (n : Nat) (w : World N) : Prop where
  getSize : w.obj.size = n
  writable : ∃ m ∈ w.obj.sys.mappings,
    some m.addr = w.obj.ptr ∧ m.length = n ∧ m.writable = true
  length : w.bytes.length = n
  kept : w.bytes.take (min w0.obj.size n) = w0.bytes.take (min w0.obj.size n)
  /-- another object that maps the file sees these bytes -/
  seen : ∃ name, w.file = some name ∧ ∀ fd addr, ∃ v,
    call (World.new w.files) fd addr (.map name) = some (some addr, v) ∧ v.obj.size = n ∧
      v.bytes = w.bytes

abbrev History (N : Type) := List ((Op N × Nat × Nat) × Option Nat)

/-- If the last call was a `resize` that has returned an address, it has done what it should. -/
def Keeps (files : N → Option Bytes) (tr : History N) (w : World N) : Prop :=
  ∀ pre n sys p w0, tr = pre ++ [((.resize n, sys), some p)] → (mapped files).Trace pre w0 →
    Created w0 → Resized w0 n w

/-- A map that `create` or `recreate` has made is not resized to 0. -/
def Positive (w : World N) : Op N × Nat × Nat → Prop
  | (.resize n, _) => Created w → n ≠ 0
  | _ => True

/-! ## The object -/

/-- The call on the object, which does not know the names of files; `memcpy` is none. -/
def Op.onObject : Op N → Option MemoryMap.Op
  | .map _ => some .map
  | .remap _ => some .remap
  | .create _ size => some (.create size)
  | .recreate _ size => some (.recreate size)
  | .resize size => some (.resize size)
  | .unmap => some .unmap
  | .memcpy _ _ => none

/-- The object was called, and its system calls had some answers; if it has mapped something, then
it is known which file. -/
def Answered (w w' : World N) (r : Option Nat) (op : MemoryMap.Op) : Prop :=
  (∃ env, MemoryMap.call w.obj env op = (r, w'.obj)) ∧
    (w'.obj.ptr.isSome = true → w'.file.isSome = true)

section Object

variable {w w' : World N} {name : N} {size fd addr : Nat} {r : Option Nat}

theorem init_object (hs : w.init name size fd addr = some (r, w'))
    (hfile : w.obj.ptr.isSome = true → w.file.isSome = true) :
    (∃ env, w.obj.init env size = (r, w'.obj)) ∧
      (w'.obj.ptr.isSome = true → w'.file.isSome = true) := by
  unfold World.init at hs
  split_ifs at hs with hptr
  · cases hs
    exact ⟨⟨answers w.files name fd addr, by rw [State.init, if_pos hptr]⟩, hfile⟩
  · simp only at hs
    split at hs
    · cases hs
    · next hinit =>
        cases hs
        exact ⟨⟨_, hinit⟩, fun _ => rfl⟩

theorem create_object (hs : w.create name size fd addr = some (r, w'))
    (hfile : w.obj.ptr.isSome = true → w.file.isSome = true) :
    (∃ env, MemoryMap.create w.obj env size = (r, w'.obj)) ∧
      (w'.obj.ptr.isSome = true → w'.file.isSome = true) := by
  unfold World.create at hs
  split_ifs at hs with hz
  · cases hs
    exact ⟨⟨⟨none, true, 0, none⟩, if_pos hz⟩, hfile⟩
  · obtain ⟨⟨env, he⟩, hfile'⟩ := init_object hs hfile
    exact ⟨⟨env, (if_neg hz).trans he⟩, hfile'⟩

theorem resize_object (hs : w.resize size fd addr = some (r, w'))
    (hfile : w.obj.ptr.isSome = true → w.file.isSome = true) :
    (∃ env, w.obj.resizeMap env size = (r, w'.obj)) ∧
      (w'.obj.ptr.isSome = true → w'.file.isSome = true) := by
  cases hptr : w.obj.ptr with
  | none =>
      simp only [World.resize, hptr] at hs
      cases hs
      exact ⟨⟨⟨none, true, 0, none⟩, by simp only [State.resizeMap, hptr]⟩, hfile⟩
  | some p =>
      obtain ⟨name, hname⟩ := Option.isSome_iff_exists.mp (hfile (by rw [hptr]; rfl))
      simp only [World.resize, hptr, hname] at hs
      split_ifs at hs with hsize
      · cases hs
        exact ⟨⟨⟨none, true, 0, none⟩, by simp only [State.resizeMap, hptr, hsize, if_true]⟩, hfile⟩
      · split at hs
        · cases hs
        · next hmap =>
            cases hs
            exact ⟨⟨_, hmap⟩, fun _ => rfl⟩

theorem unmap_ptr (s : State) : s.unmap.ptr = none := by
  unfold State.unmap
  split
  · assumption
  · rfl

/-- **A call on the object is one of `MemoryMap.lean`, with the answers that the files give.** -/
theorem call_object {op : Op N} {op' : MemoryMap.Op} (hs : call w fd addr op = some (r, w'))
    (hop : op.onObject = some op') (hfile : w.obj.ptr.isSome = true → w.file.isSome = true) :
    Answered w w' r op' := by
  have hunmapped : w.unmap.obj.ptr.isSome = true → w.unmap.file.isSome = true := by
    intro h
    rw [show w.unmap.obj.ptr = none from unmap_ptr w.obj] at h
    cases h
  cases op with
  | map name => cases hop; exact init_object hs hfile
  | remap name => cases hop; exact init_object hs hunmapped
  | create name size => cases hop; exact create_object hs hfile
  | recreate name size => cases hop; exact create_object hs hunmapped
  | resize size => cases hop; exact resize_object hs hfile
  | unmap =>
      cases hop
      cases hs
      exact ⟨⟨⟨none, true, 0, none⟩, rfl⟩, hunmapped⟩
  | memcpy => cases hop

theorem mapFile_alive (s : State) (env : Env) (n : Nat) :
    (s.mapFile env n).2.alive = s.alive := by
  unfold State.mapFile
  split
  · rfl
  · split <;> rfl

theorem init_alive (s : State) (env : Env) (n : Nat) : (s.init env n).2.alive = s.alive := by
  unfold State.init State.openFile
  split
  · rfl
  · simp only
    split
    · rfl
    · rw [mapFile_alive]

theorem create_alive (s : State) (env : Env) (n : Nat) :
    (MemoryMap.create s env n).2.alive = s.alive := by
  unfold MemoryMap.create
  split
  · rfl
  · exact init_alive s env n

theorem unmap_alive (s : State) : s.unmap.alive = s.alive := by
  unfold State.unmap
  split <;> rfl

theorem resizeMap_alive (s : State) (env : Env) (n : Nat) :
    (s.resizeMap env n).2.alive = s.alive := by
  unfold State.resizeMap
  split
  · rfl
  · split
    · rfl
    · rw [mapFile_alive]

omit [DecidableEq N] in
/-- Only the destruction ends the life of an object. -/
theorem call_alive {op : Op N} {op' : MemoryMap.Op} (hop : op.onObject = some op') (s : State)
    (env : Env) : (MemoryMap.call s env op').2.alive = s.alive := by
  cases op with
  | map => cases hop; exact init_alive s env 0
  | remap => cases hop; exact (init_alive s.unmap env 0).trans (unmap_alive s)
  | create name n => cases hop; exact create_alive s env n
  | recreate name n => cases hop; exact (create_alive s.unmap env n).trans (unmap_alive s)
  | resize n => cases hop; exact resizeMap_alive s env n
  | unmap => cases hop; exact unmap_alive s
  | memcpy => cases hop

/-- **The object goes through a run of `MemoryMap.lean`**, whatever is written to the files. -/
theorem object_of_trace {files : N → Option Bytes} {tr : List ((Op N × Nat × Nat) × Option Nat)}
    (h : (mapped files).Trace tr w) : ∃ tr', memoryMap.Trace tr' w.obj := by
  suffices hall : (∃ tr', memoryMap.Trace tr' w.obj) ∧ w.obj.alive = true ∧
      (w.obj.ptr.isSome = true → w.file.isSome = true) from hall.1
  induction h with
  | nil => exact ⟨⟨[], .nil⟩, rfl, fun h => by cases h⟩
  | @snoc _ w a r w' _ hs ih =>
      obtain ⟨⟨tr', ht'⟩, halive, hfile⟩ := ih
      obtain ⟨op, fd, addr⟩ := a
      cases hop : op.onObject with
      | none =>
          -- `memcpy` leaves the object as it is
          cases op with
          | memcpy offset data =>
              obtain ⟨t, ht, he⟩ := Option.map_eq_some_iff.mp hs
              cases he
              unfold World.memcpy at ht
              split at ht
              · cases ht
              · split_ifs at ht
                cases ht
                exact ⟨⟨tr', ht'⟩, halive, hfile⟩
          | _ => cases hop
      | some op' =>
          obtain ⟨⟨env, henv⟩, hfile'⟩ := call_object hs hop hfile
          have hstep : memoryMap.step w.obj (op', env) = some (r, w'.obj) := by
            simp only [memoryMap, halive, if_true, henv]
          refine ⟨⟨_, ht'.snoc hstep⟩, ?_, hfile'⟩
          have := call_alive hop w.obj env
          rwa [henv, halive] at this

end Object

/-! ## Contents -/

theorem length_truncate (bytes : Bytes) (size : Nat) : (truncate bytes size).length = size := by
  simp only [truncate, List.length_append, List.length_take, List.length_replicate]
  omega

/-- `ftruncate` keeps what the old and the new size have in common. -/
theorem take_truncate (bytes : Bytes) (size : Nat) :
    (truncate bytes size).take (min bytes.length size) = bytes.take (min bytes.length size) := by
  unfold truncate
  rw [List.take_append_of_le_length (by rw [List.length_take]; omega), List.take_take]
  congr 1
  omega

theorem length_put {bytes data : Bytes} {offset : Nat} (h : offset + data.length ≤ bytes.length) :
    (put bytes data offset).length = bytes.length := by
  simp only [put, List.length_append, List.length_take, List.length_drop]
  omega

theorem resizeFile_pos (files : N → Option Bytes) (name : N) {size : Nat} (h : 0 < size) :
    resizeFile files name size
      = update files name (some (truncate ((files name).getD []) size)) :=
  if_pos h

theorem resizeFile_zero (files : N → Option Bytes) (name : N) : resizeFile files name 0 = files :=
  if_neg (lt_irrefl 0)

/-! ## The object under these answers -/

theorem mapFile_answers (env : Env) (ptr : Option Nat) (size : Nat) (map : Int) (d : Bool)
    (faults : Nat) (alive : Bool) (n addr : Nat) (hok : env.ftruncateOk = true)
    (haddr : env.mmapAddr = some addr) :
    State.mapFile ⟨ptr, size, map, ⟨[⟨map, d⟩], [], faults⟩, alive⟩ env n
      = if 0 < n ∧ d = false then (none, ⟨ptr, size, map, ⟨[⟨map, d⟩], [], faults⟩, alive⟩)
        else if env.stSize = 0 then (none, ⟨none, 0, 0, ⟨[], [], faults⟩, alive⟩)
        else (some addr, ⟨some addr, env.stSize, map,
          ⟨[⟨map, d⟩], [⟨addr, env.stSize, map, n ≠ 0⟩], faults⟩, alive⟩) := by
  simp only [State.mapFile, ftruncate_single, hok, Bool.true_and, System.mmap, haddr]
  by_cases hfail : 0 < n ∧ d = false
  · rw [if_pos hfail, if_pos (by simpa using hfail)]
  · rw [if_neg hfail, if_neg (by simpa using hfail)]
    by_cases hz : env.stSize = 0
    · simp only [hz, true_or, if_true, close_single]
    · simp [hz]

/-- The object has mapped the file `name` with the contents `bytes`; `d` and `v` say whether the
descriptor and the mapping are writable. -/
structure Holds (w : World N) (name : N) (bytes : Bytes) (d v : Bool) : Prop where
  obj : ∃ addr fd faults alive, w.obj = ⟨some addr, bytes.length, fd,
    ⟨[⟨fd, d⟩], [⟨addr, bytes.length, fd, v⟩], faults⟩, alive⟩
  file : w.file = some name
  content : w.files name = some bytes
  nonempty : bytes ≠ []

variable {w w' : World N} {name : N} {bytes : Bytes} {d v : Bool} {fd addr : Nat}

omit [DecidableEq N] in
/-- The answer of `open` decides, then the size of the file. -/
theorem openFile_answers (map : Int) (faults : Nat) (alive : Bool) (files : N → Option Bytes)
    (name : N) (size fd addr : Nat) :
    State.init ⟨none, 0, map, ⟨[], [], faults⟩, alive⟩ (answers files name fd addr) size
      = match files name with
        | none => (none, ⟨none, 0, -1, ⟨[], [], faults⟩, alive⟩)
        | some bytes =>
            if bytes.length = 0 then (none, ⟨none, 0, 0, ⟨[], [], faults⟩, alive⟩)
            else (some addr, ⟨some addr, bytes.length, fd, ⟨[⟨fd, size ≠ 0⟩],
              [⟨addr, bytes.length, fd, size ≠ 0⟩], faults⟩, alive⟩) := by
  cases hf : files name with
  | none => simp [State.init, State.openFile, System.open, answers, hf]
  | some bytes =>
      have hopen : System.open ⟨[], [], faults⟩ (answers files name fd addr).openFd (size ≠ 0)
          = ((fd : Int), ⟨[⟨fd, size ≠ 0⟩], [], faults⟩) := by
        simp [System.open, answers, hf]
      have hfd : ¬ (fd : Int) < 0 := by omega
      have hwrite : ¬ (0 < size ∧ decide (size ≠ 0) = false) := by
        rintro ⟨hpos, hz⟩
        simp at hz
        omega
      simp only [State.init, Option.isSome_none, Bool.false_eq_true, if_false, State.openFile]
      rw [hopen]
      simp only [hfd, if_false]
      rw [mapFile_answers _ none 0 fd _ faults alive size addr rfl rfl, if_neg hwrite]
      simp only [answers, hf, Option.getD_some]

theorem init_of_content (h : Unmapped w.obj) {size : Nat} (fd addr : Nat)
    (hb : resizeFile w.files name size name = some bytes) (hne : bytes ≠ []) :
    ∃ w', w.init name size fd addr = some (some addr, w') ∧
      Holds w' name bytes (size ≠ 0) (size ≠ 0) ∧
      w'.files = resizeFile w.files name size := by
  obtain ⟨map, faults, alive, hobj⟩ := h.eq
  have hlen : bytes.length ≠ 0 := fun hz => hne (List.eq_nil_of_length_eq_zero hz)
  refine ⟨⟨_, some name, resizeFile w.files name size⟩, ?_, ⟨⟨addr, fd, faults, alive, rfl⟩, rfl,
    hb, hne⟩, rfl⟩
  simp only [World.init, hobj, Option.isSome_none, Bool.false_eq_true, if_false]
  simp only [openFile_answers, hb, hlen, if_false]

theorem init_refused (h : Unmapped w.obj) {size : Nat} (fd addr : Nat)
    (hb : (resizeFile w.files name size name).getD [] = []) :
    w.init name size fd addr = none := by
  obtain ⟨map, faults, alive, hobj⟩ := h.eq
  simp only [World.init, hobj, Option.isSome_none, Bool.false_eq_true, if_false, openFile_answers]
  cases hf : resizeFile w.files name size name with
  | none => rfl
  | some bytes =>
      rw [hf, Option.getD_some] at hb
      simp [hb]

/-- An object that maps nothing, and maps a file. -/
theorem init_some (h : Unmapped w.obj) {size : Nat} {r : Option Nat}
    (hs : w.init name size fd addr = some (r, w')) :
    ∃ bytes, Holds w' name bytes (size ≠ 0) (size ≠ 0) := by
  by_cases hb : (resizeFile w.files name size name).getD [] = []
  · rw [init_refused h fd addr hb] at hs
    cases hs
  · cases hf : resizeFile w.files name size name with
    | none => simp [hf] at hb
    | some bytes =>
        rw [hf, Option.getD_some] at hb
        obtain ⟨t, ht, hholds, -⟩ := init_of_content h fd addr hf hb
        rw [ht] at hs
        cases hs
        exact ⟨bytes, hholds⟩

namespace Holds

omit [DecidableEq N] in
theorem ptr_isSome (h : Holds w name bytes d v) : w.obj.ptr.isSome = true := by
  obtain ⟨addr, fd, faults, alive, hobj⟩ := h.obj
  rw [hobj]
  rfl

omit [DecidableEq N] in
theorem ptr_isNone (h : Holds w name bytes d v) : w.obj.ptr.isNone = false :=
  Option.isNone_eq_false_iff.mpr h.ptr_isSome

omit [DecidableEq N] in
theorem size (h : Holds w name bytes d v) : w.obj.size = bytes.length := by
  obtain ⟨addr, fd, faults, alive, hobj⟩ := h.obj
  rw [hobj]

omit [DecidableEq N] in
theorem bytes_eq (h : Holds w name bytes d v) : w.bytes = bytes := by
  rw [World.bytes, h.file, h.size, Option.bind_some, h.content, Option.getD_some, List.take_length]

omit [DecidableEq N] in
theorem created_iff (h : Holds w name bytes d v) : Created w ↔ d = true := by
  obtain ⟨addr, fd, faults, alive, hobj⟩ := h.obj
  simp [Created, hobj]

omit [DecidableEq N] in
theorem unmap (h : Holds w name bytes d v) : Unmapped w.unmap.obj := by
  obtain ⟨addr, fd, faults, alive, hobj⟩ := h.obj
  have hm : Mapped w.obj := by
    rw [hobj]
    exact ⟨addr, d, v, rfl, rfl, rfl⟩
  exact (unmap_spec (Or.inr hm)).1

/-- What `resize` does to a map of `bytes`: a size other than 0 goes to `ftruncate`, and 0 makes the
map read-only. -/
inductive Resizing (w : World N) (name : N) (bytes : Bytes) (d : Bool) (n addr : Nat) :
    Option (Option Nat × World N) → Prop
  | same (p : Nat) (hn : n = bytes.length) : Resizing w name bytes d n addr (some (some p, w))
  | refused (hd : d = false) : Resizing w name bytes d n addr none
  | truncated {w' : World N} (hpos : 0 < n) (hd : d = true)
      (h : Holds w' name (truncate bytes n) true true) :
      Resizing w name bytes d n addr (some (some addr, w'))
  | readOnly {w' : World N} (hn : n = 0) (h : Holds w' name bytes d false) :
      Resizing w name bytes d n addr (some (some addr, w'))

theorem resizing (h : Holds w name bytes d v) (n fd addr : Nat) :
    Resizing w name bytes d n addr (w.resize n fd addr) := by
  obtain ⟨obj, file, files⟩ := w
  obtain ⟨⟨p, map, faults, alive, hobj⟩, hfile, hcontent, hne⟩ := h
  simp only at hobj hfile hcontent
  subst hobj hfile
  by_cases hn : bytes.length = n
  · simp only [World.resize, hn, if_true]
    exact .same p hn.symm
  simp only [World.resize, hn, if_false, State.resizeMap, munmap_single]
  rw [mapFile_answers _ _ _ _ _ _ _ _ addr rfl rfl]
  rcases Nat.eq_zero_or_pos n with rfl | hpos
  · have hlen : bytes.length ≠ 0 := fun hz => hne (List.eq_nil_of_length_eq_zero hz)
    simp only [resizeFile_zero, answers, hcontent, Option.getD_some, hlen, lt_irrefl, false_and,
      if_false]
    exact .readOnly rfl ⟨⟨addr, map, faults, alive, rfl⟩, rfl, hcontent, hne⟩
  · cases d with
    | false =>
        simp only [hpos, and_self, if_true]
        exact .refused rfl
    | true =>
        have hne' : truncate bytes n ≠ [] := by
          intro he
          have := length_truncate bytes n
          rw [he, List.length_nil] at this
          omega
        simp only [resizeFile_pos _ _ hpos, hcontent, answers, update_self, Option.getD_some,
          length_truncate, Bool.true_eq_false, and_false, if_false, hpos.ne']
        refine .truncated hpos rfl ⟨⟨addr, map, faults, alive, ?_⟩, rfl, update_self _ _ _, hne'⟩
        simp [length_truncate, hpos.ne']

/-- Writing needs a writable map. -/
theorem memcpy_eq (h : Holds w name bytes d v) (offset : Nat) (data : Bytes) :
    w.memcpy offset data
      = if v = true ∧ offset + data.length ≤ bytes.length then
          some { w with files := update w.files name (some (put bytes data offset)) }
        else none := by
  obtain ⟨p, map, faults, alive, hobj⟩ := h.obj
  simp [World.memcpy, h.file, hobj, h.content]

/-- Writing changes the contents only. -/
theorem write (h : Holds w name bytes d v) {offset : Nat} {data : Bytes}
    (hle : offset + data.length ≤ bytes.length) :
    Holds { w with files := update w.files name (some (put bytes data offset)) } name
      (put bytes data offset) d v := by
  obtain ⟨p, map, faults, alive, hobj⟩ := h.obj
  have hlen := length_put hle
  refine ⟨⟨p, map, faults, alive, ?_⟩, h.file, update_self _ _ _, fun he => ?_⟩
  · rw [hlen]
    exact hobj
  · rw [he, List.length_nil] at hlen
    exact h.nonempty (List.eq_nil_of_length_eq_zero hlen.symm)

theorem memcpy (h : Holds w name bytes d v) {offset : Nat} {data : Bytes}
    (hs : w.memcpy offset data = some w') : Holds w' name (put bytes data offset) d v := by
  rw [h.memcpy_eq] at hs
  obtain ⟨⟨-, hle⟩, hs⟩ := Option.ite_none_right_eq_some.mp hs
  cases hs
  exact h.write hle

end Holds

/-! ## Runs -/

/-- Nothing is mapped, or a file is; a map over a descriptor for writing is writable. -/
def Inv (w : World N) : Prop :=
  Unmapped w.obj ∨ ∃ name bytes d v, Holds w name bytes d v ∧ (d = true → v = true)

omit [DecidableEq N] in
theorem inv_new (files : N → Option Bytes) : Inv (World.new files) :=
  Or.inl ⟨rfl, rfl, rfl, rfl⟩

omit [DecidableEq N] in
theorem Inv.unmap (h : Inv w) : Unmapped w.unmap.obj := by
  rcases h with h | ⟨name, bytes, d, v, h, -⟩
  · exact (unmap_spec (Or.inl h)).1
  · exact h.unmap

theorem Inv.init (h : Inv w) {size : Nat} {r : Option Nat}
    (hs : w.init name size fd addr = some (r, w')) : Inv w' := by
  rcases h with hu | ⟨name', bytes, d, v, hh, hdv⟩
  · obtain ⟨bytes, hh⟩ := init_some hu hs
    exact Or.inr ⟨name, bytes, _, _, hh, id⟩
  · rw [World.init, if_pos hh.ptr_isSome] at hs
    cases hs
    exact Or.inr ⟨name', bytes, d, v, hh, hdv⟩

theorem Inv.create (h : Inv w) {size : Nat} {r : Option Nat}
    (hs : w.create name size fd addr = some (r, w')) : Inv w' := by
  unfold World.create at hs
  split_ifs at hs
  · cases hs
    exact h
  · exact h.init hs

theorem resize_unmapped (h : Unmapped w.obj) (n fd addr : Nat) :
    w.resize n fd addr = some (none, w) := by
  simp only [World.resize, h.ptr]

theorem Inv.step (h : Inv w) {a : Op N × Nat × Nat} {r : Option Nat} (hg : Positive w a)
    (hs : call w a.2.1 a.2.2 a.1 = some (r, w')) : Inv w' := by
  obtain ⟨op, fd, addr⟩ := a
  cases op with
  | map name => exact h.init hs
  | remap name => exact Inv.init (Or.inl h.unmap) hs
  | create name size => exact h.create hs
  | recreate name size => exact Inv.create (Or.inl h.unmap) hs
  | unmap =>
      cases hs
      exact Or.inl h.unmap
  | memcpy offset data =>
      obtain ⟨t, ht, he⟩ := Option.map_eq_some_iff.mp hs
      cases he
      rcases h with hu | ⟨name, bytes, d, v, hh, hdv⟩
      · unfold World.memcpy at ht
        split at ht
        · cases ht
        · rw [hu.mappings, List.any_nil, if_neg Bool.false_ne_true] at ht
          cases ht
      · exact Or.inr ⟨name, _, d, v, hh.memcpy ht, hdv⟩
  | resize n =>
      rcases h with hu | ⟨name, bytes, d, v, hh, hdv⟩
      · rw [show call w fd addr (.resize n) = _ from resize_unmapped hu n fd addr] at hs
        cases hs
        exact Or.inl hu
      · have hr := hh.resizing n fd addr
        rw [show w.resize n fd addr = _ from hs] at hr
        cases hr with
        | same => exact Or.inr ⟨name, bytes, d, v, hh, hdv⟩
        | truncated _ _ hh' => exact Or.inr ⟨name, _, true, true, hh', id⟩
        | readOnly hn hh' =>
            refine Or.inr ⟨name, bytes, d, false, hh', fun hd => ?_⟩
            exact absurd hn (hg (hh.created_iff.mpr hd))

/-- A writable map of a file, made from another one. -/
theorem resized_of_holds {bytes' : Bytes} {n : Nat} {v : Bool} (h : Holds w name bytes true v)
    (h' : Holds w' name bytes' true true) (hn : bytes'.length = n)
    (hk : bytes'.take (min bytes.length n) = bytes.take (min bytes.length n)) : Resized w n w' := by
  obtain ⟨addr, fd, faults, alive, hobj⟩ := h'.obj
  refine ⟨h'.size.trans hn, ?_, ?_, ?_, name, h'.file, fun fd addr => ?_⟩
  · rw [hobj]
    exact ⟨_, List.mem_singleton_self _, rfl, hn, rfl⟩
  · rw [h'.bytes_eq, hn]
  · rw [h'.bytes_eq, h.bytes_eq, h.size, hk]
  · have hcontent : resizeFile w'.files name 0 name = some bytes' := by
      rw [resizeFile_zero, h'.content]
    obtain ⟨t, ht, hh, -⟩ := init_of_content (w := World.new w'.files) ⟨rfl, rfl, rfl, rfl⟩ fd addr
      hcontent h'.nonempty
    exact ⟨t, ht, hh.size.trans hn, hh.bytes_eq.trans h'.bytes_eq.symm⟩

/-- After a step that is not a successful `resize` there is nothing to show. -/
theorem keeps_of_ne {files : N → Option Bytes} {tr : History N} {a : Op N × Nat × Nat}
    {r : Option Nat} (hne : ∀ n sys p, (a, r) ≠ ((.resize n, sys), some p)) :
    Keeps files (tr ++ [(a, r)]) w' := by
  intro pre n sys p w0 he
  have hl := (List.append_inj' he rfl).2
  exact absurd (List.singleton_inj.mp hl) (hne n sys p)

/-- What the last step has to do, if it was a successful `resize`. -/
theorem keeps_resize {files : N → Option Bytes} {tr : History N} {n p : Nat} {sys : Nat × Nat}
    (h : (mapped files).Trace tr w) :
    Keeps files (tr ++ [((.resize n, sys), some p)]) w' ↔ (Created w → Resized w n w') := by
  constructor
  · exact fun hk => hk tr n sys p w rfl h
  · intro hr pre n' sys' p' w0 he h0
    obtain ⟨rfl, hl⟩ := List.append_inj' he rfl
    cases hl
    rw [h0.unique h]
    exact hr

theorem keeps_step {files : N → Option Bytes} {tr : History N} {a : Op N × Nat × Nat}
    {r : Option Nat} (ht : (mapped files).Trace tr w) (h : Inv w)
    (hs : (mapped files).step w a = some (r, w')) :
    Keeps files (tr ++ [(a, r)]) w' ↔ Positive w a := by
  obtain ⟨op, fd, addr⟩ := a
  cases op with
  | resize n =>
      have hs : w.resize n fd addr = some (r, w') := hs
      rcases h with hu | ⟨name, bytes, d, v, hh, hdv⟩
      · rw [resize_unmapped hu] at hs
        cases hs
        refine iff_of_true (keeps_of_ne (by simp)) ?_
        rintro ⟨e, he, -⟩
        rw [hu.files] at he
        cases he
      have hr := hh.resizing n fd addr
      rw [hs] at hr
      obtain ⟨p, rfl⟩ : ∃ p, r = some p := by cases hr <;> exact ⟨_, rfl⟩
      rw [keeps_resize ht]
      show _ ↔ (Created w → n ≠ 0)
      refine imp_congr_right fun hc => ?_
      have hd := hh.created_iff.mp hc
      subst hd
      cases hr with
      | same p hn =>
          have hpos : n ≠ 0 := fun hz =>
            hh.nonempty (List.eq_nil_of_length_eq_zero (hn.symm.trans hz))
          rw [hdv rfl] at hh
          exact iff_of_true (resized_of_holds hh hh hn.symm rfl) hpos
      | truncated hpos _ hh' =>
          exact iff_of_true (resized_of_holds hh hh' (length_truncate bytes n)
            (take_truncate bytes n)) hpos.ne'
      | readOnly hn hh' =>
          -- the size is that of the file, which is not empty
          refine iff_of_false (fun hres => ?_) (not_not_intro hn)
          have hsize := hh'.size.symm.trans (hres.getSize.trans hn)
          exact hh.nonempty (List.eq_nil_of_length_eq_zero hsize)
  | map | remap | create | recreate | unmap | memcpy =>
      exact iff_of_true (keeps_of_ne (by simp)) trivial

/-- **`resize` gives the size and keeps the data, exactly if it is not called with 0.** This is for
all contents of the files and every sequence of calls in which the system calls succeed: whenever
`resize(n)` of a map that `create` or `recreate` has made returns an address, the size is `n`, the
map is writable, the bytes that the old and the new size have in common are kept, and an object that
maps the file later sees the same `n` bytes. -/
theorem resize_keeps_iff {files : N → Option Bytes} {tr : History N}
    (h : (mapped files).Trace tr w) :
    (mapped files).Always (Keeps files) tr ↔ (mapped files).Guarded Positive tr := by
  refine h.always_iff_guarded_of_inv Inv (inv_new files) ?_ ?_ ?_
  · intro pre n sys p w0 he
    simp at he
  · exact fun w a r w' hinv hg hs => hinv.step hg hs
  · exact fun tr w a r w' ht hinv _ hs => keeps_step ht hinv hs

/-- A file is created over an old one, written to, and grows. -/
def grown : List (Op Unit × Nat × Nat) :=
  [(.create () 2, 3, 4096), (.memcpy 1 [7], 0, 0), (.resize 4, 0, 8192), (.resize 3, 0, 4096)]

theorem resize_keeps_grown :
    ∃ tr w, (mapped fun _ : Unit => some [1, 2, 3]).Trace tr w ∧ tr.map Prod.fst = grown ∧
      w.obj.size = 3 ∧ w.bytes = [1, 7, 0] ∧
      (mapped fun _ : Unit => some [1, 2, 3]).Always (Keeps fun _ => some [1, 2, 3]) tr := by
  have htrace := Machine.Trace.of_run (M := mapped fun _ : Unit => some [1, 2, 3]) grown rfl
  refine ⟨_, _, htrace, rfl, rfl, rfl, (resize_keeps_iff htrace).mpr ?_⟩
  refine Machine.guarded_of_run (M := mapped fun _ : Unit => some [1, 2, 3]) (G := Positive) grown
    rfl ?_
  refine ⟨trivial, fun r1 h1 => ?_⟩
  cases h1
  refine ⟨trivial, fun r2 h2 => ?_⟩
  cases h2
  refine ⟨fun _ => Nat.succ_ne_zero _, fun r3 h3 => ?_⟩
  cases h3
  exact ⟨fun _ => Nat.succ_ne_zero _, fun _ _ => trivial⟩

/-- `resize(0)` of a map of two bytes returns an address, but the size is still 2 and the map cannot
be written to any more; nor can it after a `resize(2)`, which returns the same address. -/
theorem resize_zero_read_only :
    ∃ tr w w', (mapped fun _ : Unit => none).Trace tr w ∧
      tr = [((.create () 2, 3, 4096), some 4096), ((.resize 0, 0, 8192), some 8192)] ∧
      w.obj.size = 2 ∧ w.obj.sys.mappings = [⟨8192, 2, 3, false⟩] ∧
      call w 0 4096 (.resize 2) = some (some 8192, w') ∧
      w'.obj.sys.mappings = [⟨8192, 2, 3, false⟩] ∧ ∀ b, call w' 0 0 (.memcpy 0 [b]) = none :=
  ⟨_, _, _, Machine.Trace.of_run (M := mapped fun _ : Unit => none)
    [(.create () 2, 3, 4096), (.resize 0, 0, 8192)] rfl, rfl, rfl, rfl, rfl, rfl, fun _ => rfl⟩

end Lunchbox.MemoryMap.Files
