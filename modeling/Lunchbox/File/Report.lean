import Lunchbox.File

set_option autoImplicit false

/-! # How saving and loading report failure

The four functions of `file.cpp` where system calls may fail. All of them test the address of the
`MemoryMap` that they have constructed and return false without one. But the constructors have their
own policy: they throw if there is no map. So a file that cannot be opened, sized or mapped, and an
empty one, is never reported by the result, and neither is an object without any JSON, whose file
would have no bytes to map. What `fromBinary` and `fromJSON` return is not looked at.

`reports_iff` says for which files, objects and answers of the system the result is what `file.h`
documents. Where the system calls succeed, `saveBinary` and `loadBinary` are those of `File.lean`.
-/

namespace Lunchbox.File.Report

open MemoryMap MemoryMap.Files Function

/-- `servus::Serializable` with its JSON representation. -/
structure Document (U σ : Type) extends Serializable U σ where
  toJSON : σ → Bytes
  fromJSON : σ → Bytes → Bool × σ

/-- What the system decides: whether a file that is there, or is created, can be opened and
truncated, and whether one that is not empty can be mapped. -/
structure Answers where
  openFd : Option Nat
  ftruncateOk : Bool
  mmapAddr : Option Nat

/-! ## The constructors -/

variable {N : Type} [DecidableEq N]

/-- The files after `open`, which has `O_CREAT` for a size other than 0, and `ftruncate`. -/
def sized (files : N → Option Bytes) (name : N) (size : Nat) (sys : Answers) : N → Option Bytes :=
  if size > 0 ∧ sys.openFd.isSome then
    if sys.ftruncateOk then resizeFile files name size
    else update files name (some ((files name).getD []))
  else files

/-- The answers to the calls of `init`, by the files after `open` and `ftruncate`. -/
def environment (files : N → Option Bytes) (name : N) (sys : Answers) : Env where
  openFd := (files name).bind fun _ => sys.openFd
  ftruncateOk := sys.ftruncateOk
  stSize := ((files name).getD []).length
  mmapAddr := sys.mmapAddr

/-- `init`, also if a system call fails. -/
def init (w : World N) (name : N) (size : Nat) (sys : Answers) : Option Nat × World N :=
  if w.obj.ptr.isSome then (none, w)
  else
    let files := sized w.files name size sys
    match w.obj.init (environment files name sys) size with
    | (none, obj) => (none, ⟨obj, w.file, files⟩)
    | (some p, obj) => (some p, ⟨obj, some name, files⟩)

def create (w : World N) (name : N) (size : Nat) (sys : Answers) : Option Nat × World N :=
  if size = 0 then (none, w) else init w name size sys

/-- `MemoryMap(filename)` -/
def mapOf (files : N → Option Bytes) (name : N) (sys : Answers) : Except Failure (World N) :=
  construct (some (init (World.new files) name 0 sys)) "Can't map file"

/-- `MemoryMap(filename, size)` -/
def createOf (files : N → Option Bytes) (name : N) (size : Nat) (sys : Answers) :
    Except Failure (World N) :=
  construct (some (create (World.new files) name size sys)) "Can't create file"

/-! ## The functions -/

section Functions

variable {U σ : Type} [Uint128 U] [DecidableEq U] (S : Document U σ) (object : σ)
  (files : N → Option Bytes) (file : N) (sys : Answers)

def saveBinary : Except Failure (Bool × (N → Option Bytes)) := do
  let data := S.toBinary object
  let mmap ← createOf files file (sizeofUint128 + data.length) sys
  if mmap.obj.ptr.isNone then return (false, mmap.unmap.files)
  let id := S.getTypeIdentifier object
  let mmap ← written (mmap.memcpy 0 (Uint128.bytes id))
  let mmap ← written (mmap.memcpy sizeofUint128 data)
  return (true, mmap.unmap.files)

def loadBinary : Except Failure (Bool × σ) := do
  let mmap ← mapOf files file sys
  if mmap.obj.ptr.isNone ∨ mmap.obj.size < sizeofUint128 ∨
      Uint128.read mmap.bytes ≠ S.getTypeIdentifier object then
    return (false, object)
  let (_, object) := S.fromBinary object
    ((mmap.bytes.drop sizeofUint128).take (mmap.obj.size - sizeofUint128))
  return (true, object)

def saveAscii : Except Failure (Bool × (N → Option Bytes)) := do
  let data := S.toJSON object
  let mmap ← createOf files file data.length sys
  if mmap.obj.ptr.isNone then return (false, mmap.unmap.files)
  let mmap ← written (mmap.memcpy 0 data)
  return (true, mmap.unmap.files)

def loadAscii : Except Failure (Bool × σ) := do
  let mmap ← mapOf files file sys
  if mmap.obj.ptr.isNone then return (false, object)
  let (_, object) := S.fromJSON object (mmap.bytes.take mmap.obj.size)
  return (true, object)

end Functions

/-! ## What they should report -/

/-- A save returns, and true if and only if the file has the contents that were to be saved. -/
def Saves (file : N) (content : Bytes) (r : Except Failure (Bool × (N → Option Bytes))) : Prop :=
  ∃ b files', r = .ok (b, files') ∧ (b = true ↔ files' file = some content)

/-- A load returns true and the loaded object, or false and the object as it was. -/
def Loads {σ : Type} (object : σ) (loaded : Option σ) (r : Except Failure (Bool × σ)) : Prop :=
  match loaded with
  | some o => r = .ok (true, o)
  | none => r = .ok (false, object)

/-- What can be read of a file: nothing, if it is not there, cannot be opened or mapped, or is
empty. -/
def contents (files : N → Option Bytes) (file : N) (sys : Answers) : Option Bytes :=
  (files file).filter fun bytes =>
    sys.openFd.isSome && sys.mmapAddr.isSome && decide (bytes ≠ [])

/-- An object, if it was read. -/
def accepted {σ : Type} : Bool × σ → Option σ
  | (true, o) => some o
  | (false, _) => none

section Loaded

variable {U σ : Type} [Uint128 U] [DecidableEq U] (S : Document U σ) (object : σ)

/-- The contents are those of a binary file for the object. -/
def HasHeader (bytes : Bytes) : Prop :=
  sizeofUint128 ≤ bytes.length ∧ Uint128.read bytes = S.getTypeIdentifier object

instance (bytes : Bytes) : Decidable (HasHeader S object bytes) :=
  inferInstanceAs (Decidable (_ ∧ _))

/-- The object of a binary file with these contents. -/
def loadedBinary (bytes : Bytes) : Option σ :=
  if HasHeader S object bytes then accepted (S.fromBinary object (bytes.drop sizeofUint128))
  else none

/-- The object of a JSON file with these contents. -/
def loadedAscii (bytes : Bytes) : Option σ := accepted (S.fromJSON object bytes)

end Loaded

/-- A file can be opened for writing, sized and mapped. -/
def Answers.Creates (sys : Answers) : Prop :=
  sys.openFd.isSome = true ∧ sys.ftruncateOk = true ∧ sys.mmapAddr.isSome = true

instance (sys : Answers) : Decidable sys.Creates := inferInstanceAs (Decidable (_ ∧ _))

theorem Answers.Creates.eq {sys : Answers} (h : sys.Creates) :
    ∃ fd addr, sys = ⟨some fd, true, some addr⟩ := by
  obtain ⟨openFd, ok, mmapAddr⟩ := sys
  obtain ⟨ho, rfl, ha⟩ := h
  obtain ⟨fd, rfl⟩ := Option.isSome_iff_exists.mp ho
  obtain ⟨addr, rfl⟩ := Option.isSome_iff_exists.mp ha
  exact ⟨fd, addr, rfl⟩

/-! ## Maps -/

variable {w : World N} {name : N} {size : Nat} {sys : Answers} {what : String}

omit [DecidableEq N] in
theorem construct_none {r : Option Nat × World N} (h : r.1 = none) :
    construct (some r) what = .error (.runtimeError what) := by
  obtain ⟨p, w⟩ := r
  cases h
  rfl

/-- `init` returns what the `init` of the object returns. -/
theorem init_fst (hptr : w.obj.ptr = none) :
    (init w name size sys).1
      = (w.obj.init (environment (sized w.files name size sys) name sys) size).1 := by
  simp only [init, hptr, Option.isSome_none, Bool.false_eq_true, if_false]
  split
  · next h => rw [h]
  · next h => rw [h]

/-- Without an address there is no map. -/
theorem mapFile_no_addr (s : State) {env : Env} (h : env.mmapAddr = none) :
    (s.mapFile env size).1 = none := by
  unfold State.mapFile
  split_ifs
  · rfl
  · rw [h]
    rfl

theorem mapFile_no_truncate (s : State) {env : Env} (hpos : 0 < size)
    (h : env.ftruncateOk = false) : (s.mapFile env size).1 = none := by
  have hfails : (decide (size > 0) && !s.sys.ftruncate s.map env.ftruncateOk) = true := by
    simp [System.ftruncate, h, hpos]
  rw [State.mapFile, if_pos hfails]

/-- No answer of the others makes up for a call that fails. -/
theorem init_fails (s : State) {env : Env}
    (h : env.openFd = none ∨ (0 < size ∧ env.ftruncateOk = false) ∨ env.mmapAddr = none) :
    (s.init env size).1 = none := by
  unfold State.init
  split_ifs
  · rfl
  · simp only [State.openFile]
    split_ifs with hfd
    · rfl
    · rcases h with hopen | ⟨hpos, htrunc⟩ | haddr
      · rw [hopen] at hfd
        simp [System.open] at hfd
      · exact mapFile_no_truncate _ hpos htrunc
      · exact mapFile_no_addr _ haddr

/-- **A map for writing is refused** if one of its system calls fails. -/
theorem createOf_throws (files : N → Option Bytes) (h : ¬ (sys.Creates ∧ 0 < size)) :
    createOf files name size sys = .error (.runtimeError "Can't create file") := by
  refine construct_none ?_
  unfold create
  split_ifs with hz
  · rfl
  have hpos : 0 < size := Nat.pos_of_ne_zero hz
  have hfail : ¬ sys.Creates := fun hc => h ⟨hc, hpos⟩
  -- one of the three calls fails, and the first of them that does decides
  rw [init_fst rfl]
  apply init_fails
  rcases ho : sys.openFd with _ | fd
  · left
    simp [environment, ho]
  rcases ht : sys.ftruncateOk with _ | _
  · exact .inr (.inl ⟨hpos, ht⟩)
  rcases ha : sys.mmapAddr with _ | addr
  · exact .inr (.inr ha)
  · exact absurd ⟨by rw [ho]; rfl, ht, by rw [ha]; rfl⟩ hfail

omit [DecidableEq N] in
/-- Where the system calls succeed, the answers are those of `Files.lean`. -/
theorem environment_eq_answers (files : N → Option Bytes) (fd addr : Nat) :
    environment files name ⟨some fd, true, some addr⟩ = answers files name fd addr := by
  cases h : files name <;> simp [environment, answers, h]

theorem sized_eq_resizeFile (files : N → Option Bytes) (fd addr : Nat) :
    sized files name size ⟨some fd, true, some addr⟩ = resizeFile files name size := by
  by_cases hpos : size > 0 <;> simp [sized, resizeFile, hpos]

/-- **Where the system calls succeed**, a map is that of `Files.lean`. -/
theorem construct_init (fd addr : Nat) :
    construct (some (init w name size ⟨some fd, true, some addr⟩)) what
      = construct (w.init name size fd addr) what := by
  unfold init World.init
  split_ifs
  · rfl
  · simp only [sized_eq_resizeFile, environment_eq_answers]
    rcases w.obj.init (answers (resizeFile w.files name size) name fd addr) size with ⟨_ | p, obj⟩
    · rfl
    · rfl

theorem construct_create (fd addr : Nat) :
    construct (some (create w name size ⟨some fd, true, some addr⟩)) what
      = construct (w.create name size fd addr) what := by
  unfold create World.create
  split_ifs
  · rfl
  · exact construct_init fd addr

/-- A map of an existing file is not truncated. -/
theorem init_zero (fd addr : Option Nat) (b : Bool) :
    init w name 0 ⟨fd, b, addr⟩ = init w name 0 ⟨fd, true, addr⟩ := by
  simp only [init, sized, gt_iff_lt, lt_irrefl, false_and, if_false, environment, State.init,
    State.openFile, State.mapFile, decide_false, Bool.false_and]

/-! ## What the functions do -/

section Equations

variable {U σ : Type} [Uint128 U] [DecidableEq U] (S : Document U σ) (object : σ)
  {files : N → Option Bytes} {file : N} {bytes : Bytes}

omit [DecidableEq N] in
theorem contents_eq_some (h : contents files file sys = some bytes) :
    ∃ fd addr, sys = ⟨some fd, sys.ftruncateOk, some addr⟩ ∧ files file = some bytes ∧
      bytes ≠ [] := by
  obtain ⟨hb, hcond⟩ := Option.filter_eq_some_iff.mp h
  obtain ⟨openFd, ok, mmapAddr⟩ := sys
  simp only [Bool.and_eq_true, decide_eq_true_eq, Option.isSome_iff_exists] at hcond
  obtain ⟨⟨⟨fd, rfl⟩, ⟨addr, rfl⟩⟩, hne⟩ := hcond
  exact ⟨fd, addr, rfl, hb, hne⟩

/-- **A map of an existing file is refused** if nothing can be read of it. -/
theorem mapOf_throws (h : contents files file sys = none) :
    mapOf files file sys = .error (.runtimeError "Can't map file") := by
  obtain ⟨openFd, ok, mmapAddr⟩ := sys
  rcases openFd with _ | fd
  · -- a file that is there but cannot be opened
    refine construct_none ((init_fst rfl).trans (init_fails _ (.inl ?_)))
    simp [environment]
  rcases mmapAddr with _ | addr
  · exact construct_none ((init_fst rfl).trans (init_fails _ (.inr (.inr rfl))))
  -- both calls succeed, so that the file is not there or is empty
  rw [mapOf, init_zero, construct_init, init_refused (unmapped_new files)]
  · rfl
  · have hempty : ∀ bytes, files file = some bytes → bytes = [] := by
      simpa [contents, Option.filter_eq_none_iff] using h
    rw [resizeFile_zero]
    cases hf : files file with
    | none => exact congrArg (Option.getD · []) hf
    | some bytes => exact (congrArg (Option.getD · []) hf).trans (hempty bytes hf)

theorem mapOf_maps (h : contents files file sys = some bytes) :
    ∃ w, mapOf files file sys = .ok w ∧ Holds w file bytes false false := by
  obtain ⟨fd, addr, hsys, hb, hne⟩ := contents_eq_some h
  obtain ⟨w, hw, hh, -⟩ := init_of_content (unmapped_new files) fd addr
    (show resizeFile files file 0 file = some bytes by rw [resizeFile_zero, hb]) hne
  refine ⟨w, ?_, hh⟩
  rw [hsys, mapOf, init_zero, construct_init, hw]
  rfl

theorem createOf_maps (files : N → Option Bytes) (file : N) (h : sys.Creates) (hpos : 0 < size) :
    ∃ w, createOf files file size sys = .ok w ∧
      Holds w file (truncate ((files file).getD []) size) true true ∧
      w.files = update files file (some (truncate ((files file).getD []) size)) := by
  obtain ⟨fd, addr, rfl⟩ := h.eq
  have hne : truncate ((files file).getD []) size ≠ [] := by
    rw [← List.length_pos_iff, length_truncate]
    exact hpos
  obtain ⟨w, hw, hh, hfiles⟩ := init_of_content (unmapped_new files) fd addr
    (show resizeFile files file size file = some _ by
      rw [resizeFile_pos files file hpos, update_self]) hne
  have hwrite : decide (size ≠ 0) = true := decide_eq_true hpos.ne'
  rw [hwrite] at hh
  refine ⟨w, ?_, hh, hfiles.trans (resizeFile_pos files file hpos)⟩
  rw [createOf, construct_create, World.create, if_neg hpos.ne', hw]
  rfl

omit [DecidableEq U] in
/-- `saveBinary` is that of `File.lean`. -/
theorem saveBinary_success (files : N → Option Bytes) (file : N) (fd addr : Nat) :
    saveBinary S object files file ⟨some fd, true, some addr⟩
      = File.saveBinary S.toSerializable object files file fd addr := by
  simp only [saveBinary, createOf, construct_create]
  rfl

/-- `loadBinary` is that of `File.lean`. -/
theorem loadBinary_success (files : N → Option Bytes) (file : N) (fd addr : Nat) (b : Bool) :
    loadBinary S object files file ⟨some fd, b, some addr⟩
      = File.loadBinary S.toSerializable object files file fd addr := by
  simp only [loadBinary, mapOf, init_zero, construct_init]
  rfl

omit [DecidableEq U] in
/-- **What `saveBinary` does:** the file has the identifier and the data, or the constructor of the
map throws. -/
theorem saveBinary_eq (files : N → Option Bytes) (file : N) (sys : Answers) :
    saveBinary S object files file sys
      = if sys.Creates then .ok (true, update files file
          (some (Uint128.bytes (S.getTypeIdentifier object) ++ S.toBinary object)))
        else .error (.runtimeError "Can't create file") := by
  split_ifs with h
  · obtain ⟨fd, addr, rfl⟩ := h.eq
    rw [saveBinary_success]
    exact File.saveBinary_eq S.toSerializable object files file fd addr
  · simp only [saveBinary, createOf_throws files fun hc => h hc.1]
    rfl

omit [Uint128 U] [DecidableEq U] in
/-- **What `saveAscii` does.** An object without JSON has no file. -/
theorem saveAscii_eq (files : N → Option Bytes) (file : N) (sys : Answers) :
    saveAscii S object files file sys
      = if sys.Creates ∧ S.toJSON object ≠ [] then
          .ok (true, update files file (some (S.toJSON object)))
        else .error (.runtimeError "Can't create file") := by
  generalize hdata : S.toJSON object = data
  have hiff : 0 < data.length ↔ data ≠ [] := List.length_pos_iff
  split_ifs with h
  · obtain ⟨hc, hne⟩ := h
    obtain ⟨w, hw, hh, hfiles⟩ := createOf_maps files file hc (hiff.mpr hne)
    have hlen : (truncate ((files file).getD []) data.length).length = data.length :=
      length_truncate _ _
    have hmemcpy := hh.memcpy_eq 0 data
    rw [if_pos ⟨rfl, by omega⟩, hfiles, update_idem] at hmemcpy
    -- the data covers the whole map, so nothing of the old file is left
    have hfinal : put (truncate ((files file).getD []) data.length) data 0 = data := by
      rw [put, Nat.zero_add, List.drop_of_length_le hlen.le]
      simp
    simp only [saveAscii, hdata, hw, hh.ptr_isNone, written, hmemcpy, hfinal, bind, Except.bind,
      pure, Except.pure, World.unmap, Bool.false_eq_true, if_false]
  · simp only [saveAscii, hdata, createOf_throws files fun hc => h (hc.imp_right hiff.mp)]
    rfl

/-- **What `loadBinary` does:** it looks at the header of what it can read, and throws if it can
read nothing. -/
theorem loadBinary_eq (files : N → Option Bytes) (file : N) (sys : Answers) :
    loadBinary S object files file sys
      = match contents files file sys with
        | none => .error (.runtimeError "Can't map file")
        | some bytes => .ok (if HasHeader S object bytes
            then (true, (S.fromBinary object (bytes.drop sizeofUint128)).2)
            else (false, object)) := by
  cases hc : contents files file sys with
  | none =>
      simp only [loadBinary, mapOf_throws hc]
      rfl
  | some bytes =>
      obtain ⟨fd, addr, hsys, hb, hne⟩ := contents_eq_some hc
      rw [hsys, loadBinary_success, File.loadBinary_eq S.toSerializable object hb hne]
      congr 1
      by_cases hh : HasHeader S object bytes
      · rw [if_pos hh, if_neg (not_or.mpr ⟨not_lt.mpr hh.1, not_not_intro hh.2⟩)]
      · rw [if_neg hh, if_pos]
        by_contra hn
        obtain ⟨hlen, hid⟩ := not_or.mp hn
        exact hh ⟨not_lt.mp hlen, not_not.mp hid⟩

omit [Uint128 U] [DecidableEq U] in
/-- **What `loadAscii` does.** -/
theorem loadAscii_eq (files : N → Option Bytes) (file : N) (sys : Answers) :
    loadAscii S object files file sys
      = match contents files file sys with
        | none => .error (.runtimeError "Can't map file")
        | some bytes => .ok (true, (S.fromJSON object bytes).2) := by
  cases hc : contents files file sys with
  | none =>
      simp only [loadAscii, mapOf_throws hc]
      rfl
  | some bytes =>
      obtain ⟨w, hw, hh⟩ := mapOf_maps hc
      simp only [loadAscii, hw, hh.ptr_isNone, hh.size, hh.bytes_eq, List.take_length, bind,
        Except.bind, pure, Except.pure, Bool.false_eq_true, if_false]

end Equations

/-! ## When the results report -/

section Reports

variable {U σ : Type} [Uint128 U] [DecidableEq U]

/-- Saving reports what it does unless it throws. -/
theorem saves_iff (c : Prop) [Decidable c] (files : N → Option Bytes) (file : N) (content : Bytes)
    (e : Failure) :
    Saves file content (if c then .ok (true, update files file (some content)) else .error e)
      ↔ c := by
  split_ifs with h
  · exact iff_of_true ⟨true, _, rfl, iff_of_true rfl (update_self _ _ _)⟩ h
  · refine iff_of_false ?_ h
    rintro ⟨b, files', he, -⟩
    cases he

/-- Returning true whatever was read is right if it was accepted. -/
theorem loads_accepted_iff (object : σ) (r : Bool × σ) :
    Loads object (accepted r) (.ok (true, r.2)) ↔ r.1 = true := by
  obtain ⟨_ | _, o⟩ := r <;> simp [Loads, accepted]

theorem not_loads_error (object : σ) (loaded : Option σ) (e : Failure) :
    ¬ Loads object loaded (.error e) := by
  intro h
  unfold Loads at h
  split at h <;> cases h

/-- **When saving and loading report by their result.** For every object, all files and all answers
of the system: saving returns, and true exactly if the file has what was to be saved, if and only if
the system calls succeed and the file would not be empty. Loading returns true and the loaded
object, or false and the object as it was, if and only if the file is there, can be opened and
mapped and is not empty, and what is passed to `fromBinary` or `fromJSON` is accepted. -/
theorem reports_iff (S : Document U σ) (object : σ) (files : N → Option Bytes) (file : N)
    (sys : Answers) :
    (Saves file (Uint128.bytes (S.getTypeIdentifier object) ++ S.toBinary object)
        (saveBinary S object files file sys) ↔ sys.Creates) ∧
    (Saves file (S.toJSON object) (saveAscii S object files file sys) ↔
      sys.Creates ∧ S.toJSON object ≠ []) ∧
    (Loads object ((contents files file sys).bind (loadedBinary S object))
        (loadBinary S object files file sys) ↔
      ∃ bytes, contents files file sys = some bytes ∧ (HasHeader S object bytes →
        (S.fromBinary object (bytes.drop sizeofUint128)).1 = true)) ∧
    (Loads object ((contents files file sys).bind (loadedAscii S object))
        (loadAscii S object files file sys) ↔
      ∃ bytes, contents files file sys = some bytes ∧ (S.fromJSON object bytes).1 = true) := by
  rw [saveBinary_eq, saveAscii_eq, loadBinary_eq, loadAscii_eq]
  refine ⟨saves_iff _ _ _ _ _, saves_iff _ _ _ _ _, ?_, ?_⟩
  · cases contents files file sys with
    | none => exact iff_of_false (not_loads_error _ _ _) (by rintro ⟨_, he, -⟩; cases he)
    | some bytes =>
        simp only [Option.bind_some, Option.some.injEq, exists_eq_left', loadedBinary]
        by_cases hh : HasHeader S object bytes
        · simp only [hh, true_implies]
          exact loads_accepted_iff _ _
        · simp only [hh, false_implies, iff_true]
          rfl
  · cases contents files file sys with
    | none => exact iff_of_false (not_loads_error _ _ _) (by rintro ⟨_, he, -⟩; cases he)
    | some bytes =>
        simp only [Option.bind_some, Option.some.injEq, exists_eq_left', loadedAscii]
        exact loads_accepted_iff _ _

/-- An object whose JSON is empty and which accepts nothing. -/
def blank : Document { id : Bytes // id.length = sizeofUint128 } Unit where
  getTypeIdentifier _ := ⟨List.replicate 16 0, rfl⟩
  toBinary _ := []
  fromBinary o _ := (false, o)
  toJSON _ := []
  fromJSON o _ := (false, o)

/-- Loading a file that is not there and saving empty JSON throw, although the system would answer
every call; a text that is not accepted is reported as loaded. -/
theorem reports_thrown :
    loadBinary blank () (fun _ : Unit => none) () ⟨some 3, true, some 4096⟩
      = .error (.runtimeError "Can't map file") ∧
    saveAscii blank () (fun _ : Unit => none) () ⟨some 3, true, some 4096⟩
      = .error (.runtimeError "Can't create file") ∧
    loadAscii blank () (fun _ : Unit => some [0]) () ⟨some 3, true, some 4096⟩ = .ok (true, ()) ∧
    ¬ Loads () none (loadBinary blank () (fun _ : Unit => none) () ⟨some 3, true, some 4096⟩) ∧
    ¬ Saves () [] (saveAscii blank () (fun _ : Unit => none) () ⟨some 3, true, some 4096⟩) ∧
    ¬ Loads () (loadedAscii blank () [0])
      (loadAscii blank () (fun _ : Unit => some [0]) () ⟨some 3, true, some 4096⟩) := by
  refine ⟨rfl, rfl, rfl, not_loads_error _ _ _, ?_, ?_⟩
  · rintro ⟨b, files', he, -⟩
    cases he
  · intro h
    cases h

end Reports

end Lunchbox.File.Report
