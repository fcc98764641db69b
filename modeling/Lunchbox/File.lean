import Lunchbox.MemoryMap.Files

set_option autoImplicit false

/-! # `saveBinary` and `loadBinary`

The binary files of serializable objects (`file.cpp`): the 16 bytes of the type identifier of the
object, then the bytes of `toBinary`. `saveBinary` creates a map of exactly this size over the file,
whatever was there before, and `loadBinary` reads the file through a read-only map and compares the
identifier before it passes the rest to `fromBinary`. The two are inverse (`load_save_binary`).
-/

namespace Lunchbox.File

open MemoryMap MemoryMap.Files Function

/-! ## Identifiers in memory -/

def sizeofUint128 : Nat := 16

/-- `servus::uint128_t` is not part of the repository. It is a type of 16 bytes, which is compared
in memory: the value at the begin of the bytes is the one that was copied there. -/
class Uint128 (U : Type) where
  bytes : U → Bytes
  read : Bytes → U
  length_bytes : ∀ id, (bytes id).length = sizeofUint128
  read_bytes : ∀ id rest, read (bytes id ++ rest) = id

/-! ## The functions -/

/-- `servus::Serializable`, implemented by the type `σ`. -/
structure Serializable (U σ : Type) where
  getTypeIdentifier : σ → U
  toBinary : σ → Bytes
  fromBinary : σ → Bytes → Bool × σ

/-- A function is left by an exception, or it writes to memory that it must not write to. -/
inductive Failure
  | runtimeError (what : String)
  | fault

variable {N : Type}

/-- The constructors of `MemoryMap` throw if there is no map. -/
def construct (r : Option (Option Nat × World N)) (what : String) : Except Failure (World N) :=
  match r with
  | some (some _, w) => .ok w
  | _ => .error (.runtimeError what)

def written (r : Option (World N)) : Except Failure (World N) :=
  match r with
  | some w => .ok w
  | none => .error .fault

variable [DecidableEq N] {U σ τ : Type} [Uint128 U] [DecidableEq U]

/-- `saveBinary`, and the files after it; the map is destructed at its end. -/
def saveBinary (S : Serializable U σ) (object : σ) (files : N → Option Bytes) (file : N)
    (fd addr : Nat) : Except Failure (Bool × (N → Option Bytes)) := do
  let data := S.toBinary object
  let mmap ← construct ((World.new files).create file (sizeofUint128 + data.length) fd addr)
    "Can't create file"
  if mmap.obj.ptr.isNone then return (false, mmap.unmap.files)
  let id := S.getTypeIdentifier object
  let mmap ← written (mmap.memcpy 0 (Uint128.bytes id))
  let mmap ← written (mmap.memcpy sizeofUint128 data)
  return (true, mmap.unmap.files)

/-- `loadBinary`, and the object after it; what `fromBinary` returns is not looked at. -/
def loadBinary (S : Serializable U σ) (object : σ) (files : N → Option Bytes) (file : N)
    (fd addr : Nat) : Except Failure (Bool × σ) := do
  let mmap ← construct ((World.new files).init file 0 fd addr) "Can't map file"
  if mmap.obj.ptr.isNone ∨ mmap.obj.size < sizeofUint128 ∨
      Uint128.read mmap.bytes ≠ S.getTypeIdentifier object then
    return (false, object)
  let (_, object) := S.fromBinary object
    ((mmap.bytes.drop sizeofUint128).take (mmap.obj.size - sizeofUint128))
  return (true, object)

/-! ## What they do to the file -/

omit [DecidableEq N] in
theorem unmapped_new (files : N → Option Bytes) : Unmapped (World.new files).obj :=
  ⟨rfl, rfl, rfl, rfl⟩

/-- Writing an identifier and the data behind it over as many bytes leaves nothing of them. -/
theorem put_put {bytes id data : Bytes} (h : bytes.length = id.length + data.length) :
    put (put bytes id 0) data id.length = id ++ data := by
  have h0 : put bytes id 0 = id ++ bytes.drop id.length := by simp [put]
  have hend : (bytes.drop id.length).drop data.length = [] := by
    rw [List.drop_drop]
    exact List.drop_of_length_le (by omega)
  rw [h0, put, List.take_left' rfl, ← List.drop_drop, List.drop_left' rfl, hend, List.append_nil]

omit [DecidableEq U] in
/-- **The file after `saveBinary`** is the identifier and the data, and no other file changes. -/
theorem saveBinary_eq (S : Serializable U σ) (object : σ) (files : N → Option Bytes) (file : N)
    (fd addr : Nat) :
    saveBinary S object files file fd addr = .ok (true, update files file
      (some (Uint128.bytes (S.getTypeIdentifier object) ++ S.toBinary object))) := by
  generalize hid : S.getTypeIdentifier object = id
  generalize hdata : S.toBinary object = data
  have hpos : 0 < sizeofUint128 + data.length := Nat.add_pos_left (by decide) _
  let old := truncate ((files file).getD []) (sizeofUint128 + data.length)
  have hlen : old.length = (Uint128.bytes id).length + data.length := by
    rw [length_truncate, Uint128.length_bytes]
  have hne : old ≠ [] := by
    intro he
    rw [he, List.length_nil, Uint128.length_bytes] at hlen
    omega
  obtain ⟨w, hw, hh, hfiles⟩ := init_of_content (unmapped_new files) fd addr
    (show resizeFile files file (sizeofUint128 + data.length) file = some old by
      rw [resizeFile_pos files file hpos, update_self]) hne
  have hcreate : (World.new files).create file (sizeofUint128 + data.length) fd addr
      = some (some addr, w) := by
    rw [World.create, if_neg hpos.ne', hw]
  have hwrite : decide (sizeofUint128 + data.length ≠ 0) = true := decide_eq_true hpos.ne'
  rw [hwrite] at hh
  have hid0 : 0 + (Uint128.bytes id).length ≤ old.length := by omega
  have hh1 := hh.write hid0
  have hdata1 : sizeofUint128 + data.length ≤ (put old (Uint128.bytes id) 0).length := by
    rw [length_put hid0, hlen, Uint128.length_bytes]
  have hfinal : put (put old (Uint128.bytes id) 0) data sizeofUint128
      = Uint128.bytes id ++ data := by
    rw [← Uint128.length_bytes id]
    exact put_put hlen
  have hmemcpy := hh.memcpy_eq 0 (Uint128.bytes id)
  rw [if_pos ⟨rfl, hid0⟩] at hmemcpy
  have hmemcpy1 := hh1.memcpy_eq sizeofUint128 data
  rw [if_pos ⟨rfl, hdata1⟩, hfinal] at hmemcpy1
  simp only [saveBinary, hdata, hid, hcreate, construct, hh.ptr_isNone, written, hmemcpy,
    hmemcpy1, bind, Except.bind, pure, Except.pure, World.unmap, Bool.false_eq_true, if_false,
    update_idem]
  rw [hfiles, resizeFile_pos _ _ hpos, update_idem]
  rfl

/-- **What `loadBinary` does with the contents of a file** that can be mapped. -/
theorem loadBinary_eq (S : Serializable U σ) (object : σ) {files : N → Option Bytes} {file : N}
    {bytes : Bytes} (hb : files file = some bytes) (hne : bytes ≠ []) (fd addr : Nat) :
    loadBinary S object files file fd addr
      = .ok (if bytes.length < sizeofUint128 ∨ Uint128.read bytes ≠ S.getTypeIdentifier object
          then (false, object)
          else (true, (S.fromBinary object (bytes.drop sizeofUint128)).2)) := by
  obtain ⟨w, hw, hh, -⟩ := init_of_content (unmapped_new files) fd addr
    (show resizeFile files file 0 file = some bytes by rw [resizeFile_zero, hb]) hne
  have hrest : (bytes.drop sizeofUint128).take (bytes.length - sizeofUint128)
      = bytes.drop sizeofUint128 := by
    rw [← List.length_drop, List.take_length]
  simp only [loadBinary, hw, construct, hh.ptr_isNone, hh.size, hh.bytes_eq, hrest, bind,
    Except.bind, pure, Except.pure, Bool.false_eq_true, false_or]
  split_ifs <;> rfl

/-- **`saveBinary` and `loadBinary` are inverse.** Whatever the file was before, after `saveBinary`
an object with the same type identifier is loaded with exactly the bytes that were saved; one with
another identifier, and any object from a file of fewer than 16 bytes that can be mapped, is left
as it is, and `loadBinary` returns false. -/
theorem load_save_binary (S : Serializable U σ) (T : Serializable U τ) (saved : σ) (object : τ)
    (files : N → Option Bytes) (file : N) (fd addr fd' addr' : Nat) :
    (∃ files', saveBinary S saved files file fd addr = .ok (true, files') ∧
      (T.getTypeIdentifier object = S.getTypeIdentifier saved →
        loadBinary T object files' file fd' addr'
          = .ok (true, (T.fromBinary object (S.toBinary saved)).2)) ∧
      (T.getTypeIdentifier object ≠ S.getTypeIdentifier saved →
        loadBinary T object files' file fd' addr' = .ok (false, object))) ∧
    ∀ bytes, files file = some bytes → bytes ≠ [] → bytes.length < sizeofUint128 →
      loadBinary T object files file fd' addr' = .ok (false, object) := by
  refine ⟨⟨_, saveBinary_eq S saved files file fd addr, ?_⟩, ?_⟩
  · generalize S.getTypeIdentifier saved = id
    generalize S.toBinary saved = data
    have hlen : (Uint128.bytes id ++ data).length = sizeofUint128 + data.length := by
      rw [List.length_append, Uint128.length_bytes]
    have hne : Uint128.bytes id ++ data ≠ [] := by
      intro he
      rw [he, List.length_nil, sizeofUint128] at hlen
      omega
    have hshort : ¬ (Uint128.bytes id ++ data).length < sizeofUint128 := by omega
    have hrest : (Uint128.bytes id ++ data).drop sizeofUint128 = data :=
      List.drop_left' (Uint128.length_bytes id)
    rw [loadBinary_eq T object (update_self file _ files) hne, Uint128.read_bytes, hrest]
    constructor
    · intro hid
      rw [if_neg (not_or.mpr ⟨hshort, not_not_intro hid.symm⟩)]
    · intro hid
      rw [if_pos (Or.inr hid.symm)]
  · intro bytes hb hne hlen
    rw [loadBinary_eq T object hb hne, if_pos (Or.inl hlen)]

/-- Identifiers that are given by their bytes. -/
instance : Uint128 { id : Bytes // id.length = sizeofUint128 } where
  bytes id := id.1
  read bytes := ⟨truncate bytes sizeofUint128, length_truncate _ _⟩
  length_bytes id := id.2
  read_bytes id rest := by
    refine Subtype.ext ?_
    show truncate (id.1 ++ rest) sizeofUint128 = id.1
    simp [truncate, ← id.2]

/-- Objects that are their own bytes. -/
def note : Serializable { id : Bytes // id.length = sizeofUint128 } Bytes where
  getTypeIdentifier _ := ⟨List.replicate 16 7, rfl⟩
  toBinary o := o
  fromBinary _ data := (true, data)

theorem load_save_binary_note :
    ∃ files', saveBinary note [1, 2] (fun _ : Unit => none) () 3 4096 = .ok (true, files') ∧
      loadBinary note [] files' () 4 8192 = .ok (true, [1, 2]) := by
  obtain ⟨⟨files', hsave, hload, -⟩, -⟩ :=
    load_save_binary note note [1, 2] [] (fun _ : Unit => none) () 3 4096 4 8192
  exact ⟨files', hsave, hload rfl⟩

end Lunchbox.File
