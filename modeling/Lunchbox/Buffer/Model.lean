import Lunchbox.Lib.Heap
import Lunchbox.Lib.Machine

set_option autoImplicit false

/-! # `Buffer`

The memory buffer (`buffer.h`, `buffer.ipp`), with `NDEBUG`, over a heap of blocks whose cells hold
an element or are indeterminate (`none`). Sizes are `uint64_t` and their arithmetic wraps. `realloc`
succeeds. A function is `none` if it makes an access that is not defined: through a pointer that is
null or freed, or outside of its block.
-/

namespace Lunchbox

open Storage

structure Buffer where
  data : Option Nat
  size : Nat
  maxSize : Nat
  deriving DecidableEq

namespace Buffer

/-- `sizeof(T)`, and what `realloc` of 0 bytes gives: a null pointer, or one to no elements. -/
structure Params where
  elemSize : Nat
  zeroNull : Bool
  elemSize_pos : 0 < elemSize

variable {T : Type} (P : Params)

/-- Blocks of elements. -/
abbrev Memory (T : Type) := Heap (Option T)

def uint64 (n : Nat) : Nat := n % 2 ^ 64

/-- `realloc(data, nBytes)` -/
def reallocate (H : Memory T) (data : Option Nat) (nBytes : Nat) :
    Option (Option Nat × Memory T) :=
  if nBytes = 0 ∧ P.zeroNull then (H.free data).map fun H => (none, H)
  else (H.realloc data (nBytes / P.elemSize) none).map fun r => (some r.1, r.2)

/-- `Buffer()` -/
def new : Buffer := ⟨none, 0, 0⟩

/-- `clear()`; `free` accepts a null pointer. -/
def clear (H : Memory T) (b : Buffer) : Option (Buffer × Memory T) :=
  (H.free b.data).map fun H => (new, H)

def pack (H : Memory T) (b : Buffer) : Option (Buffer × Memory T) :=
  if b.maxSize ≠ b.size then
    (reallocate P H b.data (uint64 (b.size * P.elemSize))).map fun r =>
      ({ b with data := r.1, maxSize := b.size }, r.2)
  else some (b, H)

def resize (H : Memory T) (b : Buffer) (newSize : Nat) : Option (Buffer × Memory T) :=
  let b := { b with size := newSize }
  if newSize ≤ b.maxSize then some (b, H)
  else
    let nElems := uint64 (newSize + newSize >>> 3)
    let nBytes := uint64 (nElems * P.elemSize)
    (reallocate P H b.data nBytes).map fun r => ({ b with data := r.1, maxSize := nElems }, r.2)

def grow (H : Memory T) (b : Buffer) (newSize : Nat) : Option (Buffer × Memory T) :=
  if b.size < newSize then resize P H b newSize else some (b, H)

def reserve (H : Memory T) (b : Buffer) (newSize : Nat) : Option (Buffer × Memory T) :=
  if newSize ≤ b.maxSize then some (b, H)
  else
    (reallocate P H b.data (uint64 (newSize * P.elemSize))).map fun r =>
      ({ b with data := r.1, maxSize := newSize }, r.2)

def setSize (b : Buffer) (size : Nat) : Bool × Buffer :=
  if b.maxSize < size then (false, b) else (true, { b with size := size })

def reset (H : Memory T) (b : Buffer) (newSize : Nat) : Option (Buffer × Memory T) :=
  (reserve P H b newSize).map fun r => ((setSize r.1 newSize).2, r.2)

/-- `append(data, size)`, from data outside of the heap of buffers. -/
def append (H : Memory T) (b : Buffer) (data : List (Option T)) : Option (Buffer × Memory T) :=
  let oldSize := b.size
  (resize P H b (uint64 (oldSize + data.length))).bind fun r =>
    (r.2.write r.1.data oldSize data).map fun H => (r.1, H)

/-- `replace(data, size)`, from data outside of the heap of buffers. -/
def replace (H : Memory T) (b : Buffer) (data : List (Option T)) : Option (Buffer × Memory T) :=
  (reserve P H b data.length).bind fun r =>
    (r.2.write r.1.data 0 data).map fun H => ({ r.1 with size := data.length }, H)

/-- `replace(from)`; the data of the other buffer is read after the reallocation. -/
def replaceFrom (H : Memory T) (b source : Buffer) : Option (Buffer × Memory T) :=
  (reserve P H b source.size).bind fun r =>
    (r.2.read source.data source.size).bind fun data =>
      (r.2.write r.1.data 0 data).map fun H => ({ r.1 with size := source.size }, H)

/-- The buffer is destroyed, and constructed again as a copy of another one. -/
def copyConstruct (H : Memory T) (b source : Buffer) : Option (Buffer × Memory T) :=
  (clear H b).bind fun r =>
    if source.size = 0 then some r else replaceFrom P r.2 r.1 source

/-- `(*this)[position] = x` -/
def put (H : Memory T) (b : Buffer) (position : Nat) (x : T) : Option (Memory T) :=
  H.write b.data position [some x]

/-! ## Programs -/

/-- What a program does with its buffers. -/
inductive Op (ι T : Type)
  | resize (k : ι) (newSize : Nat)
  | grow (k : ι) (newSize : Nat)
  | reserve (k : ι) (newSize : Nat)
  | reset (k : ι) (newSize : Nat)
  | append (k : ι) (data : List (Option T))
  | replace (k : ι) (data : List (Option T))
  | pack (k : ι)
  | setSize (k : ι) (size : Nat)
  | clear (k : ι)
  /-- `buffers[k].swap(buffers[m])` -/
  | swap (k m : ι)
  /-- `buffers[k] = buffers[m]` -/
  | copy (k m : ι)
  /-- `buffers[k] = std::move(buffers[m])` -/
  | move (k m : ι)
  /-- The buffer `k` is destroyed, and a new one is constructed as a copy of `buffers[m]`. -/
  | copyConstruct (k m : ι)
  /-- The buffer `k` is destroyed, and a new one is constructed from `std::move(buffers[m])`. -/
  | moveConstruct (k m : ι)
  /-- `buffers[k][position] = x` -/
  | put (k : ι) (position : Nat) (x : T)

/-- The result of `setSize`. -/
inductive Output
  | done
  | result (b : Bool)
  deriving DecidableEq

structure State (ι T : Type) where
  memory : Memory T
  buffers : ι → Buffer

variable {ι : Type} [DecidableEq ι]

open StateMachine Function

/-- The buffer `k` after a function of it. -/
def State.set (s : State ι T) (k : ι) (r : Buffer × Memory T) : Output × State ι T :=
  (.done, ⟨r.2, update s.buffers k r.1⟩)

def State.exchange (s : State ι T) (k m : ι) : State ι T :=
  { s with buffers := update (update s.buffers k (s.buffers m)) m (s.buffers k) }

def buffers (P : Params) : Machine (State ι T) (Op ι T) Output where
  init := ⟨Heap.empty, fun _ => new⟩
  step s
    | .resize k n => (resize P s.memory (s.buffers k) n).map (s.set k)
    | .grow k n => (grow P s.memory (s.buffers k) n).map (s.set k)
    | .reserve k n => (reserve P s.memory (s.buffers k) n).map (s.set k)
    | .reset k n => (reset P s.memory (s.buffers k) n).map (s.set k)
    | .append k data => (append P s.memory (s.buffers k) data).map (s.set k)
    | .replace k data => (replace P s.memory (s.buffers k) data).map (s.set k)
    | .pack k => (pack P s.memory (s.buffers k)).map (s.set k)
    | .setSize k n =>
        let (b, buffer) := setSize (s.buffers k) n
        some (.result b, { s with buffers := update s.buffers k buffer })
    | .clear k => (clear s.memory (s.buffers k)).map (s.set k)
    | .swap k m => some (.done, s.exchange k m)
    | .copy k m =>
        if k = m then some (.done, s)
        else (replaceFrom P s.memory (s.buffers k) (s.buffers m)).map (s.set k)
    | .move k m => some (.done, if k = m then s else s.exchange k m)
    | .copyConstruct k m =>
        if k = m then none
        else (copyConstruct P s.memory (s.buffers k) (s.buffers m)).map (s.set k)
    | .moveConstruct k m =>
        if k = m then none
        else
          (clear s.memory (s.buffers k)).map fun r =>
            (.done, ⟨r.2, update (update s.buffers k (s.buffers m)) m new⟩)
    | .put k i x =>
        if i < (s.buffers k).size then
          (put s.memory (s.buffers k) i x).map fun H => (.done, { s with memory := H })
        else none

/-- The size and an eighth of it, times the element size, do not overflow. -/
def Params.Fits (n : Nat) : Prop := (n + n / 8) * P.elemSize < 2 ^ 64

instance (n : Nat) : Decidable (P.Fits n) :=
  inferInstanceAs (Decidable ((n + n / 8) * P.elemSize < 2 ^ 64))

/-- What is required of a call: data that is not empty, and sizes that do not overflow. A buffer is
not constructed from itself. -/
def Pre (s : State ι T) : Op ι T → Prop
  | .resize _ n => P.Fits n
  | .grow _ n => P.Fits n
  | .reserve _ n => P.Fits n
  | .reset _ n => P.Fits n
  | .append k data => data ≠ [] ∧ P.Fits ((s.buffers k).size + data.length)
  | .replace _ data => data ≠ [] ∧ P.Fits data.length
  | .copy k m => k = m ∨ (s.buffers m).size ≠ 0
  | .copyConstruct k m => k ≠ m
  | .moveConstruct k m => k ≠ m
  | .put k i _ => i < (s.buffers k).size
  | _ => True

end Buffer

end Lunchbox
