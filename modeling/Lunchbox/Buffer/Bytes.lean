import Lunchbox.Buffer.Model

set_option autoImplicit false

/-! # `Buffer` over bytes

One `Buffer` (`buffer.h`, `buffer.ipp`), with `NDEBUG`, as the memory functions see it: `realloc`,
`memcpy` and `bzero` take numbers of bytes, and the buffer counts elements of `w` bytes. The
arithmetic is that of `uint64_t`, and each `realloc` succeeds or fails as the environment decides,
for any number of bytes. A function is `none` if it accesses memory outside of the allocation.

`resize`, `reserve`, `pack` and their callers compute the number of bytes without a check. If it
overflows, `realloc` is asked for too little and the buffer does not know. So the allocation covers
the elements of the buffer exactly as long as these products do not overflow (`allocated_iff`).
-/

namespace Lunchbox.Buffer.Bytes

open StateMachine

/-! ## Memory -/

/-- A number of allocated bytes; a byte is indeterminate (`none`) until it is written. -/
structure Block where
  length : Nat
  byte : Nat → Option UInt8

/-- A byte of the memory at a pointer; there is none outside of the allocation. -/
def byteAt (data : Option Block) (i : Nat) : Option UInt8 :=
  data.bind fun b => if i < b.length then b.byte i else none

/-- `realloc`: the bytes that both blocks have are kept. -/
def realloc (data : Option Block) (nBytes : UInt64) (ok : Bool) : Option Block :=
  if ok then some ⟨nBytes.toNat, byteAt data⟩ else none

/-- `n` bytes are written at an offset from the pointer; writing nothing needs no allocation. -/
def write (data : Option Block) (offset n : Nat) (value : Nat → UInt8) : Option (Option Block) :=
  if n = 0 then some data
  else
    data.bind fun b =>
      if offset + n ≤ b.length then
        some (some ⟨b.length, fun i =>
          if offset ≤ i ∧ i < offset + n then some (value (i - offset)) else b.byte i⟩)
      else none

/-! ## The buffer -/

/-- The members; the pointer is null or that of its allocation. -/
structure State where
  data : Option Block
  size : UInt64
  maxSize : UInt64

section Functions

-- `sizeof(T)`, the buffer, and whether `realloc` succeeds
variable (w : UInt64) (b : State) (ok : Bool)

def pack : State :=
  if b.maxSize ≠ b.size then
    { b with data := realloc b.data (b.size * w) ok, maxSize := b.size }
  else b

def resize (newSize : UInt64) : State :=
  let b := { b with size := newSize }
  if newSize ≤ b.maxSize then b
  else
    let nElems := newSize + newSize >>> 3
    let nBytes := nElems * w
    { b with data := realloc b.data nBytes ok, maxSize := nElems }

def grow (newSize : UInt64) : State := if newSize > b.size then resize w b ok newSize else b

def reserve (newSize : UInt64) : State :=
  if newSize ≤ b.maxSize then b
  else { b with data := realloc b.data (newSize * w) ok, maxSize := newSize }

def setSize (size : UInt64) : Bool × State :=
  if size > b.maxSize then (false, b) else (true, { b with size := size })

def reset (newSize : UInt64) : State := (setSize (reserve w b ok newSize) newSize).2

/-- `append(data, size)` -/
def append (data : Nat → UInt8) (size : UInt64) : Option State :=
  let oldSize := b.size
  let b := resize w b ok (oldSize + size)
  (write b.data (oldSize.toNat * w.toNat) (size * w).toNat data).map fun d => { b with data := d }

/-- `replace(data, size)` -/
def replace (data : Nat → UInt8) (size : UInt64) : Option State :=
  let b := reserve w b ok size
  (write b.data 0 (size * w).toNat data).map fun d => { b with data := d, size := size }

/-- `setZero()` passes the number of elements to `bzero`. -/
def setZero : Option State :=
  (write b.data 0 b.size.toNat fun _ => 0).map fun d => { b with data := d }

/-- `(*this)[position] = x`, where `x` has the given bytes. -/
def put (position : UInt64) (x : Nat → UInt8) : Option State :=
  (write b.data (position.toNat * w.toNat) w.toNat x).map fun d => { b with data := d }

end Functions

inductive Op
  | resize (newSize : UInt64)
  | grow (newSize : UInt64)
  | reserve (newSize : UInt64)
  | reset (newSize : UInt64)
  | append (data : Nat → UInt8) (size : UInt64)
  | replace (data : Nat → UInt8) (size : UInt64)
  | pack
  | setSize (size : UInt64)
  | setZero
  | put (position : UInt64) (x : Nat → UInt8)
  | clear

def new : State := ⟨none, 0, 0⟩

def call (w : UInt64) (b : State) (ok : Bool) : Op → Option (Output × State)
  | .resize n => some (.done, resize w b ok n)
  | .grow n => some (.done, grow w b ok n)
  | .reserve n => some (.done, reserve w b ok n)
  | .reset n => some (.done, reset w b ok n)
  | .append data k => (append w b ok data k).map fun b => (.done, b)
  | .replace data k => (replace w b ok data k).map fun b => (.done, b)
  | .pack => some (.done, pack w b ok)
  | .setSize n => some (.result (setSize b n).1, (setSize b n).2)
  | .setZero => (setZero b).map fun b => (.done, b)
  | .put i x => (put w b i x).map fun b => (.done, b)
  | .clear => some (.done, new)

/-- A buffer from its construction on; an action says whether `realloc` would succeed. -/
def buffer (w : UInt64) : Machine State (Op × Bool) Output where
  init := new
  step b a := call w b a.2 a.1

/-! ## The property and the condition -/

variable {w : UInt64} {b b' : State} {ok : Bool} {n : UInt64}

/-- A pointer that is not null is that of an allocation for all elements. -/
def Allocated (w : UInt64) (b : State) : Prop :=
  ∀ block, b.data = some block →
    b.size.toNat * w.toNat ≤ block.length ∧ b.maxSize.toNat * w.toNat ≤ block.length

/-- So many elements have a number of bytes. -/
def Counts (w : UInt64) (n : Nat) : Prop := n * w.toNat < 2 ^ 64

instance (n : Nat) : Decidable (Counts w n) := inferInstanceAs (Decidable (_ < _))

/-- The size and an eighth of it have a number of bytes. -/
def Fits (w n : UInt64) : Prop := Counts w (n.toNat + n.toNat / 8)

instance : Decidable (Fits w n) := inferInstanceAs (Decidable (Counts _ _))

/-- If an operation calls `realloc`, then its number of bytes is not too large for 64 bits;
`reserve` then also asks for no less than the size. -/
def Countable (w : UInt64) (b : State) : Op → Prop
  | .resize n => b.maxSize < n → Fits w n
  | .grow n => b.size < n → b.maxSize < n → Fits w n
  | .reserve n => b.maxSize < n → Counts w n.toNat ∧ b.size ≤ n
  | .reset n => b.maxSize < n → Counts w n.toNat
  | .append _ k => b.maxSize < b.size + k → Fits w (b.size + k)
  | .replace _ k => b.maxSize < k → Counts w k.toNat
  | .pack => b.maxSize ≠ b.size → Counts w b.size.toNat
  | _ => True

instance : ∀ op, Decidable (Countable w b op)
  | .resize _ | .grow _ | .reserve _ | .reset _ | .append _ _ | .replace _ _ | .pack =>
      inferInstanceAs (Decidable (_ → _))
  | .setSize _ | .setZero | .put _ _ | .clear => isTrue trivial

/-- Nothing is required of a `realloc` that fails. -/
def Requests (w : UInt64) (b : State) (a : Op × Bool) : Prop := a.2 = true → Countable w b a.1

instance (a : Op × Bool) : Decidable (Requests w b a) := inferInstanceAs (Decidable (_ → _))

/-! ## Bytes of elements -/

/-- A product is not less than it should be exactly if it did not overflow. -/
theorem le_toNat_mul_iff : n.toNat * w.toNat ≤ (n * w).toNat ↔ Counts w n.toNat := by
  rw [UInt64.toNat_mul, Counts]
  constructor
  · intro h
    exact h.trans_lt (Nat.mod_lt _ (by decide))
  · intro h
    exact (Nat.mod_eq_of_lt h).ge

theorem toNat_mul_of_counts (h : Counts w n.toNat) : (n * w).toNat = n.toNat * w.toNat := by
  rw [UInt64.toNat_mul]
  exact Nat.mod_eq_of_lt h

theorem toNat_nElems : (n + n >>> 3).toNat = (n.toNat + n.toNat / 8) % 2 ^ 64 := by
  rw [UInt64.toNat_add, UInt64.toNat_shiftRight]
  simp [Nat.shiftRight_eq_div_pow]

theorem Fits.nElems (hw : 0 < w.toNat) (h : Fits w n) :
    (n + n >>> 3).toNat = n.toNat + n.toNat / 8 := by
  have hle : n.toNat + n.toNat / 8 ≤ (n.toNat + n.toNat / 8) * w.toNat :=
    Nat.le_mul_of_pos_right _ hw
  rw [toNat_nElems]
  exact Nat.mod_eq_of_lt (hle.trans_lt h)

/-- **The bytes that `resize` asks for** are enough, for the size and the new maximum, exactly if
nothing has overflowed: with an overflow of the sum the maximum is below the size, and with one of
the product the bytes are too few for the maximum. -/
theorem nBytes_iff (hw : 0 < w.toNat) :
    (n.toNat * w.toNat ≤ ((n + n >>> 3) * w).toNat ∧
      (n + n >>> 3).toNat * w.toNat ≤ ((n + n >>> 3) * w).toNat) ↔ Fits w n := by
  constructor
  · rintro ⟨hsize, hmax⟩
    have hcounts := le_toNat_mul_iff.mp hmax
    rw [toNat_mul_of_counts hcounts] at hsize
    -- the maximum is not below the size, so that the sum did not wrap
    have hle : n.toNat ≤ (n + n >>> 3).toNat := Nat.le_of_mul_le_mul_right hsize hw
    have hlt := n.toNat_lt
    have hsum : (n + n >>> 3).toNat = n.toNat + n.toNat / 8 := by
      rw [toNat_nElems] at hle ⊢
      omega
    rwa [hsum] at hcounts
  · intro h
    have hsum := h.nElems hw
    have hcounts : Counts w (n + n >>> 3).toNat := by rwa [hsum]
    rw [toNat_mul_of_counts hcounts, hsum]
    exact ⟨Nat.mul_le_mul_right _ (Nat.le_add_right _ _), le_rfl⟩

/-! ## Allocations -/

theorem allocated_new : Allocated w new := by
  intro block h
  cases h

/-- A null pointer needs no allocation. -/
theorem allocated_of_null (h : b.data = none) : Allocated w b := by
  intro block hb
  rw [h] at hb
  cases hb

/-- After a `realloc` only its number of bytes counts. -/
theorem allocated_realloc {data : Option Block} {nBytes size maxSize : UInt64} :
    Allocated w ⟨realloc data nBytes ok, size, maxSize⟩ ↔
      (ok = true →
        size.toNat * w.toNat ≤ nBytes.toNat ∧ maxSize.toNat * w.toNat ≤ nBytes.toNat) := by
  cases ok with
  | false => exact iff_of_true (allocated_of_null rfl) (fun h => by cases h)
  | true =>
      constructor
      · intro h _
        exact h _ rfl
      · intro h block hb
        cases hb
        exact h rfl

/-- A size up to the maximum needs no other allocation. -/
theorem Allocated.setSize (h : Allocated w b) (hn : n ≤ b.maxSize) :
    Allocated w { b with size := n } := by
  intro block hb
  obtain ⟨-, hmax⟩ := h block hb
  exact ⟨(Nat.mul_le_mul_right _ (UInt64.le_iff_toNat_le.mp hn)).trans hmax, hmax⟩

/-- Writing changes no allocation. -/
theorem write_length {data data' : Option Block} {offset n : Nat} {value : Nat → UInt8}
    (h : write data offset n value = some data') :
    data'.map Block.length = data.map Block.length := by
  unfold write at h
  split_ifs at h
  · cases h
    rfl
  · obtain ⟨block, rfl, hb⟩ := Option.bind_eq_some_iff.mp h
    split_ifs at hb
    cases hb
    rfl

theorem allocated_congr {data data' : Option Block} {size maxSize : UInt64}
    (h : data'.map Block.length = data.map Block.length) :
    Allocated w ⟨data', size, maxSize⟩ ↔ Allocated w ⟨data, size, maxSize⟩ := by
  cases data <;> cases data' <;> simp_all [Allocated]

theorem allocated_resize (hw : 0 < w.toNat) (h : Allocated w b) :
    Allocated w (resize w b ok n) ↔ (ok = true → b.maxSize < n → Fits w n) := by
  unfold resize
  simp only
  split_ifs with hn
  · refine iff_of_true (h.setSize hn) ?_
    intro _ hlt
    exact absurd hn (UInt64.not_le.mpr hlt)
  · rw [allocated_realloc, nBytes_iff hw]
    exact imp_congr_right fun _ => (imp_iff_right (UInt64.not_le.mp hn)).symm

theorem allocated_grow (hw : 0 < w.toNat) (h : Allocated w b) :
    Allocated w (grow w b ok n) ↔ (ok = true → b.size < n → b.maxSize < n → Fits w n) := by
  unfold grow
  split_ifs with hn
  · rw [allocated_resize hw h]
    exact imp_congr_right fun _ => (imp_iff_right hn).symm
  · exact iff_of_true h fun _ hlt => absurd hlt hn

theorem allocated_reserve (hw : 0 < w.toNat) (h : Allocated w b) :
    Allocated w (reserve w b ok n) ↔
      (ok = true → b.maxSize < n → Counts w n.toNat ∧ b.size ≤ n) := by
  unfold reserve
  split_ifs with hn
  · exact iff_of_true h fun _ hlt => absurd hn (UInt64.not_le.mpr hlt)
  · rw [allocated_realloc, le_toNat_mul_iff]
    refine imp_congr_right fun _ => ?_
    rw [imp_iff_right (UInt64.not_le.mp hn), and_comm]
    refine and_congr_right fun hcounts => ?_
    rw [toNat_mul_of_counts hcounts, Nat.mul_le_mul_right_iff hw, UInt64.le_iff_toNat_le]

/-- `reserve` leaves room for the size that `reset` and `replace` set. -/
theorem le_maxSize_reserve : n ≤ (reserve w b ok n).maxSize := by
  unfold reserve
  split_ifs with hn
  · exact hn
  · exact UInt64.le_refl n

theorem reset_eq : reset w b ok n = { reserve w b ok n with size := n } := by
  rw [reset, setSize, if_neg (UInt64.not_lt.mpr le_maxSize_reserve)]

theorem allocated_reset (h : Allocated w b) :
    Allocated w (reset w b ok n) ↔ (ok = true → b.maxSize < n → Counts w n.toNat) := by
  rw [reset_eq]
  unfold reserve
  split_ifs with hn
  · refine iff_of_true (h.setSize hn) ?_
    intro _ hlt
    exact absurd hn (UInt64.not_le.mpr hlt)
  · rw [allocated_realloc, and_self, le_toNat_mul_iff]
    exact imp_congr_right fun _ => (imp_iff_right (UInt64.not_le.mp hn)).symm

theorem allocated_pack (h : Allocated w b) :
    Allocated w (pack w b ok) ↔ (ok = true → b.maxSize ≠ b.size → Counts w b.size.toNat) := by
  unfold pack
  split_ifs with hne
  · rw [allocated_realloc, and_self, le_toNat_mul_iff]
    exact imp_congr_right fun _ => (imp_iff_right hne).symm
  · exact iff_of_true h fun _ hne' => absurd hne' hne

/-- What `append` allocates, `resize` has allocated. -/
theorem allocated_append {data : Nat → UInt8} {k : UInt64} (h : append w b ok data k = some b') :
    Allocated w b' ↔ Allocated w (resize w b ok (b.size + k)) := by
  obtain ⟨d, hd, rfl⟩ := Option.map_eq_some_iff.mp h
  exact allocated_congr (write_length hd)

/-- What `replace` allocates, `reset` would allocate. -/
theorem allocated_replace {data : Nat → UInt8} {k : UInt64} (h : replace w b ok data k = some b') :
    Allocated w b' ↔ Allocated w (reset w b ok k) := by
  obtain ⟨d, hd, rfl⟩ := Option.map_eq_some_iff.mp h
  rw [reset_eq]
  exact allocated_congr (write_length hd)

theorem Allocated.written (h : Allocated w b) {offset n : Nat} {value : Nat → UInt8}
    (hs : ((write b.data offset n value).map fun d => { b with data := d }) = some b') :
    Allocated w b' := by
  obtain ⟨d, hd, rfl⟩ := Option.map_eq_some_iff.mp hs
  exact (allocated_congr (write_length hd)).mpr h

/-! ## Runs -/

/-- **One call allocates enough** exactly if its request does not overflow. -/
theorem allocated_step (hw : 0 < w.toNat) (h : Allocated w b) {a : Op × Bool} {o : Output}
    (hs : (buffer w).step b a = some (o, b')) : Allocated w b' ↔ Requests w b a := by
  obtain ⟨op, ok⟩ := a
  cases op with
  | resize n =>
      cases hs
      exact allocated_resize hw h
  | grow n =>
      cases hs
      exact allocated_grow hw h
  | reserve n =>
      cases hs
      exact allocated_reserve hw h
  | reset n =>
      cases hs
      exact allocated_reset h
  | append data k =>
      -- `memcpy` stays inside of the block, and what counts is the `resize` before it
      obtain ⟨t, ht, he⟩ := Option.map_eq_some_iff.mp hs
      cases he
      rw [allocated_append ht]
      exact allocated_resize hw h
  | replace data k =>
      obtain ⟨t, ht, he⟩ := Option.map_eq_some_iff.mp hs
      cases he
      rw [allocated_replace ht]
      exact allocated_reset h
  | pack =>
      cases hs
      exact allocated_pack h
  | setSize n =>
      cases hs
      refine iff_of_true ?_ fun _ => trivial
      unfold setSize
      split_ifs with hn
      · exact h
      · exact h.setSize (UInt64.not_lt.mp hn)
  | setZero =>
      obtain ⟨t, ht, he⟩ := Option.map_eq_some_iff.mp hs
      cases he
      exact iff_of_true (h.written ht) fun _ => trivial
  | put i x =>
      obtain ⟨t, ht, he⟩ := Option.map_eq_some_iff.mp hs
      cases he
      exact iff_of_true (h.written ht) fun _ => trivial
  | clear =>
      cases hs
      exact iff_of_true allocated_new fun _ => trivial

/-- **When a buffer has enough memory.** In a run, the allocation of a buffer with memory has always
covered its size and its maximum size, if and only if no operation that got memory from `realloc`
had asked for a number of bytes that overflows. -/
theorem allocated_iff (hw : 0 < w) {tr : List ((Op × Bool) × Output)}
    (h : (buffer w).Trace tr b) :
    (buffer w).Always (fun _ b => Allocated w b) tr ↔ (buffer w).Guarded (Requests w) tr := by
  refine h.always_iff_guarded allocated_new ?_
  intro tr b a o b' _ hb hs
  exact allocated_step (UInt64.lt_iff_toNat_lt.mp hw) hb hs

/-- A `realloc` that fails and one that succeeds. -/
theorem allocated_retry :
    (buffer 8).Always (fun _ b => Allocated 8 b) [((.resize 16, false), .done),
      ((.reserve 24, true), .done), ((.pack, true), .done), ((.setZero, true), .done)] := by
  have hr : (buffer 8).run [(.resize 16, false), (.reserve 24, true), (.pack, true),
      (.setZero, true)] (buffer 8).init = some (_, _) := rfl
  refine (allocated_iff (by decide) (Machine.Trace.of_run _ hr)).mpr
    (Machine.guarded_of_run _ hr ?_)
  decide

/-- The product overflows: there are 8 bytes for 2 ^ 61 + 1 elements of 8 bytes. -/
theorem allocated_overflow :
    ∃ b, (buffer 8).Trace [((.reset 2305843009213693953, true), .done)] b ∧
      b.size.toNat = 2 ^ 61 + 1 ∧ b.data.map Block.length = some 8 ∧ ¬ Allocated 8 b := by
  refine ⟨_, Machine.Trace.of_run [(.reset 2305843009213693953, true)] rfl, ?_, ?_, ?_⟩
  · decide
  · decide
  · intro h
    exact absurd (h _ rfl).1 (by decide)

end Lunchbox.Buffer.Bytes
