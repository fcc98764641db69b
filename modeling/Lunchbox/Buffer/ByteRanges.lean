import Lunchbox.Buffer.Bytes

set_option autoImplicit false

/-! # The bytes that `Buffer` functions affect

Which bytes the functions of a `Buffer` write, keep and clear, in runs where the requests do not
overflow and `realloc` succeeds. All of them convert elements to bytes, but `setZero`: it clears
`_size` bytes. So the functions affect exactly the bytes of their elements if and only if, whenever
`setZero` is called, the other bytes of the content are 0 already (`byte_ranges_iff`), as in a
buffer of bytes.
-/

namespace Lunchbox.Buffer.Bytes

open StateMachine

/-! ## The property and the condition -/

section Property

variable (w : UInt64)

def getNumBytes (b : State) : UInt64 := b.size * w

/-- No byte is changed. -/
def SameBytes (b b' : State) : Prop := ∀ i, byteAt b'.data i = byteAt b.data i

/-- The bytes from `first` to `last` are those of the values, and no other byte is changed. -/
def Written (b b' : State) (first last : Nat) (value : Nat → UInt8) : Prop :=
  ∀ i, byteAt b'.data i
    = if first ≤ i ∧ i < last then some (value (i - first)) else byteAt b.data i

/-- What a function should do to the bytes of the buffer, from `b` to `b'`. -/
def Affects (b b' : State) : Op → Prop
  | .resize n => b'.size = n ∧ SameBytes b b'
  | .grow n => b'.size.toNat = max b.size.toNat n.toNat ∧ SameBytes b b'
  | .reserve _ => b'.size = b.size ∧ SameBytes b b'
  -- existing data may be deleted
  | .reset n => b'.size = n
  | .append data k =>
      b'.size.toNat = b.size.toNat + k.toNat ∧
        Written b b' (b.size.toNat * w.toNat) (b'.size.toNat * w.toNat) data
  | .replace data k => b'.size = k ∧ Written b b' 0 (k.toNat * w.toNat) data
  -- the memory behind the content is released
  | .pack =>
      b'.size = b.size ∧ ∀ i < b.size.toNat * w.toNat, byteAt b'.data i = byteAt b.data i
  | .setSize _ => SameBytes b b'
  | .setZero => b'.size = b.size ∧ Written b b' 0 (getNumBytes w b).toNat fun _ => 0
  | .put i x =>
      b'.size = b.size ∧
        Written b b' (i.toNat * w.toNat) (i.toNat * w.toNat + w.toNat) x
  | .clear => b'.size = 0

/-- The last function has affected the right bytes, and `getNumBytes` is the number of the content
bytes. -/
def Exact (tr : List ((Op × Bool) × Output)) (b' : State) : Prop :=
  (getNumBytes w b').toNat = b'.size.toNat * w.toNat ∧
    ∀ pre a o b, tr = pre ++ [(a, o)] → (buffer w).Trace pre b → Affects w b b' a.1

/-- A function calls `realloc` for at least one byte. -/
def Reallocates (b : State) : Op → Prop
  | .resize n => b.maxSize < n
  | .grow n => b.size < n ∧ b.maxSize < n
  | .reserve n => b.maxSize < n
  | .reset n => b.maxSize < n
  | .append _ k => b.maxSize < b.size + k
  | .replace _ k => b.maxSize < k
  | .pack => b.maxSize ≠ b.size ∧ b.size ≠ 0
  | _ => False

instance (b : State) : ∀ op, Decidable (Reallocates b op)
  | .resize _ | .reserve _ | .reset _ | .append _ _ | .replace _ _ =>
      inferInstanceAs (Decidable (_ < _))
  | .grow _ | .pack => inferInstanceAs (Decidable (_ ∧ _))
  | .setSize _ | .setZero | .put _ _ | .clear => isFalse id

/-- The number of bytes does not overflow, and `realloc` succeeds. -/
def Provided (b : State) (a : Op × Bool) : Prop :=
  Countable w b a.1 ∧ (Reallocates b a.1 → a.2 = true)

instance (b : State) (a : Op × Bool) : Decidable (Provided w b a) :=
  inferInstanceAs (Decidable (_ ∧ _))

/-- The content bytes that `setZero` leaves out are 0. -/
def Cleared (b : State) : Op × Bool → Prop
  | (.setZero, _) => ∀ i < b.size.toNat * w.toNat, b.size.toNat ≤ i → byteAt b.data i = some 0
  | _ => True

instance (b : State) : ∀ a, Decidable (Cleared w b a)
  | (.setZero, _) => inferInstanceAs (Decidable (∀ i < _, _))
  | (.resize _, _) | (.grow _, _) | (.reserve _, _) | (.reset _, _) | (.append _ _, _)
  | (.replace _ _, _) | (.pack, _) | (.setSize _, _) | (.put _ _, _) | (.clear, _) =>
      isTrue trivial

end Property

/-! ## Bytes -/

variable {w n : UInt64} {b b' : State} {ok : Bool}

/-- The allocated bytes; there are none at a null pointer. -/
def lengthOf (data : Option Block) : Nat := (data.map Block.length).getD 0

theorem byteAt_of_le {data : Option Block} {i : Nat} (h : lengthOf data ≤ i) :
    byteAt data i = none := by
  cases data with
  | none => rfl
  | some block => exact if_neg (not_lt.mpr h)

theorem byteAt_realloc (data : Option Block) (nBytes : UInt64) (i : Nat) :
    byteAt (realloc data nBytes true) i = if i < nBytes.toNat then byteAt data i else none :=
  rfl

/-- `realloc` to more bytes changes none. -/
theorem byteAt_realloc_of_le {data : Option Block} {nBytes : UInt64}
    (h : lengthOf data ≤ nBytes.toNat) (i : Nat) :
    byteAt (realloc data nBytes true) i = byteAt data i := by
  rw [byteAt_realloc]
  split_ifs with hi
  · rfl
  · exact (byteAt_of_le (h.trans (not_lt.mp hi))).symm

theorem byteAt_write {data data' : Option Block} {offset m : Nat} {value : Nat → UInt8}
    (h : write data offset m value = some data') (i : Nat) :
    byteAt data' i
      = if offset ≤ i ∧ i < offset + m then some (value (i - offset)) else byteAt data i := by
  unfold write at h
  split_ifs at h with hm
  · cases h
    rw [if_neg (by omega)]
  · obtain ⟨block, rfl, hb⟩ := Option.bind_eq_some_iff.mp h
    split_ifs at hb with hle
    cases hb
    simp only [byteAt, Option.bind_some]
    by_cases hi : offset ≤ i ∧ i < offset + m
    · rw [if_pos hi, if_pos hi, if_pos (by omega)]
    · rw [if_neg hi, if_neg hi]

theorem lengthOf_write {data data' : Option Block} {offset m : Nat} {value : Nat → UInt8}
    (h : write data offset m value = some data') : lengthOf data' = lengthOf data := by
  rw [lengthOf, write_length h]
  rfl

/-- A write of some bytes is inside of the allocation. -/
theorem write_inside {data data' : Option Block} {offset m : Nat} {value : Nat → UInt8}
    (h : write data offset m value = some data') (hm : 0 < m) : offset + m ≤ lengthOf data := by
  rw [write, if_neg hm.ne'] at h
  obtain ⟨block, rfl, hb⟩ := Option.bind_eq_some_iff.mp h
  split_ifs at hb with hle
  exact hle

/-! ## The invariant -/

/-- The buffer has memory for exactly its maximum size. -/
structure Inv (w : UInt64) (b : State) : Prop where
  length : lengthOf b.data = b.maxSize.toNat * w.toNat
  size : b.size.toNat ≤ b.maxSize.toNat
  counts : Counts w b.maxSize.toNat

theorem inv_new : Inv w new := ⟨by simp [new, lengthOf], le_rfl, by simp [new, Counts]⟩

theorem Counts.mono {m n : Nat} (h : Counts w n) (hle : m ≤ n) : Counts w m :=
  (Nat.mul_le_mul_right _ hle).trans_lt h

theorem Inv.counts_size (h : Inv w b) : Counts w b.size.toNat := h.counts.mono h.size

/-- `realloc` for more elements. -/
theorem Inv.realloc (h : Inv w b) {size m : UInt64} (hle : b.maxSize.toNat ≤ m.toNat)
    (hsize : size.toNat ≤ m.toNat) (hm : Counts w m.toNat) :
    Inv w ⟨realloc b.data (m * w) true, size, m⟩ ∧
      SameBytes b ⟨Bytes.realloc b.data (m * w) true, size, m⟩ := by
  have hbytes := toNat_mul_of_counts hm
  refine ⟨⟨hbytes, hsize, hm⟩, byteAt_realloc_of_le ?_⟩
  rw [h.length, hbytes]
  exact Nat.mul_le_mul_right _ hle

theorem Inv.write (h : Inv w b) {data : Option Block} {offset m : Nat} {value : Nat → UInt8}
    (hw : write b.data offset m value = some data) : Inv w { b with data := data } :=
  ⟨(lengthOf_write hw).trans h.length, h.size, h.counts⟩

/-- **`resize` keeps all bytes.** -/
theorem resize_spec (hw : 0 < w.toNat) (h : Inv w b) (hfits : b.maxSize < n → Fits w n)
    (hok : b.maxSize < n → ok = true) :
    Inv w (resize w b ok n) ∧ (resize w b ok n).size = n ∧ SameBytes b (resize w b ok n) := by
  unfold resize
  simp only
  split_ifs with hn
  · exact ⟨⟨h.length, UInt64.le_iff_toNat_le.mp hn, h.counts⟩, rfl, fun _ => rfl⟩
  · have hlt := UInt64.not_le.mp hn
    have hsum := (hfits hlt).nElems hw
    have hmax := UInt64.lt_iff_toNat_lt.mp hlt
    have hcounts : Counts w (n + n >>> 3).toNat := hsum ▸ hfits hlt
    rw [hok hlt]
    obtain ⟨hinv, hsame⟩ := h.realloc (by omega) (by omega : n.toNat ≤ _) hcounts
    exact ⟨hinv, rfl, hsame⟩

/-- **`reserve` keeps all bytes.** -/
theorem reserve_spec (h : Inv w b) (hcounts : b.maxSize < n → Counts w n.toNat)
    (hok : b.maxSize < n → ok = true) :
    Inv w (reserve w b ok n) ∧ (reserve w b ok n).size = b.size ∧
      SameBytes b (reserve w b ok n) := by
  unfold reserve
  split_ifs with hn
  · exact ⟨h, rfl, fun _ => rfl⟩
  · have hlt := UInt64.not_le.mp hn
    have hmax := UInt64.lt_iff_toNat_lt.mp hlt
    rw [hok hlt]
    obtain ⟨hinv, hsame⟩ := h.realloc hmax.le (h.size.trans hmax.le) (hcounts hlt)
    exact ⟨hinv, rfl, hsame⟩

/-- `reset` and `replace` set a size after `reserve`. -/
theorem Inv.reset (h : Inv w b) (hcounts : b.maxSize < n → Counts w n.toNat)
    (hok : b.maxSize < n → ok = true) : Inv w { reserve w b ok n with size := n } := by
  obtain ⟨hinv, -⟩ := reserve_spec h hcounts hok
  exact ⟨hinv.length, UInt64.le_iff_toNat_le.mp le_maxSize_reserve, hinv.counts⟩

/-- **`pack` keeps the content.** -/
theorem pack_spec (h : Inv w b) (hok : b.maxSize ≠ b.size ∧ b.size ≠ 0 → ok = true) :
    Inv w (pack w b ok) ∧ (pack w b ok).size = b.size ∧
      ∀ i < b.size.toNat * w.toNat, byteAt (pack w b ok).data i = byteAt b.data i := by
  unfold pack
  split_ifs with hne
  · have hbytes := toNat_mul_of_counts h.counts_size
    by_cases hz : b.size = 0
    · -- no bytes, whether `realloc` gives a pointer or not
      have hlen : lengthOf (realloc b.data (b.size * w) ok) = b.size.toNat * w.toNat := by
        cases ok <;> simp [realloc, lengthOf, hz]
      refine ⟨⟨hlen, le_rfl, h.counts_size⟩, rfl, ?_⟩
      intro i hi
      simp [hz] at hi
    · rw [hok ⟨hne, hz⟩]
      refine ⟨⟨hbytes, le_rfl, h.counts_size⟩, rfl, ?_⟩
      intro i hi
      rw [byteAt_realloc, if_pos (by rwa [hbytes])]
  · exact ⟨h, rfl, fun _ _ => rfl⟩

/-! ## Appending -/

/-- The number of bytes of an overflowing number of elements: they do not fit between those that are
there and the end of the address space. -/
theorem toNat_mul_overflow {k : UInt64} {m : Nat} (hw : 0 < w.toNat) (hk : 2 ^ 64 ≤ m + k.toNat)
    (hm : Counts w m) : 0 < (k * w).toNat ∧ 2 ^ 64 ≤ m * w.toNat + (k * w).toNat := by
  -- `k` is `d` below the overflow, and so are the bytes
  obtain ⟨d, hd⟩ : ∃ d, k.toNat + d = 2 ^ 64 := ⟨2 ^ 64 - k.toNat, by have := k.toNat_lt; omega⟩
  obtain ⟨v, hv⟩ : ∃ v, w.toNat = v + 1 := ⟨w.toNat - 1, by omega⟩
  have hdm : d * w.toNat ≤ m * w.toNat := Nat.mul_le_mul_right _ (by omega)
  have hdpos : 0 < d * w.toNat := Nat.mul_pos (by have := k.toNat_lt; omega) hw
  have hlt : m * w.toNat < 2 ^ 64 := hm
  have hbytes : (k * w).toNat = 2 ^ 64 - d * w.toNat := by
    have hsum : k.toNat * w.toNat + d * w.toNat = 2 ^ 64 * v + 2 ^ 64 := by
      rw [← Nat.add_mul, hd, hv, Nat.mul_succ]
    calc (k * w).toNat = (k.toNat * w.toNat) % 2 ^ 64 := UInt64.toNat_mul k w
      _ = (2 ^ 64 * v + (2 ^ 64 - d * w.toNat)) % 2 ^ 64 := by congr 1; omega
      _ = (2 ^ 64 - d * w.toNat) % 2 ^ 64 := Nat.mul_add_mod_self_left _ _ _
      _ = 2 ^ 64 - d * w.toNat := Nat.mod_eq_of_lt (by omega)
  omega

/-- **An `append` whose size overflows does not return:** nothing is allocated for the smaller size,
and `memcpy` leaves the allocation. -/
theorem append_size_lt (hw : 0 < w.toNat) (h : Inv w b) {data : Nat → UInt8} {k : UInt64}
    (happend : append w b ok data k = some b') : b.size.toNat + k.toNat < 2 ^ 64 := by
  by_contra hge
  have hsize := h.size
  have hk := k.toNat_lt
  -- the sum wraps to less than the size, for which there is memory
  have hle : b.size + k ≤ b.maxSize := by
    rw [UInt64.le_iff_toNat_le, UInt64.toNat_add]
    omega
  obtain ⟨d, hd, -⟩ := Option.map_eq_some_iff.mp happend
  rw [show (resize w b ok (b.size + k)).data = b.data by simp [resize, hle]] at hd
  obtain ⟨hpos, hbytes⟩ := toNat_mul_overflow hw (not_lt.mp hge) h.counts_size
  have hinside := write_inside hd hpos
  have hcounts : b.maxSize.toNat * w.toNat < 2 ^ 64 := h.counts
  rw [h.length] at hinside
  omega

/-- **`append` writes behind the content.** -/
theorem append_spec (hw : 0 < w.toNat) (h : Inv w b) {data : Nat → UInt8} {k : UInt64}
    (hfits : b.maxSize < b.size + k → Fits w (b.size + k))
    (hok : b.maxSize < b.size + k → ok = true) (happend : append w b ok data k = some b') :
    Inv w b' ∧ Affects w b b' (.append data k) := by
  have hlt := append_size_lt hw h happend
  have hsum : (b.size + k).toNat = b.size.toNat + k.toNat := by
    rw [UInt64.toNat_add]
    exact Nat.mod_eq_of_lt hlt
  obtain ⟨hinv, hsize, hsame⟩ := resize_spec hw h hfits hok
  obtain ⟨d, hd, rfl⟩ := Option.map_eq_some_iff.mp happend
  have hk : Counts w k.toNat := by
    refine hinv.counts_size.mono ?_
    rw [hsize]
    omega
  refine ⟨hinv.write hd, (congrArg UInt64.toNat hsize).trans hsum, ?_⟩
  intro i
  rw [byteAt_write hd i, hsame i, toNat_mul_of_counts hk, ← Nat.add_mul, ← hsum, hsize]

/-- **`replace` writes the content.** -/
theorem replace_spec (h : Inv w b) {data : Nat → UInt8} {k : UInt64}
    (hcounts : b.maxSize < k → Counts w k.toNat) (hok : b.maxSize < k → ok = true)
    (hreplace : replace w b ok data k = some b') :
    Inv w b' ∧ Affects w b b' (.replace data k) := by
  have hinv := h.reset hcounts hok
  obtain ⟨-, -, hsame⟩ := reserve_spec h hcounts hok
  obtain ⟨d, hd, rfl⟩ := Option.map_eq_some_iff.mp hreplace
  refine ⟨hinv.write hd, rfl, ?_⟩
  intro i
  rw [byteAt_write hd i, hsame i, toNat_mul_of_counts hinv.counts_size, Nat.zero_add]

/-- **`setZero` clears as many bytes as there are elements.** -/
theorem setZero_spec (hw : 0 < w.toNat) (h : Inv w b) (hzero : setZero b = some b') :
    Inv w b' ∧ (Affects w b b' .setZero ↔ Cleared w b (.setZero, ok)) := by
  obtain ⟨d, hd, rfl⟩ := Option.map_eq_some_iff.mp hzero
  have hle : b.size.toNat ≤ b.size.toNat * w.toNat := Nat.le_mul_of_pos_right _ hw
  have hbytes : (getNumBytes w b).toNat = b.size.toNat * w.toNat :=
    toNat_mul_of_counts h.counts_size
  refine ⟨h.write hd, ?_⟩
  simp only [Affects, Cleared, Written, true_and, byteAt_write hd, hbytes, Nat.zero_le,
    Nat.zero_add]
  constructor
  · intro hall i hhi hlo
    have hi := hall i
    rwa [if_neg (not_lt.mpr hlo), if_pos hhi] at hi
  · intro hrest i
    -- cleared, left out by `bzero`, or behind the content
    by_cases hlo : i < b.size.toNat
    · rw [if_pos hlo, if_pos (hlo.trans_le hle)]
    · rw [if_neg hlo]
      by_cases hhi : i < b.size.toNat * w.toNat
      · rw [if_pos hhi, hrest i hhi (not_lt.mp hlo)]
      · rw [if_neg hhi]

/-! ## Runs -/

/-- **One call affects its bytes.** -/
theorem affects_step (hw : 0 < w.toNat) (h : Inv w b) {a : Op × Bool} (hp : Provided w b a)
    {o : Output} (hs : (buffer w).step b a = some (o, b')) :
    Inv w b' ∧ (Affects w b b' a.1 ↔ Cleared w b a) := by
  obtain ⟨op, ok⟩ := a
  obtain ⟨hcount, hok⟩ := hp
  cases op with
  | resize n =>
      cases hs
      obtain ⟨hinv, haffects⟩ := resize_spec hw h hcount hok
      exact ⟨hinv, iff_of_true haffects trivial⟩
  | grow n =>
      cases hs
      simp only [grow]
      split_ifs with hn
      · -- the maximum may be above the new size, and then there is no `realloc`
        obtain ⟨hinv, hsize, hsame⟩ := resize_spec hw h (hcount hn) fun hlt => hok ⟨hn, hlt⟩
        have hlt := UInt64.lt_iff_toNat_lt.mp hn
        refine ⟨hinv, iff_of_true ⟨?_, hsame⟩ trivial⟩
        rw [hsize]
        omega
      · have hle := UInt64.le_iff_toNat_le.mp (UInt64.not_lt.mp hn)
        exact ⟨h, iff_of_true ⟨by omega, fun _ => rfl⟩ trivial⟩
  | reserve n =>
      cases hs
      obtain ⟨hinv, haffects⟩ := reserve_spec h (fun hlt => (hcount hlt).1) hok
      exact ⟨hinv, iff_of_true haffects trivial⟩
  | reset n =>
      cases hs
      simp only [reset_eq]
      exact ⟨h.reset hcount hok, iff_of_true rfl trivial⟩
  | append data k =>
      obtain ⟨t, ht, he⟩ := Option.map_eq_some_iff.mp hs
      cases he
      obtain ⟨hinv, haffects⟩ := append_spec hw h hcount hok ht
      exact ⟨hinv, iff_of_true haffects trivial⟩
  | replace data k =>
      obtain ⟨t, ht, he⟩ := Option.map_eq_some_iff.mp hs
      cases he
      obtain ⟨hinv, haffects⟩ := replace_spec h hcount hok ht
      exact ⟨hinv, iff_of_true haffects trivial⟩
  | pack =>
      cases hs
      obtain ⟨hinv, haffects⟩ := pack_spec h hok
      exact ⟨hinv, iff_of_true haffects trivial⟩
  | setSize n =>
      cases hs
      simp only [setSize]
      split_ifs with hn
      · exact ⟨h, iff_of_true (fun _ => rfl) trivial⟩
      · refine ⟨⟨h.length, ?_, h.counts⟩, iff_of_true (fun _ => rfl) trivial⟩
        exact UInt64.le_iff_toNat_le.mp (UInt64.not_lt.mp hn)
  | setZero =>
      obtain ⟨t, ht, he⟩ := Option.map_eq_some_iff.mp hs
      cases he
      exact setZero_spec hw h ht
  | put i x =>
      obtain ⟨t, ht, he⟩ := Option.map_eq_some_iff.mp hs
      cases he
      obtain ⟨d, hd, rfl⟩ := Option.map_eq_some_iff.mp ht
      exact ⟨h.write hd, iff_of_true ⟨rfl, byteAt_write hd⟩ trivial⟩
  | clear =>
      cases hs
      exact ⟨inv_new, iff_of_true rfl trivial⟩

theorem exact_step (hw : 0 < w.toNat) {tr : List ((Op × Bool) × Output)}
    (ht : (buffer w).Trace tr b) (h : Inv w b) {a : Op × Bool} (hp : Provided w b a) {o : Output}
    (hs : (buffer w).step b a = some (o, b')) :
    Exact w (tr ++ [(a, o)]) b' ↔ Cleared w b a := by
  obtain ⟨hinv, haffects⟩ := affects_step hw h hp hs
  constructor
  · rintro ⟨-, hall⟩
    exact haffects.mp (hall tr a o b rfl ht)
  · intro hc
    refine ⟨toNat_mul_of_counts hinv.counts_size, ?_⟩
    intro pre a' o' b0 he h0
    obtain ⟨rfl, hlast⟩ := List.append_inj' he rfl
    cases hlast
    rw [h0.unique ht]
    exact haffects.mpr hc

/-- **When the functions affect the bytes of their elements.** In a run whose requests do not
overflow and get their memory, each function has written, kept or cleared exactly the bytes of the
elements that it is about, if and only if the content bytes from `getSize()` on were 0 whenever
`setZero` was called. -/
theorem byte_ranges_iff (hw : 0 < w) {tr : List ((Op × Bool) × Output)}
    (h : (buffer w).Trace tr b) (hprovided : (buffer w).Guarded (Provided w) tr) :
    (buffer w).Always (Exact w) tr ↔ (buffer w).Guarded (Cleared w) tr := by
  have hpos := UInt64.lt_iff_toNat_lt.mp hw
  have h0 : Exact w [] (buffer w).init := by
    refine ⟨by simp [getNumBytes, buffer, new], ?_⟩
    intro pre a o b he
    simp at he
  refine h.always_iff_guarded_under (Inv w) inv_new h0 ?_ ?_ hprovided
  · intro b a o b' hinv hp _ hs
    exact (affects_step hpos hinv hp hs).1
  · intro tr b a o b' ht hinv hp _ hs
    exact exact_step hpos ht hinv hp hs

/-- Elements of two bytes, where `setZero` leaves out bytes that are 0. -/
theorem byte_ranges_zeros :
    (buffer 2).Always (Exact 2) [((.append (fun i => if i < 2 then 7 else 0) 2, true), .done),
      ((.setZero, true), .done), ((.pack, true), .done)] := by
  have hr : (buffer 2).run [(.append (fun i => if i < 2 then 7 else 0) 2, true), (.setZero, true),
      (.pack, true)] (buffer 2).init = some (_, _) := rfl
  refine (byte_ranges_iff (by decide) (Machine.Trace.of_run _ hr)
    (Machine.guarded_of_run _ hr ?_)).mpr (Machine.guarded_of_run _ hr ?_)
  · decide
  · decide

/-- One element of four bytes: `setZero` clears the first byte. -/
theorem setZero_incomplete :
    ∃ b, (buffer 4).Trace [((.append (fun _ => 1) 1, true), .done), ((.setZero, true), .done)] b ∧
      (getNumBytes 4 b).toNat = 4 ∧
      (List.range 4).map (byteAt b.data) = [some 0, some 1, some 1, some 1] ∧
      ¬ Exact 4 [((.append (fun _ => 1) 1, true), .done), ((.setZero, true), .done)] b := by
  refine ⟨_, Machine.Trace.of_run [(.append (fun _ => 1) 1, true), (.setZero, true)] rfl, by decide,
    by decide, ?_⟩
  rintro ⟨-, h⟩
  have hall := h [_] _ _ _ rfl (Machine.Trace.of_run [(.append (fun _ => 1) 1, true)] rfl)
  exact absurd (hall.2 1) (by decide)

end Lunchbox.Buffer.Bytes
