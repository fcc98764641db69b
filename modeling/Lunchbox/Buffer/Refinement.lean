import Lunchbox.Buffer.Model
import Lunchbox.Buffer.SpareList

set_option autoImplicit false

/-! # The functions of a buffer

A family of buffers owns the heap, and each of them represents a list with spare capacity (`Rep`).
Every function of one buffer is defined, keeps this, and is the operation of the list; the other
buffers keep theirs.
-/

namespace Lunchbox.Buffer

open Storage Function

variable {T ι : Type} {P : Params}

/-- The buffers represent the lists. -/
structure Rep (P : Params) (H : Memory T) (b : ι → Buffer) (t : ι → SpareList T) : Prop where
  owned : H.Owned (fun k => (b k).data) fun k => (t k).cells
  size : ∀ k, (b k).size = (t k).size
  maxSize : ∀ k, (b k).maxSize = (t k).cells.length
  bytes : ∀ k, (t k).cells.length * P.elemSize < 2 ^ 64

variable {H H' : Memory T} {b : ι → Buffer} {t : ι → SpareList T} {k m : ι} {n : Nat}

theorem rep_new : Rep P (Heap.empty : Memory T) (fun _ : ι => new) fun _ => SpareList.empty :=
  ⟨Heap.owned_empty, fun _ => rfl, fun _ => rfl, fun _ => by simp [SpareList.empty]⟩

/-! ## Arithmetic -/

theorem uint64_of_lt (h : n < 2 ^ 64) : uint64 n = n := Nat.mod_eq_of_lt h

theorem Params.Fits.bytes (h : P.Fits n) : n * P.elemSize < 2 ^ 64 :=
  Nat.lt_of_le_of_lt (Nat.mul_le_mul_right _ (Nat.le_add_right _ _)) h

theorem Params.lt_of_bytes (P : Params) (h : n * P.elemSize < 2 ^ 64) : n < 2 ^ 64 :=
  Nat.lt_of_le_of_lt (Nat.le_mul_of_pos_right _ P.elemSize_pos) h

/-! ## One buffer -/

theorem Rep.read (h : Rep P H b t) (hm : (t m).size ≠ 0) :
    H.read (b m).data (b m).size = some (t m).elements := by
  have hle := (t m).size_le
  rw [h.size m]
  exact h.owned.read (List.ne_nil_of_length_pos (by omega)) hle

variable [DecidableEq ι]

theorem update_data (b : ι → Buffer) (k : ι) (x : Buffer) :
    (fun j => (update b k x j).data) = update (fun j => (b j).data) k x.data :=
  funext fun j => apply_update (fun _ => Buffer.data) b k x j

theorem update_cells (t : ι → SpareList T) (k : ι) (l : SpareList T) :
    (fun j => (update t k l j).cells) = update (fun j => (t j).cells) k l.cells :=
  funext fun j => apply_update (fun _ => SpareList.cells) t k l j

/-- A buffer is replaced by one that represents the list `l`. -/
theorem Rep.update (h : Rep P H b t) {x : Buffer} {l : SpareList T}
    (howned : H'.Owned (update (fun j => (b j).data) k x.data)
      (update (fun j => (t j).cells) k l.cells))
    (hsize : x.size = l.size) (hmax : x.maxSize = l.cells.length)
    (hbytes : l.cells.length * P.elemSize < 2 ^ 64) :
    Rep P H' (update b k x) (update t k l) := by
  refine ⟨?_, fun j => ?_, fun j => ?_, fun j => ?_⟩
  · rwa [update_data, update_cells]
  all_goals
    by_cases hj : j = k
    · subst hj
      simpa only [update_self]
    · simp only [update_of_ne hj, h.size, h.maxSize, h.bytes]

/-- The pointers and cells are kept. -/
theorem Rep.update_size (h : Rep P H b t) (hn : n ≤ (t k).cells.length) :
    Rep P H (Function.update b k { b k with size := n })
      (Function.update t k ⟨(t k).cells, n, hn⟩) := by
  refine h.update ?_ rfl (h.maxSize k) (h.bytes k)
  simpa only [update_eq_self] using h.owned

/-- **Reallocation** to `n` elements, of which `l.size` are in use. -/
theorem Rep.reallocate (h : Rep P H b t) (hn : n * P.elemSize < 2 ^ 64) {l : SpareList T}
    (hl : l.cells = resized (t k).cells n none) :
    ∃ q H', Buffer.reallocate P H (b k).data (uint64 (n * P.elemSize)) = some (q, H') ∧
      Rep P H' (Function.update b k ⟨q, l.size, n⟩) (Function.update t k l) := by
  have hlen : l.cells.length = n := by rw [hl, length_resized]
  rw [uint64_of_lt hn, Buffer.reallocate]
  split_ifs with hz
  · -- the block is freed, and no element was asked for
    have hzero : n = 0 := by
      rcases Nat.mul_eq_zero.mp hz.1 with hn0 | he
      · exact hn0
      · exact absurd he (Nat.ne_of_gt P.elemSize_pos)
    have hnil : l.cells = [] := List.length_eq_zero_iff.mp (hlen.trans hzero)
    obtain ⟨H', hfree, howned⟩ := h.owned.free k
    refine ⟨none, H', by rw [hfree, Option.map_some], ?_⟩
    exact h.update (by rwa [hnil]) rfl hlen.symm (by rwa [hlen])
  · obtain ⟨H', hrealloc, howned⟩ := h.owned.realloc k n none
    rw [Nat.mul_div_cancel _ P.elemSize_pos]
    refine ⟨some H.next, H', by rw [hrealloc, Option.map_some], ?_⟩
    exact h.update (by rwa [hl]) rfl hlen.symm (by rwa [hlen])

theorem Rep.write (h : Rep P H b t) {i : Nat} {data : List (Option T)} (hd : data ≠ [])
    (hi : i + data.length ≤ (t k).cells.length) :
    ∃ H', H.write (b k).data i data = some H' ∧
      Rep P H' b (Function.update t k ((t k).write i data)) := by
  obtain ⟨hcells, hsize⟩ := (t k).write_of_le hi
  have hlen : ((t k).write i data).cells.length = (t k).cells.length := by
    rw [hcells, length_overwrite hi]
  obtain ⟨H', hwrite, howned⟩ := h.owned.write hd hi
  have hrep : Rep P H' (Function.update b k (b k))
      (Function.update t k ((t k).write i data)) := by
    refine h.update ?_ ((h.size k).trans hsize.symm) ((h.maxSize k).trans hlen.symm) ?_
    · rwa [update_eq_self, hcells]
    · rw [hlen]
      exact h.bytes k
  exact ⟨H', hwrite, by rwa [update_eq_self] at hrep⟩

theorem Rep.swap (h : Rep P H b t) (k m : ι) :
    Rep P H (b ∘ Equiv.swap k m) (t ∘ Equiv.swap k m) :=
  ⟨h.owned.swap k m, fun _ => h.size _, fun _ => h.maxSize _, fun _ => h.bytes _⟩

/-! ## The functions -/

/-- The function is defined for the buffer `k`, which then represents the list `l`. -/
def Gives (P : Params) (b : ι → Buffer) (t : ι → SpareList T) (k : ι)
    (f : Option (Buffer × Memory T)) (l : SpareList T) : Prop :=
  ∃ r, f = some r ∧ Rep P r.2 (update b k r.1) (update t k l)

theorem Rep.gives_self (h : Rep P H b t) (k : ι) : Gives P b t k (some (b k, H)) (t k) := by
  refine ⟨_, rfl, ?_⟩
  simpa only [update_eq_self] using h

/-- A function after another one. -/
theorem Gives.bind {f : Option (Buffer × Memory T)}
    {g : Buffer × Memory T → Option (Buffer × Memory T)} {l l' : SpareList T}
    (hf : Gives P b t k f l)
    (hg : ∀ r, Rep P r.2 (update b k r.1) (update t k l) →
      Gives P (update b k r.1) (update t k l) k (g r) l') : Gives P b t k (f.bind g) l' := by
  obtain ⟨r, rfl, hr⟩ := hf
  obtain ⟨r', he, hr'⟩ := hg r hr
  rw [update_idem, update_idem] at hr'
  exact ⟨r', he, hr'⟩

theorem clear_spec (h : Rep P H b t) (k : ι) : Gives P b t k (clear H (b k)) SpareList.empty := by
  obtain ⟨H', hfree, howned⟩ := h.owned.free k
  refine ⟨(new, H'), by rw [clear, hfree, Option.map_some], ?_⟩
  exact h.update howned rfl rfl (by simp [SpareList.empty])

theorem pack_spec (h : Rep P H b t) (k : ι) : Gives P b t k (pack P H (b k)) (t k).pack := by
  have hle := (t k).size_le
  have hbytes : (t k).size * P.elemSize < 2 ^ 64 :=
    Nat.lt_of_le_of_lt (Nat.mul_le_mul_right _ hle) (h.bytes k)
  unfold pack
  rw [h.maxSize, h.size]
  split_ifs with hne
  · obtain ⟨q, H', hrealloc, hrep⟩ := h.reallocate (k := k) (l := (t k).pack) hbytes rfl
    exact ⟨_, by rw [hrealloc, Option.map_some], hrep⟩
  · have hpack : (t k).pack = t k := (t k).pack_of_full (not_not.mp hne)
    rw [hpack]
    exact h.gives_self k

theorem resize_spec (h : Rep P H b t) (k : ι) (hn : P.Fits n) :
    Gives P b t k (resize P H (b k) n) ((t k).resize n) := by
  have hshift : n >>> 3 = n / 8 := Nat.shiftRight_eq_div_pow n 3
  unfold resize
  by_cases hle : n ≤ (t k).cells.length
  · rw [SpareList.resize_of_le _ hle]
    simp only [h.maxSize, if_pos hle]
    refine ⟨_, rfl, ?_⟩
    simpa only [h.maxSize] using h.update_size hle
  · obtain ⟨q, H', hrealloc, hrep⟩ :=
      h.reallocate (k := k) (l := (t k).resize n) hn ((t k).cells_resize (Nat.not_le.mp hle))
    simp only [h.maxSize, if_neg hle, hshift, uint64_of_lt (P.lt_of_bytes hn), hrealloc]
    refine ⟨_, rfl, ?_⟩
    rw [SpareList.size_resize] at hrep
    exact hrep

theorem grow_spec (h : Rep P H b t) (k : ι) (hn : P.Fits n) :
    Gives P b t k (grow P H (b k) n) ((t k).grow n) := by
  unfold grow SpareList.grow
  rw [h.size]
  split_ifs
  · exact resize_spec h k hn
  · exact h.gives_self k

theorem reserve_spec (h : Rep P H b t) (k : ι) (hn : n * P.elemSize < 2 ^ 64) :
    Gives P b t k (reserve P H (b k) n) ((t k).reserve n) := by
  unfold reserve
  rw [h.maxSize]
  split_ifs with hle
  · rw [SpareList.reserve_of_le _ hle]
    exact h.gives_self k
  · obtain ⟨q, H', hrealloc, hrep⟩ :=
      h.reallocate (k := k) (l := (t k).reserve n) hn ((t k).cells_reserve (Nat.not_le.mp hle))
    refine ⟨_, by rw [hrealloc, Option.map_some], ?_⟩
    rw [SpareList.size_reserve, ← h.size] at hrep
    exact hrep

theorem setSize_spec (h : Rep P H b t) (k : ι) (n : Nat) :
    (setSize (b k) n).1 = ((t k).setSize n).1 ∧
      Rep P H (update b k (setSize (b k) n).2) (update t k ((t k).setSize n).2) := by
  unfold setSize
  rw [h.maxSize]
  by_cases hle : n ≤ (t k).cells.length
  · rw [if_neg (Nat.not_lt.mpr hle), SpareList.setSize_of_le _ hle]
    exact ⟨rfl, by simpa only [h.maxSize] using h.update_size hle⟩
  · rw [if_pos (Nat.not_le.mp hle), SpareList.setSize_of_lt _ (Nat.not_le.mp hle)]
    exact ⟨rfl, by simpa only [update_eq_self] using h⟩

theorem reset_spec (h : Rep P H b t) (k : ι) (hn : P.Fits n) :
    Gives P b t k (reset P H (b k) n) ((t k).reset n) := by
  obtain ⟨r, hr, hrep⟩ := reserve_spec h k hn.bytes
  refine ⟨_, by rw [reset, hr, Option.map_some], ?_⟩
  have := (setSize_spec hrep k n).2
  rwa [update_self, update_self, update_idem, update_idem] at this

theorem append_spec (h : Rep P H b t) (k : ι) {data : List (Option T)} (hd : data ≠ [])
    (hn : P.Fits ((b k).size + data.length)) :
    Gives P b t k (append P H (b k) data) ((t k).append data) := by
  rw [append, uint64_of_lt (P.lt_of_bytes hn.bytes)]
  refine (resize_spec h k hn).bind fun r hr => ?_
  rw [h.size] at hr ⊢
  have hcap : (t k).size + data.length ≤
      (update t k ((t k).resize ((t k).size + data.length)) k).cells.length := by
    rw [update_self]
    exact (t k).le_capacity_resize
  obtain ⟨H', hwrite, hrep⟩ := hr.write hd hcap
  rw [update_self] at hwrite
  refine ⟨_, by rw [hwrite, Option.map_some], ?_⟩
  rw [update_self] at hrep
  rw [update_idem]
  exact hrep

/-- The data is written to the start of the buffer, and is all of it. -/
theorem fill_spec (h : Rep P H b t) (k : ι) {data : List (Option T)} (hd : data ≠ [])
    (hcap : data.length ≤ (t k).cells.length) :
    Gives P b t k ((H.write (b k).data 0 data).map fun H => ({ b k with size := data.length }, H))
      (((t k).write 0 data).setSize data.length).2 := by
  have hcap : 0 + data.length ≤ (t k).cells.length := by rwa [Nat.zero_add]
  obtain ⟨H', hwrite, hrep⟩ := h.write hd hcap
  refine ⟨_, by rw [hwrite, Option.map_some], ?_⟩
  have := (setSize_spec hrep k data.length).2
  rw [update_self, update_idem] at this
  have hmax : ¬ (b k).maxSize < data.length := by
    rw [h.maxSize]
    omega
  rwa [setSize, if_neg hmax] at this

theorem replace_spec (h : Rep P H b t) (k : ι) {data : List (Option T)} (hd : data ≠ [])
    (hn : data.length * P.elemSize < 2 ^ 64) :
    Gives P b t k (replace P H (b k) data) ((t k).replace data) := by
  refine (reserve_spec h k hn).bind fun r hr => ?_
  have := fill_spec hr k hd (by rw [update_self]; exact (t k).le_capacity_reserve)
  rwa [update_self, update_self] at this

/-- The elements of the other buffer are still there after the reallocation. -/
theorem replaceFrom_spec (h : Rep P H b t) (hkm : k ≠ m) (hm : (t m).size ≠ 0) :
    Gives P b t k (replaceFrom P H (b k) (b m)) ((t k).replace (t m).elements) := by
  have hlen := (t m).length_elements
  have hd : (t m).elements ≠ [] := List.ne_nil_of_length_pos (by omega)
  have hn : (t m).size * P.elemSize < 2 ^ 64 :=
    Nat.lt_of_le_of_lt (Nat.mul_le_mul_right _ (t m).size_le) (h.bytes m)
  rw [replaceFrom, SpareList.replace, hlen, h.size]
  refine (reserve_spec h k hn).bind fun r hr => ?_
  have hread := hr.read (m := m) (by rwa [update_of_ne hkm.symm])
  rw [update_of_ne hkm.symm, update_of_ne hkm.symm, h.size] at hread
  have := fill_spec hr k hd (by rw [update_self, hlen]; exact (t k).le_capacity_reserve)
  rw [update_self, update_self, hlen] at this
  rwa [hread]

theorem copyConstruct_spec (h : Rep P H b t) (hkm : k ≠ m) :
    Gives P b t k (copyConstruct P H (b k) (b m)) (SpareList.empty.replace (t m).elements) := by
  refine (clear_spec h k).bind fun r hr => ?_
  have hm : update t k SpareList.empty m = t m := update_of_ne hkm.symm _ _
  rw [h.size]
  split_ifs with hzero
  · have hnil : (t m).elements = [] :=
      List.length_eq_zero_iff.mp ((t m).length_elements.trans hzero)
    have := hr.gives_self k
    rw [update_self, update_self] at this
    rwa [hnil, SpareList.replace_nil]
  · have := replaceFrom_spec hr hkm (by rwa [hm])
    rwa [update_self, update_self, hm, update_of_ne hkm.symm] at this

end Lunchbox.Buffer
