import Lunchbox.Lib.Heap

set_option autoImplicit false

/-! # Lists with spare capacity

What a buffer is for: cells of which the first `size` are the elements and the others are spare. The
number of cells is the capacity. The operations say what becomes of the cells; that of the elements
follows (`elements_resize` to `elements_replace`). -/

namespace Lunchbox

open Storage

structure SpareList (T : Type) where
  cells : List (Option T)
  size : Nat
  size_le : size ≤ cells.length

namespace SpareList

variable {T : Type}

def elements (l : SpareList T) : List (Option T) := l.cells.take l.size

def empty : SpareList T := ⟨[], 0, Nat.le_refl 0⟩

def resize (l : SpareList T) (n : Nat) : SpareList T :=
  if h : n ≤ l.cells.length then ⟨l.cells, n, h⟩
  else ⟨resized l.cells (n + n / 8) none, n, by rw [length_resized]; omega⟩

def grow (l : SpareList T) (n : Nat) : SpareList T := if l.size < n then l.resize n else l

def reserve (l : SpareList T) (n : Nat) : SpareList T :=
  if h : n ≤ l.cells.length then l
  else ⟨resized l.cells n none, l.size, by have := l.size_le; rw [length_resized]; omega⟩

def setSize (l : SpareList T) (n : Nat) : Bool × SpareList T :=
  if h : n ≤ l.cells.length then (true, ⟨l.cells, n, h⟩) else (false, l)

def reset (l : SpareList T) (n : Nat) : SpareList T := ((l.reserve n).setSize n).2

/-- The cells from `i` on are overwritten, as far as there are cells. -/
def write (l : SpareList T) (i : Nat) (data : List (Option T)) : SpareList T :=
  if h : i + data.length ≤ l.cells.length then
    ⟨overwrite l.cells i data, l.size, by rw [length_overwrite h]; exact l.size_le⟩
  else l

def append (l : SpareList T) (data : List (Option T)) : SpareList T :=
  (l.resize (l.size + data.length)).write l.size data

def replace (l : SpareList T) (data : List (Option T)) : SpareList T :=
  (((l.reserve data.length).write 0 data).setSize data.length).2

def pack (l : SpareList T) : SpareList T :=
  ⟨resized l.cells l.size none, l.size, Nat.le_of_eq (length_resized ..).symm⟩

/-! ## The elements -/

variable (l : SpareList T) {n i : Nat} {data : List (Option T)}

@[simp] theorem length_elements : l.elements.length = l.size :=
  List.length_take_of_le l.size_le

theorem resize_of_le (h : n ≤ l.cells.length) : l.resize n = ⟨l.cells, n, h⟩ := dif_pos h

theorem cells_resize (h : l.cells.length < n) :
    (l.resize n).cells = resized l.cells (n + n / 8) none := by
  rw [resize, dif_neg (Nat.not_le.mpr h)]

theorem size_resize : (l.resize n).size = n := by
  unfold resize
  split_ifs <;> rfl

theorem le_capacity_resize : n ≤ (l.resize n).cells.length := by
  have := (l.resize n).size_le
  rwa [size_resize] at this

/-- The cells below the old and the new size are kept. -/
theorem take_resize {m : Nat} (hm : m ≤ l.cells.length) (hn : m ≤ n) :
    (l.resize n).cells.take m = l.cells.take m := by
  unfold resize
  split_ifs with h
  · rfl
  · exact take_resized none (Nat.le_trans hn (Nat.le_add_right _ _)) hm

theorem elements_resize : (l.resize n).elements.take l.size = l.elements.take n := by
  have hle := l.size_le
  rw [elements, elements, size_resize, List.take_take, List.take_take, Nat.min_comm n l.size]
  exact l.take_resize (by omega) (by omega)

theorem elements_grow : (l.grow n).elements.take l.size = l.elements := by
  unfold grow
  split_ifs with h
  · rw [elements_resize, List.take_of_length_le]
    rw [length_elements]
    omega
  · exact List.take_of_length_le (Nat.le_of_eq l.length_elements)

theorem size_grow : (l.grow n).size = max l.size n := by
  unfold grow
  split_ifs with h
  · rw [size_resize]
    omega
  · omega

theorem reserve_of_le (h : n ≤ l.cells.length) : l.reserve n = l := dif_pos h

theorem cells_reserve (h : l.cells.length < n) :
    (l.reserve n).cells = resized l.cells n none := by
  rw [reserve, dif_neg (Nat.not_le.mpr h)]

theorem size_reserve : (l.reserve n).size = l.size := by
  unfold reserve
  split_ifs <;> rfl

theorem capacity_reserve : (l.reserve n).cells.length = max l.cells.length n := by
  have := l.size_le
  unfold reserve
  split_ifs
  · omega
  · rw [length_resized]
    omega

theorem le_capacity_reserve : n ≤ (l.reserve n).cells.length := by
  rw [capacity_reserve]
  exact Nat.le_max_right _ _

theorem elements_reserve : (l.reserve n).elements = l.elements := by
  have := l.size_le
  unfold reserve
  split_ifs
  · rfl
  · show (resized l.cells n none).take l.size = l.cells.take l.size
    exact take_resized none (by omega) this

theorem pack_of_full (h : l.cells.length = l.size) : l.pack = l := by
  cases l with
  | mk cells size size_le =>
      have h : cells.length = size := h
      subst h
      simp [pack, resized]

theorem elements_pack : l.pack.elements = l.elements := take_resized none (Nat.le_refl _) l.size_le

theorem setSize_of_le (h : n ≤ l.cells.length) : l.setSize n = (true, ⟨l.cells, n, h⟩) := dif_pos h

theorem setSize_of_lt (h : l.cells.length < n) : l.setSize n = (false, l) :=
  dif_neg (Nat.not_le.mpr h)

theorem size_reset : (l.reset n).size = n := by
  rw [reset, setSize_of_le _ l.le_capacity_reserve]

theorem write_of_le (h : i + data.length ≤ l.cells.length) :
    (l.write i data).cells = overwrite l.cells i data ∧ (l.write i data).size = l.size := by
  unfold write
  rw [dif_pos h]
  exact ⟨rfl, rfl⟩

theorem elements_append : (l.append data).elements = l.elements ++ data := by
  have hle := l.size_le
  have hcap := l.le_capacity_resize (n := l.size + data.length)
  obtain ⟨hcells, hsize⟩ := (l.resize (l.size + data.length)).write_of_le hcap
  rw [append, elements, hcells, hsize, size_resize, take_overwrite hcap,
    l.take_resize hle (Nat.le_add_right _ _)]
  rfl

theorem elements_replace : (l.replace data).elements = data := by
  have hcap : 0 + data.length ≤ (l.reserve data.length).cells.length := by
    rw [Nat.zero_add]
    exact l.le_capacity_reserve
  obtain ⟨hcells, -⟩ := (l.reserve data.length).write_of_le hcap
  have hlen : data.length ≤ ((l.reserve data.length).write 0 data).cells.length := by
    rw [hcells, length_overwrite hcap]
    omega
  have htake := take_overwrite hcap
  rw [Nat.zero_add] at htake
  rw [replace, setSize_of_le _ hlen]
  show ((l.reserve data.length).write 0 data).cells.take data.length = data
  rw [hcells, htake]
  rfl

theorem replace_nil : (empty : SpareList T).replace [] = empty := rfl

theorem elements_write_singleton (x : Option T) (h : i < l.size) :
    (l.write i [x]).elements = l.elements.set i x := by
  have hle := l.size_le
  have hcap : i + [x].length ≤ l.cells.length := Nat.le_trans h hle
  obtain ⟨hcells, hsize⟩ := l.write_of_le hcap
  have hset : overwrite l.cells i [x] = l.cells.set i x := by
    rw [List.set_eq_take_append_cons_drop, if_pos (Nat.lt_of_lt_of_le h hle)]
    rfl
  rw [elements, hcells, hsize, hset, List.take_set]
  rfl

end SpareList

end Lunchbox
